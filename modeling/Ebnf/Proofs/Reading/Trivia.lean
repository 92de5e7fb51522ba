import Ebnf.Proofs.Reading.Ensures
import Ebnf.Proofs.Spelling.Flaw

/-!
# Reading trivia

The reader of comments counts how many are open, while the spelling of a comment
is nested.  `Closes` joins the two: it spells, one behind the other, the insides of
all comments that are open, each with its closing symbol.  A count that has run to
its end has passed such a row, and one that has met a defect has passed a part of
the row and has then gone down into comments that it did not get out of again.
-/

namespace Ebnf

open Byte

/-- The insides of as many open comments as `depth`, from the innermost on, each
up to its `*)`. -/
def Closes : Nat → Bytes → Bytes → Prop
  | 0, input, rest => input = rest
  | depth + 1, input, rest => ∃ middle,
      SpellsInterior input (asterisk :: rightParenthesis :: middle) ∧
        Closes depth middle rest

namespace Closes

variable {depth : Nat} {input rest : Bytes}

theorem close (h : Closes depth input rest) :
    Closes (depth + 1) (asterisk :: rightParenthesis :: input) rest :=
  ⟨input, .done, h⟩

theorem comment {inside : Bytes} (hnonempty : inside.head? ≠ some rightParenthesis)
    (h : Closes (depth + 2) inside rest) :
    Closes (depth + 1) (leftParenthesis :: asterisk :: inside) rest := by
  obtain ⟨middle, hinside, outer, houter, hmore⟩ := h
  exact ⟨outer, .comment hnonempty hinside houter, hmore⟩

theorem byte {b : UInt8} (hopen : ¬[leftParenthesis, asterisk] <+: b :: input)
    (hclose : ¬[asterisk, rightParenthesis] <+: b :: input)
    (h : Closes (depth + 1) input rest) : Closes (depth + 1) (b :: input) rest := by
  obtain ⟨middle, hinterior, hmore⟩ := h
  exact ⟨middle, .byte hopen hclose hinterior, hmore⟩

end Closes

/-- Going through a row of open comments leads down to a fault. -/
inductive Sinks (start : Mark) (error : SyntaxError Mark) : Nat → Bytes → Prop
  | here (hdescends : Descends input rest) (hfault : CommentFault start rest error) :
      Sinks start error depth input
  | later (hinterior : SpellsInterior input (asterisk :: rightParenthesis :: middle))
      (hmore : Sinks start error depth middle) :
      Sinks start error (depth + 1) input

namespace Sinks

variable {start : Mark} {error : SyntaxError Mark} {depth : Nat} {input : Bytes}

theorem interior {middle : Bytes} (hinterior : SpellsInterior input middle)
    (h : Sinks start error depth middle) : Sinks start error depth input := by
  cases h with
  | here hdescends hfault => exact .here (hinterior.descends hdescends) hfault
  | later hinside hmore => exact .later (hinterior.append hinside) hmore

theorem comment {inside : Bytes} (hnonempty : inside.head? ≠ some rightParenthesis)
    (h : Sinks start error (depth + 1) inside) :
    Sinks start error depth (leftParenthesis :: asterisk :: inside) := by
  cases h with
  | here hdescends hfault => exact .here (.deeper .done hnonempty hdescends) hfault
  | later hinside hmore => exact hmore.interior (.comment hnonempty hinside .done)

end Sinks

namespace Reader

open Scanning

theorem not_prefix_of_byte {first second b : UInt8} {input : Bytes}
    (h : ∀ rest, b = first → input = second :: rest → False) :
    ¬[first, second] <+: b :: input := by
  rintro ⟨rest, hrest⟩
  simp only [List.cons_append, List.nil_append, List.cons.injEq] at hrest
  exact h rest hrest.1.symm hrest.2.symm

theorem not_prefix_of_depth {b : UInt8} {input : Bytes} {depth : Nat}
    (hlast : ∀ rest, depth = 0 → b = asterisk → input = rightParenthesis :: rest → False)
    (hclose : ∀ outer rest, depth = outer + 1 → b = asterisk →
      input = rightParenthesis :: rest → False) :
    ¬[asterisk, rightParenthesis] <+: b :: input := by
  apply not_prefix_of_byte
  intro rest hb hinput
  cases depth with
  | zero => exact hlast rest rfl hb hinput
  | succ outer => exact hclose outer rest rfl hb hinput

theorem afterComment_closes {start : Mark} {depth : Nat} {input rest : Bytes}
    (h : afterComment start depth input = .ok rest) : Closes (depth + 1) input rest := by
  fun_induction afterComment start depth input with
  | case1 => cases h
  | case2 rest =>
    cases h
    exact Closes.close rfl
  | case3 depth rest ih => exact (ih h).close
  | case4 => cases h
  | case5 depth rest hnonempty ih => exact (ih h).comment hnonempty
  | case6 depth b rest hlast hclose hopen ih =>
    exact (ih h).byte (not_prefix_of_byte hopen) (not_prefix_of_depth hlast hclose)

theorem afterComment_sinks {start : Mark} {depth : Nat} {input : Bytes}
    {error : SyntaxError Mark} (h : afterComment start depth input = .error error) :
    Sinks start error depth input := by
  fun_induction afterComment start depth input with
  | case1 =>
    cases h
    exact .here (.here .done) .ends
  | case2 => cases h
  | case3 depth rest ih => exact .later .done (ih h)
  | case4 depth rest hempty =>
    cases h
    exact .here (.here .done) (.empty hempty)
  | case5 depth rest hnonempty ih => exact (ih h).comment hnonempty
  | case6 depth b rest hlast hclose hopen ih =>
    have hopen := not_prefix_of_byte hopen
    have hclose := not_prefix_of_depth hlast hclose
    exact (ih h).interior (.byte hopen hclose .done)

theorem afterComment_opener (start : Mark) (depth : Nat) (inside : Bytes) :
    afterComment start depth (leftParenthesis :: asterisk :: inside) =
      if inside.head? = some rightParenthesis then
        .error ⟨.emptyComment, inside.length + 2, inside.length + 1⟩
      else afterComment start (depth + 1) inside := by
  cases depth <;> rfl

theorem afterComment_last (start : Mark) (rest : Bytes) :
    afterComment start 0 (asterisk :: rightParenthesis :: rest) = .ok rest := rfl

theorem afterComment_closer (start : Mark) (depth : Nat) (rest : Bytes) :
    afterComment start (depth + 1) (asterisk :: rightParenthesis :: rest) =
      afterComment start depth rest := rfl

theorem afterComment_byte {start : Mark} {depth : Nat} {b : UInt8} {input : Bytes}
    (hopen : ¬[leftParenthesis, asterisk] <+: b :: input)
    (hclose : ¬[asterisk, rightParenthesis] <+: b :: input) :
    afterComment start depth (b :: input) = afterComment start depth input := by
  have hopener : ∀ rest, b = leftParenthesis → input = asterisk :: rest → False := by
    rintro rest rfl rfl
    exact hopen ⟨rest, rfl⟩
  have hcloser : ∀ rest, b = asterisk → input = rightParenthesis :: rest → False := by
    rintro rest rfl rfl
    exact hclose ⟨rest, rfl⟩
  rw [afterComment]
  · exact hopener
  · exact fun rest _ => hcloser rest
  · exact fun _ rest _ => hcloser rest

/-- The count is back where it was behind anything that is spelled as the inside of
a comment. -/
theorem afterComment_interior {start : Mark} {input rest : Bytes}
    (h : SpellsInterior input rest) (depth : Nat) :
    afterComment start depth input = afterComment start depth rest := by
  induction h generalizing depth with
  | done => rfl
  | comment hnonempty _ _ ihinside ihmore =>
    rw [afterComment_opener, if_neg hnonempty, ihinside, afterComment_closer, ihmore]
  | byte hopen hclose _ ih => rw [afterComment_byte hopen hclose, ih]

theorem comment_opener (inside : Bytes) :
    comment.run (leftParenthesis :: asterisk :: inside) =
      if inside.head? = some rightParenthesis then
        .error (.syntaxError ⟨.emptyComment, inside.length + 2, inside.length + 1⟩)
      else
        match afterComment (inside.length + 2) 0 inside with
        | .error error => .error (.syntaxError error)
        | .ok rest =>
          let interior := inside.take (inside.length - (rest.length + 2))
          .ok ⟨true, [⟨Utf8.text (Bytes.trim interior), inside.length + 2⟩], rest⟩ := by
  change Attempt.outcome (if inside.head? = some rightParenthesis then _ else _) = _
  by_cases hempty : inside.head? = some rightParenthesis
  · rw [if_pos hempty, if_pos hempty]
    rfl
  · rw [if_neg hempty, if_neg hempty]
    cases afterComment (inside.length + 2) 0 inside <;> rfl

theorem comment_run {input rest : Bytes} {k : Comment Mark} (h : SpellsComment input k rest) :
    comment.run input = .ok ⟨true, [k], rest⟩ := by
  cases h with
  | @mk inside _ interior hinput hnonempty hinside =>
    have hafter : afterComment (inside.length + 2) 0 inside = .ok rest := by
      rw [afterComment_interior hinside, afterComment_last]
    have hlength : inside.length - (rest.length + 2) = interior.length := by
      rw [hinput, List.length_append]
      simp only [List.length_cons]
      omega
    have hinterior : inside.take (inside.length - (rest.length + 2)) = interior := by
      rw [hlength, hinput, List.take_left]
    rw [comment_opener, if_neg hnonempty, hafter]
    simp only [hinterior]

theorem comment_run_absent {input : Bytes}
    (h : ¬[leftParenthesis, asterisk] <+: input) :
    comment.run input = .ok ⟨false, [], input⟩ := by
  apply run_of_attempt_ok
  unfold comment
  simp only
  split
  next inside => exact (h ⟨inside, rfl⟩).elim
  next => rfl

theorem comment_spells {inside rest : Bytes}
    (hnonempty : inside.head? ≠ some rightParenthesis)
    (hafter : afterComment (inside.length + 2) 0 inside = .ok rest) :
    SpellsComment (leftParenthesis :: asterisk :: inside)
      ⟨Utf8.text (Bytes.trim (inside.take (inside.length - (rest.length + 2)))),
        inside.length + 2⟩ rest := by
  obtain ⟨middle, hinterior, hmiddle⟩ := afterComment_closes hafter
  have hmiddle : middle = rest := hmiddle
  subst hmiddle
  have hinput := List.suffix_iff_eq_append.1 hinterior.suffix
  exact .mk hinput.symm hnonempty hinterior

theorem comment_broken {inside : Bytes} {error : SyntaxError Mark}
    (hnonempty : inside.head? ≠ some rightParenthesis)
    (hafter : afterComment (inside.length + 2) 0 inside = .error error) :
    BrokenComment (leftParenthesis :: asterisk :: inside) error := by
  cases afterComment_sinks hafter with
  | here hdescends hfault => exact .stopped hnonempty hdescends hfault

theorem ensures_comment (input : Bytes) :
    comment.Ensures (Fault.IsError (BrokenComment input)) input fun found comments rest =>
      if found then ∃ k, comments = [k] ∧ SpellsComment input k rest
      else comments = [] ∧ rest = input ∧ ¬[leftParenthesis, asterisk] <+: input := by
  unfold Ensures
  by_cases hopener : ∃ inside, input = leftParenthesis :: asterisk :: inside
  · obtain ⟨inside, rfl⟩ := hopener
    rw [comment_opener]
    by_cases hempty : inside.head? = some rightParenthesis
    · rw [if_pos hempty]
      exact .empty hempty
    · rw [if_neg hempty]
      cases hafter : afterComment (inside.length + 2) 0 inside with
      | ok rest => exact ⟨_, rfl, comment_spells hempty hafter⟩
      | error error => exact comment_broken hempty hafter
  · have hopener : ¬[leftParenthesis, asterisk] <+: input := by
      rintro ⟨inside, rfl⟩
      exact hopener ⟨inside, rfl⟩
    rw [comment_run_absent hopener]
    simp [hopener]

/-! ### Trivia -/

theorem ensures_triviaPiece (input : Bytes) :
    triviaPiece.Ensures (Fault.IsError (BrokenComment input)) input fun piece comments rest =>
      match piece with
      | none => comments = [] ∧ rest = input ∧ Settled input
      | some _ => SpellsTrivia input comments rest := by
  apply Ensures.bind
  apply Ensures.one
  · rintro b rest rfl hblank
    apply Ensures.pure
    exact .blank hblank .nothing
  · intro hblank
    apply Ensures.bind
    apply (ensures_comment input).mono
    intro found comments rest hcomment
    cases found with
    | true =>
      obtain ⟨k, rfl, hcomment⟩ := hcomment
      apply Ensures.pure
      exact .comment hcomment .nothing
    | false =>
      obtain ⟨rfl, rfl, hopener⟩ := hcomment
      apply Ensures.pure
      exact ⟨rfl, rfl, hblank, hopener⟩

/-- There is only trivia before the place. -/
def BehindTrivia (input place : Bytes) : Prop :=
  ∃ comments, SpellsTrivia input comments place

/-- The loop over pieces is behind trivia in every round. -/
theorem ensures_triviaPieces {input place : Bytes} (hbefore : BehindTrivia input place) :
    (many triviaPiece).Ensures (Fault.IsError (BrokenTrivia input)) place fun _ comments rest =>
      SpellsTrivia place comments rest ∧ Settled rest := by
  apply Ensures.many consumes_triviaPiece _ hbefore
  rintro place ⟨before, hbefore⟩
  have hpiece := (ensures_triviaPiece place).mono_fault fun _ hbroken =>
    hbroken.mono fun _ => BrokenTrivia.mk hbefore
  apply hpiece.mono
  intro piece comments rest hpiece
  cases piece with
  | none =>
    obtain ⟨rfl, rfl, hsettled⟩ := hpiece
    exact ⟨.nothing, hsettled⟩
  | some _ =>
    refine ⟨⟨before ++ comments, hbefore.append hpiece⟩, ?_⟩
    rintro values comments' rest' ⟨hmore, hsettled⟩
    exact ⟨hpiece.append hmore, hsettled⟩

theorem ensures_trivia (input : Bytes) :
    trivia.Ensures (Fault.IsError (BrokenTrivia input)) input fun _ comments rest =>
      SpellsTrivia input comments rest ∧ Settled rest :=
  Ensures.bind_pure (ensures_triviaPieces ⟨[], .nothing⟩)

theorem settled_of_trivia {input rest : Bytes} {comments : List (Comment Mark)}
    (h : trivia.run input = .ok ⟨(), comments, rest⟩) : Settled rest :=
  ((ensures_trivia input).of_ok h).2

/-- A separator takes the trivia behind its symbol with it. -/
theorem settled_of_separator [Runtime] {accepts : Reader Bool} {input rest : Bytes}
    {comments : List (Comment Mark)}
    (h : (separator accepts).run input = .ok ⟨true, comments, rest⟩) : Settled rest := by
  obtain ⟨⟨found, _, middle⟩, second, -, hsecond, heq⟩ := run_bind_eq_ok.1 h
  cases found with
  | false =>
    cases hsecond
    cases heq
  | true =>
    obtain ⟨third, last, htrivia, hlast, rfl⟩ := run_bind_eq_ok.1 hsecond
    cases hlast
    cases heq
    exact settled_of_trivia htrivia

theorem trivia_eq :
    trivia = triviaPiece >>= fun piece =>
      match piece with
      | none => pure ()
      | some _ => trivia := by
  conv => lhs; unfold trivia; rw [many_eq consumes_triviaPiece]
  rw [bind_assoc]
  congr
  funext piece
  cases piece with
  | none => rw [pure_bind]
  | some _ =>
    simp only [bind_assoc, pure_bind]
    rfl

theorem trivia_run_settled {input : Bytes} (h : Settled input) :
    trivia.run input = .ok ⟨(), [], input⟩ := by
  have hpiece : triviaPiece.run input = .ok ⟨none, [], input⟩ := by
    unfold triviaPiece
    rw [run_bind_of_ok (one_run_none h.1), passing_nil,
      run_bind_of_ok (comment_run_absent h.2), passing_nil]
    rfl
  rw [trivia_eq, run_bind_of_ok hpiece, passing_nil, run_pure]

theorem Ensures.bind_trivia [Runtime] {next : Unit → Reader α} {source input : Bytes}
    {post : α → List (Comment Mark) → Bytes → Prop} (hlexes : Lexes source input)
    (h : ∀ comments rest, SpellsTrivia input comments rest → Settled rest →
      (next ()).Ensures (Halts source (Flaw source)) rest fun value comments' rest' =>
        post value (comments ++ comments') rest') :
    (trivia >>= next).Ensures (Halts source (Flaw source)) input post := by
  apply Ensures.bind
  apply ((ensures_trivia input).mono_fault fun _ hbroken =>
    Halts.of_isError hbroken fun _ hbroken => hbroken.flaw hlexes).mono
  rintro _ comments rest ⟨htrivia, hsettled⟩
  exact h comments rest htrivia hsettled

/-- Where no trivia comes next, looking for it changes nothing. -/
theorem Ensures.bind_trivia_settled {next : Unit → Reader α} {input : Bytes}
    {fault : Fault Mark → Prop} {post : α → List (Comment Mark) → Bytes → Prop}
    (hsettled : Settled input) (h : (next ()).Ensures fault input post) :
    (trivia >>= next).Ensures fault input post := by
  apply h.of_run_eq
  rw [run_bind_of_ok (trivia_run_settled hsettled), passing_nil]

theorem trivia_run_blank {b : UInt8} {input : Bytes} (h : isBlank b) :
    trivia.run (b :: input) = trivia.run input := by
  have hpiece : triviaPiece.run (b :: input) = .ok ⟨some (), [], input⟩ := by
    unfold triviaPiece
    rw [run_bind_of_ok (one_run_cons h), passing_nil]
    rfl
  rw [trivia_eq, run_bind_of_ok hpiece, passing_nil, ← trivia_eq]

theorem trivia_run_comment {input rest : Bytes} {k : Comment Mark}
    (h : SpellsComment input k rest) :
    trivia.run input = passing [k] (trivia.run rest) := by
  have hblank : ∀ b, input.head? = some b → ¬isBlank b := by
    obtain ⟨-, -, -⟩ := h
    intro b hb
    cases hb
    decide
  have hpiece : triviaPiece.run input = .ok ⟨some (), [k], rest⟩ := by
    unfold triviaPiece
    rw [run_bind_of_ok (one_run_none hblank), passing_nil, run_bind_of_ok (comment_run h)]
    rfl
  rw [trivia_eq, run_bind_of_ok hpiece, ← trivia_eq]

/-- Trivia that is spelled is passed over, whatever follows. -/
theorem trivia_run {input rest : Bytes} {comments : List (Comment Mark)}
    (h : SpellsTrivia input comments rest) :
    trivia.run input = passing comments (trivia.run rest) := by
  induction h with
  | nothing => rw [passing_nil]
  | blank hblank _ ih => rw [trivia_run_blank hblank, ih]
  | comment hcomment _ ih => rw [trivia_run_comment hcomment, ih, passing_passing]; rfl

theorem trivia_run_of_settled {input rest : Bytes} {comments : List (Comment Mark)}
    (h : SpellsTrivia input comments rest) (hrest : Settled rest) :
    trivia.run input = .ok ⟨(), comments, rest⟩ := by
  rw [trivia_run h, trivia_run_settled hrest, passing_ok, List.append_nil]

end Reader

end Ebnf
