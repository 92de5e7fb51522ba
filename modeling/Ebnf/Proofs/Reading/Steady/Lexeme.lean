import Ebnf.Proofs.Reading.Found
import Ebnf.Proofs.Reading.Production
import Ebnf.Proofs.Reading.Steady.Basic

/-!
# Trivia and lexemes with more bytes behind them

A comment is read on to its end however far that is, and a quoted lexeme to its closing
quote, but then nothing behind them is looked at.  What makes a reader look on is only
that something has not come yet: a name ends at the first byte that does not belong to
it, and trivia where neither a blank nor `(*` comes next.
-/

namespace Ebnf

open Byte

theorem Settled.append {input : Bytes} (h : Settled input) (htwo : 2 ≤ input.length)
    (more : Bytes) : Settled (input ++ more) := by
  constructor
  · rw [Reader.head?_append_of_two_le htwo]
    exact h.1
  · intro hopener
    exact h.2 ((Reader.Steady.prefix_append_iff [leftParenthesis, asterisk] htwo more).1 hopener)

namespace Reader

open Scanning

variable (more : Bytes)

/-! ### Comments -/

theorem emptyComment_shift (inside : Bytes) :
    (⟨.emptyComment, (inside ++ more).length + 2, (inside ++ more).length + 1⟩ :
      SyntaxError Mark) = SyntaxError.map (· + more.length)
        ⟨.emptyComment, inside.length + 2, inside.length + 1⟩ := by
  rw [List.length_append]
  exact congrArg₂ (SyntaxError.mk _) (Nat.add_right_comm ..) (Nat.add_right_comm ..)

theorem afterComment_append {start : Mark} {depth : Nat} {input : Bytes}
    {error : SyntaxError Mark} (h : afterComment start depth input = .error error) :
    error.stop ≤ input.length ∧ (2 ≤ error.stop →
      afterComment (start + more.length) depth (input ++ more) =
        .error (error.map (· + more.length))) := by
  fun_induction afterComment start depth input with
  | case1 =>
    cases h
    exact ⟨Nat.le_refl _, by simp⟩
  | case2 => cases h
  | case3 depth rest ih =>
    obtain ⟨hle, hsame⟩ := ih h
    refine ⟨Nat.le_trans hle (suffix_cons_cons _ _ _).length_le, ?_⟩
    intro htwo
    exact (afterComment_closer _ depth (rest ++ more)).trans (hsame htwo)
  | case4 depth rest hempty =>
    cases h
    refine ⟨Nat.le_succ _, ?_⟩
    intro _
    have hempty' : (rest ++ more).head? = some rightParenthesis := by
      rw [List.head?_append, hempty, Option.some_or]
    refine (afterComment_opener _ depth (rest ++ more)).trans ?_
    rw [if_pos hempty', emptyComment_shift]
  | case5 depth rest hnonempty ih =>
    obtain ⟨hle, hsame⟩ := ih h
    refine ⟨Nat.le_trans hle (suffix_cons_cons _ _ _).length_le, ?_⟩
    intro htwo
    have hclear : (rest ++ more).head? ≠ some rightParenthesis := by
      rwa [head?_append_of_two_le (Nat.le_trans htwo hle)]
    refine (afterComment_opener _ depth (rest ++ more)).trans ?_
    rw [if_neg hclear, hsame htwo]
  | case6 depth b rest hlast hclose hopen ih =>
    obtain ⟨hle, hsame⟩ := ih h
    refine ⟨Nat.le_trans hle (Nat.le_succ _), ?_⟩
    intro htwo
    have hhead := head?_append_of_two_le (Nat.le_trans htwo hle) more
    rw [List.cons_append, afterComment_byte, hsame htwo]
    · rw [pair_prefix_of_head_eq hhead]
      exact not_prefix_of_byte hopen
    · rw [pair_prefix_of_head_eq hhead]
      exact not_prefix_of_depth hlast hclose

theorem comment_append {input : Bytes} {fault : Fault Mark}
    (h : comment.run input = .error fault) :
    fault.stop ≤ input.length ∧ (2 ≤ fault.stop →
      comment.run (input ++ more) = .error (fault.shift more.length)) := by
  by_cases hopener : [leftParenthesis, asterisk] <+: input
  · obtain ⟨inside, rfl⟩ := hopener
    have hrun := comment_opener inside
    have hrun' := comment_opener (inside ++ more)
    by_cases hempty : inside.head? = some rightParenthesis
    · have hempty' : (inside ++ more).head? = some rightParenthesis := by
        rw [List.head?_append, hempty, Option.some_or]
      rw [if_pos hempty] at hrun
      rw [if_pos hempty', emptyComment_shift] at hrun'
      obtain rfl := Except.error.inj (h.symm.trans hrun)
      exact ⟨Nat.le_succ _, fun _ => hrun'⟩
    · rw [if_neg hempty] at hrun
      cases hafter : afterComment (inside.length + 2) 0 inside with
      | ok rest =>
        rw [hafter] at hrun
        cases h.symm.trans hrun
      | error error' =>
        rw [hafter] at hrun
        obtain rfl := Except.error.inj (h.symm.trans hrun)
        obtain ⟨hle, hsame⟩ := afterComment_append more hafter
        refine ⟨Nat.le_trans hle (suffix_cons_cons _ _ _).length_le, ?_⟩
        intro htwo
        have hhead := head?_append_of_two_le (Nat.le_trans htwo hle) more
        have hsame := hsame htwo
        rw [Nat.add_right_comm, ← List.length_append] at hsame
        rw [if_neg (by rwa [hhead]), hsame] at hrun'
        exact hrun'
  · rw [comment_run_absent hopener] at h
    cases h

theorem steady_comment (input : Bytes) : Steady more id comment comment input := by
  cases hrun : comment.run input with
  | error error =>
    obtain ⟨hle, hsame⟩ := comment_append more hrun
    constructor
    · rwa [hrun]
    · rwa [hrun]
  | ok outcome =>
    rcases outcome with ⟨found, comments, rest⟩
    have hfound := (ensures_comment input).of_ok hrun
    cases found with
    | false =>
      obtain ⟨rfl, rfl, hopener⟩ := hfound
      apply Steady.of_still hrun
      intro htwo
      apply comment_run_absent
      intro hprefix
      exact hopener ((Steady.prefix_append_iff [leftParenthesis, asterisk] htwo more).1 hprefix)
    | true =>
      obtain ⟨k, rfl, hcomment⟩ := hfound
      constructor
      · rw [hrun]
        exact hcomment.suffix.length_le
      · rw [hrun]
        intro _
        obtain ⟨front, rfl, hcomment'⟩ := hcomment.replace (Moves.add rest more)
        rw [List.append_assoc, comment_run hcomment']
        rfl

/-! ### Trivia -/

theorem steady_triviaPiece (input : Bytes) :
    Steady more (Option.map id) triviaPiece triviaPiece input := by
  apply Steady.bind_one
  · intro _ _ _ _
    exact .pure rfl
  · apply (steady_comment more input).bind
    intro found _ _ _ _
    cases found with
    | true => exact .pure rfl
    | false => exact .pure rfl

theorem steady_trivia (input : Bytes) : Steady more id trivia trivia input :=
  (Steady.many consumes_triviaPiece (steady_triviaPiece more) input).bind_pure fun _ => rfl

variable {more}

theorem Steady.bind_trivia {next next' : Unit → Reader α} {carry : α → α} {input : Bytes}
    (h : ∀ rest, rest.length ≤ input.length → Settled rest →
      Steady more carry (next ()) (next' ()) rest) :
    Steady more carry (trivia >>= next) (trivia >>= next') input := by
  apply (steady_trivia more input).bind
  intro _ comments rest hrun hle
  exact h rest hle (settled_of_trivia hrun)

/-! ### Names -/

variable [Runtime]

/-- A byte of a name, with the place behind it moved. -/
def shiftLetter (count : Nat) (letter : UInt8 × Mark) : UInt8 × Mark :=
  (letter.1, letter.2 + count)

def shiftName (count : Nat) (name : Extent × Bytes) : Extent × Bytes :=
  (name.1.shift count, name.2)

theorem steady_nameByte (input : Bytes) :
    Steady more (Option.map (shiftLetter more.length)) nameByte nameByte input := by
  apply Steady.bind_one
  · intro _ _ _ _
    apply Steady.bind_mark
    apply Steady.bind_trivia
    intro _ _ _
    exact .pure rfl
  · exact .pure rfl

theorem steady_letters (input : Bytes) :
    Steady more (List.map (shiftLetter more.length)) (many nameByte) (many nameByte) input :=
  Steady.many consumes_nameByte steady_nameByte input

theorem steady_name {input : Bytes} (hsettled : Settled input) :
    Steady more (Option.map (shiftName more.length)) name name input := by
  apply Steady.orUndo
  · apply Steady.bind_trivia
    intro rest _ _
    apply Steady.bind_mark
    apply Steady.bind_current
    split
    · apply (steady_letters rest).bind_pure
      intro letters
      rw [List.getLast?_map, List.map_map, Option.map_map, Option.map_map]
      rfl
    · exact .pure rfl
  · intro comments rest hrun htwo
    have hnone := (ensures_name (.refl : Lexes input input) hsettled).of_ok (orUndo_run_none hrun)
    obtain ⟨-, -, hletter⟩ := hnone
    apply name_run_none (hsettled.append htwo more)
    rwa [head?_append_of_two_le htwo]

theorem steady_identifier {input : Bytes} (hsettled : Settled input) :
    Steady more (Option.map (Primary.map (Extent.shift more.length))) identifier identifier
      input := by
  apply (steady_name hsettled).bind_pure
  intro value
  cases value <;> rfl

/-! ### Quoted lexemes -/

theorem steady_terminal (input : Bytes) :
    Steady more (Option.map (Primary.map (Extent.shift more.length))) terminal terminal
      input := by
  apply Steady.bind_mark
  apply Steady.bind_one
  · intro quote inside _ _
    apply Steady.bind_byte
    · intro rest _
      exact .fail _ _
    · intro _
      apply Steady.bind_takeWhile
      intro content stop _
      apply Steady.bind_current
      cases stop.head? with
      | none => exact .fail _ _
      | some b =>
        apply Steady.bind_byte
        · intro rest _
          apply Steady.bind_mark
          exact .pure rfl
        · intro _
          exact .fail _ _
  · exact .pure rfl

theorem steady_special (input : Bytes) :
    Steady more (Option.map (Primary.map (Extent.shift more.length))) special special
      input := by
  apply Steady.bind_mark
  apply Steady.bind_byte
  · intro inside _
    apply Steady.bind_takeWhile
    intro interior stop _
    apply Steady.bind_byte
    · intro rest _
      apply Steady.bind_mark
      exact .pure rfl
    · intro _
      exact .fail _ _
  · intro _
    exact .pure rfl

/-- A quoted lexeme is found whatever comes behind its closing quote. -/
theorem found_quoted {input rest : Bytes} {p : Primary Extent}
    {comments : List (Comment Mark)} (h : SpellsPrimary input p comments rest)
    {b : UInt8} (hhead : input.head? = some b) (hquote : isQuoting b) (more : Bytes) :
    ∃ outcome, (firstOf [special, terminal]).run (input ++ more) = .ok outcome := by
  cases h with
  | @bracketed opener bracket closer inside definitions _ rest hopener _ _ _ =>
    obtain ⟨first, others, rfl, hfirst⟩ := Bracket.exists_not_isQuoting hopener
    cases hhead
    exact absurd hquote hfirst
  | identifier hname =>
    obtain ⟨first, hfirst, hletter⟩ := hname.head
    obtain rfl := Option.some.inj (hhead.symm.trans hfirst)
    have hinert := isInert_of_isWord (isWord_of_isLetter hletter)
    simp [isInert, hquote] at hinert
  | @terminal quote content _ rest hterminal hnonempty hcontent hinput =>
    subst hinput
    have hquestion : (quote :: (content ++ quote :: rest) ++ more).head? ≠ some questionMark := by
      rcases hterminal with rfl | rfl <;> simp +decide
    rw [firstOf_run_none (special_run_none hquestion), List.cons_append, List.append_assoc,
      List.cons_append, firstOf_run_some (terminal_run hterminal hnonempty hcontent)]
    exact ⟨_, rfl⟩
  | special hinterior hinput =>
    subst hinput
    rw [List.cons_append, List.append_assoc, List.cons_append,
      firstOf_run_some (special_run hinterior)]
    exact ⟨_, rfl⟩

theorem steady_strayLexeme (input : Bytes) : Steady more id strayLexeme strayLexeme input := by
  have h : Steady more (Option.map (Primary.map (Extent.shift more.length)))
      (firstOf [special, terminal]) (firstOf [special, terminal]) input := by
    apply Steady.firstOf_cons (steady_special input)
    intro _ rest _
    apply Steady.firstOf_cons (steady_terminal rest)
    intro _ _ _
    exact .firstOf_nil
  apply h.check
  intro outcome hrun htwo
  have hstray : strayLexeme.run input = .ok ⟨(), [], input⟩ := check_run_ok hrun
  obtain ⟨-, -, hlexeme⟩ := (ensures_strayLexeme (.refl input)).of_ok hstray
  by_cases hquoted : ∃ b, input.head? = some b ∧ isQuoting b
  · obtain ⟨b, hhead, hb⟩ := hquoted
    obtain ⟨p, comments, rest, hp⟩ := hlexeme b hhead (eq_of_isQuoting hb)
    exact found_quoted hp hhead hb more
  · rw [← head?_append_of_two_le htwo more] at hquoted
    rw [firstOf_run_none (special_run_none ?_), firstOf_run_none (terminal_run_none ?_)]
    · exact ⟨_, rfl⟩
    · rintro b hb (rfl | rfl)
      · exact hquoted ⟨_, hb, by decide⟩
      · exact hquoted ⟨_, hb, by decide⟩
    · intro hb
      exact hquoted ⟨_, hb, by decide⟩

end Reader

end Ebnf
