import Ebnf.Proofs.Simulation.Parser
import Ebnf.Proofs.Simulation.Production

/-!
# Parsers pass over the same trivia

A reader takes trivia piece by piece and a comment byte by byte, with the comments that are
open within it as its depth.  A parser has loops of its own for whitespace and for comments,
advances over a CR LF pair in one step, and counts the outermost comment as well.
-/

namespace Ebnf

open Byte Reader

namespace Parser

variable {base : Cursor} {input inside : Bytes}

@[simp] theorem run_atComment_bind (next : Bool → Parser α) (session : Session) :
    (atComment >>= next).run session =
      (next (session.cursor.current == some leftParenthesis &&
        session.cursor.peek == some asterisk)).run session := rfl

/-- Both bytes of a symbol. -/
theorem reaches_two {b c : UInt8} (h : base.Reaches (b :: c :: inside)) (hb : isPrintable b)
    (hc : isPrintable c) :
    base.Reaches inside ∧
      (base.before (b :: c :: inside).length).step = base.before (c :: inside).length ∧
      (base.before (c :: inside).length).step = base.before inside.length := by
  obtain ⟨hmiddle, hfirst⟩ := h.step hb
  obtain ⟨hinside, hsecond⟩ := hmiddle.step hc
  exact ⟨hinside, hfirst, hsecond⟩

theorem openComment_run (h : base.Reaches (leftParenthesis :: asterisk :: inside))
    (start : Position) (comments : List (Comment Position)) (rules : List (Rule Span)) :
    (openComment start).run
        ⟨base.before (leftParenthesis :: asterisk :: inside).length, comments, rules⟩ =
      if inside.head? = some rightParenthesis then
        (.error (.syntaxError ⟨.emptyComment, start, base.positionAt (inside.length + 1)⟩),
          ⟨base.before (inside.length + 1), comments, rules⟩)
      else (.ok (), ⟨base.before inside.length, comments, rules⟩) := by
  obtain ⟨hmiddle, hfirst⟩ := h.step (by decide)
  obtain ⟨-, -, hsecond⟩ := reaches_two h (by decide) (by decide)
  simp only [openComment, run_move_bind, run_cursor_bind, run_ite, hfirst, hmiddle.peek]
  exact congrArg (ite _ _) (congrArg (fun cursor => (_, Session.mk cursor _ _)) hsecond)

/-- Two bytes at a cursor, as they are looked at. -/
theorem prefix_two_iff {b c : UInt8} {input : Bytes} :
    [b, c] <+: input ↔ input.head? = some b ∧ input.tail.head? = some c := by
  constructor
  · rintro ⟨rest, rfl⟩
    exact ⟨rfl, rfl⟩
  · rintro ⟨hfirst, hsecond⟩
    obtain ⟨rest, rfl⟩ := List.head?_eq_some_iff.1 hfirst
    obtain ⟨more, rfl⟩ := List.head?_eq_some_iff.1 hsecond
    exact ⟨more, rfl⟩

/-! ### Rounds inside of comments -/

section Rounds

variable {session : Session} {rounds depth : Nat}

theorem closeComments_run (rounds depth : Nat) (session : Session) :
    (closeComments (rounds + 1) (depth + 1)).run session =
      if session.cursor.atEnd then (.ok (depth + 1), session)
      else if session.cursor.current = some asterisk ∧
          session.cursor.peek = some rightParenthesis then
        (closeComments rounds depth).run { session with cursor := session.cursor.step.step }
      else if session.cursor.current = some leftParenthesis ∧
          session.cursor.peek = some asterisk then
        (openComment session.cursor.position >>= fun _ =>
          closeComments rounds (depth + 2)).run session
      else
        (closeComments rounds (depth + 1)).run
          { session with cursor := session.cursor.advance } := by
  simp [closeComments]

theorem closeComments_closer (h : session.cursor.unread = asterisk :: rightParenthesis :: inside) :
    (closeComments (rounds + 1) (depth + 1)).run session =
      (closeComments rounds depth).run { session with cursor := session.cursor.step.step } := by
  rw [closeComments_run, Cursor.atEnd_eq, Cursor.current, Cursor.peek, h]
  rfl

theorem closeComments_opener
    (h : session.cursor.unread = leftParenthesis :: asterisk :: inside) :
    (closeComments (rounds + 1) (depth + 1)).run session =
      (openComment session.cursor.position >>= fun _ =>
        closeComments rounds (depth + 2)).run session := by
  rw [closeComments_run, Cursor.atEnd_eq, Cursor.current, Cursor.peek, h]
  rfl

theorem closeComments_byte {b : UInt8} (h : session.cursor.unread = b :: input)
    (hopen : ¬[leftParenthesis, asterisk] <+: b :: input)
    (hclose : ¬[asterisk, rightParenthesis] <+: b :: input) :
    (closeComments (rounds + 1) (depth + 1)).run session =
      (closeComments rounds (depth + 1)).run
        { session with cursor := session.cursor.advance } := by
  rw [prefix_two_iff] at hopen hclose
  rw [closeComments_run, Cursor.atEnd_eq, Cursor.current, Cursor.peek, h, if_neg hclose,
    if_neg hopen]
  rfl

end Rounds

/-- The loop inside of comments against the reader of what is inside.  The end of the source
is no error of the loop, but it leaves comments open. -/
inductive Closing (base : Cursor) (start : Mark) (comments : List (Comment Position))
    (rules : List (Rule Span)) :
    Except (SyntaxError Mark) Bytes → Except (Fault Position) Nat × Session → Prop
  | closed {rest : Bytes} (h : base.Reaches rest) :
      Closing base start comments rules (.ok rest)
        (.ok 0, ⟨base.before rest.length, comments, rules⟩)
  | endsOpen (depth : Nat) :
      Closing base start comments rules (.error ⟨.unterminatedComment, start, 0⟩)
        (.ok (depth + 1), ⟨base.before 0, comments, rules⟩)
  | emptyComment (place behind : Mark) :
      Closing base start comments rules (.error ⟨.emptyComment, place, behind⟩)
        (.error (.syntaxError ⟨.emptyComment, base.positionAt place, base.positionAt behind⟩),
          ⟨base.before behind, comments, rules⟩)

theorem closing (start : Mark) (depth : Nat) {rounds : Nat} (comments : List (Comment Position))
    (rules : List (Rule Span)) (h : base.Reaches input) (hrounds : input.length ≤ rounds) :
    Closing base start comments rules (afterComment start depth input)
      ((closeComments rounds (depth + 1)).run ⟨base.before input.length, comments, rules⟩) := by
  induction rounds generalizing depth input with
  | zero =>
    obtain rfl := List.length_eq_zero_iff.1 (Nat.le_zero.1 hrounds)
    exact .endsOpen depth
  | succ rounds ih =>
    rcases input with _ | ⟨b, rest⟩
    · have hrun : (closeComments (rounds + 1) (depth + 1)).run ⟨base.before 0, comments, rules⟩ =
          (.ok (depth + 1), ⟨base.before 0, comments, rules⟩) :=
        (closeComments_run _ _ _).trans (if_pos h.atEnd)
      exact hrun ▸ .endsOpen depth
    · rw [List.length_cons, Nat.add_le_add_iff_right] at hrounds
      by_cases hclose : [asterisk, rightParenthesis] <+: b :: rest
      · obtain ⟨hb, hc⟩ := prefix_two_iff.1 hclose
        obtain rfl := Option.some.inj hb
        obtain ⟨inside, rfl⟩ := List.head?_eq_some_iff.1 hc
        obtain ⟨hinside, hfirst, hsecond⟩ := reaches_two h (by decide) (by decide)
        rw [closeComments_closer h.unread]
        simp only [hfirst, hsecond]
        cases depth with
        | zero =>
          have hdone : (closeComments rounds 0).run ⟨base.before inside.length, comments, rules⟩ =
              (.ok 0, ⟨base.before inside.length, comments, rules⟩) := by
            cases rounds <;> rfl
          rw [hdone]
          exact .closed hinside
        | succ depth => exact ih _ hinside (Nat.le_trans (Nat.le_succ _) hrounds)
      · by_cases hopen : [leftParenthesis, asterisk] <+: b :: rest
        · obtain ⟨hb, hc⟩ := prefix_two_iff.1 hopen
          obtain rfl := Option.some.inj hb
          obtain ⟨inside, rfl⟩ := List.head?_eq_some_iff.1 hc
          obtain ⟨hinside, -, -⟩ := reaches_two h (by decide) (by decide)
          have hopened := openComment_run h
            (base.before (leftParenthesis :: asterisk :: inside).length).position comments rules
          rw [closeComments_opener h.unread, afterComment_opener]
          by_cases hempty : inside.head? = some rightParenthesis
          · rw [if_pos hempty] at hopened ⊢
            rw [run_bind_of_error hopened]
            exact .emptyComment _ _
          · rw [if_neg hempty] at hopened ⊢
            rw [run_bind_of_ok hopened]
            exact ih _ hinside (Nat.le_trans (Nat.le_succ _) hrounds)
        · obtain ⟨rest', hrest, hreach, hadvance⟩ := h.advance
          rw [closeComments_byte h.unread hopen hclose, afterComment_byte hopen hclose]
          simp only [hadvance]
          rcases hrest with rfl | ⟨-, rfl⟩
          · exact ih _ hreach hrounds
          · -- The reader takes the second byte of the pair by itself.
            rw [afterComment_byte (by simp +decide) (by simp +decide)]
            exact ih _ hreach (Nat.le_trans (Nat.le_succ _) hrounds)

/-! ### Comments and trivia -/

theorem collectComment_run (start : Position) (session : Session) :
    (collectComment start).run session = (.ok (), { session with
      comments := session.comments ++ [⟨Utf8.text (Bytes.trim (session.cursor.source.slice
        (start.offset + 2) (session.cursor.position.offset - 2))), start⟩] }) := rfl

theorem comment_run_of_opener {session : Session}
    (h : session.cursor.unread = leftParenthesis :: asterisk :: inside) :
    Parser.comment.run session = (passComment >>= fun _ => pure true).run session := by
  rw [Parser.comment, run_atComment_bind, Cursor.current, Cursor.peek, h]
  rfl

theorem comment_run_of_absent {session : Session}
    (h : ¬[leftParenthesis, asterisk] <+: session.cursor.unread) :
    Parser.comment.run session = (.ok false, session) := by
  rw [prefix_two_iff] at h
  have habsent : (session.cursor.current == some leftParenthesis &&
      session.cursor.peek == some asterisk) = false := by
    rw [Bool.eq_false_iff]
    simpa [Cursor.current, Cursor.peek] using h
  rw [Parser.comment, run_atComment_bind, habsent]
  rfl

/-- Behind the opening symbol of a comment that is not empty. -/
theorem passComment_run (h : base.Reaches (leftParenthesis :: asterisk :: inside))
    (hnonempty : inside.head? ≠ some rightParenthesis) (comments : List (Comment Position))
    (rules : List (Rule Span)) :
    passComment.run
        ⟨base.before (leftParenthesis :: asterisk :: inside).length, comments, rules⟩ =
      (closeComments inside.length 1 >>= fun depth =>
        if depth = 0 then collectComment (base.positionAt (inside.length + 2))
        else fail .unterminatedComment (base.positionAt (inside.length + 2))).run
        ⟨base.before inside.length, comments, rules⟩ := by
  obtain ⟨hinside, -, -⟩ := reaches_two h (by decide) (by decide)
  have hopened := openComment_run h
    (base.before (leftParenthesis :: asterisk :: inside).length).position comments rules
  rw [if_neg hnonempty] at hopened
  rw [passComment, run_place_bind, run_bind_of_ok hopened, run_left_bind, hinside.left]
  rfl

/-- What is cut out of the source behind a comment is what stands between its symbols. -/
theorem slice_interior {interior rest : Bytes}
    (h : leftParenthesis :: asterisk :: (interior ++ asterisk :: rightParenthesis :: rest) <:+
      base.unread) :
    base.source.slice
      ((base.positionAt ((interior ++ asterisk :: rightParenthesis :: rest).length + 2)).offset + 2)
      ((base.positionAt rest.length).offset - 2) = interior := by
  have hlength := h.length_le
  simp only [List.length_cons, List.length_append] at hlength
  have hstart : ((base.positionAt
      ((interior ++ asterisk :: rightParenthesis :: rest).length + 2)).offset + 2 : Int) =
      (base.positionAt (interior ++ asterisk :: rightParenthesis :: rest).length).offset := by
    simp only [Cursor.offset_positionAt, List.length_append, List.length_cons]
    omega
  have hstop : ((base.positionAt rest.length).offset - 2 : Int) =
      (base.positionAt (asterisk :: rightParenthesis :: rest).length).offset := by
    simp only [Cursor.offset_positionAt, List.length_cons]
    omega
  rw [hstart, hstop]
  exact Cursor.slice_unread (((List.suffix_cons _ _).trans (List.suffix_cons _ _)).trans h)

theorem Closing.reaches {start : Mark} {comments : List (Comment Position)}
    {rules : List (Rule Span)} {rest : Bytes} {after : Except (Fault Position) Nat × Session}
    (h : Closing base start comments rules (.ok rest) after) : base.Reaches rest := by
  cases h
  assumption

/-! A comment that is not empty does what comes of the loop inside of it. -/

section Nonempty

variable (h : base.Reaches (leftParenthesis :: asterisk :: inside))
  (hnonempty : inside.head? ≠ some rightParenthesis)

include h hnonempty

theorem Does.comment_of_error {error : SyntaxError Mark}
    (hafter : afterComment (inside.length + 2) 0 inside = .error error) :
    Does base (leftParenthesis :: asterisk :: inside) id Parser.comment Reader.comment := by
  have hattempt : Reader.comment.attempt (leftParenthesis :: asterisk :: inside) =
      { result := .error (.syntaxError error) } :=
    (if_neg hnonempty).trans (by rw [hafter])
  obtain ⟨hinside, -, -⟩ := reaches_two h (by decide) (by decide)
  refine of_error _ hattempt ?_
  rintro ⟨_, comments, rules⟩ rfl
  have hrounds := closing (inside.length + 2) 0 comments rules hinside (Nat.le_refl _)
  rw [hafter] at hrounds
  rw [comment_run_of_opener h.unread, run_bind, passComment_run h hnonempty]
  generalize hrun : (closeComments inside.length 1).run _ = after at hrounds
  cases hrounds with
  | endsOpen depth =>
    rw [run_bind_of_ok hrun]
    rfl
  | emptyComment place behind =>
    rw [run_bind_of_error hrun]
    rfl

theorem Does.comment_of_ok {rest : Bytes}
    (hafter : afterComment (inside.length + 2) 0 inside = .ok rest) :
    Does base (leftParenthesis :: asterisk :: inside) id Parser.comment Reader.comment := by
  obtain ⟨middle, hinterior, hmiddle⟩ := afterComment_closes hafter
  obtain rfl : middle = rest := hmiddle
  -- The reader takes the interior from the front, the parser cuts it out of the source.
  have hinput : inside.take (inside.length - (middle.length + 2)) ++
      asterisk :: rightParenthesis :: middle = inside :=
    List.suffix_iff_eq_append.1 hinterior.suffix
  generalize hcontent : inside.take (inside.length - (middle.length + 2)) = interior at hinput
  have hattempt : Reader.comment.attempt (leftParenthesis :: asterisk :: inside) =
      ⟨[⟨Utf8.text (Bytes.trim interior), inside.length + 2⟩], .ok (true, middle)⟩ :=
    (if_neg hnonempty).trans (by rw [hafter, ← hcontent])
  obtain ⟨hinside, -, -⟩ := reaches_two h (by decide) (by decide)
  have hrounds (comments : List (Comment Position)) (rules : List (Rule Span)) :=
    hafter ▸ closing (inside.length + 2) 0 comments rules hinside (Nat.le_refl _)
  have hreaches : base.Reaches middle := (hrounds [] []).reaches
  constructor
  · rintro ⟨_, comments, rules⟩ rfl
    specialize hrounds comments rules
    rw [comment_run_of_opener h.unread, run_bind, passComment_run h hnonempty, hattempt]
    generalize hrun : (closeComments inside.length 1).run _ = after at hrounds
    cases hrounds with
    | closed _ =>
      have hsuffix : leftParenthesis :: asterisk ::
          (interior ++ asterisk :: rightParenthesis :: middle) <:+ base.unread :=
        hinput ▸ h.suffix
      have hslice := slice_interior hsuffix
      rw [hinput] at hslice
      rw [run_bind_of_ok hrun, if_pos rfl, collectComment_run, ← hslice]
      rfl
  · intro value comments rest hreader
    rw [Reader.run_of_attempt_ok hattempt] at hreader
    cases hreader
    exact hreaches

end Nonempty

theorem Does.comment (h : base.Reaches input) :
    Does base input id Parser.comment Reader.comment := by
  by_cases hopener : [leftParenthesis, asterisk] <+: input
  · obtain ⟨inside, rfl⟩ := hopener
    change base.Reaches (leftParenthesis :: asterisk :: inside) at h
    by_cases hempty : inside.head? = some rightParenthesis
    · refine of_error (.syntaxError ⟨.emptyComment, inside.length + 2, inside.length + 1⟩)
        (if_pos hempty) ?_
      rintro ⟨_, comments, rules⟩ rfl
      have hopened := openComment_run h
        (base.before (leftParenthesis :: asterisk :: inside).length).position comments rules
      rw [if_pos hempty] at hopened
      change Parser.comment.run
        ⟨base.before (leftParenthesis :: asterisk :: inside).length, comments, rules⟩ = _
      rw [comment_run_of_opener h.unread, passComment, run_bind, run_place_bind,
        run_bind_of_error hopened]
      rfl
    · cases hafter : afterComment (inside.length + 2) 0 inside with
      | error error => exact Does.comment_of_error h hempty hafter
      | ok rest => exact Does.comment_of_ok h hempty hafter
  · refine of_ok _ _ (Reader.attempt_of_run_ok (Reader.comment_run_absent hopener)) ?_ h
    rintro ⟨_, comments, rules⟩ rfl
    exact comment_run_of_absent (by rwa [h.unread])

theorem triviaUpTo_run (rounds : Nat) (session : Session) :
    (triviaUpTo (rounds + 1)).run session =
      if session.cursor.atEnd then (.ok (), session)
      else (Parser.comment >>= fun found => if found then triviaUpTo rounds else pure ()).run
        { session with
          cursor := session.cursor.advanceWhile isBlank session.cursor.left } := by
  simp only [triviaUpTo, run_cursor_bind, run_move_bind, run_ite, run_pure]

end Parser

namespace Reader

open Scanning

theorem trivia_attempt_blank {b : UInt8} {rest : Bytes} (h : isBlank b) :
    trivia.attempt (b :: rest) = trivia.attempt rest := by
  have hpiece : triviaPiece.attempt (b :: rest) = { result := .ok (some (), rest) } := by
    unfold triviaPiece
    rw [attempt_bind_of_ok _ (attempt_of_run_ok (one_run_cons h))]
    rfl
  conv_lhs => rw [trivia_eq]
  exact attempt_bind_of_ok _ hpiece

/-- Trivia is whitespace and, if a comment comes next, the comment and more trivia. -/
theorem trivia_attempt (input : Bytes) :
    trivia.attempt input = (comment >>= fun found => if found then trivia else pure ()).attempt
      (input.dropWhile isBlank) := by
  induction input with
  | nil => rfl
  | cons b rest ih =>
    by_cases hb : isBlank b
    · rw [trivia_attempt_blank hb, List.dropWhile_cons_of_pos hb, ih]
    · have hone : (one isBlank).attempt (b :: rest) = { result := .ok (none, b :: rest) } :=
        attempt_of_run_ok (one_run_none fun c hc => by cases hc; exact hb)
      rw [List.dropWhile_cons_of_neg hb]
      conv_lhs => rw [trivia_eq]
      unfold triviaPiece
      rw [bind_assoc, attempt_bind_of_ok _ hone]
      simp only [bind_assoc, List.nil_append]
      refine congrArg (fun next => (comment >>= next).attempt (b :: rest)) ?_
      funext found
      cases found <;> rfl

end Reader

namespace Parser

/-- The reader has taken all trivia of the input when there are as many rounds as bytes. -/
theorem Does.triviaUpTo {rounds : Nat} (h : base.Reaches input) (hrounds : input.length ≤ rounds) :
    Does base input id (Parser.triviaUpTo rounds) Reader.trivia := by
  induction rounds generalizing input with
  | zero =>
    obtain rfl := List.length_eq_zero_iff.1 (Nat.le_zero.1 hrounds)
    exact (Does.pure (f := id) h rfl).of_same (fun _ _ => rfl) rfl
  | succ rounds ih =>
    obtain ⟨hdrop, hblanks⟩ := h.advanceWhile isBlank (by decide) (Nat.le_refl _)
    have hround : Does base (input.dropWhile isBlank) id
        (Parser.comment >>= fun found => if found then Parser.triviaUpTo rounds else Pure.pure ())
        (Reader.comment >>= fun found => if found then Reader.trivia else Pure.pure ()) := by
      refine (Does.comment hdrop).bind fun found comments rest hcomment hrest => ?_
      cases found with
      | false => exact Does.pure hrest rfl
      | true =>
        have hshort : rest.length < (input.dropWhile isBlank).length :=
          Reader.consumes_comment.shorter hcomment rfl
        have hle := (List.dropWhile_suffix (l := input) isBlank).length_le
        exact ih hrest (by omega)
    constructor
    · intro session hcursor
      rw [triviaUpTo_run, hcursor, h.atEnd]
      rcases input with _ | ⟨b, rest⟩
      · rw [List.isEmpty_nil, if_pos rfl]
        exact (Does.pure (f := id) h rfl).run session hcursor
      · rw [List.isEmpty_cons, if_neg Bool.false_ne_true, h.left, hblanks,
          Reader.trivia_attempt]
        exact hround.run _ rfl
    · intro value comments rest hreader
      rw [Reader.run, Reader.trivia_attempt] at hreader
      exact hround.reaches value comments rest hreader

theorem Does.trivia (h : base.Reaches input) :
    Does base input id Parser.trivia Reader.trivia := by
  refine (Does.triviaUpTo h (Nat.le_refl _)).of_same (fun session hcursor => ?_) rfl
  rw [Parser.trivia, run_left_bind, hcursor, h.left]

end Parser

end Ebnf
