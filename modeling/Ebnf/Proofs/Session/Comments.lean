import Ebnf.Proofs.Session.Backtracking
import Ebnf.Proofs.Spelling.Nesting
import Mathlib.Data.List.DropRight

/-!
# Asking for a comment

Whatever comes next in a session, asking for a comment ends in one of four ways, and each
of them has its own reason in the bytes: no comment opens, a comment comes next and is
consumed, an opening symbol with `)` behind it is met first, or the end of the document.
That the reasons exclude each other turns them into equivalences.

A comment is a construct of its own here: bytes that are a comment with nothing behind
them, as the nested grammar has it.  The count of open comments that the reader keeps does
not occur in it.
-/

namespace Ebnf

open Byte Reader

/-! ### The bytes of a comment -/

/-- The bytes are one comment, from its opening to its closing symbol. -/
def IsComment (bytes : Bytes) : Prop :=
  ∃ k, SpellsComment bytes k []

/-- The symbols of a comment around its interior. -/
def asComment (interior : Bytes) : Bytes :=
  leftParenthesis :: asterisk :: (interior ++ [asterisk, rightParenthesis])

theorem SpellsComment.isComment {input rest : Bytes} {k : Comment Mark}
    (h : SpellsComment input k rest) :
    ∃ interior, input = asComment interior ++ rest ∧ IsComment (asComment interior) ∧
      k = ⟨Utf8.text interior.trim, input.length⟩ := by
  obtain ⟨front, hfront, halone⟩ := h.replace (Moves.sub [] rest)
  rw [List.append_nil] at halone
  cases h with
  | @mk inside _ interior hinput =>
    have hsplit : leftParenthesis :: asterisk :: inside = asComment interior ++ rest := by
      rw [hinput]
      simp [asComment]
    obtain rfl := List.append_cancel_right (hsplit.symm.trans hfront)
    exact ⟨interior, hsplit, ⟨_, halone⟩, rfl⟩

theorem IsComment.spelled {front : Bytes} (h : IsComment front) (rest : Bytes) :
    ∃ k, SpellsComment (front ++ rest) k rest := by
  obtain ⟨k, hk⟩ := h
  obtain ⟨front', rfl, hfront⟩ := hk.replace (Moves.add [] rest)
  rw [List.append_nil]
  exact ⟨_, hfront⟩

/-- Of the beginnings of an input one at most is a comment. -/
theorem IsComment.unique {front front' rest rest' : Bytes} (h : IsComment front)
    (h' : IsComment front') (hsame : front ++ rest = front' ++ rest') : front = front' := by
  obtain ⟨k, hk⟩ := h.spelled rest
  obtain ⟨k', hk'⟩ := h'.spelled rest'
  rw [← hsame] at hk'
  obtain rfl := hk.rest_unique hk'
  exact List.append_cancel_right hsame

/-- What is left of some bytes without the whitespace at both ends. -/
structure Stripped (bytes kept : Bytes) : Prop where
  split : ∃ before behind, bytes = before ++ (kept ++ behind) ∧
    (∀ b ∈ before, isBlank b) ∧ ∀ b ∈ behind, isBlank b
  first : ∀ b, kept.head? = some b → ¬isBlank b
  last : ∀ b, kept.getLast? = some b → ¬isBlank b

theorem not_isBlank_head_dropWhile (bytes : Bytes) :
    ∀ b, (bytes.dropWhile isBlank).head? = some b → ¬isBlank b := by
  intro b hb
  have hstop := List.head?_dropWhile_not isBlank bytes
  rw [hb] at hstop
  simpa using hstop

theorem stripped_trim (bytes : Bytes) : Stripped bytes bytes.trim := by
  let inner := bytes.dropWhile isBlank
  have hinner : bytes.trim ++ inner.rtakeWhile isBlank = inner :=
    List.rdropWhile_append_rtakeWhile
  have hsplit : bytes = bytes.takeWhile isBlank ++
      (bytes.trim ++ inner.rtakeWhile isBlank) := by
    rw [hinner]
    exact List.takeWhile_append_dropWhile.symm
  refine ⟨⟨_, _, hsplit, fun b hb => List.mem_takeWhile_imp hb, ?_⟩, ?_, ?_⟩
  · intro b hb
    exact List.mem_takeWhile_imp (List.mem_reverse.1 hb)
  · -- What is left begins as it did before the end was cut off.
    intro b hb
    apply not_isBlank_head_dropWhile bytes
    obtain ⟨more, hmore⟩ := List.head?_eq_some_iff.1 hb
    change inner.head? = some b
    rw [← hinner, hmore]
    rfl
  · intro b hb
    apply not_isBlank_head_dropWhile inner.reverse
    rwa [← List.getLast?_reverse]

/-! ### The answers -/

namespace Session

variable {session : Session}

theorem run_of_run_ok {reader : Reader α} {value : α} {comments : List (Comment Mark)}
    {rest : Bytes} (h : reader.run session.cursor.unread = .ok ⟨value, comments, rest⟩) :
    session.run reader = (.ok value, { session with
      cursor := session.cursor.moveTo (session.cursor.positionAt rest.length)
      comments := session.comments ++ comments.map (Comment.map session.cursor.positionAt) }) := by
  unfold run
  rw [attempt_of_run_ok h]
  rfl

theorem run_of_run_error {reader : Reader α} {fault : Fault Mark}
    (h : reader.run session.cursor.unread = .error fault) :
    (session.run reader).1 = .error (fault.map session.cursor.positionAt) := by
  obtain ⟨comments, hattempt⟩ := attempt_of_run_error h
  unfold run
  rw [hattempt]
  rfl

/-- The session behind a comment, with one comment more. -/
def commented (session : Session) (kept rest : Bytes) : Session :=
  { session with
    cursor := session.cursor.moveTo (session.cursor.positionAt rest.length)
    comments := session.comments ++ [⟨Utf8.text kept, session.cursor.position⟩] }

end Session

/-- What comes of asking for a comment: the answer with the session behind it, and the
reason for it. -/
inductive CommentAnswer (session : Session) :
    Except (Fault Position) Bool × Session → Prop
  | absent (hopener : ¬[leftParenthesis, asterisk] <+: session.cursor.unread) :
      CommentAnswer session (.ok false, session)
  | found {interior : Bytes} (hunread : session.cursor.unread = asComment interior ++ rest)
      (hcomment : IsComment (asComment interior)) (hkept : Stripped interior kept) :
      CommentAnswer session (.ok true, session.commented kept rest)
  | emptyOpening {error : SyntaxError Position} (hcause : error.cause = .emptyComment)
      (hopening : EmptyOpening session.cursor.unread) :
      CommentAnswer session (.error error, next)
  | endsOpen {error : SyntaxError Position} (hcause : error.cause = .unterminatedComment)
      (hopen : EndsOpen session.cursor.unread) :
      CommentAnswer session (.error error, next)

theorem commentAnswer [Runtime] (session : Session) :
    CommentAnswer session (session.call .comment) := by
  have hensures := ensures_comment session.cursor.unread
  rw [Session.call_comment]
  cases hrun : comment.run session.cursor.unread with
  | error fault =>
    have hanswer := Session.run_of_run_error hrun
    have hbroken := hensures.of_error hrun
    rw [show session.run comment = (_, _) from Prod.ext hanswer rfl]
    cases fault with
    | syntaxError error =>
      rcases BrokenComment.emptyOpening_or_endsOpen hbroken with ⟨hcause, h⟩ | ⟨hcause, h⟩
      · exact .emptyOpening hcause h
      · exact .endsOpen hcause h
    | refusal => exact hbroken.elim
  | ok outcome =>
    rcases outcome with ⟨value, comments, rest⟩
    have hvalue := hensures.of_ok hrun
    rw [Session.run_of_run_ok hrun]
    cases value with
    | false =>
      obtain ⟨rfl, rfl, hopener⟩ := hvalue
      simp only [List.map_nil, List.append_nil, Cursor.positionAt_unread]
      exact .absent hopener
    | true =>
      obtain ⟨k, rfl, hcomment⟩ := hvalue
      obtain ⟨interior, hunread, hfront, rfl⟩ := hcomment.isComment
      rw [List.map_singleton, Comment.map, Cursor.positionAt_unread]
      exact .found hunread hfront (stripped_trim interior)

namespace CommentAnswer

variable {session : Session} {result : Except (Fault Position) Bool × Session}

theorem absent_iff (h : CommentAnswer session result) :
    result.1 = .ok false ↔ ¬[leftParenthesis, asterisk] <+: session.cursor.unread := by
  cases h with
  | absent hopener => exact iff_of_true rfl hopener
  | found hunread =>
    apply iff_of_false nofun
    rw [hunread, not_not]
    exact ⟨_, rfl⟩
  | emptyOpening _ hopening => exact iff_of_false nofun (not_not.2 hopening.opener)
  | endsOpen _ hopen => exact iff_of_false nofun (not_not.2 hopen.opener)

theorem found_iff (h : CommentAnswer session result) :
    result.1 = .ok true ↔ ∃ front rest, session.cursor.unread = front ++ rest ∧
      IsComment front := by
  have hspelled : (∃ front rest, session.cursor.unread = front ++ rest ∧ IsComment front) →
      ∃ k rest, SpellsComment session.cursor.unread k rest := by
    rintro ⟨front, rest, hunread, hfront⟩
    obtain ⟨k, hk⟩ := hfront.spelled rest
    exact ⟨k, rest, hunread ▸ hk⟩
  cases h with
  | absent hopener =>
    apply iff_of_false nofun
    intro hfront
    obtain ⟨k, rest, hk⟩ := hspelled hfront
    exact hopener hk.opener
  | found hunread hcomment => exact iff_of_true rfl ⟨_, _, hunread, hcomment⟩
  | emptyOpening _ hopening =>
    apply iff_of_false nofun
    intro hfront
    obtain ⟨k, rest, hk⟩ := hspelled hfront
    exact hk.not_emptyOpening hopening
  | endsOpen _ hopen =>
    apply iff_of_false nofun
    intro hfront
    obtain ⟨k, rest, hk⟩ := hspelled hfront
    exact hk.not_endsOpen hopen

theorem emptyOpening_iff (h : CommentAnswer session result) :
    (∃ error : SyntaxError Position, result.1 = .error error ∧ error.cause = .emptyComment) ↔
      EmptyOpening session.cursor.unread := by
  cases h with
  | absent hopener =>
    exact iff_of_false (by simp) fun hopening => hopener hopening.opener
  | found hunread hcomment =>
    obtain ⟨k, hk⟩ := hcomment.spelled _
    exact iff_of_false (by simp) (hunread ▸ hk.not_emptyOpening)
  | emptyOpening hcause hopening => exact iff_of_true ⟨_, rfl, hcause⟩ hopening
  | endsOpen hcause hopen =>
    exact iff_of_false (by simp [hcause]) fun hopening => hopening.not_endsOpen hopen

theorem endsOpen_iff (h : CommentAnswer session result) :
    (∃ error : SyntaxError Position, result.1 = .error error ∧
      error.cause = .unterminatedComment) ↔ EndsOpen session.cursor.unread := by
  cases h with
  | absent hopener =>
    exact iff_of_false (by simp) fun hopen => hopener hopen.opener
  | found hunread hcomment =>
    obtain ⟨k, hk⟩ := hcomment.spelled _
    exact iff_of_false (by simp) (hunread ▸ hk.not_endsOpen)
  | emptyOpening hcause hopening =>
    exact iff_of_false (by simp [hcause]) hopening.not_endsOpen
  | endsOpen hcause hopen => exact iff_of_true ⟨_, rfl, hcause⟩ hopen

end CommentAnswer

/-- From every state of a session, asking for a comment finds none and changes nothing when
`(*` does not come next; it finds one when some beginning of the unread bytes is a comment,
which then is the only one and all that is consumed, and adds it with the place where it
opens; and it stops at an empty comment when an opening symbol with `)` behind it is met
before the nesting is closed, or at an unterminated one when the bytes end before either. -/
theorem comment_exact [Runtime] (session : Session) :
    let unread := session.cursor.unread
    let answer := (session.call .comment).1
    let next := (session.call .comment).2
    (answer = .ok false ↔ ¬[leftParenthesis, asterisk] <+: unread) ∧
    (answer = .ok false → next = session) ∧
    (answer = .ok true ↔ ∃ front rest, unread = front ++ rest ∧ IsComment front) ∧
    (∀ front rest, unread = front ++ rest → IsComment front →
      (∀ front' rest', unread = front' ++ rest' → IsComment front' → front' = front) ∧
      next.cursor.unread = rest ∧
      ∃ interior kept, front = asComment interior ∧ Stripped interior kept ∧
        next = { session with
          cursor := session.cursor.moveTo (session.cursor.positionAt rest.length)
          comments := session.comments ++ [⟨Utf8.text kept, session.cursor.position⟩] }) ∧
    ((∃ error : SyntaxError Position, answer = .error error ∧ error.cause = .emptyComment) ↔
      EmptyOpening unread) ∧
    ((∃ error : SyntaxError Position, answer = .error error ∧
      error.cause = .unterminatedComment) ↔ EndsOpen unread) := by
  have hanswer := commentAnswer session
  refine ⟨hanswer.absent_iff, ?_, hanswer.found_iff, ?_, hanswer.emptyOpening_iff,
    hanswer.endsOpen_iff⟩
  · intro hnone
    generalize session.call .comment = result at hanswer hnone
    cases hanswer with
    | absent => rfl
    | found => cases hnone
    | emptyOpening => cases hnone
    | endsOpen => cases hnone
  · intro front rest hunread hfront
    have hyes := hanswer.found_iff.2 ⟨front, rest, hunread, hfront⟩
    generalize session.call .comment = result at hanswer hyes ⊢
    cases hanswer with
    | @found rest' kept interior hunread' hcomment hkept =>
      have hsame := hunread.symm.trans hunread'
      obtain rfl := hfront.unique hcomment hsame
      obtain rfl := List.append_cancel_left hsame
      refine ⟨?_, ?_, interior, kept, rfl, hkept, rfl⟩
      · intro front' rest'' hother hfront'
        exact hfront'.unique hfront (hother.symm.trans hunread)
      · exact Cursor.unread_before ⟨_, hunread.symm⟩
    | absent => cases hyes
    | emptyOpening => cases hyes
    | endsOpen => cases hyes

/-- A session behind one byte, before a comment with another one and a CR LF pair in it. -/
def nestedSession : Session where
  cursor :=
    { source := [0x61, 0x28, 0x2A, 0x20, 0x28, 0x2A, 0x2A, 0x2A, 0x29, 0x0D, 0x0A, 0x2A, 0x29,
        0x3D]
      position := ⟨1, 0, 1⟩ }

attribute [local instance] Runtime.usual

theorem comment_nestedSession :
    (nestedSession.call .comment).1 = .ok true ∧
    (nestedSession.call .comment).2.cursor.unread = [0x3D] ∧
    (nestedSession.call .comment).2.comments = [⟨"(***)", ⟨1, 0, 1⟩⟩] ∧
    ¬EndsOpen nestedSession.cursor.unread := by
  obtain ⟨-, -, -, -, -, hopen⟩ := comment_exact nestedSession
  refine ⟨rfl, rfl, by decide +kernel, ?_⟩
  rw [← hopen]
  rintro ⟨error, herror, -⟩
  cases herror

end Ebnf
