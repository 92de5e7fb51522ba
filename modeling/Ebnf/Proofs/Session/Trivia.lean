import Ebnf.Proofs.Reading.Starts
import Ebnf.Proofs.Session.Comments

/-!
# Passing over trivia

Passing over trivia takes all that comes next and nothing else: whitespace and whole
comments, up to a byte that begins neither.  Only a comment that opens there and is not
completed keeps it from getting so far.  When it has got there, a second time changes
nothing, and what is looked for next begins with a symbol of its own.
-/

namespace Ebnf

open Byte Reader

theorem triviaMoved_run_ok {input rest : Bytes} {comments : List (Comment Mark)}
    (h : trivia.run input = .ok ⟨(), comments, rest⟩) :
    triviaMoved.run input = .ok ⟨input.length != rest.length, comments, rest⟩ := by
  unfold triviaMoved
  rw [run_mark_bind, run_bind_of_ok h, run_mark_bind, run_pure, passing_ok, List.append_nil]

theorem triviaMoved_run_error {input : Bytes} {fault : Fault Mark}
    (h : trivia.run input = .error fault) : triviaMoved.run input = .error fault := by
  unfold triviaMoved
  rw [run_mark_bind, run_bind, h]

/-- A comment that is not completed is not passed, nor is what stands behind it reached. -/
theorem trivia_run_broken {input site : Bytes} {comments : List (Comment Mark)}
    (h : SpellsTrivia input comments site) (hbroken : EmptyOpening site ∨ EndsOpen site) :
    ∃ error, trivia.run input = .error error := by
  rw [trivia_run h]
  cases hrun : trivia.run site with
  | error error => exact ⟨error, rfl⟩
  | ok outcome =>
    rcases outcome with ⟨_, comments', rest⟩
    obtain ⟨htrivia, hsettled⟩ : SpellsTrivia site comments' rest ∧ Settled rest :=
      (ensures_trivia site).of_ok hrun
    have hopener : [leftParenthesis, asterisk] <+: site :=
      hbroken.elim EmptyOpening.opener EndsOpen.opener
    cases htrivia with
    | nothing => exact absurd hopener hsettled.2
    | blank hblank =>
      obtain rfl := (List.cons_prefix_cons.1 hopener).1
      exact absurd hblank (by decide)
    | comment hcomment =>
      rcases hbroken with hempty | hopen
      · exact absurd hempty hcomment.not_emptyOpening
      · exact absurd hopen hcomment.not_endsOpen

namespace Session

variable {session : Session}

/-- The session behind some trivia, with the comments in it. -/
def passed (session : Session) (comments : List (Comment Mark)) (rest : Bytes) : Session :=
  { session with
    cursor := session.cursor.moveTo (session.cursor.positionAt rest.length)
    comments := session.comments ++ comments.map (Comment.map session.cursor.positionAt) }

theorem unread_passed (comments : List (Comment Mark)) {rest : Bytes}
    (h : rest <:+ session.cursor.unread) : (session.passed comments rest).cursor.unread = rest :=
  Cursor.unread_before h

/-- The offset tells whether any bytes have been passed. -/
theorem offset_passed_ne_iff {comments : List (Comment Mark)} {rest : Bytes}
    (h : rest <:+ session.cursor.unread) :
    (session.passed comments rest).cursor.position.offset ≠ session.cursor.position.offset ↔
      session.cursor.unread.length ≠ rest.length := by
  have hle := h.length_le
  have hoffset : (session.passed comments rest).cursor.position.offset =
      session.cursor.position.offset + (session.cursor.unread.length - rest.length) :=
    Cursor.offset_positionAt _ _
  rw [hoffset]
  omega

section

variable [Runtime]

theorem call_trivia_of_ok {comments : List (Comment Mark)} {rest : Bytes}
    (h : Reader.trivia.run session.cursor.unread = .ok ⟨(), comments, rest⟩) :
    session.call .trivia =
      (.ok (session.cursor.unread.length != rest.length), session.passed comments rest) := by
  rw [call_trivia]
  exact run_of_run_ok (triviaMoved_run_ok h)

theorem call_trivia_of_error {fault : Fault Mark}
    (h : Reader.trivia.run session.cursor.unread = .error fault) :
    (session.call .trivia).1 = .error (fault.map session.cursor.positionAt) := by
  rw [call_trivia]
  exact run_of_run_error (triviaMoved_run_error h)

/-- Where no trivia comes next, nothing is passed. -/
theorem call_trivia_of_settled (h : Settled session.cursor.unread) :
    session.call .trivia = (.ok false, session) := by
  have hpassed : session.passed [] session.cursor.unread = session := by
    unfold passed
    rw [Cursor.positionAt_unread, List.map_nil, List.append_nil]
    rfl
  rw [call_trivia_of_ok (trivia_run_settled h), hpassed, bne_self_eq_false]

/-- What has been passed when there is an answer. -/
theorem exists_passed {moved : Bool} (h : (session.call .trivia).1 = .ok moved) :
    ∃ comments rest, SpellsTrivia session.cursor.unread comments rest ∧ Settled rest ∧
      session.call .trivia =
        (.ok (session.cursor.unread.length != rest.length), session.passed comments rest) := by
  cases hrun : Reader.trivia.run session.cursor.unread with
  | error error =>
    rw [call_trivia_of_error hrun] at h
    cases h
  | ok outcome =>
    obtain ⟨htrivia, hsettled⟩ := (ensures_trivia _).of_ok hrun
    exact ⟨_, _, htrivia, hsettled, call_trivia_of_ok hrun⟩

/-- There is an error just if a comment that is not completed opens behind trivia. -/
theorem call_trivia_error_iff :
    (∃ error, (session.call .trivia).1 = .error error) ↔ ∃ comments site,
      SpellsTrivia session.cursor.unread comments site ∧
        (EmptyOpening site ∨ EndsOpen site) := by
  constructor
  · rintro ⟨error, hanswer⟩
    cases hrun : Reader.trivia.run session.cursor.unread with
    | error fault =>
      rcases fault with error | _
      · obtain ⟨htrivia, hbroken⟩ : BrokenTrivia session.cursor.unread error :=
          (ensures_trivia _).of_error hrun
        exact ⟨_, _, htrivia, hbroken.emptyOpening_or_endsOpen.imp And.right And.right⟩
      · exact ((ensures_trivia _).of_error hrun).elim
    | ok outcome =>
      rw [call_trivia_of_ok hrun] at hanswer
      cases hanswer
  · rintro ⟨comments, site, htrivia, hbroken⟩
    obtain ⟨error, hrun⟩ := trivia_run_broken htrivia hbroken
    exact ⟨_, call_trivia_of_error hrun⟩

end

end Session

/-- From every state of a session, passing over trivia goes over whitespace and whole comments,
which it adds, to where neither comes next, and tells whether it has moved; done again there,
it changes nothing.  It stops at an error just if a comment that is not completed opens behind
such trivia.  And in the course of a parse no level from single definitions down is entered
before trivia has been passed over. -/
theorem trivia_exact [Runtime] (session : Session) (options : Options) (source : Bytes) :
    let unread := session.cursor.unread
    let answer := (session.call .trivia).1
    let next := (session.call .trivia).2
    (∀ moved, answer = .ok moved → ∃ comments rest,
      SpellsTrivia unread comments rest ∧ Settled rest ∧
      next = { session with
        cursor := session.cursor.moveTo (session.cursor.positionAt rest.length)
        comments := session.comments ++ comments.map (Comment.map session.cursor.positionAt) } ∧
      next.cursor.unread = rest ∧
      (moved = true ↔ next.cursor.position.offset ≠ session.cursor.position.offset) ∧
      next.call .trivia = (.ok false, next)) ∧
    ((∃ error, answer = .error error) ↔ ∃ comments site,
      SpellsTrivia unread comments site ∧ (EmptyOpening site ∨ EndsOpen site)) ∧
    parse options source = ((Watched.document source).1.map
      (Cursor.locate { source, options }) (Cursor.positionAt { source, options })).result ∧
    ∀ start ∈ (Watched.document source).2, Settled start.unread := by
  refine ⟨?_, Session.call_trivia_error_iff, ?_, Watched.settled_of_mem_document⟩
  · intro moved hanswer
    obtain ⟨comments, rest, htrivia, hsettled, hcall⟩ := Session.exists_passed hanswer
    have hunread := Session.unread_passed comments htrivia.suffix
    rw [hcall] at hanswer ⊢
    refine ⟨comments, rest, htrivia, hsettled, rfl, hunread, ?_, ?_⟩
    · rw [Session.offset_passed_ne_iff htrivia.suffix]
      cases hanswer
      exact bne_iff_ne
    · apply Session.call_trivia_of_settled
      rwa [hunread]
  · rw [Watched.reading_document, parse_eq_result]
    rfl

/-- A session behind a name, before a space, a comment, a line feed and `=`. -/
def spacedSession : Session where
  cursor :=
    { source := [0x61, 0x20, 0x28, 0x2A, 0x62, 0x2A, 0x29, 0x0A, 0x3D, 0x63, 0x3B]
      position := ⟨1, 0, 1⟩ }

attribute [local instance] Runtime.usual

theorem trivia_spacedSession :
    let next := (spacedSession.call .trivia).2
    (spacedSession.call .trivia).1 = .ok true ∧
    next.cursor.unread = [0x3D, 0x63, 0x3B] ∧ next.cursor.position = ⟨8, 1, 0⟩ ∧
    next.comments = [⟨"b", ⟨2, 0, 2⟩⟩] ∧ next.call .trivia = (.ok false, next) ∧
    (¬∃ comments site, SpellsTrivia spacedSession.cursor.unread comments site ∧
      (EmptyOpening site ∨ EndsOpen site)) ∧
    ∀ start ∈ (Watched.document spacedSession.cursor.source).2, Settled start.unread := by
  have hanswer : (spacedSession.call .trivia).1 = .ok true := rfl
  obtain ⟨hok, herror, -, hstarts⟩ := trivia_exact spacedSession {} spacedSession.cursor.source
  obtain ⟨_, _, -, -, -, -, -, hagain⟩ := hok true hanswer
  refine ⟨hanswer, rfl, rfl, by decide +kernel, hagain, ?_, hstarts⟩
  rw [← herror, hanswer]
  exact nofun

end Ebnf
