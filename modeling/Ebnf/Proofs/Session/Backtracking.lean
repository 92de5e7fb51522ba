import Ebnf.Proofs.Reading.Production
import Ebnf.Proofs.Reading.Yields
import Ebnf.Proofs.Session.Moving
import Ebnf.Proofs.Spelling.Padding
import Ebnf.Reader.Backtracking

/-!
# Backtracking is exact

A production that finds nothing leaves the session as it was, with its line, its column
and its comments; the one that reads definitions leaves behind the trivia and the commas
that it had passed by then.  Whatever a call does, also when it ends in an error, a
checkpoint taken before it brings back the place and the comments, since comments are
only ever added behind those that are there.
-/

namespace Ebnf

open Byte Reader Scanning

/-! ### Definitions without terms -/

namespace Reader

theorem Yields.map_none {reader : Reader (Option α)} {f : α → β} {input : Bytes}
    {post : List (Comment Mark) → Bytes → Prop}
    (h : reader.Yields input fun value comments rest => value = none → post comments rest) :
    (Option.map f <$> reader).Yields input
      fun value comments rest => value = none → post comments rest :=
  .map (h.mono fun _ _ _ hpost hnone => hpost (Option.map_eq_none_iff.1 hnone))

theorem yields_trivia (input : Bytes) :
    trivia.Yields input fun _ comments rest => SpellsTrivia input comments rest where
  holds hrun := ((ensures_trivia input).of_ok hrun).1

section

variable [Runtime]

/-- A comma, if there is one, with the trivia behind it. -/
theorem yields_comma (input : Bytes) :
    (separator (byte comma)).Yields input fun _ comments rest =>
      SpellsPadding input comments rest := by
  apply Yields.bind_byte
  · rintro rest rfl
    apply Yields.bind_pure
    apply (yields_trivia rest).mono
    intro _ comments stop htrivia
    exact .comma htrivia.padding
  · exact .pure .nothing

/-- Slots without a term in them are padding. -/
theorem yields_terms (input : Bytes) :
    (separated (beforeTrivia term) (separator (byte comma))).Yields input
      fun terms comments rest => terms = [] → SpellsPadding input comments rest := by
  apply Yields.separated forward_beforeTrivia_term (consumes_separator (Consumes.byte comma))
    fun input terms comments rest => terms = [] → SpellsPadding input comments rest
  intro input
  have hterm : term.Yields input fun value comments rest =>
      value = none → comments = [] ∧ rest = input :=
    ⟨fun hrun hnone => (still_termWith Reader.definitions).still hrun hnone⟩
  apply Yields.bind
  apply hterm.mono
  intro value comments middle hstill
  apply Yields.bind_pure
  apply (yields_trivia middle).mono
  intro _ comments' stop htrivia
  have hslot : value = none → SpellsPadding input (comments ++ comments') stop := by
    intro hnone
    obtain ⟨rfl, rfl⟩ := hstill hnone
    exact htrivia.padding
  apply (yields_comma stop).mono
  intro more comments'' next hcomma
  cases more with
  | false =>
    intro hnone
    exact (hslot (Option.toList_eq_nil_iff.1 hnone)).append hcomma
  | true =>
    intro terms comments''' rest hmore hnone
    obtain ⟨hvalue, hterms⟩ := List.append_eq_nil_iff.1 hnone
    exact (hslot (Option.toList_eq_nil_iff.1 hvalue)).append (hcomma.append (hmore hterms))

theorem yields_definition (input : Bytes) :
    definition.Yields input fun value comments rest =>
      value = none → SpellsPadding input comments rest := by
  rw [definition_eq]
  apply Yields.bind_pure
  apply (yields_terms input).mono
  intro terms comments rest hpadding hnone
  apply hpadding
  rcases terms with _ | ⟨first, _ | ⟨second, more⟩⟩
  · rfl
  · cases hnone
  · cases hnone

end

end Reader

/-! ### Sessions -/

namespace Session

theorem run_of_ok {session : Session} {reader : Reader α} {value : α}
    (h : (session.run reader).1 = .ok value) :
    ∃ comments rest, reader.run session.cursor.unread = .ok ⟨value, comments, rest⟩ ∧
      (session.run reader).2 = { session with
        cursor := session.cursor.moveTo (session.cursor.positionAt rest.length)
        comments := session.comments ++ comments.map (Comment.map session.cursor.positionAt) } := by
  unfold run at h ⊢
  rcases hattempt : reader.attempt session.cursor.unread with ⟨comments, error | ⟨found, rest⟩⟩
  · rw [hattempt] at h
    cases h
  · rw [hattempt] at h
    cases h
    exact ⟨comments, rest, run_of_attempt_ok hattempt, rfl⟩

theorem run_still {session : Session} {reader : Reader α} {lost : α → Prop} {value : α}
    (hstill : Still lost reader) (h : (session.run reader).1 = .ok value) (hlost : lost value) :
    (session.run reader).2 = session := by
  obtain ⟨comments, rest, hrun, hnext⟩ := run_of_ok h
  obtain ⟨hcomments, hrest⟩ := hstill.still hrun hlost
  simp only at hcomments hrest
  rw [hnext, hcomments, hrest, List.map_nil, List.append_nil]
  exact congrArg (fun cursor => { session with cursor }) session.cursor.before_unread

end Session

section

variable [Runtime]

/-- The productions decide by their first symbol, except for a definition, which has none
of its own. -/
theorem Production.still (production : Production) (h : production ≠ .definition) :
    Still (· = none) production.reader := by
  cases production with
  | identifier => exact still_identifier.map_option _
  | terminal => exact still_terminal.map_option _
  | special => exact still_special.map_option _
  | bracketed bracket => exact (still_bracketedWith Reader.definitions bracket).map_option _
  | primary => exact (still_primaryWith Reader.definitions).map_option _
  | factor => exact (still_factorWith Reader.definitions).map_option _
  | term => exact (still_termWith Reader.definitions).map_option _
  | definition => exact absurd rfl h
  | rule => exact .of_never (.bind fun rule => .pure (by simp))

namespace Session

theorem reset_after (session : Session) (calls : List Call) :
    ((session.after calls).reset session.checkpoint).cursor = session.cursor ∧
      ((session.after calls).reset session.checkpoint).comments = session.comments := by
  have hfollows := session.after_follows calls
  obtain ⟨added, hcomments, -⟩ := hfollows.added
  constructor
  · have hcursor : (session.after calls).cursor.moveTo session.cursor.position =
        session.cursor := by
      unfold Cursor.moveTo
      rw [hfollows.source, hfollows.options]
    exact hcursor
  · change (session.after calls).comments.take session.comments.length = session.comments
    rw [hcomments, List.take_left]

end Session

/-- From every state of a session: a production other than a definition that finds nothing,
and the look for a stray lexeme, leave it as it is; a definition that finds nothing has
passed trivia and commas; every call adds comments behind those that are there, at
increasing offsets between where it began and where it ended; and after any calls a
checkpoint brings the place and the comments back. -/
theorem backtracking_exact (session : Session) :
    (∀ production, production ≠ .definition →
      (session.call (.produce production)).1 = .ok none →
        (session.call (.produce production)).2 = session) ∧
    ((session.call .strayLexeme).1 = .ok () → (session.call .strayLexeme).2 = session) ∧
    ((session.call (.produce .definition)).1 = .ok none →
      ∃ comments rest, SpellsPadding session.cursor.unread comments rest ∧
        (session.call (.produce .definition)).2 = { session with
          cursor := session.cursor.moveTo (session.cursor.positionAt rest.length)
          comments := session.comments ++
            comments.map (Comment.map session.cursor.positionAt) }) ∧
    (∀ call, ∃ added, (session.call call).2.comments = session.comments ++ added ∧
      Between session.cursor.position.offset (session.call call).2.cursor.position.offset
        added) ∧
    ∀ calls, ((session.after calls).reset session.checkpoint).cursor = session.cursor ∧
      ((session.after calls).reset session.checkpoint).comments = session.comments := by
  refine ⟨?_, ?_, ?_, ?_, session.reset_after⟩
  · intro production hproduction hnone
    rw [Session.call_produce] at hnone ⊢
    exact Session.run_still ((production.still hproduction).map_option _) hnone rfl
  · intro hok
    rw [Session.call_strayLexeme] at hok ⊢
    exact Session.run_still still_strayLexeme hok trivial
  · intro hnone
    rw [Session.call_produce] at hnone ⊢
    obtain ⟨comments, rest, hrun, hnext⟩ := Session.run_of_ok hnone
    refine ⟨comments, rest, ?_, hnext⟩
    exact (yields_definition _).map_none.map_none.holds hrun rfl
  · intro call
    exact (session.call_follows call).added

end

/-- A session whose line and column do not agree with the bytes, before a comma between
trivia. -/
def paddedSession : Session where
  cursor := { source := [0x20, 0x2C, 0x28, 0x2A, 0x63, 0x2A, 0x29], position := ⟨0, 4, 9⟩ }
  comments := [⟨"b", ⟨3, 0, 3⟩⟩]

attribute [local instance] Runtime.usual

theorem backtracking_paddedSession :
    (paddedSession.call (.produce .identifier)).2 = paddedSession ∧
    (paddedSession.call .strayLexeme).2 = paddedSession ∧
    (∃ comments rest, SpellsPadding paddedSession.cursor.unread comments rest ∧
      (paddedSession.call (.produce .definition)).2 = { paddedSession with
        cursor := paddedSession.cursor.moveTo (paddedSession.cursor.positionAt rest.length)
        comments := paddedSession.comments ++
          comments.map (Comment.map paddedSession.cursor.positionAt) }) ∧
    (paddedSession.call (.produce .definition)).2.comments =
      [⟨"b", ⟨3, 0, 3⟩⟩, ⟨"c", ⟨2, 4, 11⟩⟩] := by
  obtain ⟨hnone, hstray, hdefinition, -, -⟩ := backtracking_exact paddedSession
  exact ⟨hnone .identifier (by decide) rfl, hstray rfl, hdefinition rfl, rfl⟩

end Ebnf
