import Ebnf.Proofs.Reading.Document
import Ebnf.Proofs.Simulation.Session

/-!
# Documents are parsed as they are read

The loop over rules keeps what it has completed in the session and may write lines on the way.
A stage that comes to some bytes ends as the reading of these bytes says: its rules and comments
are added to those of the session, each rule has a line of its own if lines are asked for, and a
reading without a failure has one more line.
-/

namespace Ebnf

open Reader

/-- The place at which reading a document has stopped. -/
def Reading.left (reading : Reading Extent Mark) : Mark :=
  match reading.failure with
  | some fault => fault.stop
  | none => 0

/-- The session behind a reading that began at a cursor. -/
def Session.behindReading (base : Cursor) (session : Session) (reading : Reading Extent Mark) :
    Session where
  cursor := base.before reading.left
  comments := session.comments ++ reading.comments.map (Comment.map base.positionAt)
  rules := session.rules ++ reading.rules.map (Rule.map base.locate)

/-- The answer to a reading, which has all that is in the session then. -/
def Session.answer (base : Cursor) (session : Session) (reading : Reading Extent Mark) :
    Except (Fault Position) (Grammar Span Position) :=
  match reading.failure with
  | some fault => .error (fault.map base.positionAt)
  | none => .ok (session.behindReading base reading).grammar

/-- The lines that are written for a reading. -/
def Session.trace (base : Cursor) (session : Session) (reading : Reading Extent Mark) :
    List String :=
  (reading.rules.map (Rule.map base.locate)).map Rule.line ++
    match reading.failure with
    | some _ => []
    | none => [(session.behindReading base reading).grammar.line]

namespace Stage

variable {base : Cursor} {input : Bytes} {debug : Bool}

/-- The stage behind a reading. -/
def behind (base : Cursor) (debug : Bool) (stage : Stage) (reading : Reading Extent Mark) :
    Except (Fault Position) (Grammar Span Position) × Stage :=
  (stage.session.answer base reading,
    { session := stage.session.behindReading base reading
      lines := stage.lines ++ if debug then stage.session.trace base reading else [] })

/-- A rule is read before what is behind it. -/
theorem behind_of_rule (stage : Stage) (cursor : Cursor) (rule : Rule Extent)
    (comments : List (Comment Mark)) (reading : Reading Extent Mark) :
    Stage.behind base debug
      { session :=
          { cursor
            comments := stage.session.comments ++ comments.map (Comment.map base.positionAt)
            rules := stage.session.rules ++ [rule.map base.locate] }
        lines := stage.lines ++ if debug then [(rule.map base.locate).line] else [] } reading =
      stage.behind base debug (reading.behind ⟨[rule], comments⟩) := by
  rcases reading with ⟨rules, more, _ | fault⟩ <;> cases debug <;>
    simp [behind, Session.behindReading, Session.answer, Session.trace, Reading.behind,
      Reading.left]

theorem write_eq (line : String) (stage : Stage) : stage.write debug line =
    { stage with lines := stage.lines ++ if debug then [line] else [] } := by
  cases debug with
  | false => simp [write]
  | true => rfl

variable [Runtime]

/-! ### One round -/

section Round

variable {stage : Stage} {comments : List (Comment Mark)} (h : base.Reaches input)
  (hcursor : stage.session.cursor = base.before input.length)

include h hcursor

theorem nextRule_run : Parser.run Scanning.nextRule stage.session =
    (((nextRule.attempt input).map (Option.map (Rule.map base.locate))).answer base,
      stage.session.behind base (nextRule.attempt input)) :=
  Parser.Does.run ((Parser.simulation base).nextRule input h) stage.session hcursor

theorem round_of_error {fault : Fault Mark}
    (hattempt : nextRule.attempt input = ⟨comments, .error fault⟩) :
    stage.round debug = (.error (fault.map base.positionAt),
      (stage.behind base debug { comments, failure := some fault }).2) := by
  have hrun := nextRule_run h hcursor
  rw [hattempt] at hrun
  unfold round
  rw [hrun]
  simp [behind, Session.behind, Session.behindReading, Session.trace, Attempt.map, Attempt.answer,
    Attempt.left, Reading.left, Except.map]

theorem round_of_none (hattempt : nextRule.attempt input = ⟨comments, .ok (none, [])⟩) :
    stage.round debug = (.ok false, (stage.behind base debug { comments }).2) := by
  have hrun := nextRule_run h hcursor
  rw [hattempt] at hrun
  unfold round
  rw [hrun]
  simp [behind, Session.behind, Session.behindReading, Session.trace, Attempt.map, Attempt.answer,
    Attempt.left, Reading.left, Except.map, write_eq]

/-- A rule is completed, and has its line. -/
theorem round_of_some {rule : Rule Extent} {rest : Bytes}
    (hattempt : nextRule.attempt input = ⟨comments, .ok (some rule, rest)⟩) :
    stage.round debug = (.ok true, {
      session :=
        { cursor := base.before rest.length
          comments := stage.session.comments ++ comments.map (Comment.map base.positionAt)
          rules := stage.session.rules ++ [rule.map base.locate] }
      lines := stage.lines ++ if debug then [(rule.map base.locate).line] else [] }) := by
  have hrun := nextRule_run h hcursor
  rw [hattempt] at hrun
  unfold round
  rw [hrun]
  simp [Session.behind, Attempt.map, Attempt.answer, Attempt.left, Except.map, write_eq, complete]

end Round

/-- Only trivia is left where there is no next rule. -/
theorem rest_of_nextRule_none {rest : Bytes} {comments : List (Comment Mark)}
    (h : nextRule.run input = .ok ⟨none, comments, rest⟩) : rest = [] := by
  simp only [Scanning.nextRule, scanning_trivia, scanning_current] at h
  obtain ⟨⟨_, _, settled⟩, second, -, hlook, heq⟩ := run_bind_eq_ok.1 h
  rw [run_current_bind] at hlook
  by_cases hempty : settled.head?.isNone
  · rw [if_pos hempty] at hlook
    cases hlook
    cases heq
    simpa using hempty
  · rw [if_neg hempty] at hlook
    obtain ⟨_, _, -, hrule, rfl⟩ := run_bind_eq_ok.1 hlook
    cases hrule
    cases heq

/-! ### All rounds -/

theorem rounds_eq {rounds : Nat} {stage : Stage} (h : base.Reaches input)
    (hcursor : stage.session.cursor = base.before input.length) (hrounds : input.length < rounds) :
    Stage.rounds debug rounds stage = stage.behind base debug (document input) := by
  induction rounds generalizing stage input with
  | zero => exact absurd hrounds (Nat.not_lt_zero _)
  | succ rounds ih =>
    unfold Stage.rounds
    rcases hattempt : nextRule.attempt input with ⟨comments, fault | ⟨_ | rule, rest⟩⟩
    · have hdocument : document input = { comments, failure := some fault } := by
        simp only [document, documentUpTo, hattempt]
      rw [round_of_error h hcursor hattempt, hdocument]
      rfl
    · have hrun := run_of_attempt_ok hattempt
      obtain rfl := rest_of_nextRule_none hrun
      rw [round_of_none h hcursor hattempt, document_of_none hrun]
      rfl
    · have hrun := run_of_attempt_ok hattempt
      have hrest : base.Reaches rest :=
        Parser.Does.reaches ((Parser.simulation base).nextRule input h) _ _ _ hrun
      have hshort : rest.length < input.length := nextRule_shorter hrun
      rw [round_of_some h hcursor hattempt, document_of_some hrun]
      simp only
      rw [ih hrest rfl (by omega)]
      exact behind_of_rule stage _ rule comments (document rest)

end Stage

/-! ### Whole documents -/

variable [Runtime]

/-- Reading the rest of a document, by the reading of the bytes that are left. -/
theorem Session.readAll_eq (session : Session) (debug : Bool) : session.readAll debug =
    ({ session } : Stage).behind session.cursor debug (document session.cursor.unread) := by
  unfold readAll
  rw [Cursor.left_eq]
  exact Stage.rounds_eq session.cursor.reaches_unread session.cursor.before_unread.symm
    (Nat.lt_succ_self _)

/-- A parse comes to the reading of its source, with lines or without. -/
theorem parseTraced_eq (options : Options) (debug : Bool) (source : Bytes) :
    parseTraced options debug source =
      ((read options source).result, if debug then
        (Session.start options source).trace { source, options } (document source) else []) := by
  unfold parseTraced read Cursor.read
  rw [Session.readAll_eq]
  have hstart : (Session.start options source).cursor = { source, options } := rfl
  rw [hstart]
  have hunread : Cursor.unread { source, options } = source := rfl
  rw [hunread]
  rcases document source with ⟨rules, comments, _ | fault⟩ <;>
    simp [Stage.behind, Session.start, Session.answer, Session.behindReading, Session.grammar,
      Reading.map, Reading.result, Reading.grammar]

theorem parse_eq_result (options : Options) (source : Bytes) :
    parse options source = (read options source).result := by
  unfold parse
  rw [parseTraced_eq]

end Ebnf
