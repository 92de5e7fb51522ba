import Ebnf.Proofs.Session.Moving

/-!
# Sessions with a past

What a call answers depends on the bytes that are left alone.  A session that has other
bytes, comments and rules behind it does what a session does that begins at the bytes that
are left: it finds the same, or stops with the same error, and goes equally far.  Only the
places differ, and in all of them by the place where the session began.  The line and the
column of that place need not agree with the bytes before it: a parser could look back at
these bytes, but since it does what the readers do it never has.
-/

namespace Ebnf

open Reader

/-- The place of a position that has been counted from `origin`.  Its column is counted from
that of `origin` as long as no line has ended in between. -/
def Position.behind (origin position : Position) : Position where
  offset := origin.offset + position.offset
  line := origin.line + position.line
  column := if position.line = 0 then origin.column + position.column else position.column

def Span.behind (origin : Position) (span : Span) : Span :=
  ⟨origin.behind span.start, span.length⟩

/-- What a session has behind it: bytes, the line and the column it is said to have got to
with them, and what has been collected. -/
structure Past where
  bytes : Bytes
  line : Int
  column : Int
  comments : List (Comment Position) := []
  rules : List (Rule Span) := []

namespace Past

variable (past : Past)

def origin : Position :=
  ⟨past.bytes.length, past.line, past.column⟩

/-- A session that begins with this past. -/
def start (options : Options) (source : Bytes) : Session where
  cursor := { source := past.bytes ++ source, options, position := past.origin }
  comments := past.comments
  rules := past.rules

/-- The session that has done the same with this past. -/
def session (session : Session) : Session where
  cursor :=
    { source := past.bytes ++ session.cursor.source
      options := session.cursor.options
      position := past.origin.behind session.cursor.position }
  comments := past.comments ++ session.comments.map (Comment.map past.origin.behind)
  rules := past.rules ++ session.rules.map (Rule.map (Span.behind past.origin))

/-- The answer with this past.  Only the rest of a document is answered with what has been
collected before. -/
def answer : (call : Call) → call.Answer → call.Answer
  | .produce _ => Option.map (Node.map (Span.behind past.origin))
  | .definitions => List.map (Definition.map (Span.behind past.origin))
  | .trivia | .comment | .strayLexeme | .symbol _ => id
  | .parse => fun g =>
    ⟨past.rules ++ g.rules.map (Rule.map (Span.behind past.origin)),
      past.comments ++ g.comments.map (Comment.map past.origin.behind)⟩

/-- What comes of a call with this past. -/
def outcome (call : Call) (result : Except (Fault Position) call.Answer) :
    Except (Fault Position) call.Answer :=
  (result.map (past.answer call)).mapError (Fault.map past.origin.behind)

end Past

/-! ### Places -/

/-- Passing over bytes moves both places alike, since no line begins before the first. -/
theorem Position.after_behind {options : Options} {origin position : Position}
    (hline : 0 ≤ position.line) (bytes : Bytes) :
    (origin.behind position).after options bytes =
      origin.behind (position.after options bytes) := by
  rw [Position.after_eq_beyond, Position.after_eq_beyond]
  unfold Position.beyond Position.behind
  cases hlast : (lineEnds options bytes).getLast? with
  | none =>
    have hnone := List.getLast?_eq_none_iff.1 hlast
    simp only [hnone, List.length_nil, Position.mk.injEq]
    refine ⟨Nat.add_assoc _ _ _, by omega, ?_⟩
    split <;> split <;> omega
  | some last =>
    have hsome : lineEnds options bytes ≠ [] := by
      rintro hnone
      simp [hnone] at hlast
    have hpositive := List.length_pos_iff.2 hsome
    simp only [Position.mk.injEq]
    refine ⟨Nat.add_assoc _ _ _, by omega, ?_⟩
    rw [if_neg (by omega)]

/-- Passing along a line moves both places alike. -/
theorem Position.behind_along (origin position : Position) (bytes : Nat) :
    origin.behind ⟨position.offset + bytes, position.line, position.column + bytes⟩ =
      ⟨(origin.behind position).offset + bytes, (origin.behind position).line,
        (origin.behind position).column + bytes⟩ := by
  unfold behind
  simp only [Position.mk.injEq]
  refine ⟨(Nat.add_assoc _ _ _).symm, trivial, ?_⟩
  split <;> omega

theorem Position.line_le_after (options : Options) (position : Position) (bytes : Bytes) :
    position.line ≤ (position.after options bytes).line := by
  rw [Position.after_eq_beyond]
  unfold Position.beyond
  simp only
  omega

namespace Past

variable {past : Past} {s : Session}

theorem unread_session : (past.session s).cursor.unread = s.cursor.unread := by
  simp only [Cursor.unread, session, Position.behind, origin, List.drop_append,
    List.drop_eq_nil_of_le (Nat.le_add_right _ _), Nat.add_sub_cancel_left, List.nil_append]

theorem positionAt_session (hline : 0 ≤ s.cursor.position.line) :
    (past.session s).cursor.positionAt = past.origin.behind ∘ s.cursor.positionAt := by
  funext place
  unfold Cursor.positionAt
  rw [unread_session]
  exact Position.after_behind hline _

theorem locate_session (hline : 0 ≤ s.cursor.position.line) :
    (past.session s).cursor.locate = Span.behind past.origin ∘ s.cursor.locate := by
  funext extent
  unfold Cursor.locate
  rw [positionAt_session hline]
  rfl

end Past

/-! ### Calls -/

theorem Node.map_map {γ : Type} (f : α → β) (g : β → γ) (n : Node α) :
    (n.map f).map g = n.map (g ∘ f) := by
  cases n with
  | rule r => exact congrArg Node.rule (r.map_map f g)
  | definition d => exact congrArg Node.definition (d.map_map f g)

namespace Past

variable {past : Past} {s : Session}

/-- A reader does with a past what it does without. -/
theorem run_session (hline : 0 ≤ s.cursor.position.line) (reader : Reader α) :
    (past.session s).run reader =
      ((s.run reader).1.mapError (Fault.map past.origin.behind),
        past.session (s.run reader).2) := by
  unfold Session.run Session.behind Attempt.answer Cursor.before
  simp only [unread_session, positionAt_session hline]
  rcases reader.attempt s.cursor.unread with ⟨comments, fault | ⟨value, rest⟩⟩
  · simp [session, Cursor.moveTo, Except.mapError, Fault.map_map, Comment.map, Attempt.left,
      Function.comp_def]
  · simp [session, Cursor.moveTo, Except.mapError, Comment.map, Attempt.left, Function.comp_def]

/-- The same for a reader that also gives places to what it finds. -/
theorem run_map_session (hline : 0 ≤ s.cursor.position.line) {found : α → β}
    {answer : β → β} {found' : α → β} (hfound : found' = answer ∘ found) (reader : Reader α) :
    (past.session s).run (found' <$> reader) =
      (((s.run (found <$> reader)).1.map answer).mapError (Fault.map past.origin.behind),
        past.session (s.run (found <$> reader)).2) := by
  rw [Session.run_map, Session.run_map, run_session hline, hfound]
  cases (s.run reader).1 <;> rfl

theorem run_answer_session (hline : 0 ≤ s.cursor.position.line) (reader : Reader α) :
    (past.session s).run reader =
      (((s.run reader).1.map id).mapError (Fault.map past.origin.behind),
        past.session (s.run reader).2) := by
  rw [run_session hline]
  cases (s.run reader).1 <;> rfl

theorem symbol_session (spellings : List Bytes) :
    (Parser.symbol spellings).run (past.session s) =
      (((Parser.symbol spellings).run s).1, past.session ((Parser.symbol spellings).run s).2) := by
  have hstarts : (past.session s).cursor.startsWith = s.cursor.startsWith := by
    funext word
    unfold Cursor.startsWith
    rw [unread_session]
    simp [session, Position.behind, origin]
  rw [Parser.symbol_run, Parser.symbol_run, hstarts]
  cases spellings.find? s.cursor.startsWith with
  | none => rfl
  | some spelling =>
    simp only [Cursor.stepOver_eq, session, Cursor.moveTo, Position.behind_along]

theorem line_symbol (spellings : List Bytes) :
    s.cursor.position.line ≤ ((Parser.symbol spellings).run s).2.cursor.position.line := by
  rw [Parser.symbol_run]
  cases spellings.find? s.cursor.startsWith with
  | none => exact Int.le_refl _
  | some spelling =>
    simp only [Cursor.stepOver_eq]
    exact Int.le_refl _

theorem start_eq_session (options : Options) (source : Bytes) :
    past.start options source = past.session (Session.start options source) := by
  simp [start, session, Session.start, Position.behind, Position.origin, origin]

section

variable [Runtime]

theorem readAll_session (past : Past) (hline : 0 ≤ s.cursor.position.line) (debug : Bool) :
    ((past.session s).readAll debug).1 = past.outcome .parse (s.readAll debug).1 ∧
      ((past.session s).readAll debug).2.session = past.session (s.readAll debug).2.session := by
  have hcomments (comments : List (Comment Mark)) :
      comments.map (Comment.map (past.origin.behind ∘ s.cursor.positionAt)) =
        (comments.map (Comment.map s.cursor.positionAt)).map (Comment.map past.origin.behind) := by
    rw [List.map_map]
    rfl
  have hrules (rules : List (Rule Extent)) :
      rules.map (Rule.map (Span.behind past.origin ∘ s.cursor.locate)) =
        (rules.map (Rule.map s.cursor.locate)).map (Rule.map (Span.behind past.origin)) := by
    simp only [List.map_map, Function.comp_def, Rule.map_map]
  rw [Session.readAll_eq, Session.readAll_eq]
  unfold Stage.behind Session.answer Session.behindReading Cursor.before
  simp only [unread_session, positionAt_session hline, locate_session hline, hcomments, hrules]
  rcases document s.cursor.unread with ⟨rules, comments, _ | fault⟩
  · simp only [session, Session.grammar, Cursor.moveTo, List.map_append, List.append_assoc]
    refine ⟨?_, rfl⟩
    simp only [outcome, answer, Except.map, Except.mapError, List.map_append]
    rfl
  · simp only [session, Cursor.moveTo, List.map_append, List.append_assoc, ← Fault.map_map]
    exact ⟨rfl, rfl⟩

/-- One call: what it answers and what it leaves. -/
theorem call_session (hline : 0 ≤ s.cursor.position.line) (call : Call) :
    (past.session s).call call =
      (past.outcome call (s.call call).1, past.session (s.call call).2) := by
  cases call with
  | produce production =>
    rw [Session.call_produce, Session.call_produce]
    apply run_map_session hline
    rw [locate_session hline]
    funext n
    cases n with
    | none => rfl
    | some n => exact congrArg some (n.map_map _ _).symm
  | definitions =>
    rw [Session.call_definitions, Session.call_definitions]
    apply run_map_session hline
    rw [locate_session hline]
    funext definitions
    have hmap := Definition.mapAll_mapAll s.cursor.locate (Span.behind past.origin) definitions
    simp only [Definition.mapAll_eq] at hmap
    exact hmap.symm
  | trivia =>
    rw [Session.call_trivia, Session.call_trivia]
    exact run_answer_session hline _
  | comment =>
    rw [Session.call_comment, Session.call_comment]
    exact run_answer_session hline _
  | strayLexeme =>
    rw [Session.call_strayLexeme, Session.call_strayLexeme]
    exact run_answer_session hline _
  | symbol spellings =>
    refine (symbol_session spellings).trans (Prod.ext ?_ rfl)
    change _ = past.outcome (.symbol spellings) ((Parser.symbol spellings).run s).1
    rw [Parser.symbol_run]
    cases spellings.find? s.cursor.startsWith <;> rfl
  | parse =>
    obtain ⟨hanswer, hnext⟩ := past.readAll_session hline false
    exact Prod.ext hanswer hnext

theorem line_call (call : Call) :
    s.cursor.position.line ≤ (s.call call).2.cursor.position.line := by
  have hrun {α : Type} (reader : Reader α) :
      s.cursor.position.line ≤ (s.run reader).2.cursor.position.line :=
    Position.line_le_after _ _ _
  cases call with
  | produce production =>
    rw [Session.call_produce]
    exact hrun _
  | definitions =>
    rw [Session.call_definitions]
    exact hrun _
  | trivia =>
    rw [Session.call_trivia]
    exact hrun _
  | comment =>
    rw [Session.call_comment]
    exact hrun _
  | strayLexeme =>
    rw [Session.call_strayLexeme]
    exact hrun _
  | symbol spellings => exact line_symbol spellings
  | parse =>
    have hnext : (s.call .parse).2 = (s.readAll false).2.session := rfl
    rw [hnext, Session.readAll_eq]
    exact Position.line_le_after _ _ _

/-- Any number of calls. -/
theorem after_session (hline : 0 ≤ s.cursor.position.line) (calls : List Call) :
    (past.session s).after calls = past.session (s.after calls) := by
  induction calls generalizing s with
  | nil => rfl
  | cons call calls ih =>
    have hnext : ((past.session s).call call).2 = past.session (s.call call).2 :=
      congrArg Prod.snd (call_session hline call)
    change ((past.session s).call call).2.after calls = _
    rw [hnext]
    exact ih (Int.le_trans hline (line_call call))

end

end Past

/-- Whatever a session has behind it, and whether or not its line and column agree with the
bytes there, every call does what it does where the bytes that are left are the whole
source: it comes to the same answer or the same cause of error, adds the same comments and
rules, and consumes equally many bytes.  Every place is behind the one where the session
began by as much as it is behind the beginning of that source.  So is everything after any
number of calls. -/
theorem call_with_past [Runtime] (past : Past) (options : Options) (source : Bytes) :
    let session := past.start options source
    let fresh := Session.start options source
    (∀ call, session.call call =
      (past.outcome call (fresh.call call).1, past.session (fresh.call call).2)) ∧
    session.cursor.atSeparator = fresh.cursor.atSeparator ∧
    ∀ calls, session.after calls = past.session (fresh.after calls) := by
  intro session fresh
  have hstart : session = past.session fresh := Past.start_eq_session options source
  have hline : 0 ≤ fresh.cursor.position.line := Int.le_refl 0
  rw [hstart]
  refine ⟨Past.call_session hline, ?_, Past.after_session hline⟩
  rw [Cursor.atSeparator_eq, Cursor.atSeparator_eq, Past.unread_session]

attribute [local instance] Runtime.usual

/-- A LF that stands behind a CR ends a line where the session begins with it. -/
example : ((Past.start ⟨[0x61, 0x0D], 7, -3, [], []⟩ {} [0x20, 0x0A, 0x62]).call .trivia).2.cursor =
    { source := [0x61, 0x0D, 0x20, 0x0A, 0x62], position := ⟨4, 8, 0⟩ } := by
  decide +kernel

end Ebnf
