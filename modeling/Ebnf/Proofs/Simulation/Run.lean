import Ebnf.Parser.Production

/-!
# Running parsers

What each of the elementary parsers does to a session: an equation for every one of them, by
which their runs are computed.
-/

namespace Ebnf.Parser

variable {session after : Session}

@[simp] theorem run_pure (value : α) : (pure value : Parser α).run session = (.ok value, session) :=
  rfl

theorem run_bind (parser : Parser α) (next : α → Parser β) (session : Session) :
    (parser >>= next).run session =
      match parser.run session with
      | (.error fault, after) => (.error fault, after)
      | (.ok value, after) => (next value).run after := by
  change ExceptT.bindCont next (parser.run session).1 (parser.run session).2 = _
  rcases parser.run session with ⟨fault | value, after⟩ <;> rfl

theorem run_bind_of_ok {parser : Parser α} {next : α → Parser β} {value : α}
    (h : parser.run session = (.ok value, after)) :
    (parser >>= next).run session = (next value).run after := by
  rw [run_bind, h]

theorem run_bind_of_error {parser : Parser α} {next : α → Parser β} {fault : Fault Position}
    (h : parser.run session = (.error fault, after)) :
    (parser >>= next).run session = (.error fault, after) := by
  rw [run_bind, h]

/-! ### Steps with a known outcome -/

@[simp] theorem run_cursor_bind (next : Cursor → Parser α) :
    (cursor >>= next).run session = (next session.cursor).run session := rfl

@[simp] theorem run_place_bind (next : Position → Parser α) :
    (place >>= next).run session = (next session.cursor.position).run session := rfl

@[simp] theorem run_left_bind (next : Nat → Parser α) :
    (left >>= next).run session = (next session.cursor.left).run session := rfl

@[simp] theorem run_current_bind (next : Option UInt8 → Parser α) :
    (current >>= next).run session = (next session.cursor.current).run session := rfl

@[simp] theorem run_get_bind (next : Session → Parser α) :
    (get >>= next).run session = (next session).run session := rfl

@[simp] theorem run_move_bind (moved : Cursor → Cursor) (next : Unit → Parser α) :
    (move moved >>= next).run session =
      (next ()).run { session with cursor := moved session.cursor } := rfl

@[simp] theorem run_ite {condition : Prop} [Decidable condition] (yes no : Parser α) :
    (if condition then yes else no).run session =
      if condition then yes.run session else no.run session := by
  split <;> rfl

/-! ### Elementary parsers -/

theorem byte_run (expected : UInt8) : (byte expected).run session =
    if session.cursor.current = some expected then
      (.ok true, { session with cursor := session.cursor.step })
    else (.ok false, session) := by
  simp only [byte, run_current_bind, run_ite, run_move_bind, run_pure]

theorem one_run (member : UInt8 → Bool) : (one member).run session =
    if session.cursor.current.any member then
      (.ok session.cursor.current, { session with cursor := session.cursor.step })
    else (.ok none, session) := by
  simp only [one, run_current_bind, run_ite, run_move_bind, run_pure]

theorem takeWhile_run (member : UInt8 → Bool) : (takeWhile member).run session =
    match session.cursor.take? { member } with
    | none => (.ok [], session)
    | some (bytes, behind) => (.ok bytes, { session with cursor := behind }) := by
  simp only [takeWhile, run_cursor_bind]
  rcases session.cursor.take? { member } with _ | ⟨bytes, behind⟩ <;> rfl

theorem passTo_run (b : UInt8) : (passTo b).run session =
    let behind := session.cursor.advanceWhile (· != b) session.cursor.left
    (.ok (behind.source.slice session.cursor.position.offset behind.position.offset),
      { session with cursor := behind }) := rfl

theorem symbol_run (spellings : List Bytes) : (symbol spellings).run session =
    match spellings.find? session.cursor.startsWith with
    | none => (.ok none, session)
    | some spelling =>
      (.ok (some spelling), { session with cursor := session.cursor.stepOver spelling }) := by
  simp only [symbol, run_cursor_bind]
  cases spellings.find? session.cursor.startsWith <;> rfl

theorem definitionSeparator_run : definitionSeparator.run session =
    if session.cursor.atSeparator then
      (.ok true, { session with cursor := session.cursor.step })
    else (.ok false, session) := by
  simp only [definitionSeparator, run_cursor_bind, run_ite, run_move_bind, run_pure]

theorem convert_run [Runtime] (digits : Bytes) : (convert digits).run session =
    if Runtime.converts digits.length then (.ok digits.decimal, session)
    else (.error (.refusal digits.length session.cursor.position), session) := by
  unfold convert
  rw [run_ite]
  rfl

/-- Nothing changes when nothing is found, whatever has been done by then. -/
theorem orUndo_run (parser : Parser (Option α)) : (orUndo parser).run session =
    match parser.run session with
    | (.ok none, after) => (.ok none, after.reset session.checkpoint)
    | found => found := by
  simp only [orUndo, run_get_bind]
  rcases hrun : parser.run session with ⟨fault | _ | value, after⟩
  · rw [run_bind_of_error hrun]
  · rw [run_bind_of_ok hrun]
    rfl
  · rw [run_bind_of_ok hrun]
    rfl

theorem check_run (parser : Parser α) : (check parser).run session =
    match parser.run session with
    | (.ok _, after) => (.ok (), after.reset session.checkpoint)
    | (.error fault, after) => (.error fault, after) := by
  simp only [check, run_get_bind]
  rcases hrun : parser.run session with ⟨fault | value, after⟩
  · rw [run_bind_of_error hrun]
  · rw [run_bind_of_ok hrun]
    rfl

end Ebnf.Parser
