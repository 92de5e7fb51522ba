import Ebnf.Parser.Call
import Ebnf.Proofs.Simulation.Trivia

/-!
# Sessions do what readers do

The parser is a scanner that is simulated, from whatever place its cursor stands at.  So a
call on a session comes to what the reader of the construct comes to on the bytes that are
left, with its marks turned into positions from the cursor on.
-/

namespace Ebnf

open Noting Reader

/-- The offset at which a located extent ends. -/
theorem Cursor.stop_locate {base : Cursor} {extent : Extent}
    (hstart : extent.start ≤ base.unread.length) (hstop : extent.stop ≤ extent.start) :
    (base.locate extent).stop = (base.positionAt extent.stop).offset := by
  change (base.positionAt extent.start).offset + (extent.start - extent.stop) = _
  rw [offset_positionAt, offset_positionAt, Nat.add_assoc, Nat.sub_add_sub_cancel hstart hstop]

/-- The span from a position to an offset behind it. -/
theorem Cursor.locate_eq {base : Cursor} {place : Mark} (behind : Mark)
    (hplace : place ≤ base.unread.length) :
    ⟨base.positionAt place, (base.positionAt behind).offset - (base.positionAt place).offset⟩ =
      base.locate ⟨place, behind⟩ := by
  unfold locate
  rw [offset_positionAt, offset_positionAt, Nat.add_sub_add_left,
    tsub_tsub_tsub_cancel_left hplace]

/-! ### Readers at the cursor -/

/-- What comes of a reader at the cursor, and the session as the reader leaves it. -/
def Session.run (session : Session) (reader : Reader α) :
    Except (Fault Position) α × Session :=
  let attempt := reader.attempt session.cursor.unread
  (attempt.answer session.cursor, session.behind session.cursor attempt)

theorem Reader.attempt_map (f : α → β) (reader : Reader α) (input : Bytes) :
    (f <$> reader).attempt input = (reader.attempt input).map f := by
  rw [map_eq_pure_bind]
  rcases hattempt : reader.attempt input with ⟨comments, fault | ⟨value, rest⟩⟩
  · rw [attempt_bind_of_error _ hattempt]
    rfl
  · rw [attempt_bind_of_ok _ hattempt]
    simp [Attempt.map, Except.map]

theorem Session.run_map (session : Session) (f : α → β) (reader : Reader α) :
    session.run (f <$> reader) = ((session.run reader).1.map f, (session.run reader).2) := by
  unfold run
  rw [attempt_map]
  rcases reader.attempt session.cursor.unread with ⟨comments, fault | ⟨value, rest⟩⟩ <;> rfl

theorem Parser.Does.run_eq {session : Session} {f : β → α} {parser : Parser α} {reader : Reader β}
    (h : Does session.cursor session.cursor.unread f parser reader) :
    parser.run session = session.run (f <$> reader) := by
  rw [h.run session session.cursor.before_unread.symm]
  unfold Session.run
  rw [attempt_map]
  rcases reader.attempt session.cursor.unread with ⟨comments, fault | ⟨value, rest⟩⟩ <;> rfl

/-! ### The parser as a scanner -/

variable [Runtime]

/-- A parser that begins at a cursor does what readers do. -/
def Parser.simulation (base : Cursor) : Simulation Parser where
  placed := base.positionAt
  stopped mark := (base.positionAt mark).offset
  located := base.locate
  Ready := base.Reaches
  Within mark := mark ≤ base.unread.length
  Agrees := Does base
  within h hplace := Nat.le_trans hplace h.suffix.length_le
  start_located _ := rfl
  stop_located := Cursor.stop_locate
  between_placed := Cursor.locate_eq
  pure h hvalue := Does.pure h hvalue
  bind h hnext := h.bind hnext
  left := Does.left
  place := Does.place
  stop := Does.stop
  current := Does.current
  byte := Does.byte
  one := Does.one
  takeWhile := Does.takeWhile
  passTo := Does.passTo
  symbol := Does.symbol
  definitionSeparator := Does.definitionSeparator
  trivia := Does.trivia
  orUndo := Does.orUndo
  check := Does.check
  fail f cause start _ := Does.fail f cause start
  convert := Does.convert _
  entering _ h := h

theorem Parser.Does.of_follows {base : Cursor} {f : β → α} {parser : Parser α} {reader : Reader β}
    (h : (simulation base).Follows f parser reader) : Does base base.unread f parser reader :=
  h _ base.reaches_unread

/-! ### Productions by name -/

/-- The production as a reader. -/
abbrev Production.reader (production : Production) : Reader (Option (Node Extent)) :=
  production.scanner

namespace Simulation

variable {m : Type → Type} {Place Stop Note : Type} [Monad m] [LawfulMonad m]
  [Scanning m Place Stop Note] [Noting Note Place Stop] (sim : Simulation m)

/-- What is wrapped up on both sides. -/
theorem Follows.wrap {scanner : m (Option α)} {reader : Reader (Option β)} {f : β → α}
    {g : α → γ} {g' : β → δ} {h : δ → γ} (hfollows : sim.Follows (Option.map f) scanner reader)
    (hvalue : ∀ value, h (g' value) = g (f value)) :
    sim.Follows (Option.map h) (Option.map g <$> scanner) (Option.map g' <$> reader) := by
  intro input hready
  rw [map_eq_pure_bind, map_eq_pure_bind]
  refine bind_pure (hfollows input hready) fun value => ?_
  cases value with
  | none => rfl
  | some value => exact congrArg some (hvalue value)

theorem production (production : Production) :
    sim.Follows (Option.map (Node.map sim.located)) production.scanner production.reader := by
  cases production with
  | identifier => exact sim.identifier.wrap _ fun _ => rfl
  | terminal => exact sim.terminal.wrap _ fun _ => rfl
  | special => exact sim.special.wrap _ fun _ => rfl
  | bracketed bracket => exact (sim.bracketed bracket).wrap _ fun _ => rfl
  | primary => exact sim.primary.wrap _ fun _ => rfl
  | factor => exact sim.factor.wrap _ fun _ => rfl
  | term => exact sim.term.wrap _ fun _ => rfl
  | definition => exact sim.definition.wrap _ fun _ => rfl
  | rule => exact fun input hready => bind_pure (sim.rule input hready) fun _ => rfl

end Simulation

/-! ### Calls -/

namespace Reader

/-- Trivia, and whether there was any. -/
def triviaMoved : Reader Bool := do
  let before ← mark
  trivia
  return before != (← mark)

end Reader

omit [Runtime] in
/-- The offset has changed just if bytes have been passed. -/
theorem Parser.Does.triviaMoved {base : Cursor} {input : Bytes} (h : base.Reaches input) :
    Does base input id Parser.triviaMoved Reader.triviaMoved := by
  refine (Does.stop h).bind fun _ _ _ hentry _ => ?_
  cases hentry
  refine (Does.trivia h).bind fun _ _ exit _ hexit => (Does.stop hexit).bind fun _ _ _ hrun _ => ?_
  cases hrun
  refine Does.pure hexit ?_
  have hinput := h.suffix.length_le
  have hlength := hexit.suffix.length_le
  rw [id_eq, Bool.eq_iff_iff, bne_iff_ne, bne_iff_ne, Cursor.offset_positionAt,
    Cursor.offset_positionAt]
  change input.length ≠ exit.length ↔ _
  omega

namespace Session

variable (session : Session)

theorem call_produce (production : Production) : session.call (.produce production) =
    session.run (Option.map (Node.map session.cursor.locate) <$> production.reader) :=
  (Parser.Does.of_follows ((Parser.simulation session.cursor).production production)).run_eq

theorem call_definitions : session.call .definitions =
    session.run (List.map (Definition.map session.cursor.locate) <$> Reader.definitions) :=
  (Parser.Does.of_follows (Parser.simulation session.cursor).definitions).run_eq

theorem call_trivia : session.call .trivia = session.run Reader.triviaMoved :=
  id_map Reader.triviaMoved ▸ (Parser.Does.triviaMoved session.cursor.reaches_unread).run_eq

theorem call_comment : session.call .comment = session.run Reader.comment :=
  id_map Reader.comment ▸ (Parser.Does.comment session.cursor.reaches_unread).run_eq

theorem call_strayLexeme : session.call .strayLexeme = session.run Reader.strayLexeme :=
  id_map Reader.strayLexeme ▸
    (Parser.Does.of_follows (Parser.simulation session.cursor).strayLexeme).run_eq

end Session

end Ebnf
