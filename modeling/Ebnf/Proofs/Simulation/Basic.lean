import Ebnf.Proofs.Reading.Spans
import Mathlib.Data.List.Forall2

/-!
# Simulations

The productions are written over any scanner, and readers are the scanner that is easiest
to reason about.  A simulation says of another scanner that each of its operations does
what the one of readers does, wherever it can stand.  Since the productions are built from
nothing else, it then follows that every production does what the reader of that production
does.

The two differ in what they write down.  Where a reader notes a mark, the other scanner
notes whatever it takes for a place; the simulation translates the marks.
-/

namespace Ebnf

open Byte Noting

/-- The attempt with its value translated. -/
def Attempt.map (f : α → β) (attempt : Attempt α) : Attempt β where
  comments := attempt.comments
  result := attempt.result.map fun found => (f found.1, found.2)

theorem Attempt.map_id (attempt : Attempt α) : attempt.map id = attempt := by
  rcases attempt with ⟨comments, error | ⟨value, rest⟩⟩ <;> rfl

/-- How a scanner does what readers do. -/
structure Simulation (m : Type → Type) {Place Stop Note : Type} [Monad m] [Runtime]
    [Scanning m Place Stop Note] [Noting Note Place Stop] where
  placed : Mark → Place
  stopped : Mark → Stop
  located : Extent → Note
  /-- The inputs in front of which the scanner can stand. -/
  Ready : Bytes → Prop
  /-- The marks that it may have stood at. -/
  Within : Mark → Prop
  /-- The scanner, at the input, does what the reader does, with the value translated. -/
  Agrees : {α β : Type} → Bytes → (β → α) → m α → Reader β → Prop
  within {input : Bytes} {place : Mark} : Ready input → place ≤ input.length → Within place
  start_located (extent : Extent) : start (located extent) = placed extent.start
  stop_located {extent : Extent} : Within extent.start → extent.stop ≤ extent.start →
    stop (located extent) = stopped extent.stop
  between_placed {place : Mark} (behind : Mark) : Within place →
    between (placed place) (stopped behind) = located ⟨place, behind⟩
  pure {α β : Type} {input : Bytes} {f : β → α} {value : α} {value' : β} : Ready input →
    f value' = value → Agrees input f (Pure.pure value) (Pure.pure value')
  /-- What comes next begins where the scanner can stand again. -/
  bind {α β γ δ : Type} {input : Bytes} {f : β → α} {g : δ → γ} {scanner : m α}
    {reader : Reader β} {next : α → m γ} {next' : β → Reader δ} :
    Agrees input f scanner reader →
      (∀ value comments rest, reader.run input = .ok ⟨value, comments, rest⟩ → Ready rest →
        Agrees rest g (next (f value)) (next' value)) →
      Agrees input g (scanner >>= next) (reader >>= next')
  left {input : Bytes} : Ready input → Agrees input id (Bounded.left : m Nat) Reader.mark
  place {input : Bytes} : Ready input →
    Agrees input placed (Scanning.place : m Place) Reader.mark
  stop {input : Bytes} : Ready input → Agrees input stopped (Scanning.stop : m Stop) Reader.mark
  current {input : Bytes} : Ready input →
    Agrees input id (Scanning.current : m (Option UInt8)) Reader.current
  byte {input : Bytes} {expected : UInt8} : Ready input → isPrintable expected →
    Agrees input id (Scanning.byte expected : m Bool) (Reader.byte expected)
  one {input : Bytes} {member : UInt8 → Bool} : Ready input → (∀ b, member b → isPrintable b) →
    Agrees input id (Scanning.one member : m (Option UInt8)) (Reader.one member)
  takeWhile {input : Bytes} {member : UInt8 → Bool} : Ready input →
    (∀ b, member b → isPrintable b) →
    Agrees input id (Scanning.takeWhile member : m Bytes) (Reader.takeWhile member)
  passTo {input : Bytes} {b : UInt8} : Ready input → isPrintable b →
    Agrees input id (Scanning.passTo b : m Bytes) (Reader.takeWhile (· != b))
  symbol {input : Bytes} {spellings : List Bytes} : Ready input →
    (∀ spelling ∈ spellings, spelling ≠ [] ∧ ∀ b ∈ spelling, isPrintable b) →
    Agrees input id (Scanning.symbol spellings : m (Option Bytes)) (Reader.symbol spellings)
  definitionSeparator {input : Bytes} : Ready input →
    Agrees input id (Scanning.definitionSeparator : m Bool) Reader.definitionSeparator
  trivia {input : Bytes} : Ready input → Agrees input id (Scanning.trivia : m Unit) Reader.trivia
  orUndo {α β : Type} {input : Bytes} {f : β → α} {scanner : m (Option α)}
    {reader : Reader (Option β)} : Ready input → Agrees input (Option.map f) scanner reader →
      Agrees input (Option.map f) (Scanning.orUndo scanner) reader.orUndo
  check {α β : Type} {input : Bytes} {f : β → α} {scanner : m α} {reader : Reader β} :
    Ready input → Agrees input f scanner reader →
      Agrees input id (Scanning.check scanner) reader.check
  fail {α β : Type} {input : Bytes} (f : β → α) (cause : Cause) (start : Mark) : Ready input →
    Agrees input f (Scanning.fail cause (placed start) : m α) (Reader.fail cause start)
  convert {input digits : Bytes} : Ready input →
    Agrees input id (Scanning.convert digits : m Nat) (Reader.convert digits)
  entering {α β : Type} {input : Bytes} {f : β → α} {scanner : m α} {reader : Reader β}
    (level : Level) : Agrees input f scanner reader →
      Agrees input f (Scanning.entering level scanner) reader

namespace Simulation

variable {m : Type → Type} {Place Stop Note : Type} [Monad m] [Runtime]
  [Scanning m Place Stop Note] [Noting Note Place Stop] (sim : Simulation m)

/-- The scanner does what the reader does from wherever it can stand. -/
def Follows (f : β → α) (scanner : m α) (reader : Reader β) : Prop :=
  ∀ input, sim.Ready input → sim.Agrees input f scanner reader

variable {sim} {input : Bytes} {f : β → α}

/-! ### Steps with a known outcome -/

theorem bind_place {next : Place → m α} {next' : Mark → Reader β} (hready : sim.Ready input)
    (hnext : sim.Agrees input f (next (sim.placed input.length)) (next' input.length)) :
    sim.Agrees input f (Scanning.place >>= next) (Reader.mark >>= next') :=
  sim.bind (sim.place hready) fun _ _ _ hrun _ => by
    cases hrun
    exact hnext

theorem bind_stop {next : Stop → m α} {next' : Mark → Reader β} (hready : sim.Ready input)
    (hnext : sim.Agrees input f (next (sim.stopped input.length)) (next' input.length)) :
    sim.Agrees input f (Scanning.stop >>= next) (Reader.mark >>= next') :=
  sim.bind (sim.stop hready) fun _ _ _ hrun _ => by
    cases hrun
    exact hnext

theorem bind_left {next : Nat → m α} {next' : Nat → Reader β} (hready : sim.Ready input)
    (hnext : sim.Agrees input f (next input.length) (next' input.length)) :
    sim.Agrees input f (Bounded.left >>= next) (Bounded.left >>= next') :=
  sim.bind (sim.left hready) fun _ _ _ hrun _ => by
    cases hrun
    exact hnext

theorem ite {condition : Prop} [Decidable condition] {yes no : m α} {yes' no' : Reader β}
    (hyes : condition → sim.Agrees input f yes yes')
    (hno : ¬condition → sim.Agrees input f no no') :
    sim.Agrees input f (if condition then yes else no) (if condition then yes' else no') := by
  split
  · exact hyes ‹_›
  · exact hno ‹_›

/-- What is passed on is translated on the way. -/
theorem bind_pure {scanner : m α} {reader : Reader β} {g : α → γ} {g' : β → δ} {h : δ → γ}
    (hscanner : sim.Agrees input f scanner reader) (hvalue : ∀ value, h (g' value) = g (f value)) :
    sim.Agrees input h (scanner >>= fun value => Pure.pure (g value))
      (reader >>= fun value => Pure.pure (g' value)) :=
  sim.bind hscanner fun value _ _ _ hready => sim.pure hready (hvalue value)

/-! ### Loops -/

theorem firstOf {scanners : List (m (Option α))} {readers : List (Reader (Option β))}
    (h : List.Forall₂ (sim.Follows (Option.map f)) scanners readers) :
    sim.Follows (Option.map f) (Scanning.firstOf scanners) (Scanning.firstOf readers) := by
  induction h with
  | nil => exact fun input hready => sim.pure hready rfl
  | cons hfirst _ ih =>
    intro input hready
    refine sim.bind (hfirst input hready) fun value _ rest _ hready => ?_
    cases value with
    | some value => exact sim.pure hready rfl
    | none => exact ih rest hready

theorem many {item : m (Option α)} {item' : Reader (Option β)}
    (h : sim.Follows (Option.map f) item item') :
    sim.Follows (List.map f) (Scanning.many item) (Scanning.many item') := by
  have hrounds : ∀ rounds, sim.Follows (List.map f) (Scanning.manyUpTo item rounds)
      (Scanning.manyUpTo item' rounds) := by
    intro rounds
    induction rounds with
    | zero => exact fun input hready => sim.pure hready rfl
    | succ rounds ih =>
      intro input hready
      refine sim.bind (h input hready) fun value _ rest _ hready => ?_
      cases value with
      | none => exact sim.pure hready rfl
      | some value => exact bind_pure (ih rest hready) fun _ => rfl
  exact fun input hready => bind_left hready (hrounds _ input hready)

theorem separated {item : m (Option α)} {item' : Reader (Option β)} {separator : m Bool}
    {separator' : Reader Bool} (hitem : sim.Follows (Option.map f) item item')
    (hseparator : sim.Follows id separator separator') :
    sim.Follows (List.map f) (Scanning.separated item separator)
      (Scanning.separated item' separator') := by
  have hvalue (first : Option β) : first.toList.map f = (first.map f).toList := by
    cases first <;> rfl
  have hrounds : ∀ rounds, sim.Follows (List.map f) (Scanning.separatedUpTo item separator rounds)
      (Scanning.separatedUpTo item' separator' rounds) := by
    intro rounds
    induction rounds with
    | zero => exact fun input hready => sim.pure hready rfl
    | succ rounds ih =>
      intro input hready
      refine sim.bind (hitem input hready) fun first _ middle _ hready => ?_
      refine sim.bind (hseparator middle hready) fun more _ rest _ hready => ?_
      refine ite (fun _ => bind_pure (ih rest hready) fun values => ?_) fun _ => ?_
      · rw [List.map_append, hvalue]
      · exact sim.pure hready (hvalue first)
  exact fun input hready => bind_left hready (hrounds _ input hready)

end Simulation

end Ebnf
