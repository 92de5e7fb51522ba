import Ebnf.Proofs.Reading.Document

/-!
# What the runtime refuses

A reader stops for two reasons: an error in what is written, or a count that the runtime
refuses to convert.  The second has a reason in the input as well, a run of digits that stands
there and is too long; where the runtime has no bound there is no such run, and every reader
that stops has come to an error.
-/

namespace Ebnf.Reader

open Scanning

variable [Runtime]

/-- A reader is refused nothing but runs of digits that stand in its input. -/
structure Counting (reader : Reader α) : Prop where
  refused : ∀ {input : Bytes} {digits : Nat} {stop : Mark},
    reader.run input = .error (.refusal digits stop) → Refused input digits stop

namespace Counting

/-! ### Readers that convert nothing -/

theorem of_isError {reader : Reader α} {kind : Bytes → SyntaxError Mark → Prop}
    {post : Bytes → α → List (Comment Mark) → Bytes → Prop}
    (h : ∀ input, reader.Ensures (Fault.IsError (kind input)) input (post input)) :
    reader.Counting where
  refused hrun := ((h _).of_error hrun).elim

theorem plain {step : Bytes → Except (Fault Mark) (α × Bytes)}
    (h : ∀ input digits stop, step input ≠ .error (.refusal digits stop)) :
    (Reader.plain step).Counting where
  refused {input digits stop} hrun := by
    obtain ⟨comments, hattempt⟩ := attempt_of_run_error hrun
    exact absurd (congrArg Attempt.result hattempt) (h input digits stop)

theorem pure (value : α) : (Pure.pure value : Reader α).Counting :=
  plain nofun

theorem mark : Reader.mark.Counting :=
  plain nofun

theorem current : Reader.current.Counting :=
  plain nofun

theorem fail (cause : Cause) (start : Mark) : (Reader.fail cause start : Reader α).Counting :=
  plain nofun

theorem takeWhile (member : UInt8 → Bool) : (Reader.takeWhile member).Counting :=
  plain nofun

theorem byte (expected : UInt8) : (Reader.byte expected).Counting := by
  apply plain
  intro input digits stop
  rcases input with _ | ⟨b, rest⟩
  · nofun
  · dsimp only
    split <;> nofun

theorem one (member : UInt8 → Bool) : (Reader.one member).Counting := by
  apply plain
  intro input digits stop
  rcases input with _ | ⟨b, rest⟩
  · nofun
  · dsimp only
    split <;> nofun

theorem symbol (spellings : List Bytes) : (Reader.symbol spellings).Counting := by
  apply plain
  intro input digits stop
  split <;> nofun

theorem definitionSeparator : Reader.definitionSeparator.Counting := by
  apply plain
  intro input digits stop
  split <;> nofun

theorem comment : Reader.comment.Counting :=
  of_isError ensures_comment

theorem trivia : Reader.trivia.Counting :=
  of_isError ensures_trivia

/-! ### Combinations -/

theorem bind {reader : Reader α} {next : α → Reader β} (h : reader.Counting)
    (hforward : reader.Forward) (hnext : ∀ value, (next value).Counting) :
    (reader >>= next).Counting where
  refused {input digits stop} hrun := by
    rw [run_bind] at hrun
    cases hfirst : reader.run input with
    | error fault =>
      rw [hfirst] at hrun
      cases hrun
      exact h.refused hfirst
    | ok first =>
      rw [hfirst] at hrun
      cases hsecond : (next first.value).run first.rest with
      | error fault =>
        simp only [hsecond] at hrun
        cases hrun
        exact ((hnext _).refused hsecond).of_suffix (hforward.suffix hfirst)
      | ok second =>
        simp only [hsecond] at hrun
        cases hrun

theorem map {reader : Reader α} (h : reader.Counting) (hforward : reader.Forward) (f : α → β) :
    (f <$> reader).Counting :=
  h.bind hforward fun _ => pure _

theorem bind_mark {next : Mark → Reader α} (h : ∀ place, (next place).Counting) :
    (Reader.mark >>= next).Counting :=
  mark.bind Forward.mark h

theorem bind_byte {expected : UInt8} {next : Bool → Reader α} (h : ∀ found, (next found).Counting) :
    (Reader.byte expected >>= next).Counting :=
  (byte expected).bind (Forward.byte _) h

theorem bind_trivia {next : Unit → Reader α} (h : (next ()).Counting) :
    (Reader.trivia >>= next).Counting :=
  trivia.bind forward_trivia fun _ => h

theorem beforeTrivia {reader : Reader α} (h : reader.Counting) (hforward : reader.Forward) :
    (Reader.beforeTrivia reader).Counting :=
  h.bind hforward fun _ => bind_trivia (pure _)

theorem ite {condition : Prop} [Decidable condition] {yes no : Reader α} (hyes : yes.Counting)
    (hno : no.Counting) : (if condition then yes else no).Counting := by
  split
  · exact hyes
  · exact hno

theorem orUndo {reader : Reader (Option α)} (h : reader.Counting) : reader.orUndo.Counting where
  refused {input digits stop} hrun := by
    cases hreader : reader.run input with
    | error fault =>
      rw [orUndo_run_error hreader] at hrun
      cases hrun
      exact h.refused hreader
    | ok outcome =>
      rcases outcome with ⟨_ | value, comments, rest⟩
      · rw [orUndo_run_none hreader] at hrun
        cases hrun
      · rw [orUndo_run_some hreader] at hrun
        cases hrun

theorem check {reader : Reader α} (h : reader.Counting) : reader.check.Counting where
  refused {input digits stop} hrun := by
    cases hreader : reader.run input with
    | error fault =>
      rw [check_run_error hreader] at hrun
      cases hrun
      exact h.refused hreader
    | ok outcome =>
      rw [check_run_ok hreader] at hrun
      cases hrun

theorem firstOf {readers : List (Reader (Option α))}
    (h : ∀ reader ∈ readers, reader.Counting ∧ reader.Forward) :
    (Scanning.firstOf readers).Counting := by
  induction readers with
  | nil => exact pure none
  | cons reader more ih =>
    rw [List.forall_mem_cons] at h
    refine h.1.1.bind h.1.2 fun value => ?_
    cases value with
    | none => exact ih h.2
    | some value => exact pure _

theorem many {item : Reader (Option α)} (h : item.Counting) (hforward : item.Forward) :
    (Scanning.many item).Counting := by
  have hrounds : ∀ rounds, (Scanning.manyUpTo item rounds).Counting := by
    intro rounds
    induction rounds with
    | zero => exact pure []
    | succ rounds ih =>
      refine h.bind hforward fun value => ?_
      cases value with
      | none => exact pure []
      | some value => exact ih.bind (hforward.manyUpTo rounds) fun _ => pure _
  exact mark.bind Forward.mark fun _ => hrounds _

theorem separated {item : Reader (Option α)} {separator : Reader Bool} (h : item.Counting)
    (hforward : item.Forward) (hseparator : separator.Counting)
    (hseparator' : separator.Forward) : (Scanning.separated item separator).Counting := by
  have hrounds : ∀ rounds, (Scanning.separatedUpTo item separator rounds).Counting := by
    intro rounds
    induction rounds with
    | zero => exact pure []
    | succ rounds ih =>
      refine h.bind hforward fun first => hseparator.bind hseparator' fun more => ite ?_ (pure _)
      exact ih.bind (hforward.separatedUpTo hseparator' rounds) fun _ => pure _
  exact mark.bind Forward.mark fun _ => hrounds _

end Counting

/-! ### Lexemes -/

section Levels

variable {inside : Reader (List (Definition Extent))} (h : inside.Counting)
  (hforward : inside.Forward)

include h hforward

end Levels

end Ebnf.Reader
