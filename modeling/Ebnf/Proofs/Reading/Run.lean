import Ebnf.Reader.Forward
import Mathlib.Data.List.TakeWhile

/-!
# Running readers forward

Equations for what the elementary readers do on an input whose beginning is known.
A run of a combination is computed from left to right: each step leaves the run of
what comes next, behind the comments that were passed before it.
-/

namespace Ebnf.Reader

open Scanning

/-- The result of a reader that goes on behind some comments. -/
def passing (comments : List (Comment Mark)) :
    Except (Fault Mark) (Outcome α) → Except (Fault Mark) (Outcome α)
  | .error error => .error error
  | .ok outcome => .ok { outcome with comments := comments ++ outcome.comments }

@[simp] theorem passing_ok (comments comments' : List (Comment Mark)) (value : α)
    (rest : Bytes) :
    passing comments (.ok ⟨value, comments', rest⟩) =
      .ok ⟨value, comments ++ comments', rest⟩ := rfl

@[simp] theorem passing_nil (result : Except (Fault Mark) (Outcome α)) :
    passing [] result = result := by
  cases result <;> rfl

theorem passing_passing (comments comments' : List (Comment Mark))
    (result : Except (Fault Mark) (Outcome α)) :
    passing comments (passing comments' result) = passing (comments ++ comments') result := by
  cases result with
  | error error => rfl
  | ok outcome => simp only [passing, List.append_assoc]

theorem plain_run_ok {step : Bytes → Except (Fault Mark) (α × Bytes)}
    {input rest : Bytes} {value : α} (h : step input = .ok (value, rest)) :
    (plain step).run input = .ok ⟨value, [], rest⟩ := by
  simp only [run, plain, h, Attempt.outcome]

theorem run_bind_of_ok {reader : Reader α} {next : α → Reader β} {input rest : Bytes}
    {value : α} {comments : List (Comment Mark)}
    (h : reader.run input = .ok ⟨value, comments, rest⟩) :
    (reader >>= next).run input = passing comments ((next value).run rest) := by
  rw [run_bind, h]
  cases hnext : (next value).run rest <;> simp only [hnext, passing]

theorem run_bind_of_passing {reader : Reader α} {next : α → Reader β} {input rest : Bytes}
    {comments : List (Comment Mark)}
    (h : reader.run input = passing comments (reader.run rest)) :
    (reader >>= next).run input = passing comments ((reader >>= next).run rest) := by
  rw [run_bind, run_bind, h]
  cases hfirst : reader.run rest with
  | error error => rfl
  | ok first =>
    simp only [passing]
    cases (next first.value).run first.rest with
    | error error => rfl
    | ok second => simp only [List.append_assoc]

theorem run_current_bind (next : Option UInt8 → Reader α) (input : Bytes) :
    (current >>= next).run input = (next input.head?).run input := by
  have h : current.run input = .ok ⟨input.head?, [], input⟩ := rfl
  rw [run_bind_of_ok h, passing_nil]

theorem run_mark_bind (next : Mark → Reader α) (input : Bytes) :
    (mark >>= next).run input = (next input.length).run input := by
  have h : mark.run input = .ok ⟨input.length, [], input⟩ := rfl
  rw [run_bind_of_ok h, passing_nil]

theorem convert_run [Runtime] {digits : Bytes} (h : Runtime.converts digits.length)
    (input : Bytes) : (convert digits).run input = .ok ⟨digits.decimal, [], input⟩ :=
  plain_run_ok (if_pos h)

theorem convert_run_refused [Runtime] {digits : Bytes} (h : ¬Runtime.converts digits.length)
    (input : Bytes) :
    (convert digits).run input = .error (.refusal digits.length input.length) := by
  simp only [run, convert, plain, if_neg h, Attempt.outcome]

theorem byte_run_cons (expected : UInt8) (rest : Bytes) :
    (byte expected).run (expected :: rest) = .ok ⟨true, [], rest⟩ :=
  plain_run_ok (if_pos rfl)

theorem byte_run_of_ne {expected : UInt8} {input : Bytes}
    (h : input.head? ≠ some expected) :
    (byte expected).run input = .ok ⟨false, [], input⟩ := by
  cases input with
  | nil => rfl
  | cons b rest =>
    have hb : b ≠ expected := by simpa using h
    exact plain_run_ok (if_neg hb)

theorem run_byte_bind_cons (expected : UInt8) (yes no : Reader α) (rest : Bytes) :
    (byte expected >>= fun found => if found then yes else no).run (expected :: rest) =
      yes.run rest := by
  rw [run_bind_of_ok (byte_run_cons expected rest), passing_nil, if_pos rfl]

theorem run_byte_bind_of_ne {expected : UInt8} {input : Bytes} (yes no : Reader α)
    (h : input.head? ≠ some expected) :
    (byte expected >>= fun found => if found then yes else no).run input = no.run input := by
  rw [run_bind_of_ok (byte_run_of_ne h), passing_nil, if_neg (by simp)]

theorem one_run_cons {member : UInt8 → Bool} {b : UInt8} {rest : Bytes} (h : member b) :
    (one member).run (b :: rest) = .ok ⟨some b, [], rest⟩ :=
  plain_run_ok (if_pos h)

theorem member_of_one {member : UInt8 → Bool} {input rest : Bytes} {b : UInt8}
    {comments : List (Comment Mark)}
    (h : (one member).run input = .ok ⟨some b, comments, rest⟩) : member b := by
  have hresult := congrArg Attempt.result (attempt_of_run_ok h)
  cases input with
  | nil => cases hresult
  | cons c rest =>
    simp only [one, plain] at hresult
    split at hresult <;> cases hresult
    assumption

theorem one_run_none {member : UInt8 → Bool} {input : Bytes}
    (h : ∀ b, input.head? = some b → ¬member b) :
    (one member).run input = .ok ⟨none, [], input⟩ := by
  cases input with
  | nil => rfl
  | cons b rest =>
    have hb : ¬member b := h b rfl
    exact plain_run_ok (if_neg hb)

theorem takeWhile_run {member : UInt8 → Bool} {run rest : Bytes}
    (hrun : ∀ b ∈ run, member b) (hrest : ∀ b, rest.head? = some b → ¬member b) :
    (takeWhile member).run (run ++ rest) = .ok ⟨run, [], rest⟩ := by
  have hstop : rest.takeWhile member = [] ∧ rest.dropWhile member = rest := by
    cases rest with
    | nil => exact ⟨rfl, rfl⟩
    | cons b more =>
      have hb : ¬member b := hrest b rfl
      exact ⟨List.takeWhile_cons_of_neg hb, List.dropWhile_cons_of_neg hb⟩
  apply plain_run_ok
  rw [List.takeWhile_append_of_pos hrun, List.dropWhile_append_of_pos hrun, hstop.1, hstop.2,
    List.append_nil]

theorem symbol_run_none {spellings : List Bytes} {input : Bytes}
    (h : ∀ spelling ∈ spellings, ¬spelling <+: input) :
    (symbol spellings).run input = .ok ⟨none, [], input⟩ := by
  have hnone : spellings.find? (fun spelling => spelling.isPrefixOf input) = none := by
    rw [List.find?_eq_none]
    intro spelling hmem hprefix
    exact h spelling hmem (List.isPrefixOf_iff_prefix.1 hprefix)
  apply plain_run_ok
  simp only [hnone]

theorem symbol_run_some {spellings : List Bytes} {spelling rest : Bytes}
    (h : spellings.find? (fun s => s.isPrefixOf (spelling ++ rest)) = some spelling) :
    (symbol spellings).run (spelling ++ rest) = .ok ⟨some spelling, [], rest⟩ := by
  apply plain_run_ok
  simp only [h, List.drop_left]

theorem orUndo_run_some {reader : Reader (Option α)} {input rest : Bytes} {value : α}
    {comments : List (Comment Mark)}
    (h : reader.run input = .ok ⟨some value, comments, rest⟩) :
    reader.orUndo.run input = .ok ⟨some value, comments, rest⟩ := by
  simp only [run, orUndo, attempt_of_run_ok h, Attempt.outcome]

theorem orUndo_run_none {reader : Reader (Option α)} {input rest : Bytes}
    {comments : List (Comment Mark)}
    (h : reader.run input = .ok ⟨none, comments, rest⟩) :
    reader.orUndo.run input = .ok ⟨none, [], input⟩ := by
  simp only [run, orUndo, attempt_of_run_ok h, Attempt.outcome]

theorem orUndo_run_error {reader : Reader (Option α)} {input : Bytes}
    {error : Fault Mark} (h : reader.run input = .error error) :
    reader.orUndo.run input = .error error := by
  obtain ⟨comments, hattempt⟩ := attempt_of_run_error h
  simp only [run, orUndo, hattempt, Attempt.outcome]

theorem check_run_ok {reader : Reader α} {input : Bytes} {outcome : Outcome α}
    (h : reader.run input = .ok outcome) : reader.check.run input = .ok ⟨(), [], input⟩ := by
  simp only [run, check, attempt_of_run_ok h, Attempt.outcome]

theorem check_run_error {reader : Reader α} {input : Bytes} {error : Fault Mark}
    (h : reader.run input = .error error) : reader.check.run input = .error error := by
  obtain ⟨comments, hattempt⟩ := attempt_of_run_error h
  simp only [run, check, hattempt, Attempt.outcome]

theorem firstOf_run_some {reader : Reader (Option α)} {more : List (Reader (Option α))}
    {input rest : Bytes} {value : α} {comments : List (Comment Mark)}
    (h : reader.run input = .ok ⟨some value, comments, rest⟩) :
    (firstOf (reader :: more)).run input = .ok ⟨some value, comments, rest⟩ := by
  rw [firstOf, run_bind_of_ok h, run_pure, passing_ok, List.append_nil]

theorem firstOf_run_none {reader : Reader (Option α)} {more : List (Reader (Option α))}
    {input : Bytes} (h : reader.run input = .ok ⟨none, [], input⟩) :
    (firstOf (reader :: more)).run input = (firstOf more).run input := by
  rw [firstOf, run_bind_of_ok h, passing_nil]

theorem definitionSeparator_run_true {input : Bytes} (h : startsWithSeparator input) :
    definitionSeparator.run input = .ok ⟨true, [], input.tail⟩ :=
  plain_run_ok (if_pos h)

theorem definitionSeparator_run_false {input : Bytes} (h : ¬startsWithSeparator input) :
    definitionSeparator.run input = .ok ⟨false, [], input⟩ :=
  plain_run_ok (if_neg h)

end Ebnf.Reader
