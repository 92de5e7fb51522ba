import Ebnf.Proofs.Reading.Run
import Ebnf.Proofs.Spelling.Extend

/-!
# Reading with more bytes behind the input

No reader looks further than two bytes beyond the place at which it ends.  So when it
ends, with a value or with an error, where at least two bytes are left, then more bytes
behind the input make no difference: the run is the same, only that all places have more
bytes behind them.  Of a run that ends nearer to the end nothing is said but that it ends
inside of its input.

A reader that has been given places goes on from others when there are more bytes, and
so the statement is about two readers.  The rules below take both apart in step, from
left to right.
-/

namespace Ebnf

open Byte Scanning

def Fault.shift (count : Nat) (fault : Fault Mark) : Fault Mark :=
  fault.map (· + count)

namespace Reader

/-- The place at which a run ends. -/
def left : Except (Fault Mark) (Outcome α) → Mark
  | .error error => error.stop
  | .ok outcome => outcome.rest.length

/-- The result of the same run with more bytes behind it. -/
def extended (more : Bytes) (carry : α → α) :
    Except (Fault Mark) (Outcome α) → Except (Fault Mark) (Outcome α)
  | .error error => .error (error.shift more.length)
  | .ok outcome => .ok ⟨carry outcome.value,
      outcome.comments.map (Comment.shift more.length), outcome.rest ++ more⟩

/-- More bytes behind the input are not looked at, unless the run ends with fewer than
two bytes left. -/
structure Steady (more : Bytes) (carry : α → α) (reader reader' : Reader α)
    (input : Bytes) : Prop where
  inside : left (reader.run input) ≤ input.length
  same : 2 ≤ left (reader.run input) →
    reader'.run (input ++ more) = extended more carry (reader.run input)

theorem left_passing (comments : List (Comment Mark))
    (result : Except (Fault Mark) (Outcome α)) :
    left (passing comments result) = left result := by
  cases result <;> rfl

theorem extended_passing (more : Bytes) (carry : α → α) (comments : List (Comment Mark))
    (result : Except (Fault Mark) (Outcome α)) :
    extended more carry (passing comments result) =
      passing (comments.map (Comment.shift more.length)) (extended more carry result) := by
  cases result with
  | error error => rfl
  | ok outcome => simp only [passing, extended, List.map_append]

theorem head?_append_of_two_le {input : Bytes} (h : 2 ≤ input.length) (more : Bytes) :
    (input ++ more).head? = input.head? := by
  cases input with
  | nil => simp at h
  | cons b rest => rfl

namespace Steady

variable {more : Bytes} {carry : α → α} {input : Bytes}

theorem of_ok {reader reader' : Reader α} (h : Steady more carry reader reader' input)
    {rest : Bytes} {value : α} {comments : List (Comment Mark)}
    (hrun : reader.run input = .ok ⟨value, comments, rest⟩) :
    rest.length ≤ input.length ∧ (2 ≤ rest.length → reader'.run (input ++ more) =
      .ok ⟨carry value, comments.map (Comment.shift more.length), rest ++ more⟩) := by
  have hinside := h.inside
  have hsame := h.same
  rw [hrun] at hinside hsame
  exact ⟨hinside, hsame⟩

/-- A run that goes on as another one does. -/
theorem of_step {reader reader' next next' : Reader α} {rest : Bytes}
    (h : Steady more carry next next' rest) (hle : rest.length ≤ input.length)
    (hstep : reader.run input = next.run rest)
    (hstep' : 2 ≤ rest.length → reader'.run (input ++ more) = next'.run (rest ++ more)) :
    Steady more carry reader reader' input where
  inside := by
    rw [hstep]
    exact Nat.le_trans h.inside hle
  same := by
    rw [hstep]
    intro htwo
    rw [hstep' (Nat.le_trans htwo h.inside)]
    exact h.same htwo

/-- A run that fails as another one does. -/
theorem of_error {reader reader' : Reader α} {whole whole' : Reader β} {carry' : β → β}
    {error : Fault Mark} (h : Steady more carry reader reader' input)
    (hrun : reader.run input = .error error)
    (hwhole : ∀ input error, reader.run input = .error error → whole.run input = .error error)
    (hwhole' : ∀ input error, reader'.run input = .error error →
      whole'.run input = .error error) :
    Steady more carry' whole whole' input := by
  have hinside := h.inside
  have hsame := h.same
  rw [hrun] at hinside hsame
  constructor
  · rwa [hwhole input error hrun]
  · rw [hwhole input error hrun]
    intro htwo
    exact hwhole' (input ++ more) _ (hsame htwo)

/-- A run that ends where it began. -/
theorem of_still {reader reader' : Reader α} {value : α}
    (h : reader.run input = .ok ⟨value, [], input⟩)
    (h' : 2 ≤ input.length → reader'.run (input ++ more) = .ok ⟨carry value, [], input ++ more⟩) :
    Steady more carry reader reader' input where
  inside := by
    rw [h]
    exact Nat.le_refl _
  same := by
    rw [h]
    exact h'

theorem pure {value value' : α} (h : carry value = value') :
    Steady more carry (Pure.pure value) (Pure.pure value') input where
  inside := Nat.le_refl _
  same _ := by
    subst h
    rfl

theorem bind {reader reader' : Reader α} {next next' : α → Reader β} {carry' : β → β}
    (h : Steady more carry reader reader' input)
    (hnext : ∀ value comments rest, reader.run input = .ok ⟨value, comments, rest⟩ →
      rest.length ≤ input.length →
        Steady more carry' (next value) (next' (carry value)) rest) :
    Steady more carry' (reader >>= next) (reader' >>= next') input := by
  cases hfirst : reader.run input with
  | error error =>
    apply h.of_error hfirst
    · intro input error herror
      rw [run_bind, herror]
    · intro input error herror
      rw [run_bind, herror]
  | ok first =>
    rcases first with ⟨value, comments, rest⟩
    obtain ⟨hinside, hsame⟩ := h.of_ok hfirst
    have hsecond := hnext value comments rest hfirst hinside
    constructor
    · rw [run_bind_of_ok hfirst, left_passing]
      exact Nat.le_trans hsecond.inside hinside
    · rw [run_bind_of_ok hfirst, left_passing]
      intro htwo
      rw [run_bind_of_ok (hsame (Nat.le_trans htwo hsecond.inside)), hsecond.same htwo,
        extended_passing]

theorem bind_pure {reader reader' : Reader α} {f f' : α → β} {carry' : β → β}
    (h : Steady more carry reader reader' input)
    (hf : ∀ value, carry' (f value) = f' (carry value)) :
    Steady more carry' (reader >>= fun value => Pure.pure (f value))
      (reader' >>= fun value => Pure.pure (f' value)) input :=
  h.bind fun value _ _ _ _ => pure (hf value)

/-- A reader of an optional value, by what it answers. -/
theorem bind_option {reader reader' : Reader (Option α)} {next next' : Option α → Reader β}
    {carry' : β → β} (h : Steady more (Option.map carry) reader reader' input)
    (hnone : ∀ comments rest, reader.run input = .ok ⟨none, comments, rest⟩ →
      rest.length ≤ input.length → Steady more carry' (next none) (next' none) rest)
    (hsome : ∀ value comments rest, reader.run input = .ok ⟨some value, comments, rest⟩ →
      rest.length ≤ input.length →
        Steady more carry' (next (some value)) (next' (some (carry value))) rest) :
    Steady more carry' (reader >>= next) (reader' >>= next') input := by
  apply h.bind
  intro value comments rest hrun hle
  cases value with
  | none => exact hnone comments rest hrun hle
  | some value => exact hsome value comments rest hrun hle

theorem bind_mark {next next' : Mark → Reader α}
    (h : Steady more carry (next input.length) (next' (input.length + more.length)) input) :
    Steady more carry (Reader.mark >>= next) (Reader.mark >>= next') input := by
  apply h.of_step (Nat.le_refl _) (run_mark_bind next input)
  intro _
  rw [run_mark_bind, List.length_append]

/-- What is done with the next byte must not depend on one that comes too late. -/
theorem bind_current {next next' : Option UInt8 → Reader α}
    (h : Steady more carry (next input.head?) (next' input.head?) input) :
    Steady more carry (Reader.current >>= next) (Reader.current >>= next') input := by
  apply h.of_step (Nat.le_refl _) (run_current_bind next input)
  intro htwo
  rw [run_current_bind, head?_append_of_two_le htwo]

theorem fail (cause : Cause) (start : Mark) :
    Steady more carry (Reader.fail cause start) (Reader.fail cause (start + more.length))
      input where
  inside := Nat.le_refl _
  same _ := by
    change Except.error (Fault.syntaxError
      ⟨cause, start + more.length, (input ++ more).length⟩) = _
    rw [List.length_append]
    rfl

theorem convert [Runtime] (digits : Bytes) :
    Steady more id (Reader.convert digits) (Reader.convert digits) input := by
  by_cases hconverts : Runtime.converts digits.length
  · exact of_still (convert_run hconverts input) fun _ => convert_run hconverts (input ++ more)
  · constructor
    · rw [convert_run_refused hconverts]
      exact Nat.le_refl _
    · rw [convert_run_refused hconverts, convert_run_refused hconverts, List.length_append]
      exact fun _ => rfl

theorem ite {condition : Prop} [Decidable condition] {yes yes' no no' : Reader α}
    (hyes : condition → Steady more carry yes yes' input)
    (hno : ¬condition → Steady more carry no no' input) :
    Steady more carry (if condition then yes else no) (if condition then yes' else no')
      input := by
  split
  next h => exact hyes h
  next h => exact hno h

/-! ### Elementary readers -/

/-- Short enough bytes are seen or not, whatever comes behind. -/
theorem prefix_append_iff (bytes : Bytes) {input : Bytes} (h : bytes.length ≤ input.length)
    (more : Bytes) : bytes <+: input ++ more ↔ bytes <+: input := by
  constructor
  · intro hprefix
    exact List.prefix_of_prefix_length_le hprefix (List.prefix_append input more) h
  · intro hprefix
    exact hprefix.trans (List.prefix_append input more)

theorem bind_byte {expected : UInt8} {yes yes' no no' : Reader α}
    (hyes : ∀ rest, input = expected :: rest → Steady more carry yes yes' rest)
    (hno : input.head? ≠ some expected → Steady more carry no no' input) :
    Steady more carry (Reader.byte expected >>= fun found => if found then yes else no)
      (Reader.byte expected >>= fun found => if found then yes' else no') input := by
  by_cases hhead : input.head? = some expected
  · obtain ⟨rest, rfl⟩ := List.head?_eq_some_iff.1 hhead
    exact (hyes rest rfl).of_step (Nat.le_succ _) (run_byte_bind_cons expected yes no rest)
      fun _ => run_byte_bind_cons expected yes' no' (rest ++ more)
  · apply (hno hhead).of_step (Nat.le_refl _) (run_byte_bind_of_ne yes no hhead)
    intro htwo
    apply run_byte_bind_of_ne yes' no'
    rwa [head?_append_of_two_le htwo]

theorem bind_one {member : UInt8 → Bool} {next next' : Option UInt8 → Reader α}
    (hyes : ∀ b rest, input = b :: rest → member b →
      Steady more carry (next (some b)) (next' (some b)) rest)
    (hno : Steady more carry (next none) (next' none) input) :
    Steady more carry (Reader.one member >>= next) (Reader.one member >>= next') input := by
  by_cases hmember : ∃ b, input.head? = some b ∧ member b
  · obtain ⟨b, hhead, hb⟩ := hmember
    obtain ⟨rest, rfl⟩ := List.head?_eq_some_iff.1 hhead
    apply (hyes b rest rfl hb).of_step (Nat.le_succ _)
    · rw [run_bind_of_ok (one_run_cons hb), passing_nil]
    · intro _
      rw [List.cons_append, run_bind_of_ok (one_run_cons hb), passing_nil]
  · have hnone : ∀ b, input.head? = some b → ¬member b :=
      fun b hb hmem => hmember ⟨b, hb, hmem⟩
    apply hno.of_step (Nat.le_refl _)
    · rw [run_bind_of_ok (one_run_none hnone), passing_nil]
    · intro htwo
      rw [← head?_append_of_two_le htwo more] at hnone
      rw [run_bind_of_ok (one_run_none hnone), passing_nil]

theorem bind_takeWhile {member : UInt8 → Bool} {next next' : Bytes → Reader α}
    (h : ∀ run rest, input = run ++ rest → Steady more carry (next run) (next' run) rest) :
    Steady more carry (Reader.takeWhile member >>= next) (Reader.takeWhile member >>= next')
      input := by
  have hsplit : input = input.takeWhile member ++ input.dropWhile member :=
    List.takeWhile_append_dropWhile.symm
  apply (h _ _ hsplit).of_step (List.dropWhile_suffix _).length_le
  · have hrun : (Reader.takeWhile member).run input =
        .ok ⟨input.takeWhile member, [], input.dropWhile member⟩ := rfl
    rw [run_bind_of_ok hrun, passing_nil]
  · intro htwo
    -- The run stops at a byte of the input, and so it does not go on into the others.
    have hstop : ∀ b, (input.dropWhile member ++ more).head? = some b → ¬member b := by
      rw [head?_append_of_two_le htwo]
      intro b hb
      have hnot := List.head?_dropWhile_not member input
      rw [hb] at hnot
      simpa using hnot
    have hmember : ∀ b ∈ input.takeWhile member, member b :=
      fun b hb => List.mem_takeWhile_imp hb
    have hrun := takeWhile_run hmember hstop
    rw [← List.append_assoc, ← hsplit] at hrun
    rw [run_bind_of_ok hrun, passing_nil]

theorem find?_isPrefixOf_append {spellings : List Bytes} (hshort : ∀ s ∈ spellings, s.length ≤ 2)
    (h : 2 ≤ input.length) (more : Bytes) :
    (spellings.find? fun s => s.isPrefixOf (input ++ more)) =
      spellings.find? fun s => s.isPrefixOf input := by
  induction spellings with
  | nil => rfl
  | cons s spellings ih =>
    rw [List.forall_mem_cons] at hshort
    have hsame : s.isPrefixOf (input ++ more) = s.isPrefixOf input := by
      rw [Bool.eq_iff_iff, List.isPrefixOf_iff_prefix, List.isPrefixOf_iff_prefix]
      exact prefix_append_iff s (Nat.le_trans hshort.1 h) more
    rw [List.find?_cons, List.find?_cons, hsame, ih hshort.2]

theorem bind_symbol {spellings : List Bytes} (hshort : ∀ s ∈ spellings, s.length ≤ 2)
    {next next' : Option Bytes → Reader α}
    (hyes : ∀ spelling rest, spelling ∈ spellings → input = spelling ++ rest →
      Steady more carry (next (some spelling)) (next' (some spelling)) rest)
    (hno : Steady more carry (next none) (next' none) input) :
    Steady more carry (Reader.symbol spellings >>= next) (Reader.symbol spellings >>= next')
      input := by
  cases hfind : spellings.find? fun s => s.isPrefixOf input with
  | none =>
    have hrun : (Reader.symbol spellings).run input = .ok ⟨none, [], input⟩ := by
      apply plain_run_ok
      simp only [hfind]
    apply hno.of_step (Nat.le_refl _)
    · rw [run_bind_of_ok hrun, passing_nil]
    · intro htwo
      have hrun' : (Reader.symbol spellings).run (input ++ more) =
          .ok ⟨none, [], input ++ more⟩ := by
        apply plain_run_ok
        simp only [find?_isPrefixOf_append hshort htwo, hfind]
      rw [run_bind_of_ok hrun', passing_nil]
  | some spelling =>
    have hmem := List.mem_of_find?_eq_some hfind
    have hhere : spelling.isPrefixOf input := by
      simpa using List.find?_some hfind
    obtain ⟨rest, rfl⟩ := List.isPrefixOf_iff_prefix.1 hhere
    apply (hyes spelling rest hmem rfl).of_step (List.suffix_append spelling rest).length_le
    · rw [run_bind_of_ok (symbol_run_some hfind), passing_nil]
    · intro htwo
      have htwo := Nat.le_trans htwo (List.suffix_append spelling rest).length_le
      have hfind' := find?_isPrefixOf_append hshort htwo more
      rw [hfind, List.append_assoc] at hfind'
      rw [List.append_assoc, run_bind_of_ok (symbol_run_some hfind'), passing_nil]

/-! ### Going back -/

/-- A reader that goes back has passed over bytes that its answer does not account for;
that there is nothing is therefore to be shown again with the bytes behind. -/
theorem orUndo {reader reader' : Reader (Option α)}
    (h : Steady more (Option.map carry) reader reader' input)
    (hnone : ∀ comments rest, reader.run input = .ok ⟨none, comments, rest⟩ →
      2 ≤ input.length → reader'.orUndo.run (input ++ more) = .ok ⟨none, [], input ++ more⟩) :
    Steady more (Option.map carry) reader.orUndo reader'.orUndo input := by
  cases hrun : reader.run input with
  | error error =>
    exact h.of_error hrun (fun _ _ => orUndo_run_error) (fun _ _ => orUndo_run_error)
  | ok outcome =>
    rcases outcome with ⟨value, comments, rest⟩
    cases value with
    | none => exact of_still (orUndo_run_none hrun) (hnone comments rest hrun)
    | some value =>
      have hundo := orUndo_run_some hrun
      obtain ⟨hinside, hsame⟩ := h.of_ok hrun
      constructor
      · rwa [hundo]
      · rw [hundo]
        intro htwo
        exact orUndo_run_some (hsame htwo)

/-- The same of a reader that is run for its errors alone. -/
theorem check {reader reader' : Reader α} (h : Steady more carry reader reader' input)
    (hok : ∀ outcome, reader.run input = .ok outcome → 2 ≤ input.length →
      ∃ outcome', reader'.run (input ++ more) = .ok outcome') :
    Steady more id reader.check reader'.check input := by
  cases hrun : reader.run input with
  | error error =>
    exact h.of_error hrun (fun _ _ => check_run_error) (fun _ _ => check_run_error)
  | ok outcome =>
    apply of_still (check_run_ok hrun)
    intro htwo
    obtain ⟨outcome', hrun'⟩ := hok outcome hrun htwo
    exact check_run_ok hrun'

/-! ### Choices and loops -/

theorem firstOf_nil : Steady more (Option.map carry) (Scanning.firstOf []) (Scanning.firstOf [])
    input :=
  pure rfl

theorem firstOf_cons {reader reader' : Reader (Option α)}
    {readers readers' : List (Reader (Option α))}
    (h : Steady more (Option.map carry) reader reader' input)
    (hmore : ∀ comments rest, reader.run input = .ok ⟨none, comments, rest⟩ →
      Steady more (Option.map carry) (Scanning.firstOf readers) (Scanning.firstOf readers') rest) :
    Steady more (Option.map carry) (Scanning.firstOf (reader :: readers))
      (Scanning.firstOf (reader' :: readers')) input := by
  apply h.bind_option
  · intro comments rest hrun _
    exact hmore comments rest hrun
  · intro value _ _ _ _
    exact pure rfl

theorem many {item : Reader (Option α)} (hconsumes : item.Consumes Option.isSome)
    (hitem : ∀ input, Steady more (Option.map carry) item item input) (input : Bytes) :
    Steady more (List.map carry) (Scanning.many item) (Scanning.many item) input := by
  induction hlength : input.length using Nat.strongRecOn generalizing input with
  | _ length ih =>
    rw [many_eq hconsumes]
    apply (hitem input).bind_option
    · intro _ _ _ _
      exact pure rfl
    · intro value comments rest hrun _
      have hshort := hconsumes.shorter hrun rfl
      exact (ih rest.length (hlength ▸ hshort) rest rfl).bind_pure fun _ => rfl

end Steady

end Reader

end Ebnf
