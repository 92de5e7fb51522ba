import Ebnf.Reader.Progress

/-!
# Levels of nesting

Two readers of the inside of brackets that agree on inputs shorter than `n` make
productions that agree on inputs shorter than `n + 1`, since a bracket is consumed
before its inside is read.  So levels beyond the number of bytes make no
difference, and `definitions` is the fixed point that the notation asks for.
-/

namespace Ebnf.Reader

open Scanning

/-- Two readers do the same on inputs shorter than `bound`. -/
def AgreeBelow (bound : Nat) (reader other : Reader α) : Prop :=
  ∀ input : Bytes, input.length < bound → reader.attempt input = other.attempt input

namespace AgreeBelow

theorem refl (bound : Nat) (reader : Reader α) : AgreeBelow bound reader reader :=
  fun _ _ => rfl

theorem bind {bound : Nat} {reader other : Reader α} {next next' : α → Reader β}
    (h : AgreeBelow bound reader other) (hforward : reader.Forward)
    (hnext : ∀ value, AgreeBelow bound (next value) (next' value)) :
    AgreeBelow bound (reader >>= next) (other >>= next') := by
  intro input hinput
  simp only [attempt_bind, ← h input hinput]
  rcases hattempt : reader.attempt input with ⟨comments, error | ⟨value, rest⟩⟩
  · rfl
  · have hle := hforward.length_le (run_of_attempt_ok hattempt)
    simp only [hnext value rest (Nat.lt_of_le_of_lt hle hinput)]

theorem bind_refl {bound : Nat} {reader : Reader α} {next next' : α → Reader β}
    (hforward : reader.Forward)
    (hnext : ∀ value, AgreeBelow bound (next value) (next' value)) :
    AgreeBelow bound (reader >>= next) (reader >>= next') :=
  (refl bound reader).bind hforward hnext

/-- What is behind a reader that has found something sees fewer bytes. -/
theorem bind_found {bound : Nat} {reader : Reader (Option α)} {next next' : Option α → Reader β}
    (hconsumes : reader.Consumes Option.isSome) (hnone : next none = next' none)
    (hsome : ∀ value, AgreeBelow bound (next (some value)) (next' (some value))) :
    AgreeBelow (bound + 1) (reader >>= next) (reader >>= next') := by
  intro input hinput
  simp only [attempt_bind]
  rcases hattempt : reader.attempt input with ⟨comments, error | ⟨_ | value, rest⟩⟩
  · rfl
  · simp only [hnone]
  · have hshort := hconsumes.shorter (run_of_attempt_ok hattempt) rfl
    simp only at hshort
    simp only [hsome value rest (by omega)]

theorem ite {bound : Nat} {condition : Prop} [Decidable condition]
    {yes yes' no no' : Reader α} (hyes : AgreeBelow bound yes yes')
    (hno : AgreeBelow bound no no') :
    AgreeBelow bound (if condition then yes else no) (if condition then yes' else no') := by
  split
  · exact hyes
  · exact hno

theorem separatedUpTo {bound : Nat} {item other : Reader (Option α)}
    {separator : Reader Bool} (h : AgreeBelow bound item other)
    (hitem : item.Forward) (hseparator : separator.Forward) (rounds : Nat) :
    AgreeBelow bound (Scanning.separatedUpTo item separator rounds)
      (Scanning.separatedUpTo other separator rounds) := by
  induction rounds with
  | zero => exact refl bound _
  | succ rounds ih =>
    refine h.bind hitem fun first => bind_refl hseparator fun more => ?_
    refine ite ?_ (refl bound _)
    exact ih.bind (hitem.separatedUpTo hseparator rounds) fun _ => refl bound _

theorem separated {bound : Nat} {item other : Reader (Option α)}
    {separator : Reader Bool} (h : AgreeBelow bound item other)
    (hitem : item.Forward) (hseparator : separator.Forward) :
    AgreeBelow bound (Scanning.separated item separator)
      (Scanning.separated other separator) :=
  fun input hinput => h.separatedUpTo hitem hseparator (input.length + 1) input hinput

end AgreeBelow

theorem openers_nonempty (bracket : Bracket) : [] ∉ bracket.openers := by
  cases bracket <;> decide

variable [Runtime]

section Agreement

variable {inside other : Reader (List (Definition Extent))} {bound : Nat}

theorem agreeBelow_bracketedWith (h : AgreeBelow bound inside other)
    (bracket : Bracket) :
    AgreeBelow (bound + 1) (bracketedWith inside bracket) (bracketedWith other bracket) := by
  refine AgreeBelow.bind_refl Forward.mark fun start =>
    AgreeBelow.bind_found (Consumes.symbol (openers_nonempty bracket)) rfl fun opener => ?_
  intro input hinput
  simp only [attempt_bind, h input hinput]

theorem agreeBelow_primaryWith (h : AgreeBelow bound inside other)
    (hinside : inside.Forward) :
    AgreeBelow (bound + 1) (primaryWith inside) (primaryWith other) := by
  refine (agreeBelow_bracketedWith h .optional).bind
    (forward_bracketedWith hinside _) fun optional => ?_
  cases optional with
  | some p => exact AgreeBelow.refl _ _
  | none =>
    refine (agreeBelow_bracketedWith h .repeated).bind
      (forward_bracketedWith hinside _) fun repeated => ?_
    cases repeated with
    | some p => exact AgreeBelow.refl _ _
    | none =>
      refine (agreeBelow_bracketedWith h .grouped).bind
        (forward_bracketedWith hinside _) fun grouped => ?_
      cases grouped with
      | some p => exact AgreeBelow.refl _ _
      | none => exact AgreeBelow.refl _ _

theorem agreeBelow_factorWith (h : AgreeBelow bound inside other)
    (hinside : inside.Forward) :
    AgreeBelow (bound + 1) (factorWith inside) (factorWith other) := by
  have hprimary := agreeBelow_primaryWith h hinside
  have hforward := forward_primaryWith hinside
  refine AgreeBelow.bind_refl Forward.mark fun start =>
    AgreeBelow.bind_refl (Forward.takeWhile _) fun digits => ?_
  refine AgreeBelow.ite (hprimary.bind hforward fun _ => AgreeBelow.refl _ _) ?_
  refine AgreeBelow.bind_refl (Forward.convert _) fun count => ?_
  refine AgreeBelow.bind_refl forward_trivia fun _ =>
    AgreeBelow.bind_refl (Forward.byte _) fun _ => ?_
  refine AgreeBelow.ite ?_ (AgreeBelow.refl _ _)
  exact AgreeBelow.bind_refl Forward.mark fun _ =>
    AgreeBelow.bind_refl forward_trivia fun _ =>
      hprimary.bind hforward fun _ => AgreeBelow.refl _ _

theorem agreeBelow_termWith (h : AgreeBelow bound inside other)
    (hinside : inside.Forward) :
    AgreeBelow (bound + 1) (termWith inside) (termWith other) := by
  have hfactor := agreeBelow_factorWith h hinside
  have hforward := forward_factorWith hinside
  refine AgreeBelow.bind_refl Forward.mark fun start =>
    hfactor.bind hforward fun base => ?_
  cases base with
  | none => exact AgreeBelow.refl _ _
  | some base =>
    refine AgreeBelow.bind_refl forward_trivia fun _ =>
      AgreeBelow.bind_refl (Forward.byte _) fun _ => ?_
    refine AgreeBelow.ite ?_ (AgreeBelow.refl _ _)
    exact AgreeBelow.bind_refl Forward.mark fun _ =>
      AgreeBelow.bind_refl forward_trivia fun _ =>
        hfactor.bind hforward fun _ => AgreeBelow.refl _ _

theorem agreeBelow_definitionWith (h : AgreeBelow bound inside other)
    (hinside : inside.Forward) :
    AgreeBelow (bound + 1) (definitionWith inside) (definitionWith other) := by
  have hforward := forward_termWith hinside
  have hitem := hforward.bind fun t : Option (Term Extent) =>
    forward_trivia.bind fun _ => Forward.pure t
  have hseparator := forward_separator (Forward.byte Byte.comma)
  refine AgreeBelow.bind (AgreeBelow.separated ?_ hitem hseparator)
    (hitem.separated hseparator) fun _ => AgreeBelow.refl _ _
  exact (agreeBelow_termWith h hinside).bind hforward fun _ => AgreeBelow.refl _ _

theorem agreeBelow_definitionsWith (h : AgreeBelow bound inside other)
    (hinside : inside.Forward) :
    AgreeBelow (bound + 1) (definitionsWith inside) (definitionsWith other) := by
  have hforward := forward_definitionWith hinside
  have hitem := hforward.bind fun d : Option (Definition Extent) =>
    forward_trivia.bind fun _ => Forward.pure d
  refine AgreeBelow.bind_refl forward_trivia fun _ =>
    AgreeBelow.separated ?_ hitem (forward_separator forward_definitionSeparator)
  exact (agreeBelow_definitionWith h hinside).bind hforward fun _ => AgreeBelow.refl _ _

end Agreement

/-- As many levels as there are bytes are enough. -/
theorem agreeBelow_definitionsUpTo (levels more : Nat) :
    AgreeBelow levels (definitionsUpTo levels) (definitionsUpTo (levels + more)) := by
  induction levels with
  | zero =>
    intro input hinput
    omega
  | succ levels ih =>
    rw [show levels + 1 + more = levels + more + 1 by omega]
    exact agreeBelow_definitionsWith ih (forward_definitionsUpTo levels)

theorem agreeBelow_definitions (levels : Nat) :
    AgreeBelow levels (definitionsUpTo levels) definitions := by
  intro input hinput
  have h := agreeBelow_definitionsUpTo (input.length + 1) (levels - (input.length + 1))
    input (Nat.lt_succ_self _)
  rw [show input.length + 1 + (levels - (input.length + 1)) = levels by omega] at h
  exact h.symm

/-- Inside brackets, definitions are read as outside. -/
theorem definitions_eq : definitions = definitionsWith definitions := by
  ext1 input
  change (definitionsWith (definitionsUpTo input.length)).attempt input = _
  exact agreeBelow_definitionsWith (agreeBelow_definitions input.length)
    (forward_definitionsUpTo input.length) input (Nat.lt_succ_self _)

end Ebnf.Reader
