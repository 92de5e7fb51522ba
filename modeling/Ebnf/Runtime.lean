import Ebnf.Bytes

/-!
# The runtime

A count is a run of decimal digits of any length.  Its conversion to a number is
left to the runtime, and a runtime may refuse a run that is too long for it, however
small the number.  Which runs those are is no property of the notation, so it is a
parameter of everything that reads counts.
-/

namespace Ebnf

/-- What a parse relies on. -/
class Runtime where
  /-- The greatest number of digits that are converted, `none` when any number is. -/
  digitLimit : Option Nat

namespace Runtime

/-- Numbers of arbitrary precision without any bound. -/
abbrev unlimited : Runtime := ⟨none⟩

/-- The bound that interpreters set unless they are told otherwise. -/
abbrev usual : Runtime := ⟨some 4300⟩

/-- Whether a run of so many digits is converted.  Leading zeros count as well. -/
def converts [Runtime] (digits : Nat) : Bool :=
  Runtime.digitLimit.all (digits ≤ ·)

theorem converts_zero [Runtime] : Runtime.converts 0 := by
  unfold converts
  cases Runtime.digitLimit <;> simp

end Runtime

end Ebnf
