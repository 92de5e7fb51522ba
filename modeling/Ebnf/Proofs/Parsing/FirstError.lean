import Ebnf.Proofs.Parsing.Concatenation
import Ebnf.Proofs.Reading.Steady.Production

/-!
# The first error

Reading stops at the first defect, and what is written behind it is not looked at.  So an
error stays the same when a source goes on, unless it shows so near to the end of the
source that what follows might have mended it: at the end itself, as of a comment that is
not closed, or at the last byte, which may be the first half of a symbol.
-/

namespace Ebnf

open Reader

/-- An error that ends two bytes before the end of the source, or earlier, is the error of
every source that begins so: the cause and both positions are the same.  This holds of a
refused count as well. -/
theorem parse_append_of_error [Runtime] {options : Options} {p : Bytes}
    {fault : Fault Position} (h : parse options p = .error fault)
    (hstop : fault.stop.offset + 2 ≤ p.length) (s : Bytes) :
    parse options (p ++ s) = .error fault := by
  obtain ⟨found, hresult, rfl⟩ := parse_eq_fault h
  have htwo : 2 ≤ found.stop := by
    have hoffset : p.length - found.stop + 2 ≤ p.length := by
      rw [← offset_positionAt]
      rwa [Fault.stop_map] at hstop
    exact Nat.le_of_not_lt fun hlt => by omega
  have hsame := (document_append_of_error s hresult).2 htwo
  rw [parse_eq, hsame]
  apply congrArg Except.error
  cases found with
  | syntaxError error =>
    exact congrArg Fault.syntaxError <| congrArg₂ (SyntaxError.mk error.cause)
      (positionAt_shift options p s error.start) (positionAt_shift options p s error.stop)
  | refusal digits stop =>
    exact congrArg (Fault.refusal digits) (positionAt_shift options p s stop)

/-- A rule, then a terminal string where a name should be, and the beginning of a
comment. -/
def strayedSource : Bytes :=
  [0x61, 0x3D, 0x62, 0x3B, 0x0A, 0x27, 0x78, 0x3F, 0x27, 0x28, 0x2A]

def strayedError : SyntaxError Position :=
  ⟨.missingName, ⟨5, 1, 0⟩, ⟨5, 1, 0⟩⟩

attribute [local instance] Runtime.usual

/-- With the comment closed and a rule behind it the missing name is still the error. -/
theorem parse_strayedSource :
    parse {} strayedSource = .error strayedError ∧
    5 + 2 ≤ strayedSource.length ∧
    parse {} (strayedSource ++ [0x2A, 0x29, 0x3D, 0x63, 0x3B]) = .error strayedError := by
  have hparse : parse {} strayedSource = .error strayedError := by decide +kernel
  have hstop : 5 + 2 ≤ strayedSource.length := by decide
  exact ⟨hparse, hstop, parse_append_of_error hparse hstop _⟩

end Ebnf
