import Ebnf.Position
import Ebnf.Tree.Basic

/-!
# Syntax errors

Reading stops at the first defect.  What is wrong is a `Cause`, with the data
that its wording needs; an error adds where the construct at fault begins and
where reading had got to.  The places have a type of their own, because they are
found as counts of unread bytes and become positions afterwards.

Reading also stops where the runtime refuses to convert a count.  Nothing is wrong
with the document then, so a refusal is no syntax error and has no report.
-/

namespace Ebnf

inductive Cause where
  /-- A comment opened by `(*` that `)` follows at once. -/
  | emptyComment
  | unterminatedComment
  | unterminatedSpecial
  | emptyTerminal
  | unterminatedTerminal
  | invalidTerminalByte (byte : UInt8)
  | missingRepetitionSymbol (count : Nat)
  | unclosedBracket (bracket : Bracket) (opener : Bytes)
  | missingName
  | missingDefiningSymbol (name : Bytes)
  | missingTerminator (name : Bytes)
deriving DecidableEq, Repr

structure SyntaxError (μ : Type) where
  cause : Cause
  start : μ
  stop : μ
deriving DecidableEq, Repr

def SyntaxError.map (f : μ → ν) (error : SyntaxError μ) : SyntaxError ν :=
  ⟨error.cause, f error.start, f error.stop⟩

/-- What makes reading stop. -/
inductive Fault (μ : Type) where
  | syntaxError (error : SyntaxError μ)
  /-- The runtime does not convert a count of so many digits, the last of which is
  before `stop`. -/
  | refusal (digits : Nat) (stop : μ)
deriving DecidableEq, Repr

instance : Coe (SyntaxError μ) (Fault μ) := ⟨.syntaxError⟩

namespace Fault

/-- The place at which reading had got to. -/
def stop : Fault μ → μ
  | syntaxError error => error.stop
  | refusal _ stop => stop

/-- The place at which the construct at fault begins.  Of a refused count only the place
behind it is known. -/
def start : Fault μ → μ
  | syntaxError error => error.start
  | refusal _ stop => stop

def map (f : μ → ν) : Fault μ → Fault ν
  | syntaxError error => syntaxError (error.map f)
  | refusal digits stop => refusal digits (f stop)

/-- A syntax error of a kind. -/
def IsError (kind : SyntaxError μ → Prop) : Fault μ → Prop
  | syntaxError error => kind error
  | refusal .. => False

theorem IsError.mono {kind kind' : SyntaxError μ → Prop} {fault : Fault μ}
    (h : fault.IsError kind) (hkind : ∀ error, kind error → kind' error) :
    fault.IsError kind' := by
  cases fault with
  | syntaxError error => exact hkind error h
  | refusal => exact h

@[simp] theorem stop_syntaxError (error : SyntaxError μ) :
    (syntaxError error).stop = error.stop := rfl

@[simp] theorem map_syntaxError (f : μ → ν) (error : SyntaxError μ) :
    (syntaxError error).map f = syntaxError (error.map f) := rfl

@[simp] theorem stop_map (f : μ → ν) (fault : Fault μ) : (fault.map f).stop = f fault.stop := by
  cases fault <;> rfl

theorem map_map {ξ : Type} (f : μ → ν) (g : ν → ξ) (fault : Fault μ) :
    (fault.map f).map g = fault.map (g ∘ f) := by
  cases fault <;> rfl

end Fault

/-- Two lower-case hexadecimal digits. -/
def Byte.hex (b : UInt8) : String :=
  String.ofList [Nat.digitChar (b.toNat / 16), Nat.digitChar (b.toNat % 16)]

namespace Cause

def quoted (symbol : Bytes) : String :=
  "'" ++ symbol.ascii ++ "'"

def text : Cause → String
  | emptyComment => "Invalid sequence of characters: \"(*)\""
  | unterminatedComment => "Incomplete comment"
  | unterminatedSpecial => "Unterminated special sequence"
  | emptyTerminal => "Empty terminal string"
  | unterminatedTerminal => "Unterminated terminal string"
  | invalidTerminalByte byte =>
    "Invalid character 0x" ++ Byte.hex byte ++ " in terminal string"
  | missingRepetitionSymbol count =>
    "Expected '*' after repetition count " ++ toString count
  | unclosedBracket bracket opener =>
    "Unclosed " ++ bracket.name ++ " " ++ quoted opener ++ ", expected " ++
      " or ".intercalate (bracket.closers.map quoted)
  | missingName => "No meta-identifier found"
  | missingDefiningSymbol name => "No definition found for \"" ++ name.ascii ++ "\""
  | missingTerminator name => "No terminator for \"" ++ name.ascii ++ "\""

/-- The rule at fault, once its name has been read. -/
def ruleName : Cause → Option String
  | missingDefiningSymbol name => some name.ascii
  | missingTerminator name => some name.ascii
  | _ => none

end Cause

end Ebnf
