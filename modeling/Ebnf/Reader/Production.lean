import Ebnf.Reader.Trivia
import Ebnf.Scanning.Production

/-!
# Productions as readers

A reader scans the front of the unread bytes, so the productions are readers.  Its places
and stops are marks, and a special sequence is passed like a run of bytes, since lines do
not count here.
-/

namespace Ebnf

instance : Noting Extent Mark Mark where
  between := .mk
  start := Extent.start
  stop := Extent.stop

@[simp] theorem Extent.between_eq (start stop : Mark) :
    (Noting.between start stop : Extent) = ⟨start, stop⟩ := rfl

@[simp] theorem Extent.noting_start (extent : Extent) : Noting.start extent = extent.start := rfl

@[simp] theorem Extent.noting_stop (extent : Extent) : Noting.stop extent = extent.stop := rfl

namespace Reader

variable [Runtime]

/-- Whether a symbol that separates definitions comes next.  A `/` before `)`
closes an optional sequence and does not separate. -/
def startsWithSeparator : Bytes → Bool
  | Byte.solidus :: Byte.rightParenthesis :: _ => false
  | b :: _ => b == Byte.verticalLine || b == Byte.solidus || b == Byte.exclamationMark
  | [] => false

def definitionSeparator : Reader Bool :=
  plain fun input =>
    if startsWithSeparator input then .ok (true, input.tail) else .ok (false, input)

instance : Scanning Reader Mark Mark Extent where
  place := mark
  stop := mark
  current := current
  byte := byte
  one := one
  takeWhile := takeWhile
  passTo b := takeWhile (· != b)
  symbol := symbol
  definitionSeparator := definitionSeparator
  trivia := trivia
  orUndo := orUndo
  check := check
  fail := fail
  convert := convert
  entering _ reader := reader

/-! What is left to a scanner, as a reader does it. -/

@[simp] theorem scanning_place : (Scanning.place : Reader Mark) = mark := rfl

@[simp] theorem scanning_stop : (Scanning.stop : Reader Mark) = mark := rfl

@[simp] theorem scanning_current : (Scanning.current : Reader (Option UInt8)) = current := rfl

@[simp] theorem scanning_byte (expected : UInt8) :
    (Scanning.byte expected : Reader Bool) = byte expected := rfl

@[simp] theorem scanning_one (member : UInt8 → Bool) :
    (Scanning.one member : Reader (Option UInt8)) = one member := rfl

@[simp] theorem scanning_takeWhile (member : UInt8 → Bool) :
    (Scanning.takeWhile member : Reader Bytes) = takeWhile member := rfl

@[simp] theorem scanning_passTo (b : UInt8) :
    (Scanning.passTo b : Reader Bytes) = takeWhile (· != b) := rfl

@[simp] theorem scanning_symbol (spellings : List Bytes) :
    (Scanning.symbol spellings : Reader (Option Bytes)) = symbol spellings := rfl

@[simp] theorem scanning_definitionSeparator :
    (Scanning.definitionSeparator : Reader Bool) = definitionSeparator := rfl

@[simp] theorem scanning_trivia : (Scanning.trivia : Reader Unit) = trivia := rfl

@[simp] theorem scanning_orUndo (reader : Reader (Option α)) :
    Scanning.orUndo reader = reader.orUndo := rfl

@[simp] theorem scanning_check (reader : Reader α) : Scanning.check reader = reader.check := rfl

@[simp] theorem scanning_fail (cause : Cause) (start : Mark) :
    (Scanning.fail cause start : Reader α) = fail cause start := rfl

@[simp] theorem scanning_convert (digits : Bytes) :
    (Scanning.convert digits : Reader Nat) = convert digits := rfl

@[simp] theorem scanning_entering (level : Level) (reader : Reader α) :
    Scanning.entering level reader = reader := rfl

/-! The productions under their own names, so that they can be spoken of as readers. -/

abbrev nameByte : Reader (Option (UInt8 × Mark)) := Scanning.nameByte

abbrev name : Reader (Option (Extent × Bytes)) := Scanning.name

abbrev identifier : Reader (Option (Primary Extent)) := Scanning.identifier

abbrev terminal : Reader (Option (Primary Extent)) := Scanning.terminal

abbrev special : Reader (Option (Primary Extent)) := Scanning.special

abbrev separator (accepts : Reader Bool) : Reader Bool := Scanning.separator accepts

section Levels

variable (inside : Reader (List (Definition Extent)))

abbrev bracketedWith (bracket : Bracket) : Reader (Option (Primary Extent)) :=
  Scanning.bracketedWith inside bracket

abbrev primaryWith : Reader (Option (Primary Extent)) := Scanning.primaryWith inside

abbrev factorWith : Reader (Option (Factor Extent)) := Scanning.factorWith inside

abbrev termWith : Reader (Option (Term Extent)) := Scanning.termWith inside

abbrev definitionWith : Reader (Option (Definition Extent)) := Scanning.definitionWith inside

abbrev definitionsWith : Reader (List (Definition Extent)) := Scanning.definitionsWith inside

end Levels

abbrev definitionsUpTo : Nat → Reader (List (Definition Extent)) := Scanning.definitionsUpTo

abbrev definitions : Reader (List (Definition Extent)) := Scanning.definitions

abbrev bracketed (bracket : Bracket) : Reader (Option (Primary Extent)) :=
  Scanning.bracketed bracket

abbrev primary : Reader (Option (Primary Extent)) := Scanning.primary

abbrev factor : Reader (Option (Factor Extent)) := Scanning.factor

abbrev term : Reader (Option (Term Extent)) := Scanning.term

abbrev definition : Reader (Option (Definition Extent)) := Scanning.definition

abbrev strayLexeme : Reader Unit := Scanning.strayLexeme

abbrev rule : Reader (Rule Extent) := Scanning.rule

abbrev nextRule : Reader (Option (Rule Extent)) := Scanning.nextRule

end Reader

end Ebnf
