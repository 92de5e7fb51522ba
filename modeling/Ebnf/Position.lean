import Ebnf.Bytes

/-!
# Positions in a document

A position is a byte offset together with the line it lies on and its column,
the number of bytes since that line began; all three count from zero.  CR LF is
one line boundary, CR and LF alone are one each, and VT and FF are boundaries
when the options ask for it.

Lines and columns are integers.  Positions may be made up, with any line; and a
cursor beyond the end of its document may be set back to the end while its line
keeps beginning further on, which leaves it at a column below zero.
-/

namespace Ebnf

structure Options where
  /-- Whether VT and FF end a line. -/
  verticalBreaks : Bool := false
deriving DecidableEq, Repr

/-- The bytes that end a line. -/
def Options.isBreak (options : Options) (b : UInt8) : Bool :=
  Byte.endsLine b ||
    (options.verticalBreaks && (b == Byte.verticalTab || b == Byte.formFeed))

structure Position where
  offset : Nat
  line : Int
  column : Int
deriving DecidableEq, Repr

namespace Position

def origin : Position := ⟨0, 0, 0⟩

/-- The offset at which the line of the position begins. -/
def lineStart (position : Position) : Int :=
  position.offset - position.column

/-- One byte further on the same line. -/
def step (position : Position) : Position :=
  ⟨position.offset + 1, position.line, position.column + 1⟩

/-- One byte further, at the beginning of a new line. -/
def newLine (position : Position) : Position :=
  ⟨position.offset + 1, position.line + 1, 0⟩

/-- The position after a byte that no CR precedes. -/
def pass (options : Options) (b : UInt8) (position : Position) : Position :=
  if options.isBreak b then position.newLine else position.step

/-- The position after a stretch of bytes. -/
def after (options : Options) : Bytes → Position → Position
  | [], position => position
  | Byte.carriageReturn :: Byte.lineFeed :: rest, position =>
    after options rest position.step.newLine
  | b :: rest, position => after options rest (position.pass options b)

/-- Shows a position as `line:column`. -/
def lineColumn (position : Position) : String :=
  toString position.line ++ ":" ++ toString position.column

end Position

/-- A place that a construct of the document takes up. -/
structure Span where
  start : Position
  length : Nat
deriving DecidableEq, Repr

/-- The offset after the last byte. -/
def Span.stop (span : Span) : Nat :=
  span.start.offset + span.length

end Ebnf
