/-!
# Bytes of a grammar document

A document of the ISO 14977 notation is read byte by byte: every symbol of
the notation is ASCII, and bytes outside ASCII can stand only inside comments
and special sequences, where they are carried along as text.  This file names
the bytes that the notation gives a meaning to, the classes in which it counts
them, and the few list operations that the other files share.
-/

namespace Ebnf

abbrev Bytes := List UInt8

namespace Byte

@[match_pattern] abbrev lineFeed : UInt8 := 0x0A
@[match_pattern] abbrev verticalTab : UInt8 := 0x0B
@[match_pattern] abbrev formFeed : UInt8 := 0x0C
@[match_pattern] abbrev carriageReturn : UInt8 := 0x0D
@[match_pattern] abbrev space : UInt8 := 0x20
@[match_pattern] abbrev exclamationMark : UInt8 := 0x21
@[match_pattern] abbrev quotationMark : UInt8 := 0x22
@[match_pattern] abbrev apostrophe : UInt8 := 0x27
@[match_pattern] abbrev leftParenthesis : UInt8 := 0x28
@[match_pattern] abbrev rightParenthesis : UInt8 := 0x29
@[match_pattern] abbrev asterisk : UInt8 := 0x2A
@[match_pattern] abbrev comma : UInt8 := 0x2C
@[match_pattern] abbrev hyphen : UInt8 := 0x2D
@[match_pattern] abbrev solidus : UInt8 := 0x2F
@[match_pattern] abbrev colon : UInt8 := 0x3A
@[match_pattern] abbrev semicolon : UInt8 := 0x3B
@[match_pattern] abbrev equalsSign : UInt8 := 0x3D
@[match_pattern] abbrev questionMark : UInt8 := 0x3F
@[match_pattern] abbrev leftSquareBracket : UInt8 := 0x5B
@[match_pattern] abbrev rightSquareBracket : UInt8 := 0x5D
@[match_pattern] abbrev leftCurlyBracket : UInt8 := 0x7B
@[match_pattern] abbrev verticalLine : UInt8 := 0x7C
@[match_pattern] abbrev rightCurlyBracket : UInt8 := 0x7D

/-- Whitespace is the space and the five controls from TAB to CR. -/
def isBlank (b : UInt8) : Bool :=
  b == space || (0x09 ≤ b && b ≤ carriageReturn)

def isLetter (b : UInt8) : Bool :=
  (0x41 ≤ b && b ≤ 0x5A) || (0x61 ≤ b && b ≤ 0x7A)

def isDigit (b : UInt8) : Bool :=
  0x30 ≤ b && b ≤ 0x39

/-- The bytes that may stand in a meta-identifier after its first letter. -/
def isWord (b : UInt8) : Bool :=
  isLetter b || isDigit b

def isPrintable (b : UInt8) : Bool :=
  0x20 ≤ b && b ≤ 0x7E

/-- The bytes of a terminal string that `quote` opened. -/
def isTerminal (quote b : UInt8) : Bool :=
  isPrintable b && b != quote

/-- The bytes at which a shown line ends, whatever else counts as a line
boundary. -/
def endsLine (b : UInt8) : Bool :=
  b == lineFeed || b == carriageReturn

/-- The value of a decimal digit. -/
def digitValue (b : UInt8) : Nat :=
  b.toNat - 0x30

end Byte

namespace Bytes

/-- Leaves out the whitespace at both ends. -/
def trim (bytes : Bytes) : Bytes :=
  ((bytes.dropWhile Byte.isBlank).reverse.dropWhile Byte.isBlank).reverse

/-- The number that a run of decimal digits denotes; the empty run denotes
zero. -/
def decimal (digits : Bytes) : Nat :=
  digits.foldl (fun number digit => 10 * number + Byte.digitValue digit) 0

/-- Reads ASCII bytes as the characters of the same codes. -/
def ascii (bytes : Bytes) : String :=
  String.ofList (bytes.map fun b => Char.ofNat b.toNat)

/-- The index that `index` stands for: a negative one counts from the end, and
none goes beyond either end. -/
def resolveIndex (bytes : Bytes) (index : Int) : Nat :=
  min bytes.length
    (if index < 0 then index + bytes.length else index).toNat

/-- The bytes from `start` up to `stop`, none when they are out of order. -/
def slice (bytes : Bytes) (start stop : Int) : Bytes :=
  (bytes.take (bytes.resolveIndex stop)).drop (bytes.resolveIndex start)

end Bytes

end Ebnf
