import Ebnf.Position

/-!
# A cursor over a document

A cursor moves over a fixed list of bytes and keeps the position it has reached.
It may be put anywhere: beyond the end, inside a CR LF pair, or at a line and
column that do not agree with the bytes before it.  Nothing here reads those
bytes, so every operation is total and answers from the bytes at the cursor on.
-/

namespace Ebnf

structure Cursor where
  source : Bytes
  options : Options := {}
  position : Position := .origin
deriving DecidableEq, Repr

/-- A set of bytes and whether an empty run of them counts as one. -/
structure Run where
  member : UInt8 → Bool
  mayBeEmpty : Bool := false

namespace Cursor

def unread (cursor : Cursor) : Bytes :=
  cursor.source.drop cursor.position.offset

def current (cursor : Cursor) : Option UInt8 :=
  cursor.unread.head?

def peek (cursor : Cursor) : Option UInt8 :=
  cursor.unread.tail.head?

def atEnd (cursor : Cursor) : Bool :=
  cursor.source.length ≤ cursor.position.offset

/-- The number of bytes from the cursor to the end. -/
def left (cursor : Cursor) : Nat :=
  cursor.source.length - cursor.position.offset

def moveTo (cursor : Cursor) (position : Position) : Cursor :=
  { cursor with position }

def step (cursor : Cursor) : Cursor :=
  cursor.moveTo cursor.position.step

def newLine (cursor : Cursor) : Cursor :=
  cursor.moveTo cursor.position.newLine

/-- Moves over one character, a CR LF pair being one. -/
def advance (cursor : Cursor) : Cursor :=
  match cursor.unread with
  | [] => cursor.step
  | Byte.carriageReturn :: Byte.lineFeed :: _ => cursor.step.newLine
  | b :: _ => cursor.moveTo (cursor.position.pass cursor.options b)

/-- Advances while bytes of a class come next, over so many at most. -/
def advanceWhile (member : UInt8 → Bool) : Nat → Cursor → Cursor
  | 0, cursor => cursor
  | more + 1, cursor =>
    if cursor.current.any member then cursor.advance.advanceWhile member more else cursor

/-- Whether `word` stands at the cursor; nothing, not even the empty word, stands
beyond the end. -/
def startsWith (cursor : Cursor) (word : Bytes) : Bool :=
  cursor.position.offset ≤ cursor.source.length && word.isPrefixOf cursor.unread

/-- Whether a symbol that separates definitions is at the cursor.  A `/` before `)` closes an
optional sequence and does not separate. -/
def atSeparator (cursor : Cursor) : Bool :=
  if cursor.current == some Byte.solidus && cursor.peek == some Byte.rightParenthesis then false
  else cursor.current.any fun b =>
    b == Byte.verticalLine || b == Byte.solidus || b == Byte.exclamationMark

/-- Steps over a word byte by byte. -/
def stepOver (word : Bytes) (cursor : Cursor) : Cursor :=
  word.foldl (fun cursor _ => cursor.step) cursor

/-- Takes the longest run at the cursor and moves behind it, on the same line.
Beyond the end the run is looked for at the end, which may move the cursor
back; a run that would leave the cursor where it is does not count. -/
def take? (cursor : Cursor) (run : Run) : Option (Bytes × Cursor) :=
  let start := min cursor.position.offset cursor.source.length
  let bytes := (cursor.source.drop start).takeWhile run.member
  let stop := start + bytes.length
  if (bytes.isEmpty && !run.mayBeEmpty) || stop == cursor.position.offset then none
  else some (bytes, cursor.moveTo
    ⟨stop, cursor.position.line, stop - cursor.position.lineStart⟩)

end Cursor

end Ebnf
