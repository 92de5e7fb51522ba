import Ebnf.Runtime
import Ebnf.Scanning.Basic
import Ebnf.Session
import Ebnf.SyntaxError

/-!
# Parsers

A parser moves the cursor of a session over the source and collects comments on the way,
also when it stops with an error.  Lines are counted only where the cursor advances; a plain
step, a symbol and a run of bytes leave the line as it is, and going back takes over the line
and the column that were noted.
-/

namespace Ebnf

abbrev Parser := ExceptT (Fault Position) (StateM Session)

namespace Parser

/-- What comes of a parser, and the session as it leaves it. -/
def run (parser : Parser α) (session : Session) : Except (Fault Position) α × Session :=
  ExceptT.run parser session

def cursor : Parser Cursor :=
  return (← get).cursor

def place : Parser Position :=
  return (← cursor).position

def stop : Parser Nat :=
  return (← place).offset

def left : Parser Nat :=
  return (← cursor).left

def current : Parser (Option UInt8) :=
  return (← cursor).current

def move (next : Cursor → Cursor) : Parser Unit :=
  modify fun session => { session with cursor := next session.cursor }

/-- Stops with an error in the construct that begins at `start`. -/
def fail (cause : Cause) (start : Position) : Parser α := do
  throw (.syntaxError ⟨cause, start, ← place⟩)

/-- The number that a run of digits denotes, unless the runtime refuses to convert
it. -/
def convert [Runtime] (digits : Bytes) : Parser Nat := do
  if Runtime.converts digits.length then return digits.decimal
  else throw (.refusal digits.length (← place))

def byte (expected : UInt8) : Parser Bool := do
  if (← current) = some expected then
    move Cursor.step
    return true
  else
    return false

def one (member : UInt8 → Bool) : Parser (Option UInt8) := do
  let b ← current
  if b.any member then
    move Cursor.step
    return b
  else
    return none

def takeWhile (member : UInt8 → Bool) : Parser Bytes := do
  match (← cursor).take? { member } with
  | none => return []
  | some (bytes, behind) =>
    move fun _ => behind
    return bytes

/-- Advances to the next byte of a kind, or to the end. -/
def passTo (b : UInt8) : Parser Bytes := do
  let start ← stop
  move fun cursor => cursor.advanceWhile (· != b) cursor.left
  return (← cursor).source.slice start (← stop)

def symbol (spellings : List Bytes) : Parser (Option Bytes) := do
  match spellings.find? (← cursor).startsWith with
  | none => return none
  | some spelling =>
    move (Cursor.stepOver spelling)
    return some spelling

def definitionSeparator : Parser Bool := do
  if (← cursor).atSeparator then
    move Cursor.step
    return true
  else
    return false

/-- Goes back when nothing is found. -/
def orUndo (parser : Parser (Option α)) : Parser (Option α) := do
  let checkpoint := (← get).checkpoint
  match ← parser with
  | some value => return some value
  | none =>
    modify (·.reset checkpoint)
    return none

/-- Goes back in any case, unless there is an error. -/
def check (parser : Parser α) : Parser Unit := do
  let checkpoint := (← get).checkpoint
  let _ ← parser
  modify (·.reset checkpoint)

end Parser

end Ebnf
