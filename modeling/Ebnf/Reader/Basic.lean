import Ebnf.Runtime
import Ebnf.Scanning.Basic

/-!
# Readers

A reader takes a construct from the front of the unread bytes.  It sees nothing
else: not what was read before, not the line it is on, not the comments found so
far.  It either stops with an error or gives a value and the bytes it left unread.
The comments it passed come with both, since those before an error have been
passed too.

Readers are not what runs: a parser moves a cursor over the source.  They are the
scanner that is easiest to reason about, and the parser is proved to do what they do.

Places are noted as the number of bytes that are still unread there, so that a
reader gives the same answer wherever in a document its input stands.  A reader
of an optional value that finds nothing answers `none`; what it has consumed by
then is said by the bytes it leaves.
-/

namespace Ebnf

/-- A place in a document, given by the number of bytes from there to the end. -/
abbrev Mark := Nat

/-- The bytes between two marks. -/
structure Extent where
  start : Mark
  stop : Mark
deriving DecidableEq, Repr

/-- What comes of running a reader: a value with the bytes left unread, or an error. -/
structure Attempt (α : Type) where
  comments : List (Comment Mark) := []
  result : Except (Fault Mark) (α × Bytes)

structure Outcome (α : Type) where
  value : α
  comments : List (Comment Mark) := []
  rest : Bytes
deriving DecidableEq, Repr

/-- The outcome, if there was no error. -/
def Attempt.outcome (attempt : Attempt α) : Except (Fault Mark) (Outcome α) :=
  match attempt.result with
  | .error error => .error error
  | .ok (value, rest) => .ok ⟨value, attempt.comments, rest⟩

/-- The place at which reading has stopped, with a value or with an error. -/
def Attempt.left (attempt : Attempt α) : Mark :=
  match attempt.result with
  | .error error => error.stop
  | .ok (_, rest) => rest.length

structure Reader (α : Type) where
  attempt : Bytes → Attempt α

namespace Reader

def run (reader : Reader α) (input : Bytes) : Except (Fault Mark) (Outcome α) :=
  (reader.attempt input).outcome

/-- A reader that passes no comments. -/
def plain (step : Bytes → Except (Fault Mark) (α × Bytes)) : Reader α where
  attempt input := { result := step input }

instance : Monad Reader where
  pure value := plain fun input => .ok (value, input)
  bind reader next := ⟨fun input =>
    match reader.attempt input with
    | ⟨comments, .error error⟩ => ⟨comments, .error error⟩
    | ⟨comments, .ok (value, rest)⟩ =>
      let second := (next value).attempt rest
      { second with comments := comments ++ second.comments }⟩

def mark : Reader Mark :=
  plain fun input => .ok (input.length, input)

instance : Bounded Reader := ⟨mark⟩

/-- The next byte, which is not consumed. -/
def current : Reader (Option UInt8) :=
  plain fun input => .ok (input.head?, input)

/-- Stops with an error in the construct that begins at `start`. -/
def fail (cause : Cause) (start : Mark) : Reader α :=
  plain fun input => .error (.syntaxError ⟨cause, start, input.length⟩)

/-- The number that a run of digits denotes, unless the runtime refuses to convert
it. -/
def convert [Runtime] (digits : Bytes) : Reader Nat :=
  plain fun input =>
    if Runtime.converts digits.length then .ok (digits.decimal, input)
    else .error (.refusal digits.length input.length)

/-- Consumes the byte if it comes next. -/
def byte (expected : UInt8) : Reader Bool :=
  plain fun
    | [] => .ok (false, [])
    | b :: rest => if b = expected then .ok (true, rest) else .ok (false, b :: rest)

/-- Consumes one byte of a class. -/
def one (member : UInt8 → Bool) : Reader (Option UInt8) :=
  plain fun
    | [] => .ok (none, [])
    | b :: rest => if member b then .ok (some b, rest) else .ok (none, b :: rest)

/-- Consumes the longest run of bytes of a class, which may be empty. -/
def takeWhile (member : UInt8 → Bool) : Reader Bytes :=
  plain fun input => .ok (input.takeWhile member, input.dropWhile member)

/-- Consumes the first of the spellings that comes next. -/
def symbol (spellings : List Bytes) : Reader (Option Bytes) :=
  plain fun input =>
    match spellings.find? fun spelling => spelling.isPrefixOf input with
    | none => .ok (none, input)
    | some spelling => .ok (some spelling, input.drop spelling.length)

/-- Undoes whatever a reader has done when it finds nothing. -/
def orUndo (reader : Reader (Option α)) : Reader (Option α) where
  attempt input :=
    match reader.attempt input with
    | ⟨_, .ok (none, _)⟩ => { result := .ok (none, input) }
    | attempt => attempt

/-- Runs a reader for its errors alone. -/
def check (reader : Reader α) : Reader Unit where
  attempt input :=
    match reader.attempt input with
    | ⟨comments, .error error⟩ => ⟨comments, .error error⟩
    | ⟨_, .ok _⟩ => { result := .ok ((), input) }

end Reader

end Ebnf
