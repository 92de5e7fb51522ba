import Ebnf.SyntaxError

/-!
# Scanning

The productions of the notation are written once, over what a scanner can do: look at
the byte at the cursor, step over it, take a run of bytes, skip trivia, go back, and stop
with an error.  How a scanner does these things is left open.  It may move a cursor with
a line counter over a source, it may only take bytes from the front of a list, and it
may keep a record of what is looked for.

A scanner also has its own notion of a place, at which a construct begins, of a stop, at
which one ends, and of the notes that the tree carries.
-/

namespace Ebnf

/-- The levels of the notation from single definitions down to brackets. -/
inductive Level where
  | definition
  | term
  | factor
  | primary
  | bracketed (bracket : Bracket)
deriving DecidableEq, Repr

/-- Notes on the bytes between a place and a stop. -/
class Noting (Note : Type) (Place Stop : outParam Type) where
  between : Place → Stop → Note
  start : Note → Place
  stop : Note → Stop

/-- A scanner knows the number of bytes from the cursor on, which bounds the rounds of a
loop. -/
class Bounded (m : Type → Type) where
  left : m Nat

class Scanning (m : Type → Type) (Place Stop Note : outParam Type) extends Bounded m where
  place : m Place
  stop : m Stop
  /-- The byte at the cursor. -/
  current : m (Option UInt8)
  /-- Consumes the byte if it is at the cursor. -/
  byte : UInt8 → m Bool
  /-- Consumes one byte of a class. -/
  one : (UInt8 → Bool) → m (Option UInt8)
  /-- Consumes the longest run of bytes of a class, which may be empty. -/
  takeWhile : (UInt8 → Bool) → m Bytes
  /-- Consumes everything before the next byte of a kind. -/
  passTo : UInt8 → m Bytes
  /-- Consumes the first of the spellings that stands at the cursor. -/
  symbol : List Bytes → m (Option Bytes)
  /-- Consumes a symbol that separates definitions. -/
  definitionSeparator : m Bool
  /-- Passes over all whitespace and comments. -/
  trivia : m Unit
  /-- Undoes whatever has been done when nothing is found. -/
  orUndo : m (Option α) → m (Option α)
  /-- Does something for its errors alone. -/
  check : m α → m Unit
  /-- Stops with an error in the construct that begins at a place. -/
  fail : Cause → Place → m α
  /-- The number that a run of digits denotes, unless the runtime refuses to convert it. -/
  convert : Bytes → m Nat
  /-- Goes on at a level of the notation. -/
  entering : Level → m α → m α

namespace Scanning

export Bounded (left)

variable {m : Type → Type} [Monad m]

/-- The first value that one of the alternatives finds, each going on where the one
before has stopped. -/
def firstOf : List (m (Option α)) → m (Option α)
  | [] => return none
  | item :: more => do
    match ← item with
    | some value => return some value
    | none => firstOf more

/-! ### Repetition

Both loops take as many rounds as there are bytes left at most.  Every item that is
repeated below consumes a byte whenever it goes on to another round, so the bound is
never what ends a loop. -/

def manyUpTo (item : m (Option α)) : Nat → m (List α)
  | 0 => return []
  | rounds + 1 => do
    match ← item with
    | none => return []
    | some value => return value :: (← manyUpTo item rounds)

def separatedUpTo (item : m (Option α)) (separator : m Bool) : Nat → m (List α)
  | 0 => return []
  | rounds + 1 => do
    let first ← item
    if ← separator then
      return first.toList ++ (← separatedUpTo item separator rounds)
    else
      return first.toList

variable [Bounded m]

/-- Scans items until there is none. -/
def many (item : m (Option α)) : m (List α) := do
  manyUpTo item ((← left) + 1)

/-- Scans items with a separator between any two, until no separator follows.  Items may
be missing; the values are those of the items that are there. -/
def separated (item : m (Option α)) (separator : m Bool) : m (List α) := do
  separatedUpTo item separator ((← left) + 1)

end Scanning

end Ebnf
