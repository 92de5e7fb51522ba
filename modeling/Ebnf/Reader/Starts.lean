import Ebnf.Reader.Document

/-!
# Where constructs are looked for

What a reader answers does not tell which productions it has gone through, nor where they
were entered: a production that finds nothing, or that was entered at a byte it should not
have been, leaves no trace in the tree.  A watched reader scans as a reader does and keeps
a record besides, in which each level enters itself before anything else.
-/

namespace Ebnf

/-- A level has been entered, at the beginning of what was unread then. -/
structure Start where
  level : Level
  unread : Bytes
deriving DecidableEq, Repr

/-- A reader with a record of the levels that a run enters, also of a run that stops with an
error. -/
structure Watched (α : Type) where
  reader : Reader α
  starts : Bytes → List Start

namespace Watched

/-- A reader that enters no level. -/
def quiet (reader : Reader α) : Watched α where
  reader := reader
  starts _ := []

instance : Monad Watched where
  pure value := quiet (pure value)
  bind watched next := {
    reader := watched.reader >>= fun value => (next value).reader
    starts := fun input => watched.starts input ++
      match (watched.reader.attempt input).result with
      | .error _ => []
      | .ok (value, rest) => (next value).starts rest }

/-- Enters a level, and goes on as it does. -/
def entering (level : Level) (watched : Watched α) : Watched α where
  reader := watched.reader
  starts input := ⟨level, input⟩ :: watched.starts input

variable [Runtime]

instance : Scanning Watched Mark Mark Extent where
  left := quiet Reader.mark
  place := quiet Reader.mark
  stop := quiet Reader.mark
  current := quiet Reader.current
  byte expected := quiet (Reader.byte expected)
  one member := quiet (Reader.one member)
  takeWhile member := quiet (Reader.takeWhile member)
  passTo b := quiet (Reader.takeWhile (· != b))
  symbol spellings := quiet (Reader.symbol spellings)
  definitionSeparator := quiet Reader.definitionSeparator
  trivia := quiet Reader.trivia
  orUndo watched := { watched with reader := watched.reader.orUndo }
  check watched := { watched with reader := watched.reader.check }
  fail cause start := quiet (Reader.fail cause start)
  convert digits := quiet (Reader.convert digits)
  entering := entering

/-- The reading of a document with what has been entered in the course of it. -/
def documentUpTo : Nat → Bytes → Reading Extent Mark × List Start
  | 0, _ => ({}, [])
  | rules + 1, input =>
    let watched : Watched (Option (Rule Extent)) := Scanning.nextRule
    match watched.reader.attempt input with
    | ⟨comments, .error error⟩ => ({ comments, failure := some error }, watched.starts input)
    | ⟨comments, .ok (none, _)⟩ => ({ comments }, watched.starts input)
    | ⟨comments, .ok (some rule, rest)⟩ =>
      let more := documentUpTo rules rest
      ({ more.1 with rules := rule :: more.1.rules, comments := comments ++ more.1.comments },
        watched.starts input ++ more.2)

def document (input : Bytes) : Reading Extent Mark × List Start :=
  documentUpTo (input.length + 1) input

end Watched

end Ebnf
