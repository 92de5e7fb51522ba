import Ebnf.Cursor
import Ebnf.Reader.Production

/-!
# Readings

A document is rules and trivia up to its end.  One that is not well formed has a
reading too: the rules completed before the error, the comments passed up to it, and
the error.  A reading is then located, which turns counts of unread bytes into
positions; lines and columns come in nowhere before.
-/

namespace Ebnf

variable [Runtime]

structure Reading (α μ : Type) where
  rules : List (Rule α) := []
  comments : List (Comment μ) := []
  failure : Option (Fault μ) := none

namespace Reader

/-- Reads a number of rules at most.  A rule takes at least one byte, so there are
never more of them than bytes. -/
def documentUpTo : Nat → Bytes → Reading Extent Mark
  | 0, _ => {}
  | rules + 1, input =>
    match nextRule.attempt input with
    | ⟨comments, .error error⟩ => { comments, failure := some error }
    | ⟨comments, .ok (none, _)⟩ => { comments }
    | ⟨comments, .ok (some rule, rest)⟩ =>
      let more := documentUpTo rules rest
      { more with rules := rule :: more.rules, comments := comments ++ more.comments }

def document (input : Bytes) : Reading Extent Mark :=
  documentUpTo (input.length + 1) input

end Reader

namespace Reading

def map (f : α → β) (g : μ → ν) (reading : Reading α μ) : Reading β ν where
  rules := reading.rules.map (Rule.map f)
  comments := reading.comments.map (Comment.map g)
  failure := reading.failure.map (Fault.map g)

def grammar (reading : Reading α μ) : Grammar α μ :=
  ⟨reading.rules, reading.comments⟩

/-- The grammar, if the document is well formed. -/
def result (reading : Reading α μ) : Except (Fault μ) (Grammar α μ) :=
  match reading.failure with
  | some error => .error error
  | none => .ok reading.grammar

end Reading

/-- The position at which so many bytes are left, counted line by line from the cursor. -/
def Cursor.positionAt (cursor : Cursor) (left : Mark) : Position :=
  cursor.position.after cursor.options
    (cursor.unread.take (cursor.unread.length - left))

/-- The span of an extent that is read from the cursor on. -/
def Cursor.locate (cursor : Cursor) (extent : Extent) : Span :=
  ⟨cursor.positionAt extent.start, extent.start - extent.stop⟩

/-- Reads the document from the cursor on. -/
def Cursor.read (cursor : Cursor) : Reading Span Position :=
  (Reader.document cursor.unread).map cursor.locate cursor.positionAt

/-- Reads a whole document. -/
def read (options : Options) (source : Bytes) : Reading Span Position :=
  Cursor.read { source, options }

end Ebnf
