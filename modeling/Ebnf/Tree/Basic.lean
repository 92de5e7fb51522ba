import Ebnf.Bytes

/-!
# The tree of a grammar document

The types follow the levels of ISO 14977: a rule has definitions, a definition
is one term or a concatenation of at least two, a term is a factor with or
without an exception, a factor is a primary with or without a repetition count.
What the standard lets be empty, the operand of a count and an exception, is
optional here; an empty definition or term has no node at all.

Every node carries a note of type `α`.  While a document is being read the note
says which bytes the node takes up, a finished tree has positions instead, and a
tree that matters for its meaning alone has notes of type `Unit`.
-/

namespace Ebnf

/-- The three kinds of bracketed sequences. -/
inductive Bracket where
  | optional
  | repeated
  | grouped
deriving DecidableEq, Repr

namespace Bracket

/-- The ways to write the opening symbol. -/
def openers : Bracket → List Bytes
  | .optional => [[Byte.leftSquareBracket], [Byte.leftParenthesis, Byte.solidus]]
  | .repeated => [[Byte.leftCurlyBracket], [Byte.leftParenthesis, Byte.colon]]
  | .grouped => [[Byte.leftParenthesis]]

/-- The ways to write the closing symbol, whichever opening symbol was chosen. -/
def closers : Bracket → List Bytes
  | .optional => [[Byte.rightSquareBracket], [Byte.solidus, Byte.rightParenthesis]]
  | .repeated => [[Byte.rightCurlyBracket], [Byte.colon, Byte.rightParenthesis]]
  | .grouped => [[Byte.rightParenthesis]]

def name : Bracket → String
  | .optional => "optional sequence"
  | .repeated => "repeated sequence"
  | .grouped => "grouped sequence"

end Bracket

mutual

inductive Primary (α : Type) where
  | bracketed (note : α) (bracket : Bracket) (definitions : List (Definition α))
  | identifier (note : α) (name : Bytes)
  | terminal (note : α) (content : Bytes)
  | special (note : α) (content : String)

inductive Factor (α : Type) where
  | primary (p : Primary α)
  | repetition (note : α) (count : Nat) (operand : Option (Primary α))

inductive Term (α : Type) where
  | factor (x : Factor α)
  | exception (note : α) (base : Factor α) (excluded : Option (Factor α))

inductive Definition (α : Type) where
  | term (t : Term α)
  | concatenation (note : α) (first second : Term α) (more : List (Term α))

end

structure Rule (α : Type) where
  note : α
  name : Bytes
  definitions : List (Definition α)

/-- A comment, kept beside the tree; `start` says where it opens. -/
structure Comment (μ : Type) where
  content : String
  start : μ
deriving DecidableEq, Repr

/-- A whole document: its rules and its outermost comments, both in order.  Rules
of the same name are all kept. -/
structure Grammar (α μ : Type) where
  rules : List (Rule α)
  comments : List (Comment μ)

def Grammar.ruleNames (grammar : Grammar α μ) : List Bytes :=
  grammar.rules.map Rule.name

/-! ### The note of a node -/

def Primary.note : Primary α → α
  | .bracketed note _ _ => note
  | .identifier note _ => note
  | .terminal note _ => note
  | .special note _ => note

def Factor.note : Factor α → α
  | .primary p => p.note
  | .repetition note _ _ => note

def Term.note : Term α → α
  | .factor x => x.note
  | .exception note _ _ => note

def Definition.note : Definition α → α
  | .term t => t.note
  | .concatenation note _ _ _ => note

/-! ### Changing the notes -/

mutual

def Primary.map (f : α → β) : Primary α → Primary β
  | .bracketed note bracket definitions =>
    .bracketed (f note) bracket (Definition.mapAll f definitions)
  | .identifier note name => .identifier (f note) name
  | .terminal note content => .terminal (f note) content
  | .special note content => .special (f note) content

def Factor.map (f : α → β) : Factor α → Factor β
  | .primary p => .primary (p.map f)
  | .repetition note count none => .repetition (f note) count none
  | .repetition note count (some operand) =>
    .repetition (f note) count (some (operand.map f))

def Term.map (f : α → β) : Term α → Term β
  | .factor x => .factor (x.map f)
  | .exception note base none => .exception (f note) (base.map f) none
  | .exception note base (some excluded) =>
    .exception (f note) (base.map f) (some (excluded.map f))

def Definition.map (f : α → β) : Definition α → Definition β
  | .term t => .term (t.map f)
  | .concatenation note first second more =>
    .concatenation (f note) (first.map f) (second.map f) (Term.mapAll f more)

def Term.mapAll (f : α → β) : List (Term α) → List (Term β)
  | [] => []
  | t :: more => t.map f :: Term.mapAll f more

def Definition.mapAll (f : α → β) : List (Definition α) → List (Definition β)
  | [] => []
  | d :: more => d.map f :: Definition.mapAll f more

end

theorem Term.mapAll_eq (f : α → β) (terms : List (Term α)) :
    Term.mapAll f terms = terms.map (Term.map f) := by
  induction terms with
  | nil => rfl
  | cons term more ih => simp [Term.mapAll, ih]

theorem Definition.mapAll_eq (f : α → β) (definitions : List (Definition α)) :
    Definition.mapAll f definitions = definitions.map (Definition.map f) := by
  induction definitions with
  | nil => rfl
  | cons definition more ih => simp [Definition.mapAll, ih]

def Rule.map (f : α → β) (rule : Rule α) : Rule β :=
  ⟨f rule.note, rule.name, rule.definitions.map (Definition.map f)⟩

def Comment.map (f : μ → ν) (comment : Comment μ) : Comment ν :=
  ⟨comment.content, f comment.start⟩

def Grammar.map (f : α → β) (g : μ → ν) (grammar : Grammar α μ) : Grammar β ν :=
  ⟨grammar.rules.map (Rule.map f), grammar.comments.map (Comment.map g)⟩

end Ebnf
