import Ebnf.Tree.Basic

/-!
# Walking a tree

Every construct is a node: a rule, or something that can stand as a definition.
The nodes below a node are listed depth first, each before what it contains, so
that the list follows the order of the document.
-/

namespace Ebnf

inductive Node (α : Type) where
  | rule (r : Rule α)
  | definition (d : Definition α)

/-- The constructs of the notation. -/
inductive Construct where
  | rule
  | concatenation
  | exception
  | repetition
  | bracketed (bracket : Bracket)
  | identifier
  | terminal
  | special
deriving DecidableEq, Repr

def Primary.construct : Primary α → Construct
  | .bracketed _ bracket _ => .bracketed bracket
  | .identifier .. => .identifier
  | .terminal .. => .terminal
  | .special .. => .special

def Factor.construct : Factor α → Construct
  | .primary p => p.construct
  | .repetition .. => .repetition

def Term.construct : Term α → Construct
  | .factor x => x.construct
  | .exception .. => .exception

def Definition.construct : Definition α → Construct
  | .term t => t.construct
  | .concatenation .. => .concatenation

namespace Node

def ofPrimary (primary : Primary α) : Node α :=
  .definition (.term (.factor (.primary primary)))

def ofFactor (factor : Factor α) : Node α :=
  .definition (.term (.factor factor))

def ofTerm (term : Term α) : Node α :=
  .definition (.term term)

def note : Node α → α
  | .rule r => r.note
  | .definition d => d.note

def construct : Node α → Construct
  | .rule _ => .rule
  | .definition d => d.construct

def map (f : α → β) : Node α → Node β
  | .rule r => .rule (r.map f)
  | .definition d => .definition (d.map f)

end Node

mutual

def Primary.nodes : Primary α → List (Node α)
  | .bracketed note bracket definitions =>
    .ofPrimary (.bracketed note bracket definitions) ::
      Definition.nodesAll definitions
  | primary => [.ofPrimary primary]

def Factor.nodes : Factor α → List (Node α)
  | .primary p => p.nodes
  | .repetition note count none => [.ofFactor (.repetition note count none)]
  | .repetition note count (some operand) =>
    .ofFactor (.repetition note count (some operand)) :: operand.nodes

def Term.nodes : Term α → List (Node α)
  | .factor x => x.nodes
  | .exception note base none =>
    .ofTerm (.exception note base none) :: base.nodes
  | .exception note base (some excluded) =>
    .ofTerm (.exception note base (some excluded)) ::
      (base.nodes ++ excluded.nodes)

def Definition.nodes : Definition α → List (Node α)
  | .term t => t.nodes
  | .concatenation note first second more =>
    .definition (.concatenation note first second more) ::
      (first.nodes ++ (second.nodes ++ Term.nodesAll more))

def Term.nodesAll : List (Term α) → List (Node α)
  | [] => []
  | t :: more => t.nodes ++ Term.nodesAll more

def Definition.nodesAll : List (Definition α) → List (Node α)
  | [] => []
  | d :: more => d.nodes ++ Definition.nodesAll more

end

def Rule.nodes (rule : Rule α) : List (Node α) :=
  .rule rule :: Definition.nodesAll rule.definitions

def Node.nodes : Node α → List (Node α)
  | .rule r => r.nodes
  | .definition d => d.nodes

/-- All nodes of a document, rule by rule. -/
def Grammar.nodes (grammar : Grammar α μ) : List (Node α) :=
  grammar.rules.flatMap Rule.nodes

end Ebnf
