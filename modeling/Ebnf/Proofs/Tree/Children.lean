import Ebnf.Proofs.Tree.Notes
import Mathlib.Logic.Relation

/-!
# Nodes and what they contain

The walk over a tree is defined level by level.  Here it is put in terms of nodes alone: a
node has children, in the order of the document, and the walk from it is the node itself in
front of the walks from its children.  What stands below a node is then what is reached by
going from parent to child, and the walk is the node and everything below it.

A level with only one alternative is no node of its own, so the child of a repetition is its
operand and not a factor around it.
-/

namespace Ebnf

open Relation

/-! ### Children -/

def Primary.children : Primary α → List (Node α)
  | .bracketed _ _ definitions => definitions.map .definition
  | _ => []

def Factor.children : Factor α → List (Node α)
  | .primary p => p.children
  | .repetition _ _ operand => operand.toList.map .ofPrimary

def Term.children : Term α → List (Node α)
  | .factor x => x.children
  | .exception _ base excluded => .ofFactor base :: excluded.toList.map .ofFactor

def Definition.children : Definition α → List (Node α)
  | .term t => t.children
  | .concatenation _ first second more => (first :: second :: more).map .ofTerm

def Node.children : Node α → List (Node α)
  | .rule r => r.definitions.map .definition
  | .definition d => d.children

theorem Term.nodesAll_eq (terms : List (Term α)) :
    Term.nodesAll terms = (terms.map Node.ofTerm).flatMap Node.nodes := by
  induction terms with
  | nil => rfl
  | cons t more ih =>
    rw [Term.nodesAll, ih]
    rfl

theorem Definition.nodesAll_eq (definitions : List (Definition α)) :
    Definition.nodesAll definitions = (definitions.map Node.definition).flatMap Node.nodes := by
  induction definitions with
  | nil => rfl
  | cons d more ih =>
    rw [Definition.nodesAll, ih]
    rfl

theorem Primary.nodes_eq (p : Primary α) :
    p.nodes = .ofPrimary p :: p.children.flatMap Node.nodes := by
  cases p with
  | bracketed note bracket definitions => rw [Primary.nodes, Definition.nodesAll_eq, children]
  | identifier => rfl
  | terminal => rfl
  | special => rfl

theorem Factor.nodes_eq (x : Factor α) :
    x.nodes = .ofFactor x :: x.children.flatMap Node.nodes := by
  cases x with
  | primary p => exact p.nodes_eq
  | repetition note count operand =>
    cases operand with
    | none => rfl
    | some operand => exact congrArg (_ :: ·) (List.append_nil _).symm

theorem Term.nodes_eq (t : Term α) : t.nodes = .ofTerm t :: t.children.flatMap Node.nodes := by
  cases t with
  | factor x => exact x.nodes_eq
  | exception note base excluded =>
    cases excluded with
    | none => exact congrArg (_ :: ·) (List.append_nil _).symm
    | some excluded =>
      exact congrArg (_ :: base.nodes ++ ·) (List.append_nil _).symm

/-- The walk from a node is the node in front of the walks from its children. -/
theorem Node.nodes_eq (n : Node α) : n.nodes = n :: n.children.flatMap Node.nodes := by
  match n with
  | .rule r => exact congrArg (_ :: ·) (Definition.nodesAll_eq r.definitions)
  | .definition (.term t) => exact t.nodes_eq
  | .definition (.concatenation note first second more) =>
    have hmore := Term.nodesAll_eq (first :: second :: more)
    exact congrArg (_ :: ·) hmore

theorem Node.mem_nodes_self (n : Node α) : n ∈ n.nodes := by
  rw [n.nodes_eq]
  exact List.mem_cons_self

theorem Node.sublist_children {n c : Node α} (h : c ∈ n.children) :
    c.nodes.Sublist (n.children.flatMap Node.nodes) :=
  List.sublist_flatten_of_mem (List.mem_map_of_mem h)

theorem Node.sublist_child {n c : Node α} (h : c ∈ n.children) : c.nodes.Sublist n.nodes := by
  rw [n.nodes_eq]
  exact (Node.sublist_children h).cons _

theorem Node.length_nodes_child {n c : Node α} (h : c ∈ n.children) :
    c.nodes.length < n.nodes.length := by
  rw [n.nodes_eq, List.length_cons]
  exact Nat.lt_succ_of_le (Node.sublist_children h).length_le

/-- What holds of a node when it holds of its children holds of all nodes. -/
theorem Node.induction_children {P : Node α → Prop}
    (h : ∀ n : Node α, (∀ c ∈ n.children, P c) → P n) (n : Node α) : P n := by
  induction hlength : n.nodes.length using Nat.strongRecOn generalizing n with
  | _ length ih =>
    apply h
    intro c hc
    exact ih c.nodes.length (hlength ▸ Node.length_nodes_child hc) c rfl

/-! ### Below a node -/

/-- A node is properly inside another one. -/
def Node.Below (m n : Node α) : Prop :=
  TransGen (fun c n => c ∈ n.children) m n

theorem Node.Below.sublist {m n : Node α} (h : m.Below n) : m.nodes.Sublist n.nodes := by
  induction h with
  | single hc => exact Node.sublist_child hc
  | tail _ hc ih => exact ih.trans (Node.sublist_child hc)

/-- The walk from a node goes to the node and to everything below it. -/
theorem Node.mem_nodes_iff {n m : Node α} : m ∈ n.nodes ↔ m = n ∨ m.Below n := by
  constructor
  · intro hm
    induction n using Node.induction_children with
    | h n ih =>
      rw [n.nodes_eq, List.mem_cons, List.mem_flatMap] at hm
      refine hm.imp_right ?_
      rintro ⟨child, hchild, hm⟩
      rcases ih child hchild hm with rfl | hbelow
      · exact .single hchild
      · exact .tail hbelow hchild
  · rintro (rfl | hbelow)
    · exact m.mem_nodes_self
    · exact hbelow.sublist.subset m.mem_nodes_self

/-- The walk over a document goes through the walk from each of its nodes. -/
theorem Grammar.nodes_sublist {g : Grammar α μ} {n : Node α} (hn : n ∈ g.nodes) :
    n.nodes.Sublist g.nodes := by
  obtain ⟨r, hr, hn⟩ := List.mem_flatMap.1 hn
  have hrule : (Node.nodes (.rule r)).Sublist g.nodes :=
    List.sublist_flatten_of_mem (List.mem_map_of_mem hr)
  rcases (Node.mem_nodes_iff (n := .rule r)).1 hn with rfl | hbelow
  · exact hrule
  · exact hbelow.sublist.trans hrule

/-! ### Changing the notes -/

section

variable (f : α → β)

theorem Primary.children_map (p : Primary α) :
    (p.map f).children = p.children.map (Node.map f) := by
  cases p with
  | bracketed note bracket definitions =>
    simp only [Primary.map, Primary.children, Definition.mapAll_eq, List.map_map]
    rfl
  | identifier => rfl
  | terminal => rfl
  | special => rfl

theorem Factor.children_map (x : Factor α) :
    (x.map f).children = x.children.map (Node.map f) := by
  cases x with
  | primary p => exact p.children_map f
  | repetition note count operand => cases operand <;> rfl

theorem Term.children_map (t : Term α) :
    (t.map f).children = t.children.map (Node.map f) := by
  cases t with
  | factor x => exact x.children_map f
  | exception note base excluded => cases excluded <;> rfl

theorem Node.children_map (n : Node α) :
    (n.map f).children = n.children.map (Node.map f) := by
  match n with
  | .rule r =>
    simp only [Node.map, Rule.map, Node.children, List.map_map]
    rfl
  | .definition (.term t) => exact t.children_map f
  | .definition (.concatenation note first second more) =>
    simp only [Node.map, Definition.map, Node.children, Definition.children, Term.mapAll_eq,
      List.map_cons, List.map_map]
    rfl

end

end Ebnf
