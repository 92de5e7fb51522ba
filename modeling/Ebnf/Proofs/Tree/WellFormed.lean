import Ebnf.Proofs.Tree.Notes
import Ebnf.Text.Utf8

/-!
# Well-formed trees

The types of a tree keep the levels of the notation apart: a concatenation has at
least two terms, no exception or repetition is itself excepted or repeated, and no
rule stands inside another.  What they leave open is what names and quoted lexemes
consist of.
-/

namespace Ebnf

open Byte

/-- A letter, and then letters and digits. -/
def IsName (name : Bytes) : Prop :=
  ∃ first more, name = first :: more ∧ isLetter first ∧ ∀ b ∈ more, isWord b

/-- What can stand between two quotes of the same kind. -/
def IsTerminalContent (content : Bytes) : Prop :=
  content ≠ [] ∧ ∃ quote, (quote = apostrophe ∨ quote = quotationMark) ∧
    ∀ b ∈ content, isTerminal quote b

/-- The text of what can stand between two question marks. -/
def IsSpecialContent (content : String) : Prop :=
  ∃ interior : Bytes, questionMark ∉ interior ∧ content = Utf8.text interior.trim

def Primary.HasLexeme : Primary α → Prop
  | .bracketed .. => True
  | .identifier _ name => IsName name
  | .terminal _ content => IsTerminalContent content
  | .special _ content => IsSpecialContent content

/-- The node has a name or a content that can be written, if it has one at all. -/
def Node.HasLexeme : Node α → Prop
  | .rule r => IsName r.name
  | .definition (.term (.factor (.primary p))) => p.HasLexeme
  | .definition _ => True

def Grammar.WellFormed (g : Grammar α μ) : Prop :=
  ∀ n ∈ g.nodes, n.HasLexeme

theorem Node.hasLexeme_map (f : α → β) (n : Node α) : (n.map f).HasLexeme ↔ n.HasLexeme := by
  match n with
  | .rule _ => rfl
  | .definition (.concatenation ..) => rfl
  | .definition (.term (.exception _ _ none)) => rfl
  | .definition (.term (.exception _ _ (some _))) => rfl
  | .definition (.term (.factor (.repetition _ _ none))) => rfl
  | .definition (.term (.factor (.repetition _ _ (some _)))) => rfl
  | .definition (.term (.factor (.primary p))) => cases p <;> rfl

theorem Grammar.wellFormed_map (f : α → β) (g : μ → ν) (grammar : Grammar α μ) :
    (grammar.map f g).WellFormed ↔ grammar.WellFormed := by
  unfold Grammar.WellFormed
  rw [Grammar.nodes_map, List.forall_mem_map]
  simp only [Node.hasLexeme_map]

end Ebnf
