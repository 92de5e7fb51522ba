import Ebnf.Proofs.Parsing.Truncation

/-!
# The trace of a parse

The lines of a trace are true of the document also when the parse fails.  The rules that have a
line by then are spelled by the bytes before the rule that fails, and these bytes are a document
by themselves: a rule is read in the same way whatever comes behind its terminator.  In the
other direction, a document at the front of the source has its rules read first, so none that is
completed goes without a line.
-/

namespace Ebnf

open Reader

variable {options : Options}

/-! ### Rules in front of a failure -/

section

variable [Runtime]

/-- The document has nothing behind its last rule, or nothing at all. -/
def EndsAtRule (input : Bytes) (g : Grammar Extent Mark) : Prop :=
  (g.rules = [] ∧ input = []) ∨ ∃ last, g.rules.getLast? = some last ∧ last.note.stop = 0

/-- A rule in front of such a document, with other bytes behind it. -/
theorem EndsAtRule.rule {input start front site : Bytes} {rule : Rule Extent}
    {g : Grammar Extent Mark} {comments₁ comments₂ : List (Comment Mark)}
    (h : EndsAtRule front g) (hdocument : SpellsDocument front g)
    (htrivia : SpellsTrivia input comments₁ start)
    (hrule : SpellsRule start rule comments₂ (front ++ site)) :
    ∃ front' g', input = front' ++ site ∧ SpellsDocument front' g' ∧ EndsAtRule front' g' := by
  -- The rule and the trivia before it are spelled by their own bytes.
  obtain ⟨bytes, rfl, halone⟩ := hrule.replace (Moves.sub front site)
  rw [← List.append_assoc] at htrivia
  obtain ⟨before, rfl, hbefore⟩ := htrivia.replace (Moves.sub (bytes ++ front) site)
  refine ⟨before ++ (bytes ++ front), _, (List.append_assoc ..).symm,
    .rule hbefore halone hdocument, ?_⟩
  rcases h with ⟨hnone, rfl⟩ | ⟨last, hlast, hstop⟩
  · exact .inr ⟨_, by rw [hnone]; rfl, congrArg Extent.stop halone.note⟩
  · exact .inr ⟨last, by rw [List.getLast?_cons, hlast]; rfl, hstop⟩

end

attribute [local instance] Runtime.usual

end Ebnf
