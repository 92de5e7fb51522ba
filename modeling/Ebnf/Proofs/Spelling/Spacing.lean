import Ebnf.Proofs.Reading.Spans
import Ebnf.Proofs.Spelling.Ending
import Ebnf.Proofs.Tree.Children

/-!
# How the children of a node lie in it

The children of a node lie in it one behind the other, and between any two there is at
least the symbol that separates them.  No child takes up all of its node, since either the
node has a symbol of its own at one of its ends or there is another child.
-/

namespace Ebnf

open Byte

/-! ### Slots and chains -/

section

variable {input rest : Bytes} {comments : List (Comment Mark)}

theorem SpellsChain.spread {note : α → Extent} {slot : Spelling (Option α)}
    {separator : Bytes → Bytes → Prop} {values : List α}
    (hslot : ∀ {input value comments rest}, slot input value comments rest →
      Spread input.length rest.length (value.toList.map note))
    (hseparator : ∀ {input rest}, separator input rest → rest.length < input.length)
    (h : SpellsChain slot separator input values comments rest) :
    Spread input.length rest.length (values.map note) := by
  induction h with
  | last hvalue => exact hslot hvalue
  | more hvalue hnext _ ih =>
    rw [List.map_append]
    exact (hslot hvalue).append (hseparator hnext) ih

theorem SpellsComma.shorter (h : SpellsComma input rest) : rest.length < input.length := by
  cases h
  exact Nat.lt_succ_self _

theorem SpellsSeparator.shorter (h : SpellsSeparator input rest) :
    rest.length < input.length := by
  cases h
  exact Nat.lt_succ_self _

variable [Runtime]

theorem SpellsWhole.shorter {n : Node Extent} (h : SpellsWhole input n comments rest) :
    rest.length < input.length :=
  (h.finished (List.suffix_refl _)).shorter

theorem SpellsWhole.inside {n : Node Extent} (h : SpellsWhole input n comments rest) :
    n.note.Inside input.length rest.length := by
  rw [h.note]
  exact ⟨Nat.le_refl _, h.shorter, Nat.le_refl _⟩

theorem SpellsSlot.spread {t : Option (Term Extent)}
    (h : SpellsSlot SpellsTerm input t comments rest) :
    Spread input.length rest.length (t.toList.map Term.note) := by
  cases h with
  | empty htrivia => exact .nil htrivia.suffix.length_le
  | filled hbefore hterm hafter =>
    exact .singleton (hterm.whole.inside.mono hbefore.suffix.length_le hafter.suffix.length_le)

theorem SpellsChain.spread_terms {terms : List (Term Extent)}
    (h : SpellsChain (SpellsSlot SpellsTerm) SpellsComma input terms comments rest) :
    Spread input.length rest.length (terms.map Term.note) :=
  h.spread SpellsSlot.spread SpellsComma.shorter

theorem SpellsDefinition.spread {d : Option (Definition Extent)}
    (h : SpellsDefinition input d comments rest) :
    Spread input.length rest.length (d.toList.map Definition.note) := by
  cases h with
  | nothing hterms => exact hterms.spread_terms
  | term hterms => exact hterms.spread_terms
  | concatenation hterms => exact .singleton hterms.spread_terms.concatenation

theorem SpellsDefinitions.spread {definitions : List (Definition Extent)}
    (h : SpellsDefinitions input definitions comments rest) :
    Spread input.length rest.length ((definitions.map Node.definition).map Node.note) := by
  obtain ⟨hdefinitions⟩ := h
  rw [List.map_map]
  exact hdefinitions.spread SpellsDefinition.spread SpellsSeparator.shorter

end

/-! ### Nodes -/

/-- A node is not empty, and its children are spread over it, each over less than all. -/
structure Node.Parted (n : Node Extent) : Prop where
  proper : n.note.stop < n.note.start
  spread : Spread n.note.start n.note.stop (n.children.map Node.note)
  smaller : ∀ c ∈ n.children, c.note ≠ n.note

namespace Node.Parted

variable {n : Node Extent}

theorem leaf (hproper : n.note.stop < n.note.start) (hchildren : n.children = []) :
    n.Parted where
  proper := hproper
  spread := by
    rw [hchildren]
    exact .nil (Nat.le_of_lt hproper)
  smaller := by simp [hchildren]

/-- A node has a byte of its own before its children or behind them. -/
theorem bordered {entry left : Mark} (h : Spread entry left (n.children.map Node.note))
    (hentry : entry ≤ n.note.start) (hleft : n.note.stop ≤ left)
    (hborder : entry < n.note.start ∨ n.note.stop < left) : n.Parted where
  proper := by
    rcases hborder with hborder | hborder
    · exact Nat.lt_of_le_of_lt (Nat.le_trans hleft h.le) hborder
    · exact Nat.lt_of_lt_of_le hborder (Nat.le_trans h.le hentry)
  spread := h.mono hentry hleft
  smaller := by
    intro c hc heq
    obtain ⟨hbegins, -, hends⟩ := h.inside _ (List.mem_map_of_mem hc)
    rw [heq] at hbegins hends
    rcases hborder with hborder | hborder
    · exact Nat.not_lt.2 hbegins hborder
    · exact Nat.not_lt.2 hends hborder

theorem several {first second : Node Extent} {more : List (Node Extent)}
    (hchildren : n.children = first :: second :: more)
    (h : Spread n.note.start n.note.stop (n.children.map Node.note)) : n.Parted := by
  have hnotMem := h
  rw [hchildren] at hnotMem
  have hnotMem := hnotMem.notMem_of_several
  have hfirst := h.inside first.note (by simp [hchildren])
  refine ⟨?_, h, ?_⟩
  · exact Nat.lt_of_le_of_lt hfirst.left (Nat.lt_of_lt_of_le hfirst.proper hfirst.entry)
  · intro c hc heq
    have hmem := List.mem_map_of_mem (f := Node.note) hc
    rw [heq, hchildren] at hmem
    exact hnotMem hmem

end Node.Parted

section

variable {input rest : Bytes} {comments : List (Comment Mark)}

variable [Runtime]

theorem SpellsPrimary.parted {p : Primary Extent} (h : SpellsPrimary input p comments rest) :
    (Node.ofPrimary p).Parted := by
  have hshorter := h.whole.shorter
  cases h with
  | bracketed _ hcloser _ hdefinitions =>
    obtain ⟨front, b, rfl, -⟩ := Bracket.closer_eq hcloser
    have hcloses : rest.length < (front ++ [b] ++ rest).length := by
      simp only [List.length_append, List.length_singleton]
      omega
    exact .bordered hdefinitions.spread (List.suffix_append _ _).length_le
      (Nat.le_of_lt hcloses) (.inr hcloses)
  | identifier => exact .leaf hshorter rfl
  | terminal => exact .leaf hshorter rfl
  | special => exact .leaf hshorter rfl

theorem SpellsFactor.parted {x : Factor Extent} (h : SpellsFactor input x comments rest) :
    (Node.ofFactor x).Parted := by
  have hshorter := h.whole.shorter
  cases h with
  | primary hprimary => exact hprimary.parted
  | repetition => exact .leaf hshorter rfl
  | @repetitionOf digits _ _ _ _ _ _ _ _ _ _ hbefore hafter hoperand =>
    have hless := Nat.lt_of_le_of_lt hafter.suffix.length_le hbefore.suffix.length_le
    have hbegins := Nat.lt_of_lt_of_le hless (List.suffix_append digits _).length_le
    exact .bordered (.singleton hoperand.whole.inside) (Nat.le_of_lt hbegins) (Nat.le_refl _)
      (.inl hbegins)

theorem SpellsTerm.parted {t : Term Extent} (h : SpellsTerm input t comments rest) :
    (Node.ofTerm t).Parted := by
  cases h with
  | factor hfactor => exact hfactor.parted
  | exception hbase htrivia =>
    have hends := htrivia.suffix.length_le
    exact .bordered (.singleton hbase.whole.inside) (Nat.le_refl _) (Nat.le_of_lt hends)
      (.inr hends)
  | exceptionOf hbase hbefore hafter hexcluded =>
    have hspread := (Spread.singleton hbase.whole.inside).append
      (Nat.lt_of_le_of_lt hafter.suffix.length_le hbefore.suffix.length_le)
      (.singleton hexcluded.whole.inside)
    exact .several rfl hspread

/-- A term that takes up everything has no trivia around it. -/
theorem SpellsChain.exact_term {t : Term Extent}
    (h : SpellsChain (SpellsSlot SpellsTerm) SpellsComma input [t] comments rest)
    (hnote : t.note = ⟨input.length, rest.length⟩) :
    ∃ comments', SpellsTerm input t comments' rest := by
  obtain ⟨start, comments', stop, hstart, hterm⟩ := h.spelled_terms t List.mem_cons_self
  obtain ⟨hbegins, hends⟩ := Extent.mk.inj (hterm.note.symm.trans hnote)
  obtain rfl := hstart.eq_of_length hbegins
  have hstop := List.suffix_of_suffix_length_le hterm.suffix h.suffix_terms (Nat.le_of_eq hends)
  obtain rfl := hstop.eq_of_length hends
  exact ⟨comments', hterm⟩

theorem SpellsWhole.exact_primary {p : Primary Extent}
    (h : SpellsWhole input (.ofPrimary p) comments rest) :
    ∃ comments', SpellsPrimary input p comments' rest := by
  cases h with
  | definition hdefinition hnote =>
    cases hdefinition with
    | term hterms =>
      obtain ⟨comments', hterm⟩ := hterms.exact_term hnote
      cases hterm with
      | factor hfactor =>
        cases hfactor with
        | primary hprimary => exact ⟨comments', hprimary⟩

theorem SpellsWhole.parted {n : Node Extent} (h : SpellsWhole input n comments rest) :
    n.Parted := by
  cases h with
  | rule hrule =>
    obtain ⟨hname, htrivia, hdefinitions⟩ := hrule
    have hbody := htrivia.suffix.trans hname.suffix
    exact .bordered hdefinitions.spread (Nat.le_of_lt hbody.length_le) (Nat.le_succ _)
      (.inr (Nat.lt_succ_self _))
  | definition hdefinition hnote =>
    cases hdefinition with
    | term hterms =>
      obtain ⟨_, hterm⟩ := hterms.exact_term hnote
      exact hterm.parted
    | concatenation hterms =>
      apply Node.Parted.several rfl
      rw [Node.note, hnote, Node.children, Definition.children, List.map_map]
      exact hterms.spread_terms

end

variable [Runtime]

/-- No rule of a document reaches into the next one. -/
theorem SpellsDocument.rules_ordered {source : Bytes} {g : Grammar Extent Mark}
    (h : SpellsDocument source g) :
    g.rules.Pairwise fun r r' => r'.note.start ≤ r.note.stop := by
  induction h with
  | trivia => exact .nil
  | rule _ hrule hmore ih =>
    refine List.pairwise_cons.2 ⟨?_, ih⟩
    intro r' hr'
    rw [hrule.note]
    exact (hmore.laid.nodesWithin _ (Grammar.mem_nodes_of_mem_rules hr')).1

end Ebnf
