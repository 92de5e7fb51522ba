import Ebnf.Position
import Ebnf.Proofs.Tree.Children
import Mathlib.Data.List.Nodup
import Mathlib.Data.List.Pairwise

/-!
# Spans that nest as the nodes do

Of each node by itself it is enough to know that its children lie in it, that none of them
takes up all of it, and that there is something between any two.  When this holds of every
node of a document, and no rule reaches into the next one, then the spans tell how the
nodes are nested: one node is below another one if and only if its span lies in that of the
other.  The walk never goes back in the document, because a node either is above the nodes
that come later or ends before they begin.
-/

namespace Ebnf

/-- A span lies in another one and does not take up all of it. -/
structure Span.Inside (inner outer : Span) : Prop where
  start : outer.start.offset ≤ inner.start.offset
  stop : inner.stop ≤ outer.stop
  smaller : inner.length < outer.length

theorem Span.Inside.trans {inner middle outer : Span} (h : inner.Inside middle)
    (h' : middle.Inside outer) : inner.Inside outer where
  start := Nat.le_trans h'.start h.start
  stop := Nat.le_trans h.stop h'.stop
  smaller := Nat.lt_trans h.smaller h'.smaller

/-- A node is not empty, and its children lie in it with something between any two. -/
structure Node.Spaced (n : Node Span) : Prop where
  proper : 0 < n.note.length
  inside : ∀ c ∈ n.children, c.note.Inside n.note
  apart : n.children.Pairwise fun c c' => c.note.stop < c'.note.start.offset

/-- A node is above another one or ends before the other begins. -/
def Node.Precedes (n m : Node Span) : Prop :=
  m.Below n ∨ n.note.stop ≤ m.note.start.offset

section

variable {n m : Node Span} (h : ∀ a ∈ n.nodes, a.Spaced)

include h

theorem Node.Below.inside (hbelow : m.Below n) : m.note.Inside n.note := by
  induction hbelow with
  | single hc => exact (h _ (Node.mem_nodes_self _)).inside _ hc
  | tail _ hc ih =>
    have hchild := (h _ (Node.mem_nodes_self _)).inside _ hc
    have hspaced := ih fun a ha => h a ((Node.sublist_child hc).subset ha)
    exact hspaced.trans hchild

theorem Node.within_of_mem (hm : m ∈ n.nodes) :
    n.note.start.offset ≤ m.note.start.offset ∧ m.note.stop ≤ n.note.stop := by
  rcases Node.mem_nodes_iff.1 hm with rfl | hbelow
  · exact ⟨Nat.le_refl _, Nat.le_refl _⟩
  · exact ⟨(hbelow.inside h).start, (hbelow.inside h).stop⟩

omit h in
theorem Node.precedes_of_mem {a b : Node Span} (hn : ∀ a ∈ n.nodes, a.Spaced)
    (hm : ∀ a ∈ m.nodes, a.Spaced) (happart : n.note.stop ≤ m.note.start.offset)
    (ha : a ∈ n.nodes) (hb : b ∈ m.nodes) : a.Precedes b := by
  have hstop := (Node.within_of_mem hn ha).2
  have hstart := (Node.within_of_mem hm hb).1
  exact .inr (Nat.le_trans hstop (Nat.le_trans happart hstart))

/-- On the walk from a node, those that come later are below or behind. -/
theorem Node.pairwise_precedes : n.nodes.Pairwise Node.Precedes := by
  induction n using Node.induction_children with
  | h n ih =>
    have hself := h n n.mem_nodes_self
    have hchild : ∀ c ∈ n.children, ∀ a ∈ c.nodes, a.Spaced := by
      intro c hc a ha
      exact h a ((Node.sublist_child hc).subset ha)
    rw [n.nodes_eq, List.pairwise_cons, List.pairwise_flatMap]
    refine ⟨?_, fun c hc => ih c hc (hchild c hc), ?_⟩
    · intro b hb
      obtain ⟨c, hc, hb⟩ := List.mem_flatMap.1 hb
      rcases Node.mem_nodes_iff.1 hb with rfl | hbelow
      · exact .inl (.single hc)
      · exact .inl (.tail hbelow hc)
    · apply hself.apart.imp_of_mem
      intro c c' hc hc' hapart a ha b hb
      exact Node.precedes_of_mem (hchild c hc) (hchild c' hc') (Nat.le_of_lt hapart) ha hb

end

/-- Every node of a document is spaced, and no rule reaches into the next one. -/
structure Grammar.Spaced (g : Grammar Span μ) : Prop where
  rules : g.rules.Pairwise fun r r' => r.note.stop ≤ r'.note.start.offset
  nodes : ∀ n ∈ g.nodes, n.Spaced

namespace Grammar.Spaced

variable {g : Grammar Span μ} (h : g.Spaced) {n m : Node Span}

include h

theorem nodes_of_mem (hn : n ∈ g.nodes) : ∀ a ∈ n.nodes, a.Spaced := by
  intro a ha
  exact h.nodes a ((Grammar.nodes_sublist hn).subset ha)

theorem precedes : g.nodes.Pairwise Node.Precedes := by
  have hrule : ∀ r ∈ g.rules, ∀ a ∈ Node.nodes (.rule r), a.Spaced := by
    intro r hr
    exact h.nodes_of_mem (Grammar.mem_nodes_of_mem_rules hr)
  unfold Grammar.nodes
  rw [List.pairwise_flatMap]
  refine ⟨fun r hr => Node.pairwise_precedes (hrule r hr), ?_⟩
  apply h.rules.imp_of_mem
  intro r r' hr hr' hapart a ha b hb
  exact Node.precedes_of_mem (hrule r hr) (hrule r' hr') hapart ha hb

theorem starts_ordered :
    g.nodes.Pairwise fun a b => a.note.start.offset ≤ b.note.start.offset := by
  apply h.precedes.imp_of_mem
  rintro a b ha - (hbelow | hbehind)
  · exact (hbelow.inside (h.nodes_of_mem ha)).start
  · exact Nat.le_trans (Nat.le_add_right _ _) hbehind

theorem spans_nodup :
    (g.nodes.map fun n => (n.note.start.offset, n.note.stop)).Nodup := by
  rw [List.Nodup, List.pairwise_map]
  apply h.precedes.imp_of_mem
  intro a b ha hb hprecedes heq
  obtain ⟨hstart, hstop⟩ := Prod.mk.inj heq
  unfold Span.stop at hstop
  rcases hprecedes with hbelow | hbehind
  · have hsmaller := (hbelow.inside (h.nodes_of_mem ha)).smaller
    omega
  · have hproper := (h.nodes a ha).proper
    unfold Span.stop at hbehind
    omega

theorem nodup : g.nodes.Nodup :=
  List.Nodup.of_map _ h.spans_nodup

/-- Of two nodes, one is below the other, or one ends before the other begins. -/
theorem nested_or_apart (hm : m ∈ g.nodes) (hn : n ∈ g.nodes) (hne : m ≠ n) :
    m.Below n ∨ n.Below m ∨ m.note.stop ≤ n.note.start.offset ∨
      n.note.stop ≤ m.note.start.offset := by
  have hsymmetric : Std.Symm fun a b : Node Span => a.Precedes b ∨ b.Precedes a :=
    ⟨fun _ _ => Or.symm⟩
  have heither : g.nodes.Pairwise fun a b => a.Precedes b ∨ b.Precedes a :=
    h.precedes.imp .inl
  rcases heither.forall hm hn hne with (hbelow | hbehind) | (hbelow | hbehind)
  · exact .inr (.inl hbelow)
  · exact .inr (.inr (.inl hbehind))
  · exact .inl hbelow
  · exact .inr (.inr (.inr hbehind))

theorem below_iff (hm : m ∈ g.nodes) (hn : n ∈ g.nodes) :
    m.Below n ↔ m.note.Inside n.note := by
  refine ⟨fun hbelow => hbelow.inside (h.nodes_of_mem hn), ?_⟩
  intro hinside
  have hproper := (h.nodes m hm).proper
  obtain ⟨hstart, hstop, hsmaller⟩ := hinside
  have hne : m ≠ n := by
    rintro rfl
    exact Nat.lt_irrefl _ hsmaller
  rcases h.nested_or_apart hm hn hne with hbelow | hbelow | hbehind | hbehind
  · exact hbelow
  · have habove := (hbelow.inside (h.nodes_of_mem hm)).smaller
    exact absurd habove (Nat.lt_asymm hsmaller)
  · unfold Span.stop at hbehind
    omega
  · unfold Span.stop at hstop hbehind
    omega

end Grammar.Spaced

end Ebnf
