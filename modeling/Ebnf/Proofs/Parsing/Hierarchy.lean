import Ebnf.Proofs.Parsing.Framing
import Ebnf.Proofs.Tree.Hierarchy

/-!
# The hierarchy of spans

The lengths of nodes are worked out in several ways, and often only after trivia behind
the node has been passed over.  Together they nevertheless form a hierarchy: the span of a
node lies in the spans of the nodes above it and of no others, no two spans are the same,
and children follow one another with a gap.  A walk therefore goes through the document
from left to right.  What a span takes up begins and ends with symbols of its node, so
that whitespace and comments at the ends are never counted.
-/

namespace Ebnf

open Byte Reader

/-- The spans of a parsed document nest as its nodes do, and the walk goes through them in
order. -/
structure Hierarchy (source : Bytes) (g : Grammar Span Position) : Prop where
  rules : g.rules.Pairwise fun r r' => r.note.stop ≤ r'.note.start.offset
  proper : ∀ n ∈ g.nodes, 0 < n.note.length
  below_iff : ∀ m ∈ g.nodes, ∀ n ∈ g.nodes, m.Below n ↔ m.note.Inside n.note
  /-- No two nodes share a span. -/
  distinct : (g.nodes.map fun n => (n.note.start.offset, n.note.stop)).Nodup
  /-- No two nodes overlap in a part. -/
  nested : ∀ m ∈ g.nodes, ∀ n ∈ g.nodes, m ≠ n → m.Below n ∨ n.Below m ∨
    m.note.stop ≤ n.note.start.offset ∨ n.note.stop ≤ m.note.start.offset
  siblings : ∀ n ∈ g.nodes,
    n.children.Pairwise fun c c' => c.note.stop < c'.note.start.offset
  ordered : g.nodes.Pairwise fun a b => a.note.start.offset ≤ b.note.start.offset
  /-- A walk goes in order, once to the node where it starts and to each node below it. -/
  walk : ∀ n ∈ g.nodes, n.nodes.Nodup ∧ (∀ m, m ∈ n.nodes ↔ m = n ∨ m.Below n) ∧
    n.nodes.Pairwise fun a b => a.note.start.offset ≤ b.note.start.offset
  framed : ∀ n ∈ g.nodes, n.Framed (n.note.slice source)
  /-- No node ends with whitespace. -/
  unblank : ∀ n ∈ g.nodes, ∃ b, (n.note.slice source).getLast? = some b ∧ ¬isBlank b
  /-- No node ends in a comment or with one. -/
  uncommented : ∀ n ∈ g.nodes, ∀ k ∈ g.comments,
    k.start.offset < n.note.stop → k.stop source < n.note.stop

section

variable (options : Options) {source : Bytes}

theorem Extent.Inside.located {inner outer : Extent} (h : inner.Inside outer.start outer.stop)
    (hne : inner ≠ outer) (hstart : outer.start ≤ source.length) :
    (Cursor.locate { source, options } inner).Inside
      (Cursor.locate { source, options } outer) := by
  obtain ⟨hentry, hproper, hleft⟩ := h
  have hproper' := Nat.le_trans hleft (Nat.le_trans (Nat.le_of_lt hproper) hentry)
  constructor
  · rw [start_locate, start_locate]
    exact Nat.sub_le_sub_left hentry _
  · rw [stop_locate (Nat.le_of_lt hproper) (Nat.le_trans hentry hstart),
      stop_locate hproper' hstart]
    exact Nat.sub_le_sub_left hleft _
  · have hnarrow : inner.start ≠ outer.start ∨ inner.stop ≠ outer.stop := by
      by_contra hsame
      rw [not_or, not_not, not_not] at hsame
      exact hne (congrArg₂ Extent.mk hsame.1 hsame.2)
    have hsmaller : ∀ a b c d : Nat, a ≤ c → b < a → d ≤ b → a ≠ c ∨ b ≠ d →
        a - b < c - d := by omega
    exact hsmaller _ _ _ _ hentry hproper hleft hnarrow

theorem Node.Parted.spaced {n : Node Extent} (h : n.Parted)
    (hstart : n.note.start ≤ source.length) :
    (n.map (Cursor.locate { source, options })).Spaced := by
  obtain ⟨hproper, ⟨-, hinside, hapart⟩, hsmaller⟩ := h
  rw [List.forall_mem_map] at hinside
  rw [List.pairwise_map] at hapart
  constructor
  · rw [Node.note_map]
    exact Nat.sub_pos_of_lt hproper
  · rw [Node.children_map, List.forall_mem_map]
    intro c hc
    rw [Node.note_map, Node.note_map]
    exact (hinside c hc).located options (hsmaller c hc) hstart
  · rw [Node.children_map, List.pairwise_map]
    apply hapart.imp_of_mem
    intro c c' hc hc' hless
    have hentry := Nat.le_trans (hinside c hc).entry hstart
    have hproper' := (hinside c hc).proper
    rw [Node.note_map, Node.note_map, stop_locate (Nat.le_of_lt hproper') hentry, start_locate]
    exact Nat.sub_lt_sub_left (Nat.lt_of_lt_of_le (Nat.lt_trans hless hproper') hentry) hless

theorem Node.EndsClear.located {n : Node Extent} {comments : List (Comment Mark)}
    (h : n.EndsClear source comments) (hstart : n.note.start ≤ source.length) :
    ∀ k ∈ comments,
      (k.map (Cursor.positionAt { source, options })).start.offset <
          (Cursor.locate { source, options } n.note).stop →
        (k.map (Cursor.positionAt { source, options })).stop source <
          (Cursor.locate { source, options } n.note).stop := by
  obtain ⟨hproper, hclosed⟩ := h
  rw [stop_locate (Nat.le_of_lt hproper) hstart]
  intro k hk hbegins
  rw [Comment.stop_positionAt]
  simp only [Comment.map, offset_positionAt] at hbegins
  have hless := Nat.lt_of_not_le fun hle =>
    Nat.not_le_of_lt hbegins (Nat.sub_le_sub_left hle _)
  exact Nat.sub_lt_sub_left (Nat.lt_of_lt_of_le hproper hstart) (hclosed k hk hless)

theorem SpellsDocument.spaced [Runtime] {g : Grammar Extent Mark} (h : SpellsDocument source g) :
    (g.map (Cursor.locate { source, options })
      (Cursor.positionAt { source, options })).Spaced where
  rules := by
    rw [Grammar.map, List.pairwise_map]
    apply h.rules_ordered.imp_of_mem
    intro r r' hr _ hordered
    have hn := Grammar.mem_nodes_of_mem_rules hr
    have hstop : r.note.stop ≤ r.note.start := (h.grounded.nodes _ hn).stop_le_start
    have hstart : r.note.start ≤ source.length := (h.laid.nodesWithin _ hn).1
    change (Cursor.locate { source, options } r.note).stop ≤
      (Cursor.locate { source, options } r'.note).start.offset
    rw [stop_locate hstop hstart, start_locate]
    exact Nat.sub_le_sub_left hordered _
  nodes := by
    rw [Grammar.nodes_map, List.forall_mem_map]
    intro n hn
    obtain ⟨-, hnode⟩ := h.grounded.nodes n hn
    exact hnode.parted.spaced options (h.laid.nodesWithin n hn).1

theorem SpellsNode.framed [Runtime] {n : Node Extent} (h : SpellsNode source n) {span : Span}
    (hspan : span = Cursor.locate { source, options } n.note) :
    (n.map (Cursor.locate { source, options })).Framed (span.slice source) ∧
      ∃ b, (span.slice source).getLast? = some b ∧ ¬isBlank b := by
  obtain ⟨hplace, hnode⟩ := h
  obtain ⟨before, hsource⟩ := hplace
  have hplace : _ <:+ source := ⟨before, hsource⟩
  obtain ⟨front, rfl⟩ := hnode.suffix
  obtain ⟨front', b, hlast, hb⟩ := (hnode.finished hplace).last
  rw [hspan, (slice_locate options hsource hnode.note).1]
  exact ⟨hnode.framed options rfl hplace, b, getLast?_of_suffix rfl ⟨front', hlast.symm⟩, hb⟩

end

/-- The spans of every parsed document form a hierarchy. -/
theorem parse_hierarchy [Runtime] {options : Options} {source : Bytes} {g : Grammar Span Position}
    (h : parse options source = .ok g) : Hierarchy source g := by
  obtain ⟨spelled, hresult, rfl⟩ := parse_eq_ok h
  have hspelled := spells_of_document hresult
  have hspaced := hspelled.spaced options
  have hbytes : ∀ n ∈ spelled.nodes, _ := fun n hn =>
    (hspelled.grounded.nodes n hn).framed options (Node.note_map _ n)
  constructor
  case rules => exact hspaced.rules
  case proper => exact fun n hn => (hspaced.nodes n hn).proper
  case below_iff => exact fun m hm n hn => hspaced.below_iff hm hn
  case distinct => exact hspaced.spans_nodup
  case nested => exact fun m hm n hn hne => hspaced.nested_or_apart hm hn hne
  case siblings => exact fun n hn => (hspaced.nodes n hn).apart
  case ordered => exact hspaced.starts_ordered
  case walk =>
    intro n hn
    have hwalk := Grammar.nodes_sublist hn
    exact ⟨hspaced.nodup.sublist hwalk, fun m => Node.mem_nodes_iff,
      hspaced.starts_ordered.sublist hwalk⟩
  case framed =>
    rw [Grammar.nodes_map, List.forall_mem_map]
    exact fun n hn => (hbytes n hn).1
  case unblank =>
    rw [Grammar.nodes_map, List.forall_mem_map]
    exact fun n hn => (hbytes n hn).2
  case uncommented =>
    rw [Grammar.nodes_map, List.forall_mem_map]
    intro n hn
    rw [Grammar.map, List.forall_mem_map, Node.note_map]
    exact (hspelled.endsClear n hn).located options (hspelled.laid.nodesWithin n hn).1

/-- Two rules.  In the first one, trivia and commas stand behind several nodes, and an exception
excludes nothing. -/
def nestedSource : Bytes :=
  [0x61, 0x20, 0x62, 0x3D, 0x32, 0x2A, 0x5B, 0x63, 0x28, 0x2A, 0x6B, 0x2A, 0x29, 0x7C, 0x27, 0x64,
    0x27, 0x2C, 0x5D, 0x28, 0x2A, 0x6C, 0x2A, 0x29, 0x2D, 0x2C, 0x28, 0x65, 0x20, 0x2D, 0x20,
    0x66, 0x20, 0x28, 0x2A, 0x6D, 0x2A, 0x29, 0x29, 0x20, 0x2C, 0x20, 0x3B, 0x67, 0x3D, 0x3B]

attribute [local instance] Runtime.usual

theorem hierarchy_nestedSource : ∃ g, parse {} nestedSource = .ok g ∧
    Hierarchy nestedSource g ∧
    (g.nodes.map fun n => (n.note.start.offset, n.note.stop)) =
      [(0, 43), (4, 39), (4, 25), (4, 19), (6, 19), (7, 8), (14, 17), (26, 39), (27, 32),
        (27, 28), (31, 32), (43, 46)] := by
  have hsome : ((parse {} nestedSource).toOption.map fun g =>
      g.nodes.map fun n => (n.note.start.offset, n.note.stop)) =
        some [(0, 43), (4, 39), (4, 25), (4, 19), (6, 19), (7, 8), (14, 17), (26, 39), (27, 32),
          (27, 28), (31, 32), (43, 46)] := by decide +kernel
  cases hparse : parse {} nestedSource with
  | error error => simp [hparse, Except.toOption] at hsome
  | ok g =>
    rw [hparse] at hsome
    exact ⟨g, rfl, parse_hierarchy hparse, Option.some.inj hsome⟩

end Ebnf
