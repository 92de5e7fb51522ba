import Ebnf.Proofs.Parsing.Positions
import Ebnf.Proofs.Spelling.Comments
import Ebnf.Tree.Equality

/-!
# The comments of a parsed document

Comments are picked up wherever a reader passes over trivia, which it does between any
two symbols, inside names, and on ways that it goes back on.  What a parse has collected
in the end is nevertheless what one pass over the bytes finds, a pass that knows nothing
of rules: each outermost comment once, in order, and nothing that stands between quotes.
-/

namespace Ebnf

open Byte Reader

/-- The comments that one pass over the bytes finds, at their places in the source. -/
def lexedComments (options : Options) (source : Bytes) : List (Comment Position) :=
  (lexComments source).map
    (Comment.map fun place => tablePosition options source (source.length - place))

/-- The offset behind the `*)` that closes a comment of the source. -/
def Comment.stop (source : Bytes) (k : Comment Position) : Nat :=
  source.length - (behindComment 1 (source.drop (k.start.offset + 2))).length

theorem Node.construct_map (f : α → β) (n : Node α) : (n.map f).construct = n.construct := by
  match n with
  | .rule _ => rfl
  | .definition (.concatenation ..) => rfl
  | .definition (.term (.exception _ _ none)) => rfl
  | .definition (.term (.exception _ _ (some _))) => rfl
  | .definition (.term (.factor (.repetition _ _ none))) => rfl
  | .definition (.term (.factor (.repetition _ _ (some _)))) => rfl
  | .definition (.term (.factor (.primary p))) => cases p <;> rfl

theorem Node.isQuoted_map (f : α → β) (n : Node α) : (n.map f).IsQuoted ↔ n.IsQuoted := by
  unfold Node.IsQuoted
  rw [Node.construct_map]

section

variable {options : Options} {source : Bytes}

theorem Comment.stop_positionAt (k : Comment Mark) :
    (k.map (Cursor.positionAt { source, options })).stop source =
      source.length - commentEnd source k.start := by
  unfold Comment.stop Comment.map commentEnd
  simp only [offset_positionAt]

variable [Runtime]

/-- What a parse has collected is what one pass over the bytes finds. -/
theorem lexedComments_of_document {spelled : Grammar Extent Mark}
    (h : (document source).result = .ok spelled) :
    lexedComments options source =
      spelled.comments.map (Comment.map (Cursor.positionAt { source, options })) := by
  unfold lexedComments
  rw [(spells_of_document h).lexed]
  apply List.map_congr_left
  intro k hk
  unfold Comment.map
  rw [positionAt_of_anchored options (anchored_comments h k hk)]

theorem SpellsNode.stop_le_start {source : Bytes} {n : Node Extent} (h : SpellsNode source n) :
    n.note.stop ≤ n.note.start := by
  obtain ⟨-, hnode⟩ := h
  rw [hnode.note]
  exact hnode.suffix.length_le

/-- The comments of a parse are those that one pass over the bytes finds.  They lie one
behind the other, and none of them overlaps a quoted lexeme. -/
theorem parse_comments_lexed {options : Options} {source : Bytes} {g : Grammar Span Position}
    (h : parse options source = .ok g) :
    g.comments = lexedComments options source ∧
      (∀ k ∈ g.comments, k.start.offset < k.stop source) ∧
      (g.comments.Pairwise fun k k' =>
        k.start.offset < k'.start.offset ∧ k.stop source ≤ k'.start.offset) ∧
      ∀ n ∈ g.nodes, n.IsQuoted → ∀ k ∈ g.comments,
        k.stop source ≤ n.note.start.offset ∨ n.note.stop ≤ k.start.offset := by
  obtain ⟨spelled, hresult, rfl⟩ := parse_eq_ok h
  have hspelled := spells_of_document hresult
  have hlaid := hspelled.laid
  have hproper : ∀ k ∈ spelled.comments,
      (k.map (Cursor.positionAt { source, options })).start.offset <
        (k.map (Cursor.positionAt { source, options })).stop source := by
    intro k hk
    obtain ⟨-, hproper, hstart⟩ := hlaid.commentsWithin k hk
    rw [Comment.stop_positionAt]
    simp only [Comment.map, offset_positionAt]
    exact Nat.sub_lt_sub_left (Nat.lt_of_lt_of_le hproper hstart) hproper
  refine ⟨(lexedComments_of_document hresult).symm, ?_, ?_, ?_⟩
  · rw [Grammar.map, List.forall_mem_map]
    exact hproper
  · rw [Grammar.map, List.pairwise_map]
    apply hlaid.ordered.imp_of_mem
    intro k k' hk _ hordered
    have hdisjoint : (k.map (Cursor.positionAt { source, options })).stop source ≤
        (k'.map (Cursor.positionAt { source, options })).start.offset := by
      rw [Comment.stop_positionAt]
      simp only [Comment.map, offset_positionAt]
      exact Nat.sub_le_sub_left hordered _
    exact ⟨Nat.lt_of_lt_of_le (hproper k hk) hdisjoint, hdisjoint⟩
  · rw [Grammar.nodes_map, List.forall_mem_map]
    intro n hn hquoted
    rw [Node.isQuoted_map] at hquoted
    have hstop := (hspelled.grounded.nodes n hn).stop_le_start
    have hstart := (hlaid.nodesWithin n hn).1
    rw [Grammar.map, List.forall_mem_map, Node.note_map]
    intro k hk
    rw [Comment.stop_positionAt, start_locate, stop_locate hstop hstart]
    simp only [Comment.map, offset_positionAt]
    rcases hlaid.apart n hn hquoted k hk with hbefore | hbehind
    · exact .inl (Nat.sub_le_sub_left hbefore _)
    · exact .inr (Nat.sub_le_sub_left hbehind _)

/-- Comments inside a name, behind `(/`, `*` and `?`, nested ones, and openers that stand
in a terminal string and in special sequences. -/
def commentedSource : Bytes :=
  [0x61, 0x28, 0x2A, 0x31, 0x2A, 0x29, 0x62, 0x3D, 0x28, 0x2F, 0x28, 0x2A, 0x32, 0x2A, 0x29,
    0x27, 0x28, 0x2A, 0x27, 0x2C, 0x28, 0x2A, 0x33, 0x2A, 0x29, 0x2F, 0x29, 0x7C, 0x33, 0x28,
    0x2A, 0x34, 0x28, 0x2A, 0x35, 0x2A, 0x29, 0x2A, 0x29, 0x2A, 0x28, 0x2A, 0x36, 0x2A, 0x29,
    0x3F, 0x2A, 0x29, 0x28, 0x2A, 0x3F, 0x3B, 0x28, 0x2A, 0x37, 0x2A, 0x29]

end

section

attribute [local instance] Runtime.usual

theorem comments_commentedSource : ∃ g, parse {} commentedSource = .ok g ∧
    (g.comments = lexedComments {} commentedSource ∧
      (∀ k ∈ g.comments, k.start.offset < k.stop commentedSource) ∧
      (g.comments.Pairwise fun k k' =>
        k.start.offset < k'.start.offset ∧ k.stop commentedSource ≤ k'.start.offset) ∧
      ∀ n ∈ g.nodes, n.IsQuoted → ∀ k ∈ g.comments,
        k.stop commentedSource ≤ n.note.start.offset ∨ n.note.stop ≤ k.start.offset) ∧
    g.comments.map Comment.content = ["1", "2", "3", "4(*5*)", "6", "7"] := by
  have hsome : ((parse {} commentedSource).toOption.map
      fun g => g.comments.map Comment.content) =
        some ["1", "2", "3", "4(*5*)", "6", "7"] := by decide +kernel
  cases hparse : parse {} commentedSource with
  | error error => simp [hparse, Except.toOption] at hsome
  | ok g =>
    rw [hparse] at hsome
    exact ⟨g, rfl, parse_comments_lexed hparse, Option.some.inj hsome⟩

end

end Ebnf
