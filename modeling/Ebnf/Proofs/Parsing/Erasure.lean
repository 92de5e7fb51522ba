import Ebnf.Proofs.Parsing.Comments
import Ebnf.Proofs.Parsing.Concatenation
import Ebnf.Proofs.Spelling.Erasure

/-!
# Comments do not matter for the tree

A document in which any of the comments are overwritten with spaces parses to the same
rules.  Every node begins at the same offset and has the same length, and the comments
that were left out of the overwriting are those that are found.  Lines and columns are
those of the table of the new source, since a comment may have line ends in it.
-/

namespace Ebnf

open Byte Reader

/-- The source with spaces in some stretches, each from an offset up to another. -/
def overwrite (stretches : List (Nat × Nat)) (source : Bytes) : Bytes :=
  source.mapIdx fun i b => if stretches.any fun s => s.1 ≤ i && i < s.2 then space else b

/-- The source with spaces in place of some comments, from `(*` to the `*)` that closes
it. -/
def eraseComments (comments : List (Comment Position)) (source : Bytes) : Bytes :=
  overwrite (comments.map fun k => (k.start.offset, k.stop source)) source

/-- Overwriting byte by byte, with the marks of the stretches. -/
theorem blank_eq_mapIdx (stretches : List (Mark × Mark)) (input : Bytes) :
    blank stretches input = input.mapIdx fun i b =>
      if stretches.any fun s => s.2 + i < input.length && input.length ≤ s.1 + i then space
      else b := by
  induction input with
  | nil => rfl
  | cons b rest ih =>
    rw [blank, ih, List.mapIdx_cons]
    simp only [List.length_cons, Nat.add_zero, Nat.lt_succ_iff, Nat.succ_le_iff,
      ← Nat.add_assoc]

/-- A byte lies between two marks if and only if it lies between their offsets. -/
theorem overwrite_eq_blank (stretches : List (Mark × Mark)) (source : Bytes) :
    overwrite (stretches.map fun s => (source.length - s.1, source.length - s.2)) source =
      blank stretches source := by
  unfold overwrite
  rw [blank_eq_mapIdx, List.mapIdx_eq_mapIdx_iff]
  intro i hi
  have hsame : ∀ start stop : Nat,
      (decide (source.length - start ≤ i) && decide (i < source.length - stop)) =
        (decide (stop + i < source.length) && decide (source.length ≤ start + i)) := by
    intro start stop
    rw [Bool.and_comm]
    congr 1 <;> rw [decide_eq_decide] <;> omega
  simp only [List.any_map, Function.comp_def, hsame]

section

variable {options : Options} {source : Bytes}

theorem eraseComments_eq_blank (comments : List (Comment Mark)) :
    eraseComments (comments.map (Comment.map (Cursor.positionAt { source, options }))) source =
      blank (commentStretches source comments) source := by
  rw [← overwrite_eq_blank]
  unfold eraseComments commentStretches
  rw [List.map_map, List.map_map]
  apply congrArg (overwrite · source)
  apply List.map_congr_left
  intro k _
  simp only [Function.comp, Comment.stop_positionAt]
  simp only [Comment.map, offset_positionAt]

/-- Where a source is as long as another, a place is in it at the same offset. -/
theorem positionAt_sameOffset {source' : Bytes} {place : Mark}
    (hlength : source'.length = source.length) (h : Anchored source' place) :
    Cursor.positionAt { source := source', options } place =
      (Cursor.positionAt { source, options } place).relocate options source' 0 := by
  rw [positionAt_of_anchored options h]
  unfold Position.relocate
  rw [offset_positionAt, hlength, Nat.zero_add]

theorem locate_sameOffset {source' : Bytes} {extent : Extent}
    (hlength : source'.length = source.length) (h : Anchored source' extent.start) :
    Cursor.locate { source := source', options } extent =
      (Cursor.locate { source, options } extent).relocate options source' 0 := by
  unfold Cursor.locate Span.relocate
  rw [positionAt_sameOffset hlength h]

end

/-- With spaces in place of any comments of it a document parses as before: to the same
rules at the same offsets, and to the other comments. -/
theorem parse_eraseComments [Runtime] {options : Options} {source : Bytes}
    {g : Grammar Span Position} (h : parse options source = .ok g) (chosen : Comment Position → Bool) :
    parse options (eraseComments (g.comments.filter chosen) source) =
      .ok ((g.retain fun k => !chosen k).map
        (Span.relocate options (eraseComments (g.comments.filter chosen) source) 0)
        (Position.relocate options (eraseComments (g.comments.filter chosen) source) 0)) := by
  obtain ⟨spelled, hresult, rfl⟩ := parse_eq_ok h
  have hchosen : (spelled.map (Cursor.locate { source, options })
      (Cursor.positionAt { source, options })).comments.filter chosen =
        (spelled.comments.filter fun k =>
          chosen (k.map (Cursor.positionAt { source, options }))).map
            (Comment.map (Cursor.positionAt { source, options })) := List.filter_map
  rw [hchosen, eraseComments_eq_blank]
  have hblank := (spells_of_document hresult).blank
    fun k => chosen (k.map (Cursor.positionAt { source, options }))
  have hlength := blank_length (commentStretches source (spelled.comments.filter
    fun k => chosen (k.map (Cursor.positionAt { source, options })))) source
  generalize blank (commentStretches source _) source = blanked at hblank hlength ⊢
  have hresult' := document_of_spells hblank
  rw [parse_eq, hresult', Grammar.retain_map]
  apply congrArg Except.ok
  rw [Grammar.map_map, Grammar.map_map]
  apply Grammar.map_congr
  · intro n hn
    have hmem := List.mem_map_of_mem (f := Node.map (Extent.map id)) hn
    rw [← Grammar.nodes_map _ id] at hmem
    have hanchored := anchored_nodes hresult' _ hmem
    rw [Node.note_map] at hanchored
    exact locate_sameOffset hlength hanchored
  · intro k hk
    have hmem := List.mem_map_of_mem (f := Comment.map id) hk
    exact positionAt_sameOffset hlength (anchored_comments hresult' _ hmem)

/-- Comments inside a name, behind `(` and between a count and its `*`; the first of them
has a line end in it. -/
def hiddenSource : Bytes :=
  [0x61, 0x28, 0x2A, 0x0A, 0x2A, 0x29, 0x62, 0x3D, 0x28, 0x28, 0x2A, 0x6B, 0x2A, 0x29, 0x2F,
    0x33, 0x28, 0x2A, 0x63, 0x2A, 0x29, 0x2A, 0x27, 0x78, 0x27, 0x29, 0x3B, 0x28, 0x2A, 0x6C,
    0x2A, 0x29]

def hiddenGrammar : Grammar Span Position where
  rules := [⟨⟨⟨0, 0, 0⟩, 27⟩, [0x61, 0x62],
    [.term (.factor (.primary (.bracketed ⟨⟨8, 1, 4⟩, 18⟩ .grouped
      [.term (.factor (.repetition ⟨⟨15, 1, 11⟩, 10⟩ 3
        (some (.terminal ⟨⟨22, 1, 18⟩, 3⟩ [0x78]))))])))]⟩]
  comments := [⟨"", ⟨1, 0, 1⟩⟩, ⟨"k", ⟨9, 1, 5⟩⟩, ⟨"c", ⟨16, 1, 12⟩⟩, ⟨"l", ⟨27, 1, 23⟩⟩]

attribute [local instance] Runtime.usual

/-- With all comments but one overwritten, everything is on one line. -/
theorem parse_hiddenSource : parse {} hiddenSource = .ok hiddenGrammar ∧
    parse {} (eraseComments (hiddenGrammar.comments.filter fun k => k.content != "c")
      hiddenSource) =
      .ok ⟨[⟨⟨⟨0, 0, 0⟩, 27⟩, [0x61, 0x62],
        [.term (.factor (.primary (.bracketed ⟨⟨8, 0, 8⟩, 18⟩ .grouped
          [.term (.factor (.repetition ⟨⟨15, 0, 15⟩, 10⟩ 3
            (some (.terminal ⟨⟨22, 0, 22⟩, 3⟩ [0x78]))))])))]⟩],
        [⟨"c", ⟨16, 0, 16⟩⟩]⟩ := by
  have hparse : parse {} hiddenSource = .ok hiddenGrammar := by decide +kernel
  exact ⟨hparse, (parse_eraseComments hparse fun k => k.content != "c").trans
    (by decide +kernel)⟩

end Ebnf
