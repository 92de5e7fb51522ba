import Ebnf.Proofs.Position.Boundary
import Ebnf.Proofs.Simulation.Document

/-!
# Positions of a parsed document

The cursor of a parse counts lines while it moves, and wherever it comes to its
position is what a recount of the bytes before gives.  The places that a parse hands
out are boundaries, so none of them lies inside a CR LF pair, and the recount gives
the entry of the line table.
-/

namespace Ebnf

open Reader

/-- The position lies in the source, splits no CR LF pair, and has the line and the
column that the line table of the source gives its offset. -/
structure Exact (options : Options) (source : Bytes) (position : Position) : Prop where
  within : position.offset ≤ source.length
  unsplit : ¬SplitsPair source position.offset
  agrees : position = tablePosition options source position.offset

variable (options : Options)

theorem positionAt_eq (source : Bytes) (place : Mark) :
    Cursor.positionAt { source, options } place =
      Position.origin.after options (source.take (source.length - place)) := rfl

theorem positionAt_of_anchored {source : Bytes} {place : Mark} (h : Anchored source place) :
    Cursor.positionAt { source, options } place =
      tablePosition options source (source.length - place) := by
  obtain ⟨rest, hrest, rfl⟩ := h
  rw [positionAt_eq]
  exact after_take (Nat.sub_le _ _) hrest.not_splitsPair

theorem Anchored.exact {source : Bytes} {place : Mark} (h : Anchored source place) :
    Exact options source (Cursor.positionAt { source, options } place) := by
  rw [positionAt_of_anchored options h]
  obtain ⟨rest, hrest, rfl⟩ := h
  exact ⟨Nat.sub_le _ _, hrest.not_splitsPair, rfl⟩

variable [Runtime]

/-- A parse reads the document and locates what comes of it. -/
theorem parse_eq (source : Bytes) :
    parse options source =
      match (document source).result with
      | .error error => .error (error.map (Cursor.positionAt { source, options }))
      | .ok g => .ok (g.map (Cursor.locate { source, options })
          (Cursor.positionAt { source, options })) := by
  rw [parse_eq_result]
  unfold read Cursor.read Reading.map Reading.result
  simp only [Cursor.unread, Position.origin, List.drop_zero]
  cases (document source).failure <;> rfl

variable {options}

omit [Runtime] in
/-- The offset of a place is the number of bytes before it. -/
theorem offset_positionAt {source : Bytes} (place : Mark) :
    (Cursor.positionAt { source, options } place).offset = source.length - place := by
  rw [Cursor.offset_positionAt]
  simp only [Cursor.unread, Position.origin, List.drop_zero, Nat.zero_add]

omit [Runtime] in
theorem start_locate {source : Bytes} (extent : Extent) :
    (Cursor.locate { source, options } extent).start.offset = source.length - extent.start :=
  offset_positionAt _

omit [Runtime] in
/-- Where the source is long enough, a span ends at the offset of its last mark. -/
theorem stop_locate {source : Bytes} {extent : Extent} (hstop : extent.stop ≤ extent.start)
    (hstart : extent.start ≤ source.length) :
    (Cursor.locate { source, options } extent).stop = source.length - extent.stop := by
  unfold Span.stop
  rw [start_locate]
  exact Nat.sub_add_sub_cancel hstart hstop

theorem parse_eq_ok {source : Bytes} {g : Grammar Span Position}
    (h : parse options source = .ok g) :
    ∃ spelled, (document source).result = .ok spelled ∧
      g = spelled.map (Cursor.locate { source, options })
        (Cursor.positionAt { source, options }) := by
  rw [parse_eq] at h
  cases hresult : (document source).result with
  | error error =>
    rw [hresult] at h
    cases h
  | ok spelled =>
    rw [hresult] at h
    cases h
    exact ⟨spelled, rfl, rfl⟩

theorem parse_eq_fault {source : Bytes} {fault : Fault Position}
    (h : parse options source = .error fault) :
    ∃ found, (document source).result = .error found ∧
      fault = found.map (Cursor.positionAt { source, options }) := by
  rw [parse_eq] at h
  cases hresult : (document source).result with
  | error found =>
    rw [hresult] at h
    cases h
    exact ⟨found, rfl, rfl⟩
  | ok spelled =>
    rw [hresult] at h
    cases h

theorem parse_eq_error {source : Bytes} {error : SyntaxError Position}
    (h : parse options source = .error error) :
    ∃ found : SyntaxError Mark, (document source).result = .error found ∧
      error = found.map (Cursor.positionAt { source, options }) := by
  obtain ⟨_ | _, hresult, heq⟩ := parse_eq_fault h
  · cases heq
    exact ⟨_, hresult, rfl⟩
  · cases heq

/-- What is accepted is what is spelled. -/
theorem exists_parse_iff {source : Bytes} :
    (∃ g, parse options source = .ok g) ↔ ∃ spelled, SpellsDocument source spelled := by
  constructor
  · rintro ⟨g, hg⟩
    obtain ⟨spelled, hresult, -⟩ := parse_eq_ok hg
    exact ⟨spelled, spells_of_document hresult⟩
  · rintro ⟨spelled, hspelled⟩
    rw [parse_eq, document_of_spells hspelled]
    exact ⟨_, rfl⟩

/-! ### Anchors -/

theorem anchored_nodes {source : Bytes} {g : Grammar Extent Mark}
    (h : (document source).result = .ok g) :
    ∀ n ∈ g.nodes, Anchored source n.note.start := by
  intro n hn
  have hgrounded := (spells_of_document h).grounded
  exact (hgrounded.nodes n hn).anchored

theorem anchored_comments {source : Bytes} {g : Grammar Extent Mark}
    (h : (document source).result = .ok g) :
    ∀ k ∈ g.comments, Anchored source k.start := by
  intro k hk
  have hgrounded := (spells_of_document h).grounded
  obtain ⟨input, rest, hplace, hcomment⟩ := hgrounded.comments k hk
  exact hcomment.anchored hplace

theorem anchored_error {source : Bytes} {error : SyntaxError Mark}
    (h : (document source).result = .error error) :
    Anchored source error.start ∧ Anchored source error.stop := by
  obtain ⟨site, hsite, hdefect⟩ := (failure_of_document h).defect
  exact ⟨hdefect.anchored_start.of_suffix hsite, hdefect.anchored_stop.of_suffix hsite⟩

/-- The digits of a count end with a digit. -/
theorem anchored_refusal {source : Bytes} {digits : Nat} {stop : Mark}
    (h : (document source).result = .error (.refusal digits stop)) : Anchored source stop := by
  obtain ⟨-⟩ | ⟨@⟨before, run, rest, hsource, hdigits, hlong⟩⟩ := halts_of_document h
  have hnonempty : run ≠ [] := by
    rintro rfl
    exact hlong Runtime.converts_zero
  refine ⟨rest, ⟨before ++ run, ?_, fun _ => ⟨run.getLast hnonempty, ?_, ?_⟩⟩, rfl⟩
  · rw [hsource, List.append_assoc]
  · rw [List.getLast?_append_of_ne_nil _ hnonempty, List.getLast?_eq_getLast_of_ne_nil hnonempty]
  · intro hreturn
    have hdigit := hdigits _ (List.getLast_mem hnonempty)
    rw [hreturn] at hdigit
    exact absurd hdigit (by decide)

/-- Every position that a parse hands out is exact: those of the nodes and of the
comments when it succeeds, and both ends of the error when it fails. -/
theorem parse_positions_exact (options : Options) (source : Bytes) :
    match parse options source with
    | .ok g => (∀ n ∈ g.nodes, Exact options source n.note.start) ∧
        ∀ k ∈ g.comments, Exact options source k.start
    | .error (.syntaxError error) =>
        Exact options source error.start ∧ Exact options source error.stop
    | .error (.refusal _ stop) => Exact options source stop := by
  cases hparse : parse options source with
  | ok g =>
    obtain ⟨spelled, hresult, rfl⟩ := parse_eq_ok hparse
    constructor
    · rw [Grammar.nodes_map, List.forall_mem_map]
      intro n hn
      rw [Node.note_map]
      exact (anchored_nodes hresult n hn).exact options
    · rw [Grammar.map, List.forall_mem_map]
      intro k hk
      exact (anchored_comments hresult k hk).exact options
  | error fault =>
    cases fault with
    | syntaxError error =>
      obtain ⟨found, hresult, rfl⟩ := parse_eq_error hparse
      obtain ⟨hstart, hstop⟩ := anchored_error hresult
      exact ⟨hstart.exact options, hstop.exact options⟩
    | refusal digits stop =>
      obtain ⟨_ | ⟨_, place⟩, hresult, heq⟩ := parse_eq_fault hparse
      · cases heq
      · cases heq
        exact (anchored_refusal hresult).exact options

end Ebnf
