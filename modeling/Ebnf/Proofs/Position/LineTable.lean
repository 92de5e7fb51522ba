import Ebnf.Position
import Mathlib.Data.List.Range

/-!
# Line tables

The lines of a document are a matter of its bytes alone: the table lists the
offsets at which a line terminator ends, and the line and the column of an offset
are looked up there.  Counting while moving over the bytes gives the same position,
wherever it does not stop inside a CR LF pair.
-/

namespace Ebnf

open Byte

/-- Whether a byte with these bytes behind it ends a line.  A CR before LF does not:
the pair ends with the LF. -/
def Options.terminates (options : Options) (b : UInt8) (rest : Bytes) : Bool :=
  b == lineFeed || (b == carriageReturn && rest.head? != some lineFeed) ||
    (options.verticalBreaks && (b == verticalTab || b == formFeed))

/-- Whether a line terminator of the source ends at the offset. -/
def Options.endsLineAt (options : Options) (source : Bytes) (offset : Nat) : Bool :=
  match offset with
  | 0 => false
  | before + 1 =>
    match source.drop before with
    | [] => false
    | b :: rest => options.terminates b rest

/-- The offsets at which the line terminators of the source end. -/
def lineEnds (options : Options) (source : Bytes) : List Nat :=
  (List.range (source.length + 1)).filter (options.endsLineAt source)

/-- The position of an offset according to the line table: as many lines come before
it as terminators end at it or before it, and its column counts from the last of
them. -/
def tablePosition (options : Options) (source : Bytes) (offset : Nat) : Position :=
  let ends := (lineEnds options source).filter (· ≤ offset)
  ⟨offset, ends.length, offset - ends.getLast?.getD 0⟩

/-- The offset lies between the CR and the LF of a pair. -/
def SplitsPair (source : Bytes) (offset : Nat) : Prop :=
  ∃ before rest, source = before ++ carriageReturn :: lineFeed :: rest ∧
    offset = before.length + 1

/-! ### Counting -/

/-- The position behind a number of bytes, given where in them lines end. -/
def Position.beyond (position : Position) (ends : List Nat) (length : Nat) : Position where
  offset := position.offset + length
  line := position.line + ends.length
  column :=
    match ends.getLast? with
    | none => position.column + length
    | some last => length - last

theorem Position.beyond_step (position : Position) (ends : List Nat) (length : Nat) :
    position.step.beyond ends length =
      position.beyond (ends.map (· + 1)) (length + 1) := by
  unfold Position.beyond Position.step
  simp only [List.length_map, List.getLast?_map]
  cases ends.getLast? with
  | none => simp; omega
  | some last => simp; omega

theorem Position.beyond_newLine (position : Position) (ends : List Nat) (length : Nat) :
    position.newLine.beyond ends length =
      position.beyond (1 :: ends.map (· + 1)) (length + 1) := by
  unfold Position.beyond Position.newLine
  simp only [List.length_cons, List.length_map, List.getLast?_cons, List.getLast?_map]
  cases ends.getLast? with
  | none => simp; omega
  | some last => simp; omega

theorem lineEnds_nil (options : Options) : lineEnds options [] = [] := rfl

/-- The lines of what stands behind a byte end one byte further on. -/
theorem lineEnds_cons (options : Options) (b : UInt8) (rest : Bytes) :
    lineEnds options (b :: rest) =
      (if options.terminates b rest then [1] else []) ++
        (lineEnds options rest).map (· + 1) := by
  have hstart : options.endsLineAt (b :: rest) 0 = false := rfl
  have hstart' : options.endsLineAt rest 0 = false := rfl
  have hfirst : options.endsLineAt (b :: rest) 1 = options.terminates b rest := rfl
  have hmore : options.endsLineAt (b :: rest) ∘ Nat.succ ∘ Nat.succ =
      options.endsLineAt rest ∘ Nat.succ := rfl
  unfold lineEnds
  rw [List.length_cons, List.range_succ_eq_map, List.range_succ_eq_map]
  simp only [List.map_cons, List.map_map, List.filter_cons, hstart, hstart', Bool.false_eq_true,
    if_false, List.filter_map, hmore, hfirst]
  split
  · simp [Function.comp_def]
  · simp [Function.comp_def]

/-- A byte that does not stand first in a CR LF pair ends a line by itself or not at
all. -/
theorem isBreak_eq_terminates {options : Options} {b : UInt8} {rest : Bytes}
    (hpair : b = carriageReturn → rest.head? ≠ some lineFeed) :
    options.isBreak b = options.terminates b rest := by
  unfold Options.isBreak Options.terminates endsLine
  by_cases hreturn : b = carriageReturn
  · have hhead : (rest.head? != some lineFeed) = true := by
      simpa using hpair hreturn
    rw [hhead, Bool.and_true]
  · have hb : (b == carriageReturn) = false := by
      simpa using hreturn
    rw [hb, Bool.false_and]

theorem terminates_pair (options : Options) (rest : Bytes) :
    options.terminates carriageReturn (lineFeed :: rest) = false := by
  simp +decide [Options.terminates]

theorem terminates_lineFeed (options : Options) (rest : Bytes) :
    options.terminates lineFeed rest = true := by
  simp [Options.terminates]

theorem Position.after_eq_beyond (options : Options) (bytes : Bytes) (position : Position) :
    position.after options bytes =
      position.beyond (lineEnds options bytes) bytes.length := by
  fun_induction Position.after options bytes position with
  | case1 position =>
    simp [lineEnds_nil, Position.beyond]
  | case2 rest position ih =>
    change position.step.newLine.after options rest =
      position.beyond (lineEnds options (carriageReturn :: lineFeed :: rest)) _
    rw [ih, Position.beyond_newLine, Position.beyond_step, lineEnds_cons, lineEnds_cons,
      terminates_pair, terminates_lineFeed]
    rfl
  | case3 b rest position hpair ih =>
    have hpair : b = carriageReturn → rest.head? ≠ some lineFeed := by
      intro hb hhead
      obtain ⟨more, hmore⟩ := List.head?_eq_some_iff.1 hhead
      exact hpair more hb hmore
    rw [ih, lineEnds_cons, Position.pass, isBreak_eq_terminates hpair]
    by_cases hends : options.terminates b rest
    · rw [if_pos hends, if_pos hends, Position.beyond_newLine]
      rfl
    · rw [if_neg hends, if_neg hends, Position.beyond_step]
      rfl

/-! ### Looking up -/

theorem le_of_mem_lineEnds {options : Options} {source : Bytes} {offset : Nat}
    (h : offset ∈ lineEnds options source) : offset ≤ source.length := by
  unfold lineEnds at h
  rw [List.mem_filter, List.mem_range] at h
  exact Nat.le_of_lt_succ h.1

theorem after_origin (options : Options) (bytes : Bytes) :
    Position.origin.after options bytes = tablePosition options bytes bytes.length := by
  have hall : (lineEnds options bytes).filter (· ≤ bytes.length) = lineEnds options bytes := by
    rw [List.filter_eq_self]
    intro offset hoffset
    simpa using le_of_mem_lineEnds hoffset
  rw [Position.after_eq_beyond]
  unfold tablePosition Position.beyond Position.origin
  simp only [hall, Nat.zero_add, Int.zero_add]
  cases (lineEnds options bytes).getLast? with
  | none => simp
  | some last => simp

/-- Whether the first byte ends a line is the same before an offset that splits no
pair. -/
theorem terminates_take {options : Options} {b : UInt8} {rest : Bytes} {offset : Nat}
    (hsplit : ¬SplitsPair (b :: rest) (offset + 1)) :
    options.terminates b (rest.take offset) = options.terminates b rest := by
  by_cases hreturn : b = carriageReturn
  · subst hreturn
    -- A CR sees the cut only if it comes right before it.
    cases offset with
    | zero =>
      have hclear : (rest.head? != some lineFeed) = true := by
        rw [bne_iff_ne]
        intro hhead
        obtain ⟨more, rfl⟩ := List.head?_eq_some_iff.1 hhead
        exact hsplit ⟨[], more, rfl, rfl⟩
      simp only [Options.terminates, hclear]
      rfl
    | succ offset =>
      cases rest with
      | nil => rfl
      | cons c more => rfl
  · have hb : (b == carriageReturn) = false := by
      simpa using hreturn
    simp only [Options.terminates, hb, Bool.false_and]

/-- Up to an offset outside of all pairs, lines end where they end in the bytes
before it. -/
theorem lineEnds_take {options : Options} {source : Bytes} {offset : Nat}
    (hoffset : offset ≤ source.length) (hsplit : ¬SplitsPair source offset) :
    lineEnds options (source.take offset) =
      (lineEnds options source).filter (· ≤ offset) := by
  induction source generalizing offset with
  | nil => rw [List.take_nil, lineEnds_nil, List.filter_nil]
  | cons b rest ih =>
    cases offset with
    | zero =>
      rw [List.take_zero, lineEnds_nil, eq_comm, List.filter_eq_nil_iff]
      intro offset hends hzero
      obtain rfl : offset = 0 := by simpa using hzero
      unfold lineEnds at hends
      exact absurd (List.mem_filter.1 hends).2 Bool.false_ne_true
    | succ offset =>
      have hrest : ¬SplitsPair rest offset := by
        rintro ⟨before, more, rfl, rfl⟩
        exact hsplit ⟨b :: before, more, rfl, rfl⟩
      have hshift : (fun ends => decide (ends ≤ offset + 1)) ∘ (· + 1) =
          fun ends => decide (ends ≤ offset) := by
        funext ends
        simp
      rw [List.take_succ_cons, lineEnds_cons, lineEnds_cons, terminates_take hsplit,
        ih (by simpa using hoffset) hrest, List.filter_append, List.filter_map, hshift]
      split
      · simp
      · simp

/-- Counting up to an offset gives its position in the line table. -/
theorem after_take {options : Options} {source : Bytes} {offset : Nat}
    (hoffset : offset ≤ source.length) (hsplit : ¬SplitsPair source offset) :
    Position.origin.after options (source.take offset) =
      tablePosition options source offset := by
  have hlength : (source.take offset).length = offset := List.length_take_of_le hoffset
  have hall : (lineEnds options (source.take offset)).filter (· ≤ offset) =
      (lineEnds options source).filter (· ≤ offset) := by
    rw [lineEnds_take hoffset hsplit, List.filter_filter]
    simp only [Bool.and_self]
  rw [after_origin, hlength]
  unfold tablePosition
  rw [hall]

end Ebnf
