import Ebnf.Proofs.Position.LineTable

/-!
# Lines around an offset

The line of an offset begins where the last terminator ends that ends not behind the
offset, so no CR and no LF stands between the two: the terminator that such a byte belongs
to would end further on.  Without vertical breaks the bytes from there up to the next CR or
LF are a whole line of the source.
-/

namespace Ebnf

open Byte

/-- Where the line of an offset begins, by the line table. -/
def lineBegin (options : Options) (source : Bytes) (offset : Nat) : Nat :=
  ((lineEnds options source).filter (· ≤ offset)).getLast?.getD 0

/-- Where the bytes of the line of an offset end, as they are shown: at the next CR or LF,
or at the end of the source. -/
def lineStop (source : Bytes) (offset : Nat) : Nat :=
  offset + (source.drop offset).findIdx endsLine

/-- A terminator stands right before the offset: LF, or CR that is not the first half of a
pair. -/
def BehindTerminator (source : Bytes) (offset : Nat) : Prop :=
  ∃ before b rest, source = before ++ b :: rest ∧ offset = before.length + 1 ∧
    endsLine b ∧ (b = carriageReturn → rest.head? ≠ some lineFeed)

/-- The bytes between two offsets are a line of the source: none of them is CR or LF, and
on either side there is a terminator or nothing at all. -/
structure IsLine (source : Bytes) (start stop : Nat) : Prop where
  clear : ∀ b ∈ (source.take stop).drop start, ¬endsLine b
  begins : start = 0 ∨ BehindTerminator source start
  ends : stop = source.length ∨ ∃ b, source[stop]? = some b ∧ endsLine b

variable {options : Options} {source : Bytes} {offset : Nat}

/-! ### Terminators -/

theorem isBlank_of_endsLine {b : UInt8} (h : endsLine b) : isBlank b := by
  simp only [endsLine, Bool.or_eq_true, beq_iff_eq] at h
  rcases h with rfl | rfl <;> decide

theorem isBlank_of_terminates {b : UInt8} {rest : Bytes} (h : options.terminates b rest) :
    isBlank b := by
  simp only [Options.terminates, Bool.or_eq_true, Bool.and_eq_true, beq_iff_eq] at h
  rcases h with (rfl | ⟨rfl, -⟩) | ⟨-, rfl | rfl⟩ <;> decide

/-! ### Where a line begins -/

theorem lineBegin_eq_zero_or_mem :
    lineBegin options source offset = 0 ∨
      lineBegin options source offset ∈ lineEnds options source := by
  unfold lineBegin
  cases hlast : ((lineEnds options source).filter (· ≤ offset)).getLast? with
  | none => exact .inl rfl
  | some last => exact .inr (List.mem_filter.1 (List.mem_of_getLast? hlast)).1

theorem lineBegin_le : lineBegin options source offset ≤ offset := by
  unfold lineBegin
  cases hlast : ((lineEnds options source).filter (· ≤ offset)).getLast? with
  | none => exact Nat.zero_le _
  | some last => simpa using (List.mem_filter.1 (List.mem_of_getLast? hlast)).2

/-- The line of an offset begins at the last line end that is not behind it. -/
theorem le_lineBegin {place : Nat} (hmem : place ∈ lineEnds options source)
    (hle : place ≤ offset) : place ≤ lineBegin options source offset := by
  have hkept : place ∈ (lineEnds options source).filter (· ≤ offset) := by
    rw [List.mem_filter]
    exact ⟨hmem, by simpa using hle⟩
  have hsorted : ((lineEnds options source).filter (· ≤ offset)).Pairwise (· < ·) :=
    (List.pairwise_lt_range.filter _).filter _
  unfold lineBegin
  cases hlast : ((lineEnds options source).filter (· ≤ offset)).getLast? with
  | none =>
    rw [List.getLast?_eq_none_iff] at hlast
    rw [hlast] at hkept
    cases hkept
  | some last =>
    obtain ⟨front, hfront⟩ := List.getLast?_eq_some_iff.1 hlast
    rw [hfront] at hkept hsorted
    rcases List.mem_append.1 hkept with hbefore | hsame
    · exact Nat.le_of_lt
        ((List.pairwise_append.1 hsorted).2.2 place hbefore last (List.mem_singleton_self _))
    · exact Nat.le_of_eq (List.mem_singleton.1 hsame)

/-- The column counts from where the line begins. -/
theorem lineStart_tablePosition (options : Options) (source : Bytes) (offset : Nat) :
    (tablePosition options source offset).lineStart = lineBegin options source offset := by
  unfold Position.lineStart tablePosition lineBegin
  simp only [Int.sub_sub_self]

theorem column_tablePosition (options : Options) (source : Bytes) (offset : Nat) :
    (tablePosition options source offset).column =
      ↑(offset - lineBegin options source offset) := by
  have hle : lineBegin options source offset ≤ offset := lineBegin_le
  rw [Int.ofNat_sub hle]
  rfl

theorem mem_lineEnds (before : Bytes) {rest : Bytes} {b : UInt8}
    (hends : options.terminates b rest) :
    before.length + 1 ∈ lineEnds options (before ++ b :: rest) := by
  unfold lineEnds
  rw [List.mem_filter, List.mem_range]
  refine ⟨by simp, ?_⟩
  simpa only [Options.endsLineAt, List.drop_left] using hends

/-- Between the beginning of its line and an offset there is no CR and no LF. -/
theorem not_endsLine_of_lineBegin_le (hsplit : ¬SplitsPair source offset) {i : Nat} {b : UInt8}
    (hbegin : lineBegin options source offset ≤ i) (hi : i < offset)
    (hb : source[i]? = some b) : ¬endsLine b := by
  intro hends
  obtain ⟨hlength, rfl⟩ := List.getElem?_eq_some_iff.1 hb
  have hsource : source = source.take i ++ source[i] :: source.drop (i + 1) := by
    rw [← List.drop_eq_getElem_cons, List.take_append_drop]
  have hbefore : (source.take i).length = i := List.length_take_of_le (Nat.le_of_lt hlength)
  -- The terminator that the byte belongs to ends behind it or behind the byte after it.
  by_cases hpair : source[i] = carriageReturn ∧ (source.drop (i + 1)).head? = some lineFeed
  · obtain ⟨hreturn, hfeed⟩ := hpair
    obtain ⟨rest, hrest⟩ := List.head?_eq_some_iff.1 hfeed
    rw [hreturn, hrest] at hsource
    have hproper : i + 1 < offset := by
      rcases Nat.lt_or_eq_of_le (Nat.succ_le_of_lt hi) with hlt | heq
      · exact hlt
      · exact (hsplit ⟨source.take i, rest, hsource, by rw [hbefore, ← heq]⟩).elim
    have hmem : i + 2 ∈ lineEnds options source := by
      have hfeed := mem_lineEnds (source.take i ++ [carriageReturn])
        (terminates_lineFeed options rest)
      rw [List.append_assoc, List.singleton_append, ← hsource] at hfeed
      simpa [hbefore] using hfeed
    have hle := le_lineBegin hmem hproper
    omega
  · have hterminates : options.terminates source[i] (source.drop (i + 1)) := by
      rw [← isBreak_eq_terminates (fun hreturn hfeed => hpair ⟨hreturn, hfeed⟩)]
      simp [Options.isBreak, hends]
    have hmem := mem_lineEnds (source.take i) hterminates
    rw [← hsource, hbefore] at hmem
    have hle := le_lineBegin hmem (Nat.succ_le_of_lt hi)
    omega

theorem exists_of_mem_lineEnds (hmem : offset ∈ lineEnds options source) :
    ∃ before b rest, source = before ++ b :: rest ∧ offset = before.length + 1 ∧
      options.terminates b rest := by
  have hends := (List.mem_filter.1 hmem).2
  cases offset with
  | zero => cases hends
  | succ before =>
    unfold Options.endsLineAt at hends
    simp only at hends
    cases hdrop : source.drop before with
    | nil =>
      rw [hdrop] at hends
      cases hends
    | cons b rest =>
      rw [hdrop] at hends
      have hlength : before < source.length := by
        rw [← Nat.sub_pos_iff_lt, ← List.length_drop, hdrop]
        exact Nat.succ_pos _
      refine ⟨source.take before, b, rest, ?_, ?_, hends⟩
      · rw [← hdrop, List.take_append_drop]
      · rw [List.length_take_of_le (Nat.le_of_lt hlength)]

/-- Without vertical breaks a line begins behind CR or LF. -/
theorem behindTerminator_of_mem (hplain : options.verticalBreaks = false)
    (hmem : offset ∈ lineEnds options source) : BehindTerminator source offset := by
  obtain ⟨before, b, rest, hsource, hoffset, hends⟩ := exists_of_mem_lineEnds hmem
  simp only [Options.terminates, hplain, Bool.false_and, Bool.or_false, Bool.or_eq_true,
    Bool.and_eq_true, beq_iff_eq, bne_iff_ne] at hends
  refine ⟨before, b, rest, hsource, hoffset, ?_⟩
  rcases hends with rfl | ⟨rfl, hhead⟩
  · exact ⟨by decide, fun h => absurd h (by decide)⟩
  · exact ⟨by decide, fun _ => hhead⟩

/-! ### Where it ends -/

theorem le_lineStop : offset ≤ lineStop source offset := Nat.le_add_right _ _

theorem lt_lineStop {b : UInt8} (hb : source[offset]? = some b) (hclear : ¬endsLine b) :
    offset < lineStop source offset := by
  obtain ⟨hlength, rfl⟩ := List.getElem?_eq_some_iff.1 hb
  unfold lineStop
  rw [List.drop_eq_getElem_cons hlength, List.findIdx_cons, Bool.eq_false_iff.2 hclear]
  exact Nat.lt_add_of_pos_right (Nat.succ_pos _)

theorem lineStop_le (hoffset : offset ≤ source.length) :
    lineStop source offset ≤ source.length := by
  have hle : (source.drop offset).findIdx endsLine ≤ source.length - offset := by
    rw [← List.length_drop]
    exact List.findIdx_le_length
  unfold lineStop
  omega

theorem not_endsLine_of_lt_lineStop {i : Nat} {b : UInt8} (hi : offset ≤ i)
    (hstop : i < lineStop source offset) (hb : source[i]? = some b) : ¬endsLine b := by
  obtain ⟨more, rfl⟩ := Nat.exists_eq_add_of_le hi
  rw [← List.getElem?_drop] at hb
  obtain ⟨hlength, rfl⟩ := List.getElem?_eq_some_iff.1 hb
  rw [List.not_of_lt_findIdx (Nat.lt_of_add_lt_add_left hstop)]
  exact Bool.false_ne_true

theorem lineStop_ends (hoffset : offset ≤ source.length) :
    lineStop source offset = source.length ∨
      ∃ b, source[lineStop source offset]? = some b ∧ endsLine b := by
  rcases Nat.lt_or_ge ((source.drop offset).findIdx endsLine) (source.drop offset).length
    with hfound | hnone
  · right
    refine ⟨_, ?_, List.findIdx_getElem (w := hfound)⟩
    unfold lineStop
    rw [← List.getElem?_drop, List.getElem?_eq_getElem hfound]
  · left
    rw [List.length_drop] at hnone
    have hle := lineStop_le hoffset
    unfold lineStop at hle ⊢
    omega

/-! ### The bytes of a line -/

theorem not_endsLine_of_mem_line (hsplit : ¬SplitsPair source offset) :
    ∀ b ∈ (source.take (lineStop source offset)).drop (lineBegin options source offset),
      ¬endsLine b := by
  intro b hb
  obtain ⟨i, hi⟩ := List.mem_iff_getElem?.1 hb
  rw [List.getElem?_drop, List.getElem?_take] at hi
  split at hi
  · rename_i hstop
    rcases Nat.lt_or_ge (lineBegin options source offset + i) offset with hbefore | hbehind
    · exact not_endsLine_of_lineBegin_le hsplit (Nat.le_add_right _ _) hbefore hi
    · exact not_endsLine_of_lt_lineStop hbehind hstop hi
  · cases hi

/-- From the beginning of a line on, its bytes come first, and then a byte that ends it or
nothing. -/
theorem takeWhile_line (hoffset : offset ≤ source.length) (hsplit : ¬SplitsPair source offset) :
    (source.drop (lineBegin options source offset)).takeWhile (fun b => !endsLine b) =
      (source.take (lineStop source offset)).drop (lineBegin options source offset) := by
  have hlength : (source.take (lineStop source offset)).length = lineStop source offset :=
    List.length_take_of_le (lineStop_le hoffset)
  have hle : lineBegin options source offset ≤ (source.take (lineStop source offset)).length := by
    rw [hlength]
    exact lineBegin_le.trans le_lineStop
  have hdrop : source.drop (lineBegin options source offset) =
      (source.take (lineStop source offset)).drop (lineBegin options source offset) ++
        source.drop (lineStop source offset) := by
    rw [← List.drop_append_of_le_length hle, List.take_append_drop]
  have hbehind :
      (source.drop (lineStop source offset)).takeWhile (fun b => !endsLine b) = [] := by
    rcases lineStop_ends hoffset with hend | ⟨b, hb, hends⟩
    · rw [hend, List.drop_length, List.takeWhile_nil]
    · obtain ⟨hbound, rfl⟩ := List.getElem?_eq_some_iff.1 hb
      rw [List.drop_eq_getElem_cons hbound, List.takeWhile_cons_of_neg (by simpa using hends)]
  have hclear : ∀ b ∈
      (source.take (lineStop source offset)).drop (lineBegin options source offset),
      (!endsLine b) = true := by
    intro b hb
    simpa using not_endsLine_of_mem_line hsplit b hb
  rw [hdrop, List.takeWhile_append_of_pos hclear, hbehind, List.append_nil]

theorem isLine (hplain : options.verticalBreaks = false) (hoffset : offset ≤ source.length)
    (hsplit : ¬SplitsPair source offset) :
    IsLine source (lineBegin options source offset) (lineStop source offset) where
  clear := not_endsLine_of_mem_line hsplit
  begins := lineBegin_eq_zero_or_mem.imp_right (behindTerminator_of_mem hplain)
  ends := lineStop_ends hoffset

end Ebnf
