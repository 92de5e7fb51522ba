import Ebnf.Proofs.Position.LineTable
import Ebnf.Reader.Document
import Mathlib.Data.List.TakeWhile

/-!
# Moving over the source

A reader counts the bytes that are left, and `positionAt` recounts lines for them from where
the reading began.  A cursor keeps count while it moves.  The two come to the same as long as
the cursor steps only over bytes that end no line, advances over all others, and is never
between the two bytes of a CR LF pair.
-/

namespace Ebnf

open Byte

/-! ### Counting in parts -/

/-- The bytes are cut elsewhere than between the two bytes of a CR LF pair. -/
def Unsplit (front rest : Bytes) : Prop :=
  front.getLast? = some carriageReturn → rest.head? ≠ some lineFeed

/-- Counting goes on behind any bytes where it has stopped, unless a pair is split there. -/
theorem Position.after_append {options : Options} {front rest : Bytes} (h : Unsplit front rest)
    (position : Position) :
    position.after options (front ++ rest) = (position.after options front).after options rest := by
  fun_induction Position.after options front position with
  | case1 => rfl
  | case2 more position ih =>
    have hmore : Unsplit more rest := by
      intro hlast
      apply h
      rw [List.getLast?_cons, List.getLast?_cons, hlast]
      rfl
    exact ih hmore
  | case3 b more position hpair ih =>
    have hmore : Unsplit more rest := by
      intro hlast
      apply h
      rw [List.getLast?_cons, hlast]
      rfl
    have hfirst : ∀ next, b = carriageReturn → more ++ rest = lineFeed :: next → False := by
      intro next hreturn hnext
      cases more with
      | nil =>
        apply h
        · rw [hreturn]
          rfl
        · rw [List.nil_append] at hnext
          rw [hnext]
          rfl
      | cons c more =>
        injection hnext with hc _
        subst hc
        exact hpair more hreturn rfl
    rw [List.cons_append, Position.after]
    · exact ih hmore
    · exact hfirst

theorem not_isBreak_of_isPrintable (options : Options) {b : UInt8} (h : isPrintable b) :
    options.isBreak b = false := by
  rcases options with ⟨breaks⟩
  simp only [Options.isBreak, endsLine, Bool.or_eq_false_iff, Bool.and_eq_false_imp,
    beq_eq_false_iff_ne]
  refine ⟨⟨?_, ?_⟩, fun _ => ⟨?_, ?_⟩⟩ <;> rintro rfl <;> exact absurd h (by decide)

namespace Cursor

variable {base : Cursor} {input rest bytes : Bytes}

/-! ### The cursor in front of some bytes -/

/-- The cursor moved to where so many bytes are left. -/
def before (base : Cursor) (left : Mark) : Cursor :=
  base.moveTo (base.positionAt left)

/-- The input is what is left of the source at some place that splits no pair. -/
def Reaches (base : Cursor) (input : Bytes) : Prop :=
  ∃ front, base.unread = front ++ input ∧ Unsplit front input

theorem reaches_unread (base : Cursor) : base.Reaches base.unread :=
  ⟨[], rfl, nofun⟩

theorem positionAt_unread (base : Cursor) : base.positionAt base.unread.length = base.position := by
  unfold positionAt
  rw [Nat.sub_self, List.take_zero]
  rfl

theorem before_unread (base : Cursor) : base.before base.unread.length = base := by
  unfold before
  rw [positionAt_unread]
  rfl

/-- From a place on, the cursor moves over the bytes that are read. -/
theorem offset_positionAt (base : Cursor) (place : Mark) :
    (base.positionAt place).offset =
      base.position.offset + (base.unread.length - place) := by
  unfold positionAt
  rw [Position.after_eq_beyond]
  unfold Position.beyond
  rw [List.length_take]
  simp only
  omega

/-- The bytes that are left at a place of their own. -/
theorem unread_before (h : rest <:+ base.unread) : (base.before rest.length).unread = rest := by
  have hdrop := List.suffix_iff_eq_drop.1 h
  unfold Cursor.unread before moveTo
  rw [offset_positionAt, ← List.drop_drop]
  exact hdrop.symm

namespace Reaches

theorem suffix (h : base.Reaches input) : input <:+ base.unread := by
  obtain ⟨front, hfront, -⟩ := h
  exact ⟨front, hfront.symm⟩

theorem unread (h : base.Reaches input) : (base.before input.length).unread = input :=
  unread_before h.suffix

/-- Behind some bytes the count goes on from the place before them. -/
theorem behind (bytes : Bytes) (h : base.Reaches (bytes ++ rest)) (hunsplit : Unsplit bytes rest) :
    base.Reaches rest ∧ base.positionAt rest.length =
      (base.positionAt (bytes ++ rest).length).after base.options bytes := by
  obtain ⟨front, hfront, hcut⟩ := h
  have hbefore : base.unread.take (base.unread.length - (bytes ++ rest).length) = front := by
    rw [hfront, List.length_append, Nat.add_sub_cancel, List.take_left]
  have hbehind : base.unread.take (base.unread.length - rest.length) = front ++ bytes := by
    rw [hfront, ← List.append_assoc, List.length_append, Nat.add_sub_cancel, List.take_left]
  refine ⟨⟨front ++ bytes, by rw [hfront, List.append_assoc], ?_⟩, ?_⟩
  · intro hlast
    cases bytes with
    | nil =>
      rw [List.append_nil] at hlast
      exact hcut hlast
    | cons b bytes =>
      rw [List.getLast?_append_of_ne_nil _ (List.cons_ne_nil b bytes)] at hlast
      exact hunsplit hlast
  · unfold positionAt
    rw [hbefore, hbehind]
    refine Position.after_append ?_ _
    cases bytes with
    | nil => exact nofun
    | cons b bytes => exact hcut

end Reaches

/-! ### Stepping -/

theorem stepOver_eq (word : Bytes) (cursor : Cursor) :
    cursor.stepOver word = cursor.moveTo ⟨cursor.position.offset + word.length,
      cursor.position.line, cursor.position.column + word.length⟩ := by
  induction word generalizing cursor with
  | nil => simp [stepOver, moveTo]
  | cons b word ih =>
    change cursor.step.stepOver word = _
    rw [ih]
    simp only [step, moveTo, Position.step, List.length_cons]
    congr 2 <;> omega

theorem after_printable (options : Options) {bytes : Bytes} (h : ∀ b ∈ bytes, isPrintable b)
    (position : Position) :
    position.after options bytes =
      ⟨position.offset + bytes.length, position.line, position.column + bytes.length⟩ := by
  induction bytes generalizing position with
  | nil => simp [Position.after]
  | cons b bytes ih =>
    obtain ⟨hb, hbytes⟩ := List.forall_mem_cons.1 h
    have hreturn : b ≠ carriageReturn := by
      rintro rfl
      exact absurd hb (by decide)
    rw [Position.after, ih hbytes, Position.pass, not_isBreak_of_isPrintable options hb]
    · simp only [Bool.false_eq_true, if_false, Position.step, List.length_cons]
      congr 1 <;> omega
    · exact fun _ hb _ => hreturn hb

theorem unsplit_of_printable {bytes : Bytes} (h : ∀ b ∈ bytes, isPrintable b) (rest : Bytes) :
    Unsplit bytes rest := by
  intro hlast
  exact absurd (h _ (List.mem_of_getLast? hlast)) (by decide)

namespace Reaches

/-- Steps over printable bytes are counted as steps. -/
theorem stepOver (bytes : Bytes) (h : base.Reaches (bytes ++ rest))
    (hprintable : ∀ b ∈ bytes, isPrintable b) :
    base.Reaches rest ∧
      (base.before (bytes ++ rest).length).stepOver bytes = base.before rest.length := by
  obtain ⟨hrest, hposition⟩ := h.behind bytes (unsplit_of_printable hprintable rest)
  refine ⟨hrest, ?_⟩
  rw [stepOver_eq]
  unfold before
  rw [hposition, after_printable base.options hprintable]
  rfl

theorem step {b : UInt8} (h : base.Reaches (b :: rest)) (hprintable : isPrintable b) :
    base.Reaches rest ∧ (base.before (b :: rest).length).step = base.before rest.length :=
  stepOver [b] h (List.forall_mem_singleton.2 hprintable)

/-- To advance is to pass one byte, or both bytes of a pair. -/
theorem advance {b : UInt8} (h : base.Reaches (b :: rest)) :
    ∃ rest', (rest' = rest ∨ b = carriageReturn ∧ rest = lineFeed :: rest') ∧
      base.Reaches rest' ∧ (base.before (b :: rest).length).advance = base.before rest'.length := by
  have hunread := h.unread
  by_cases hunsplit : Unsplit [b] rest
  · obtain ⟨hrest, hposition⟩ := behind [b] h hunsplit
    refine ⟨rest, .inl rfl, hrest, ?_⟩
    have hpass (position : Position) :
        position.after base.options [b] = position.pass base.options b := by
      rw [Position.after, Position.after]
      exact fun _ _ hnone => nomatch hnone
    have hadvance : (base.before (b :: rest).length).advance =
        (base.before (b :: rest).length).moveTo
          ((base.positionAt (b :: rest).length).pass base.options b) := by
      unfold Cursor.advance
      rw [hunread]
      split
      next hnone => cases hnone
      next hpair =>
        cases hpair
        exact absurd rfl (hunsplit rfl)
      next hfirst =>
        cases hfirst
        rfl
    rw [hadvance, ← hpass]
    exact congrArg base.moveTo hposition.symm
  · obtain ⟨rfl, more, rfl⟩ : b = carriageReturn ∧ ∃ more, rest = lineFeed :: more := by
      simp only [Unsplit, Classical.not_imp, not_not, List.getLast?_singleton, Option.some.injEq,
        List.head?_eq_some_iff] at hunsplit
      exact hunsplit
    obtain ⟨hmore, hposition⟩ := behind [carriageReturn, lineFeed] h nofun
    refine ⟨more, .inr ⟨rfl, rfl⟩, hmore, ?_⟩
    unfold Cursor.advance
    rw [hunread]
    unfold before
    rw [hposition]
    rfl

/-- The same run is taken, on the same line. -/
theorem take? {member : UInt8 → Bool} (h : base.Reaches input)
    (hprintable : ∀ b, member b → isPrintable b) :
    base.Reaches (input.dropWhile member) ∧
      (base.before input.length).take? { member } =
        if (input.takeWhile member).isEmpty then none
        else some (input.takeWhile member, base.before (input.dropWhile member).length) := by
  have hsplit : input.takeWhile member ++ input.dropWhile member = input :=
    List.takeWhile_append_dropWhile
  obtain ⟨hrest, hover⟩ := stepOver _ (hsplit.symm ▸ h) fun b hb =>
    hprintable b (List.mem_takeWhile_imp hb)
  refine ⟨hrest, ?_⟩
  rw [hsplit] at hover
  rw [← hover, stepOver_eq]
  generalize hcursor : base.before input.length = cursor
  have hunread : cursor.source.drop cursor.position.offset = input := by
    rw [← hcursor]
    exact h.unread
  -- Beyond the end nothing is left to be taken.
  have hclamped : cursor.source.drop (min cursor.position.offset cursor.source.length) = input := by
    rw [← hunread, List.drop_eq_drop_iff]
    omega
  unfold Cursor.take?
  simp only [hclamped, Bool.not_false, Bool.and_true]
  cases hempty : (input.takeWhile member).isEmpty with
  | true => rfl
  | false =>
    have hlength : 0 < (input.takeWhile member).length := by
      rw [List.isEmpty_eq_false_iff] at hempty
      exact List.length_pos_iff.2 hempty
    have hinside : cursor.position.offset ≤ cursor.source.length := by
      have hinput := Nat.lt_of_lt_of_le hlength (List.takeWhile_prefix member).length_le
      rw [← hunread, List.length_drop] at hinput
      omega
    have hmoves : (cursor.position.offset + (input.takeWhile member).length ==
        cursor.position.offset) = false := by
      simp only [beq_eq_false_iff_ne]
      omega
    simp only [Nat.min_eq_left hinside, hmoves, Bool.or_false, Bool.false_eq_true, if_false,
      Position.lineStart]
    congr 4
    omega

/-- Advancing over a class of bytes drops them, if it does not part a pair. -/
theorem advanceWhile (member : UInt8 → Bool) (h : base.Reaches input) (hfeed : member lineFeed)
    {rounds : Nat} (hrounds : input.length ≤ rounds) :
    base.Reaches (input.dropWhile member) ∧
      (base.before input.length).advanceWhile member rounds =
        base.before (input.dropWhile member).length := by
  induction rounds generalizing input with
  | zero =>
    obtain rfl := List.length_eq_zero_iff.1 (Nat.le_zero.1 hrounds)
    exact ⟨h, rfl⟩
  | succ rounds ih =>
    unfold Cursor.advanceWhile Cursor.current
    rw [h.unread]
    cases input with
    | nil => exact ⟨h, rfl⟩
    | cons b rest =>
      by_cases hb : member b
      · obtain ⟨rest', hrest, hreach, hadvance⟩ := h.advance
        have hdrop : rest'.dropWhile member = (b :: rest).dropWhile member := by
          rw [List.dropWhile_cons_of_pos hb]
          rcases hrest with rfl | ⟨-, rfl⟩
          · rfl
          · rw [List.dropWhile_cons_of_pos hfeed]
        have hshort : rest'.length ≤ rounds := by
          rcases hrest with rfl | ⟨-, rfl⟩ <;> simp only [List.length_cons] at hrounds <;> omega
        rw [← hdrop]
        simp only [List.head?_cons, Option.any_some, hb, if_true, hadvance]
        exact ih hreach hshort
      · simp only [List.head?_cons, Option.any_some, hb, List.dropWhile_cons]
        exact ⟨h, rfl⟩

end Reaches

end Cursor

end Ebnf
