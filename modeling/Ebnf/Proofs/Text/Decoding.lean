import Ebnf.Text.Utf8
import Mathlib.Data.List.DropRight

/-!
# Decoding text in parts

The decoder remembers the character that has been begun, so the two parts of a text that is
cut in the middle of a character are decoded to something else than the whole.  Next to an
ASCII byte this cannot happen: an ASCII byte ends any character, begun or not, and is a
character by itself.  For the same reason whitespace can be left out before decoding as
well as after, and the bytes of a text are decoded to its characters.
-/

namespace Ebnf

open Byte

/-- The six characters that count as whitespace. -/
def isBlankChar (c : Char) : Bool :=
  c == ' ' || c == '\t' || c == '\n' || c == '\x0b' || c == '\x0c' || c == '\r'

/-- Leaves out the whitespace at both ends. -/
def strip (chars : List Char) : List Char :=
  ((chars.dropWhile isBlankChar).reverse.dropWhile isBlankChar).reverse

namespace Utf8

/-- The characters that a stretch completes, and what it leaves open. -/
def State.feedAll (state : State) : Bytes → List Char × State
  | [] => ([], state)
  | b :: rest =>
    ((state.feed b).1 ++ ((state.feed b).2.feedAll rest).1, ((state.feed b).2.feedAll rest).2)

/-- A character that has been begun goes on with a byte that is not ASCII, and will not be
ASCII itself. -/
def State.Sound : State → Prop
  | between => True
  | inside 0 low _ bits => 0x80 ≤ low ∧ 2 ≤ bits
  | inside (_ + 1) low _ bits => 0x80 ≤ low ∧ 2 ≤ 64 * bits + (low.toNat - 0x80)

/-! ### Single bytes -/

theorem isBlankChar_ofNat_ascii {b : UInt8} (h : b < 0x80) :
    isBlankChar (Char.ofNat b.toNat) = isBlank b := by
  have hall : ∀ n < 0x80, isBlankChar (Char.ofNat n) = isBlank (UInt8.ofNat n) := by decide
  have hb := hall b.toNat (UInt8.lt_iff_toNat_lt.1 h)
  rwa [UInt8.ofNat_toNat] at hb

theorem not_isBlankChar_ofNat {n : Nat} (h : 0x80 ≤ n) : ¬isBlankChar (Char.ofNat n) := by
  by_cases hvalid : n.isValidChar
  · have hcode : (Char.ofNat n).toNat = n := by
      rw [Char.ofNat, dif_pos hvalid]
      rfl
    intro hblank
    simp only [isBlankChar, Bool.or_eq_true, beq_iff_eq] at hblank
    rcases hblank with ((((hc | hc) | hc) | hc) | hc) | hc <;> rw [hc] at hcode <;>
      subst hcode <;> exact absurd h (by decide)
  · rw [Char.ofNat, dif_neg hvalid]
    decide

theorem isBlank_lt_ascii {b : UInt8} (h : isBlank b) : b < 0x80 := by
  simp only [isBlank, Bool.or_eq_true, Bool.and_eq_true, beq_iff_eq, decide_eq_true_eq] at h
  grind

theorem sound_between : State.between.Sound := trivial

/-- The bits of a first byte are enough for a character beyond ASCII, or its bounds on the
byte after it see to that. -/
theorem sound_begin (b : UInt8) : (State.begin b).2.Sound := by
  have hge : ∀ {low : UInt8}, ¬b < low → low.toNat ≤ b.toNat := fun h =>
    UInt8.le_iff_toNat_le.1 (UInt8.not_lt.1 h)
  have hne : ∀ {other : UInt8}, ¬b = other → b.toNat ≠ other.toNat := fun h heq =>
    h (UInt8.toNat_inj.1 heq)
  fun_cases State.begin b with
  | case1 | case2 | case10 => trivial
  | case4 | case5 | case7 | case9 => exact ⟨by decide, by decide⟩
  | case3 _ hlow _ =>
    have htwo : 0xC2 ≤ b.toNat := hge hlow
    exact ⟨UInt8.le_refl _, by omega⟩
  | case6 _ _ hlow hzero _ _ =>
    have hthree : 0xE0 ≤ b.toNat := hge hlow
    have hsome : b.toNat ≠ 0xE0 := hne hzero
    exact ⟨UInt8.le_refl _, by omega⟩
  | case8 _ _ _ _ _ hlow hzero _ =>
    have hfour : 0xF0 ≤ b.toNat := hge hlow
    have hsome : b.toNat ≠ 0xF0 := hne hzero
    exact ⟨UInt8.le_refl _, by omega⟩

namespace State

variable {low high b : UInt8} {bits : Nat}

theorem feed_last (h : low ≤ b ∧ b ≤ high) :
    (inside 0 low high bits).feed b =
      ([Char.ofNat (64 * bits + (b.toNat - 0x80))], .between) := by
  rw [feed, if_pos h]

theorem feed_more (h : low ≤ b ∧ b ≤ high) (further : Nat) :
    (inside (further + 1) low high bits).feed b =
      ([], .inside further 0x80 0xBF (64 * bits + (b.toNat - 0x80))) := by
  rw [feed, if_pos h]

theorem feed_other (h : ¬(low ≤ b ∧ b ≤ high)) (further : Nat) :
    (inside further low high bits).feed b = (replacement :: (begin b).1, (begin b).2) := by
  simp only [feed, if_neg h]

theorem Sound.feed {state : State} (h : state.Sound) (b : UInt8) : (state.feed b).2.Sound := by
  match state, h with
  | between, _ => exact sound_begin b
  | inside further low high bits, h =>
    by_cases hrange : low ≤ b ∧ b ≤ high
    · match further, h with
      | 0, _ =>
        rw [feed_last hrange]
        trivial
      | 1, ⟨_, hbits⟩ =>
        have hlow := UInt8.le_iff_toNat_le.1 hrange.1
        rw [feed_more hrange]
        exact ⟨UInt8.le_refl _, by omega⟩
      | further + 2, ⟨_, hbits⟩ =>
        have hlow := UInt8.le_iff_toNat_le.1 hrange.1
        rw [feed_more hrange]
        exact ⟨UInt8.le_refl _, by omega⟩
    · rw [feed_other hrange]
      exact sound_begin b

theorem Sound.low_le {further : Nat} (h : (inside further low high bits).Sound) : 0x80 ≤ low := by
  cases further <;> exact h.1

/-- An ASCII byte ends what has been begun, and is a character. -/
theorem Sound.feed_ascii {state : State} (h : state.Sound) (hb : b < 0x80) :
    state.feed b = (state.finish ++ [Char.ofNat b.toNat], .between) := by
  have hbegin : State.begin b = ([Char.ofNat b.toNat], .between) := by
    rw [State.begin, if_pos hb]
  cases state with
  | between => exact hbegin
  | inside further low high bits =>
    have hout : ¬(low ≤ b ∧ b ≤ high) := fun hrange =>
      UInt8.not_lt.2 (UInt8.le_trans h.low_le hrange.1) hb
    rw [feed_other hout, hbegin]
    rfl

end State

/-! ### Whole stretches -/

theorem decodeFrom_append (state : State) (front back : Bytes) :
    decodeFrom state (front ++ back) =
      (state.feedAll front).1 ++ decodeFrom (state.feedAll front).2 back := by
  induction front generalizing state with
  | nil => rfl
  | cons b rest ih =>
    simp only [List.cons_append, decodeFrom, State.feedAll, ih, List.append_assoc]

theorem State.Sound.feedAll {state : State} (h : state.Sound) (bytes : Bytes) :
    (state.feedAll bytes).2.Sound := by
  induction bytes generalizing state with
  | nil => exact h
  | cons b rest ih => exact ih (h.feed b)

theorem decode_cons (b : UInt8) (rest : Bytes) :
    decode (b :: rest) = (State.begin b).1 ++ decodeFrom (State.begin b).2 rest := rfl

theorem decode_cons_ascii {b : UInt8} (hb : b < 0x80) (rest : Bytes) :
    decode (b :: rest) = Char.ofNat b.toNat :: decode rest := by
  have hfeed : State.between.feed b = ([Char.ofNat b.toNat], .between) :=
    sound_between.feed_ascii hb
  unfold decode
  rw [decodeFrom, hfeed]
  rfl

/-- Whatever has been begun is over when an ASCII byte comes. -/
theorem State.Sound.decodeFrom_ascii {state : State} (h : state.Sound) {b : UInt8}
    (hb : b < 0x80) (rest : Bytes) :
    decodeFrom state (b :: rest) = state.finish ++ decode (b :: rest) := by
  rw [decodeFrom, h.feed_ascii hb, decode_cons_ascii hb, List.append_assoc]
  rfl

/-- At least one of the bytes that meet at a cut is ASCII, or there is only one part. -/
def AsciiCut (front back : Bytes) : Prop :=
  (∀ b ∈ front.getLast?, b < 0x80) ∨ ∀ b ∈ back.head?, b < 0x80

/-- A cut next to an ASCII byte divides no character. -/
theorem decode_append {front back : Bytes} (h : AsciiCut front back) :
    decode (front ++ back) = decode front ++ decode back := by
  have hhead : ∀ front b rest, b < 0x80 →
      decode (front ++ b :: rest) = decode front ++ decode (b :: rest) := by
    intro front b rest hb
    have hwhole := decodeFrom_append .between front (b :: rest)
    have hfront := decodeFrom_append .between front []
    have hsound : (State.between.feedAll front).2.Sound := sound_between.feedAll front
    rw [hsound.decodeFrom_ascii hb] at hwhole
    rw [List.append_nil] at hfront
    unfold decode at hwhole ⊢
    rw [hwhole, hfront, List.append_assoc]
    rfl
  rcases h with hlast | hnext
  · rcases List.eq_nil_or_concat' front with rfl | ⟨init, b, rfl⟩
    · rfl
    · have hb : b < 0x80 := hlast b (by simp)
      rw [List.append_assoc, List.singleton_append, hhead init b back hb, hhead init b [] hb,
        decode_cons_ascii hb, decode_cons_ascii hb, List.append_assoc]
      rfl
  · cases back with
    | nil => simp [decode, decodeFrom, State.finish]
    | cons b rest => exact hhead front b rest (hnext b rfl)

/-! ### Whitespace at the ends -/

theorem begin_not_blank {b : UInt8} (hb : ¬isBlank b) :
    (∃ c, State.begin b = ([c], .between) ∧ ¬isBlankChar c) ∨
      ∃ further low high bits, State.begin b = ([], .inside further low high bits) := by
  by_cases hascii : b < 0x80
  · refine .inl ⟨Char.ofNat b.toNat, by rw [State.begin, if_pos hascii], ?_⟩
    rwa [isBlankChar_ofNat_ascii hascii]
  · have hreplacement : ¬isBlankChar replacement := by decide
    fun_cases State.begin b with
    | case1 h => exact absurd h hascii
    | case2 | case10 => exact .inl ⟨_, rfl, hreplacement⟩
    | case3 | case4 | case5 | case6 | case7 | case8 | case9 => exact .inr ⟨_, _, _, _, rfl⟩

/-- A byte that is no whitespace completes no whitespace either, and completes a character
or leaves one open. -/
theorem State.Sound.feed_not_blank {state : State} (h : state.Sound) {b : UInt8}
    (hb : ¬isBlank b) :
    (state.feed b).1 ++ (state.feed b).2.finish ≠ [] ∧
      ∀ c ∈ (state.feed b).1 ++ (state.feed b).2.finish, ¬isBlankChar c := by
  have hreplacement : ¬isBlankChar replacement := by decide
  have hbegin : (State.begin b).1 ++ (State.begin b).2.finish ≠ [] ∧
      ∀ c ∈ (State.begin b).1 ++ (State.begin b).2.finish, ¬isBlankChar c := by
    rcases begin_not_blank hb with ⟨c, hc, hclear⟩ | ⟨further, low, high, bits, hopen⟩
    · rw [hc]
      simpa [finish] using hclear
    · rw [hopen]
      simpa [finish] using hreplacement
  match state, h with
  | .between, _ => exact hbegin
  | .inside further low high bits, h =>
    by_cases hrange : low ≤ b ∧ b ≤ high
    · match further, h with
      | 0, ⟨_, hbits⟩ =>
        have hclear := not_isBlankChar_ofNat (n := 64 * bits + (b.toNat - 0x80)) (by omega)
        rw [feed_last hrange]
        simpa [finish] using hclear
      | further + 1, _ =>
        rw [feed_more hrange]
        simpa [finish] using hreplacement
    · rw [feed_other hrange]
      refine ⟨by simp, ?_⟩
      rw [List.cons_append, List.forall_mem_cons]
      exact ⟨hreplacement, hbegin.2⟩

/-- What has been begun turns into no whitespace. -/
theorem State.Sound.decodeFrom_inside {further : Nat} {low high : UInt8} {bits : Nat}
    (h : (State.inside further low high bits).Sound) (bytes : Bytes) :
    ∃ c chars, decodeFrom (.inside further low high bits) bytes = c :: chars ∧
      ¬isBlankChar c := by
  induction bytes generalizing further low high bits with
  | nil => exact ⟨replacement, [], rfl, by decide⟩
  | cons b rest ih =>
    by_cases hrange : low ≤ b ∧ b ≤ high
    · have hnext := h.feed b
      match further, h with
      | 0, ⟨_, hbits⟩ =>
        rw [decodeFrom, feed_last hrange]
        exact ⟨_, _, rfl, not_isBlankChar_ofNat (by omega)⟩
      | further + 1, _ =>
        rw [feed_more hrange] at hnext
        rw [decodeFrom, feed_more hrange]
        exact ih hnext
    · rw [decodeFrom, feed_other hrange]
      exact ⟨replacement, _, rfl, by decide⟩

theorem decode_cons_not_blank {b : UInt8} (hb : ¬isBlank b) (rest : Bytes) :
    ∃ c chars, decode (b :: rest) = c :: chars ∧ ¬isBlankChar c := by
  have hsound : (State.begin b).2.Sound := sound_begin b
  rw [decode_cons]
  rcases begin_not_blank hb with ⟨c, hc, hclear⟩ | ⟨further, low, high, bits, hopen⟩
  · rw [hc]
    exact ⟨c, _, rfl, hclear⟩
  · rw [hopen] at hsound ⊢
    exact hsound.decodeFrom_inside rest

theorem decode_dropWhile (bytes : Bytes) :
    decode (bytes.dropWhile isBlank) = (decode bytes).dropWhile isBlankChar := by
  induction bytes with
  | nil => rfl
  | cons b rest ih =>
    by_cases hb : isBlank b
    · have hascii := isBlank_lt_ascii hb
      rw [List.dropWhile_cons_of_pos hb, decode_cons_ascii hascii,
        List.dropWhile_cons_of_pos (by rwa [isBlankChar_ofNat_ascii hascii]), ih]
    · obtain ⟨c, chars, hdecode, hclear⟩ := decode_cons_not_blank hb rest
      rw [List.dropWhile_cons_of_neg hb, hdecode, List.dropWhile_cons_of_neg hclear]

theorem decode_rdropWhile (bytes : Bytes) :
    decode (bytes.rdropWhile isBlank) = (decode bytes).rdropWhile isBlankChar := by
  induction bytes using List.reverseRecOn with
  | nil => rfl
  | append_singleton init b ih =>
    by_cases hb : isBlank b
    · have hascii := isBlank_lt_ascii hb
      have hcut : AsciiCut init [b] := .inr fun x hx => by simp_all
      rw [List.rdropWhile_concat_pos _ _ _ hb, ih, decode_append hcut, decode_cons_ascii hascii]
      exact (List.rdropWhile_concat_pos _ _ _ (by rwa [isBlankChar_ofNat_ascii hascii])).symm
    · have hsound : (State.between.feedAll init).2.Sound := sound_between.feedAll init
      obtain ⟨hnonempty, hclear⟩ := hsound.feed_not_blank hb
      have hdecode : decode (init ++ [b]) = (State.between.feedAll init).1 ++
          (((State.between.feedAll init).2.feed b).1 ++
            ((State.between.feedAll init).2.feed b).2.finish) :=
        decodeFrom_append .between init [b]
      rw [List.rdropWhile_concat_neg _ _ _ hb, eq_comm, List.rdropWhile_eq_self_iff]
      intro hne
      simp only [hdecode, List.getLast_append_of_ne_nil _ hnonempty]
      exact hclear _ (List.getLast_mem hnonempty)

/-- Whitespace can be left out before decoding as well as after. -/
theorem decode_trim (bytes : Bytes) : decode bytes.trim = strip (decode bytes) := by
  have htrim : bytes.trim = (bytes.dropWhile isBlank).rdropWhile isBlank := rfl
  rw [htrim, decode_rdropWhile, decode_dropWhile]
  rfl

/-! ### Bytes of a text -/

/-- A continuation byte carries six bits, and lies within bounds that leave it out or not. -/
theorem continuation_within {low high : UInt8} {n : Nat} (hn : n < 64)
    (hlow : low.toNat ≤ n + 128) (hhigh : n + 128 ≤ high.toNat) :
    (low ≤ UInt8.ofNat (n + 128) ∧ UInt8.ofNat (n + 128) ≤ high) ∧
      (UInt8.ofNat (n + 128)).toNat - 0x80 = n := by
  have hcode : (UInt8.ofNat (n + 128)).toNat = n + 128 := by
    rw [UInt8.toNat_ofNat']
    omega
  rw [UInt8.le_iff_toNat_le, UInt8.le_iff_toNat_le, hcode]
  exact ⟨⟨hlow, hhigh⟩, Nat.add_sub_cancel n 128⟩

theorem decodeFrom_more {low high : UInt8} {n : Nat} (hn : n < 64) (hlow : low.toNat ≤ n + 128)
    (hhigh : n + 128 ≤ high.toNat) (further bits : Nat) (rest : Bytes) :
    decodeFrom (.inside (further + 1) low high bits) (UInt8.ofNat (n + 128) :: rest) =
      decodeFrom (.inside further 0x80 0xBF (64 * bits + n)) rest := by
  obtain ⟨hrange, hbits⟩ := continuation_within hn hlow hhigh
  rw [decodeFrom, State.feed_more hrange, hbits]
  rfl

theorem decodeFrom_last {low high : UInt8} {n : Nat} (hn : n < 64) (hlow : low.toNat ≤ n + 128)
    (hhigh : n + 128 ≤ high.toNat) (bits : Nat) (rest : Bytes) :
    decodeFrom (.inside 0 low high bits) (UInt8.ofNat (n + 128) :: rest) =
      Char.ofNat (64 * bits + n) :: decode rest := by
  obtain ⟨hrange, hbits⟩ := continuation_within hn hlow hhigh
  rw [decodeFrom, State.feed_last hrange, hbits]
  rfl

theorem begin_two : ∀ n < 32, 2 ≤ n →
    State.begin (UInt8.ofNat (n + 192)) = ([], .inside 0 0x80 0xBF n) := by
  decide

theorem begin_three : ∀ n < 16, State.begin (UInt8.ofNat (n + 224)) =
    ([], .inside 1 (if n = 0 then 0xA0 else 0x80) (if n = 13 then 0x9F else 0xBF) n) := by
  decide

theorem begin_four : ∀ n < 5, State.begin (UInt8.ofNat (n + 240)) =
    ([], .inside 2 (if n = 0 then 0x90 else 0x80) (if n = 4 then 0x8F else 0xBF) n) := by
  decide

section

variable {code : Nat}

theorem decode_two (hlow : 127 < code) (hhigh : code ≤ 2047) (rest : Bytes) :
    decode (UInt8.ofNat (code / 64 % 32 + 192) :: UInt8.ofNat (code % 64 + 128) :: rest) =
      Char.ofNat code :: decode rest := by
  have hlast : code % 64 < 64 := Nat.mod_lt _ (by decide)
  have hcode : 64 * (code / 64 % 32) + code % 64 = code := by omega
  rw [decode_cons, begin_two _ (by omega) (by omega), List.nil_append,
    decodeFrom_last hlast (Nat.le_add_left _ _) (by simp; omega), hcode]

theorem decode_three (hvalid : code.isValidChar) (hlow : 2047 < code) (hhigh : code ≤ 65535)
    (rest : Bytes) :
    decode (UInt8.ofNat (code / 4096 % 16 + 224) :: UInt8.ofNat (code / 64 % 64 + 128) ::
        UInt8.ofNat (code % 64 + 128) :: rest) =
      Char.ofNat code :: decode rest := by
  have hbound : code < 0xD800 ∨ 0xDFFF < code ∧ code < 0x110000 := hvalid
  have hlast : code % 64 < 64 := Nat.mod_lt _ (by decide)
  have hmiddle : code / 64 % 64 < 64 := Nat.mod_lt _ (by decide)
  have hcode : 64 * (64 * (code / 4096 % 16) + code / 64 % 64) + code % 64 = code := by omega
  rw [decode_cons, begin_three _ (by omega), List.nil_append,
    decodeFrom_more hmiddle (by split <;> simp; omega) (by split <;> simp <;> omega),
    decodeFrom_last hlast (Nat.le_add_left _ _) (by simp; omega), hcode]

theorem decode_four (hvalid : code.isValidChar) (hlow : 65535 < code) (rest : Bytes) :
    decode (UInt8.ofNat (code / 262144 % 8 + 240) :: UInt8.ofNat (code / 4096 % 64 + 128) ::
        UInt8.ofNat (code / 64 % 64 + 128) :: UInt8.ofNat (code % 64 + 128) :: rest) =
      Char.ofNat code :: decode rest := by
  have hbound : code < 0xD800 ∨ 0xDFFF < code ∧ code < 0x110000 := hvalid
  have hlast : code % 64 < 64 := Nat.mod_lt _ (by decide)
  have hmiddle : code / 64 % 64 < 64 := Nat.mod_lt _ (by decide)
  have hinner : code / 4096 % 64 < 64 := Nat.mod_lt _ (by decide)
  have hcode : 64 * (64 * (64 * (code / 262144 % 8) + code / 4096 % 64) + code / 64 % 64) +
      code % 64 = code := by omega
  rw [decode_cons, begin_four _ (by omega), List.nil_append,
    decodeFrom_more hinner (by split <;> simp; omega) (by split <;> simp <;> omega),
    decodeFrom_more hmiddle (Nat.le_add_left _ _) (by simp; omega),
    decodeFrom_last hlast (Nat.le_add_left _ _) (by simp; omega), hcode]

end

theorem utf8EncodeChar_eq (c : Char) : String.utf8EncodeChar c =
    if c.toNat ≤ 127 then [UInt8.ofNat c.toNat]
    else if c.toNat ≤ 2047 then
      [UInt8.ofNat (c.toNat / 64 % 32 + 192), UInt8.ofNat (c.toNat % 64 + 128)]
    else if c.toNat ≤ 65535 then
      [UInt8.ofNat (c.toNat / 4096 % 16 + 224), UInt8.ofNat (c.toNat / 64 % 64 + 128),
        UInt8.ofNat (c.toNat % 64 + 128)]
    else
      [UInt8.ofNat (c.toNat / 262144 % 8 + 240), UInt8.ofNat (c.toNat / 4096 % 64 + 128),
        UInt8.ofNat (c.toNat / 64 % 64 + 128), UInt8.ofNat (c.toNat % 64 + 128)] := rfl

/-- Between two characters the bytes of a character are decoded to it. -/
theorem decode_character (c : Char) (rest : Bytes) :
    decode (String.utf8EncodeChar c ++ rest) = c :: decode rest := by
  have hvalid : c.toNat.isValidChar := c.valid
  have hchar : Char.ofNat c.toNat = c := Char.ofNat_toNat c
  rw [utf8EncodeChar_eq]
  split
  · rename_i hone
    have hcode : (UInt8.ofNat c.toNat).toNat = c.toNat := by
      rw [UInt8.toNat_ofNat']
      omega
    have hascii : UInt8.ofNat c.toNat < 0x80 := by
      rw [UInt8.lt_iff_toNat_lt, hcode]
      exact Nat.lt_of_le_of_lt hone (by decide)
    rw [List.singleton_append, decode_cons_ascii hascii, hcode, hchar]
  split
  · exact (decode_two (by omega) ‹_› rest).trans (by rw [hchar])
  split
  · exact (decode_three hvalid (by omega) ‹_› rest).trans (by rw [hchar])
  · exact (decode_four hvalid (by omega) rest).trans (by rw [hchar])

theorem encode_eq (text : String) :
    encode text = text.toList.flatMap String.utf8EncodeChar := by
  have hencode : text.toList.utf8Encode.data.toList = encode text := by
    rw [String.utf8Encode_toList]
    rfl
  rw [← hencode, List.utf8Encode, List.data_toByteArray]

theorem decode_flatMap (chars : List Char) :
    decode (chars.flatMap String.utf8EncodeChar) = chars := by
  induction chars with
  | nil => rfl
  | cons c rest ih => rw [List.flatMap_cons, decode_character, ih]

theorem decode_encode (text : String) : decode (encode text) = text.toList := by
  rw [encode_eq, decode_flatMap]

/-! ### Cuts between characters -/

theorem AsciiCut.of_append {front middle back : Bytes} (h : AsciiCut (front ++ middle) back) :
    AsciiCut middle back := by
  refine h.imp_left fun hlast b hb => hlast b ?_
  simp only [Option.mem_def] at hb ⊢
  rw [List.getLast?_append, hb]
  rfl

/-- The bytes of a character that takes more than one are all beyond ASCII. -/
theorem not_ascii_of_mem {c : Char} (hlength : 1 < (String.utf8EncodeChar c).length) :
    ∀ b ∈ String.utf8EncodeChar c, ¬b < 0x80 := by
  have hbeyond (n : Nat) (hlow : 128 ≤ n) (hhigh : n < 256) : ¬UInt8.ofNat n < 0x80 := by
    rw [UInt8.lt_iff_toNat_lt, UInt8.toNat_ofNat', Nat.mod_eq_of_lt hhigh]
    exact Nat.not_lt.2 hlow
  have hone : ¬c.toNat ≤ 127 := by
    intro hone
    rw [utf8EncodeChar_eq, if_pos hone] at hlength
    exact Nat.lt_irrefl 1 hlength
  rw [utf8EncodeChar_eq, if_neg hone]
  split
  · exact List.forall_mem_cons.2 ⟨hbeyond _ (by omega) (by omega),
      List.forall_mem_singleton.2 (hbeyond _ (by omega) (by omega))⟩
  split
  · exact List.forall_mem_cons.2 ⟨hbeyond _ (by omega) (by omega),
      List.forall_mem_cons.2 ⟨hbeyond _ (by omega) (by omega),
        List.forall_mem_singleton.2 (hbeyond _ (by omega) (by omega))⟩⟩
  · exact List.forall_mem_cons.2 ⟨hbeyond _ (by omega) (by omega),
      List.forall_mem_cons.2 ⟨hbeyond _ (by omega) (by omega),
        List.forall_mem_cons.2 ⟨hbeyond _ (by omega) (by omega),
          List.forall_mem_singleton.2 (hbeyond _ (by omega) (by omega))⟩⟩⟩

/-- No character has an ASCII byte on one side of a cut and another byte on the other. -/
theorem AsciiCut.eq_nil_or_eq_nil {c : Char} {front back rest : Bytes}
    (h : AsciiCut front (back ++ rest)) (hc : String.utf8EncodeChar c = front ++ back) :
    front = [] ∨ back = [] := by
  rw [or_iff_not_imp_left]
  intro hfront
  by_contra hback
  have hlength : 1 < (String.utf8EncodeChar c).length := by
    rw [hc, List.length_append]
    have hpositive := List.length_pos_iff.2 hfront
    have hpositive' := List.length_pos_iff.2 hback
    omega
  have hbeyond := not_ascii_of_mem hlength
  rw [hc, List.forall_mem_append] at hbeyond
  rcases h with hlast | hnext
  · exact hbeyond.1 _ (List.getLast_mem hfront)
      (hlast _ (List.getLast?_eq_some_getLast hfront))
  · obtain ⟨b, more, rfl⟩ := List.exists_cons_of_ne_nil hback
    exact hbeyond.2 b List.mem_cons_self (hnext b rfl)

/-- A cut of encoded characters next to an ASCII byte is a cut between two characters. -/
theorem AsciiCut.exists_characters {chars : List Char} {front back : Bytes}
    (hcut : AsciiCut front back) (h : chars.flatMap String.utf8EncodeChar = front ++ back) :
    ∃ before behind, chars = before ++ behind ∧
      before.flatMap String.utf8EncodeChar = front ∧
      behind.flatMap String.utf8EncodeChar = back := by
  induction chars generalizing front with
  | nil =>
    obtain ⟨rfl, rfl⟩ := List.append_eq_nil_iff.1 h.symm
    exact ⟨[], [], rfl, rfl, rfl⟩
  | cons c rest ih =>
    rw [List.flatMap_cons, List.append_eq_append_iff] at h
    rcases h with ⟨more, rfl, hrest⟩ | ⟨more, hc, hback⟩
    · obtain ⟨before, behind, rfl, rfl, rfl⟩ := ih hcut.of_append hrest
      exact ⟨c :: before, behind, rfl, rfl, rfl⟩
    · subst hback
      rcases hcut.eq_nil_or_eq_nil hc with rfl | rfl
      · exact ⟨[], c :: rest, rfl, rfl, by rw [List.flatMap_cons, hc, List.nil_append]⟩
      · exact ⟨[c], rest, rfl, by rw [List.flatMap_singleton, hc, List.append_nil], rfl⟩

end Utf8

end Ebnf
