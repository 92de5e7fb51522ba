import Ebnf.Proofs.Parsing.Texts

/-!
# Where the caret stands

The snippet of an error shows its line as text, and puts as many spaces before the caret as
the column of the error counts bytes.  An error starts between two characters of a text: its
construct begins with an ASCII byte, or else with nothing but whole rules and trivia before
it, and those end with one.  So the line falls into the characters before the error and
those from there on, and the caret stands as many places from the left as the former take
bytes.  That is below the character at which the error starts just if they are all ASCII.
-/

namespace Ebnf

open Byte Reader Utf8

/-- The number of bytes that characters take. -/
def byteLength (chars : List Char) : Nat :=
  (chars.flatMap String.utf8EncodeChar).length

/-- A line of a text, as far as an error that starts at the character `here` is concerned:
the characters before it and behind it on the line, and what comes before the line and
behind it in the text. -/
structure StartsAt (text : String) (error : SyntaxError Position) (above before : List Char)
    (here : Char) (behind below : List Char) : Prop where
  parts : text.toList = above ++ (before ++ here :: behind) ++ below
  offset : error.start.offset = byteLength above + byteLength before

/-- The snippet shows the whole line, and below it the caret behind some spaces. -/
structure CaretBehind (text : String) (error : SyntaxError Position) (line : List Char)
    (spaces : Nat) : Prop where
  unbroken : '\n' ∉ line
  snippet : error.report.snippet? (encode text) =
    some (String.ofList line ++ "\n" ++ (String.ofList (List.replicate spaces ' ') ++ "^"))

variable {options : Options} {source : Bytes} {text : String}

/-! ### Bytes and characters -/

theorem byteLength_cons (c : Char) (chars : List Char) :
    byteLength (c :: chars) = c.utf8Size + byteLength chars := by
  unfold byteLength
  rw [List.flatMap_cons, List.length_append, String.length_utf8EncodeChar]

theorem length_le_byteLength (chars : List Char) : chars.length ≤ byteLength chars := by
  induction chars with
  | nil => exact Nat.le_refl _
  | cons c chars ih =>
    have hsize := c.utf8Size_pos
    rw [byteLength_cons, List.length_cons]
    omega

/-- As many bytes as characters, if these are all ASCII. -/
theorem byteLength_eq_length_iff {chars : List Char} :
    byteLength chars = chars.length ↔ ∀ c ∈ chars, c.toNat < 0x80 := by
  induction chars with
  | nil => simp [byteLength]
  | cons c chars ih =>
    have hsize := c.utf8Size_pos
    have hlength := length_le_byteLength chars
    have hone : c.utf8Size = 1 ↔ c.toNat < 0x80 := by
      rw [Char.utf8Size_eq_one_iff, UInt32.le_iff_toNat_le]
      exact Nat.lt_succ_iff.symm
    rw [byteLength_cons, List.length_cons, List.forall_mem_cons, ← ih, ← hone]
    omega

theorem lineFeed_mem_of_mem {chars : List Char} (h : '\n' ∈ chars) :
    lineFeed ∈ chars.flatMap String.utf8EncodeChar :=
  List.mem_flatMap.2 ⟨'\n', h, by decide⟩

/-! ### Where errors start -/

/-- Trivia ends with an ASCII byte. -/
theorem SpellsTrivia.ascii {input rest : Bytes} {comments : List (Comment Mark)}
    (h : SpellsTrivia input comments rest) : input = rest ∨ ∃ b < 0x80, b :: rest <:+ input := by
  induction h with
  | nothing => exact .inl rfl
  | blank hblank _ ih =>
    rcases ih with rfl | ⟨b, hb, hsuffix⟩
    · exact .inr ⟨_, isBlank_lt_ascii hblank, List.suffix_refl _⟩
    · exact .inr ⟨b, hb, hsuffix.trans (List.suffix_cons _ _)⟩
  | comment hcomment _ ih =>
    rcases ih with rfl | ⟨b, hb, hsuffix⟩
    · exact .inr ⟨rightParenthesis, by decide, hcomment.closer⟩
    · exact .inr ⟨b, hb, hsuffix.trans hcomment.suffix⟩

theorem ascii_of_suffix {input rest : Bytes} {b : UInt8} (hb : b < 0x80)
    (hrest : ∀ b ∈ rest.getLast?, b < 0x80) (hsuffix : b :: rest <:+ input) :
    ∀ b ∈ input.getLast?, b < 0x80 := by
  obtain ⟨before, rfl⟩ := hsuffix
  intro b' hb'
  cases rest with
  | nil => simp_all
  | cons b'' rest => exact hrest b' (by simpa using hb')

section

variable [Runtime]

/-- Whole rules and trivia end with an ASCII byte. -/
theorem SpellsDocument.ascii {input : Bytes} {g : Grammar Extent Mark}
    (h : SpellsDocument input g) : ∀ b ∈ input.getLast?, b < 0x80 := by
  induction h with
  | trivia htrivia =>
    rcases htrivia.ascii with rfl | ⟨b, hb, hsuffix⟩
    · simp
    · exact ascii_of_suffix hb (by simp) hsuffix
  | rule htrivia hrule _ ih =>
    exact ascii_of_suffix (by decide) ih (hrule.terminator.trans htrivia.suffix)

omit [Runtime] in
theorem isOpening_lt_ascii {b : UInt8} (h : isOpening b) : b < 0x80 := by
  simp only [isOpening, isLetter, Bool.or_eq_true, Bool.and_eq_true, decide_eq_true_eq,
    beq_iff_eq] at h
  grind

omit [Runtime] in
theorem isDigit_lt_ascii {b : UInt8} (h : isDigit b) : b < 0x80 := by
  simp only [isDigit, Bool.and_eq_true, decide_eq_true_eq] at h
  exact UInt8.lt_of_le_of_lt h.2 (by decide)

/-- A construct begins with an ASCII byte. -/
theorem Defect.ascii {site : Bytes} {error : SyntaxError Mark} (h : Defect site error)
    (hcause : error.cause ≠ .missingName) : ∀ b, site.head? = some b → b < 0x80 := by
  have hname : ∀ {name rest comments}, SpellsName site name comments rest →
      ∀ b, site.head? = some b → b < 0x80 := by
    intro name rest comments hspells
    obtain ⟨b, hb, hletter⟩ := hspells.head
    exact forall_head hb (isOpening_lt_ascii (isOpening_of_isLetter hletter))
  cases h with
  | missingName => exact (hcause rfl).elim
  | emptyComment | unterminatedComment | unterminatedSpecial => exact forall_head rfl (by decide)
  | emptyTerminal hquote => rcases hquote with rfl | rfl <;> exact forall_head rfl (by decide)
  | unterminatedTerminal hquote =>
    rcases hquote with rfl | rfl <;> exact forall_head rfl (by decide)
  | invalidTerminalByte hquote _ _ hinput =>
    subst hinput
    rcases hquote with rfl | rfl <;> exact forall_head rfl (by decide)
  | missingRepetitionSymbol hcount =>
    obtain ⟨b, hb, hdigit⟩ := head_of_digits hcount.nonempty hcount.digit _
    exact forall_head hb (isDigit_lt_ascii hdigit)
  | unclosedBracket hopener =>
    obtain ⟨b, more, rfl, hopening⟩ := Bracket.exists_isOpening hopener
    exact forall_head rfl (isOpening_lt_ascii hopening)
  | missingDefiningSymbol hspells => exact hname hspells
  | missingTerminator hspells => exact hname hspells

/-- An error starts next to an ASCII byte, behind the byte or at it. -/
theorem Failure.asciiCut {error : SyntaxError Mark} (h : Failure source error) :
    ∃ front site, source = front ++ site ∧ Defect site error ∧ AsciiCut front site := by
  cases h with
  | flaw hflaw =>
    obtain ⟨site, ⟨front, rfl⟩, hdefect⟩ := hflaw.defect
    exact ⟨front, site, rfl, hdefect, .inr (hdefect.ascii hflaw.cause)⟩
  | rule hsource hrules _ _ hdefect => exact ⟨_, _, hsource, hdefect, .inl hrules.ascii⟩

theorem exists_asciiCut {error : SyntaxError Position} (h : parse options source = .error error) :
    AsciiCut (source.take error.start.offset) (source.drop error.start.offset) := by
  obtain ⟨found, hresult, rfl⟩ := parse_eq_error h
  obtain ⟨front, site, rfl, hdefect, hcut⟩ := (failure_of_document hresult).asciiCut
  have hoffset : (found.map (Cursor.positionAt
      { source := front ++ site, options })).start.offset = front.length := by
    rw [SyntaxError.map, offset_positionAt, hdefect.start_eq, List.length_append,
      Nat.add_sub_cancel]
  rwa [hoffset, List.take_left, List.drop_left]

/-! ### The line in parts -/

omit [Runtime] in
/-- Encoded characters are cut where a line begins, where an error starts on it and where the
line stops. -/
theorem exists_parts {chars : List Char} (hbytes : chars.flatMap String.utf8EncodeChar = source)
    {begins start stop : Nat} (hbegins : begins ≤ start) (hstart : start < stop)
    (hstop : stop ≤ source.length)
    (hcutBegins : ∀ b ∈ (source.take begins).getLast?, b < 0x80)
    (hcutStart : AsciiCut (source.take start) (source.drop start))
    (hcutStop : ∀ b ∈ (source.drop stop).head?, b < 0x80) :
    ∃ above before here behind below,
      chars = above ++ (before ++ here :: behind) ++ below ∧
        byteLength above = begins ∧ byteLength before = start - begins ∧
        (before ++ here :: behind).flatMap String.utf8EncodeChar =
          (source.take stop).drop begins := by
  have hfront : source.take begins ++ (source.take start).drop begins = source.take start := by
    rw [← Nat.min_eq_left hbegins, ← List.take_take, Nat.min_eq_left hbegins,
      List.take_append_drop]
  have hline : (source.take stop).drop begins =
      (source.take start).drop begins ++ (source.take stop).drop start := by
    rw [← List.append_left_inj (source.drop stop), List.append_assoc,
      ← drop_eq_append hstart.le, ← drop_eq_append hbegins,
      ← drop_eq_append (hbegins.trans hstart.le)]
  rw [← hfront] at hcutStart
  rw [← List.take_append_drop begins source] at hbytes
  obtain ⟨above, chars, rfl, habove, hchars⟩ := AsciiCut.exists_characters (.inl hcutBegins) hbytes
  rw [drop_eq_append hbegins] at hchars
  obtain ⟨before, chars, rfl, hbefore, hchars⟩ := hcutStart.of_append.exists_characters hchars
  rw [drop_eq_append hstart.le] at hchars
  obtain ⟨behind, below, rfl, hbehind, -⟩ := AsciiCut.exists_characters (.inr hcutStop) hchars
  cases behind with
  | nil =>
    have hlength := congrArg List.length hbehind
    simp only [List.flatMap_nil, List.length_nil, List.length_drop, List.length_take] at hlength
    omega
  | cons here behind =>
    refine ⟨above, before, here, behind, below, by simp, ?_, ?_, ?_⟩
    · rw [byteLength, habove, List.length_take_of_le (by omega)]
    · rw [byteLength, hbefore, List.length_drop, List.length_take_of_le (by omega)]
    · rw [List.flatMap_append, hbefore, hbehind, hline]

/-- An error of a text starts at one of its characters, and is shown with the characters of
the line on either side. -/
theorem exists_startsAt {error : SyntaxError Position}
    (h : parse options (encode text) = .error error) :
    ∃ above before here behind below, StartsAt text error above before here behind below ∧
      CaretBehind text error (before ++ here :: behind) (byteLength before) := by
  obtain ⟨⟨hbegins, hstart, hstop⟩, hclear, hsnippet, -⟩ := snippet_exact h
  obtain ⟨above, before, here, behind, below, hparts, habove, hbefore, hline⟩ :=
    exists_parts (encode_eq text).symm hbegins hstart hstop ascii_before_lineBegin
      (exists_asciiCut h) (ascii_at_lineStop (hstart.le.trans hstop))
  refine ⟨above, before, here, behind, below, ⟨hparts, ?_⟩, ?_, ?_⟩
  · rw [habove, hbefore, Nat.add_sub_cancel' hbegins]
  · intro hmem
    have hmem' := lineFeed_mem_of_mem hmem
    rw [hline] at hmem'
    exact hclear _ hmem' (by decide)
  · rw [hsnippet, ← hline, Utf8.text, decode_flatMap, hbefore]

omit [Runtime] in
/-- There is one number of spaces before a caret. -/
theorem CaretBehind.unique {error : SyntaxError Position} {line : List Char} {spaces spaces' : Nat}
    (h : CaretBehind text error line spaces) (h' : CaretBehind text error line spaces') :
    spaces = spaces' := by
  have hsame := congrArg String.length (Option.some.inj (h.snippet.symm.trans h'.snippet))
  simpa [String.length_append] using hsame

/-- The caret counts the bytes of the line before the error.  It stands below the character at
which the error starts, behind as many spaces as there are characters before that one, just
if those characters are ASCII. -/
theorem caret_counts_bytes {error : SyntaxError Position}
    (h : parse options (encode text) = .error error) :
    ∃ above before here behind below, StartsAt text error above before here behind below ∧
      CaretBehind text error (before ++ here :: behind) (byteLength before) ∧
      (CaretBehind text error (before ++ here :: behind) before.length ↔
        ∀ c ∈ before, c.toNat < 0x80) := by
  obtain ⟨above, before, here, behind, below, hstart, hcaret⟩ := exists_startsAt h
  refine ⟨above, before, here, behind, below, hstart, hcaret, ?_⟩
  rw [← byteLength_eq_length_iff]
  constructor
  · exact hcaret.unique
  · intro hlength
    rwa [← hlength]

end

section

attribute [local instance] Runtime.usual

/-- The error on the second line starts behind seven characters, one of them of two bytes. -/
theorem caret_openText :
    parse {} (encode openText) = .error openError ∧
    ∃ above before here behind below,
      StartsAt openText openError above before here behind below ∧
      CaretBehind openText openError (before ++ here :: behind) (byteLength before) ∧
      (CaretBehind openText openError (before ++ here :: behind) before.length ↔
        ∀ c ∈ before, c.toNat < 0x80) := by
  have hparse : parse {} (encode openText) = .error openError := by decide +kernel
  exact ⟨hparse, caret_counts_bytes hparse⟩

end

section

variable [Runtime]

/-- A comment of two bytes, and no name behind it. -/
def namelessText : String := "(*é*)="

def namelessError : SyntaxError Position := ⟨.missingName, ⟨6, 0, 6⟩, ⟨6, 0, 6⟩⟩

end

section

attribute [local instance] Runtime.usual

/-- The caret stands one place to the right of the character at which the error starts. -/
theorem caret_displaced :
    parse {} (encode namelessText) = .error namelessError ∧
    StartsAt namelessText namelessError [] "(*é*)".toList '=' [] [] ∧
    CaretBehind namelessText namelessError namelessText.toList 6 ∧
    ¬CaretBehind namelessText namelessError namelessText.toList "(*é*)".toList.length := by
  have hcaret : CaretBehind namelessText namelessError namelessText.toList 6 :=
    ⟨by decide +kernel, by decide +kernel⟩
  refine ⟨by decide +kernel, ⟨by decide +kernel, by decide +kernel⟩, hcaret, fun hunder => ?_⟩
  exact absurd (hcaret.unique hunder) (by decide +kernel)

end

end Ebnf
