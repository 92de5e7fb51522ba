import Ebnf.Proofs.Parsing.Comments
import Ebnf.Proofs.Parsing.Snippets
import Ebnf.Proofs.Spelling.Spacing
import Ebnf.Proofs.Text.Decoding

/-!
# Texts cut out of a source

What a parse hands out as text is cut out of the bytes of the source and decoded by itself:
the inside of a comment, the inside of a special sequence, and the line of an error.  On
both sides of such a cut there is an ASCII byte of the notation or a line terminator, so no
character is divided.  In a source that is the encoding of a text, all these texts therefore
stand in that text.
-/

namespace Ebnf

open Byte Reader Utf8

/-- The bytes between two offsets and those on either side are decoded by themselves as in
the whole. -/
structure DecodedApart (source : Bytes) (start stop : Nat) : Prop where
  ordered : start ≤ stop
  within : stop ≤ source.length
  parts : decode source =
    decode (source.take start) ++ decode ((source.take stop).drop start) ++
      decode (source.drop stop)

/-- If the source encodes a text, then the characters stand in that text, and no replacement
character among them that it does not have. -/
def TakenFrom (source : Bytes) (chars : List Char) : Prop :=
  ∀ text, source = encode text →
    chars <:+: text.toList ∧ (replacement ∈ chars → replacement ∈ text.toList)

/-- The text is what the bytes between two offsets say, without whitespace at its ends. -/
structure SaidBetween (source : Bytes) (start stop : Nat) (said : String) : Prop where
  apart : DecodedApart source start stop
  stripped : said = String.ofList (strip (decode ((source.take stop).drop start)))
  taken : TakenFrom source said.toList

variable {source : Bytes} {options : Options}

theorem strip_within (chars : List Char) : strip chars <:+: chars := by
  have hright : strip chars <+: chars.dropWhile isBlankChar := by
    unfold strip
    rw [← List.reverse_suffix, List.reverse_reverse]
    exact List.dropWhile_suffix _
  exact hright.isInfix.trans (List.dropWhile_suffix _).isInfix

theorem drop_eq_append {start stop : Nat} (hordered : start ≤ stop) :
    source.drop start = (source.take stop).drop start ++ source.drop stop := by
  rw [List.drop_take, ← Nat.add_sub_cancel' hordered, ← List.drop_drop,
    Nat.add_sub_cancel_left, List.take_append_drop]

/-- Both cuts are next to an ASCII byte, or at an end of the source. -/
theorem decodedApart {start stop : Nat} (hordered : start ≤ stop)
    (hwithin : stop ≤ source.length) (hbefore : ∀ b ∈ (source.take start).getLast?, b < 0x80)
    (hbehind : ∀ b ∈ (source.drop stop).head?, b < 0x80) : DecodedApart source start stop := by
  refine ⟨hordered, hwithin, ?_⟩
  calc decode source = decode (source.take start ++ source.drop start) := by
        rw [List.take_append_drop]
    _ = decode (source.take start) ++ decode (source.drop start) :=
        decode_append (.inl hbefore)
    _ = decode (source.take start) ++ decode ((source.take stop).drop start) ++
          decode (source.drop stop) := by
        rw [drop_eq_append hordered, decode_append (.inr hbehind), List.append_assoc]

namespace DecodedApart

variable {start stop : Nat} (h : DecodedApart source start stop)

include h

theorem taken {chars : List Char} (hchars : chars <:+: decode ((source.take stop).drop start)) :
    TakenFrom source chars := by
  rintro text rfl
  have hwhole := h.parts
  rw [decode_encode] at hwhole
  have hinside : chars <:+: text.toList := hchars.trans ⟨_, _, hwhole.symm⟩
  exact ⟨hinside, fun hmem => hinside.subset hmem⟩

theorem said : SaidBetween source start stop
    (text (Bytes.trim ((source.take stop).drop start))) := by
  have hstripped : text (Bytes.trim ((source.take stop).drop start)) =
      String.ofList (strip (decode ((source.take stop).drop start))) := by
    unfold text
    rw [decode_trim]
  refine ⟨h, hstripped, ?_⟩
  rw [hstripped, String.toList_ofList]
  exact h.taken (strip_within _)

end DecodedApart

theorem saidBetween (before interior behind : Bytes) {start stop : Nat}
    (hsource : source = before ++ interior ++ behind)
    (hbefore : ∀ b ∈ before.getLast?, b < 0x80) (hbehind : ∀ b ∈ behind.head?, b < 0x80)
    (hstart : start = before.length) (hstop : stop = (before ++ interior).length) :
    SaidBetween source start stop (text (Bytes.trim interior)) := by
  subst hstart hstop
  have htake : source.take (before ++ interior).length = before ++ interior := by
    rw [hsource, List.take_left]
  have hfront : source.take before.length = before := by
    rw [hsource, List.append_assoc, List.take_left]
  have hback : source.drop (before ++ interior).length = behind := by
    rw [hsource, List.drop_left]
  have hapart : DecodedApart source before.length (before ++ interior).length := by
    apply decodedApart
    · rw [List.length_append]
      exact Nat.le_add_right _ _
    · rw [hsource]
      exact (List.prefix_append _ _).length_le
    · rwa [hfront]
    · rwa [hback]
  have hsaid := hapart.said
  rwa [htake, List.drop_left] at hsaid

/-! ### Comments and special sequences -/

theorem SpellsComment.said {input rest : Bytes} {k : Comment Mark}
    (h : SpellsComment input k rest) (hplace : input <:+ source) :
    SaidBetween source ((k.map (Cursor.positionAt { source, options })).start.offset + 2)
      ((k.map (Cursor.positionAt { source, options })).stop source - 2) k.content := by
  rw [Comment.stop_positionAt, h.end_eq hplace]
  simp only [Comment.map, offset_positionAt, h.start_eq]
  obtain ⟨before, rfl⟩ := hplace
  cases h with
  | @mk _ _ interior hinside _ _ =>
    subst hinside
    apply saidBetween (before ++ [leftParenthesis, asterisk]) interior
      (asterisk :: rightParenthesis :: rest)
    · simp
    · simp +decide
    · simp +decide
    · simp
    · simp only [List.length_append, List.length_cons, List.length_nil]
      omega

section

variable [Runtime]

theorem SpellsWhole.said {input rest : Bytes} {extent : Extent} {content : String}
    {comments : List (Comment Mark)}
    (h : SpellsWhole input (.ofPrimary (.special extent content)) comments rest)
    (hplace : input <:+ source) :
    SaidBetween source ((Cursor.locate { source, options } extent).start.offset + 1)
      ((Cursor.locate { source, options } extent).stop - 1) content := by
  obtain ⟨_, hprimary⟩ := h.exact_primary
  cases hprimary with
  | @special _ _ interior hinterior hinput =>
    have hstop : rest.length ≤ input.length := h.suffix.length_le
    rw [stop_locate hstop hplace.length_le, start_locate]
    obtain ⟨before, rfl⟩ := hplace
    apply saidBetween (before ++ [questionMark]) interior (questionMark :: rest)
    · simp [hinput]
    · simp +decide
    · simp +decide
    · simp
    · simp only [hinput, List.length_append, List.length_cons, List.length_nil]
      omega

/-! ### Lines of errors -/

omit [Runtime] in
/-- A line begins behind a terminator, or where the source begins. -/
theorem ascii_before_lineBegin {offset : Nat} :
    ∀ b ∈ (source.take (lineBegin options source offset)).getLast?, b < 0x80 := by
  intro b hb
  rcases lineBegin_eq_zero_or_mem with hzero | hmem
  · rw [hzero] at hb
    cases hb
  · obtain ⟨before, b', rest, hsource, hbegin, hends⟩ := exists_of_mem_lineEnds hmem
    have htake : source.take (lineBegin options source offset) = before ++ [b'] := by
      rw [hbegin, hsource, List.take_length_add_append]
      rfl
    rw [htake, List.getLast?_concat] at hb
    cases hb
    exact isBlank_lt_ascii (isBlank_of_terminates hends)

omit [Runtime] in
/-- A line ends before a terminator, or where the source ends. -/
theorem ascii_at_lineStop {offset : Nat} (hoffset : offset ≤ source.length) :
    ∀ b ∈ (source.drop (lineStop source offset)).head?, b < 0x80 := by
  intro b hb
  rcases lineStop_ends hoffset with hend | ⟨b', hb', hends⟩
  · rw [hend, List.drop_length] at hb
    cases hb
  · rw [List.head?_drop, hb'] at hb
    cases hb
    exact isBlank_lt_ascii (isBlank_of_endsLine hends)

omit [Runtime] in
theorem decodedApart_line (options : Options) {offset : Nat} (hoffset : offset ≤ source.length) :
    DecodedApart source (lineBegin options source offset) (lineStop source offset) :=
  decodedApart (lineBegin_le.trans le_lineStop) (lineStop_le hoffset) ascii_before_lineBegin
    (ascii_at_lineStop hoffset)

/-- No character is divided where a text is cut out.  The text of a comment and of a special
sequence is what the bytes between its symbols say, and the snippet of an error begins with
what the bytes of its line say.  If the source encodes a text, then they all stand there. -/
theorem parse_texts_undivided (options : Options) (source : Bytes) :
    (∀ g, parse options source = .ok g →
      (∀ k ∈ g.comments,
        SaidBetween source (k.start.offset + 2) (k.stop source - 2) k.content) ∧
      ∀ span content, Node.ofPrimary (.special span content) ∈ g.nodes →
        SaidBetween source (span.start.offset + 1) (span.stop - 1) content) ∧
    ∀ error : SyntaxError Position, parse options source = .error error →
      let start := lineBegin options source error.start.offset
      let stop := lineStop source error.start.offset
      let line := (source.take stop).drop start
      DecodedApart source start stop ∧ error.report.line? source = some line ∧
        error.report.snippet? source =
          some (text line ++ "\n" ++ Report.caret error.start.column) ∧
        TakenFrom source (text line).toList := by
  constructor
  · intro g h
    obtain ⟨spelled, hresult, rfl⟩ := parse_eq_ok h
    have hgrounded := (spells_of_document hresult).grounded
    constructor
    · rw [Grammar.map, List.forall_mem_map]
      intro k hk
      obtain ⟨input, rest, hplace, hcomment⟩ := hgrounded.comments k hk
      exact hcomment.said hplace
    · intro span content hmem
      rw [Grammar.nodes_map] at hmem
      obtain ⟨n, hn, hmap⟩ := List.mem_map.1 hmem
      obtain ⟨p, rfl, hp⟩ := Node.map_eq_ofPrimary hmap
      obtain ⟨extent, rfl, rfl⟩ := Primary.map_eq_special hp
      obtain ⟨hplace, hnode⟩ := hgrounded.nodes _ hn
      exact hnode.said hplace
  · intro error h
    have hexact : Exact options source error.report.start := parse_start_exact h
    have hapart := decodedApart_line options hexact.within
    have hline := Report.line?_of_exact hexact
    refine ⟨hapart, hline, ?_, ?_⟩
    · unfold Report.snippet?
      rw [hline]
      rfl
    · unfold text
      rw [String.toList_ofList]
      exact hapart.taken (List.infix_refl _)

/-- A special sequence and a comment, each with whitespace and a character of more bytes. -/
def accentedText : String := "a=? é?(*€\t*);"

def accentedGrammar : Grammar Span Position where
  rules := [⟨⟨⟨0, 0, 0⟩, 16⟩, [0x61],
    [.term (.factor (.primary (.special ⟨⟨2, 0, 2⟩, 5⟩ "é")))]⟩]
  comments := [⟨"€", ⟨7, 0, 7⟩⟩]

/-- A special sequence that stays open on the second line, behind a character of two bytes. -/
def openText : String := "a=b;\n(*é*)c=?€"

def openError : SyntaxError Position := ⟨.unterminatedSpecial, ⟨13, 1, 8⟩, ⟨17, 1, 12⟩⟩

end

section

attribute [local instance] Runtime.usual

theorem undivided_accentedText :
    parse {} (encode accentedText) = .ok accentedGrammar ∧
    SaidBetween (encode accentedText) 9 13 "€" ∧ SaidBetween (encode accentedText) 3 6 "é" ∧
    "é".toList <:+: accentedText.toList ∧
    parse {} (encode openText) = .error openError ∧
    openError.report.line? (encode openText) = some ((encode openText).drop 5) ∧
    (text ((encode openText).drop 5)).toList <:+: openText.toList := by
  have hparse : parse {} (encode accentedText) = .ok accentedGrammar := by decide +kernel
  have hopen : parse {} (encode openText) = .error openError := by decide +kernel
  obtain ⟨hcomments, hspecials⟩ := (parse_texts_undivided {} (encode accentedText)).1 _ hparse
  have hcomment := hcomments ⟨"€", ⟨7, 0, 7⟩⟩ (.head _)
  have hstop : Comment.stop (encode accentedText) ⟨"€", ⟨7, 0, 7⟩⟩ = 15 := by decide +kernel
  have hspecial := hspecials ⟨⟨2, 0, 2⟩, 5⟩ "é" (.tail _ (.head _))
  obtain ⟨-, hline, -, htaken⟩ := (parse_texts_undivided {} (encode openText)).2 _ hopen
  have hslice : ((encode openText).take (lineStop (encode openText) openError.start.offset)).drop
      (lineBegin {} (encode openText) openError.start.offset) = (encode openText).drop 5 := by
    decide +kernel
  rw [hstop] at hcomment
  rw [hslice] at hline htaken
  exact ⟨hparse, hcomment, hspecial, (hspecial.taken accentedText rfl).1, hopen, hline,
    (htaken openText rfl).1⟩

end

end Ebnf
