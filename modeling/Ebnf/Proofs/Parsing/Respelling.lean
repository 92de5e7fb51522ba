import Ebnf.Proofs.Parsing.Exchange
import Ebnf.Proofs.Position.Lines

/-!
# Interchangeable spellings

What a parse gives does not tell which separators and quotes the source was written with, not
even by a position, because all of these are single bytes and none of them ends a line.  The new
source is read off the old one end by end: behind every place of the document there stands the
same construct as before.
-/

namespace Ebnf

open Byte Reader

/-! ### The ends of the new source -/

/-- The end of the new source that is as long as an end of the old one. -/
def counterpart (source source' input : Bytes) : Bytes :=
  source'.drop (source.length - input.length)

section

variable {source source' before front rest : Bytes} {b b' : UInt8}

theorem counterpart_eq {input : Bytes} (hsource : before ++ input = source) :
    counterpart source source' input = source'.drop before.length := by
  unfold counterpart
  rw [← hsource, List.length_append, Nat.add_sub_cancel]

theorem counterpart_length (hlength : source'.length = source.length) {input : Bytes}
    (hplace : input <:+ source) : (counterpart source source' input).length = input.length := by
  unfold counterpart
  rw [List.length_drop, hlength, Nat.sub_sub_self hplace.length_le]

theorem head?_counterpart {input : Bytes} (hsource : before ++ input = source) :
    (counterpart source source' input).head? = source'[before.length]? := by
  rw [counterpart_eq hsource, List.head?_drop]

/-- A stretch of the new source, byte by byte. -/
theorem counterpart_append (front' : Bytes) (hsource : before ++ (front ++ rest) = source)
    (hlength : front'.length = front.length)
    (hbytes : ∀ j < front.length, source'[before.length + j]? = front'[j]?) :
    counterpart source source' (front ++ rest) = front' ++ counterpart source source' rest := by
  have hrest : before ++ front ++ rest = source := by rw [← hsource, List.append_assoc]
  have hfront : (source'.drop before.length).take front.length = front' := by
    apply List.ext_getElem?
    intro j
    rw [List.getElem?_take]
    split
    · rw [List.getElem?_drop]
      exact hbytes j ‹_›
    · exact (List.getElem?_eq_none (by omega)).symm
  rw [counterpart_eq hsource, counterpart_eq hrest, List.length_append, ← List.drop_drop,
    ← hfront, List.take_append_drop]

/-- A stretch that stands. -/
theorem counterpart_stands (hsource : before ++ (front ++ rest) = source)
    (hstands : ∀ j < front.length, source'[before.length + j]? = source[before.length + j]?) :
    counterpart source source' (front ++ rest) = front ++ counterpart source source' rest := by
  apply counterpart_append front hsource rfl
  intro j hj
  rw [hstands j hj, getElem?_front hsource hj]

theorem counterpart_cons (hsource : before ++ b :: rest = source)
    (hb : source'[before.length]? = some b') :
    counterpart source source' (b :: rest) = b' :: counterpart source source' rest := by
  have hpair : before ++ ([b] ++ rest) = source := hsource
  apply counterpart_append [b'] hpair rfl
  intro j hj
  obtain rfl := Nat.lt_one_iff.1 hj
  exact hb

end

/-! ### Symbols of the new source -/

namespace Respelled

variable {source source' before rest : Bytes} {g : Grammar Span Position}
  (hquoting : Quoting source g) (h : Respelled source g source') {b : UInt8}

include hquoting h

theorem counterpart_fixed (hb : isFixed b) (hsource : before ++ b :: rest = source) :
    counterpart source source' (b :: rest) = b :: counterpart source source' rest :=
  counterpart_cons hsource (fixed hquoting h hb (getElem?_cons hsource))

theorem counterpart_solidus (hsource : before ++ solidus :: rest = source)
    (hbracket : FormsBracket source before.length) :
    counterpart source source' (solidus :: rest) = solidus :: counterpart source source' rest :=
  counterpart_cons hsource (solidus_of_bracket hquoting h hbracket (getElem?_cons hsource))

theorem counterpart_opener {bracket : Bracket} {opener : Bytes} (hopener : opener ∈ bracket.openers)
    (hsource : before ++ (opener ++ rest) = source) :
    counterpart source source' (opener ++ rest) = opener ++ counterpart source source' rest := by
  have hdigraph : ∀ b, before ++ leftParenthesis :: b :: rest = source →
      counterpart source source' (b :: rest) = b :: counterpart source source' rest →
        counterpart source source' (leftParenthesis :: b :: rest) =
          leftParenthesis :: b :: counterpart source source' rest := by
    intro b hsource hsecond
    rw [counterpart_fixed hquoting h (by decide) hsource, hsecond]
  cases bracket with
  | optional =>
    rcases Bracket.mem_openers_optional.1 hopener with rfl | rfl
    · exact counterpart_fixed hquoting h (by decide) hsource
    · have hbehind : (before ++ [leftParenthesis]) ++ solidus :: rest = source := by
        simpa using hsource
      have hbracket : FormsBracket source (before ++ [leftParenthesis]).length := by
        left
        rw [List.length_append, List.length_singleton, Nat.add_sub_cancel]
        exact ⟨Nat.succ_pos _, getElem?_cons hsource⟩
      exact hdigraph _ hsource (counterpart_solidus hquoting h hbehind hbracket)
  | repeated =>
    rcases Bracket.mem_openers_repeated.1 hopener with rfl | rfl
    · exact counterpart_fixed hquoting h (by decide) hsource
    · have hbehind : (before ++ [leftParenthesis]) ++ colon :: rest = source := by
        simpa using hsource
      exact hdigraph _ hsource (counterpart_fixed hquoting h (by decide) hbehind)
  | grouped =>
    obtain rfl := Bracket.mem_openers_grouped.1 hopener
    exact counterpart_fixed hquoting h (by decide) hsource

theorem counterpart_closer {bracket : Bracket} {closer : Bytes} (hcloser : closer ∈ bracket.closers)
    (hsource : before ++ (closer ++ rest) = source) :
    counterpart source source' (closer ++ rest) = closer ++ counterpart source source' rest := by
  have hdigraph : ∀ b, before ++ b :: rightParenthesis :: rest = source →
      counterpart source source' (b :: rightParenthesis :: rest) =
        b :: counterpart source source' (rightParenthesis :: rest) →
          counterpart source source' (b :: rightParenthesis :: rest) =
            b :: rightParenthesis :: counterpart source source' rest := by
    intro b hsource hfirst
    have hbehind : (before ++ [b]) ++ rightParenthesis :: rest = source := by
      simpa using hsource
    rw [hfirst, counterpart_fixed hquoting h (by decide) hbehind]
  cases bracket with
  | optional =>
    rcases Bracket.mem_closers_optional.1 hcloser with rfl | rfl
    · exact counterpart_fixed hquoting h (by decide) hsource
    · have hbracket : FormsBracket source before.length := .inr (getElem?_behind hsource)
      exact hdigraph _ hsource (counterpart_solidus hquoting h hsource hbracket)
  | repeated =>
    rcases Bracket.mem_closers_repeated.1 hcloser with rfl | rfl
    · exact counterpart_fixed hquoting h (by decide) hsource
    · exact hdigraph _ hsource (counterpart_fixed hquoting h (by decide) hsource)
  | grouped =>
    obtain rfl := Bracket.mem_closers_grouped.1 hcloser
    exact counterpart_fixed hquoting h (by decide) hsource

/-- What stands in a grouped sequence does not turn its `(` into `(/`. -/
theorem counterpart_clear (hsource : before ++ leftParenthesis :: rest = source)
    (hclear : rest.head? ≠ some solidus) :
    (counterpart source source' rest).head? ≠ some solidus := by
  have hbehind : (before ++ [leftParenthesis]) ++ rest = source := by simpa using hsource
  rw [head?_counterpart hbehind, List.length_append, List.length_singleton]
  intro hsolidus
  rcases of_solidus hquoting h hsolidus with hold | hbracket
  · rw [getElem?_behind hsource] at hold
    exact hclear hold
  · exact hbracket (.inl ⟨Nat.succ_pos _, getElem?_cons hsource⟩)

theorem counterpart_separator {input : Bytes} (hseparator : SpellsSeparator input rest)
    (hsource : before ++ input = source) :
    SpellsSeparator (counterpart source source' input) (counterpart source source' rest) := by
  cases hseparator with
  | @mk b _ hsymbol hclear =>
    obtain ⟨b', hb', hbecomes⟩ := becomes hquoting h (getElem?_cons hsource)
    rw [counterpart_cons hsource hb']
    -- A `)` behind the new symbol has been there before.
    have hbehind : source[before.length + 1]? ≠ some rightParenthesis →
        (counterpart source source' rest).head? ≠ some rightParenthesis := by
      intro hold hnew
      have hrest : (before ++ [b]) ++ rest = source := by simpa using hsource
      rw [head?_counterpart hrest, List.length_append, List.length_singleton] at hnew
      exact hold (of_fixed hquoting h (by decide) hnew)
    cases hbecomes with
    | same =>
      refine .mk hsymbol fun hb => hbehind ?_
      rw [getElem?_behind hsource]
      exact hclear hb
    | separator _ hnew hsingle =>
      refine .mk ?_ fun hb => hbehind fun hparenthesis => hsingle hb (.inr hparenthesis)
      simpa [isSeparating, or_assoc] using hnew
    | quote hold => rcases hsymbol with rfl | rfl | rfl <;> cases hold

/-- Around a terminal string there are quotes that do not occur in its text: the old ones, or
others if it has neither. -/
theorem new_quotes {span : Span} {content : Bytes} {quote : UInt8}
    (hn : Node.ofPrimary (.terminal span content) ∈ g.nodes)
    (hquote : quote = apostrophe ∨ quote = quotationMark)
    (hcontent : ∀ b ∈ content, isTerminal quote b)
    (hfirst : source[span.start.offset]? = some quote)
    (hlast : source[span.stop - 1]? = some quote) :
    ∃ quote', (quote' = apostrophe ∨ quote' = quotationMark) ∧
      (∀ b ∈ content, isTerminal quote' b) ∧ source'[span.start.offset]? = some quote' ∧
      source'[span.stop - 1]? = some quote' := by
  by_cases hplain : (Node.ofPrimary (.terminal span content)).isPlainTerminal
  · obtain ⟨quote', hfirst', hnew, hlast'⟩ := h.quotes _ hn hplain
    have hsymbol : quote' = apostrophe ∨ quote' = quotationMark := by
      simpa [isQuote] using hnew
    refine ⟨quote', hsymbol, ?_, hfirst', hlast'⟩
    obtain ⟨hapostrophe, hquotation⟩ := Node.isPlainTerminal_terminal.1 hplain
    intro b hb
    have hold := hcontent b hb
    simp only [isTerminal, Bool.and_eq_true, bne_iff_ne] at hold ⊢
    refine ⟨hold.1, ?_⟩
    rintro rfl
    rcases hsymbol with rfl | rfl
    · exact hapostrophe hb
    · exact hquotation hb
  · have hproper : span.start.offset < span.stop := hquoting.proper _ hn
    have hstands : ∀ i, span.start.offset ≤ i → i < span.stop → source[i]? = some quote →
        source'[i]? = some quote := by
      intro i hstart hstop hi
      rw [← hi]
      exact quoted hquoting h hn (.inl rfl) hstart hstop fun hother => absurd hother hplain
    exact ⟨quote, hquote, hcontent, hstands _ (Nat.le_refl _) hproper hfirst,
      hstands _ (by omega) (by omega) hlast⟩

variable (options : Options) {input : Bytes} (hsource : before ++ input = source)

include hsource

theorem counterpart_comment {k : Comment Mark}
    (hk : k.map (Cursor.positionAt { source, options }) ∈ g.comments)
    (hcomment : SpellsComment input k rest) :
    SpellsComment (counterpart source source' input) k (counterpart source source' rest) := by
  have hplace : input <:+ source := ⟨before, hsource⟩
  have hmoves : Moves id rest (counterpart source source' rest) := by
    intro place
    rw [counterpart_length h.length (hcomment.suffix.trans hplace)]
    rfl
  have hstart := hcomment.start_eq
  have hend := hcomment.end_eq hplace
  obtain ⟨front, rfl, hnew⟩ := hcomment.replace hmoves
  have hlength : before.length + (front.length + rest.length) = source.length := by
    rw [← hsource, List.length_append, List.length_append]
  have hstands : counterpart source source' (front ++ rest) =
      front ++ counterpart source source' rest := by
    apply counterpart_stands hsource
    intro j hj
    apply comment hquoting h hk
    · simp only [Comment.map, offset_positionAt, hstart, List.length_append]
      omega
    · rw [Comment.stop_positionAt, hend]
      omega
  rw [hstands]
  exact hnew

/-- A terminal string is between two equal quotes again, and they do not occur in its text. -/
theorem counterpart_terminal {content : Bytes} {quote : UInt8}
    (hn : Node.ofPrimary (.terminal (Cursor.locate { source, options }
      ⟨input.length, rest.length⟩) content) ∈ g.nodes)
    (hquote : quote = apostrophe ∨ quote = quotationMark)
    (hcontent : ∀ b ∈ content, isTerminal quote b)
    (hinput : input = quote :: (content ++ quote :: rest)) :
    ∃ quote', (quote' = apostrophe ∨ quote' = quotationMark) ∧
      (∀ b ∈ content, isTerminal quote' b) ∧
      counterpart source source' input =
        quote' :: (content ++ quote' :: counterpart source source' rest) := by
  have hlength : input.length = content.length + (rest.length + 1) + 1 := by
    simp [hinput]
  have hwithin : before.length + input.length = source.length := by
    rw [← hsource, List.length_append]
  have hrest : rest.length ≤ input.length := by omega
  obtain ⟨hstart, hstop⟩ := locate_place options hsource hrest
  generalize Cursor.locate { source, options } ⟨input.length, rest.length⟩ = span at *
  rw [hinput] at hsource ⊢
  have hinside : before ++ [quote] ++ (content ++ quote :: rest) = source := by
    simpa using hsource
  have hbehind : before ++ [quote] ++ content ++ quote :: rest = source := by
    simpa using hsource
  have hplace : (before ++ [quote]).length = before.length + 1 := List.length_append
  have hplace' : (before ++ [quote] ++ content).length = before.length + 1 + content.length := by
    rw [List.length_append, hplace]
  have hend : span.stop - 1 = (before ++ [quote] ++ content).length := by omega
  have hstands : counterpart source source' (content ++ quote :: rest) =
      content ++ counterpart source source' (quote :: rest) := by
    apply counterpart_stands hinside
    intro j hj
    rw [hplace]
    refine quoted hquoting h hn (.inl rfl) ?_ ?_ fun _ => ?_
    · change span.start.offset ≤ _
      omega
    · change _ < span.stop
      omega
    · change _ ≠ span.start.offset ∧ _ ≠ span.stop
      omega
  obtain ⟨quote', hquote', hcontent', hfirst, hlast⟩ : ∃ quote',
      (quote' = apostrophe ∨ quote' = quotationMark) ∧ (∀ b ∈ content, isTerminal quote' b) ∧
      source'[before.length]? = some quote' ∧
      source'[before.length + 1 + content.length]? = some quote' := by
    have hfirst : source[span.start.offset]? = some quote := by
      rw [hstart]
      exact getElem?_cons hsource
    have hlast : source[span.stop - 1]? = some quote := by
      rw [hend]
      exact getElem?_cons hbehind
    have hquotes := new_quotes hquoting h hn hquote hcontent hfirst hlast
    rwa [hstart, hend, hplace'] at hquotes
  refine ⟨quote', hquote', hcontent', ?_⟩
  rw [← hplace'] at hlast
  rw [counterpart_cons hsource hfirst, hstands, counterpart_cons hbehind hlast]

theorem counterpart_quoted [Runtime] {p : Primary Extent}
    (hn : (Node.ofPrimary p).map (Cursor.locate { source, options }) ∈ g.nodes)
    (hquoted : (Node.ofPrimary p).IsQuoted) (hprimary : SpellsPrimary input p [] rest) :
    SpellsPrimary (counterpart source source' input) p [] (counterpart source source' rest) := by
  have hplace : input <:+ source := ⟨before, hsource⟩
  have hrest := hprimary.suffix
  have hextent : (⟨input.length, rest.length⟩ : Extent) =
      ⟨(counterpart source source' input).length, (counterpart source source' rest).length⟩ := by
    rw [counterpart_length h.length hplace, counterpart_length h.length (hrest.trans hplace)]
  cases hprimary with
  | bracketed => rcases hquoted with hother | hother <;> cases hother
  | identifier => rcases hquoted with hother | hother <;> cases hother
  | @terminal quote content _ _ hquote hnonempty hcontent hinput =>
    obtain ⟨quote', hquote', hcontent', himage⟩ :=
      counterpart_terminal hquoting h options hsource hn hquote hcontent hinput
    rw [hextent]
    exact .terminal hquote' hnonempty hcontent' himage
  | @special _ _ interior hinterior hinput =>
    have hsplit : input = questionMark :: (interior ++ [questionMark]) ++ rest := by
      simpa using hinput
    obtain ⟨hstart, hstop⟩ := locate_place options hsource hrest.length_le
    have hlength : input.length =
        (questionMark :: (interior ++ [questionMark])).length + rest.length := by
      rw [hsplit, List.length_append]
    have hwithin : before.length + input.length = source.length := by
      rw [← hsource, List.length_append]
    have himage : counterpart source source' input =
        questionMark :: (interior ++ [questionMark]) ++ counterpart source source' rest := by
      rw [hsplit] at hsource ⊢
      apply counterpart_stands hsource
      intro j hj
      refine quoted hquoting h hn (.inr rfl) ?_ ?_ nofun
      · change (Cursor.locate { source, options } ⟨input.length, rest.length⟩).start.offset ≤ _
        omega
      · change _ < (Cursor.locate { source, options } ⟨input.length, rest.length⟩).stop
        omega
    rw [hextent]
    exact .special hinterior (by simpa using himage)

end Respelled

/-! ### Parsing the new source -/

section

variable {options : Options} {source source' : Bytes} {spelled : Grammar Extent Mark}

/-- The new source is another spelling of the document. -/
theorem Respelled.respelling [Runtime] (hspelled : SpellsDocument source spelled)
    (h : Respelled source (spelled.map (Cursor.locate { source, options })
      (Cursor.positionAt { source, options })) source') :
    Respelling source spelled.nodes spelled.comments (counterpart source source') := by
  have hquoting := hspelled.quoting options
  constructor
  case length =>
    intro input hplace
    exact counterpart_length h.length hplace
  case fixed =>
    rintro b rest hb ⟨before, hsource⟩
    exact h.counterpart_fixed hquoting hb hsource
  case opener =>
    rintro bracket opener inside hopener ⟨before, hsource⟩
    exact h.counterpart_opener hquoting hopener hsource
  case clear =>
    rintro inside ⟨before, hsource⟩ hclear
    exact h.counterpart_clear hquoting hsource hclear
  case closer =>
    rintro bracket closer rest hcloser ⟨before, hsource⟩
    exact h.counterpart_closer hquoting hcloser hsource
  case separator =>
    rintro input rest hseparator ⟨before, hsource⟩
    exact h.counterpart_separator hquoting hseparator hsource
  case comment =>
    rintro input k rest hk hcomment ⟨before, hsource⟩
    have hlocated := List.mem_map_of_mem
      (f := Comment.map (Cursor.positionAt { source, options })) hk
    exact h.counterpart_comment hquoting options hsource hlocated hcomment
  case quoted =>
    rintro input p rest hp hquoted hprimary ⟨before, hsource⟩
    have hlocated := List.mem_map_of_mem (f := Node.map (Cursor.locate { source, options })) hp
    rw [← Grammar.nodes_map _ (Cursor.positionAt { source, options })] at hlocated
    exact h.counterpart_quoted hquoting options hsource hlocated hquoted hprimary

theorem terminates_eq_false {b : UInt8} (hb : ¬isFixed b) (rest : Bytes) :
    options.terminates b rest = false := by
  rw [← Bool.not_eq_true]
  exact fun hends => hb (isFixed_of_isBlank (isBlank_of_terminates hends))

theorem terminates_congr {b : UInt8} {rest rest' : Bytes}
    (h : rest'.head? = some lineFeed ↔ rest.head? = some lineFeed) :
    options.terminates b rest' = options.terminates b rest := by
  have hhead : (rest'.head? != some lineFeed) = (rest.head? != some lineFeed) := by
    rw [Bool.eq_iff_iff, bne_iff_ne, bne_iff_ne]
    exact not_congr h
  unfold Options.terminates
  rw [hhead]

theorem endsLineAt_succ (options : Options) {source : Bytes} {n : Nat} {b : UInt8}
    (h : source[n]? = some b) :
    options.endsLineAt source (n + 1) = options.terminates b (source.drop (n + 1)) := by
  obtain ⟨hlength, rfl⟩ := List.getElem?_eq_some_iff.1 h
  unfold Options.endsLineAt
  simp only [List.drop_eq_getElem_cons hlength]

/-- Lines end where they have ended. -/
theorem Respelled.lineEnds_eq {g : Grammar Span Position} (hquoting : Quoting source g)
    (h : Respelled source g source') : lineEnds options source' = lineEnds options source := by
  unfold lineEnds
  rw [h.length]
  apply List.filter_congr
  intro offset hoffset
  cases offset with
  | zero => rfl
  | succ n =>
    have hlength : n < source.length := Nat.lt_of_succ_lt_succ (List.mem_range.1 hoffset)
    have hn : source[n]? = some source[n] := List.getElem?_eq_getElem hlength
    obtain ⟨b', hb', hbecomes⟩ := h.becomes hquoting hn
    rw [endsLineAt_succ options hn, endsLineAt_succ options hb']
    generalize source[n] = b at hbecomes
    cases hbecomes with
    | same =>
      apply terminates_congr
      rw [List.head?_drop, List.head?_drop]
      exact ⟨h.of_fixed hquoting (by decide), h.fixed hquoting (by decide)⟩
    | separator hold hnew =>
      rw [terminates_eq_false fun hb => not_isSeparating_of_isFixed hb hold,
        terminates_eq_false fun hb => not_isSeparating_of_isFixed hb hnew]
    | quote hold hnew =>
      rw [terminates_eq_false fun hb => not_isQuote_of_isFixed hb hold,
        terminates_eq_false fun hb => not_isQuote_of_isFixed hb hnew]

end

/-- Whatever separators and quotes a source is written with, its parse is the same down to
positions, and so is what stands in quoted lexemes and comments. -/
theorem parse_respelled [Runtime] {options : Options} {source source' : Bytes}
    {g : Grammar Span Position} (h : parse options source = .ok g)
    (hrespelled : Respelled source g source') :
    parse options source' = .ok g ∧
    (∀ n ∈ g.nodes, n.IsQuoted → ∀ i, n.note.start.offset < i → i + 1 < n.note.stop →
      source'[i]? = source[i]?) ∧
    ∀ k ∈ g.comments, ∀ i, k.start.offset ≤ i → i < k.stop source → source'[i]? = source[i]? := by
  obtain ⟨spelled, hresult, rfl⟩ := parse_eq_ok h
  have hspelled := spells_of_document hresult
  have hquoting := hspelled.quoting options
  refine ⟨?_, ?_, ?_⟩
  · have hmap := hrespelled.respelling hspelled
    have hspelled' := hspelled.respell hmap (List.suffix_refl _) (List.Subset.refl _)
      (List.Subset.refl _)
    have hwhole : counterpart source source' source = source' := by
      unfold counterpart
      rw [Nat.sub_self, List.drop_zero]
    rw [hwhole] at hspelled'
    have hresult' := document_of_spells hspelled'
    have hposition : ∀ place, Anchored source place → Anchored source' place →
        Cursor.positionAt { source := source', options } place =
          Cursor.positionAt { source, options } place := by
      intro place hplace hplace'
      rw [positionAt_of_anchored options hplace, positionAt_of_anchored options hplace']
      unfold tablePosition
      rw [hrespelled.lineEnds_eq hquoting, hrespelled.length]
    rw [parse_eq, hresult']
    apply congrArg Except.ok
    apply Grammar.map_congr
    · intro n hn
      unfold Cursor.locate
      rw [hposition _ (anchored_nodes hresult n hn) (anchored_nodes hresult' n hn)]
    · intro k hk
      exact hposition _ (anchored_comments hresult k hk) (anchored_comments hresult' k hk)
  · intro n hn hquoted i hstart hstop
    exact hrespelled.quoted hquoting hn hquoted (Nat.le_of_lt hstart) (by omega) fun _ => by omega
  · intro k hk i hstart hstop
    exact hrespelled.comment hquoting hk hstart hstop

/-- Separators of all three kinds on two levels, and the same symbols in brackets, in terminal
strings of either quote, in a special sequence and in a comment. -/
def separatedSource : Bytes :=
  [0x61, 0x3D, 0x28, 0x62, 0x7C, 0x27, 0x78, 0x2F, 0x79, 0x27, 0x2F, 0x63, 0x29, 0x21, 0x28, 0x2F,
    0x22, 0x7C, 0x22, 0x7C, 0x3F, 0x7C, 0x3F, 0x28, 0x2A, 0x21, 0x2A, 0x29, 0x2F, 0x29, 0x7C, 0x27,
    0x22, 0x27, 0x3B]

/-- All separators are others, and so are the quotes but those around a quote. -/
def exchangedSource : Bytes :=
  [0x61, 0x3D, 0x28, 0x62, 0x2F, 0x22, 0x78, 0x2F, 0x79, 0x22, 0x21, 0x63, 0x29, 0x7C, 0x28, 0x2F,
    0x27, 0x7C, 0x27, 0x2F, 0x3F, 0x7C, 0x3F, 0x28, 0x2A, 0x21, 0x2A, 0x29, 0x2F, 0x29, 0x21, 0x27,
    0x22, 0x27, 0x3B]

attribute [local instance] Runtime.usual

theorem parse_exchangedSource : ∃ g, parse {} separatedSource = .ok g ∧
    Respelled separatedSource g exchangedSource ∧ parse {} exchangedSource = .ok g := by
  have hsome : (parse {} separatedSource).toOption.any
      fun g => decide (Respelled separatedSource g exchangedSource) := by decide +kernel
  cases hparse : parse {} separatedSource with
  | error error => simp [hparse, Except.toOption] at hsome
  | ok g =>
    rw [hparse] at hsome
    have hrespelled : Respelled separatedSource g exchangedSource := of_decide_eq_true hsome
    exact ⟨g, rfl, hrespelled, (parse_respelled hparse hrespelled).1⟩

end Ebnf
