import Ebnf.Proofs.Parsing.Hierarchy
import Ebnf.Proofs.Spelling.Respelling

/-!
# Bytes that may be exchanged

Any separator may be written as `|`, `/` or `!`, and a terminal string that has neither quote in
it may be put between either.  Where these bytes stand is said in terms of what a parse gives:
outside quoted lexemes and comments, and at the ends of terminal strings.

The only care to be taken is with `/`, which between `(` and `)` may be part of a bracket.  A
separating `/` never touches one of the two, and a new one must not either: with that alone, no
other symbol of the document changes, however deep it is nested.
-/

namespace Ebnf

open Byte Reader

/-- A `/` at the offset would be part of `(/` or of `/)`. -/
def FormsBracket (source : Bytes) (i : Nat) : Prop :=
  (0 < i ∧ source[i - 1]? = some leftParenthesis) ∨ source[i + 1]? = some rightParenthesis

instance (source : Bytes) (i : Nat) : Decidable (FormsBracket source i) :=
  inferInstanceAs (Decidable (_ ∨ _))

instance (n : Node α) : Decidable n.IsQuoted :=
  inferInstanceAs (Decidable (_ ∨ _))

/-- A separator of the parsed document stands at the offset: one of the three symbols, alone
and not inside a terminal string, a special sequence or a comment. -/
structure SeparatorAt (source : Bytes) (g : Grammar Span Position) (i : Nat) : Prop where
  symbol : ∃ b ∈ source[i]?, isSeparating b
  single : source[i]? = some solidus → ¬FormsBracket source i
  unquoted : ∀ n ∈ g.nodes, n.IsQuoted → i < n.note.start.offset ∨ n.note.stop ≤ i
  uncommented : ∀ k ∈ g.comments, i < k.start.offset ∨ k.stop source ≤ i

instance (source : Bytes) (g : Grammar Span Position) (i : Nat) :
    Decidable (SeparatorAt source g i) :=
  decidable_of_iff
    ((∃ b ∈ source[i]?, isSeparating b) ∧ (source[i]? = some solidus → ¬FormsBracket source i) ∧
      (∀ n ∈ g.nodes, n.IsQuoted → i < n.note.start.offset ∨ n.note.stop ≤ i) ∧
      ∀ k ∈ g.comments, i < k.start.offset ∨ k.stop source ≤ i)
    ⟨fun ⟨symbol, single, unquoted, uncommented⟩ => ⟨symbol, single, unquoted, uncommented⟩,
      fun ⟨symbol, single, unquoted, uncommented⟩ => ⟨symbol, single, unquoted, uncommented⟩⟩

/-- A terminal string with neither quote in its text. -/
def Node.isPlainTerminal : Node α → Bool
  | .definition (.term (.factor (.primary (.terminal _ content)))) =>
    !content.contains apostrophe && !content.contains quotationMark
  | _ => false

/-- One of the two quotes of such a terminal string stands at the offset. -/
def QuoteAt (g : Grammar Span Position) (i : Nat) : Prop :=
  ∃ n ∈ g.nodes, n.isPlainTerminal ∧ (i = n.note.start.offset ∨ i + 1 = n.note.stop)

instance (g : Grammar Span Position) (i : Nat) : Decidable (QuoteAt g i) :=
  inferInstanceAs (Decidable (∃ n ∈ g.nodes, _))

/-- The source with other separators in place of some, and with other quotes around some of the
terminal strings that have none in their texts. -/
structure Respelled (source : Bytes) (g : Grammar Span Position) (source' : Bytes) : Prop where
  length : source'.length = source.length
  separators : ∀ i < source.length, SeparatorAt source g i →
    ∃ b ∈ source'[i]?, isSeparating b ∧ (b = solidus → ¬FormsBracket source i)
  quotes : ∀ n ∈ g.nodes, n.isPlainTerminal → ∃ quote ∈ source'[n.note.start.offset]?,
    isQuote quote ∧ source'[n.note.stop - 1]? = some quote
  others : ∀ i < source.length, ¬SeparatorAt source g i → ¬QuoteAt g i → source'[i]? = source[i]?

instance (source : Bytes) (g : Grammar Span Position) (source' : Bytes) :
    Decidable (Respelled source g source') :=
  decidable_of_iff
    (source'.length = source.length ∧
      (∀ i < source.length, SeparatorAt source g i →
        ∃ b ∈ source'[i]?, isSeparating b ∧ (b = solidus → ¬FormsBracket source i)) ∧
      (∀ n ∈ g.nodes, n.isPlainTerminal → ∃ quote ∈ source'[n.note.start.offset]?,
        isQuote quote ∧ source'[n.note.stop - 1]? = some quote) ∧
      ∀ i < source.length, ¬SeparatorAt source g i → ¬QuoteAt g i → source'[i]? = source[i]?)
    ⟨fun ⟨length, separators, quotes, others⟩ => ⟨length, separators, quotes, others⟩,
      fun ⟨length, separators, quotes, others⟩ => ⟨length, separators, quotes, others⟩⟩

/-! ### Places of a source -/

section

variable {source before front rest : Bytes} {b : UInt8}

theorem getElem?_front (hsource : before ++ (front ++ rest) = source) {j : Nat}
    (hj : j < front.length) : source[before.length + j]? = front[j]? := by
  rw [← hsource, List.getElem?_append_right (Nat.le_add_right _ _), Nat.add_sub_cancel_left,
    List.getElem?_append_left hj]

theorem getElem?_cons (hsource : before ++ b :: rest = source) :
    source[before.length]? = some b := by
  rw [← hsource, List.getElem?_append_right (Nat.le_refl _), Nat.sub_self,
    List.getElem?_cons_zero]

theorem getElem?_behind (hsource : before ++ b :: rest = source) :
    source[before.length + 1]? = rest.head? := by
  rw [← hsource, List.getElem?_append_right (Nat.le_add_right _ _), Nat.add_sub_cancel_left,
    List.getElem?_cons_succ, List.head?_eq_getElem?]

end

/-- Where a place lies, and what ends there. -/
theorem locate_place (options : Options) {source before input rest : Bytes}
    (hsource : before ++ input = source) (hrest : rest.length ≤ input.length) :
    (Cursor.locate { source, options } ⟨input.length, rest.length⟩).start.offset = before.length ∧
      (Cursor.locate { source, options } ⟨input.length, rest.length⟩).stop =
        before.length + (input.length - rest.length) := by
  have hlength : source.length = before.length + input.length := by
    rw [← hsource, List.length_append]
  have hplace : input <:+ source := ⟨before, hsource⟩
  rw [start_locate, stop_locate hrest hplace.length_le, hlength]
  exact ⟨Nat.add_sub_cancel .., Nat.add_sub_assoc hrest _⟩

/-! ### Quoted lexemes of a parsed document -/

theorem Node.of_isPlainTerminal {n : Node α} (h : n.isPlainTerminal) :
    ∃ note content, n = .ofPrimary (.terminal note content) := by
  unfold Node.isPlainTerminal at h
  split at h
  · exact ⟨_, _, rfl⟩
  · cases h

theorem Node.isPlainTerminal_terminal {note : α} {content : Bytes} :
    (Node.ofPrimary (.terminal note content)).isPlainTerminal ↔
      apostrophe ∉ content ∧ quotationMark ∉ content := by
  simp [Node.ofPrimary, Node.isPlainTerminal]

theorem Node.isQuoted_of_isPlainTerminal {n : Node α} (h : n.isPlainTerminal) : n.IsQuoted := by
  obtain ⟨_, _, rfl⟩ := Node.of_isPlainTerminal h
  exact .inl rfl

theorem Node.IsQuoted.exists_primary {n : Node α} (h : n.IsQuoted) :
    ∃ p, n = .ofPrimary p ∧ p.children = [] := by
  match n with
  | .rule _ => rcases h with h | h <;> cases h
  | .definition (.concatenation ..) => rcases h with h | h <;> cases h
  | .definition (.term (.exception ..)) => rcases h with h | h <;> cases h
  | .definition (.term (.factor (.repetition ..))) => rcases h with h | h <;> cases h
  | .definition (.term (.factor (.primary (.bracketed ..)))) => rcases h with h | h <;> cases h
  | .definition (.term (.factor (.primary (.identifier ..)))) => exact ⟨_, rfl, rfl⟩
  | .definition (.term (.factor (.primary (.terminal ..)))) => exact ⟨_, rfl, rfl⟩
  | .definition (.term (.factor (.primary (.special ..)))) => exact ⟨_, rfl, rfl⟩

/-- Nothing is below a quoted node. -/
theorem Node.IsQuoted.not_below {m n : Node α} (h : n.IsQuoted) : ¬m.Below n := by
  obtain ⟨p, rfl, hchildren⟩ := h.exists_primary
  have hnone : ∀ c : Node α, c ∉ (Node.ofPrimary p).children := by
    intro c hc
    have hempty : c ∈ p.children := hc
    rw [hchildren] at hempty
    cases hempty
  intro hbelow
  cases hbelow with
  | single hc => exact hnone _ hc
  | tail _ hc => exact hnone _ hc

/-- Quoted lexemes lie apart from one another and from comments, and terminal strings stand
between quotes. -/
structure Quoting (source : Bytes) (g : Grammar Span Position) : Prop where
  proper : ∀ n ∈ g.nodes, n.note.start.offset < n.note.stop
  apart : ∀ m ∈ g.nodes, ∀ n ∈ g.nodes, m.IsQuoted → n.IsQuoted → m ≠ n →
    m.note.stop ≤ n.note.start.offset ∨ n.note.stop ≤ m.note.start.offset
  comments : ∀ n ∈ g.nodes, n.IsQuoted → ∀ k ∈ g.comments,
    k.stop source ≤ n.note.start.offset ∨ n.note.stop ≤ k.start.offset
  quotes : ∀ i, QuoteAt g i → ∃ quote, source[i]? = some quote ∧ isQuote quote

section

variable (options : Options) {source : Bytes}

theorem SpellsPrimary.quotes [Runtime] {input rest content : Bytes} {extent : Extent}
    {comments : List (Comment Mark)}
    (h : SpellsPrimary input (.terminal extent content) comments rest)
    (hplace : input <:+ source) :
    ∃ quote, isQuote quote ∧
      source[(Cursor.locate { source, options } extent).start.offset]? = some quote ∧
      source[(Cursor.locate { source, options } extent).stop - 1]? = some quote := by
  obtain ⟨before, hsource⟩ := hplace
  obtain ⟨hstart, hstop⟩ := locate_place options hsource h.suffix.length_le
  cases h with
  | @terminal quote _ _ _ hquote _ _ hinput =>
    have hbehind : before ++ (quote :: content) ++ quote :: rest = source := by
      simpa [hinput] using hsource
    have hlast : (Cursor.locate { source, options } ⟨input.length, rest.length⟩).stop - 1 =
        (before ++ quote :: content).length := by
      rw [hstop, hinput]
      simp only [List.length_append, List.length_cons]
      omega
    rw [hstart, hlast]
    rw [hinput] at hsource
    refine ⟨quote, ?_, getElem?_cons hsource, getElem?_cons hbehind⟩
    rcases hquote with rfl | rfl <;> decide

theorem SpellsDocument.quoting [Runtime] {spelled : Grammar Extent Mark}
    (h : SpellsDocument source spelled) :
    Quoting source (spelled.map (Cursor.locate { source, options })
      (Cursor.positionAt { source, options })) := by
  have hspaced := h.spaced options
  constructor
  case proper =>
    intro n hn
    exact Nat.lt_add_of_pos_right (hspaced.nodes n hn).proper
  case apart =>
    intro m hm n hn hquoted hquoted' hne
    rcases hspaced.nested_or_apart hm hn hne with hbelow | hbelow | hapart
    · exact absurd hbelow hquoted'.not_below
    · exact absurd hbelow hquoted.not_below
    · exact hapart
  case comments =>
    rw [Grammar.nodes_map, List.forall_mem_map]
    intro n hn hquoted
    rw [Node.isQuoted_map] at hquoted
    rw [Grammar.map, List.forall_mem_map, Node.note_map]
    intro k hk
    rw [Comment.stop_positionAt, start_locate,
      stop_locate (h.grounded.nodes n hn).stop_le_start (h.laid.nodesWithin n hn).1]
    simp only [Comment.map, offset_positionAt]
    rcases h.laid.apart n hn hquoted k hk with hbefore | hbehind
    · exact .inl (Nat.sub_le_sub_left hbefore _)
    · exact .inr (Nat.sub_le_sub_left hbehind _)
  case quotes =>
    rintro i ⟨n, hn, hplain, hi⟩
    obtain ⟨span, content, rfl⟩ := Node.of_isPlainTerminal hplain
    rw [Grammar.nodes_map] at hn
    obtain ⟨m, hm, hmap⟩ := List.mem_map.1 hn
    obtain ⟨p, rfl, hp⟩ := Node.map_eq_ofPrimary hmap
    obtain ⟨extent, rfl, rfl⟩ := Primary.map_eq_terminal hp
    obtain ⟨hplace, hnode⟩ := h.grounded.nodes _ hm
    obtain ⟨_, hprimary⟩ := hnode.exact_primary
    obtain ⟨quote, hquote, hfirst, hlast⟩ := hprimary.quotes options hplace
    simp only [Node.ofPrimary, Node.note, Definition.note, Term.note, Factor.note,
      Primary.note] at hi
    rcases hi with rfl | hi
    · exact ⟨quote, hfirst, hquote⟩
    · rw [← hi, Nat.add_sub_cancel] at hlast
      exact ⟨quote, hlast, hquote⟩

end

/-! ### Bytes that stand and bytes that do not -/

/-- What may stand in the place of a byte. -/
inductive MayBecome (source : Bytes) (i : Nat) : UInt8 → UInt8 → Prop
  | same : MayBecome source i b b
  | separator (hold : isSeparating b) (hnew : isSeparating b')
      (hclear : b' = solidus → ¬FormsBracket source i) : MayBecome source i b b'
  | quote (hold : isQuote b) (hnew : isQuote b') : MayBecome source i b b'

namespace Respelled

variable {source source' : Bytes} {g : Grammar Span Position} (hquoting : Quoting source g)
  (h : Respelled source g source') {i : Nat} {b : UInt8}

include h in
theorem stands (hseparator : ¬SeparatorAt source g i) (hquote : ¬QuoteAt g i) :
    source'[i]? = source[i]? := by
  rcases Nat.lt_or_ge i source.length with hi | hi
  · exact h.others i hi hseparator hquote
  · rw [List.getElem?_eq_none hi, List.getElem?_eq_none (h.length ▸ hi)]

include hquoting

/-- At a quote of a terminal string nothing else of the document is. -/
theorem not_quoteAt {n : Node Span} (hn : n ∈ g.nodes) (hquoted : n.IsQuoted)
    (hstart : n.note.start.offset ≤ i) (hstop : i < n.note.stop)
    (hinside : n.isPlainTerminal → i ≠ n.note.start.offset ∧ i + 1 ≠ n.note.stop) :
    ¬QuoteAt g i := by
  rintro ⟨m, hm, hplain, hi⟩
  have hproper := hquoting.proper m hm
  by_cases hsame : m = n
  · subst hsame
    exact hi.elim (hinside hplain).1 (hinside hplain).2
  · have hapart := hquoting.apart m hm n hn (Node.isQuoted_of_isPlainTerminal hplain) hquoted hsame
    omega

include h

/-- Inside a quoted lexeme everything stands, but for quotes that may be exchanged. -/
theorem quoted {n : Node Span} (hn : n ∈ g.nodes) (hquoted : n.IsQuoted)
    (hstart : n.note.start.offset ≤ i) (hstop : i < n.note.stop)
    (hinside : n.isPlainTerminal → i ≠ n.note.start.offset ∧ i + 1 ≠ n.note.stop) :
    source'[i]? = source[i]? := by
  apply h.stands
  · intro hseparator
    have hunquoted := hseparator.unquoted n hn hquoted
    omega
  · exact not_quoteAt hquoting hn hquoted hstart hstop hinside

theorem comment {k : Comment Position} (hk : k ∈ g.comments) (hstart : k.start.offset ≤ i)
    (hstop : i < k.stop source) : source'[i]? = source[i]? := by
  apply h.stands
  · intro hseparator
    have huncommented := hseparator.uncommented k hk
    omega
  · rintro ⟨n, hn, hplain, hat⟩
    have hproper := hquoting.proper n hn
    have hapart := hquoting.comments n hn (Node.isQuoted_of_isPlainTerminal hplain) k hk
    omega

theorem becomes (hi : source[i]? = some b) :
    ∃ b', source'[i]? = some b' ∧ MayBecome source i b b' := by
  obtain ⟨hlength, -⟩ := List.getElem?_eq_some_iff.1 hi
  by_cases hseparator : SeparatorAt source g i
  · obtain ⟨b₀, hb₀, hseparating⟩ := hseparator.symbol
    obtain rfl := Option.some.inj (hi.symm.trans hb₀)
    obtain ⟨b', hb', hnew, hclear⟩ := h.separators i hlength hseparator
    exact ⟨b', hb', .separator hseparating hnew hclear⟩
  · by_cases hquote : QuoteAt g i
    · obtain ⟨b₀, hb₀, hisQuote⟩ := hquoting.quotes i hquote
      obtain rfl := Option.some.inj (hi.symm.trans hb₀)
      obtain ⟨n, hn, hplain, hat⟩ := hquote
      obtain ⟨b', hfirst, hnew, hlast⟩ := h.quotes n hn hplain
      refine ⟨b', ?_, .quote hisQuote hnew⟩
      rcases hat with rfl | hat
      · exact hfirst
      · rwa [← hat, Nat.add_sub_cancel] at hlast
    · exact ⟨b, (h.stands hseparator hquote).trans hi, .same⟩

theorem arises {b' : UInt8} (hi : source'[i]? = some b') :
    ∃ b, source[i]? = some b ∧ MayBecome source i b b' := by
  have hlength : i < source.length := by
    rw [← h.length]
    exact (List.getElem?_eq_some_iff.1 hi).1
  have hold : source[i]? = some source[i] := List.getElem?_eq_getElem hlength
  obtain ⟨b₀, hb₀, hbecomes⟩ := becomes hquoting h hold
  obtain rfl := Option.some.inj (hi.symm.trans hb₀)
  exact ⟨source[i], hold, hbecomes⟩

theorem fixed (hb : isFixed b) (hi : source[i]? = some b) : source'[i]? = some b := by
  obtain ⟨b', hb', hsame | hseparating | hquote⟩ := becomes hquoting h hi
  · exact hb'
  · exact absurd hseparating (not_isSeparating_of_isFixed hb)
  · exact absurd hquote (not_isQuote_of_isFixed hb)

/-- Bytes for which no other may stand do not come up anew. -/
theorem of_fixed (hb : isFixed b) (hi : source'[i]? = some b) : source[i]? = some b := by
  obtain ⟨b₀, hb₀, hsame | ⟨-, hnew⟩ | ⟨-, hnew⟩⟩ := arises hquoting h hi
  · exact hb₀
  · exact absurd hnew (not_isSeparating_of_isFixed hb)
  · exact absurd hnew (not_isQuote_of_isFixed hb)

/-- The `/` of a bracket stands. -/
theorem solidus_of_bracket (hbracket : FormsBracket source i) (hi : source[i]? = some solidus) :
    source'[i]? = some solidus := by
  rw [← hi]
  apply h.stands
  · intro hseparator
    exact hseparator.single hi hbracket
  · intro hquote
    obtain ⟨quote, hat, hisQuote⟩ := hquoting.quotes i hquote
    obtain rfl := Option.some.inj (hi.symm.trans hat)
    cases hisQuote

/-- A `/` does not come up next to `(` or `)`. -/
theorem of_solidus (hi : source'[i]? = some solidus) :
    source[i]? = some solidus ∨ ¬FormsBracket source i := by
  obtain ⟨b₀, hb₀, hsame | ⟨-, -, hclear⟩ | ⟨-, hnew⟩⟩ := arises hquoting h hi
  · exact .inl hb₀
  · exact .inr (hclear rfl)
  · cases hnew

end Respelled

end Ebnf
