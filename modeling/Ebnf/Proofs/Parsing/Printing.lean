import Ebnf.Proofs.Parsing.Rendering
import Ebnf.Proofs.Text.Digits

/-!
# Every well-formed tree can be written down

The rendering shown here is a plain one: no trivia, square, curly and round
brackets, a comma behind each term and a bar behind each definition.  The last of
these commas and bars have nothing behind them and vanish when the source is read.
-/

namespace Ebnf

open Byte

/-! ### Lexemes -/

theorem SpellsWord.of_isWord {word : Bytes} (hnonempty : word ≠ [])
    (h : ∀ b ∈ word, Byte.isWord b) (rest : Bytes) :
    SpellsWord (word ++ rest) word [] rest := by
  induction word with
  | nil => exact (hnonempty rfl).elim
  | cons b word ih =>
    rw [List.forall_mem_cons] at h
    cases word with
    | nil => exact .last h.1
    | cons c word => exact .more h.1 .nothing (ih (List.cons_ne_nil _ _) h.2)

theorem IsName.spells {name : Bytes} (h : IsName name) (rest : Bytes) :
    SpellsName (name ++ rest) name [] rest := by
  obtain ⟨first, more, rfl, hletter, hmore⟩ := h
  have hword : ∀ b ∈ first :: more, Byte.isWord b := by
    rw [List.forall_mem_cons]
    exact ⟨isWord_of_isLetter hletter, hmore⟩
  exact .mk hletter (SpellsWord.of_isWord (List.cons_ne_nil _ _) hword rest)

/-! ### Productions -/

/-- Forgets the note of a node. -/
def blankNote (_ : Extent) : Unit := ()

/-- What the source begins with is not a `/`, unless what follows is. -/
def Unslashed (input rest : Bytes) : Prop :=
  input.head? = some solidus → rest.head? = some solidus

theorem SpellsTerm.unslashed [Runtime] {input middle : Bytes} {t : Term Extent}
    {comments : List (Comment Mark)} (h : SpellsTerm input t comments middle) (rest : Bytes) :
    Unslashed input rest := by
  intro hhead
  obtain ⟨b, hb, hterm⟩ := h.head
  obtain rfl := Option.some.inj (hb.symm.trans hhead)
  exact absurd hterm (by decide)

theorem Bracket.exists_symbols (bracket : Bracket) (rest : Bytes) :
    ∃ opener ∈ bracket.openers, ∃ closer ∈ bracket.closers,
      (closer ++ rest).head? ≠ some solidus := by
  cases bracket with
  | optional =>
    exact ⟨_, mem_openers_optional.2 (.inl rfl), _, mem_closers_optional.2 (.inl rfl),
      by simp +decide⟩
  | repeated =>
    exact ⟨_, mem_openers_repeated.2 (.inl rfl), _, mem_closers_repeated.2 (.inl rfl),
      by simp +decide⟩
  | grouped =>
    exact ⟨_, mem_openers_grouped.2 rfl, _, mem_closers_grouped.2 rfl, by simp +decide⟩

/-! A count of many digits has a rendering only where it is not refused. -/

attribute [local instance] Runtime.unlimited

theorem exists_spellsCount (count : Nat) : ∃ digits, SpellsCount digits count := by
  obtain ⟨digits, hnonempty, hdigit, rfl⟩ := exists_digits count
  exact ⟨digits, hnonempty, hdigit, rfl, decimal_eq_ofDigits digits⟩

mutual

theorem Primary.exists_spelling : (p : Primary Unit) → (∀ n ∈ p.nodes, n.HasLexeme) →
    ∀ rest, ∃ input q, SpellsPrimary input q [] rest ∧ q.map blankNote = p
  | .bracketed _ bracket definitions, h, rest => by
    rw [Primary.nodes, List.forall_mem_cons] at h
    obtain ⟨opener, hopener, closer, hcloser, hplain⟩ := bracket.exists_symbols rest
    obtain ⟨inside, contents, hinside, rfl, hclear⟩ :=
      Definition.exists_spellings definitions h.2 (closer ++ rest)
    have hslash : bracket = .grouped → inside.head? ≠ some solidus :=
      fun _ hhead => hplain (hclear hhead)
    exact ⟨_, _, .bracketed hopener hcloser hslash (.mk hinside), rfl⟩
  | .identifier _ name, h, rest => by
    have hname : IsName name := h (.ofPrimary (.identifier () name)) (by simp [Primary.nodes])
    exact ⟨_, _, .identifier (hname.spells rest), rfl⟩
  | .terminal _ content, h, rest => by
    have hcontent : IsTerminalContent content :=
      h (.ofPrimary (.terminal () content)) (by simp [Primary.nodes])
    obtain ⟨hnonempty, quote, hquote, hterminal⟩ := hcontent
    exact ⟨_, _, .terminal hquote hnonempty hterminal rfl, rfl⟩
  | .special _ content, h, rest => by
    have hcontent : IsSpecialContent content :=
      h (.ofPrimary (.special () content)) (by simp [Primary.nodes])
    obtain ⟨interior, hinterior, rfl⟩ := hcontent
    exact ⟨_, _, .special hinterior rfl, rfl⟩

theorem Factor.exists_spelling : (x : Factor Unit) → (∀ n ∈ x.nodes, n.HasLexeme) →
    ∀ rest, ∃ input y, SpellsFactor input y [] rest ∧ y.map blankNote = x
  | .primary p, h, rest => by
    obtain ⟨input, q, hq, rfl⟩ := p.exists_spelling h rest
    exact ⟨input, .primary q, .primary hq, rfl⟩
  | .repetition _ count none, _, rest => by
    obtain ⟨digits, hcount⟩ := exists_spellsCount count
    have htrivia : SpellsTrivia (asterisk :: rest) [] (asterisk :: rest) := .nothing
    exact ⟨_, _, .repetition hcount htrivia, rfl⟩
  | .repetition _ count (some operand), h, rest => by
    rw [Factor.nodes, List.forall_mem_cons] at h
    obtain ⟨digits, hcount⟩ := exists_spellsCount count
    obtain ⟨input, q, hq, rfl⟩ := operand.exists_spelling h.2 rest
    have htrivia : SpellsTrivia (asterisk :: input) [] (asterisk :: input) := .nothing
    exact ⟨_, _, .repetitionOf hcount htrivia .nothing hq, rfl⟩

theorem Term.exists_spelling : (t : Term Unit) → (∀ n ∈ t.nodes, n.HasLexeme) →
    ∀ rest, ∃ input s, SpellsTerm input s [] rest ∧ s.map blankNote = t
  | .factor x, h, rest => by
    obtain ⟨input, y, hy, rfl⟩ := x.exists_spelling h rest
    exact ⟨input, .factor y, .factor hy, rfl⟩
  | .exception _ base none, h, rest => by
    rw [Term.nodes, List.forall_mem_cons] at h
    obtain ⟨input, y, hy, rfl⟩ := base.exists_spelling h.2 (hyphen :: rest)
    exact ⟨input, _, .exception hy .nothing, rfl⟩
  | .exception _ base (some excluded), h, rest => by
    rw [Term.nodes, List.forall_mem_cons, List.forall_mem_append] at h
    obtain ⟨middle, z, hz, rfl⟩ := excluded.exists_spelling h.2.2 rest
    obtain ⟨input, y, hy, rfl⟩ := base.exists_spelling h.2.1 (hyphen :: middle)
    exact ⟨input, _, .exceptionOf hy .nothing .nothing hz, rfl⟩

theorem Term.exists_spellings : (terms : List (Term Unit)) →
    (∀ n ∈ Term.nodesAll terms, n.HasLexeme) → ∀ rest, ∃ input spelled,
      SpellsChain (SpellsSlot SpellsTerm) SpellsComma input spelled [] rest ∧
        Term.mapAll blankNote spelled = terms ∧ Unslashed input rest
  | [], _, rest => by
    have hslot : SpellsSlot SpellsTerm rest none [] rest := .empty .nothing
    exact ⟨rest, [], .last hslot, rfl, id⟩
  | t :: more, h, rest => by
    rw [Term.nodesAll, List.forall_mem_append] at h
    obtain ⟨next, spelled, hspelled, rfl, -⟩ := Term.exists_spellings more h.2 rest
    obtain ⟨input, s, hs, rfl⟩ := t.exists_spelling h.1 (comma :: next)
    exact ⟨input, s :: spelled, .more (.filled .nothing hs .nothing) .mk hspelled, rfl,
      hs.unslashed rest⟩

theorem Definition.exists_spelling : (d : Definition Unit) → (∀ n ∈ d.nodes, n.HasLexeme) →
    ∀ rest, ∃ input e, SpellsDefinition input (some e) [] rest ∧ e.map blankNote = d ∧
      Unslashed input rest
  | .term t, h, rest => by
    obtain ⟨input, s, hs, rfl⟩ := t.exists_spelling h rest
    have hslot : SpellsSlot SpellsTerm input (some s) [] rest := .filled .nothing hs .nothing
    exact ⟨input, .term s, .term (.last hslot), rfl, hs.unslashed rest⟩
  | .concatenation _ first second more, h, rest => by
    rw [Definition.nodes, List.forall_mem_cons, List.forall_mem_append,
      List.forall_mem_append] at h
    obtain ⟨input₃, spelled, hspelled, rfl, -⟩ := Term.exists_spellings more h.2.2.2 rest
    obtain ⟨input₂, s₂, hs₂, rfl⟩ := second.exists_spelling h.2.2.1 (comma :: input₃)
    obtain ⟨input₁, s₁, hs₁, rfl⟩ := first.exists_spelling h.2.1 (comma :: input₂)
    have hterms : SpellsChain (SpellsSlot SpellsTerm) SpellsComma input₁
        (s₁ :: s₂ :: spelled) [] rest :=
      .more (.filled .nothing hs₁ .nothing) .mk
        (.more (.filled .nothing hs₂ .nothing) .mk hspelled)
    exact ⟨input₁, _, .concatenation hterms, rfl, hs₁.unslashed rest⟩

theorem Definition.exists_spellings : (definitions : List (Definition Unit)) →
    (∀ n ∈ Definition.nodesAll definitions, n.HasLexeme) → ∀ rest, ∃ input spelled,
      SpellsChain SpellsDefinition SpellsSeparator input spelled [] rest ∧
        Definition.mapAll blankNote spelled = definitions ∧ Unslashed input rest
  | [], _, rest => by
    have hslot : SpellsSlot SpellsTerm rest none [] rest := .empty .nothing
    have hdefinition : SpellsDefinition rest none [] rest := .nothing (.last hslot)
    exact ⟨rest, [], .last hdefinition, rfl, id⟩
  | d :: more, h, rest => by
    rw [Definition.nodesAll, List.forall_mem_append] at h
    obtain ⟨next, spelled, hspelled, rfl, -⟩ := Definition.exists_spellings more h.2 rest
    obtain ⟨input, e, he, rfl, hclear⟩ := d.exists_spelling h.1 (verticalLine :: next)
    have hbar : SpellsSeparator (verticalLine :: next) next := .mk (.inl rfl) (by simp +decide)
    have hslash : Unslashed input rest := fun hhead => absurd (hclear hhead) (by simp +decide)
    exact ⟨input, e :: spelled, .more he hbar hspelled, rfl, hslash⟩

end

theorem Rule.exists_spelling (r : Rule Unit) (h : ∀ n ∈ r.nodes, n.HasLexeme) (rest : Bytes) :
    ∃ input s, SpellsRule input s [] rest ∧ s.map blankNote = r := by
  rw [Rule.nodes, List.forall_mem_cons] at h
  obtain ⟨body, contents, hcontents, hmap, -⟩ :=
    Definition.exists_spellings r.definitions h.2 (semicolon :: rest)
  have hname : IsName r.name := h.1
  have hrule := SpellsRule.mk (hname.spells (equalsSign :: body)) .nothing (.mk hcontents)
  refine ⟨_, _, hrule, ?_⟩
  rw [Definition.mapAll_eq] at hmap
  rw [Rule.map, hmap]

/-- Where no number is refused, every well-formed tree has a rendering. -/
theorem exists_renders (rules : List (Rule Unit))
    (h : (⟨rules, []⟩ : Grammar Unit Unit).WellFormed) :
    ∃ source, Renders source ⟨rules, []⟩ := by
  suffices hspelled : ∃ source spelled, SpellsDocument source ⟨spelled, []⟩ ∧
      spelled.map (Rule.map blankNote) = rules by
    obtain ⟨source, spelled, hsource, rfl⟩ := hspelled
    exact ⟨source, _, hsource, rfl⟩
  unfold Grammar.WellFormed Grammar.nodes at h
  induction rules with
  | nil => exact ⟨[], [], .trivia .nothing, rfl⟩
  | cons r rules ih =>
    simp only [List.flatMap_cons, List.forall_mem_append] at h
    obtain ⟨rest, spelled, hrest, rfl⟩ := ih h.2
    obtain ⟨input, s, hs, rfl⟩ := r.exists_spelling h.1 rest
    exact ⟨input, s :: spelled, .rule .nothing hs hrest, rfl⟩

end Ebnf
