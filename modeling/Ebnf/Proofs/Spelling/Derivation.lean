import Ebnf.Proofs.Spelling.Symbols

/-!
# The grammar of the notation

The notation is described by a grammar over its symbols, in which a primary may be empty and
so may everything above it up to lists of definitions.  In that grammar either operand of an
exception may be empty.  The spellings agree with it but for one place: in them the operand
before `-` is never empty.  So the grammar is given with a condition on that operand, and
what is spelled is what is derived when it may not be empty.
-/

namespace Ebnf

open Byte

/-! ### Derivations -/

section

-- Whether nothing may stand before `-`, and which runs of digits may be counts.
variable (bare : Prop) (counted : Nat → Prop)

mutual

inductive DerivesPrimary : List Symbol → Prop
  | empty : DerivesPrimary []
  | name : DerivesPrimary [.name]
  | terminal : DerivesPrimary [.terminal]
  | special : DerivesPrimary [.special]
  | bracketed (hinside : DerivesDefinitions symbols) :
      DerivesPrimary (.opening bracket :: (symbols ++ [.closing bracket]))

inductive DerivesFactor : List Symbol → Prop
  | primary (hprimary : DerivesPrimary symbols) : DerivesFactor symbols
  | repetition (hcount : counted digits) (hoperand : DerivesPrimary symbols) :
      DerivesFactor (.integer digits :: .repetition :: symbols)

inductive DerivesTerm : List Symbol → Prop
  | factor (hfactor : DerivesFactor symbols) : DerivesTerm symbols
  | exception (hbase : DerivesFactor base) (hbare : base = [] → bare)
      (hexcluded : DerivesFactor excluded) : DerivesTerm (base ++ .except :: excluded)

inductive DerivesDefinition : List Symbol → Prop
  | term (hterm : DerivesTerm symbols) : DerivesDefinition symbols
  | concatenation (hterm : DerivesTerm symbols) (hmore : DerivesDefinition more) :
      DerivesDefinition (symbols ++ .concatenate :: more)

inductive DerivesDefinitions : List Symbol → Prop
  | definition (hdefinition : DerivesDefinition symbols) : DerivesDefinitions symbols
  | alternatives (hdefinition : DerivesDefinition symbols) (hmore : DerivesDefinitions more) :
      DerivesDefinitions (symbols ++ .separator :: more)

end

inductive DerivesRule : List Symbol → Prop
  | mk (hdefinitions : DerivesDefinitions bare counted symbols) :
      DerivesRule (.name :: .defining :: (symbols ++ [.terminator]))

inductive DerivesDocument : List Symbol → Prop
  | empty : DerivesDocument []
  | rule (hrule : DerivesRule bare counted symbols) (hmore : DerivesDocument more) :
      DerivesDocument (symbols ++ more)

end

/-! ### A weaker condition -/

section

variable {bare bare' : Prop} {counted counted' : Nat → Prop}

mutual

theorem DerivesPrimary.mono {symbols : List Symbol} (h : DerivesPrimary bare counted symbols)
    (himp : bare → bare') (hcounted : ∀ digits, counted digits → counted' digits) :
    DerivesPrimary bare' counted' symbols := by
  match h with
  | .empty => exact .empty
  | .name => exact .name
  | .terminal => exact .terminal
  | .special => exact .special
  | .bracketed hinside => exact .bracketed (hinside.mono himp hcounted)

theorem DerivesFactor.mono {symbols : List Symbol} (h : DerivesFactor bare counted symbols)
    (himp : bare → bare') (hcounted : ∀ digits, counted digits → counted' digits) :
    DerivesFactor bare' counted' symbols := by
  match h with
  | .primary hprimary => exact .primary (hprimary.mono himp hcounted)
  | .repetition hcount hoperand =>
    exact .repetition (hcounted _ hcount) (hoperand.mono himp hcounted)

theorem DerivesTerm.mono {symbols : List Symbol} (h : DerivesTerm bare counted symbols)
    (himp : bare → bare') (hcounted : ∀ digits, counted digits → counted' digits) :
    DerivesTerm bare' counted' symbols := by
  match h with
  | .factor hfactor => exact .factor (hfactor.mono himp hcounted)
  | .exception hbase hbare hexcluded =>
    exact .exception (hbase.mono himp hcounted) (himp ∘ hbare) (hexcluded.mono himp hcounted)

theorem DerivesDefinition.mono {symbols : List Symbol} (h : DerivesDefinition bare counted symbols)
    (himp : bare → bare') (hcounted : ∀ digits, counted digits → counted' digits) :
    DerivesDefinition bare' counted' symbols := by
  match h with
  | .term hterm => exact .term (hterm.mono himp hcounted)
  | .concatenation hterm hmore =>
    exact .concatenation (hterm.mono himp hcounted) (hmore.mono himp hcounted)

theorem DerivesDefinitions.mono {symbols : List Symbol}
    (h : DerivesDefinitions bare counted symbols)
    (himp : bare → bare') (hcounted : ∀ digits, counted digits → counted' digits) :
    DerivesDefinitions bare' counted' symbols := by
  match h with
  | .definition hdefinition => exact .definition (hdefinition.mono himp hcounted)
  | .alternatives hdefinition hmore =>
    exact .alternatives (hdefinition.mono himp hcounted) (hmore.mono himp hcounted)

end

theorem DerivesDocument.mono {symbols : List Symbol} (h : DerivesDocument bare counted symbols)
    (himp : bare → bare') (hcounted : ∀ digits, counted digits → counted' digits) :
    DerivesDocument bare' counted' symbols := by
  induction h with
  | empty => exact .empty
  | rule hrule _ ih =>
    obtain ⟨hdefinitions⟩ := hrule
    exact .rule (.mk (hdefinitions.mono himp hcounted)) ih

end

/-! ### What is spelled is derived -/

/-- The bytes up to the rest are some symbols that are derived, and trivia behind them. -/
def Derived (derives : List Symbol → Prop) (input rest : Bytes) : Prop :=
  ∃ symbols middle comments, derives symbols ∧ SpellsSymbols input symbols middle ∧
    SpellsTrivia middle comments rest

/-- The bytes up to the rest are symbols that are derived, at least one, with no trivia behind. -/
def DerivedFully (derives : List Symbol → Prop) (input rest : Bytes) : Prop :=
  ∃ symbols, symbols ≠ [] ∧ derives symbols ∧ SpellsSymbols input symbols rest

section

variable {derives derives' : List Symbol → Prop} {input start middle rest : Bytes}

theorem Derived.mono (h : Derived derives input rest)
    (himp : ∀ symbols, derives symbols → derives' symbols) : Derived derives' input rest := by
  obtain ⟨symbols, middle, comments, hderives, hsymbols, htrivia⟩ := h
  exact ⟨symbols, middle, comments, himp symbols hderives, hsymbols, htrivia⟩

namespace DerivedFully

theorem mono (h : DerivedFully derives input rest)
    (himp : ∀ symbols, derives symbols → derives' symbols) : DerivedFully derives' input rest := by
  obtain ⟨symbols, hnonempty, hderives, hsymbols⟩ := h
  exact ⟨symbols, hnonempty, himp symbols hderives, hsymbols⟩

/-- A single symbol. -/
theorem of_symbol {symbol : Symbol} (hderives : derives [symbol])
    (hsymbol : SpellsSymbol input symbol rest) : DerivedFully derives input rest :=
  ⟨_, List.cons_ne_nil _ _, hderives, .single .nothing hsymbol⟩

/-- Trivia in front belongs to the first symbol. -/
theorem behind_trivia {comments : List (Comment Mark)}
    (htrivia : SpellsTrivia input comments start) (h : DerivedFully derives start rest) :
    DerivedFully derives input rest := by
  obtain ⟨symbols, hnonempty, hderives, hsymbols⟩ := h
  exact ⟨symbols, hnonempty, hderives, hsymbols.behind_trivia htrivia hnonempty⟩

theorem derived {comments : List (Comment Mark)} (h : DerivedFully derives input middle)
    (htrivia : SpellsTrivia middle comments rest) : Derived derives input rest := by
  obtain ⟨symbols, -, hderives, hsymbols⟩ := h
  exact ⟨symbols, middle, comments, hderives, hsymbols, htrivia⟩

end DerivedFully

end

variable [Runtime]

mutual

theorem SpellsPrimary.derived {input rest : Bytes} {p : Primary Extent}
    {comments : List (Comment Mark)} (h : SpellsPrimary input p comments rest)
    (hclosed : Closed rest) :
    DerivedFully (DerivesPrimary False (Runtime.converts ·)) input rest := by
  match h with
  | .bracketed hopener hcloser hclear hdefinitions =>
    obtain ⟨symbols, middle, _, hderives, hsymbols, htrivia⟩ :=
      hdefinitions.derived (.of_delimited (FollowsDefinitions.of_closer hcloser rest).1.1.1)
    have hopening := SpellsSymbol.opening hopener fun hgrouped =>
      ⟨by subst hgrouped; exact hdefinitions.plain_of_grouped hcloser, hclear hgrouped⟩
    refine ⟨_, List.cons_ne_nil _ _, .bracketed hderives, .symbol .nothing hopening ?_⟩
    exact hsymbols.append (.single htrivia (.closing hcloser))
  | .identifier hname => exact .of_symbol .name (.name hname hclosed)
  | .terminal hquote hnonempty hcontent hinput =>
    subst hinput
    exact .of_symbol .terminal (.terminal hquote hnonempty hcontent)
  | .special hinterior hinput =>
    subst hinput
    exact .of_symbol .special (.special hinterior)

theorem SpellsFactor.derived {input rest : Bytes} {x : Factor Extent}
    {comments : List (Comment Mark)} (h : SpellsFactor input x comments rest)
    (hclosed : Closed rest) :
    DerivedFully (DerivesFactor False (Runtime.converts ·)) input rest := by
  match h with
  | .primary hprimary => exact (hprimary.derived hclosed).mono fun _ => .primary
  | .repetition hcount htrivia =>
    refine ⟨_, List.cons_ne_nil _ _, .repetition hcount.converted .empty, ?_⟩
    exact .symbol .nothing (.integer hcount.nonempty hcount.digit htrivia.not_isDigit)
      (.single htrivia (.single rfl))
  | .repetitionOf hcount hbefore hafter hoperand =>
    obtain ⟨symbols, -, hderives, hsymbols⟩ := (hoperand.derived hclosed).behind_trivia hafter
    refine ⟨_, List.cons_ne_nil _ _, .repetition hcount.converted hderives, ?_⟩
    exact .symbol .nothing (.integer hcount.nonempty hcount.digit hbefore.not_isDigit)
      (.symbol hbefore (.single rfl) hsymbols)

theorem SpellsTerm.derived {input rest : Bytes} {t : Term Extent}
    {comments : List (Comment Mark)} (h : SpellsTerm input t comments rest)
    (hclosed : Closed rest) : DerivedFully (DerivesTerm False (Runtime.converts ·)) input rest := by
  have hhyphen : ∀ rest, Closed (hyphen :: rest) := fun _ => .of_delimited ⟨_, rfl, by decide⟩
  match h with
  | .factor hfactor => exact (hfactor.derived hclosed).mono fun _ => .factor
  | .exception hbase htrivia =>
    obtain ⟨base, hnonempty, hderives, hsymbols⟩ := hbase.derived (.of_trivia htrivia (hhyphen _))
    refine ⟨_, List.append_ne_nil_of_left_ne_nil hnonempty _,
      .exception hderives hnonempty (.primary .empty), ?_⟩
    exact hsymbols.append (.single htrivia (.single rfl))
  | .exceptionOf hbase hbefore hafter hexcluded =>
    obtain ⟨base, hnonempty, hderives, hsymbols⟩ := hbase.derived (.of_trivia hbefore (hhyphen _))
    obtain ⟨excluded, -, hderives', hsymbols'⟩ := (hexcluded.derived hclosed).behind_trivia hafter
    refine ⟨_, List.append_ne_nil_of_left_ne_nil hnonempty _,
      .exception hderives hnonempty hderives', ?_⟩
    exact hsymbols.append (.symbol hbefore (.single rfl) hsymbols')

theorem SpellsSlot.derived {input rest : Bytes} {value : Option (Term Extent)}
    {comments : List (Comment Mark)} (h : SpellsSlot SpellsTerm input value comments rest)
    (hclosed : Closed rest) : Derived (DerivesTerm False (Runtime.converts ·)) input rest := by
  match h with
  | .empty htrivia => exact ⟨[], input, _, .factor (.primary .empty), .nothing, htrivia⟩
  | .filled hbefore hterm hafter =>
    exact ((hterm.derived (.of_trivia hafter hclosed)).behind_trivia hbefore).derived hafter

theorem SpellsChain.derived_terms {input rest : Bytes} {terms : List (Term Extent)}
    {comments : List (Comment Mark)}
    (h : SpellsChain (SpellsSlot SpellsTerm) SpellsComma input terms comments rest)
    (hclosed : Closed rest) :
    Derived (DerivesDefinition False (Runtime.converts ·)) input rest := by
  match h with
  | .last hslot => exact (hslot.derived hclosed).mono fun _ => .term
  | .more hslot hcomma hmore =>
    obtain ⟨symbols, middle, _, hderives, hsymbols, htrivia⟩ :=
      hslot.derived (.of_delimited hcomma.follows.1)
    obtain ⟨more, stop, _, hderives', hsymbols', htrivia'⟩ := hmore.derived_terms hclosed
    cases hcomma
    exact ⟨_, stop, _, .concatenation hderives hderives',
      hsymbols.append (.symbol htrivia (.single rfl) hsymbols'), htrivia'⟩

theorem SpellsDefinition.derived {input rest : Bytes} {d : Option (Definition Extent)}
    {comments : List (Comment Mark)} (h : SpellsDefinition input d comments rest)
    (hclosed : Closed rest) :
    Derived (DerivesDefinition False (Runtime.converts ·)) input rest := by
  match h with
  | .nothing hterms => exact hterms.derived_terms hclosed
  | .term hterms => exact hterms.derived_terms hclosed
  | .concatenation hterms => exact hterms.derived_terms hclosed

theorem SpellsChain.derived_definitions {input rest : Bytes}
    {definitions : List (Definition Extent)} {comments : List (Comment Mark)}
    (h : SpellsChain SpellsDefinition SpellsSeparator input definitions comments rest)
    (hclosed : Closed rest) :
    Derived (DerivesDefinitions False (Runtime.converts ·)) input rest := by
  match h with
  | .last hdefinition => exact (hdefinition.derived hclosed).mono fun _ => .definition
  | .more hdefinition hseparator hmore =>
    obtain ⟨symbols, middle, _, hderives, hsymbols, htrivia⟩ :=
      hdefinition.derived (.of_delimited hseparator.follows.1.1)
    obtain ⟨more, stop, _, hderives', hsymbols', htrivia'⟩ := hmore.derived_definitions hclosed
    exact ⟨_, stop, _, .alternatives hderives hderives',
      hsymbols.append (.symbol htrivia (.separator hseparator) hsymbols'), htrivia'⟩

theorem SpellsDefinitions.derived {input rest : Bytes} {definitions : List (Definition Extent)}
    {comments : List (Comment Mark)} (h : SpellsDefinitions input definitions comments rest)
    (hclosed : Closed rest) :
    Derived (DerivesDefinitions False (Runtime.converts ·)) input rest := by
  match h with
  | .mk hdefinitions => exact hdefinitions.derived_definitions hclosed

end

theorem SpellsRule.derived {input rest : Bytes} {r : Rule Extent}
    {comments : List (Comment Mark)} (h : SpellsRule input r comments rest) :
    DerivedFully (DerivesRule False (Runtime.converts ·)) input rest := by
  obtain ⟨hname, htrivia, hdefinitions⟩ := h
  have hdefining : ∀ body, Closed (equalsSign :: body) := fun _ =>
    .of_settled (.of_head rfl (by decide) (by decide)) (forall_head rfl (by decide))
  obtain ⟨symbols, middle, _, hderives, hsymbols, hbehind⟩ :=
    hdefinitions.derived (.of_delimited ⟨_, rfl, by decide⟩)
  refine ⟨_, List.cons_ne_nil _ _, .mk hderives, ?_⟩
  exact .symbol .nothing (.name hname (.of_trivia htrivia (hdefining _)))
    (.symbol htrivia (.single rfl) (hsymbols.append (.single hbehind (.single rfl))))

/-- A document consists of symbols that are derived. -/
theorem SpellsDocument.derived {input : Bytes} {g : Grammar Extent Mark}
    (h : SpellsDocument input g) :
    ∃ symbols, ConsistsOf input symbols ∧ DerivesDocument False (Runtime.converts ·) symbols := by
  induction h with
  | trivia htrivia => exact ⟨[], ⟨_, _, .nothing, htrivia⟩, .empty⟩
  | rule htrivia hrule _ ih =>
    obtain ⟨symbols, -, hderives, hsymbols⟩ := hrule.derived.behind_trivia htrivia
    obtain ⟨more, ⟨rest, comments, hsymbols', htrivia'⟩, hderives'⟩ := ih
    exact ⟨_, ⟨rest, comments, hsymbols.append hsymbols', htrivia'⟩, .rule hderives hderives'⟩

/-! ### What is derived is spelled -/

/-- The bytes up to the rest are trivia and a construct behind it. -/
def SpelledBehind (spells : Bytes → α → List (Comment Mark) → Bytes → Prop)
    (input rest : Bytes) : Prop :=
  ∃ start comments value comments', SpellsTrivia input comments start ∧
    spells start value comments' rest

omit [Runtime] in
theorem SpelledBehind.map {spells : Bytes → α → List (Comment Mark) → Bytes → Prop}
    {spells' : Bytes → β → List (Comment Mark) → Bytes → Prop} {f : α → β} {input rest : Bytes}
    (h : SpelledBehind spells input rest)
    (himp : ∀ {start value comments}, spells start value comments rest →
      spells' start (f value) comments rest) : SpelledBehind spells' input rest := by
  obtain ⟨start, comments, value, comments', htrivia, hspelled⟩ := h
  exact ⟨start, comments, f value, comments', htrivia, himp hspelled⟩

/-- Where a slot may be empty, so may the symbols in it. -/
theorem SpellsSlot.of_symbols {input middle rest : Bytes} {symbols : List Symbol}
    {comments : List (Comment Mark)} (hterm : symbols ≠ [] → SpelledBehind SpellsTerm input middle)
    (hsymbols : SpellsSymbols input symbols middle) (htrivia : SpellsTrivia middle comments rest) :
    ∃ value comments', SpellsSlot SpellsTerm input value comments' rest := by
  by_cases hnonempty : symbols = []
  · subst hnonempty
    obtain rfl := hsymbols.eq_of_nil
    exact ⟨none, comments, .empty htrivia⟩
  · obtain ⟨start, comments', t, _, hbefore, hspelled⟩ := hterm hnonempty
    exact ⟨some t, _, .filled hbefore hspelled htrivia⟩

theorem SpellsChain.definition {input rest : Bytes} {terms : List (Term Extent)}
    {comments : List (Comment Mark)}
    (h : SpellsChain (SpellsSlot SpellsTerm) SpellsComma input terms comments rest) :
    ∃ d, SpellsDefinition input d comments rest := by
  match terms with
  | [] => exact ⟨_, .nothing h⟩
  | [_] => exact ⟨_, .term h⟩
  | _ :: _ :: _ => exact ⟨_, .concatenation h⟩

mutual

theorem DerivesPrimary.spelled {symbols : List Symbol} {input rest : Bytes}
    (h : DerivesPrimary False (Runtime.converts ·) symbols) (hnonempty : symbols ≠ [])
    (hsymbols : SpellsSymbols input symbols rest) :
    SpelledBehind SpellsPrimary input rest := by
  match h with
  | .empty => exact absurd rfl hnonempty
  | .name =>
    obtain ⟨start, comments, htrivia, hsymbol⟩ := hsymbols.of_singleton
    obtain ⟨_, _, hname, -⟩ := hsymbol.of_name
    exact ⟨start, comments, _, _, htrivia, .identifier hname⟩
  | .terminal =>
    obtain ⟨start, comments, htrivia, hsymbol⟩ := hsymbols.of_singleton
    obtain ⟨_, _, hstart, hquote, hnonempty, hcontent⟩ := hsymbol.of_terminal
    exact ⟨start, comments, _, _, htrivia, .terminal hquote hnonempty hcontent hstart⟩
  | .special =>
    obtain ⟨start, comments, htrivia, hsymbol⟩ := hsymbols.of_singleton
    obtain ⟨_, hstart, hinterior⟩ := hsymbol.of_special
    exact ⟨start, comments, _, _, htrivia, .special hinterior hstart⟩
  | .bracketed hinside =>
    obtain ⟨start, inside, comments, htrivia, hopening, hmore⟩ := hsymbols.of_cons
    obtain ⟨middle, hbetween, hlast⟩ := hmore.split
    obtain ⟨stop, _, hbehind, hclosing⟩ := hlast.of_singleton
    obtain ⟨opener, hopener, rfl, hlongest⟩ := hopening.of_opening
    obtain ⟨closer, hcloser, rfl⟩ := hclosing.of_closing
    obtain ⟨definitions, _, hdefinitions⟩ := hinside.spelled hbetween hbehind
    exact ⟨_, comments, _, _, htrivia,
      .bracketed hopener hcloser (fun hgrouped => (hlongest hgrouped).2) hdefinitions⟩

theorem DerivesFactor.spelled {symbols : List Symbol} {input rest : Bytes}
    (h : DerivesFactor False (Runtime.converts ·) symbols) (hnonempty : symbols ≠ [])
    (hsymbols : SpellsSymbols input symbols rest) :
    SpelledBehind SpellsFactor input rest := by
  match h with
  | .primary hprimary =>
    exact (hprimary.spelled hnonempty hsymbols).map .primary
  | @DerivesFactor.repetition _ _ count operand hcount hoperand =>
    obtain ⟨start, middle, comments, htrivia, hinteger, hmore⟩ := hsymbols.of_cons
    obtain ⟨stop, behind, _, hbefore, hrepetition, hoperand'⟩ := hmore.of_cons
    obtain rfl := hrepetition.of_single rfl
    obtain ⟨digits, rfl, hdigits, hdigit, rfl, -⟩ := hinteger.of_integer
    have hspelled : SpellsCount digits _ := ⟨hdigits, hdigit, hcount, rfl⟩
    by_cases hempty : operand = []
    · subst hempty
      obtain rfl := hoperand'.eq_of_nil
      exact ⟨_, comments, _, _, htrivia, .repetition hspelled hbefore⟩
    · obtain ⟨_, _, p, _, hafter, hprimary⟩ := hoperand.spelled hempty hoperand'
      exact ⟨_, comments, _, _, htrivia, .repetitionOf hspelled hbefore hafter hprimary⟩

theorem DerivesTerm.spelled {symbols : List Symbol} {input rest : Bytes}
    (h : DerivesTerm False (Runtime.converts ·) symbols) (hnonempty : symbols ≠ [])
    (hsymbols : SpellsSymbols input symbols rest) :
    SpelledBehind SpellsTerm input rest := by
  match h with
  | .factor hfactor =>
    exact (hfactor.spelled hnonempty hsymbols).map .factor
  | @DerivesTerm.exception _ _ base excluded hbase hbare hexcluded =>
    obtain ⟨stop, hfront, hback⟩ := hsymbols.split
    obtain ⟨place, behind, _, hbefore, hexcept, hexcluded'⟩ := hback.of_cons
    obtain rfl := hexcept.of_single rfl
    obtain ⟨start, comments, x, _, htrivia, hspelled⟩ := hbase.spelled hbare hfront
    by_cases hempty : excluded = []
    · subst hempty
      obtain rfl := hexcluded'.eq_of_nil
      exact ⟨start, comments, _, _, htrivia, .exception hspelled hbefore⟩
    · obtain ⟨_, _, y, _, hafter, hspelled'⟩ := hexcluded.spelled hempty hexcluded'
      exact ⟨start, comments, _, _, htrivia, .exceptionOf hspelled hbefore hafter hspelled'⟩

theorem DerivesDefinition.spelled {symbols : List Symbol} {input middle rest : Bytes}
    {comments : List (Comment Mark)} (h : DerivesDefinition False (Runtime.converts ·) symbols)
    (hsymbols : SpellsSymbols input symbols middle) (htrivia : SpellsTrivia middle comments rest) :
    ∃ terms comments',
      SpellsChain (SpellsSlot SpellsTerm) SpellsComma input terms comments' rest := by
  match h with
  | .term hterm =>
    obtain ⟨value, _, hslot⟩ :=
      SpellsSlot.of_symbols (hterm.spelled · hsymbols) hsymbols htrivia
    exact ⟨_, _, .last hslot⟩
  | .concatenation hterm hmore =>
    obtain ⟨stop, hfront, hback⟩ := hsymbols.split
    obtain ⟨place, behind, _, hbefore, hcomma, hback⟩ := hback.of_cons
    obtain rfl := hcomma.of_single rfl
    obtain ⟨value, _, hslot⟩ := SpellsSlot.of_symbols (hterm.spelled · hfront) hfront hbefore
    obtain ⟨terms, _, hchain⟩ := hmore.spelled hback htrivia
    exact ⟨_, _, .more hslot .mk hchain⟩

theorem DerivesDefinitions.spelled {symbols : List Symbol} {input middle rest : Bytes}
    {comments : List (Comment Mark)} (h : DerivesDefinitions False (Runtime.converts ·) symbols)
    (hsymbols : SpellsSymbols input symbols middle) (htrivia : SpellsTrivia middle comments rest) :
    ∃ definitions comments', SpellsDefinitions input definitions comments' rest := by
  match h with
  | .definition hdefinition =>
    obtain ⟨terms, _, hterms⟩ := hdefinition.spelled hsymbols htrivia
    obtain ⟨d, hspelled⟩ := hterms.definition
    exact ⟨_, _, .mk (.last hspelled)⟩
  | .alternatives hdefinition hmore =>
    obtain ⟨stop, hfront, hback⟩ := hsymbols.split
    obtain ⟨place, behind, _, hbefore, hseparator, hback⟩ := hback.of_cons
    obtain ⟨terms, _, hterms⟩ := hdefinition.spelled hfront hbefore
    obtain ⟨d, hspelled⟩ := hterms.definition
    obtain ⟨definitions, _, ⟨hchain⟩⟩ := hmore.spelled hback htrivia
    exact ⟨_, _, .mk (.more hspelled hseparator.of_separator hchain)⟩

end

theorem DerivesRule.spelled {symbols : List Symbol} {input rest : Bytes}
    (h : DerivesRule False (Runtime.converts ·) symbols)
    (hsymbols : SpellsSymbols input symbols rest) :
    SpelledBehind SpellsRule input rest := by
  obtain ⟨hdefinitions⟩ := h
  obtain ⟨start, stop, comments, htrivia, hsymbol, hmore⟩ := hsymbols.of_cons
  obtain ⟨place, body, _, hbefore, hdefining, hmore⟩ := hmore.of_cons
  obtain rfl := hdefining.of_single rfl
  obtain ⟨middle, hbody, hlast⟩ := hmore.split
  obtain ⟨last, _, hbehind, hterminator⟩ := hlast.of_singleton
  obtain rfl := hterminator.of_single rfl
  obtain ⟨definitions, _, hspelled⟩ := hdefinitions.spelled hbody hbehind
  obtain ⟨_, _, hname, -⟩ := hsymbol.of_name
  exact ⟨start, comments, _, _, htrivia, .mk hname hbefore hspelled⟩

/-- A source that consists of symbols that are derived is a document. -/
theorem DerivesDocument.spelled {symbols : List Symbol}
    (h : DerivesDocument False (Runtime.converts ·) symbols) {input : Bytes}
    (hsymbols : ConsistsOf input symbols) : ∃ g, SpellsDocument input g := by
  obtain ⟨rest, comments, hsymbols, htrivia⟩ := hsymbols
  induction h generalizing input with
  | empty =>
    obtain rfl := hsymbols.eq_of_nil
    exact ⟨_, .trivia htrivia⟩
  | rule hrule _ ih =>
    obtain ⟨middle, hfront, hback⟩ := hsymbols.split
    obtain ⟨start, _, r, _, hbefore, hspelled⟩ := hrule.spelled hfront
    obtain ⟨⟨rules, comments'⟩, hmore⟩ := ih hback
    exact ⟨_, .rule hbefore hspelled hmore⟩

end Ebnf
