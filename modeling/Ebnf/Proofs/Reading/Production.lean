import Ebnf.Proofs.Reading.Lexeme
import Ebnf.Proofs.Spelling.Head
import Ebnf.Proofs.Text.Digits
import Ebnf.Reader.Levels

/-!
# Productions that are read are spelled

Each production is entered where no trivia comes next.  What it finds is spelled
there, with the trivia behind it that it may have consumed; what stops it is a
defect.  The inside of a bracket is shorter than the source, and so the induction
over the nesting of brackets is one on the length of the source.
-/

namespace Ebnf

open Byte

theorem SpellsSlot.after_trivia {item : Spelling α} {input middle rest : Bytes}
    {value : Option α} {comments comments' : List (Comment Mark)}
    (htrivia : SpellsTrivia input comments middle)
    (h : SpellsSlot item middle value comments' rest) :
    SpellsSlot item input value (comments ++ comments') rest := by
  cases h with
  | empty hmore => exact .empty (htrivia.append hmore)
  | filled hbefore hitem hafter =>
    have hslot := SpellsSlot.filled (htrivia.append hbefore) hitem hafter
    rwa [List.append_assoc] at hslot

theorem SpellsChain.after_trivia {slot : Spelling (Option α)}
    {separator : Bytes → Bytes → Prop} {input middle rest : Bytes} {values : List α}
    {comments comments' : List (Comment Mark)}
    (hslot : ∀ {value comments' rest}, slot middle value comments' rest →
      slot input value (comments ++ comments') rest)
    (h : SpellsChain slot separator middle values comments' rest) :
    SpellsChain slot separator input values (comments ++ comments') rest := by
  cases h with
  | last hvalue => exact .last (hslot hvalue)
  | more hvalue hseparator hmore =>
    rw [← List.append_assoc]
    exact .more (hslot hvalue) hseparator hmore

theorem SpellsDefinition.after_trivia [Runtime] {input middle rest : Bytes}
    {d : Option (Definition Extent)} {comments comments' : List (Comment Mark)}
    (htrivia : SpellsTrivia input comments middle)
    (h : SpellsDefinition middle d comments' rest) :
    SpellsDefinition input d (comments ++ comments') rest := by
  have hslot : ∀ {value comments' rest}, SpellsSlot SpellsTerm middle value comments' rest →
      SpellsSlot SpellsTerm input value (comments ++ comments') rest :=
    fun h => h.after_trivia htrivia
  cases h with
  | nothing hterms => exact .nothing (hterms.after_trivia hslot)
  | term hterms => exact .term (hterms.after_trivia hslot)
  | concatenation hterms => exact .concatenation (hterms.after_trivia hslot)

namespace Reader

open Scanning

theorem ensures_firstOf {item : Spelling α} {reader : Reader (Option α)}
    {more : List (Reader (Option α))} {fault : Fault Mark → Prop} {input : Bytes}
    {absent absent' : Prop}
    (h : reader.Ensures fault input fun value comments rest =>
      SpellsIfAny item input value comments rest ∧ (value = none → absent))
    (hmore : absent → (firstOf more).Ensures fault input fun value comments rest =>
      SpellsIfAny item input value comments rest ∧ (value = none → absent')) :
    (firstOf (reader :: more)).Ensures fault input fun value comments rest =>
      SpellsIfAny item input value comments rest ∧ (value = none → absent') := by
  apply Ensures.bind
  apply h.mono
  rintro value comments rest ⟨hvalue, habsent⟩
  cases hvalue with
  | nothing => exact hmore (habsent rfl)
  | found hitem =>
    apply Ensures.pure
    rw [List.append_nil]
    exact ⟨.found hitem, nofun⟩

theorem ensures_firstOf_nil {item : Spelling α} {fault : Fault Mark → Prop}
    {input : Bytes} {absent : Prop} (habsent : absent) :
    (firstOf [] : Reader (Option α)).Ensures fault input fun value comments rest =>
      SpellsIfAny item input value comments rest ∧ (value = none → absent) :=
  Ensures.pure ⟨.nothing, fun _ => habsent⟩

theorem ensures_comma (fault : Fault Mark → Prop) (input : Bytes) :
    (byte comma).Ensures fault input fun more comments rest =>
      comments = [] ∧
        match more with
        | false => rest = input
        | true => SpellsComma input rest := by
  apply Ensures.byte
  · rintro rest rfl
    exact ⟨rfl, .mk⟩
  · intro _
    exact ⟨rfl, rfl⟩

theorem spells_of_startsWithSeparator {input : Bytes} (h : startsWithSeparator input) :
    SpellsSeparator input input.tail := by
  unfold startsWithSeparator at h
  split at h
  · cases h
  next b rest hclear =>
    simp only [Bool.or_eq_true, beq_iff_eq] at h
    apply SpellsSeparator.mk (by rwa [or_assoc] at h)
    rintro rfl hhead
    obtain ⟨more, rfl⟩ := List.head?_eq_some_iff.1 hhead
    exact hclear more rfl rfl
  · cases h

theorem ensures_definitionSeparator (fault : Fault Mark → Prop) (input : Bytes) :
    definitionSeparator.Ensures fault input fun more comments rest =>
      comments = [] ∧
        match more with
        | false => rest = input
        | true => SpellsSeparator input rest := by
  unfold Ensures
  by_cases hstarts : startsWithSeparator input
  · rw [definitionSeparator_run_true hstarts]
    exact ⟨rfl, spells_of_startsWithSeparator hstarts⟩
  · rw [definitionSeparator_run_false hstarts]
    exact ⟨rfl, rfl⟩

/-- A reader that passes over trivia first. -/
def afterTrivia (reader : Reader α) : Reader α := do
  trivia
  reader

/-- A reader that passes over trivia afterwards. -/
def beforeTrivia (reader : Reader α) : Reader α := do
  let value ← reader
  trivia
  return value

theorem forward_beforeTrivia {reader : Reader α} (h : reader.Forward) :
    (beforeTrivia reader).Forward :=
  h.bind fun _ => forward_trivia.bind fun _ => Forward.pure _

variable [Runtime]

theorem definition_eq : definition = do
    let terms ← separated (beforeTrivia term) (separator (byte comma))
    return concatenate terms := rfl

theorem definitions_eq_afterTrivia : definitions =
    afterTrivia (separated (beforeTrivia definition) (separator definitionSeparator)) :=
  definitions_eq

theorem forward_beforeTrivia_term : (beforeTrivia term).Forward :=
  forward_beforeTrivia (forward_termWith forward_definitions)

theorem forward_beforeTrivia_definition : (beforeTrivia definition).Forward :=
  forward_beforeTrivia (forward_definitionWith forward_definitions)

/-- A loop over slots, for which the trivia behind a separator counts as part of the
next slot. -/
theorem ensures_separated {slot : Spelling (Option α)} {symbol : Bytes → Bytes → Prop}
    {item : Reader (Option α)} {accepts : Reader Bool} {source input : Bytes}
    (hforward : item.Forward) (hconsumes : accepts.Consumes id)
    (hslot : ∀ {input middle rest value comments comments'},
      SpellsTrivia input comments middle → slot middle value comments' rest →
        slot input value (comments ++ comments') rest)
    (hlexes : ∀ {input value comments rest}, slot input value comments rest →
      Lexes input rest)
    (hsymbol : ∀ {middle next}, symbol middle next → Lexes source middle →
      Entry source next)
    (hitem : ∀ {input}, Opening source input →
      item.Ensures (Halts source (Flaw source)) input fun value comments rest =>
        slot input value comments rest ∧ Settled rest)
    (haccepts : ∀ input, accepts.Ensures (Halts source (Flaw source)) input
      fun more comments rest => comments = [] ∧
        match more with
        | false => rest = input
        | true => symbol input rest)
    (hopening : Opening source input) :
    (separated item (separator accepts)).Ensures (Halts source (Flaw source)) input
      fun values comments rest =>
        SpellsChain slot symbol input values comments rest ∧ Settled rest := by
  apply Ensures.separated hforward (consumes_separator hconsumes) _ hopening
  intro input hopening
  apply (hitem hopening).mono
  rintro value comments middle ⟨hvalue, hsettled⟩
  apply Ensures.bind
  apply (haccepts middle).mono
  rintro more - next ⟨rfl, hmore⟩
  cases more with
  | false =>
    subst hmore
    apply Ensures.pure
    simp only [List.append_nil]
    exact ⟨.last hvalue, hsettled⟩
  | true =>
    have hnext := hsymbol hmore (hopening.lexes.trans (hlexes hvalue))
    apply Ensures.bind_trivia hnext.lexes
    intro comments' start htrivia hsettled
    apply Ensures.pure
    refine ⟨hnext.opening htrivia hsettled, ?_⟩
    rintro values comments'' rest ⟨hvalues, hrest⟩
    simp only [List.nil_append, List.append_nil]
    exact ⟨.more hvalue hmore (hvalues.after_trivia (hslot htrivia)), hrest⟩

section Productions

variable {source : Bytes}
  (hinside : ∀ {input}, Entry source input → input.length < source.length →
    definitions.Ensures (Halts source (Flaw source)) input fun definitions comments rest =>
      SpellsDefinitions input definitions comments rest ∧ Settled rest)

include hinside

theorem ensures_bracketed {input : Bytes} (hentry : Entry source input) (bracket : Bracket)
    (hclear : bracket = .grouped → ∀ b, [leftParenthesis, b] <+: input →
      b ≠ asterisk ∧ b ≠ solidus ∧ b ≠ colon) :
    (bracketed bracket).Ensures (Halts source (Flaw source)) input fun value comments rest =>
      SpellsIfAny SpellsPrimary input value comments rest ∧
        (value = none → ∀ opener ∈ bracket.openers, ¬opener <+: input) := by
  apply Ensures.bind_mark
  apply Ensures.bind
  apply Ensures.symbol
  · rintro opener inside hfind rfl
    have hopener : opener ∈ bracket.openers := List.mem_of_find?_eq_some hfind
    have hnonempty : opener ≠ [] := fun hempty => openers_nonempty bracket (hempty ▸ hopener)
    have hpos := List.length_pos_iff.2 hnonempty
    have hshort : inside.length < source.length := by
      have hle := hentry.lexes.suffix.length_le
      rw [List.length_append] at hle
      omega
    have hhead : bracket = .grouped → ∀ b, inside.head? = some b →
        b ≠ asterisk ∧ b ≠ solidus ∧ b ≠ colon := by
      rintro rfl b hb
      obtain ⟨more, rfl⟩ := List.head?_eq_some_iff.1 hb
      obtain rfl := Bracket.mem_openers_grouped.1 hopener
      exact hclear rfl b ⟨more, rfl⟩
    have hstart := Entry.opener hentry.lexes hopener
      fun hgrouped hb => (hhead hgrouped _ hb).1 rfl
    apply Ensures.bind
    apply (hinside hstart hshort).mono
    rintro definitions comments stop ⟨hdefinitions, hsettled⟩
    apply Ensures.bind
    apply Ensures.symbol
    · rintro closer rest hfind rfl
      have hcloser : closer ∈ bracket.closers := List.mem_of_find?_eq_some hfind
      apply Ensures.bind_mark
      apply Ensures.pure
      simp only [List.nil_append, List.append_nil, reduceCtorEq, false_implies, and_true]
      exact .of_item (.bracketed hopener hcloser
        (fun hgrouped hb => (hhead hgrouped _ hb).2.1 rfl) hdefinitions)
    · intro hmissing
      exact Ensures.fail (.error (.construct hentry
        (.unclosedBracket hopener hhead hdefinitions hsettled hmissing) rfl))
  · intro habsent
    apply Ensures.pure
    exact ⟨.nothing, fun _ => habsent⟩

theorem ensures_primary {input : Bytes} (hopening : Opening source input) :
    primary.Ensures (Halts source (Flaw source)) input (SpellsIfAny SpellsPrimary input) := by
  have h : primary.Ensures (Halts source (Flaw source)) input fun value comments rest =>
      SpellsIfAny SpellsPrimary input value comments rest ∧ (value = none → True) := by
    apply ensures_firstOf (ensures_bracketed hinside hopening.toEntry .optional nofun)
    intro hoptional
    apply ensures_firstOf (ensures_bracketed hinside hopening.toEntry .repeated nofun)
    intro hrepeated
    have hclear : ∀ b, [leftParenthesis, b] <+: input →
        b ≠ asterisk ∧ b ≠ solidus ∧ b ≠ colon := by
      intro b hb
      refine ⟨?_, ?_, ?_⟩ <;> rintro rfl
      · exact hopening.settled.2 hb
      · exact hoptional [leftParenthesis, solidus] (by simp [Bracket.openers]) hb
      · exact hrepeated [leftParenthesis, colon] (by simp [Bracket.openers]) hb
    apply ensures_firstOf (ensures_bracketed hinside hopening.toEntry .grouped fun _ => hclear)
    intro _
    apply ensures_firstOf (ensures_identifier hopening.lexes hopening.settled)
    intro _
    apply ensures_firstOf (ensures_terminal hopening.toEntry)
    intro _
    apply ensures_firstOf (ensures_special hopening.toEntry)
    intro _
    exact ensures_firstOf_nil trivial
  exact h.mono fun _ _ _ hvalue => hvalue.1

theorem ensures_factor {input : Bytes} (hopening : Opening source input) :
    factor.Ensures (Halts source (Flaw source)) input (SpellsIfAny SpellsFactor input) := by
  apply Ensures.bind_mark
  apply Ensures.bind
  apply Ensures.takeWhile
  rintro digits middle rfl hdigit hmaximal
  by_cases hempty : digits = []
  · subst hempty
    apply Ensures.bind_pure
    apply (ensures_primary hinside hopening).mono
    intro value comments rest hvalue
    cases hvalue with
    | nothing => exact .nothing
    | found hprimary =>
      obtain ⟨hprimary, htrivia⟩ := hprimary
      simp only [List.nil_append]
      exact .found (.mk (.primary hprimary) htrivia)
  · rw [if_neg (by simpa using hempty)]
    have hmiddle := hopening.lexes.trans (Lexes.compositional.digits hdigit)
    apply Ensures.bind
    apply Ensures.convert
    case hno =>
      obtain ⟨before, hbefore⟩ := hopening.lexes.suffix
      exact fun hlong => .refusal (.mk hbefore.symm hdigit hlong)
    intro hconverts
    have hcount : SpellsCount digits digits.decimal :=
      ⟨hempty, hdigit, hconverts, decimal_eq_ofDigits digits⟩
    apply Ensures.bind_trivia hmiddle
    intro comments₁ stop hbefore hclear
    have hstop := hmiddle.trans hbefore.lexes
    apply Ensures.bind_byte
    · rintro next rfl
      have hnext : Entry source next := .symbol hstop (by decide) (by decide)
      apply Ensures.bind_mark
      apply Ensures.bind_trivia hnext.lexes
      intro comments₂ start hafter hsettled
      apply Ensures.bind_pure
      apply (ensures_primary hinside (hnext.opening hafter hsettled)).mono
      intro operand comments₃ rest hoperand
      cases hoperand with
      | nothing =>
        simp only [List.nil_append, List.append_nil]
        exact .found (.mk (.repetition hcount hbefore) hafter)
      | found hoperand =>
        obtain ⟨hoperand, hlast⟩ := hoperand
        have hfactor := SpellsFactor.repetitionOf hcount hbefore hafter hoperand
        have htrailed := SpellsTrailed.mk hfactor hlast
        simp only [List.append_assoc] at htrailed
        simp only [List.nil_append, Option.map_some, Option.getD_some, hoperand.note]
        exact .found htrailed
    · intro hmissing
      exact Ensures.fail (.error (.construct hopening.toEntry
        (.missingRepetitionSymbol hcount hmaximal hbefore hclear hmissing) rfl))

theorem ensures_term {input : Bytes} (hopening : Opening source input) :
    term.Ensures (Halts source (Flaw source)) input (SpellsIfAny SpellsTerm input) := by
  apply Ensures.bind_mark
  apply Ensures.bind
  apply (ensures_factor hinside hopening).mono
  intro base comments middle hbase
  have hmiddle := hopening.lexes.trans (hbase.lexes fun h => h.assembled Lexes.compositional)
  cases hbase with
  | nothing => exact Ensures.pure .nothing
  | found hbase =>
    obtain ⟨hbase, hafter⟩ := hbase
    apply Ensures.bind_trivia hmiddle
    intro comments₂ stop htrivia _
    have hbefore := hafter.append htrivia
    apply Ensures.bind_byte
    · rintro next rfl
      have hnext : Entry source next :=
        .symbol (hmiddle.trans htrivia.lexes) (by decide) (by decide)
      apply Ensures.bind_mark
      apply Ensures.bind_trivia hnext.lexes
      intro comments₃ start hafter hsettled
      apply Ensures.bind_pure
      apply (ensures_factor hinside (hnext.opening hafter hsettled)).mono
      intro excluded comments₄ rest hexcluded
      cases hexcluded with
      | nothing =>
        have htrailed := SpellsTrailed.mk (SpellsTerm.exception hbase hbefore) hafter
        simp only [List.append_assoc] at htrailed
        simp only [List.append_assoc, List.append_nil]
        exact .found htrailed
      | found hexcluded =>
        obtain ⟨hexcluded, hlast⟩ := hexcluded
        have hterm := SpellsTerm.exceptionOf hbase hbefore hafter hexcluded
        have htrailed := SpellsTrailed.mk hterm hlast
        simp only [List.append_assoc] at htrailed
        simp only [List.append_assoc, Option.map_some, Option.getD_some, hexcluded.note]
        exact .found htrailed
    · intro _
      apply Ensures.pure
      simp only [List.append_nil, List.append_assoc]
      exact .found (.mk (.factor hbase) hbefore)

theorem ensures_slot {input : Bytes} (hopening : Opening source input) :
    (beforeTrivia term).Ensures (Halts source (Flaw source)) input fun value comments rest =>
      SpellsSlot SpellsTerm input value comments rest ∧ Settled rest := by
  apply Ensures.bind
  apply (ensures_term hinside hopening).mono
  intro value comments middle hvalue
  have hmiddle := hopening.lexes.trans (hvalue.lexes fun h => h.assembled Lexes.compositional)
  apply Ensures.bind_trivia hmiddle
  intro comments' rest htrivia hclear
  apply Ensures.pure
  rw [List.append_nil]
  refine ⟨?_, hclear⟩
  cases hvalue with
  | nothing => exact .empty htrivia
  | found hitem =>
    obtain ⟨hitem, hafter⟩ := hitem
    have hslot := SpellsSlot.filled .nothing hitem (hafter.append htrivia)
    rw [List.append_assoc]
    exact hslot

theorem ensures_definition {input : Bytes} (hopening : Opening source input) :
    definition.Ensures (Halts source (Flaw source)) input fun value comments rest =>
      SpellsDefinition input value comments rest ∧ Settled rest := by
  have hslot : ∀ {input middle rest value comments comments'},
      SpellsTrivia input comments middle → SpellsSlot SpellsTerm middle value comments' rest →
        SpellsSlot SpellsTerm input value (comments ++ comments') rest :=
    fun htrivia hvalue => hvalue.after_trivia htrivia
  have hlexes : ∀ {input value comments rest},
      SpellsSlot SpellsTerm input value comments rest → Lexes input rest :=
    fun hvalue => hvalue.assembled Lexes.compositional
  rw [definition_eq]
  apply Ensures.bind_pure
  apply (ensures_separated forward_beforeTrivia_term (Consumes.byte comma) hslot hlexes
    SpellsComma.entry (fun hopening => ensures_slot hinside hopening)
    (ensures_comma _) hopening).mono
  rintro terms comments rest ⟨hterms, hclear⟩
  refine ⟨?_, hclear⟩
  match terms with
  | [] => exact .nothing hterms
  | [_] => exact .term hterms
  | _ :: _ :: _ => exact .concatenation hterms

theorem ensures_definitions_of_inside {input : Bytes} (hentry : Entry source input) :
    definitions.Ensures (Halts source (Flaw source)) input fun definitions comments rest =>
      SpellsDefinitions input definitions comments rest ∧ Settled rest := by
  have hslot : ∀ {input middle rest value comments comments'},
      SpellsTrivia input comments middle → SpellsDefinition middle value comments' rest →
        SpellsDefinition input value (comments ++ comments') rest :=
    fun htrivia hvalue => hvalue.after_trivia htrivia
  have hlexes : ∀ {input value comments rest},
      SpellsDefinition input value comments rest → Lexes input rest :=
    fun hvalue => hvalue.assembled Lexes.compositional
  have hitem : ∀ {input}, Opening source input →
      (beforeTrivia definition).Ensures (Halts source (Flaw source)) input
        fun value comments rest => SpellsDefinition input value comments rest ∧ Settled rest := by
    intro input hopening
    apply Ensures.bind
    apply (ensures_definition hinside hopening).mono
    rintro value comments middle ⟨hvalue, hsettled⟩
    apply Ensures.bind_trivia_settled hsettled
    apply Ensures.pure
    rw [List.append_nil]
    exact ⟨hvalue, hsettled⟩
  rw [definitions_eq_afterTrivia]
  apply Ensures.bind_trivia hentry.lexes
  intro comments start htrivia hsettled
  apply (ensures_separated forward_beforeTrivia_definition consumes_definitionSeparator
    hslot hlexes SpellsSeparator.entry hitem (ensures_definitionSeparator _)
    (hentry.opening htrivia hsettled)).mono
  rintro definitions comments' rest ⟨hdefinitions, hclear⟩
  exact ⟨.mk (hdefinitions.after_trivia (hslot htrivia)), hclear⟩

end Productions

theorem ensures_definitions {source input : Bytes} (hentry : Entry source input) :
    definitions.Ensures (Halts source (Flaw source)) input fun definitions comments rest =>
      SpellsDefinitions input definitions comments rest ∧ Settled rest := by
  induction hlength : input.length using Nat.strongRecOn generalizing source input with
  | _ length ih =>
    have hwhole : definitions.Ensures (Halts input (Flaw input)) input
        fun definitions comments rest => SpellsDefinitions input definitions comments rest ∧ Settled rest := by
      apply ensures_definitions_of_inside _ (.refl input)
      intro inside hinside hshort
      exact ih inside.length (hlength ▸ hshort) hinside rfl
    exact hwhole.mono_fault fun _ hfault =>
      hfault.of_suffix hentry.lexes.suffix fun _ hflaw => hflaw.of_entry hentry

/-! ### Rules -/

/-- A quoted lexeme that is let pass where a name is missing is well formed. -/
theorem ensures_strayLexeme {source input : Bytes} (hentry : Entry source input) :
    strayLexeme.Ensures (Halts source (Flaw source)) input fun _ comments rest =>
      comments = [] ∧ rest = input ∧ ∀ b, input.head? = some b →
        b = questionMark ∨ b = apostrophe ∨ b = quotationMark →
          ∃ p comments rest, SpellsPrimary input p comments rest := by
  have h : (firstOf [special, terminal]).Ensures (Halts source (Flaw source)) input
      fun value comments rest =>
        SpellsIfAny SpellsPrimary input value comments rest ∧ (value = none →
          ∀ b, input.head? = some b →
            ¬(b = questionMark ∨ b = apostrophe ∨ b = quotationMark)) := by
    apply ensures_firstOf (ensures_special hentry)
    intro hspecial
    apply ensures_firstOf (ensures_terminal hentry)
    intro hterminal
    apply ensures_firstOf_nil
    rintro b hb (rfl | hquote)
    · exact hspecial hb
    · exact hterminal b hb hquote
  apply Ensures.check
  apply h.mono
  rintro value comments rest ⟨hvalue, habsent⟩
  refine ⟨rfl, rfl, ?_⟩
  intro b hb hquote
  cases hvalue with
  | nothing => exact (habsent rfl b hb hquote).elim
  | found hitem =>
    obtain ⟨hitem, -⟩ := hitem
    exact ⟨_, _, _, hitem⟩

theorem ensures_rule {source input : Bytes} (hopening : Opening source input) :
    rule.Ensures
      (Halts source fun error =>
        Flaw source error ∨ (Defect input error ∧ error.cause.kind.concernsRule))
      input (SpellsRule input) := by
  apply Ensures.bind_trivia_settled hopening.settled
  apply Ensures.bind_mark
  apply Ensures.bind
  apply ((ensures_name hopening.lexes hopening.settled).mono_fault
    fun _ hfault => hfault.mono fun _ => .inl).mono
  intro value comments middle hvalue
  cases value with
  | none =>
    obtain ⟨rfl, rfl, hletter⟩ := hvalue
    apply Ensures.bind
    apply ((ensures_strayLexeme hopening.toEntry).mono_fault
      fun _ hfault => hfault.mono fun _ => .inl).mono
    rintro _ comments rest ⟨rfl, rfl, hlexeme⟩
    exact Ensures.fail (.error (.inr ⟨.missingName hopening.settled hletter hlexeme, rfl⟩))
  | some value =>
    obtain ⟨hname, hafter, hclear, hmaximal⟩ := hvalue
    apply Ensures.bind_byte
    · rintro body rfl
      have hlexes := hopening.lexes.trans (hname.lexes.trans hafter.lexes)
      have hbody : Entry source body := .symbol hlexes (by decide) (by decide)
      apply Ensures.bind
      apply ((ensures_definitions hbody).mono_fault fun _ hfault => hfault.mono fun _ => .inl).mono
      rintro definitions comments₃ stop ⟨hdefinitions, hclear⟩
      apply Ensures.bind_byte
      · rintro rest rfl
        apply Ensures.bind_mark
        apply Ensures.pure
        simp only [List.append_nil, List.append_assoc]
        exact .mk hname hafter hdefinitions
      · intro hmissing
        exact Ensures.fail
          (.error (.inr ⟨.missingTerminator hname hafter hdefinitions hclear hmissing, rfl⟩))
    · intro hmissing
      exact Ensures.fail
        (.error (.inr ⟨.missingDefiningSymbol hname hafter hclear hmaximal hmissing, rfl⟩))

end Reader

end Ebnf
