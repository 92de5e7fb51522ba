import Ebnf.Proofs.Spelling.Basic

/-!
# What follows a spelling is an end of the input

A spelling never goes back, so the rest is an end of the input.  For the
productions this is one induction over all of them; the chains and slots between
them take part in it, each for the construct that it is made of.  The note of a
construct says from where to where it goes.
-/

namespace Ebnf

open Byte

theorem suffix_cons_cons (first second : UInt8) (rest : Bytes) :
    rest <:+ first :: second :: rest :=
  (List.suffix_cons _ _).trans (List.suffix_cons _ _)

/-- What stands behind the closing quote. -/
theorem suffix_quoted (quote : UInt8) (content rest : Bytes) :
    rest <:+ quote :: (content ++ quote :: rest) :=
  ((List.suffix_cons _ _).trans (List.suffix_append _ _)).trans (List.suffix_cons _ _)

theorem SpellsInterior.suffix {input rest : Bytes} (h : SpellsInterior input rest) :
    rest <:+ input := by
  induction h with
  | done => exact List.suffix_refl _
  | comment _ _ _ hinside hmore =>
    have hclosed := (suffix_cons_cons _ _ _).trans hinside
    exact (hmore.trans hclosed).trans (suffix_cons_cons _ _ _)
  | byte _ _ _ hmore => exact hmore.trans (List.suffix_cons _ _)

theorem SpellsComment.suffix {input rest : Bytes} {comment : Comment Mark}
    (h : SpellsComment input comment rest) : rest <:+ input := by
  obtain ⟨-, -, hinside⟩ := h
  have hclosed := (suffix_cons_cons _ _ _).trans hinside.suffix
  exact hclosed.trans (suffix_cons_cons _ _ _)

theorem SpellsTrivia.suffix {input rest : Bytes} {comments : List (Comment Mark)}
    (h : SpellsTrivia input comments rest) : rest <:+ input := by
  induction h with
  | nothing => exact List.suffix_refl _
  | blank _ _ hmore => exact hmore.trans (List.suffix_cons _ _)
  | comment hcomment _ hmore => exact hmore.trans hcomment.suffix

theorem SpellsTrivia.append {input middle rest : Bytes}
    {comments comments' : List (Comment Mark)}
    (h : SpellsTrivia input comments middle) (h' : SpellsTrivia middle comments' rest) :
    SpellsTrivia input (comments ++ comments') rest := by
  induction h with
  | nothing => exact h'
  | blank hblank _ ih => exact .blank hblank (ih h')
  | comment hcomment _ ih => exact .comment hcomment (ih h')

theorem SpellsWord.suffix {input word rest : Bytes} {comments : List (Comment Mark)}
    (h : SpellsWord input word comments rest) : rest <:+ input := by
  induction h with
  | last => exact List.suffix_cons _ _
  | more _ htrivia _ hmore =>
    exact (hmore.trans htrivia.suffix).trans (List.suffix_cons _ _)

theorem SpellsName.suffix {input name rest : Bytes} {comments : List (Comment Mark)}
    (h : SpellsName input name comments rest) : rest <:+ input := by
  obtain ⟨-, hword⟩ := h
  exact hword.suffix

theorem SpellsComma.suffix {input rest : Bytes} (h : SpellsComma input rest) :
    rest <:+ input := by
  cases h
  exact List.suffix_cons _ _

theorem SpellsSeparator.suffix {input rest : Bytes} (h : SpellsSeparator input rest) :
    rest <:+ input := by
  cases h
  exact List.suffix_cons _ _

variable [Runtime]

mutual

theorem SpellsPrimary.suffix {input rest : Bytes} {p : Primary Extent}
    {comments : List (Comment Mark)} (h : SpellsPrimary input p comments rest) :
    rest <:+ input := by
  match h with
  | .bracketed _ _ _ hdefinitions =>
    have hinside := (List.suffix_append _ _).trans hdefinitions.suffix
    exact hinside.trans (List.suffix_append _ _)
  | .identifier hname => exact hname.suffix
  | .terminal _ _ _ hterminal =>
    subst hterminal
    exact suffix_quoted _ _ _
  | .special _ hspecial =>
    subst hspecial
    exact suffix_quoted _ _ _

theorem SpellsFactor.suffix {input rest : Bytes} {x : Factor Extent}
    {comments : List (Comment Mark)} (h : SpellsFactor input x comments rest) :
    rest <:+ input := by
  match h with
  | .primary hprimary => exact hprimary.suffix
  | .repetition _ htrivia =>
    have hrest := (List.suffix_cons _ _).trans htrivia.suffix
    exact hrest.trans (List.suffix_append _ _)
  | .repetitionOf _ hbefore hafter hoperand =>
    have hmiddle := (List.suffix_cons _ _).trans hbefore.suffix
    have hrest := (hoperand.suffix.trans hafter.suffix).trans hmiddle
    exact hrest.trans (List.suffix_append _ _)

theorem SpellsTerm.suffix {input rest : Bytes} {t : Term Extent}
    {comments : List (Comment Mark)} (h : SpellsTerm input t comments rest) :
    rest <:+ input := by
  match h with
  | .factor hfactor => exact hfactor.suffix
  | .exception hbase htrivia =>
    exact ((List.suffix_cons _ _).trans htrivia.suffix).trans hbase.suffix
  | .exceptionOf hbase hbefore hafter hexcluded =>
    have hmiddle := ((List.suffix_cons _ _).trans hbefore.suffix).trans hbase.suffix
    exact (hexcluded.suffix.trans hafter.suffix).trans hmiddle

theorem SpellsSlot.suffix {input rest : Bytes} {t : Option (Term Extent)}
    {comments : List (Comment Mark)} (h : SpellsSlot SpellsTerm input t comments rest) :
    rest <:+ input := by
  match h with
  | .empty htrivia => exact htrivia.suffix
  | .filled hbefore hterm hafter =>
    exact hafter.suffix.trans (hterm.suffix.trans hbefore.suffix)

theorem SpellsChain.suffix_terms {input rest : Bytes} {terms : List (Term Extent)}
    {comments : List (Comment Mark)}
    (h : SpellsChain (SpellsSlot SpellsTerm) SpellsComma input terms comments rest) :
    rest <:+ input := by
  match h with
  | .last hslot => exact hslot.suffix
  | .more hslot hcomma hmore =>
    exact (hmore.suffix_terms.trans hcomma.suffix).trans hslot.suffix

theorem SpellsDefinition.suffix {input rest : Bytes} {d : Option (Definition Extent)}
    {comments : List (Comment Mark)} (h : SpellsDefinition input d comments rest) :
    rest <:+ input := by
  match h with
  | .nothing hterms => exact hterms.suffix_terms
  | .term hterms => exact hterms.suffix_terms
  | .concatenation hterms => exact hterms.suffix_terms

theorem SpellsChain.suffix_definitions {input rest : Bytes} {definitions : List (Definition Extent)}
    {comments : List (Comment Mark)}
    (h : SpellsChain SpellsDefinition SpellsSeparator input definitions comments rest) :
    rest <:+ input := by
  match h with
  | .last hdefinition => exact hdefinition.suffix
  | .more hdefinition hseparator hmore =>
    exact (hmore.suffix_definitions.trans hseparator.suffix).trans hdefinition.suffix

theorem SpellsDefinitions.suffix {input rest : Bytes} {definitions : List (Definition Extent)}
    {comments : List (Comment Mark)}
    (h : SpellsDefinitions input definitions comments rest) :
    rest <:+ input := by
  match h with
  | .mk hdefinitions => exact hdefinitions.suffix_definitions

end

theorem SpellsRule.suffix {input rest : Bytes} {rule : Rule Extent}
    {comments : List (Comment Mark)} (h : SpellsRule input rule comments rest) :
    rest <:+ input := by
  obtain ⟨hname, htrivia, hdefinitions⟩ := h
  have hstop := hname.suffix
  have hbody := ((List.suffix_cons _ _).trans htrivia.suffix).trans hstop
  exact ((List.suffix_cons _ _).trans hdefinitions.suffix).trans hbody

/-! ### Extents -/

theorem SpellsPrimary.note {input rest : Bytes} {p : Primary Extent}
    {comments : List (Comment Mark)} (h : SpellsPrimary input p comments rest) :
    p.note = ⟨input.length, rest.length⟩ := by
  cases h <;> rfl

theorem SpellsFactor.note {input rest : Bytes} {x : Factor Extent}
    {comments : List (Comment Mark)} (h : SpellsFactor input x comments rest) :
    x.note = ⟨input.length, rest.length⟩ := by
  cases h with
  | primary hprimary => exact hprimary.note
  | repetition => rfl
  | repetitionOf => rfl

theorem SpellsTerm.note {input rest : Bytes} {t : Term Extent}
    {comments : List (Comment Mark)} (h : SpellsTerm input t comments rest) :
    t.note = ⟨input.length, rest.length⟩ := by
  cases h with
  | factor hfactor => exact hfactor.note
  | exception => rfl
  | exceptionOf => rfl

theorem SpellsRule.note {input rest : Bytes} {r : Rule Extent}
    {comments : List (Comment Mark)} (h : SpellsRule input r comments rest) :
    r.note = ⟨input.length, rest.length⟩ := by
  cases h
  rfl

end Ebnf
