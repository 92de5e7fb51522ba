import Ebnf.Proofs.Spelling.Suffix

/-!
# Trivia and commas

Around the terms of a definition there may stand any number of commas, with trivia in
between.  A definition without terms consists of nothing else.  One that has terms goes,
by what its note says, from the first of them to the last, and the padding around it can
be taken off.
-/

namespace Ebnf

open Byte

inductive SpellsPadding : Bytes → List (Comment Mark) → Bytes → Prop
  | nothing : SpellsPadding rest [] rest
  | trivia (htrivia : SpellsTrivia input comments middle)
      (hmore : SpellsPadding middle comments' rest) :
      SpellsPadding input (comments ++ comments') rest
  | comma (hmore : SpellsPadding input comments rest) :
      SpellsPadding (comma :: input) comments rest

theorem SpellsTrivia.padding {input rest : Bytes} {comments : List (Comment Mark)}
    (h : SpellsTrivia input comments rest) : SpellsPadding input comments rest := by
  have hpadding := SpellsPadding.trivia h .nothing
  rwa [List.append_nil] at hpadding

namespace SpellsPadding

theorem append {input middle rest : Bytes} {comments comments' : List (Comment Mark)}
    (h : SpellsPadding input comments middle) (h' : SpellsPadding middle comments' rest) :
    SpellsPadding input (comments ++ comments') rest := by
  induction h with
  | nothing => exact h'
  | trivia htrivia _ ih =>
    rw [List.append_assoc]
    exact .trivia htrivia (ih h')
  | comma _ ih => exact .comma (ih h')

theorem suffix {input rest : Bytes} {comments : List (Comment Mark)}
    (h : SpellsPadding input comments rest) : rest <:+ input := by
  induction h with
  | nothing => exact List.suffix_refl _
  | trivia htrivia _ ih => exact ih.trans htrivia.suffix
  | comma _ ih => exact ih.trans (List.suffix_cons _ _)

end SpellsPadding

/-! ### Taking it off -/

variable [Runtime]

theorem SpellsTerm.chain {input start stop : Bytes} {t : Term Extent}
    {comments comments' : List (Comment Mark)} (hbefore : SpellsTrivia input comments start)
    (hterm : SpellsTerm start t comments' stop) :
    SpellsChain (SpellsSlot SpellsTerm) SpellsComma input [t] (comments ++ comments') stop := by
  have hchain : SpellsChain (SpellsSlot SpellsTerm) SpellsComma _ _ _ _ :=
    .last (.filled hbefore hterm .nothing)
  rwa [List.append_nil] at hchain

namespace SpellsChain

variable {input rest : Bytes} {terms : List (Term Extent)} {comments : List (Comment Mark)}

theorem padding
    (h : SpellsChain (SpellsSlot SpellsTerm) SpellsComma input terms comments rest)
    (hterms : terms = []) : SpellsPadding input comments rest := by
  induction h with
  | last hslot =>
    cases hslot with
    | empty htrivia => exact htrivia.padding
    | filled => cases hterms
  | more hslot hcomma _ ih =>
    cases hcomma
    cases hslot with
    | empty htrivia => exact .trivia htrivia (.comma (ih hterms))
    | filled => cases hterms

/-- The padding before the first term can be taken off. -/
theorem trim_left
    (h : SpellsChain (SpellsSlot SpellsTerm) SpellsComma input terms comments rest)
    (hterms : terms ≠ []) :
    ∃ comments₁ start comments₂, comments = comments₁ ++ comments₂ ∧
      SpellsPadding input comments₁ start ∧
      SpellsChain (SpellsSlot SpellsTerm) SpellsComma start terms comments₂ rest ∧
      (terms.head hterms).note.start = start.length := by
  induction h with
  | last hslot =>
    cases hslot with
    | empty => exact absurd rfl hterms
    | filled hbefore hterm hafter =>
      refine ⟨_, _, _, rfl, hbefore.padding, .last (.filled .nothing hterm hafter), ?_⟩
      exact congrArg Extent.start hterm.note
  | more hslot hcomma hmore ih =>
    cases hslot with
    | empty htrivia =>
      -- The first term stands behind the comma, so all up to there is padding.
      obtain ⟨comments₁, start, comments₂, rfl, hpadding, hchain, hstart⟩ := ih hterms
      cases hcomma
      rw [← List.append_assoc]
      exact ⟨_, start, _, rfl, .trivia htrivia (.comma hpadding), hchain, hstart⟩
    | filled hbefore hterm hafter =>
      rw [List.append_assoc]
      refine ⟨_, _, _, rfl, hbefore.padding, ?_, ?_⟩
      · exact .more (.filled .nothing hterm hafter) hcomma hmore
      · exact congrArg Extent.start hterm.note

/-- The padding behind the last term can be taken off. -/
theorem trim_right
    (h : SpellsChain (SpellsSlot SpellsTerm) SpellsComma input terms comments rest)
    (hterms : terms ≠ []) :
    ∃ comments₁ stop comments₂, comments = comments₁ ++ comments₂ ∧
      SpellsChain (SpellsSlot SpellsTerm) SpellsComma input terms comments₁ stop ∧
      SpellsPadding stop comments₂ rest ∧
      (terms.getLast hterms).note.stop = stop.length := by
  induction h with
  | last hslot =>
    cases hslot with
    | empty => exact absurd rfl hterms
    | filled hbefore hterm hafter =>
      rw [← List.append_assoc]
      exact ⟨_, _, _, rfl, hterm.chain hbefore, hafter.padding, congrArg Extent.stop hterm.note⟩
  | @more _ value _ _ _ values _ _ hslot hcomma hmore ih =>
    by_cases hvalues : values = []
    · -- The slot has the last term, and the padding begins behind that.
      subst hvalues
      have hpadding := hmore.padding rfl
      cases hslot with
      | empty => exact absurd rfl hterms
      | filled hbefore hterm hafter =>
        cases hcomma
        rw [← List.append_assoc, List.append_assoc]
        exact ⟨_, _, _, rfl, hterm.chain hbefore, hafter.padding.append (.comma hpadding),
          congrArg Extent.stop hterm.note⟩
    · obtain ⟨comments₁, stop, comments₂, rfl, hchain, hpadding, hstop⟩ := ih hvalues
      rw [← List.append_assoc]
      refine ⟨_, stop, _, rfl, .more hslot hcomma hchain, hpadding, ?_⟩
      rwa [List.getLast_append_of_ne_nil _ hvalues]

theorem trim
    (h : SpellsChain (SpellsSlot SpellsTerm) SpellsComma input terms comments rest)
    (hterms : terms ≠ []) :
    ∃ comments₁ start comments₂ stop comments₃,
      comments = comments₁ ++ (comments₂ ++ comments₃) ∧
      SpellsPadding input comments₁ start ∧
      SpellsChain (SpellsSlot SpellsTerm) SpellsComma start terms comments₂ stop ∧
      SpellsPadding stop comments₃ rest ∧
      (terms.head hterms).note.start = start.length ∧
      (terms.getLast hterms).note.stop = stop.length := by
  obtain ⟨comments₁, start, _, rfl, hbefore, hterms', hstart⟩ := h.trim_left hterms
  obtain ⟨comments₂, stop, comments₃, rfl, hterms', hbehind, hstop⟩ := hterms'.trim_right hterms
  exact ⟨comments₁, start, comments₂, stop, comments₃, rfl, hbefore, hterms', hbehind, hstart,
    hstop⟩

end SpellsChain

/-- A definition goes from its first term to its last, with padding around it. -/
theorem SpellsDefinition.trim {input rest : Bytes} {d : Definition Extent}
    {comments : List (Comment Mark)} (h : SpellsDefinition input (some d) comments rest) :
    ∃ comments₁ start comments₂ stop comments₃,
      comments = comments₁ ++ (comments₂ ++ comments₃) ∧
      SpellsPadding input comments₁ start ∧
      SpellsDefinition start (some d) comments₂ stop ∧
      SpellsPadding stop comments₃ rest ∧
      d.note = ⟨start.length, stop.length⟩ := by
  cases h with
  | term hterms =>
    obtain ⟨comments₁, start, comments₂, stop, comments₃, rfl, hbefore, hterms, hbehind, hstart,
      hstop⟩ := hterms.trim (List.cons_ne_nil _ _)
    refine ⟨comments₁, start, comments₂, stop, comments₃, rfl, hbefore, .term hterms, hbehind, ?_⟩
    rw [← hstart, ← hstop]
    rfl
  | concatenation hterms =>
    obtain ⟨comments₁, start, comments₂, stop, comments₃, rfl, hbefore, hterms, hbehind, hstart,
      hstop⟩ := hterms.trim (List.cons_ne_nil _ _)
    refine ⟨comments₁, start, comments₂, stop, comments₃, rfl, hbefore, .concatenation hterms,
      hbehind, ?_⟩
    rw [← hstart, ← hstop]
    rfl

end Ebnf
