import Ebnf.Proofs.Spelling.Nodes

/-!
# Other spellings of the same length

Some symbols can be written in more than one way with the same number of bytes: a separator
as `|`, `/` or `!`, and the quotes of a terminal string.  Here such a rewriting is a map that
takes each end of the source to the end of the new source that is as long.  What it has to
respect is said symbol by symbol; then whatever is spelled before is spelled behind it, with
the same marks.

Other than a recasting, this changes bytes of the constructs themselves, and it may depend on
what stands before the place.  So a construct is carried over from the left to the right, as a
place of the source and with nodes and comments of the document in it.
-/

namespace Ebnf

open Byte

/-- The bytes that may be a separator. -/
def Byte.isSeparating (b : UInt8) : Bool :=
  b == verticalLine || b == solidus || b == exclamationMark

/-- The bytes that may be the quotes of a terminal string. -/
def Byte.isQuote (b : UInt8) : Bool :=
  b == apostrophe || b == quotationMark

/-- The bytes for which no other may stand. -/
def Byte.isFixed (b : UInt8) : Bool :=
  !isSeparating b && !isQuote b

theorem not_isSeparating_of_isFixed {b : UInt8} (h : isFixed b) : ¬isSeparating b := by
  simp only [isFixed, Bool.and_eq_true, Bool.not_eq_true'] at h
  exact Bool.eq_false_iff.1 h.1

theorem not_isQuote_of_isFixed {b : UInt8} (h : isFixed b) : ¬isQuote b := by
  simp only [isFixed, Bool.and_eq_true, Bool.not_eq_true'] at h
  exact Bool.eq_false_iff.1 h.2

theorem isFixed_of_ne {b : UInt8} (h : b ≠ verticalLine ∧ b ≠ solidus ∧ b ≠ exclamationMark ∧
    b ≠ apostrophe ∧ b ≠ quotationMark) : isFixed b := by
  simpa [isFixed, isSeparating, isQuote, and_assoc] using h

theorem isFixed_of_isBlank {b : UInt8} (h : isBlank b) : isFixed b := by
  apply isFixed_of_ne
  refine ⟨?_, ?_, ?_, ?_, ?_⟩ <;> rintro rfl <;> exact absurd h (by decide)

theorem isFixed_of_isWord {b : UInt8} (h : isWord b) : isFixed b := by
  apply isFixed_of_ne
  refine ⟨?_, ?_, ?_, ?_, ?_⟩ <;> rintro rfl <;> exact absurd h (by decide)

theorem isFixed_of_isDigit {b : UInt8} (h : isDigit b) : isFixed b :=
  isFixed_of_isWord (isWord_of_isDigit h)

variable [Runtime]

/-- A map from the ends of a source to the ends of a new one that takes symbols to symbols,
and leaves the nodes and comments as they are. -/
structure Respelling (source : Bytes) (nodes : List (Node Extent))
    (comments : List (Comment Mark)) (image : Bytes → Bytes) : Prop where
  length : ∀ {input}, input <:+ source → (image input).length = input.length
  fixed : ∀ {b rest}, isFixed b → b :: rest <:+ source → image (b :: rest) = b :: image rest
  opener : ∀ {bracket : Bracket} {opener inside}, opener ∈ bracket.openers →
    opener ++ inside <:+ source → image (opener ++ inside) = opener ++ image inside
  clear : ∀ {inside}, leftParenthesis :: inside <:+ source → inside.head? ≠ some solidus →
    (image inside).head? ≠ some solidus
  closer : ∀ {bracket : Bracket} {closer rest}, closer ∈ bracket.closers →
    closer ++ rest <:+ source → image (closer ++ rest) = closer ++ image rest
  separator : ∀ {input rest}, SpellsSeparator input rest → input <:+ source →
    SpellsSeparator (image input) (image rest)
  comment : ∀ {input k rest}, k ∈ comments → SpellsComment input k rest → input <:+ source →
    SpellsComment (image input) k (image rest)
  quoted : ∀ {input p rest}, Node.ofPrimary p ∈ nodes → (Node.ofPrimary p).IsQuoted →
    SpellsPrimary input p [] rest → input <:+ source → SpellsPrimary (image input) p [] (image rest)

section

variable {source : Bytes} {nodes : List (Node Extent)} {kept : List (Comment Mark)}
  {image : Bytes → Bytes} (hmap : Respelling source nodes kept image)

include hmap

namespace Respelling

theorem extent {input rest : Bytes} (hrest : rest <:+ input) (hplace : input <:+ source) :
    (⟨input.length, rest.length⟩ : Extent) = ⟨(image input).length, (image rest).length⟩ := by
  rw [hmap.length hplace, hmap.length (hrest.trans hplace)]

theorem digits {digits rest : Bytes} (hdigit : ∀ b ∈ digits, isDigit b)
    (hplace : digits ++ rest <:+ source) : image (digits ++ rest) = digits ++ image rest := by
  induction digits with
  | nil => rfl
  | cons b digits ih =>
    rw [List.forall_mem_cons] at hdigit
    rw [List.cons_append] at hplace ⊢
    rw [hmap.fixed (isFixed_of_isDigit hdigit.1) hplace,
      ih hdigit.2 ((List.suffix_cons _ _).trans hplace), List.cons_append]

end Respelling

/-! ### Trivia, names and symbols -/

theorem SpellsTrivia.respell {input rest : Bytes} {comments : List (Comment Mark)}
    (h : SpellsTrivia input comments rest) (hplace : input <:+ source)
    (hcomments : comments ⊆ kept) : SpellsTrivia (image input) comments (image rest) := by
  induction h with
  | nothing => exact .nothing
  | blank hblank _ ih =>
    rw [hmap.fixed (isFixed_of_isBlank hblank) hplace]
    exact .blank hblank (ih ((List.suffix_cons _ _).trans hplace) hcomments)
  | comment hcomment _ ih =>
    rw [List.cons_subset] at hcomments
    have hfirst := hmap.comment hcomments.1 hcomment hplace
    exact .comment hfirst (ih (hcomment.suffix.trans hplace) hcomments.2)

/-- Trivia up to a byte that stands, and that byte. -/
theorem SpellsTrivia.respell_fixed {input rest : Bytes} {b : UInt8}
    {comments : List (Comment Mark)} (h : SpellsTrivia input comments (b :: rest))
    (hb : isFixed b) (hplace : input <:+ source) (hcomments : comments ⊆ kept) :
    SpellsTrivia (image input) comments (b :: image rest) := by
  rw [← hmap.fixed hb (h.suffix.trans hplace)]
  exact h.respell hmap hplace hcomments

theorem SpellsWord.respell {input word rest : Bytes} {comments : List (Comment Mark)}
    (h : SpellsWord input word comments rest) (hplace : input <:+ source)
    (hcomments : comments ⊆ kept) : SpellsWord (image input) word comments (image rest) := by
  induction h with
  | last hword =>
    rw [hmap.fixed (isFixed_of_isWord hword) hplace]
    exact .last hword
  | more hword htrivia _ ih =>
    have hbehind := (List.suffix_cons _ _).trans hplace
    rw [List.append_subset] at hcomments
    rw [hmap.fixed (isFixed_of_isWord hword) hplace]
    exact .more hword (htrivia.respell hmap hbehind hcomments.1)
      (ih (htrivia.suffix.trans hbehind) hcomments.2)

theorem SpellsName.respell {input name rest : Bytes} {comments : List (Comment Mark)}
    (h : SpellsName input name comments rest) (hplace : input <:+ source)
    (hcomments : comments ⊆ kept) : SpellsName (image input) name comments (image rest) := by
  cases h with
  | @mk b _ _ _ _ hletter hword =>
    have hfixed : isFixed b := isFixed_of_isWord (isWord_of_isLetter hletter)
    have himage := hword.respell hmap hplace hcomments
    rw [hmap.fixed hfixed hplace] at himage ⊢
    exact .mk hletter himage

theorem SpellsComma.respell {input rest : Bytes} (h : SpellsComma input rest)
    (hplace : input <:+ source) : SpellsComma (image input) (image rest) := by
  cases h
  rw [hmap.fixed (by decide) hplace]
  exact .mk

end

/-! ### Productions -/

section Productions

variable {source : Bytes} {nodes : List (Node Extent)} {kept : List (Comment Mark)}
  {image : Bytes → Bytes}

mutual

theorem SpellsPrimary.respell (hmap : Respelling source nodes kept image)
    {input rest : Bytes} {p : Primary Extent} {comments : List (Comment Mark)}
    (h : SpellsPrimary input p comments rest) (hplace : input <:+ source)
    (hnodes : p.nodes ⊆ nodes) (hcomments : comments ⊆ kept) :
    SpellsPrimary (image input) p comments (image rest) := by
  have hextent := hmap.extent h.suffix hplace
  match h with
  | .bracketed hopener hcloser hclear hdefinitions =>
    have hinside := (List.suffix_append _ _).trans hplace
    have hspelled := hdefinitions.respell hmap hinside (List.subset_of_cons_subset hnodes) hcomments
    rw [hmap.closer hcloser (hdefinitions.suffix.trans hinside)] at hspelled
    rw [hextent, hmap.opener hopener hplace]
    refine .bracketed hopener hcloser ?_ hspelled
    rintro rfl
    obtain rfl := Bracket.mem_openers_grouped.1 hopener
    exact hmap.clear hplace (hclear rfl)
  | .identifier hname =>
    rw [hextent]
    exact .identifier (hname.respell hmap hplace hcomments)
  | .terminal hquote hnonempty hcontent hinput =>
    have hspelled := SpellsPrimary.terminal hquote hnonempty hcontent hinput
    exact hmap.quoted (hnodes (.head _)) (.inl rfl) hspelled hplace
  | .special hinterior hinput =>
    have hspelled := SpellsPrimary.special hinterior hinput
    exact hmap.quoted (hnodes (.head _)) (.inr rfl) hspelled hplace

theorem SpellsFactor.respell (hmap : Respelling source nodes kept image)
    {input rest : Bytes} {x : Factor Extent} {comments : List (Comment Mark)}
    (h : SpellsFactor input x comments rest) (hplace : input <:+ source)
    (hnodes : x.nodes ⊆ nodes) (hcomments : comments ⊆ kept) :
    SpellsFactor (image input) x comments (image rest) := by
  have hextent := hmap.extent h.suffix hplace
  match h with
  | .primary hprimary => exact .primary (hprimary.respell hmap hplace hnodes hcomments)
  | .repetition hcount htrivia =>
    have hbehind := (List.suffix_append _ _).trans hplace
    have htrivia' := htrivia.respell_fixed hmap (by decide) hbehind hcomments
    rw [hextent, hmap.digits hcount.digit hplace]
    exact .repetition hcount htrivia'
  | .repetitionOf hcount hbefore hafter hoperand =>
    rw [List.append_subset, List.append_subset] at hcomments
    obtain ⟨hcomments₁, hcomments₂, hcomments₃⟩ := hcomments
    have hbehind := (List.suffix_append _ _).trans hplace
    have hmiddle := ((List.suffix_cons _ _).trans hbefore.suffix).trans hbehind
    have hstart := hafter.suffix.trans hmiddle
    have hbefore' := hbefore.respell_fixed hmap (by decide) hbehind hcomments₁
    have hafter' := hafter.respell hmap hmiddle hcomments₂
    have hoperand' := hoperand.respell hmap hstart (List.subset_of_cons_subset hnodes) hcomments₃
    rw [hextent, hmap.digits hcount.digit hplace]
    exact .repetitionOf hcount hbefore' hafter' hoperand'

theorem SpellsTerm.respell (hmap : Respelling source nodes kept image)
    {input rest : Bytes} {t : Term Extent} {comments : List (Comment Mark)}
    (h : SpellsTerm input t comments rest) (hplace : input <:+ source)
    (hnodes : t.nodes ⊆ nodes) (hcomments : comments ⊆ kept) :
    SpellsTerm (image input) t comments (image rest) := by
  have hextent := hmap.extent h.suffix hplace
  match h with
  | .factor hfactor => exact .factor (hfactor.respell hmap hplace hnodes hcomments)
  | .exception hbase htrivia =>
    rw [List.append_subset] at hcomments
    have hstop := hbase.suffix.trans hplace
    have hbase' := hbase.respell hmap hplace (List.subset_of_cons_subset hnodes) hcomments.1
    have htrivia' := htrivia.respell_fixed hmap (by decide) hstop hcomments.2
    rw [hextent]
    exact .exception hbase' htrivia'
  | .exceptionOf hbase hbefore hafter hexcluded =>
    rw [List.append_subset, List.append_subset, List.append_subset] at hcomments
    obtain ⟨hcomments₁, hcomments₂, hcomments₃, hcomments₄⟩ := hcomments
    have hoperands := List.append_subset.1 (List.subset_of_cons_subset hnodes)
    have hstop := hbase.suffix.trans hplace
    have hmiddle := ((List.suffix_cons _ _).trans hbefore.suffix).trans hstop
    have hstart := hafter.suffix.trans hmiddle
    have hbase' := hbase.respell hmap hplace hoperands.1 hcomments₁
    have hbefore' := hbefore.respell_fixed hmap (by decide) hstop hcomments₂
    have hafter' := hafter.respell hmap hmiddle hcomments₃
    have hexcluded' := hexcluded.respell hmap hstart hoperands.2 hcomments₄
    rw [hextent]
    exact .exceptionOf hbase' hbefore' hafter' hexcluded'

theorem SpellsSlot.respell (hmap : Respelling source nodes kept image)
    {input rest : Bytes} {t : Option (Term Extent)} {comments : List (Comment Mark)}
    (h : SpellsSlot SpellsTerm input t comments rest) (hplace : input <:+ source)
    (hnodes : Term.nodesAll t.toList ⊆ nodes) (hcomments : comments ⊆ kept) :
    SpellsSlot SpellsTerm (image input) t comments (image rest) := by
  match h with
  | .empty htrivia => exact .empty (htrivia.respell hmap hplace hcomments)
  | .filled hbefore hterm hafter =>
    rw [List.append_subset, List.append_subset] at hcomments
    obtain ⟨hcomments₁, hcomments₂, hcomments₃⟩ := hcomments
    have hstart := hbefore.suffix.trans hplace
    have hterm' := hterm.respell hmap hstart (List.append_subset.1 hnodes).1 hcomments₂
    exact .filled (hbefore.respell hmap hplace hcomments₁) hterm'
      (hafter.respell hmap (hterm.suffix.trans hstart) hcomments₃)

theorem SpellsChain.respell_terms (hmap : Respelling source nodes kept image)
    {input rest : Bytes} {terms : List (Term Extent)} {comments : List (Comment Mark)}
    (h : SpellsChain (SpellsSlot SpellsTerm) SpellsComma input terms comments rest)
    (hplace : input <:+ source) (hnodes : Term.nodesAll terms ⊆ nodes)
    (hcomments : comments ⊆ kept) :
    SpellsChain (SpellsSlot SpellsTerm) SpellsComma (image input) terms comments (image rest) := by
  match h with
  | .last hslot => exact .last (hslot.respell hmap hplace hnodes hcomments)
  | .more hslot hcomma hmore =>
    rw [Term.nodesAll_append, List.append_subset] at hnodes
    rw [List.append_subset] at hcomments
    have hmiddle := hslot.suffix.trans hplace
    have hnext := hcomma.suffix.trans hmiddle
    exact .more (hslot.respell hmap hplace hnodes.1 hcomments.1) (hcomma.respell hmap hmiddle)
      (hmore.respell_terms hmap hnext hnodes.2 hcomments.2)

theorem SpellsDefinition.respell (hmap : Respelling source nodes kept image)
    {input rest : Bytes} {d : Option (Definition Extent)} {comments : List (Comment Mark)}
    (h : SpellsDefinition input d comments rest) (hplace : input <:+ source)
    (hnodes : Definition.nodesAll d.toList ⊆ nodes) (hcomments : comments ⊆ kept) :
    SpellsDefinition (image input) d comments (image rest) := by
  match h with
  | .nothing hterms => exact .nothing (hterms.respell_terms hmap hplace hnodes hcomments)
  | .term hterms => exact .term (hterms.respell_terms hmap hplace hnodes hcomments)
  | .concatenation hterms =>
    have hterms' : Term.nodesAll (_ :: _ :: _) ⊆ nodes :=
      List.Subset.trans (List.subset_append_left _ _) (List.subset_of_cons_subset hnodes)
    exact .concatenation (hterms.respell_terms hmap hplace hterms' hcomments)

theorem SpellsChain.respell_definitions (hmap : Respelling source nodes kept image)
    {input rest : Bytes} {definitions : List (Definition Extent)}
    {comments : List (Comment Mark)}
    (h : SpellsChain SpellsDefinition SpellsSeparator input definitions comments rest)
    (hplace : input <:+ source) (hnodes : Definition.nodesAll definitions ⊆ nodes)
    (hcomments : comments ⊆ kept) :
    SpellsChain SpellsDefinition SpellsSeparator (image input) definitions comments
      (image rest) := by
  match h with
  | .last hdefinition => exact .last (hdefinition.respell hmap hplace hnodes hcomments)
  | .more hdefinition hseparator hmore =>
    rw [Definition.nodesAll_append, List.append_subset] at hnodes
    rw [List.append_subset] at hcomments
    have hmiddle := hdefinition.suffix.trans hplace
    have hnext := hseparator.suffix.trans hmiddle
    exact .more (hdefinition.respell hmap hplace hnodes.1 hcomments.1)
      (hmap.separator hseparator hmiddle)
      (hmore.respell_definitions hmap hnext hnodes.2 hcomments.2)

theorem SpellsDefinitions.respell (hmap : Respelling source nodes kept image)
    {input rest : Bytes} {definitions : List (Definition Extent)}
    {comments : List (Comment Mark)}
    (h : SpellsDefinitions input definitions comments rest) (hplace : input <:+ source)
    (hnodes : Definition.nodesAll definitions ⊆ nodes) (hcomments : comments ⊆ kept) :
    SpellsDefinitions (image input) definitions comments (image rest) := by
  match h with
  | .mk hdefinitions => exact .mk (hdefinitions.respell_definitions hmap hplace hnodes hcomments)

end

theorem SpellsRule.respell (hmap : Respelling source nodes kept image) {input rest : Bytes}
    {r : Rule Extent} {comments : List (Comment Mark)} (h : SpellsRule input r comments rest)
    (hplace : input <:+ source) (hnodes : r.nodes ⊆ nodes) (hcomments : comments ⊆ kept) :
    SpellsRule (image input) r comments (image rest) := by
  have hextent := hmap.extent h.suffix hplace
  obtain ⟨hname, htrivia, hdefinitions⟩ := h
  rw [List.append_subset, List.append_subset] at hcomments
  obtain ⟨hcomments₁, hcomments₂, hcomments₃⟩ := hcomments
  have hstop := hname.suffix.trans hplace
  have hbody := ((List.suffix_cons _ _).trans htrivia.suffix).trans hstop
  have hname' := hname.respell hmap hplace hcomments₁
  have htrivia' := htrivia.respell_fixed hmap (by decide) hstop hcomments₂
  have hdefinitions' := hdefinitions.respell hmap hbody (List.subset_of_cons_subset hnodes)
    hcomments₃
  rw [hmap.fixed (by decide) (hdefinitions.suffix.trans hbody)] at hdefinitions'
  rw [hextent]
  exact .mk hname' htrivia' hdefinitions'

/-- A document is spelled by the new source as it is by the old one. -/
theorem SpellsDocument.respell (hmap : Respelling source nodes kept image) {input : Bytes}
    {g : Grammar Extent Mark} (h : SpellsDocument input g) (hplace : input <:+ source)
    (hnodes : g.nodes ⊆ nodes) (hcomments : g.comments ⊆ kept) :
    SpellsDocument (image input) g := by
  have hend : image [] = [] := by
    have hlength := hmap.length (List.nil_suffix (l := source))
    exact List.eq_nil_of_length_eq_zero hlength
  induction h with
  | trivia htrivia =>
    have htrivia' := htrivia.respell hmap hplace hcomments
    rw [hend] at htrivia'
    exact .trivia htrivia'
  | rule htrivia hrule _ ih =>
    rw [List.append_subset, List.append_subset] at hcomments
    obtain ⟨hcomments₁, hcomments₂, hcomments₃⟩ := hcomments
    have hboth := List.append_subset.1 hnodes
    have hstart := htrivia.suffix.trans hplace
    exact .rule (htrivia.respell hmap hplace hcomments₁)
      (hrule.respell hmap hstart hboth.1 hcomments₂)
      (ih (hrule.suffix.trans hstart) hboth.2 hcomments₃)

end Productions

end Ebnf
