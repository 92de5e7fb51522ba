import Ebnf.Proofs.Spelling.Suffix
import Ebnf.Proofs.Tree.Notes

/-!
# Rewriting a source

The bytes of a source can be changed where its tree does not depend on them: behind a
construct, or inside comments.  A way to do this relates what is left of the source at
some place to what is left of the new one.  When it lets every byte outside of comments
stand, and puts trivia where a comment was, then whatever is spelled before the change
is spelled after it, at the places that the new source gives.

A construct is carried over from its end to its beginning.  What the relation says of a
place may therefore depend on the comments behind it, but not on what comes before.
-/

namespace Ebnf

open Byte

def Extent.map (place : Mark → Mark) (extent : Extent) : Extent :=
  ⟨place extent.start, place extent.stop⟩

/-- The comments that are kept, at their new places. -/
def carried (place : Mark → Mark) (kept : Comment Mark → Bool)
    (comments : List (Comment Mark)) : List (Comment Mark) :=
  (comments.filter kept).map (Comment.map place)

theorem carried_append (place : Mark → Mark) (kept : Comment Mark → Bool)
    (comments comments' : List (Comment Mark)) :
    carried place kept (comments ++ comments') =
      carried place kept comments ++ carried place kept comments' := by
  unfold carried
  rw [List.filter_append, List.map_append]

/-- A relation between the ends of a source and those of a rewritten one, the former with
the comments in it.  The two bytes that a symbol before them may not be followed by do not
come next unless they came next before. -/
structure Recast (related : Bytes → Bytes → List (Comment Mark) → Prop)
    (place : Mark → Mark) (kept : Comment Mark → Bool) : Prop where
  length : ∀ {rest rest' behind}, related rest rest' behind → place rest.length = rest'.length
  head_ne : ∀ {rest rest' behind b}, related rest rest' behind →
    b = solidus ∨ b = rightParenthesis → rest.head? ≠ some b → rest'.head? ≠ some b
  cons : ∀ {rest rest' behind} (b : UInt8), related rest rest' behind →
    related (b :: rest) (b :: rest') behind
  comment : ∀ {input k rest rest' behind}, SpellsComment input k rest →
    related rest rest' behind → ∃ input', related input input' (k :: behind) ∧
      SpellsTrivia input' (carried place kept [k]) rest'

section

variable {related : Bytes → Bytes → List (Comment Mark) → Prop} {place : Mark → Mark}
  {kept : Comment Mark → Bool} (hrecast : Recast related place kept)

include hrecast

namespace Recast

theorem bytes {rest rest' : Bytes} {behind : List (Comment Mark)} (bytes : Bytes)
    (h : related rest rest' behind) : related (bytes ++ rest) (bytes ++ rest') behind := by
  induction bytes with
  | nil => exact h
  | cons b bytes ih => exact hrecast.cons b ih

theorem quoted {rest rest' : Bytes} {behind : List (Comment Mark)} (quote : UInt8)
    (content : Bytes) (h : related rest rest' behind) :
    related (quote :: (content ++ quote :: rest)) (quote :: (content ++ quote :: rest'))
      behind :=
  hrecast.cons quote (hrecast.bytes content (hrecast.cons quote h))

theorem extent {input input' rest rest' : Bytes} {before behind : List (Comment Mark)}
    (h : related input input' before) (hrest : related rest rest' behind) :
    Extent.map place ⟨input.length, rest.length⟩ = ⟨input'.length, rest'.length⟩ := by
  unfold Extent.map
  rw [hrecast.length h, hrecast.length hrest]

end Recast

/-! ### Trivia, names and symbols -/

variable {rest' : Bytes} {behind : List (Comment Mark)}

theorem SpellsTrivia.recast {input rest : Bytes} {comments : List (Comment Mark)}
    (h : SpellsTrivia input comments rest) (hrest : related rest rest' behind) :
    ∃ input', related input input' (comments ++ behind) ∧
      SpellsTrivia input' (carried place kept comments) rest' := by
  induction h with
  | nothing => exact ⟨rest', hrest, .nothing⟩
  | @blank b _ _ _ hblank _ ih =>
    obtain ⟨input', hinput, htrivia⟩ := ih hrest
    exact ⟨b :: input', hrecast.cons b hinput, .blank hblank htrivia⟩
  | @comment _ k _ comments _ hcomment _ ih =>
    obtain ⟨middle', hmiddle, htrivia⟩ := ih hrest
    obtain ⟨input', hinput, hbefore⟩ := hrecast.comment hcomment hmiddle
    refine ⟨input', hinput, ?_⟩
    have happend := carried_append place kept [k] comments
    rw [List.singleton_append] at happend
    rw [happend]
    exact hbefore.append htrivia

/-- The first byte of a word is one that stands. -/
theorem SpellsWord.recast {input word rest : Bytes} {comments : List (Comment Mark)}
    (h : SpellsWord input word comments rest) (hrest : related rest rest' behind) :
    ∃ input', related input input' (comments ++ behind) ∧ input'.head? = input.head? ∧
      SpellsWord input' word (carried place kept comments) rest' := by
  induction h with
  | @last b rest hword => exact ⟨b :: rest', hrecast.cons b hrest, rfl, .last hword⟩
  | @more b _ _ _ _ _ _ hword htrivia _ ih =>
    obtain ⟨middle', hmiddle, -, hmore⟩ := ih hrest
    obtain ⟨input', hinput, hbefore⟩ := htrivia.recast hrecast hmiddle
    rw [List.append_assoc, carried_append]
    exact ⟨b :: input', hrecast.cons b hinput, rfl, .more hword hbefore hmore⟩

theorem SpellsName.recast {input name rest : Bytes} {comments : List (Comment Mark)}
    (h : SpellsName input name comments rest) (hrest : related rest rest' behind) :
    ∃ input', related input input' (comments ++ behind) ∧
      SpellsName input' name (carried place kept comments) rest' := by
  obtain ⟨hletter, hword⟩ := h
  obtain ⟨input', hinput, hhead, hword'⟩ := hword.recast hrecast hrest
  obtain ⟨more, rfl⟩ := List.head?_eq_some_iff.1 hhead
  exact ⟨_, hinput, .mk hletter hword'⟩

theorem SpellsComma.recast {input rest : Bytes} (h : SpellsComma input rest)
    (hrest : related rest rest' behind) :
    ∃ input', related input input' behind ∧ SpellsComma input' rest' := by
  cases h
  exact ⟨_, hrecast.cons comma hrest, .mk⟩

theorem SpellsSeparator.recast {input rest : Bytes} (h : SpellsSeparator input rest)
    (hrest : related rest rest' behind) :
    ∃ input', related input input' behind ∧ SpellsSeparator input' rest' := by
  obtain ⟨hsymbol, hclear⟩ := h
  refine ⟨_, hrecast.cons _ hrest, .mk hsymbol ?_⟩
  intro hb
  exact hrecast.head_ne hrest (.inr rfl) (hclear hb)

end

/-! ### Productions -/

/-- The extent of a concatenation goes from its first term to its last. -/
theorem concatenation_map (place : Mark → Mark) (first second : Term Extent)
    (more : List (Term Extent)) :
    Extent.map place ⟨first.note.start, ((second :: more).getLast (by simp)).note.stop⟩ =
      ⟨(first.map (Extent.map place)).note.start,
        ((second.map (Extent.map place) ::
          Term.mapAll (Extent.map place) more).getLast (by simp)).note.stop⟩ := by
  rw [Term.getLast_mapAll, Term.note_map, Term.note_map]
  rfl

section Productions

variable {related : Bytes → Bytes → List (Comment Mark) → Prop} {place : Mark → Mark}
  {kept : Comment Mark → Bool}

variable [Runtime]

mutual

theorem SpellsPrimary.recast (hrecast : Recast related place kept)
    {input rest rest' : Bytes} {p : Primary Extent} {comments behind : List (Comment Mark)}
    (h : SpellsPrimary input p comments rest) (hrest : related rest rest' behind) :
    ∃ input', related input input' (comments ++ behind) ∧
      SpellsPrimary input' (p.map (Extent.map place)) (carried place kept comments) rest' := by
  match h with
  | .bracketed hopener hcloser hclear hdefinitions =>
    obtain ⟨inside', hinside, hspelled⟩ := hdefinitions.recast hrecast (hrecast.bytes _ hrest)
    refine ⟨_, hrecast.bytes _ hinside, ?_⟩
    rw [Primary.map, hrecast.extent (hrecast.bytes _ hinside) hrest]
    refine .bracketed hopener hcloser ?_ hspelled
    intro hgrouped
    exact hrecast.head_ne hinside (.inl rfl) (hclear hgrouped)
  | .identifier hname =>
    obtain ⟨input', hinput, hspelled⟩ := hname.recast hrecast hrest
    refine ⟨input', hinput, ?_⟩
    rw [Primary.map, hrecast.extent hinput hrest]
    exact .identifier hspelled
  | .terminal hquote hnonempty hcontent hinput =>
    subst hinput
    refine ⟨_, hrecast.quoted _ _ hrest, ?_⟩
    rw [Primary.map, hrecast.extent (hrecast.quoted _ _ hrest) hrest]
    exact .terminal hquote hnonempty hcontent rfl
  | .special hinterior hinput =>
    subst hinput
    refine ⟨_, hrecast.quoted _ _ hrest, ?_⟩
    rw [Primary.map, hrecast.extent (hrecast.quoted _ _ hrest) hrest]
    exact .special hinterior rfl

theorem SpellsFactor.recast (hrecast : Recast related place kept)
    {input rest rest' : Bytes} {x : Factor Extent} {comments behind : List (Comment Mark)}
    (h : SpellsFactor input x comments rest) (hrest : related rest rest' behind) :
    ∃ input', related input input' (comments ++ behind) ∧
      SpellsFactor input' (x.map (Extent.map place)) (carried place kept comments) rest' := by
  match h with
  | .primary hprimary =>
    obtain ⟨input', hinput, hspelled⟩ := hprimary.recast hrecast hrest
    exact ⟨input', hinput, .primary hspelled⟩
  | .repetition hcount htrivia =>
    obtain ⟨input', hinput, hspelled⟩ := htrivia.recast hrecast (hrecast.cons asterisk hrest)
    refine ⟨_, hrecast.bytes _ hinput, ?_⟩
    rw [Factor.map, hrecast.extent (hrecast.bytes _ hinput) hrest]
    exact .repetition hcount hspelled
  | .repetitionOf hcount hbefore hafter hoperand =>
    obtain ⟨start', hstart, hspelled⟩ := hoperand.recast hrecast hrest
    obtain ⟨middle', hmiddle, hafter'⟩ := hafter.recast hrecast hstart
    obtain ⟨input', hinput, hbefore'⟩ :=
      hbefore.recast hrecast (hrecast.cons asterisk hmiddle)
    rw [List.append_assoc, List.append_assoc, carried_append, carried_append]
    refine ⟨_, hrecast.bytes _ hinput, ?_⟩
    rw [Factor.map, hrecast.extent (hrecast.bytes _ hinput) hrest]
    exact .repetitionOf hcount hbefore' hafter' hspelled

theorem SpellsTerm.recast (hrecast : Recast related place kept)
    {input rest rest' : Bytes} {t : Term Extent} {comments behind : List (Comment Mark)}
    (h : SpellsTerm input t comments rest) (hrest : related rest rest' behind) :
    ∃ input', related input input' (comments ++ behind) ∧
      SpellsTerm input' (t.map (Extent.map place)) (carried place kept comments) rest' := by
  match h with
  | .factor hfactor =>
    obtain ⟨input', hinput, hspelled⟩ := hfactor.recast hrecast hrest
    exact ⟨input', hinput, .factor hspelled⟩
  | .exception hbase htrivia =>
    obtain ⟨stop', hstop, htrivia'⟩ := htrivia.recast hrecast (hrecast.cons hyphen hrest)
    obtain ⟨input', hinput, hspelled⟩ := hbase.recast hrecast hstop
    rw [List.append_assoc, carried_append, Term.map, hrecast.extent hinput hrest]
    exact ⟨input', hinput, .exception hspelled htrivia'⟩
  | .exceptionOf hbase hbefore hafter hexcluded =>
    obtain ⟨start', hstart, hexcluded'⟩ := hexcluded.recast hrecast hrest
    obtain ⟨middle', hmiddle, hafter'⟩ := hafter.recast hrecast hstart
    obtain ⟨stop', hstop, hbefore'⟩ := hbefore.recast hrecast (hrecast.cons hyphen hmiddle)
    obtain ⟨input', hinput, hbase'⟩ := hbase.recast hrecast hstop
    rw [List.append_assoc, List.append_assoc, List.append_assoc, carried_append,
      carried_append, carried_append, Term.map, hrecast.extent hinput hrest]
    exact ⟨input', hinput, .exceptionOf hbase' hbefore' hafter' hexcluded'⟩

theorem SpellsSlot.recast (hrecast : Recast related place kept)
    {input rest rest' : Bytes} {t : Option (Term Extent)}
    {comments behind : List (Comment Mark)}
    (h : SpellsSlot SpellsTerm input t comments rest) (hrest : related rest rest' behind) :
    ∃ input', related input input' (comments ++ behind) ∧
      SpellsSlot SpellsTerm input' (t.map (Term.map (Extent.map place)))
        (carried place kept comments) rest' := by
  match h with
  | .empty htrivia =>
    obtain ⟨input', hinput, hspelled⟩ := htrivia.recast hrecast hrest
    exact ⟨input', hinput, .empty hspelled⟩
  | .filled hbefore hterm hafter =>
    obtain ⟨stop', hstop, hafter'⟩ := hafter.recast hrecast hrest
    obtain ⟨start', hstart, hterm'⟩ := hterm.recast hrecast hstop
    obtain ⟨input', hinput, hbefore'⟩ := hbefore.recast hrecast hstart
    rw [List.append_assoc, List.append_assoc, carried_append, carried_append]
    exact ⟨input', hinput, .filled hbefore' hterm' hafter'⟩

theorem SpellsChain.recast_terms (hrecast : Recast related place kept)
    {input rest rest' : Bytes} {terms : List (Term Extent)}
    {comments behind : List (Comment Mark)}
    (h : SpellsChain (SpellsSlot SpellsTerm) SpellsComma input terms comments rest)
    (hrest : related rest rest' behind) :
    ∃ input', related input input' (comments ++ behind) ∧
      SpellsChain (SpellsSlot SpellsTerm) SpellsComma input'
        (Term.mapAll (Extent.map place) terms) (carried place kept comments) rest' := by
  match h with
  | .last hslot =>
    obtain ⟨input', hinput, hspelled⟩ := hslot.recast hrecast hrest
    rw [Term.mapAll_toList]
    exact ⟨input', hinput, .last hspelled⟩
  | .more hslot hcomma hmore =>
    obtain ⟨next', hnext, hmore'⟩ := hmore.recast_terms hrecast hrest
    obtain ⟨middle', hmiddle, hcomma'⟩ := hcomma.recast hrecast hnext
    obtain ⟨input', hinput, hslot'⟩ := hslot.recast hrecast hmiddle
    rw [List.append_assoc, carried_append, Term.mapAll_append, Term.mapAll_toList]
    exact ⟨input', hinput, .more hslot' hcomma' hmore'⟩

theorem SpellsDefinition.recast (hrecast : Recast related place kept)
    {input rest rest' : Bytes} {d : Option (Definition Extent)}
    {comments behind : List (Comment Mark)}
    (h : SpellsDefinition input d comments rest) (hrest : related rest rest' behind) :
    ∃ input', related input input' (comments ++ behind) ∧
      SpellsDefinition input' (d.map (Definition.map (Extent.map place)))
        (carried place kept comments) rest' := by
  match h with
  | .nothing hterms =>
    obtain ⟨input', hinput, hspelled⟩ := hterms.recast_terms hrecast hrest
    exact ⟨input', hinput, .nothing hspelled⟩
  | .term hterms =>
    obtain ⟨input', hinput, hspelled⟩ := hterms.recast_terms hrecast hrest
    exact ⟨input', hinput, .term hspelled⟩
  | .concatenation hterms =>
    obtain ⟨input', hinput, hspelled⟩ := hterms.recast_terms hrecast hrest
    rw [Option.map_some, Definition.map, concatenation_map]
    exact ⟨input', hinput, .concatenation hspelled⟩

theorem SpellsChain.recast_definitions (hrecast : Recast related place kept)
    {input rest rest' : Bytes} {definitions : List (Definition Extent)}
    {comments behind : List (Comment Mark)}
    (h : SpellsChain SpellsDefinition SpellsSeparator input definitions comments rest)
    (hrest : related rest rest' behind) :
    ∃ input', related input input' (comments ++ behind) ∧
      SpellsChain SpellsDefinition SpellsSeparator input'
        (Definition.mapAll (Extent.map place) definitions)
        (carried place kept comments) rest' := by
  match h with
  | .last hdefinition =>
    obtain ⟨input', hinput, hspelled⟩ := hdefinition.recast hrecast hrest
    rw [Definition.mapAll_toList]
    exact ⟨input', hinput, .last hspelled⟩
  | .more hdefinition hseparator hmore =>
    obtain ⟨next', hnext, hmore'⟩ := hmore.recast_definitions hrecast hrest
    obtain ⟨middle', hmiddle, hseparator'⟩ := hseparator.recast hrecast hnext
    obtain ⟨input', hinput, hdefinition'⟩ := hdefinition.recast hrecast hmiddle
    rw [List.append_assoc, carried_append, Definition.mapAll_append, Definition.mapAll_toList]
    exact ⟨input', hinput, .more hdefinition' hseparator' hmore'⟩

theorem SpellsDefinitions.recast (hrecast : Recast related place kept)
    {input rest rest' : Bytes} {definitions : List (Definition Extent)}
    {comments behind : List (Comment Mark)}
    (h : SpellsDefinitions input definitions comments rest)
    (hrest : related rest rest' behind) :
    ∃ input', related input input' (comments ++ behind) ∧
      SpellsDefinitions input' (Definition.mapAll (Extent.map place) definitions)
        (carried place kept comments) rest' := by
  match h with
  | .mk hdefinitions =>
    obtain ⟨input', hinput, hspelled⟩ := hdefinitions.recast_definitions hrecast hrest
    exact ⟨input', hinput, .mk hspelled⟩

end

/-- A rule ends with its terminator, so all that matters of what follows is where the
rule ends. -/
theorem SpellsRule.recast (hrecast : Recast related place kept) {input rest rest' : Bytes}
    {r : Rule Extent} {comments behind : List (Comment Mark)}
    (h : SpellsRule input r comments rest)
    (hrest : related (semicolon :: rest) (semicolon :: rest') behind)
    (hplace : place rest.length = rest'.length) :
    ∃ input', related input input' (comments ++ behind) ∧
      SpellsRule input' (r.map (Extent.map place)) (carried place kept comments) rest' := by
  obtain ⟨hname, htrivia, hdefinitions⟩ := h
  obtain ⟨body', hbody, hdefinitions'⟩ := hdefinitions.recast hrecast hrest
  obtain ⟨stop', hstop, htrivia'⟩ := htrivia.recast hrecast (hrecast.cons equalsSign hbody)
  obtain ⟨input', hinput, hname'⟩ := hname.recast hrecast hstop
  rw [Definition.mapAll_eq] at hdefinitions'
  have hextent : Extent.map place ⟨input.length, rest.length⟩ =
      ⟨input'.length, rest'.length⟩ := by
    unfold Extent.map
    rw [hrecast.length hinput, hplace]
  rw [Rule.map, hextent, List.append_assoc, List.append_assoc, carried_append, carried_append]
  exact ⟨input', hinput, .mk hname' htrivia' hdefinitions'⟩

/-- The grammar without some of its comments. -/
def Grammar.retain (kept : Comment μ → Bool) (g : Grammar α μ) : Grammar α μ :=
  ⟨g.rules, g.comments.filter kept⟩

omit [Runtime] in
theorem Grammar.retain_map (f : α → β) (h : μ → ν) (kept : Comment ν → Bool)
    (g : Grammar α μ) :
    (g.map f h).retain kept = (g.retain fun k => kept (k.map h)).map f h :=
  congrArg (Grammar.mk _) List.filter_map

/-- A document that can be rewritten from its end on is spelled by the new source. -/
theorem SpellsDocument.recast (hrecast : Recast related place kept)
    (hend : related [] [] []) {input : Bytes} {g : Grammar Extent Mark}
    (h : SpellsDocument input g) :
    ∃ input', related input input' g.comments ∧
      SpellsDocument input' ((g.retain kept).map (Extent.map place) place) := by
  induction h with
  | @trivia input comments htrivia =>
    obtain ⟨input', hinput, htrivia'⟩ := htrivia.recast hrecast hend
    rw [List.append_nil] at hinput
    exact ⟨input', hinput, .trivia htrivia'⟩
  | @rule input comments₁ start r comments₂ rest rules comments₃ htrivia hrule _ ih =>
    obtain ⟨rest', hrest, hmore⟩ := ih
    obtain ⟨start', hstart, hrule'⟩ :=
      hrule.recast hrecast (hrecast.cons semicolon hrest) (hrecast.length hrest)
    obtain ⟨input', hinput, htrivia'⟩ := htrivia.recast hrecast hstart
    refine ⟨input', hinput, ?_⟩
    have hdocument := SpellsDocument.rule htrivia' hrule' hmore
    change SpellsDocument input' ⟨_, carried place kept (comments₁ ++ (comments₂ ++ comments₃))⟩
    rw [carried_append, carried_append]
    exact hdocument

end Productions

end Ebnf
