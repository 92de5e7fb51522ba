import Ebnf.Proofs.Spelling.Head
import Ebnf.Proofs.Spelling.Padding
import Ebnf.Proofs.Tree.Notes

/-!
# The parts of a spelling

Whatever is spelled has parts that are spelled: bytes of symbols, quoted lexemes,
comments, and the nodes of the tree, each of which takes up what its own parts take
up.  A property that holds of each kind of part, and of two stretches together when it
holds of both, therefore holds throughout a document.  The one induction over the
productions that this takes is the theorem `assembled`.

Its first use is that every node of the tree and every comment is spelled at some place
of the source.
-/

namespace Ebnf

open Byte

theorem isQuoting_of_quote {quote : UInt8} (h : quote = apostrophe ∨ quote = quotationMark) :
    isQuoting quote := by
  rcases h with rfl | rfl <;> decide

theorem quote_notMem {quote : UInt8} {content : Bytes}
    (h : ∀ b ∈ content, isTerminal quote b) : quote ∉ content := by
  intro hmem
  have hterminal := h quote hmem
  simp [isTerminal] at hterminal

variable [Runtime]

/-- A node that takes up all the bytes up to the rest. -/
inductive SpellsWhole : Spelling (Node Extent)
  | rule (h : SpellsRule input r comments rest) : SpellsWhole input (.rule r) comments rest
  | definition (h : SpellsDefinition input (some d) comments rest)
      (hnote : d.note = ⟨input.length, rest.length⟩) :
      SpellsWhole input (.definition d) comments rest

/-- A node with padding around it. -/
inductive SpellsPadded : Spelling (Node Extent)
  | mk (hbefore : SpellsPadding input comments₁ start)
      (hnode : SpellsWhole start n comments₂ stop)
      (hbehind : SpellsPadding stop comments₃ rest) :
      SpellsPadded input n (comments₁ ++ (comments₂ ++ comments₃)) rest

/-- A node that is spelled somewhere in the source. -/
inductive SpellsNode (source : Bytes) : Node Extent → Prop
  | mk (hplace : input <:+ source) (h : SpellsWhole input n comments rest) :
      SpellsNode source n

section

variable {input rest : Bytes} {comments : List (Comment Mark)}

theorem SpellsWhole.note {n : Node Extent} (h : SpellsWhole input n comments rest) :
    n.note = ⟨input.length, rest.length⟩ := by
  cases h with
  | rule hrule => exact hrule.note
  | definition _ hnote => exact hnote

theorem SpellsWhole.suffix {n : Node Extent} (h : SpellsWhole input n comments rest) :
    rest <:+ input := by
  cases h with
  | rule hrule => exact hrule.suffix
  | definition hdefinition => exact hdefinition.suffix

theorem SpellsTerm.whole {t : Term Extent} (h : SpellsTerm input t comments rest) :
    SpellsWhole input (.ofTerm t) comments rest :=
  .definition (.term (h.chain .nothing)) h.note

theorem SpellsFactor.whole {x : Factor Extent} (h : SpellsFactor input x comments rest) :
    SpellsWhole input (.ofFactor x) comments rest :=
  (SpellsTerm.factor h).whole

theorem SpellsPrimary.whole {p : Primary Extent} (h : SpellsPrimary input p comments rest) :
    SpellsWhole input (.ofPrimary p) comments rest :=
  (SpellsFactor.primary h).whole

theorem SpellsWhole.padded {n : Node Extent} (h : SpellsWhole input n comments rest) :
    SpellsPadded input n comments rest := by
  have hpadded := SpellsPadded.mk .nothing h .nothing
  rwa [List.append_nil, List.nil_append] at hpadded

theorem SpellsDefinition.padded {d : Definition Extent}
    (h : SpellsDefinition input (some d) comments rest) :
    SpellsPadded input (.definition d) comments rest := by
  obtain ⟨_, _, _, _, _, rfl, hbefore, hdefinition, hbehind, hnote⟩ := h.trim
  exact .mk hbefore (.definition hdefinition hnote) hbehind

/-- A node lies between the places around it. -/
theorem SpellsPadded.within {n : Node Extent} (h : SpellsPadded input n comments rest) :
    n.note.start ≤ input.length ∧ rest.length ≤ n.note.stop := by
  obtain ⟨hbefore, hnode, hbehind⟩ := h
  rw [hnode.note]
  exact ⟨hbefore.suffix.length_le, hbehind.suffix.length_le⟩

theorem SpellsPadded.spelled {n : Node Extent} (h : SpellsPadded input n comments rest) :
    SpellsNode input n := by
  obtain ⟨hbefore, hnode, -⟩ := h
  exact .mk hbefore.suffix hnode

end

theorem SpellsNode.of_suffix {source place : Bytes} {n : Node Extent} (h : SpellsNode place n)
    (hplace : place <:+ source) : SpellsNode source n := by
  obtain ⟨hinput, hnode⟩ := h
  exact .mk (hinput.trans hplace) hnode

theorem SpellsChain.spelled_terms {input rest : Bytes} {terms : List (Term Extent)}
    {comments : List (Comment Mark)}
    (h : SpellsChain (SpellsSlot SpellsTerm) SpellsComma input terms comments rest) :
    ∀ t ∈ terms, ∃ start comments stop, start <:+ input ∧ SpellsTerm start t comments stop := by
  have hslot : ∀ {input rest : Bytes} {value : Option (Term Extent)}
      {comments : List (Comment Mark)}, SpellsSlot SpellsTerm input value comments rest →
        ∀ t ∈ value.toList, ∃ start comments stop, start <:+ input ∧
          SpellsTerm start t comments stop := by
    intro input rest value comments hvalue t ht
    cases hvalue with
    | empty => simp at ht
    | filled hbefore hterm hafter =>
      obtain rfl : t = _ := by simpa using ht
      exact ⟨_, _, _, hbefore.suffix, hterm⟩
  induction h with
  | last hvalue => exact hslot hvalue
  | more hvalue hcomma hmore ih =>
    have hnext := hcomma.suffix.trans hvalue.suffix
    rw [List.forall_mem_append]
    refine ⟨hslot hvalue, ?_⟩
    intro t ht
    obtain ⟨start, comments, stop, hstart, hterm⟩ := ih t ht
    exact ⟨start, comments, stop, hstart.trans hnext, hterm⟩

/-! ### Putting stretches together -/

/-- Terminal strings and special sequences stand between two equal bytes. -/
def Node.IsQuoted (n : Node α) : Prop :=
  n.construct = .terminal ∨ n.construct = .special

/-- A property of the stretch between two places, with the nodes and the comments in
it, that is shown part by part. -/
structure Compositional
    (P : Bytes → Bytes → List (Node Extent) → List (Comment Mark) → Prop) : Prop where
  nothing : ∀ {rest}, P rest rest [] []
  append : ∀ {input middle rest nodes nodes' comments comments'},
    P input middle nodes comments → P middle rest nodes' comments' →
      P input rest (nodes ++ nodes') (comments ++ comments')
  inert : ∀ {b rest}, isInert b → P (b :: rest) rest [] []
  parenthesis : ∀ {rest}, rest.head? ≠ some asterisk → P (leftParenthesis :: rest) rest [] []
  quoted : ∀ {quote content rest}, isQuoting quote → quote ∉ content →
    P (quote :: (content ++ quote :: rest)) rest [] []
  comment : ∀ {input k rest}, SpellsComment input k rest → P input rest [] [k]
  node : ∀ {input rest n nodes comments}, SpellsPadded input n comments rest →
    (n.IsQuoted → comments = []) →
    P input rest nodes comments → P input rest (n :: nodes) comments

namespace Compositional

variable {P : Bytes → Bytes → List (Node Extent) → List (Comment Mark) → Prop}
  (hP : Compositional P)

include hP

theorem skip {input middle rest : Bytes} {nodes : List (Node Extent)}
    {comments : List (Comment Mark)} (h : P input middle nodes comments)
    (hskip : P middle rest [] []) : P input rest nodes comments := by
  have hboth := hP.append h hskip
  rwa [List.append_nil, List.append_nil] at hboth

theorem bytes {bytes rest : Bytes} (h : ∀ b ∈ bytes, isInert b) :
    P (bytes ++ rest) rest [] [] := by
  induction bytes with
  | nil => exact hP.nothing
  | cons b bytes ih =>
    rw [List.forall_mem_cons] at h
    exact hP.append (hP.inert h.1) (ih h.2)

theorem digits {digits rest : Bytes} (h : ∀ b ∈ digits, isDigit b) :
    P (digits ++ rest) rest [] [] :=
  hP.bytes fun b hb => isInert_of_isDigit (h b hb)

theorem trivia {input rest : Bytes} {comments : List (Comment Mark)}
    (h : SpellsTrivia input comments rest) : P input rest [] comments := by
  induction h with
  | nothing => exact hP.nothing
  | blank hblank _ ih => exact hP.append (hP.inert (isInert_of_isBlank hblank)) ih
  | comment hcomment _ ih => exact hP.append (hP.comment hcomment) ih

theorem padding {input rest : Bytes} {comments : List (Comment Mark)}
    (h : SpellsPadding input comments rest) : P input rest [] comments := by
  induction h with
  | nothing => exact hP.nothing
  | trivia htrivia _ ih => exact hP.append (hP.trivia htrivia) ih
  | comma _ ih => exact hP.append (hP.inert (by decide)) ih

/-- Trivia up to an inert byte, and that byte. -/
theorem trivia_inert {input rest : Bytes} {b : UInt8} {comments : List (Comment Mark)}
    (h : SpellsTrivia input comments (b :: rest)) (hb : isInert b) :
    P input rest [] comments :=
  hP.skip (hP.trivia h) (hP.inert hb)

theorem word {input word rest : Bytes} {comments : List (Comment Mark)}
    (h : SpellsWord input word comments rest) : P input rest [] comments := by
  induction h with
  | last hword => exact hP.inert (isInert_of_isWord hword)
  | more hword htrivia _ ih =>
    exact hP.append (hP.inert (isInert_of_isWord hword)) (hP.append (hP.trivia htrivia) ih)

theorem name {input name rest : Bytes} {comments : List (Comment Mark)}
    (h : SpellsName input name comments rest) : P input rest [] comments := by
  obtain ⟨-, hword⟩ := h
  exact hP.word hword

theorem comma {input rest : Bytes} (h : SpellsComma input rest) : P input rest [] [] := by
  cases h
  exact hP.inert (by decide)

theorem separator {input rest : Bytes} (h : SpellsSeparator input rest) :
    P input rest [] [] := by
  obtain ⟨rfl | rfl | rfl, -⟩ := h <;> exact hP.inert (by decide)

theorem opener {bracket : Bracket} {opener inside : Bytes} (hopener : opener ∈ bracket.openers)
    (hplain : bracket = .grouped → Plain inside) : P (opener ++ inside) inside [] [] := by
  have hdigraph : ∀ b, isInert b → b ≠ asterisk →
      P (leftParenthesis :: b :: inside) inside [] [] := by
    intro b hinert hb
    have hhead : (b :: inside).head? ≠ some asterisk := by simpa using hb
    exact hP.append (hP.parenthesis hhead) (hP.inert hinert)
  cases bracket with
  | optional =>
    rcases Bracket.mem_openers_optional.1 hopener with rfl | rfl
    · exact hP.inert (by decide)
    · exact hdigraph solidus (by decide) (by decide)
  | repeated =>
    rcases Bracket.mem_openers_repeated.1 hopener with rfl | rfl
    · exact hP.inert (by decide)
    · exact hdigraph colon (by decide) (by decide)
  | grouped =>
    obtain rfl := Bracket.mem_openers_grouped.1 hopener
    exact hP.parenthesis (hplain rfl).1

end Compositional

section Assembled

variable {P : Bytes → Bytes → List (Node Extent) → List (Comment Mark) → Prop}

mutual

theorem SpellsPrimary.assembled (hP : Compositional P) {input rest : Bytes}
    {p : Primary Extent} {comments : List (Comment Mark)}
    (h : SpellsPrimary input p comments rest) : P input rest p.nodes comments := by
  have hnode := h.whole.padded
  match h with
  | .bracketed hopener hcloser _ hdefinitions =>
    have hinside := hP.skip (hdefinitions.assembled hP)
      (hP.bytes (Bracket.isInert_of_closer hcloser))
    refine hP.node hnode (by rintro (h | h) <;> cases h)
      (hP.append (hP.opener hopener ?_) hinside)
    rintro rfl
    exact hdefinitions.plain_of_grouped hcloser
  | .identifier hname =>
    exact hP.node hnode (by rintro (h | h) <;> cases h)
      (hP.name hname)
  | .terminal hquote _ hcontent hinput =>
    subst hinput
    exact hP.node hnode (fun _ => rfl)
      (hP.quoted (isQuoting_of_quote hquote) (quote_notMem hcontent))
  | .special hinterior hinput =>
    subst hinput
    exact hP.node hnode (fun _ => rfl)
      (hP.quoted (by decide) hinterior)

theorem SpellsFactor.assembled (hP : Compositional P) {input rest : Bytes}
    {x : Factor Extent} {comments : List (Comment Mark)}
    (h : SpellsFactor input x comments rest) : P input rest x.nodes comments := by
  have hnode := h.whole.padded
  match h with
  | .primary hprimary => exact hprimary.assembled hP
  | .repetition hcount htrivia =>
    exact hP.node hnode (by rintro (h | h) <;> cases h)
      (hP.append (hP.digits hcount.digit) (hP.trivia_inert htrivia (by decide)))
  | .repetitionOf hcount hbefore hafter hoperand =>
    have hinside := hP.append (hP.trivia hafter) (hoperand.assembled hP)
    exact hP.node hnode (by rintro (h | h) <;> cases h)
      (hP.append (hP.digits hcount.digit) (hP.append (hP.trivia_inert hbefore (by decide)) hinside))

theorem SpellsTerm.assembled (hP : Compositional P) {input rest : Bytes}
    {t : Term Extent} {comments : List (Comment Mark)}
    (h : SpellsTerm input t comments rest) : P input rest t.nodes comments := by
  have hnode := h.whole.padded
  match h with
  | .factor hfactor => exact hfactor.assembled hP
  | .exception hbase htrivia =>
    have hinside := hP.append (hbase.assembled hP) (hP.trivia_inert htrivia (by decide))
    rw [List.append_nil] at hinside
    exact hP.node hnode (by rintro (h | h) <;> cases h) hinside
  | .exceptionOf hbase hbefore hafter hexcluded =>
    have hinside := hP.append (hP.trivia hafter) (hexcluded.assembled hP)
    exact hP.node hnode (by rintro (h | h) <;> cases h)
      (hP.append (hbase.assembled hP)
        (hP.append (hP.trivia_inert hbefore (by decide)) hinside))

theorem SpellsSlot.assembled (hP : Compositional P) {input rest : Bytes}
    {t : Option (Term Extent)} {comments : List (Comment Mark)}
    (h : SpellsSlot SpellsTerm input t comments rest) :
    P input rest (Term.nodesAll t.toList) comments := by
  match h with
  | .empty htrivia => exact hP.trivia htrivia
  | .filled hbefore hterm hafter =>
    have hslot := hP.append (hP.trivia hbefore)
      (hP.append (hterm.assembled hP) (hP.trivia hafter))
    exact hslot

theorem SpellsChain.assembled_terms (hP : Compositional P) {input rest : Bytes}
    {terms : List (Term Extent)} {comments : List (Comment Mark)}
    (h : SpellsChain (SpellsSlot SpellsTerm) SpellsComma input terms comments rest) :
    P input rest (Term.nodesAll terms) comments := by
  match h with
  | .last hslot => exact hslot.assembled hP
  | .more hslot hcomma hmore =>
    rw [Term.nodesAll_append]
    exact hP.append (hP.skip (hslot.assembled hP) (hP.comma hcomma)) (hmore.assembled_terms hP)

theorem SpellsDefinition.assembled (hP : Compositional P) {input rest : Bytes}
    {d : Option (Definition Extent)} {comments : List (Comment Mark)}
    (h : SpellsDefinition input d comments rest) :
    P input rest (Definition.nodesAll d.toList) comments := by
  match h with
  | .nothing hterms => exact hterms.assembled_terms hP
  | .term hterms => exact hterms.assembled_terms hP
  | .concatenation hterms =>
    -- Commas and trivia around the terms belong to the stretch, but not to the node.
    have hnode := (SpellsDefinition.concatenation hterms).padded
    have hinside := hP.node hnode (by rintro (h | h) <;> cases h) (hterms.assembled_terms hP)
    simpa [Definition.nodesAll, Definition.nodes, Term.nodesAll] using hinside

theorem SpellsChain.assembled_definitions (hP : Compositional P) {input rest : Bytes}
    {definitions : List (Definition Extent)} {comments : List (Comment Mark)}
    (h : SpellsChain SpellsDefinition SpellsSeparator input definitions comments rest) :
    P input rest (Definition.nodesAll definitions) comments := by
  match h with
  | .last hdefinition => exact hdefinition.assembled hP
  | .more hdefinition hseparator hmore =>
    rw [Definition.nodesAll_append]
    exact hP.append (hP.skip (hdefinition.assembled hP) (hP.separator hseparator))
      (hmore.assembled_definitions hP)

theorem SpellsDefinitions.assembled (hP : Compositional P) {input rest : Bytes}
    {definitions : List (Definition Extent)} {comments : List (Comment Mark)}
    (h : SpellsDefinitions input definitions comments rest) :
    P input rest (Definition.nodesAll definitions) comments := by
  match h with
  | .mk hdefinitions => exact hdefinitions.assembled_definitions hP

end

theorem SpellsRule.assembled (hP : Compositional P) {input rest : Bytes} {r : Rule Extent}
    {comments : List (Comment Mark)} (h : SpellsRule input r comments rest) :
    P input rest r.nodes comments := by
  have hnode := (SpellsWhole.rule h).padded
  obtain ⟨hname, htrivia, hdefinitions⟩ := h
  have hbody := hP.skip (hdefinitions.assembled hP) (hP.inert (by decide))
  exact hP.node hnode (by rintro (h | h) <;> cases h)
    (hP.append (hP.name hname) (hP.append (hP.trivia_inert htrivia (by decide)) hbody))

theorem SpellsWhole.assembled (hP : Compositional P) {input rest : Bytes} {n : Node Extent}
    {comments : List (Comment Mark)} (h : SpellsWhole input n comments rest) :
    P input rest n.nodes comments := by
  cases h with
  | rule hrule => exact hrule.assembled hP
  | definition hdefinition =>
    have hnodes := hdefinition.assembled hP
    rwa [Option.toList_some, Definition.nodesAll, Definition.nodesAll, List.append_nil] at hnodes

theorem SpellsDocument.assembled (hP : Compositional P) {input : Bytes}
    {g : Grammar Extent Mark} (h : SpellsDocument input g) : P input [] g.nodes g.comments := by
  induction h with
  | trivia htrivia => exact hP.trivia htrivia
  | rule htrivia hrule _ ih =>
    have hdocument := hP.append (hP.trivia htrivia) (hP.append (hrule.assembled hP) ih)
    exact hdocument

end Assembled

/-! ### Places of the parts -/

/-- The nodes and the comments are all spelled somewhere in the source. -/
structure Grounded (source : Bytes) (nodes : List (Node Extent))
    (comments : List (Comment Mark)) : Prop where
  nodes : ∀ n ∈ nodes, SpellsNode source n
  comments : ∀ k ∈ comments, ∃ input rest, input <:+ source ∧ SpellsComment input k rest

theorem Grounded.of_suffix {source place : Bytes} {nodes : List (Node Extent)}
    {comments : List (Comment Mark)} (h : Grounded place nodes comments)
    (hplace : place <:+ source) : Grounded source nodes comments := by
  constructor
  · intro n hn
    exact (h.nodes n hn).of_suffix hplace
  · intro k hk
    obtain ⟨input, rest, hinput, hcomment⟩ := h.comments k hk
    exact ⟨input, rest, hinput.trans hplace, hcomment⟩

theorem Grounded.compositional :
    Compositional fun input rest nodes comments =>
      rest <:+ input ∧ Grounded input nodes comments where
  nothing := ⟨List.suffix_refl _, by simp, by simp⟩
  append := by
    rintro input middle rest nodes nodes' comments comments' ⟨hmiddle, h⟩ ⟨hrest, h'⟩
    have hmore := h'.of_suffix hmiddle
    refine ⟨hrest.trans hmiddle, ?_, ?_⟩
    · rw [List.forall_mem_append]
      exact ⟨h.nodes, hmore.nodes⟩
    · rw [List.forall_mem_append]
      exact ⟨h.comments, hmore.comments⟩
  inert _ := ⟨List.suffix_cons _ _, by simp, by simp⟩
  parenthesis _ := ⟨List.suffix_cons _ _, by simp, by simp⟩
  quoted _ _ := ⟨suffix_quoted _ _ _, by simp, by simp⟩
  comment hcomment := by
    refine ⟨hcomment.suffix, by simp, ?_⟩
    rintro k' hk'
    obtain rfl := List.mem_singleton.1 hk'
    exact ⟨_, _, List.suffix_refl _, hcomment⟩
  node := by
    rintro input rest n nodes comments hnode - ⟨hrest, h⟩
    refine ⟨hrest, ?_, h.comments⟩
    rw [List.forall_mem_cons]
    exact ⟨hnode.spelled, h.nodes⟩

theorem SpellsDocument.grounded {source : Bytes} {g : Grammar Extent Mark}
    (h : SpellsDocument source g) : Grounded source g.nodes g.comments :=
  (h.assembled Grounded.compositional).2

end Ebnf
