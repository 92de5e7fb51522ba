import Ebnf.Proofs.Spelling.Comments

/-!
# Where nodes end

The readers pass over trivia before they can tell whether a construct goes on, and a node
must not count what turns out to follow it.  In a spelling the last byte of a node is
always one of its own: it is not blank, and no comment in the node reaches up to it.  A
construct either closes with a symbol or ends with its last operand, so it is enough to
see that whatever is put before a stretch leaves the end of the stretch as it is.
-/

namespace Ebnf

open Byte

/-- A stretch ends with a byte that is not blank and stands in none of its comments. -/
structure Finished (source input : Bytes) (comments : List (Comment Mark)) (rest : Bytes) :
    Prop where
  last : ∃ front b, input = front ++ b :: rest ∧ ¬isBlank b
  behind : ∀ k ∈ comments, rest.length < commentEnd source k.start

namespace Finished

variable {source input middle rest : Bytes} {comments comments' : List (Comment Mark)}

theorem shorter (h : Finished source input comments rest) : rest.length < input.length := by
  obtain ⟨front, b, rfl, -⟩ := h.last
  rw [List.length_append, List.length_cons]
  omega

theorem symbol {b : UInt8} (front : Bytes) (hb : ¬isBlank b) :
    Finished source (front ++ b :: rest) [] rest where
  last := ⟨front, b, rfl, hb⟩
  behind := by simp

/-- What comes before a stretch does not matter for its end. -/
theorem prepend {nodes : List (Node Extent)} (hplace : input <:+ source)
    (hbefore : middle <:+ input ∧ (input <:+ source → Laid source input middle nodes comments))
    (h : Finished source middle comments' rest) :
    Finished source input (comments ++ comments') rest where
  last := by
    obtain ⟨before, rfl⟩ := hbefore.1
    obtain ⟨front, b, rfl, hb⟩ := h.last
    exact ⟨before ++ front, b, by rw [List.append_assoc], hb⟩
  behind := by
    rw [List.forall_mem_append]
    refine ⟨?_, h.behind⟩
    intro k hk
    exact Nat.lt_of_lt_of_le h.shorter ((hbefore.2 hplace).commentsWithin k hk).1

theorem prepend_symbol {nodes : List (Node Extent)} {b : UInt8} (front : Bytes)
    (hplace : input <:+ source)
    (hbefore : front ++ b :: rest <:+ input ∧
      (input <:+ source → Laid source input (front ++ b :: rest) nodes comments))
    (hb : ¬isBlank b) : Finished source input comments rest := by
  have hfinished := prepend hplace hbefore (symbol front hb)
  rwa [List.append_nil] at hfinished

end Finished

theorem Bracket.closer_eq {bracket : Bracket} {closer : Bytes} (h : closer ∈ bracket.closers) :
    ∃ front b, closer = front ++ [b] ∧ ¬isBlank b := by
  cases bracket with
  | optional =>
    rcases Bracket.mem_closers_optional.1 h with rfl | rfl
    · exact ⟨[], rightSquareBracket, rfl, by decide⟩
    · exact ⟨[solidus], rightParenthesis, rfl, by decide⟩
  | repeated =>
    rcases Bracket.mem_closers_repeated.1 h with rfl | rfl
    · exact ⟨[], rightCurlyBracket, rfl, by decide⟩
    · exact ⟨[colon], rightParenthesis, rfl, by decide⟩
  | grouped =>
    obtain rfl := Bracket.mem_closers_grouped.1 h
    exact ⟨[], rightParenthesis, rfl, by decide⟩

section

variable {source input rest : Bytes} {comments : List (Comment Mark)}

variable [Runtime]

theorem SpellsWord.finished {word : Bytes} (h : SpellsWord input word comments rest)
    (hplace : input <:+ source) : Finished source input comments rest := by
  induction h with
  | last hword => exact .symbol [] (not_isBlank_of_isWord hword)
  | more hword htrivia hmore ih =>
    have hP := Laid.compositional source
    have hbefore := hP.append (hP.inert (isInert_of_isWord hword)) (hP.trivia htrivia)
    exact (ih (hbefore.1.trans hplace)).prepend hplace hbefore

theorem SpellsPrimary.finished {p : Primary Extent} (h : SpellsPrimary input p comments rest)
    (hplace : input <:+ source) : Finished source input comments rest := by
  have hP := Laid.compositional source
  cases h with
  | bracketed hopener hcloser _ hdefinitions =>
    obtain ⟨front, b, rfl, hb⟩ := Bracket.closer_eq hcloser
    have hinside := hdefinitions.assembled hP
    rw [List.append_assoc] at hinside
    refine .prepend_symbol front hplace (hP.append (hP.opener hopener ?_) hinside) hb
    rintro rfl
    exact hdefinitions.plain_of_grouped hcloser
  | identifier hname =>
    obtain ⟨-, hword⟩ := hname
    exact hword.finished hplace
  | terminal hquote _ _ hinput =>
    subst hinput
    refine .symbol (_ :: _) ?_
    rcases hquote with rfl | rfl <;> decide
  | special _ hinput =>
    subst hinput
    exact .symbol (_ :: _) (by decide)

theorem SpellsFactor.finished {x : Factor Extent} (h : SpellsFactor input x comments rest)
    (hplace : input <:+ source) : Finished source input comments rest := by
  have hP := Laid.compositional source
  cases h with
  | primary hprimary => exact hprimary.finished hplace
  | repetition hcount htrivia =>
    have hbefore := hP.append (hP.digits hcount.digit) (hP.trivia htrivia)
    exact .prepend_symbol [] hplace hbefore (by decide)
  | repetitionOf hcount hbefore hafter hoperand =>
    have hfront := hP.append (hP.digits hcount.digit) (hP.trivia_inert hbefore (by decide))
    have hmiddle := hfront.1.trans hplace
    have hstart := hafter.suffix.trans hmiddle
    exact ((hoperand.finished hstart).prepend hmiddle (hP.trivia hafter)).prepend hplace hfront

theorem SpellsTerm.finished {t : Term Extent} (h : SpellsTerm input t comments rest)
    (hplace : input <:+ source) : Finished source input comments rest := by
  have hP := Laid.compositional source
  cases h with
  | factor hfactor => exact hfactor.finished hplace
  | exception hbase htrivia =>
    have hbefore := hP.append (hbase.assembled hP) (hP.trivia htrivia)
    exact .prepend_symbol [] hplace hbefore (by decide)
  | exceptionOf hbase hbefore hafter hexcluded =>
    have hstop := hbase.suffix.trans hplace
    have hhyphen := hP.trivia_inert hbefore (by decide)
    have hmiddle := hhyphen.1.trans hstop
    have hstart := hafter.suffix.trans hmiddle
    have hoperand := (hexcluded.finished hstart).prepend hmiddle (hP.trivia hafter)
    exact (hoperand.prepend hstop hhyphen).prepend hplace (hbase.assembled hP)

omit [Runtime] in
theorem SpellsTrivia.comments_eq_nil (h : SpellsTrivia input comments rest)
    (hlength : input.length ≤ rest.length) : comments = [] := by
  cases h with
  | nothing => rfl
  | blank _ hmore =>
    have hle := hmore.suffix.length_le
    rw [List.length_cons] at hlength
    omega
  | comment hcomment hmore =>
    have hle := hmore.suffix.length_le
    have hshorter := hcomment.shorter
    omega

theorem SpellsTerm.stop_eq {t : Term Extent} (h : SpellsTerm input t comments rest) :
    t.note.stop = rest.length :=
  congrArg Extent.stop h.note

/-- Terms that leave off where the last of them ends. -/
theorem SpellsChain.finished {terms : List (Term Extent)}
    (h : SpellsChain (SpellsSlot SpellsTerm) SpellsComma input terms comments rest)
    (hplace : input <:+ source) (hterms : terms ≠ [])
    (hstop : (terms.getLast hterms).note.stop = rest.length) :
    Finished source input comments rest := by
  have hP := Laid.compositional source
  induction h with
  | last hslot =>
    cases hslot with
    | empty => exact absurd rfl hterms
    | filled hbefore hterm hafter =>
      have hlength := hterm.stop_eq.symm.trans hstop
      obtain rfl := hafter.suffix.eq_of_length hlength.symm
      obtain rfl := hafter.comments_eq_nil (Nat.le_refl _)
      rw [List.append_nil]
      exact (hterm.finished (hbefore.suffix.trans hplace)).prepend hplace (hP.trivia hbefore)
  | @more _ value _ middle _ values _ _ hslot hcomma hmore ih =>
    have hbefore := hP.skip (hslot.assembled hP) (hP.comma hcomma)
    have hnext := hbefore.1.trans hplace
    by_cases hvalues : values = []
    · -- The last term stands before the comma and so ends before the rest.
      subst hvalues
      have hmiddle := hmore.suffix_terms.length_le
      cases hcomma
      cases hslot with
      | empty => exact absurd rfl hterms
      | filled _ hterm hafter =>
        have hbehind := Nat.le_of_eq (hterm.stop_eq.symm.trans hstop)
        have hle := Nat.le_trans hafter.suffix.length_le (Nat.le_trans hbehind hmiddle)
        exact absurd hle (Nat.not_succ_le_self _)
    · rw [List.getLast_append_of_ne_nil _ hvalues] at hstop
      exact (ih hnext hvalues hstop).prepend hplace hbefore

theorem SpellsWhole.finished {n : Node Extent} (h : SpellsWhole input n comments rest)
    (hplace : input <:+ source) : Finished source input comments rest := by
  have hP := Laid.compositional source
  cases h with
  | rule hrule =>
    obtain ⟨hname, htrivia, hdefinitions⟩ := hrule
    have hbody := hP.append (hP.trivia_inert htrivia (by decide)) (hdefinitions.assembled hP)
    exact .prepend_symbol [] hplace (hP.append (hP.name hname) hbody) (by decide)
  | definition hdefinition hnote =>
    have hstop := congrArg Extent.stop hnote
    cases hdefinition with
    | term hterms => exact hterms.finished hplace (List.cons_ne_nil _ _) hstop
    | concatenation hterms => exact hterms.finished hplace (List.cons_ne_nil _ _) hstop

end

/-! ### Comments and the ends of nodes -/

/-- A node is not empty, and a comment that begins before its end closes before it. -/
structure Node.EndsClear (source : Bytes) (comments : List (Comment Mark)) (n : Node Extent) :
    Prop where
  proper : n.note.stop < n.note.start
  closed : ∀ k ∈ comments, n.note.stop < k.start → n.note.stop < commentEnd source k.start

variable [Runtime]

theorem Node.EndsClear.placed (source : Bytes) :
    Placed source fun _ _ n comments => n.EndsClear source comments where
  whole := by
    intro input rest n comments hplace h
    have hfinished := h.finished hplace
    constructor
    · rw [h.note]
      exact hfinished.shorter
    · rw [h.note]
      exact fun k hk _ => hfinished.behind k hk
  behind := by
    intro input middle rest n nodes comments comments' h _ hstop hlaid
    refine ⟨h.proper, ?_⟩
    rw [List.forall_mem_append]
    refine ⟨h.closed, ?_⟩
    intro k hk hbegins
    have hstart := (hlaid.commentsWithin k hk).2.2
    exact absurd hbegins (Nat.not_lt.2 (Nat.le_trans hstart hstop))
  before := by
    intro input middle rest n nodes comments comments' h _ hstart hlaid
    refine ⟨h.proper, ?_⟩
    rw [List.forall_mem_append]
    refine ⟨?_, h.closed⟩
    intro k hk _
    have hend := (hlaid.commentsWithin k hk).1
    exact Nat.lt_of_lt_of_le h.proper (Nat.le_trans hstart hend)

/-- No node of a document ends in a comment or with one. -/
theorem SpellsDocument.endsClear {source : Bytes} {g : Grammar Extent Mark}
    (h : SpellsDocument source g) : ∀ n ∈ g.nodes, n.EndsClear source g.comments :=
  (Node.EndsClear.placed source).of_document h

end Ebnf
