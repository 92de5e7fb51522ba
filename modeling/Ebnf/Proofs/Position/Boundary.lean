import Ebnf.Proofs.Position.LineTable
import Ebnf.Proofs.Spelling.Nodes

/-!
# Boundaries

A boundary is a place at which no CR LF pair is split, whatever stands in front of
the source.  Constructs begin at boundaries because none of them begins with LF.
What an error points at is a boundary as well; the only places where LF may come
next are those behind a quote or inside a terminal string, and the byte before
those is not CR.
-/

namespace Ebnf

open Byte

/-- The rest is an end of the source.  If LF comes next, the byte before it belongs to
the source and is not CR. -/
def Boundary (source rest : Bytes) : Prop :=
  ∃ before, source = before ++ rest ∧
    (rest.head? = some lineFeed → ∃ b, before.getLast? = some b ∧ b ≠ carriageReturn)

/-- The mark of a boundary. -/
def Anchored (source : Bytes) (place : Mark) : Prop :=
  ∃ rest, Boundary source rest ∧ rest.length = place

theorem Settled.head {rest : Bytes} (h : Settled rest) : rest.head? ≠ some lineFeed := by
  intro hhead
  exact h.1 lineFeed hhead (by decide)

namespace Boundary

theorem of_head {source rest : Bytes} (hsuffix : rest <:+ source)
    (h : rest.head? ≠ some lineFeed) : Boundary source rest := by
  obtain ⟨before, hbefore⟩ := hsuffix
  exact ⟨before, hbefore.symm, fun hhead => (h hhead).elim⟩

theorem of_settled {source rest : Bytes} (hsuffix : rest <:+ source) (h : Settled rest) :
    Boundary source rest := by
  exact of_head hsuffix h.head

theorem of_byte {before rest : Bytes} {b : UInt8} (hb : b ≠ carriageReturn) :
    Boundary (before ++ b :: rest) rest :=
  ⟨before ++ [b], by simp, fun _ => ⟨b, by simp, hb⟩⟩

theorem append_left {source rest : Bytes} (h : Boundary source rest) (more : Bytes) :
    Boundary (more ++ source) rest := by
  obtain ⟨before, rfl, hlast⟩ := h
  refine ⟨more ++ before, (List.append_assoc ..).symm, ?_⟩
  intro hhead
  obtain ⟨b, hb, hreturn⟩ := hlast hhead
  refine ⟨b, ?_, hreturn⟩
  rw [List.getLast?_append, hb]
  rfl

theorem not_splitsPair {source rest : Bytes} (h : Boundary source rest) :
    ¬SplitsPair source (source.length - rest.length) := by
  obtain ⟨before, rfl, hlast⟩ := h
  rintro ⟨before', more, heq, hlength⟩
  have hlength' : before.length = before'.length + 1 := by
    simpa using hlength
  have hsplit : before = before' ++ [carriageReturn] ∧ rest = lineFeed :: more := by
    apply List.append_inj _ (by simpa using hlength')
    simpa using heq
  obtain ⟨rfl, rfl⟩ := hsplit
  obtain ⟨b, hb, hreturn⟩ := hlast rfl
  rw [List.getLast?_concat] at hb
  exact hreturn (Option.some.inj hb).symm

end Boundary

theorem Anchored.append_left {source : Bytes} {place : Mark} (h : Anchored source place)
    (more : Bytes) : Anchored (more ++ source) place := by
  obtain ⟨rest, hrest, hplace⟩ := h
  exact ⟨rest, hrest.append_left more, hplace⟩

theorem Anchored.of_suffix {source site : Bytes} {place : Mark} (h : Anchored site place)
    (hsite : site <:+ source) : Anchored source place := by
  obtain ⟨more, rfl⟩ := hsite
  exact h.append_left more

/-! ### Nodes and comments -/

variable [Runtime]

theorem SpellsTerm.anchored {source input rest : Bytes} {t : Term Extent}
    {comments : List (Comment Mark)} (hplace : input <:+ source)
    (h : SpellsTerm input t comments rest) : Anchored source t.note.start := by
  rw [h.note]
  exact ⟨input, .of_settled hplace h.settled, rfl⟩

theorem SpellsNode.anchored {source : Bytes} {n : Node Extent} (h : SpellsNode source n) :
    Anchored source n.note.start := by
  obtain ⟨hplace, hnode⟩ := h
  cases hnode with
  | rule hrule =>
    obtain ⟨hname, -, -⟩ := hrule
    exact ⟨_, .of_settled hplace hname.settled, rfl⟩
  | definition hdefinition =>
    cases hdefinition with
    | term hterms =>
      obtain ⟨start, _, _, hstart, hterm⟩ := hterms.spelled_terms _ List.mem_cons_self
      exact hterm.anchored (hstart.trans hplace)
    | concatenation hterms =>
      obtain ⟨start, _, _, hstart, hterm⟩ := hterms.spelled_terms _ List.mem_cons_self
      exact hterm.anchored (hstart.trans hplace)

omit [Runtime] in
theorem SpellsComment.anchored {source input rest : Bytes} {k : Comment Mark}
    (hplace : input <:+ source) (h : SpellsComment input k rest) :
    Anchored source k.start := by
  obtain ⟨-, -, -⟩ := h
  exact ⟨_, .of_head hplace (by simp +decide), rfl⟩

/-! ### Defects -/

theorem Defect.head_not_isBlank {site : Bytes} {error : SyntaxError Mark}
    (h : Defect site error) : ∀ b, site.head? = some b → ¬isBlank b := by
  cases h with
  | emptyComment => exact forall_head rfl (by decide)
  | unterminatedComment => exact forall_head rfl (by decide)
  | unterminatedSpecial => exact forall_head rfl (by decide)
  | emptyTerminal hquote => rcases hquote with rfl | rfl <;> exact forall_head rfl (by decide)
  | unterminatedTerminal hquote =>
    rcases hquote with rfl | rfl <;> exact forall_head rfl (by decide)
  | invalidTerminalByte hquote _ _ hinput =>
    subst hinput
    rcases hquote with rfl | rfl <;> exact forall_head rfl (by decide)
  | missingRepetitionSymbol hcount => exact (Settled.of_digits hcount.nonempty hcount.digit _).1
  | unclosedBracket hopener =>
    obtain ⟨b, more, rfl, hopening⟩ := Bracket.exists_isOpening hopener
    exact forall_head rfl (not_isBlank_of_isOpening hopening)
  | missingName hsettled => exact hsettled.1
  | missingDefiningSymbol hname => exact hname.settled.1
  | missingTerminator hname => exact hname.settled.1

theorem Defect.head {site : Bytes} {error : SyntaxError Mark} (h : Defect site error) :
    site.head? ≠ some lineFeed :=
  fun hhead => h.head_not_isBlank lineFeed hhead (by decide)

/-- Only a missing name may be missing at the very end. -/
theorem Defect.ne_nil {site : Bytes} {error : SyntaxError Mark} (h : Defect site error)
    (hcause : error.cause ≠ .missingName) : site ≠ [] := by
  cases h with
  | missingName => exact (hcause rfl).elim
  | invalidTerminalByte _ _ _ hinput =>
    rw [hinput]
    exact List.cons_ne_nil _ _
  | missingRepetitionSymbol hcount => exact List.append_ne_nil_of_left_ne_nil hcount.nonempty _
  | unclosedBracket hopener =>
    obtain ⟨b, more, rfl, -⟩ := Bracket.exists_isOpening hopener
    exact List.cons_ne_nil _ _
  | missingDefiningSymbol hname =>
    obtain ⟨-, -⟩ := hname
    exact List.cons_ne_nil _ _
  | missingTerminator hname =>
    obtain ⟨-, -⟩ := hname
    exact List.cons_ne_nil _ _
  | _ => exact List.cons_ne_nil _ _

theorem Defect.start_eq {site : Bytes} {error : SyntaxError Mark} (h : Defect site error) :
    error.start = site.length := by
  cases h <;> rfl

theorem Defect.anchored_start {site : Bytes} {error : SyntaxError Mark}
    (h : Defect site error) : Anchored site error.start :=
  ⟨site, .of_head (List.suffix_refl _) h.head, h.start_eq.symm⟩

theorem Defect.anchored_stop {site : Bytes} {error : SyntaxError Mark}
    (h : Defect site error) : Anchored site error.stop := by
  have hend : Anchored site 0 := ⟨[], .of_head List.nil_suffix (by simp), rfl⟩
  cases h with
  | @emptyComment inside hempty =>
    have hstop : asterisk :: inside <:+ leftParenthesis :: asterisk :: inside :=
      List.suffix_cons _ _
    exact ⟨asterisk :: inside, .of_head hstop (by simp +decide), rfl⟩
  | unterminatedComment => exact hend
  | unterminatedSpecial => exact hend
  | @emptyTerminal quote rest hquote =>
    have hreturn : quote ≠ carriageReturn := by
      rcases hquote with rfl | rfl <;> decide
    have hplace : Boundary ([quote] ++ quote :: rest) rest := .of_byte hreturn
    exact ⟨rest, hplace, rfl⟩
  | unterminatedTerminal => exact hend
  | @invalidTerminalByte quote content b _ rest hquote hcontent _ hinput =>
    -- The byte at fault may be LF, but only printable bytes and the quote stand before it.
    have hclear : ∀ c ∈ quote :: content, c ≠ carriageReturn := by
      rw [List.forall_mem_cons]
      refine ⟨by rcases hquote with rfl | rfl <;> decide, ?_⟩
      rintro c hc rfl
      have hprintable := hcontent _ hc
      simp +decide [isTerminal] at hprintable
    have hlast : (quote :: content).getLast? =
        some ((quote :: content).getLast (List.cons_ne_nil _ _)) :=
      List.getLast?_eq_getLast_of_ne_nil _
    have hplace : Boundary site (b :: rest) :=
      ⟨quote :: content, hinput, fun _ => ⟨_, hlast, hclear _ (List.getLast_mem _)⟩⟩
    exact ⟨b :: rest, hplace, rfl⟩
  | missingRepetitionSymbol _ _ htrivia hsettled =>
    exact ⟨_, .of_settled (htrivia.suffix.trans (List.suffix_append _ _)) hsettled, rfl⟩
  | unclosedBracket _ _ hinside hsettled =>
    exact ⟨_, .of_settled (hinside.suffix.trans (List.suffix_append _ _)) hsettled, rfl⟩
  | missingName hsettled => exact ⟨_, .of_settled (List.suffix_refl _) hsettled, rfl⟩
  | missingDefiningSymbol hname htrivia hsettled =>
    exact ⟨_, .of_settled (htrivia.suffix.trans hname.suffix) hsettled, rfl⟩
  | missingTerminator hname htrivia hdefinitions hsettled =>
    have hbody := ((List.suffix_cons _ _).trans htrivia.suffix).trans hname.suffix
    exact ⟨_, .of_settled (hdefinitions.suffix.trans hbody) hsettled, rfl⟩

end Ebnf
