import Ebnf.Proofs.Simulation.Basic
import Ebnf.Proofs.Tree.Notes

/-!
# Every production is simulated

One walk over the productions, a lemma for each.  What has to be seen to on the way are the
notes: a note is taken between marks that the scanner has stood at, and where a construct
ends with an operand its end is that of the operand, so the operand must not begin behind
its own end.
-/

namespace Ebnf

open Byte Noting

theorem isPrintable_of_isWord {b : UInt8} (h : isWord b) : isPrintable b := by
  simp only [isWord, isLetter, isDigit, isPrintable, Bool.or_eq_true, Bool.and_eq_true,
    decide_eq_true_eq, UInt8.le_iff_toNat_le] at h ⊢
  rcases h with (⟨hlow, hhigh⟩ | ⟨hlow, hhigh⟩) | ⟨hlow, hhigh⟩
  · exact ⟨Nat.le_trans (by decide) hlow, Nat.le_trans hhigh (by decide)⟩
  · exact ⟨Nat.le_trans (by decide) hlow, Nat.le_trans hhigh (by decide)⟩
  · exact ⟨Nat.le_trans (by decide) hlow, Nat.le_trans hhigh (by decide)⟩

theorem isPrintable_of_isDigit {b : UInt8} (h : isDigit b) : isPrintable b :=
  isPrintable_of_isWord (by rw [isWord, h, Bool.or_true])

theorem isPrintable_of_isTerminal {quote b : UInt8} (h : isTerminal quote b) : isPrintable b :=
  (Bool.and_eq_true_iff.1 h).1

theorem Bracket.printable_openers (bracket : Bracket) :
    ∀ spelling ∈ bracket.openers, spelling ≠ [] ∧ ∀ b ∈ spelling, isPrintable b := by
  cases bracket <;> decide +kernel

theorem Bracket.printable_closers (bracket : Bracket) :
    ∀ spelling ∈ bracket.closers, spelling ≠ [] ∧ ∀ b ∈ spelling, isPrintable b := by
  cases bracket <;> decide +kernel

namespace Simulation

variable {m : Type → Type} {Place Stop Note : Type} [Monad m] [Runtime]
  [Scanning m Place Stop Note] [Noting Note Place Stop] (sim : Simulation m)

/-! ### Lexemes -/

theorem nameByte :
    sim.Follows (Option.map fun found : UInt8 × Mark => (found.1, sim.stopped found.2))
      Scanning.nameByte Reader.nameByte := by
  intro input hready
  refine sim.bind (sim.one hready fun _ => isPrintable_of_isWord) fun value _ _ _ hready => ?_
  cases value with
  | none => exact sim.pure hready rfl
  | some b => exact bind_stop hready (bind_pure (sim.trivia hready) fun _ => rfl)

theorem name :
    sim.Follows (Option.map fun found : Extent × Bytes => (sim.located found.1, found.2))
      Scanning.name Reader.name := by
  intro input hready
  refine sim.orUndo hready (sim.bind (sim.trivia hready) fun _ _ start _ hready => ?_)
  have hstart := sim.within hready (Nat.le_refl _)
  refine bind_place hready (sim.bind (sim.current hready) fun b _ next _ hready => ?_)
  refine ite (fun _ => bind_pure (many sim.nameByte next hready) fun bytes => ?_)
    fun _ => sim.pure hready rfl
  simp only [List.getLast?_map, Option.map_map, List.map_map]
  congr 1
  funext last
  simp only [Function.comp_apply, sim.between_placed _ hstart]
  rfl

theorem identifier : sim.Follows (Option.map (Primary.map sim.located))
    Scanning.identifier Reader.identifier := by
  intro input hready
  refine bind_pure (sim.name input hready) fun value => ?_
  cases value <;> rfl

theorem terminal : sim.Follows (Option.map (Primary.map sim.located))
    Scanning.terminal Reader.terminal := by
  intro input hready
  have hquotes : ∀ b, (b == apostrophe || b == quotationMark) → isPrintable b := by
    intro b hb
    simp only [Bool.or_eq_true, beq_iff_eq] at hb
    rcases hb with rfl | rfl <;> decide
  have hstart := sim.within hready (Nat.le_refl _)
  refine bind_place hready (sim.bind (sim.one hready hquotes) fun value _ _ hrun hready => ?_)
  cases value with
  | none => exact sim.pure hready rfl
  | some quote =>
    have hquote := hquotes quote (Reader.member_of_one hrun)
    refine sim.bind (sim.byte hready hquote) fun again _ _ _ hready => ?_
    refine ite (fun _ => sim.fail _ _ _ hready) fun _ => ?_
    refine sim.bind (sim.takeWhile hready fun _ => isPrintable_of_isTerminal)
      fun content _ _ _ hready => ?_
    refine sim.bind (sim.current hready) fun b _ _ _ hready => ?_
    cases b with
    | none => exact sim.fail _ _ _ hready
    | some b =>
      refine sim.bind (sim.byte hready hquote) fun closed _ _ _ hready => ?_
      refine ite (fun _ => bind_stop hready (sim.pure hready ?_)) fun _ => sim.fail _ _ _ hready
      rw [sim.between_placed _ hstart]
      rfl

theorem special : sim.Follows (Option.map (Primary.map sim.located))
    Scanning.special Reader.special := by
  intro input hready
  have hstart := sim.within hready (Nat.le_refl _)
  refine bind_place hready (sim.bind (sim.byte hready (by decide)) fun opened _ _ _ hready => ?_)
  refine ite (fun _ => ?_) fun _ => sim.pure hready rfl
  refine sim.bind (sim.passTo hready (by decide)) fun content _ _ _ hready => ?_
  refine sim.bind (sim.byte hready (by decide)) fun closed _ _ _ hready => ?_
  refine ite (fun _ => bind_stop hready (sim.pure hready ?_)) fun _ => sim.fail _ _ _ hready
  rw [sim.between_placed _ hstart]
  rfl

theorem separator {accepts : m Bool} {accepts' : Reader Bool}
    (h : sim.Follows id accepts accepts') :
    sim.Follows id (Scanning.separator accepts) (Reader.separator accepts') := by
  intro input hready
  refine sim.bind (h input hready) fun found _ _ _ hready => ?_
  exact ite (fun _ => bind_pure (sim.trivia hready) fun _ => rfl) fun _ => sim.pure hready rfl

/-! ### Levels -/

/-- An operand that may be missing ends at the same place, if it lies behind where it was
looked for. -/
theorem stop_operand {note : α → Extent} {note' : β → Note} {f : α → β} {operand : Option α}
    {input rest : Bytes} {comments : List (Comment Mark)} {behind : Mark}
    (hnote : ∀ x, note' (f x) = sim.located (note x))
    (hspans : Reader.SpansFrom note input.length operand comments rest) (hready : sim.Ready input) :
    ((operand.map f).map fun x => Noting.stop (note' x)).getD (sim.stopped behind) =
      sim.stopped ((operand.map fun x => (note x).stop).getD behind) := by
  cases operand with
  | none => rfl
  | some operand =>
    obtain ⟨hentry, hproper, -⟩ := hspans operand rfl
    simp only [Option.map_some, Option.getD_some, hnote]
    exact sim.stop_located (sim.within hready hentry) (Nat.le_of_lt hproper)

/-- Terms that lie one behind the other make up the same definition. -/
theorem concatenate {input : Bytes} {left : Mark} {terms : List (Term Extent)}
    (hready : sim.Ready input) (hspread : Spread input.length left (terms.map Term.note)) :
    (Scanning.concatenate terms).map (Definition.map sim.located) =
      Scanning.concatenate (terms.map (Term.map sim.located)) := by
  match terms with
  | [] => rfl
  | [t] => rfl
  | first :: second :: more =>
    have hfirst := hspread.inside first.note List.mem_cons_self
    have hlast := hspread.inside _ (List.mem_map_of_mem (f := Term.note)
      (List.mem_cons_of_mem first (List.getLast_mem (List.cons_ne_nil second more))))
    have hstop := sim.stop_located (sim.within hready hlast.entry) (Nat.le_of_lt hlast.proper)
    have hnote := sim.between_placed ((second :: more).getLast (List.cons_ne_nil _ _)).note.stop
      (sim.within hready hfirst.entry)
    simp only [List.map_cons, Scanning.concatenate, Option.map_some, Definition.map,
      ← Term.mapAll_eq, Term.getLast_mapAll, Term.note_map, sim.start_located, hstop, hnote]
    rfl

section Levels

variable {inside : m (List (Definition Note))} {inside' : Reader (List (Definition Extent))}
  (h : sim.Follows (List.map (Definition.map sim.located)) inside inside')
  (hforward : inside'.Forward)

include h

theorem bracketedWith (bracket : Bracket) : sim.Follows (Option.map (Primary.map sim.located))
    (Scanning.bracketedWith inside bracket) (Reader.bracketedWith inside' bracket) := by
  intro input hready
  have hstart := sim.within hready (Nat.le_refl _)
  refine sim.entering _ (bind_place hready ?_)
  refine sim.bind (sim.symbol hready bracket.printable_openers) fun opener _ _ _ hready => ?_
  cases opener with
  | none => exact sim.pure hready rfl
  | some opener =>
    refine sim.bind (h _ hready) fun definitions _ _ _ hready => ?_
    refine sim.bind (sim.symbol hready bracket.printable_closers) fun closer _ _ _ hready => ?_
    cases closer with
    | none => exact sim.fail _ _ _ hready
    | some closer =>
      refine bind_stop hready (sim.pure hready ?_)
      rw [sim.between_placed _ hstart, ← Definition.mapAll_eq]
      rfl

theorem primaryWith : sim.Follows (Option.map (Primary.map sim.located))
    (Scanning.primaryWith inside) (Reader.primaryWith inside') := by
  intro input hready
  refine sim.entering _ (firstOf ?_ input hready)
  have hbracketed := sim.bracketedWith h
  refine .cons (hbracketed _) (.cons (hbracketed _) (.cons (hbracketed _) ?_))
  exact .cons sim.identifier (.cons sim.terminal (.cons sim.special .nil))

include hforward

theorem factorWith : sim.Follows (Option.map (Factor.map sim.located))
    (Scanning.factorWith inside) (Reader.factorWith inside') := by
  intro input hready
  have hstart := sim.within hready (Nat.le_refl _)
  refine sim.entering _ (bind_place hready ?_)
  refine sim.bind (sim.takeWhile hready fun _ => isPrintable_of_isDigit)
    fun digits _ _ _ hready => ?_
  refine ite (fun _ => ?_) fun _ => ?_
  · refine bind_pure (sim.primaryWith h _ hready) fun value => ?_
    cases value <;> rfl
  · refine sim.bind (sim.convert hready) fun count _ _ _ hready => ?_
    refine sim.bind (sim.trivia hready) fun _ _ _ _ hready => ?_
    refine sim.bind (sim.byte hready (by decide)) fun repeats _ _ _ hready => ?_
    refine ite (fun _ => bind_stop hready ?_) fun _ => sim.fail _ _ _ hready
    refine sim.bind (sim.trivia hready) fun _ _ operands _ hready => ?_
    refine sim.bind (sim.primaryWith h _ hready) fun operand _ _ hrun hready' => sim.pure hready' ?_
    have hspans := (Reader.spans_primaryWith hforward operands).holds hrun
    rw [sim.stop_operand (fun p => p.note_map _) hspans hready, sim.between_placed _ hstart]
    cases operand <;> rfl

theorem termWith : sim.Follows (Option.map (Term.map sim.located))
    (Scanning.termWith inside) (Reader.termWith inside') := by
  intro input hready
  have hstart := sim.within hready (Nat.le_refl _)
  refine sim.entering _ (bind_place hready ?_)
  refine sim.bind (sim.factorWith h hforward _ hready) fun base _ _ _ hready => ?_
  cases base with
  | none => exact sim.pure hready rfl
  | some base =>
    refine sim.bind (sim.trivia hready) fun _ _ _ _ hready => ?_
    refine sim.bind (sim.byte hready (by decide)) fun excepts _ _ _ hready => ?_
    refine ite (fun _ => bind_stop hready ?_) fun _ => sim.pure hready rfl
    refine sim.bind (sim.trivia hready) fun _ _ operands _ hready => ?_
    refine sim.bind (sim.factorWith h hforward _ hready) fun excluded _ _ hrun hready' =>
      sim.pure hready' ?_
    have hspans := (Reader.spans_factorWith hforward operands).holds hrun
    rw [sim.stop_operand (fun x => x.note_map _) hspans hready, sim.between_placed _ hstart]
    cases excluded <;> rfl

theorem definitionWith : sim.Follows (Option.map (Definition.map sim.located))
    (Scanning.definitionWith inside) (Reader.definitionWith inside') := by
  intro input hready
  have hslot : sim.Follows (Option.map (Term.map sim.located))
      (do
        let t ← Scanning.termWith inside
        Scanning.trivia
        return t)
      (do
        let t ← Reader.termWith inside'
        Reader.trivia
        return t) := by
    intro input hready
    refine sim.bind (sim.termWith h hforward _ hready) fun t _ _ _ hready => ?_
    exact bind_pure (sim.trivia hready) fun _ => rfl
  have hcomma : sim.Follows id (Scanning.separator (Scanning.byte comma) : m Bool)
      (Reader.separator (Reader.byte comma)) :=
    sim.separator fun _ hready => sim.byte hready (by decide)
  refine sim.entering _ (sim.bind (separated hslot hcomma input hready) ?_)
  intro terms _ _ hrun hready'
  have hspread := (Reader.yields_terms_of_definition hforward input).holds hrun
  exact sim.pure hready' (sim.concatenate hready hspread)

theorem definitionsWith : sim.Follows (List.map (Definition.map sim.located))
    (Scanning.definitionsWith inside) (Reader.definitionsWith inside') := by
  intro input hready
  refine sim.bind (sim.trivia hready) fun _ _ _ _ hready => ?_
  have hseparator := sim.separator fun _ => sim.definitionSeparator
  refine separated (fun input hready => ?_) hseparator _ hready
  refine sim.bind (sim.definitionWith h hforward _ hready) fun d _ _ _ hready => ?_
  exact bind_pure (sim.trivia hready) fun _ => rfl

end Levels

theorem definitionsUpTo (levels : Nat) : sim.Follows (List.map (Definition.map sim.located))
    (Scanning.definitionsUpTo levels) (Reader.definitionsUpTo levels) := by
  induction levels with
  | zero => exact fun input hready => sim.pure hready rfl
  | succ levels ih => exact sim.definitionsWith ih (Reader.forward_definitionsUpTo levels)

theorem definitions : sim.Follows (List.map (Definition.map sim.located))
    Scanning.definitions Reader.definitions :=
  fun input hready => bind_left hready (sim.definitionsUpTo _ input hready)

theorem bracketed (bracket : Bracket) : sim.Follows (Option.map (Primary.map sim.located))
    (Scanning.bracketed bracket) (Reader.bracketed bracket) :=
  sim.bracketedWith sim.definitions bracket

theorem primary : sim.Follows (Option.map (Primary.map sim.located))
    Scanning.primary Reader.primary :=
  sim.primaryWith sim.definitions

theorem factor : sim.Follows (Option.map (Factor.map sim.located))
    Scanning.factor Reader.factor :=
  sim.factorWith sim.definitions Reader.forward_definitions

theorem term : sim.Follows (Option.map (Term.map sim.located)) Scanning.term Reader.term :=
  sim.termWith sim.definitions Reader.forward_definitions

theorem definition : sim.Follows (Option.map (Definition.map sim.located))
    Scanning.definition Reader.definition :=
  sim.definitionWith sim.definitions Reader.forward_definitions

/-! ### Rules -/

theorem strayLexeme : sim.Follows id Scanning.strayLexeme Reader.strayLexeme := by
  intro input hready
  exact sim.check hready (firstOf (.cons sim.special (.cons sim.terminal .nil)) input hready)

theorem rule : sim.Follows (Rule.map sim.located) Scanning.rule Reader.rule := by
  intro input hready
  refine sim.bind (sim.trivia hready) fun _ _ _ _ hready => ?_
  have hstart := sim.within hready (Nat.le_refl _)
  refine bind_place hready (sim.bind (sim.name _ hready) fun found _ _ _ hready => ?_)
  rcases found with _ | ⟨extent, bytes⟩
  · exact sim.bind (sim.strayLexeme _ hready) fun _ _ _ _ hready => sim.fail _ _ _ hready
  · refine sim.bind (sim.byte hready (by decide)) fun defines _ _ _ hready => ?_
    refine ite (fun _ => ?_) fun _ => sim.fail _ _ _ hready
    refine sim.bind (sim.definitions _ hready) fun definitions _ _ _ hready => ?_
    refine sim.bind (sim.byte hready (by decide)) fun ends _ _ _ hready => ?_
    refine ite (fun _ => bind_stop hready (sim.pure hready ?_)) fun _ => sim.fail _ _ _ hready
    rw [sim.between_placed _ hstart]
    rfl

theorem nextRule : sim.Follows (Option.map (Rule.map sim.located))
    Scanning.nextRule Reader.nextRule := by
  intro input hready
  refine sim.bind (sim.trivia hready) fun _ _ _ _ hready => ?_
  refine sim.bind (sim.current hready) fun b _ _ _ hready => ?_
  exact ite (fun _ => sim.pure hready rfl) fun _ => bind_pure (sim.rule _ hready) fun _ => rfl

end Simulation

end Ebnf
