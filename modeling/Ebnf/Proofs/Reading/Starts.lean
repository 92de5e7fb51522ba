import Ebnf.Proofs.Reading.Trivia
import Ebnf.Proofs.Simulation.Production
import Ebnf.Reader.Backtracking
import Ebnf.Reader.Starts

/-!
# Constructs are looked for behind trivia

Below the level of rules no production passes over trivia before it looks for its first
symbol, so whoever calls one has to do that.  Entered at `(*`, a grouped sequence would take
the parenthesis for its opening symbol.  The callers see to it in three ways: trivia has just
been read, or was read by the separator of the loop, or nothing has been consumed since a
place where one of these was the case.
-/

namespace Ebnf

open Byte Scanning

namespace Watched

/-! ### Tidy runs -/

/-- A run at the input enters every level where no trivia comes next. -/
def Tidy (watched : Watched α) (input : Bytes) : Prop :=
  ∀ start ∈ watched.starts input, Settled start.unread

variable {input : Bytes}

namespace Tidy

theorem quiet (reader : Reader α) : (Watched.quiet reader).Tidy input :=
  nofun

theorem entering {level : Level} {watched : Watched α} (hsettled : Settled input)
    (h : watched.Tidy input) : (watched.entering level).Tidy input :=
  List.forall_mem_cons.2 ⟨hsettled, h⟩

theorem bind {watched : Watched α} {next : α → Watched β} (h : watched.Tidy input)
    (hnext : ∀ value comments rest, watched.reader.run input = .ok ⟨value, comments, rest⟩ →
      (next value).Tidy rest) : (watched >>= next).Tidy input := by
  refine List.forall_mem_append.2 ⟨h, ?_⟩
  rcases hattempt : watched.reader.attempt input with ⟨comments, error | ⟨value, rest⟩⟩
  · exact nofun
  · exact hnext value comments rest (Reader.run_of_attempt_ok hattempt)

/-- What comes behind a reader that enters nothing. -/
theorem bind_quiet {reader : Reader α} {next : α → Watched β}
    (hnext : ∀ value comments rest, reader.run input = .ok ⟨value, comments, rest⟩ →
      (next value).Tidy rest) : (Watched.quiet reader >>= next).Tidy input :=
  (quiet reader).bind hnext

theorem bind_mark {next : Mark → Watched α} (h : ∀ start, (next start).Tidy input) :
    (Watched.quiet Reader.mark >>= next).Tidy input := by
  refine bind_quiet fun start comments rest hrun => ?_
  cases hrun
  exact h _

theorem bind_trivia {next : Unit → Watched α} (h : ∀ rest, Settled rest → (next ()).Tidy rest) :
    (Watched.quiet Reader.trivia >>= next).Tidy input :=
  bind_quiet fun _ _ rest hrun => h rest (Reader.settled_of_trivia hrun)

theorem ite {condition : Prop} [Decidable condition] {yes no : Watched α}
    (hyes : condition → yes.Tidy input) (hno : ¬condition → no.Tidy input) :
    (if condition then yes else no).Tidy input := by
  split
  · exact hyes ‹_›
  · exact hno ‹_›

/-- What is tried one after the other, each of which goes back when it finds nothing. -/
theorem firstOf {list : List (Watched (Option α))}
    (h : ∀ watched ∈ list, watched.Tidy input ∧ watched.reader.Still (· = none)) :
    (Scanning.firstOf list).Tidy input := by
  induction list with
  | nil => exact quiet _
  | cons watched more ih =>
    obtain ⟨⟨htidy, hstill⟩, hmore⟩ := List.forall_mem_cons.1 h
    refine htidy.bind fun value comments rest hrun => ?_
    cases value with
    | some value => exact quiet _
    | none =>
      obtain ⟨-, rfl⟩ := hstill.still hrun rfl
      exact ih hmore

end Tidy

theorem primary_map_id (value : Option (Primary Extent)) :
    value.map (Primary.map id) = value := by
  cases value with
  | none => rfl
  | some p => exact congrArg some p.map_id

section

variable [Runtime]

/-! ### The record changes nothing -/

/-- A watched reader reads as it would unwatched. -/
def simulation : Simulation Watched where
  placed := id
  stopped := id
  located := id
  Ready _ := True
  Within _ := True
  Agrees input f watched reader := watched.reader.attempt input = (reader.attempt input).map f
  within _ _ := trivial
  start_located _ := rfl
  stop_located _ _ := rfl
  between_placed _ _ := rfl
  pure _ hvalue := by subst hvalue; rfl
  bind {_ _ _ _ input f g watched reader next next'} h hnext := by
    change (watched.reader >>= fun value => (next value).reader).attempt input =
      ((reader >>= next').attempt input).map g
    rw [Reader.attempt_bind, Reader.attempt_bind, h]
    rcases hattempt : reader.attempt input with ⟨comments, error | ⟨value, rest⟩⟩
    · rfl
    · have hrest := hnext value comments rest (Reader.run_of_attempt_ok hattempt) trivial
      simp only [Attempt.map, Except.map, hrest]
  left _ := rfl
  place _ := rfl
  stop _ := rfl
  current _ := rfl
  byte _ _ := (Attempt.map_id _).symm
  one _ _ := (Attempt.map_id _).symm
  takeWhile _ _ := rfl
  passTo _ _ := rfl
  symbol _ _ := (Attempt.map_id _).symm
  definitionSeparator _ := (Attempt.map_id _).symm
  trivia _ := (Attempt.map_id _).symm
  orUndo {_ _ input f watched reader} _ h := by
    change watched.reader.orUndo.attempt input = (reader.orUndo.attempt input).map _
    unfold Reader.orUndo
    simp only [h]
    rcases reader.attempt input with ⟨comments, error | ⟨_ | value, rest⟩⟩ <;> rfl
  check {_ _ input f watched reader} _ h := by
    change watched.reader.check.attempt input = (reader.check.attempt input).map _
    unfold Reader.check
    simp only [h]
    rcases reader.attempt input with ⟨comments, error | ⟨value, rest⟩⟩ <;> rfl
  fail _ _ _ _ := rfl
  convert _ := (Attempt.map_id _).symm
  entering _ h := h

theorem reader_eq {watched : Watched α} {reader : Reader α} {f : α → α}
    (h : simulation.Follows f watched reader) (hid : ∀ value, f value = value) :
    watched.reader = reader := by
  ext1 input
  rw [h input trivial, funext hid]
  exact Attempt.map_id _

theorem still_terminal :
    (Scanning.terminal : Watched (Option (Primary Extent))).reader.Still (· = none) :=
  reader_eq simulation.terminal primary_map_id ▸ Reader.still_terminal

theorem still_special :
    (Scanning.special : Watched (Option (Primary Extent))).reader.Still (· = none) :=
  reader_eq simulation.special primary_map_id ▸ Reader.still_special

/-- With and without the record a document is read the same. -/
theorem reading_document (source : Bytes) : (document source).1 = Reader.document source := by
  have hnext : (Scanning.nextRule : Watched (Option (Rule Extent))).reader = Reader.nextRule :=
    reader_eq simulation.nextRule fun value => by cases value <;> simp [simulation, Rule.map_id]
  have hupTo : ∀ rules input, (documentUpTo rules input).1 = Reader.documentUpTo rules input := by
    intro rules
    induction rules with
    | zero => exact fun _ => rfl
    | succ rules ih =>
      intro input
      simp only [documentUpTo, Reader.documentUpTo, hnext]
      rcases Reader.nextRule.attempt input with ⟨comments, error | ⟨_ | rule, rest⟩⟩
      · rfl
      · rfl
      · simp only [ih]
  exact hupTo _ source

namespace Tidy

theorem many {item : Watched (Option α)} (h : ∀ input, item.Tidy input) :
    (Scanning.many item).Tidy input := by
  refine bind_mark fun bytes => ?_
  generalize bytes + 1 = rounds
  induction rounds generalizing input with
  | zero => exact quiet _
  | succ rounds ih =>
    refine (h input).bind fun value _ rest _ => ?_
    cases value with
    | none => exact quiet _
    | some value => exact Tidy.bind ih fun _ _ _ _ => quiet _

/-- A loop begins each round where no trivia comes next. -/
theorem separated {item : Watched (Option α)} {accepts : Reader Bool}
    (hitem : ∀ input, Settled input → item.Tidy input) (hsettled : Settled input) :
    (Scanning.separated item (Scanning.separator (Watched.quiet accepts))).Tidy input := by
  refine bind_mark fun bytes => ?_
  generalize bytes + 1 = rounds
  induction rounds generalizing input with
  | zero => exact quiet _
  | succ rounds ih =>
    refine (hitem input hsettled).bind fun first _ middle _ => ?_
    have hsame : (Scanning.separator (Watched.quiet accepts)).reader = Reader.separator accepts :=
      reader_eq (simulation.separator fun _ _ => (Attempt.map_id _).symm) fun _ => rfl
    refine Tidy.bind (bind_quiet fun found _ rest _ => ?_) fun more _ rest hrun => ?_
    · exact ite (fun _ => bind_trivia fun _ _ => quiet _) fun _ => quiet _
    · refine ite (fun hmore => ?_) fun _ => quiet _
      subst hmore
      rw [hsame] at hrun
      exact (ih (Reader.settled_of_separator hrun)).bind fun _ _ _ _ => quiet _

end Tidy

/-! ### Productions -/

theorem tidy_name (input : Bytes) :
    (Scanning.name : Watched (Option (Extent × Bytes))).Tidy input := by
  change (Watched.quiet Reader.trivia >>= _).Tidy input
  refine .bind_trivia fun _ _ => .bind_mark fun start => .bind_quiet fun b _ rest _ => ?_
  refine .ite (fun _ => .bind (.many fun input => .bind_quiet fun found _ _ _ => ?_)
    fun _ _ _ _ => .quiet _) fun _ => .quiet _
  cases found with
  | none => exact .quiet _
  | some b => exact .bind_mark fun behind => .bind_trivia fun _ _ => .quiet _

theorem tidy_identifier : (Scanning.identifier : Watched (Option (Primary Extent))).Tidy input :=
  (tidy_name input).bind fun _ _ _ _ => .quiet _

theorem tidy_terminal : (Scanning.terminal : Watched (Option (Primary Extent))).Tidy input := by
  refine .bind_mark fun start => .bind_quiet fun quote _ _ _ => ?_
  cases quote with
  | none => exact .quiet _
  | some quote =>
    refine .bind_quiet fun again _ _ _ => .ite (fun _ => .quiet _) fun _ => ?_
    refine .bind_quiet fun content _ _ _ => .bind_quiet fun b _ _ _ => ?_
    cases b with
    | none => exact .quiet _
    | some b =>
      exact .bind_quiet fun closed _ _ _ => .ite (fun _ => .bind_mark fun _ => .quiet _)
        fun _ => .quiet _

theorem tidy_special : (Scanning.special : Watched (Option (Primary Extent))).Tidy input := by
  refine .bind_mark fun start => .bind_quiet fun opened _ _ _ => ?_
  refine .ite (fun _ => ?_) fun _ => .quiet _
  exact .bind_quiet fun content _ _ _ => .bind_quiet fun closed _ _ _ =>
    .ite (fun _ => .bind_mark fun _ => .quiet _) fun _ => .quiet _

section Levels

variable {inside : Watched (List (Definition Extent))} (hinside : ∀ input, inside.Tidy input)

include hinside

theorem tidy_bracketedWith (bracket : Bracket) (hsettled : Settled input) :
    (Scanning.bracketedWith inside bracket).Tidy input := by
  refine .entering hsettled (.bind_mark fun start => .bind_quiet fun opener _ rest _ => ?_)
  cases opener with
  | none => exact .quiet _
  | some opener =>
    refine (hinside rest).bind fun definitions _ _ _ => .bind_quiet fun closer _ _ _ => ?_
    cases closer with
    | none => exact .quiet _
    | some closer => exact .bind_mark fun _ => .quiet _

theorem tidy_primaryWith (hsettled : Settled input) : (Scanning.primaryWith inside).Tidy input := by
  refine .entering hsettled (.firstOf fun watched hmem => ?_)
  have hsame : simulation.Follows (List.map (Definition.map id)) inside inside.reader := by
    intro input _
    have hid : List.map (Definition.map (id : Extent → Extent)) = id := by
      funext definitions
      rw [← Definition.mapAll_eq, Definition.mapAll_id, id]
    exact hid ▸ (Attempt.map_id _).symm
  have hbracketed (bracket : Bracket) : (Scanning.bracketedWith inside bracket).Tidy input ∧
      (Scanning.bracketedWith inside bracket).reader.Still (· = none) := by
    refine ⟨tidy_bracketedWith hinside bracket hsettled, ?_⟩
    rw [reader_eq (simulation.bracketedWith hsame bracket) primary_map_id]
    exact Reader.still_bracketedWith _ _
  simp only [List.mem_cons, List.not_mem_nil, or_false] at hmem
  rcases hmem with rfl | rfl | rfl | rfl | rfl | rfl
  · exact hbracketed _
  · exact hbracketed _
  · exact hbracketed _
  · exact ⟨tidy_identifier,
      reader_eq simulation.identifier primary_map_id ▸ Reader.still_identifier⟩
  · exact ⟨tidy_terminal, still_terminal⟩
  · exact ⟨tidy_special, still_special⟩

theorem tidy_factorWith (hsettled : Settled input) : (Scanning.factorWith inside).Tidy input := by
  refine .entering hsettled (.bind_mark fun start => .bind_quiet fun digits _ rest hrun => ?_)
  refine .ite (fun hnone => ?_) fun _ => .bind_quiet fun count _ _ _ => ?_
  · -- Without digits nothing has been consumed.
    obtain ⟨-, rfl⟩ := (Reader.Still.takeWhile _).still hrun (List.isEmpty_iff.1 hnone)
    exact (tidy_primaryWith hinside hsettled).bind fun _ _ _ _ => .quiet _
  · refine .bind_trivia fun rest _ => .bind_quiet fun repeats _ rest _ => ?_
    refine .ite (fun _ => ?_) fun _ => .quiet _
    refine .bind_mark fun stop => .bind_trivia fun rest hrest => ?_
    exact (tidy_primaryWith hinside hrest).bind fun _ _ _ _ => .quiet _

theorem tidy_termWith (hsettled : Settled input) : (Scanning.termWith inside).Tidy input := by
  refine .entering hsettled (.bind_mark fun start => ?_)
  refine (tidy_factorWith hinside hsettled).bind fun base _ rest _ => ?_
  cases base with
  | none => exact .quiet _
  | some base =>
    refine .bind_trivia fun rest _ => .bind_quiet fun excepts _ rest _ => ?_
    refine .ite (fun _ => ?_) fun _ => .quiet _
    refine .bind_mark fun stop => .bind_trivia fun rest hrest => ?_
    exact (tidy_factorWith hinside hrest).bind fun _ _ _ _ => .quiet _

theorem tidy_definitionWith (hsettled : Settled input) :
    (Scanning.definitionWith inside).Tidy input := by
  refine .entering hsettled (.bind (.separated (fun input hinput => ?_) hsettled) ?_)
  · exact (tidy_termWith hinside hinput).bind fun _ _ _ _ => .bind_quiet fun _ _ _ _ => .quiet _
  · exact fun _ _ _ _ => .quiet _

theorem tidy_definitionsWith (input : Bytes) : (Scanning.definitionsWith inside).Tidy input := by
  refine .bind_trivia fun rest hrest => .separated (fun input hinput => ?_) hrest
  exact (tidy_definitionWith hinside hinput).bind fun _ _ _ _ =>
    .bind_quiet fun _ _ _ _ => .quiet _

end Levels

theorem tidy_definitions (input : Bytes) :
    (Scanning.definitions : Watched (List (Definition Extent))).Tidy input := by
  have hlevels : ∀ levels input,
      (Scanning.definitionsUpTo levels : Watched (List (Definition Extent))).Tidy input := by
    intro levels
    induction levels with
    | zero => exact fun _ => .quiet _
    | succ levels ih => exact tidy_definitionsWith ih
  exact .bind_mark fun bytes => hlevels (bytes + 1) input

theorem tidy_strayLexeme (input : Bytes) : (Scanning.strayLexeme : Watched Unit).Tidy input := by
  have htokens : (Scanning.firstOf [Scanning.special, Scanning.terminal] :
      Watched (Option (Primary Extent))).Tidy input := by
    refine .firstOf fun watched hmem => ?_
    simp only [List.mem_cons, List.not_mem_nil, or_false] at hmem
    rcases hmem with rfl | rfl
    · exact ⟨tidy_special, still_special⟩
    · exact ⟨tidy_terminal, still_terminal⟩
  exact htokens

theorem tidy_rule (input : Bytes) : (Scanning.rule : Watched (Rule Extent)).Tidy input := by
  refine .bind_trivia fun start _ => .bind_mark fun place => ?_
  refine (tidy_name start).bind fun found _ rest _ => ?_
  cases found with
  | none =>
    exact (tidy_strayLexeme rest).bind fun _ _ _ _ => .quiet _
  | some found =>
    refine .bind_quiet fun defines _ body _ => .ite (fun _ => ?_) fun _ => .quiet _
    refine (tidy_definitions body).bind fun definitions _ _ _ => .bind_quiet fun ends _ _ _ => ?_
    exact .ite (fun _ => .bind_mark fun _ => .quiet _) fun _ => .quiet _

theorem tidy_nextRule (input : Bytes) :
    (Scanning.nextRule : Watched (Option (Rule Extent))).Tidy input := by
  refine .bind_trivia fun _ _ => .bind_quiet fun _ _ rest _ => ?_
  exact .ite (fun _ => .quiet _) fun _ => (tidy_rule rest).bind fun _ _ _ _ => .quiet _

/-- No run over a document enters a level at trivia. -/
theorem settled_of_mem_document {source : Bytes} :
    ∀ start ∈ (document source).2, Settled start.unread := by
  have hupTo : ∀ rules input, ∀ start ∈ (documentUpTo rules input).2, Settled start.unread := by
    intro rules
    induction rules with
    | zero => exact fun _ => nofun
    | succ rules ih =>
      intro input
      simp only [documentUpTo]
      split
      · exact tidy_nextRule input
      · exact tidy_nextRule input
      · exact List.forall_mem_append.2 ⟨tidy_nextRule input, ih _⟩
  exact hupTo _ source

end

attribute [local instance] Runtime.usual

/-- With a comment before the only construct, `a=(*b*)c;`, nothing is entered before `c`. -/
example : (document [0x61, 0x3D, 0x28, 0x2A, 0x62, 0x2A, 0x29, 0x63, 0x3B]).2 =
    [.definition, .term, .factor, .primary, .bracketed .optional, .bracketed .repeated,
      .bracketed .grouped].map (Start.mk · [0x63, 0x3B]) := by
  decide +kernel

end Watched

end Ebnf
