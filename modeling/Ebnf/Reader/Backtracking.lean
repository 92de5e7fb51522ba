import Ebnf.Reader.Progress

/-!
# Readers that find nothing leave everything

A production that answers with nothing has decided so by the symbol that comes first: it
has consumed no byte and passed no comment.  Only names are looked for behind trivia, and
their reader goes back.  A production that has found its first symbol answers with
something, or stops with an error.
-/

namespace Ebnf.Reader

open Scanning

/-- A reader has done nothing when its value is one of those given. -/
structure Still (lost : α → Prop) (reader : Reader α) : Prop where
  still : ∀ {input outcome}, reader.run input = .ok outcome → lost outcome.value →
    outcome.comments = [] ∧ outcome.rest = input

/-- A reader answers with none of the values given. -/
structure Never (lost : α → Prop) (reader : Reader α) : Prop where
  never : ∀ {input outcome}, reader.run input = .ok outcome → ¬lost outcome.value

namespace Never

variable {lost : α → Prop}

theorem pure {value : α} (h : ¬lost value) : Never lost (Pure.pure value : Reader α) where
  never hrun := by
    cases hrun
    exact h

theorem fail (cause : Cause) (start : Mark) : Never lost (Reader.fail cause start) where
  never hrun := by cases hrun

theorem bind {reader : Reader β} {next : β → Reader α} (h : ∀ value, Never lost (next value)) :
    Never lost (reader >>= next) where
  never hrun hlost := by
    obtain ⟨first, second, -, hsecond, rfl⟩ := run_bind_eq_ok.1 hrun
    exact (h first.value).never hsecond hlost

theorem ite {condition : Prop} [Decidable condition] {yes no : Reader α}
    (hyes : Never lost yes) (hno : Never lost no) :
    Never lost (if condition then yes else no) := by
  split
  · exact hyes
  · exact hno

end Never

namespace Still

variable {lost : α → Prop}

theorem of_never {reader : Reader α} (h : Never lost reader) : Still lost reader where
  still hrun hlost := (h.never hrun hlost).elim

theorem plain {step : Bytes → Except (Fault Mark) (α × Bytes)}
    (h : ∀ {input value rest}, step input = .ok (value, rest) → lost value → rest = input) :
    Still lost (Reader.plain step) where
  still hrun hlost := by
    have hattempt := attempt_of_run_ok hrun
    exact ⟨(congrArg Attempt.comments hattempt).symm,
      h (congrArg Attempt.result hattempt) hlost⟩

theorem pure (value : α) : Still lost (Pure.pure value : Reader α) :=
  plain fun hstep _ => by cases hstep; rfl

/-- What comes behind a reader that has done nothing decides; behind one that has done
something, no value may be lost any more. -/
theorem bind {reader : Reader β} {next : β → Reader α} {first : β → Prop}
    (h : Still first reader) (hnext : ∀ value, first value → Still lost (next value))
    (hfound : ∀ value, ¬first value → Never lost (next value)) :
    Still lost (reader >>= next) where
  still {input outcome} hrun hlost := by
    obtain ⟨one, two, hone, htwo, rfl⟩ := run_bind_eq_ok.1 hrun
    by_cases hfirst : first one.value
    · obtain ⟨hcomments, hrest⟩ := h.still hone hfirst
      rw [hrest] at htwo
      obtain ⟨hcomments', hrest'⟩ := (hnext _ hfirst).still htwo hlost
      exact ⟨by simp only [hcomments, hcomments', List.append_nil], hrest'⟩
    · exact ((hfound _ hfirst).never htwo hlost).elim

theorem bind_option {reader : Reader (Option β)} {next : Option β → Reader α}
    (h : Still (· = none) reader) (hnone : Still lost (next none))
    (hsome : ∀ value, Never lost (next (some value))) : Still lost (reader >>= next) := by
  refine h.bind (fun value hvalue => ?_) (fun value hvalue => ?_)
  · subst hvalue
    exact hnone
  · obtain ⟨found, rfl⟩ := Option.ne_none_iff_exists'.1 hvalue
    exact hsome found

theorem bind_mark {next : Mark → Reader α} (h : ∀ start, Still lost (next start)) :
    Still lost (Reader.mark >>= next) := by
  have hmark : Still (fun _ => True) Reader.mark := plain fun hstep _ => by cases hstep; rfl
  exact hmark.bind (fun start _ => h start) fun _ hfalse => (hfalse trivial).elim

/-- A value that is only passed on is lost when what it is made of is. -/
theorem bind_pure {reader : Reader β} {f : β → α} (h : Still (fun value => lost (f value)) reader) :
    Still lost (reader >>= fun value => Pure.pure (f value)) :=
  h.bind (fun _ _ => pure _) fun _ hnot => .pure hnot

theorem map_option {reader : Reader (Option β)} (f : β → α) (h : Still (· = none) reader) :
    Still (· = none) (Option.map f <$> reader) := by
  rw [map_eq_pure_bind]
  apply bind_pure
  constructor
  intro input outcome hrun hlost
  exact h.still hrun (Option.map_eq_none_iff.1 hlost)

theorem byte (expected : UInt8) : Still (· = false) (Reader.byte expected) := by
  apply plain
  intro input value rest hstep hlost
  subst hlost
  cases input with
  | nil =>
    cases hstep
    rfl
  | cons b rest =>
    simp only at hstep
    split at hstep <;> cases hstep
    rfl

theorem one (member : UInt8 → Bool) : Still (· = none) (Reader.one member) := by
  apply plain
  intro input value rest hstep hlost
  subst hlost
  cases input with
  | nil =>
    cases hstep
    rfl
  | cons b rest =>
    simp only at hstep
    split at hstep <;> cases hstep
    rfl

theorem takeWhile (member : UInt8 → Bool) : Still (· = []) (Reader.takeWhile member) := by
  apply plain
  intro input value rest hstep hlost
  cases hstep
  have hsplit := List.takeWhile_append_dropWhile (p := member) (l := input)
  rwa [hlost, List.nil_append] at hsplit

theorem symbol (spellings : List Bytes) : Still (· = none) (Reader.symbol spellings) := by
  apply plain
  intro input value rest hstep hlost
  subst hlost
  split at hstep <;> cases hstep
  rfl

theorem orUndo (reader : Reader (Option α)) : Still (· = none) reader.orUndo where
  still {input outcome} hrun hlost := by
    have hattempt := attempt_of_run_ok hrun
    rw [hlost] at hattempt
    simp only [Reader.orUndo] at hattempt
    split at hattempt
    · cases outcome
      cases hattempt
      exact ⟨rfl, rfl⟩
    next hsome => exact (hsome _ _ hattempt).elim

theorem check (reader : Reader α) : Still (fun _ => True) reader.check where
  still {input outcome} hrun _ := by
    have hattempt := attempt_of_run_ok hrun
    simp only [Reader.check] at hattempt
    split at hattempt <;> cases outcome <;> cases hattempt
    exact ⟨rfl, rfl⟩

theorem firstOf {readers : List (Reader (Option α))}
    (h : ∀ reader ∈ readers, Still (· = none) reader) :
    Still (· = none) (Scanning.firstOf readers) := by
  induction readers with
  | nil => exact pure none
  | cons reader more ih =>
    refine (h reader (by simp)).bind_option ?_ fun value => .pure (by simp)
    exact ih fun other hmem => h other (by simp [hmem])

end Still

/-! ### Productions -/

variable [Runtime]

theorem still_identifier : Still (· = none) identifier :=
  (Still.orUndo _).map_option _

theorem still_terminal : Still (· = none) terminal := by
  refine .bind_mark fun start => (Still.one _).bind_option (.pure none) fun quote => ?_
  refine .bind fun again => .ite (.fail _ _) (.bind fun content => .bind fun next => ?_)
  cases next with
  | none => exact .fail _ _
  | some b => exact .bind fun closed => .ite (.bind fun stop => .pure (by simp)) (.fail _ _)

theorem still_special : Still (· = none) special := by
  refine .bind_mark fun start => (Still.byte _).bind (fun opened hno => ?_) fun opened hyes => ?_
  · subst hno
    exact .pure none
  · rw [Bool.not_eq_false] at hyes
    subst hyes
    exact .bind fun content => .bind fun closed =>
      .ite (.bind fun stop => .pure (by simp)) (.fail _ _)

theorem still_strayLexeme : Still (fun _ => True) strayLexeme :=
  Still.check _

section Levels

variable (inside : Reader (List (Definition Extent)))

theorem still_bracketedWith (bracket : Bracket) :
    Still (· = none) (bracketedWith inside bracket) := by
  refine .bind_mark fun start => (Still.symbol _).bind_option (.pure none) fun opener => ?_
  refine .bind fun definitions => .bind fun closer => ?_
  cases closer with
  | none => exact .fail _ _
  | some closer => exact .bind fun stop => .pure (by simp)

theorem still_primaryWith : Still (· = none) (primaryWith inside) := by
  refine Still.firstOf fun reader hmem => ?_
  simp only [List.mem_cons, List.not_mem_nil, or_false] at hmem
  rcases hmem with rfl | rfl | rfl | rfl | rfl | rfl
  · exact still_bracketedWith inside _
  · exact still_bracketedWith inside _
  · exact still_bracketedWith inside _
  · exact still_identifier
  · exact still_terminal
  · exact still_special

theorem still_factorWith : Still (· = none) (factorWith inside) := by
  refine .bind_mark fun start => (Still.takeWhile _).bind (fun digits hnone => ?_)
    fun digits hsome => ?_
  · subst hnone
    exact (still_primaryWith inside).map_option _
  · rw [if_neg (by simpa using hsome)]
    refine .bind fun count => .bind fun _ => .bind fun repeats => .ite ?_ (.fail _ _)
    exact .bind fun stop => .bind fun _ => .bind fun operand => .pure (by simp)

theorem still_termWith : Still (· = none) (termWith inside) := by
  refine .bind_mark fun start => (still_factorWith inside).bind_option (.pure none) fun base => ?_
  refine .bind fun _ => .bind fun excepts => .ite ?_ (.pure (by simp))
  exact .bind fun stop => .bind fun _ => .bind fun excluded => .pure (by simp)

end Levels

end Ebnf.Reader
