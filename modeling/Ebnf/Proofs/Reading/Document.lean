import Ebnf.Proofs.Reading.Completeness
import Ebnf.Reader.Document

/-!
# Documents are read as they are spelled

A document is read rule by rule.  The rule that comes next is read from the bytes
that are left, so the reading of a document is that of its first rule in front of
the reading of the rest; the bound on the number of rules disappears here, since
every rule takes a byte.  A reading without a failure spells the document, and a
failure is a defect of it.  Conversely, a document that is spelled is read without
a failure, and as it is spelled.
-/

namespace Ebnf

open Byte

theorem SpellsName.shorter {input name rest : Bytes} {comments : List (Comment Mark)}
    (h : SpellsName input name comments rest) : rest.length < input.length := by
  obtain ⟨-, hword⟩ := h
  cases hword with
  | last => exact Nat.lt_succ_self _
  | more _ htrivia hmore =>
    have hrest := hmore.suffix.trans htrivia.suffix
    exact Nat.lt_succ_of_le hrest.length_le

instance : Append (Grammar α μ) where
  append g h := ⟨g.rules ++ h.rules, g.comments ++ h.comments⟩

theorem Grammar.append_assoc (g h k : Grammar α μ) : g ++ h ++ k = g ++ (h ++ k) :=
  congrArg₂ Grammar.mk (List.append_assoc ..) (List.append_assoc ..)

theorem Grammar.map_append (f : α → β) (k : μ → ν) (g h : Grammar α μ) :
    (g ++ h).map f k = g.map f k ++ h.map f k :=
  congrArg₂ Grammar.mk (List.map_append ..) (List.map_append ..)

/-- A reading of what comes behind a grammar, with the grammar in front. -/
def Reading.behind (g : Grammar α μ) (reading : Reading α μ) : Reading α μ where
  rules := g.rules ++ reading.rules
  comments := g.comments ++ reading.comments
  failure := reading.failure

theorem Reading.result_behind (g : Grammar α μ) (reading : Reading α μ) :
    (reading.behind g).result = reading.result.map (g ++ ·) := by
  unfold Reading.result Reading.behind
  simp only
  cases reading.failure <;> rfl

variable [Runtime]

theorem SpellsRule.shorter {input rest : Bytes} {rule : Rule Extent}
    {comments : List (Comment Mark)} (h : SpellsRule input rule comments rest) :
    rest.length < input.length := by
  obtain ⟨hname, htrivia, hdefinitions⟩ := h
  have hbody := (List.suffix_cons _ _).trans htrivia.suffix
  have hrest := ((List.suffix_cons _ _).trans hdefinitions.suffix).trans hbody
  exact Nat.lt_of_le_of_lt hrest.length_le hname.shorter

theorem SpellsRule.settled {input rest : Bytes} {rule : Rule Extent}
    {comments : List (Comment Mark)} (h : SpellsRule input rule comments rest) :
    Settled input := by
  obtain ⟨hname, -, -⟩ := h
  exact hname.settled

/-- What reading a document may come to: it is spelled, or it fails, or it has a count that
is refused. -/
def Answers (input : Bytes) : Except (Fault Mark) (Grammar Extent Mark) → Prop
  | .ok g => SpellsDocument input g
  | .error fault => Halts input (Failure input) fault

namespace Reader

open Scanning

theorem ensures_nextRule (input : Bytes) :
    nextRule.Ensures (Halts input (Failure input)) input fun value comments rest =>
      match value with
      | none => SpellsTrivia input comments []
      | some rule => ∃ comments₁ comments₂ start, comments = comments₁ ++ comments₂ ∧
          SpellsTrivia input comments₁ start ∧ SpellsRule start rule comments₂ rest := by
  apply Ensures.bind
  apply ((ensures_trivia input).mono_fault fun _ hbroken =>
    Halts.of_isError hbroken fun _ hbroken => Failure.flaw (hbroken.flaw .refl)).mono
  rintro _ comments start ⟨htrivia, hsettled⟩
  apply Ensures.bind_current
  by_cases hempty : start.head?.isNone
  · rw [if_pos hempty]
    apply Ensures.pure
    obtain rfl : start = [] := by simpa using hempty
    simpa using htrivia
  · rw [if_neg hempty]
    have hopening := (Entry.refl input).opening htrivia hsettled
    have hfault : ∀ error, Flaw input error ∨
        (Defect start error ∧ error.cause.kind.concernsRule) → Failure input error := by
      rintro error (hflaw | ⟨hdefect, hlevel⟩)
      · exact .flaw hflaw
      · exact .of_trivia htrivia (by simpa using hempty) hdefect hlevel
    apply Ensures.bind_pure
    apply ((ensures_rule hopening).mono_fault fun _ hhalts => hhalts.mono hfault).mono
    intro rule comments' rest hrule
    exact ⟨comments, comments', start, rfl, htrivia, hrule⟩

theorem nextRule_shorter {input rest : Bytes} {rule : Rule Extent}
    {comments : List (Comment Mark)}
    (h : nextRule.run input = .ok ⟨some rule, comments, rest⟩) :
    rest.length < input.length := by
  obtain ⟨_, _, _, -, htrivia, hrule⟩ := (ensures_nextRule input).of_ok h
  exact Nat.lt_of_lt_of_le hrule.shorter htrivia.suffix.length_le

/-! ### The loop over rules -/

/-- Rules beyond the number of bytes make no difference. -/
theorem documentUpTo_eq {input : Bytes} {rules more : Nat} (hrules : input.length < rules)
    (hmore : input.length < more) : documentUpTo rules input = documentUpTo more input := by
  induction hlength : input.length using Nat.strongRecOn
    generalizing input rules more with
  | _ length ih =>
    obtain ⟨rules, rfl⟩ := Nat.exists_eq_add_of_lt hrules
    obtain ⟨more, rfl⟩ := Nat.exists_eq_add_of_lt hmore
    simp only [documentUpTo]
    rcases hattempt : nextRule.attempt input with ⟨comments, error | ⟨_ | rule, rest⟩⟩
    · rfl
    · rfl
    · have hshort := nextRule_shorter (run_of_attempt_ok hattempt)
      have hrest : documentUpTo (input.length + rules) rest =
          documentUpTo (input.length + more) rest :=
        ih rest.length (by omega) (by omega) (by omega) rfl
      simp only [hrest]

theorem document_of_error {input : Bytes} {fault : Fault Mark}
    (h : nextRule.run input = .error fault) : (document input).result = .error fault := by
  obtain ⟨comments, hattempt⟩ := attempt_of_run_error h
  simp only [document, documentUpTo, hattempt, Reading.result]

theorem document_of_none {input rest : Bytes} {comments : List (Comment Mark)}
    (h : nextRule.run input = .ok ⟨none, comments, rest⟩) :
    document input = { comments } := by
  simp only [document, documentUpTo, attempt_of_run_ok h]

theorem document_of_some {input rest : Bytes} {rule : Rule Extent}
    {comments : List (Comment Mark)}
    (h : nextRule.run input = .ok ⟨some rule, comments, rest⟩) :
    document input = (document rest).behind ⟨[rule], comments⟩ := by
  have hshort := nextRule_shorter h
  have hrest : documentUpTo input.length rest = document rest :=
    documentUpTo_eq hshort (Nat.lt_succ_self _)
  simp only [document, documentUpTo, attempt_of_run_ok h, hrest, Reading.behind,
    List.singleton_append]

theorem document_answers (input : Bytes) : Answers input (document input).result := by
  induction hlength : input.length using Nat.strongRecOn generalizing input with
  | _ length ih =>
    have hensures := ensures_nextRule input
    cases hrun : nextRule.run input with
    | error error =>
      rw [document_of_error hrun]
      exact hensures.of_error hrun
    | ok outcome =>
      rcases outcome with ⟨value, comments, rest⟩
      have hfound := hensures.of_ok hrun
      cases value with
      | none =>
        rw [document_of_none hrun]
        exact .trivia hfound
      | some rule =>
        have hshort := nextRule_shorter hrun
        obtain ⟨comments₁, comments₂, start, rfl, htrivia, hrule⟩ := hfound
        have hrest := ih rest.length (hlength ▸ hshort) rest rfl
        rw [document_of_some hrun, Reading.result_behind]
        cases hresult : (document rest).result with
        | error error =>
          rw [hresult] at hrest
          have hbehind := hrule.suffix.trans htrivia.suffix
          exact hrest.of_suffix hbehind fun _ hfailure => .behind htrivia hrule hfailure
        | ok g =>
          rw [hresult] at hrest
          have hdocument := SpellsDocument.rule htrivia hrule hrest
          rw [← List.append_assoc] at hdocument
          exact hdocument

theorem spells_of_document {input : Bytes} {g : Grammar Extent Mark}
    (h : (document input).result = .ok g) : SpellsDocument input g := by
  have hanswers := document_answers input
  rwa [h] at hanswers

theorem halts_of_document {input : Bytes} {fault : Fault Mark}
    (h : (document input).result = .error fault) : Halts input (Failure input) fault := by
  have hanswers := document_answers input
  rwa [h] at hanswers

theorem failure_of_document {input : Bytes} {error : SyntaxError Mark}
    (h : (document input).result = .error error) : Failure input error := by
  cases halts_of_document h with
  | error hfailure => exact hfailure

/-! ### What is spelled is read -/

theorem rule_run {input rest : Bytes} {r : Rule Extent} {comments : List (Comment Mark)}
    (h : SpellsRule input r comments rest) : rule.run input = .ok ⟨r, comments, rest⟩ := by
  have hsettled := h.settled
  obtain ⟨hname, htrivia, hdefinitions⟩ := h
  have hrun := name_run hname htrivia (.of_head rfl (by decide) (by decide))
    (forall_head rfl (by decide))
  have hinside := hdefinitions.run (FollowsDefinitions.of_head (by decide))
  simp only [Scanning.rule, scanning_trivia, scanning_place, scanning_stop, scanning_byte,
    scanning_fail]
  rw [run_bind_of_ok (trivia_run_settled hsettled), passing_nil, run_mark_bind,
    run_bind_of_ok hrun]
  simp only
  rw [run_byte_bind_cons, run_bind_of_ok hinside, run_byte_bind_cons, run_mark_bind, run_pure]
  simp only [passing_ok, List.append_nil, List.append_assoc, Extent.between_eq]

theorem nextRule_run_of_trivia {input rest : Bytes} {comments : List (Comment Mark)}
    (h : SpellsTrivia input comments rest) :
    nextRule.run input = passing comments (nextRule.run rest) :=
  run_bind_of_passing (trivia_run h)

theorem nextRule_run_of_rule {input rest : Bytes} {r : Rule Extent}
    {comments : List (Comment Mark)} (h : SpellsRule input r comments rest) :
    nextRule.run input = .ok ⟨some r, comments, rest⟩ := by
  have hnonempty : ¬input.head?.isNone := by
    obtain ⟨⟨-, -⟩, -, -⟩ := h
    simp
  simp only [Scanning.nextRule, scanning_trivia, scanning_current]
  rw [run_bind_of_ok (trivia_run_settled h.settled), passing_nil, run_current_bind,
    if_neg hnonempty, run_bind_of_ok (rule_run h), run_pure, passing_ok, List.append_nil]

/-- Trivia in front of a document adds its comments. -/
theorem document_of_trivia {input rest : Bytes} {comments : List (Comment Mark)}
    (h : SpellsTrivia input comments rest) :
    (document input).result = (document rest).result.map (⟨[], comments⟩ ++ ·) := by
  have hnext := nextRule_run_of_trivia h
  cases hrun : nextRule.run rest with
  | error error =>
    rw [hrun] at hnext
    rw [document_of_error hrun, document_of_error hnext]
    rfl
  | ok outcome =>
    rcases outcome with ⟨value, comments', rest'⟩
    rw [hrun] at hnext
    cases value with
    | none =>
      rw [document_of_none hrun, document_of_none hnext]
      rfl
    | some r =>
      rw [document_of_some hrun, document_of_some hnext, Reading.result_behind,
        Reading.result_behind]
      cases (document rest').result with
      | error error => rfl
      | ok g => exact congrArg Except.ok (Grammar.append_assoc ⟨[], comments⟩ ⟨[r], comments'⟩ g)

/-- A rule in front of a document adds itself and its comments. -/
theorem document_of_rule {input rest : Bytes} {r : Rule Extent}
    {comments : List (Comment Mark)} (h : SpellsRule input r comments rest) :
    (document input).result = (document rest).result.map (⟨[r], comments⟩ ++ ·) := by
  rw [document_of_some (nextRule_run_of_rule h), Reading.result_behind]

theorem document_of_spells {input : Bytes} {g : Grammar Extent Mark}
    (h : SpellsDocument input g) : (document input).result = .ok g := by
  induction h with
  | @trivia input comments htrivia =>
    have hend : (document []).result = .ok ⟨[], []⟩ := by rfl
    have hcomments : (⟨[], comments⟩ : Grammar Extent Mark) ++ (⟨[], []⟩ : Grammar Extent Mark) =
        ⟨[], comments ++ []⟩ := rfl
    rw [document_of_trivia htrivia, hend]
    simp only [Except.map, hcomments, List.append_nil]
  | rule htrivia hrule _ ih =>
    rw [document_of_trivia htrivia, document_of_rule hrule, ih]
    rfl

end Reader

end Ebnf
