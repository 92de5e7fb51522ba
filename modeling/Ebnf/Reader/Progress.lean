import Ebnf.Reader.Forward

/-!
# Productions only move forward

Every production leaves an end of what it was given, whatever reads the inside of
its brackets as long as that does too.  The readers that decide whether a loop goes
on, a piece of trivia, a byte of a name and a separator, consume at least one byte
when they say so.
-/

namespace Ebnf.Reader

open Byte Scanning

theorem afterComment_suffix {start : Mark} {depth : Nat} {input rest : Bytes}
    (h : afterComment start depth input = .ok rest) : rest <:+ input := by
  fun_induction afterComment start depth input with
  | case1 => cases h
  | case2 rest =>
    cases h
    exact ⟨[asterisk, rightParenthesis], rfl⟩
  | case3 depth rest ih => exact (ih h).trans ⟨[asterisk, rightParenthesis], rfl⟩
  | case4 => cases h
  | case5 depth rest hhead ih => exact (ih h).trans ⟨[leftParenthesis, asterisk], rfl⟩
  | case6 depth b rest _ _ _ ih => exact (ih h).trans (List.suffix_cons b rest)

/-- An error inside of a comment is met inside of the input. -/
theorem afterComment_stop_le {start : Mark} {depth : Nat} {input : Bytes}
    {error : SyntaxError Mark} (h : afterComment start depth input = .error error) :
    error.stop ≤ input.length := by
  fun_induction afterComment start depth input with
  | case1 =>
    cases h
    exact Nat.le_refl _
  | case2 => cases h
  | case3 depth rest ih => exact Nat.le_trans (ih h) (Nat.le_add_right _ 2)
  | case4 depth rest =>
    cases h
    exact Nat.le_succ _
  | case5 depth rest hhead ih => exact Nat.le_trans (ih h) (Nat.le_add_right _ 2)
  | case6 depth b rest _ _ _ ih => exact Nat.le_trans (ih h) (Nat.le_succ _)

/-- What comes of reading a comment: nothing if none opens here, an error inside of the
input, or the comment with what is behind it. -/
theorem comment_cases (input : Bytes) :
    comment.attempt input = { result := .ok (false, input) } ∨
      (∃ error, comment.attempt input = { result := .error error } ∧
        error.stop ≤ input.length) ∨
      ∃ content rest, comment.attempt input =
          ⟨[⟨content, input.length⟩], .ok (true, rest)⟩ ∧
        rest <:+ input ∧ rest.length < input.length := by
  simp only [comment]
  split
  next inside =>
    split
    · exact .inr (.inl ⟨_, rfl, by simp⟩)
    · split
      next error hafter =>
        have hle := afterComment_stop_le hafter
        exact .inr (.inl ⟨error, rfl, Nat.le_trans hle (Nat.le_add_right _ 2)⟩)
      next rest hafter =>
        have hsuffix := afterComment_suffix hafter
        have hle := hsuffix.length_le
        refine .inr (.inr ⟨_, rest, rfl, ?_, ?_⟩)
        · exact hsuffix.trans ⟨[leftParenthesis, asterisk], rfl⟩
        · simp only [List.length_cons]
          omega
  · exact .inl rfl

theorem forward_comment : comment.Forward where
  suffix {input outcome} hrun := by
    have hattempt := attempt_of_run_ok hrun
    obtain h | ⟨error, h, -⟩ | ⟨content, rest, h, hsuffix, -⟩ := comment_cases input <;>
      rw [h] at hattempt
    · injection hattempt with _ hresult
      cases outcome
      cases hresult
      exact List.suffix_refl _
    · injection hattempt with _ hresult
      cases hresult
    · injection hattempt with _ hresult
      cases outcome
      cases hresult
      exact hsuffix
  inside input := by
    obtain h | ⟨error, h, hle⟩ | ⟨content, rest, h, hsuffix, -⟩ := comment_cases input <;>
      rw [h]
    · exact Nat.le_refl _
    · exact hle
    · exact hsuffix.length_le
  passed input := by
    obtain h | ⟨error, h, -⟩ | ⟨content, rest, h, -, hshort⟩ := comment_cases input <;> rw [h]
    · exact Passed.nil _ _
    · exact Passed.nil _ _
    · refine ⟨fun c hc => ?_, List.pairwise_singleton _ _⟩
      rw [List.mem_singleton] at hc
      subst hc
      exact ⟨hshort, Nat.le_refl _⟩

theorem consumes_comment : comment.Consumes id where
  shorter {input outcome} hrun hfound := by
    have hattempt := attempt_of_run_ok hrun
    obtain h | ⟨error, h, -⟩ | ⟨content, rest, h, -, hshort⟩ := comment_cases input <;>
      rw [h] at hattempt <;> injection hattempt with _ hresult <;> cases outcome <;>
      cases hresult
    · cases hfound
    · exact hshort

theorem forward_triviaPiece : triviaPiece.Forward := by
  refine (Forward.one _).bind fun value => ?_
  cases value with
  | some b => exact Forward.pure _
  | none =>
    exact forward_comment.bind fun _ => Forward.ite (Forward.pure _) (Forward.pure _)

theorem consumes_triviaPiece : triviaPiece.Consumes Option.isSome where
  shorter {input outcome} hrun hfound := by
    obtain ⟨first, second, hfirst, hsecond, rfl⟩ := run_bind_eq_ok.1 hrun
    have hle := (Forward.one _).length_le hfirst
    rcases first with ⟨value, comments, rest⟩
    cases value with
    | some b =>
      cases hsecond
      exact (Consumes.one isBlank).shorter hfirst rfl
    | none =>
      obtain ⟨third, fourth, hthird, hfourth, rfl⟩ := run_bind_eq_ok.1 hsecond
      rcases third with ⟨found, more, left⟩
      cases found with
      | true =>
        cases hfourth
        have hshort := consumes_comment.shorter hthird rfl
        simp only at hshort hle ⊢
        omega
      | false =>
        cases hfourth
        cases hfound

theorem forward_trivia : trivia.Forward :=
  forward_triviaPiece.many.bind fun _ => Forward.pure _

theorem forward_definitionSeparator : definitionSeparator.Forward := by
  apply Forward.plain
  · intro input value rest hstep
    split at hstep <;> cases hstep
    · exact List.tail_suffix _
    · exact List.suffix_refl _
  · intro input error hstep
    split at hstep <;> cases hstep

theorem consumes_definitionSeparator : definitionSeparator.Consumes id := by
  apply Consumes.plain
  intro input value rest hstep hfound
  split at hstep <;> cases hstep
  next hstarts =>
    cases input with
    | nil => cases hstarts
    | cons b rest => simp
  next => cases hfound

variable [Runtime]

theorem forward_nameByte : nameByte.Forward := by
  refine (Forward.one _).bind fun value => ?_
  cases value with
  | none => exact Forward.pure _
  | some b =>
    exact Forward.mark.bind fun _ => forward_trivia.bind fun _ => Forward.pure _

theorem consumes_nameByte : nameByte.Consumes Option.isSome := by
  refine (Consumes.one isWord).bind_left (fun value => ?_) ?_
  · cases value with
    | none => exact Forward.pure _
    | some b =>
      exact Forward.mark.bind fun _ => forward_trivia.bind fun _ => Forward.pure _
  · intro value input outcome hrun hfound
    cases value with
    | none =>
      cases hrun
      exact hfound
    | some b => rfl

theorem forward_name : name.Forward :=
  Forward.orUndo <| forward_trivia.bind fun _ => Forward.mark.bind fun _ =>
    Forward.current.bind fun _ => Forward.ite
      (forward_nameByte.many.bind fun _ => Forward.pure _) (Forward.pure _)

theorem forward_identifier : identifier.Forward :=
  forward_name.bind fun _ => Forward.pure _

theorem forward_terminal : terminal.Forward := by
  refine Forward.mark.bind fun start => (Forward.one _).bind fun value => ?_
  cases value with
  | none => exact Forward.pure _
  | some quote =>
    refine (Forward.byte _).bind fun _ => Forward.ite (Forward.fail _ _) ?_
    refine (Forward.takeWhile _).bind fun content => Forward.current.bind fun next => ?_
    cases next with
    | none => exact Forward.fail _ _
    | some b =>
      exact (Forward.byte _).bind fun _ => Forward.ite
        (Forward.mark.bind fun _ => Forward.pure _) (Forward.fail _ _)

theorem forward_special : special.Forward :=
  Forward.mark.bind fun _ => (Forward.byte _).bind fun _ => Forward.ite
    ((Forward.takeWhile _).bind fun _ => (Forward.byte _).bind fun _ => Forward.ite
      (Forward.mark.bind fun _ => Forward.pure _) (Forward.fail _ _))
    (Forward.pure _)

theorem forward_separator {accepts : Reader Bool} (h : accepts.Forward) :
    (separator accepts).Forward :=
  h.bind fun _ => Forward.ite (forward_trivia.bind fun _ => Forward.pure _) (Forward.pure _)

theorem consumes_separator {accepts : Reader Bool} (h : accepts.Consumes id) :
    (separator accepts).Consumes id := by
  refine h.bind_left (fun _ => ?_) ?_
  · exact Forward.ite (forward_trivia.bind fun _ => Forward.pure _) (Forward.pure _)
  · intro value input outcome hrun hfound
    cases value with
    | true => rfl
    | false =>
      cases hrun
      exact hfound

section Levels

variable {inside : Reader (List (Definition Extent))}

theorem forward_bracketedWith (h : inside.Forward) (bracket : Bracket) :
    (bracketedWith inside bracket).Forward := by
  refine Forward.mark.bind fun start => (Forward.symbol _).bind fun opener => ?_
  cases opener with
  | none => exact Forward.pure _
  | some opener =>
    refine h.bind fun definitions => (Forward.symbol _).bind fun closer => ?_
    cases closer with
    | none => exact Forward.fail _ _
    | some closer => exact Forward.mark.bind fun _ => Forward.pure _

theorem forward_primaryWith (h : inside.Forward) : (primaryWith inside).Forward := by
  refine Forward.firstOf fun reader hmem => ?_
  simp only [List.mem_cons, List.not_mem_nil, or_false] at hmem
  rcases hmem with rfl | rfl | rfl | rfl | rfl | rfl
  · exact forward_bracketedWith h _
  · exact forward_bracketedWith h _
  · exact forward_bracketedWith h _
  · exact forward_identifier
  · exact forward_terminal
  · exact forward_special

theorem forward_factorWith (h : inside.Forward) : (factorWith inside).Forward := by
  refine Forward.mark.bind fun start => (Forward.takeWhile _).bind fun digits => ?_
  refine Forward.ite ((forward_primaryWith h).bind fun _ => Forward.pure _) ?_
  refine (Forward.convert _).bind fun count => ?_
  refine forward_trivia.bind fun _ => (Forward.byte _).bind fun _ => ?_
  refine Forward.ite ?_ (Forward.fail _ _)
  exact Forward.mark.bind fun _ => forward_trivia.bind fun _ =>
    (forward_primaryWith h).bind fun _ => Forward.pure _

theorem forward_termWith (h : inside.Forward) : (termWith inside).Forward := by
  refine Forward.mark.bind fun start => (forward_factorWith h).bind fun base => ?_
  cases base with
  | none => exact Forward.pure _
  | some base =>
    refine forward_trivia.bind fun _ => (Forward.byte _).bind fun _ => ?_
    refine Forward.ite ?_ (Forward.pure _)
    exact Forward.mark.bind fun _ => forward_trivia.bind fun _ =>
      (forward_factorWith h).bind fun _ => Forward.pure _

theorem forward_definitionWith (h : inside.Forward) : (definitionWith inside).Forward := by
  refine Forward.bind (Forward.separated ?_ (forward_separator (Forward.byte _)))
    fun _ => Forward.pure _
  exact (forward_termWith h).bind fun _ => forward_trivia.bind fun _ => Forward.pure _

theorem forward_definitionsWith (h : inside.Forward) : (definitionsWith inside).Forward := by
  refine forward_trivia.bind fun _ =>
    Forward.separated ?_ (forward_separator forward_definitionSeparator)
  exact (forward_definitionWith h).bind fun _ => forward_trivia.bind fun _ => Forward.pure _

end Levels

theorem forward_definitionsUpTo (levels : Nat) : (definitionsUpTo levels).Forward := by
  induction levels with
  | zero => exact Forward.pure []
  | succ levels ih => exact forward_definitionsWith ih

theorem forward_definitions : definitions.Forward :=
  Forward.of_attempt fun input => ⟨_, forward_definitionsUpTo (input.length + 1), rfl⟩

theorem forward_strayLexeme : strayLexeme.Forward := by
  refine Forward.check (Forward.firstOf fun reader hmem => ?_)
  simp only [List.mem_cons, List.not_mem_nil, or_false] at hmem
  rcases hmem with rfl | rfl
  · exact forward_special
  · exact forward_terminal

theorem forward_rule : rule.Forward := by
  refine forward_trivia.bind fun _ => Forward.mark.bind fun start =>
    forward_name.bind fun found => ?_
  cases found with
  | none => exact forward_strayLexeme.bind fun _ => Forward.fail _ _
  | some found =>
    refine (Forward.byte _).bind fun _ => Forward.ite ?_ (Forward.fail _ _)
    refine forward_definitions.bind fun _ => (Forward.byte _).bind fun _ => ?_
    exact Forward.ite (Forward.mark.bind fun _ => Forward.pure _) (Forward.fail _ _)

theorem forward_nextRule : nextRule.Forward :=
  forward_trivia.bind fun _ => Forward.current.bind fun _ =>
    Forward.ite (Forward.pure _) (forward_rule.bind fun _ => Forward.pure _)

end Ebnf.Reader
