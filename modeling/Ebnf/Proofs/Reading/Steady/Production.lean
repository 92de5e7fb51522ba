import Ebnf.Reader.Backtracking
import Ebnf.Proofs.Reading.Document
import Ebnf.Proofs.Reading.Steady.Lexeme

/-!
# Productions with more bytes behind them

Every production is entered where no trivia comes next, and there its symbols decide
with two bytes at most.  The inside of a bracket is shorter than the bracket, so the
induction over the nesting of brackets is again one on the length of the input.  For a
document this says that an error which shows two bytes before the end, or earlier, is
still the first error with any bytes behind.
-/

namespace Ebnf

open Byte

theorem Bracket.length_opener {bracket : Bracket} :
    ∀ opener ∈ bracket.openers, opener.length ≤ 2 := by
  cases bracket <;> decide

theorem Bracket.length_closer {bracket : Bracket} :
    ∀ closer ∈ bracket.closers, closer.length ≤ 2 := by
  cases bracket <;> decide

namespace Reader

open Scanning

/-! ### Sequences -/

theorem startsWithSeparator_cons {b : UInt8} {rest : Bytes}
    (h : b = solidus → rest.head? ≠ some rightParenthesis) :
    startsWithSeparator (b :: rest) =
      (b == verticalLine || b == solidus || b == exclamationMark) := by
  rw [startsWithSeparator]
  rintro next hb rfl
  exact h hb rfl

theorem startsWithSeparator_append {input : Bytes} (htwo : 2 ≤ input.length) (more : Bytes) :
    startsWithSeparator (input ++ more) = startsWithSeparator input := by
  match input with
  | [] => simp at htwo
  | [_] => simp at htwo
  | first :: second :: rest =>
    by_cases hcloses : first = solidus ∧ second = rightParenthesis
    · obtain ⟨rfl, rfl⟩ := hcloses
      rfl
    · have hclear : first = solidus → some second ≠ some rightParenthesis := by
        rintro hfirst hsecond
        exact hcloses ⟨hfirst, Option.some.inj hsecond⟩
      rw [startsWithSeparator_cons hclear]
      exact startsWithSeparator_cons hclear

variable {more : Bytes}

theorem steady_definitionSeparator (input : Bytes) :
    Steady more id definitionSeparator definitionSeparator input := by
  by_cases hstarts : startsWithSeparator input
  · have hrun := definitionSeparator_run_true hstarts
    constructor
    · rw [hrun]
      exact (List.tail_suffix input).length_le
    · rw [hrun]
      intro htwo
      have hlength := Nat.le_trans htwo (List.tail_suffix input).length_le
      have hnonempty : input ≠ [] :=
        List.ne_nil_of_length_pos (Nat.lt_of_lt_of_le Nat.two_pos hlength)
      rw [← startsWithSeparator_append hlength more] at hstarts
      rw [definitionSeparator_run_true hstarts, List.tail_append_of_ne_nil hnonempty]
      rfl
  · apply Steady.of_still (definitionSeparator_run_false hstarts)
    intro htwo
    rw [← startsWithSeparator_append htwo more] at hstarts
    exact definitionSeparator_run_false hstarts

theorem steady_beforeTrivia {reader : Reader α} {carry : α → α} {input : Bytes}
    (h : Steady more carry reader reader input) :
    Steady more carry (beforeTrivia reader) (beforeTrivia reader) input := by
  apply h.bind
  intro _ _ _ _ _
  apply Steady.bind_trivia
  intro _ _ _
  exact .pure rfl

theorem concatenate_shift (count : Nat) (terms : List (Term Extent)) :
    (concatenate terms).map (Definition.map (Extent.shift count)) =
      concatenate (terms.map (Term.map (Extent.shift count))) := by
  match terms with
  | [] => rfl
  | [_] => rfl
  | first :: second :: more =>
    have hextent := concatenation_map (· + count) first second more
    simp only [Term.mapAll_eq] at hextent
    simp only [concatenate, Option.map_some, Definition.map, List.map_cons, Term.mapAll_eq]
    exact congrArg (fun extent => some (Definition.concatenation extent _ _ _)) hextent

variable [Runtime]

theorem steady_separator {accepts : Reader Bool}
    (haccepts : ∀ input, Steady more id accepts accepts input) (input : Bytes) :
    Steady more id (separator accepts) (separator accepts) input := by
  apply (haccepts input).bind
  intro found _ _ _ _
  cases found with
  | true =>
    apply Steady.bind_trivia
    intro _ _ _
    exact .pure rfl
  | false => exact .pure rfl

theorem steady_separator_comma (input : Bytes) :
    Steady more id (separator (byte comma)) (separator (byte comma)) input := by
  apply Steady.bind_byte
  · intro _ _
    apply Steady.bind_trivia
    intro _ _ _
    exact .pure rfl
  · intro _
    exact .pure rfl

theorem Steady.separated {item : Reader (Option α)} {accepts : Reader Bool} {carry : α → α}
    {bound : Nat} (hforward : item.Forward) (hconsumes : accepts.Consumes id)
    (hseparator : ∀ input, Steady more id (separator accepts) (separator accepts) input)
    (hitem : ∀ {input}, input.length ≤ bound → Settled input →
      Steady more (Option.map carry) item item input)
    {input : Bytes} (hle : input.length ≤ bound) (hsettled : Settled input) :
    Steady more (List.map carry) (Scanning.separated item (separator accepts))
      (Scanning.separated item (separator accepts)) input := by
  have hconsumes := consumes_separator hconsumes
  have htoList : ∀ value : Option α, value.toList.map carry = (value.map carry).toList := by
    intro value
    cases value <;> rfl
  induction hlength : input.length using Nat.strongRecOn generalizing input with
  | _ length ih =>
    rw [separated_eq hforward hconsumes]
    apply (hitem hle hsettled).bind
    intro value _ middle _ hmiddle
    apply (hseparator middle).bind
    intro found _ rest hrun _
    cases found with
    | false => exact .pure (htoList value)
    | true =>
      have hshort : rest.length < middle.length := hconsumes.shorter hrun rfl
      have hrest : rest.length < input.length := Nat.lt_of_lt_of_le hshort hmiddle
      have hmore := ih rest.length (hlength ▸ hrest) (Nat.le_trans (Nat.le_of_lt hrest) hle)
        (settled_of_separator hrun) rfl
      apply hmore.bind_pure
      intro values
      rw [List.map_append, htoList]

/-! ### Productions -/

/-- A bracket that is not opened leaves its input. -/
theorem bracketed_rest_of_none {bracket : Bracket} {input rest : Bytes}
    {comments : List (Comment Mark)}
    (h : (bracketed bracket).run input = .ok ⟨none, comments, rest⟩) : rest = input :=
  ((still_bracketedWith definitions bracket).still h rfl).2

section Productions

variable {bound : Nat}
  (hinside : ∀ {input : Bytes}, input.length < bound →
    Steady more (Definition.mapAll (Extent.shift more.length)) definitions definitions input)

include hinside

theorem steady_bracketed {input : Bytes} (hle : input.length ≤ bound) (bracket : Bracket) :
    Steady more (Option.map (Primary.map (Extent.shift more.length))) (bracketed bracket)
      (bracketed bracket) input := by
  apply Steady.bind_mark
  apply Steady.bind_symbol Bracket.length_opener
  · intro opener inside hopener hinput
    have hnonempty : opener ≠ [] := fun hempty => openers_nonempty bracket (hempty ▸ hopener)
    have hshort : inside.length < bound := by
      have hpos := List.length_pos_iff.2 hnonempty
      rw [hinput, List.length_append] at hle
      omega
    apply (hinside hshort).bind
    intro definitions _ stop _ _
    apply Steady.bind_symbol Bracket.length_closer
    · intro closer rest _ _
      apply Steady.bind_mark
      exact .pure rfl
    · exact .fail _ _
  · exact .pure rfl

theorem steady_primary {input : Bytes} (hle : input.length ≤ bound)
    (hsettled : Settled input) :
    Steady more (Option.map (Primary.map (Extent.shift more.length))) primary primary input := by
  rw [primary_eq]
  apply Steady.firstOf_cons (steady_bracketed hinside hle .optional)
  intro _ _ hoptional
  obtain rfl := bracketed_rest_of_none hoptional
  apply Steady.firstOf_cons (steady_bracketed hinside hle .repeated)
  intro _ _ hrepeated
  obtain rfl := bracketed_rest_of_none hrepeated
  apply Steady.firstOf_cons (steady_bracketed hinside hle .grouped)
  intro _ _ hgrouped
  obtain rfl := bracketed_rest_of_none hgrouped
  apply Steady.firstOf_cons (steady_identifier hsettled)
  intro _ _ _
  apply Steady.firstOf_cons (steady_terminal _)
  intro _ _ _
  apply Steady.firstOf_cons (steady_special _)
  intro _ _ _
  exact .firstOf_nil

theorem steady_factor {input : Bytes} (hle : input.length ≤ bound)
    (hsettled : Settled input) :
    Steady more (Option.map (Factor.map (Extent.shift more.length))) factor factor input := by
  rw [factor_eq]
  apply Steady.bind_mark
  apply Steady.bind_takeWhile
  intro digits middle hdigits
  have hmiddle : middle.length ≤ bound := by
    rw [hdigits, List.length_append] at hle
    omega
  apply Steady.ite
  · intro hempty
    obtain rfl := List.isEmpty_iff.1 hempty
    obtain rfl : input = middle := hdigits
    apply (steady_primary hinside hle hsettled).bind_pure
    intro value
    cases value <;> rfl
  · intro _
    apply (Steady.convert digits).bind
    intro count _ _ _ hbehind
    apply Steady.bind_trivia
    intro stop hstop _
    apply Steady.bind_byte
    · rintro next rfl
      apply Steady.bind_mark
      apply Steady.bind_trivia
      intro start hstart hsettled
      have hstart : start.length ≤ bound := by
        rw [List.length_cons] at hstop
        omega
      apply (steady_primary hinside hstart hsettled).bind_pure
      intro operand
      cases operand with
      | none => rfl
      | some p =>
        simp only [Option.map_some, Factor.map, Option.getD_some, p.note_map, Extent.shift, id]
    · intro _
      exact .fail _ _

theorem steady_term {input : Bytes} (hle : input.length ≤ bound) (hsettled : Settled input) :
    Steady more (Option.map (Term.map (Extent.shift more.length))) term term input := by
  rw [term_eq]
  apply Steady.bind_mark
  apply (steady_factor hinside hle hsettled).bind_option
  · intro _ _ _ _
    exact .pure rfl
  · intro base _ middle _ hmiddle
    apply Steady.bind_trivia
    intro stop hstop _
    apply Steady.bind_byte
    · rintro next rfl
      apply Steady.bind_mark
      apply Steady.bind_trivia
      intro start hstart hsettled
      have hstart : start.length ≤ bound := by
        rw [List.length_cons] at hstop
        omega
      apply (steady_factor hinside hstart hsettled).bind_pure
      intro excluded
      cases excluded with
      | none => rfl
      | some x =>
        simp only [Option.map_some, Term.map, Option.getD_some, x.note_map, Extent.shift]
    · intro _
      exact .pure rfl

theorem steady_definition {input : Bytes} (hle : input.length ≤ bound)
    (hsettled : Settled input) :
    Steady more (Option.map (Definition.map (Extent.shift more.length))) definition definition
      input := by
  rw [definition_eq]
  have hterms : Steady more (List.map (Term.map (Extent.shift more.length)))
      (separated (beforeTrivia term) (separator (byte comma)))
      (separated (beforeTrivia term) (separator (byte comma))) input := by
    apply Steady.separated forward_beforeTrivia_term (Consumes.byte comma)
      steady_separator_comma _ hle hsettled
    intro input hle hsettled
    exact steady_beforeTrivia (steady_term hinside hle hsettled)
  exact hterms.bind_pure (concatenate_shift more.length)

theorem steady_definitions_of_inside {input : Bytes} (hle : input.length ≤ bound) :
    Steady more (Definition.mapAll (Extent.shift more.length)) definitions definitions
      input := by
  have hcarry : Definition.mapAll (Extent.shift more.length) =
      List.map (Definition.map (Extent.shift more.length)) :=
    funext (Definition.mapAll_eq _)
  rw [definitions_eq_afterTrivia, hcarry]
  apply Steady.bind_trivia
  intro start hstart hsettled
  have hstart := Nat.le_trans hstart hle
  apply Steady.separated forward_beforeTrivia_definition consumes_definitionSeparator
    (steady_separator steady_definitionSeparator) _ hstart hsettled
  intro input hle hsettled
  exact steady_beforeTrivia (steady_definition hinside hle hsettled)

end Productions

theorem steady_definitions (input : Bytes) :
    Steady more (Definition.mapAll (Extent.shift more.length)) definitions definitions
      input := by
  induction hlength : input.length using Nat.strongRecOn generalizing input with
  | _ length ih =>
    apply steady_definitions_of_inside _ (Nat.le_refl _)
    intro inside hshort
    exact ih inside.length (hlength ▸ hshort) inside rfl

/-! ### Rules and documents -/

theorem steady_rule (input : Bytes) :
    Steady more (Rule.map (Extent.shift more.length)) rule rule input := by
  apply Steady.bind_trivia
  intro start _ hsettled
  apply Steady.bind_mark
  apply (steady_name hsettled).bind_option
  · intro _ rest _ _
    apply (steady_strayLexeme rest).bind
    intro _ _ _ _ _
    exact .fail _ _
  · intro name _ middle _ _
    apply Steady.bind_byte
    · intro body _
      apply (steady_definitions body).bind
      intro definitions _ stop _ _
      apply Steady.bind_byte
      · intro rest _
        apply Steady.bind_mark
        apply Steady.pure
        rw [Definition.mapAll_eq]
        rfl
      · intro _
        exact .fail _ _
    · intro _
      exact .fail _ _

theorem steady_nextRule (input : Bytes) :
    Steady more (Option.map (Rule.map (Extent.shift more.length))) nextRule nextRule input := by
  apply Steady.bind_trivia
  intro start _ _
  apply Steady.bind_current
  apply Steady.ite
  · intro _
    exact .pure rfl
  · intro _
    exact (steady_rule start).bind_pure fun _ => rfl

/-- An error that shows two bytes before the end or earlier is the first one whatever
comes behind. -/
theorem document_append_of_error (more : Bytes) {input : Bytes} {fault : Fault Mark}
    (h : (document input).result = .error fault) :
    fault.stop ≤ input.length ∧ (2 ≤ fault.stop →
      (document (input ++ more)).result = .error (fault.shift more.length)) := by
  induction hlength : input.length using Nat.strongRecOn generalizing input with
  | _ length ih =>
    subst hlength
    have hsteady : Steady more _ nextRule nextRule input := steady_nextRule input
    cases hrun : nextRule.run input with
    | error found =>
      rw [document_of_error hrun] at h
      obtain rfl := Except.error.inj h
      have hinside := hsteady.inside
      have hsame := hsteady.same
      rw [hrun] at hinside hsame
      exact ⟨hinside, fun htwo => document_of_error (hsame htwo)⟩
    | ok outcome =>
      rcases outcome with ⟨value, comments, rest⟩
      cases value with
      | none =>
        rw [document_of_none hrun] at h
        cases h
      | some r =>
        obtain ⟨hle, hsame⟩ := hsteady.of_ok hrun
        rw [document_of_some hrun, Reading.result_behind] at h
        cases hrest : (document rest).result with
        | ok g =>
          rw [hrest] at h
          cases h
        | error found =>
          rw [hrest] at h
          obtain rfl := Except.error.inj h
          obtain ⟨hinside, hmore⟩ := ih rest.length (nextRule_shorter hrun) hrest rfl
          refine ⟨Nat.le_trans hinside hle, fun htwo => ?_⟩
          have hnext := hsame (Nat.le_trans htwo hinside)
          rw [document_of_some hnext, Reading.result_behind, hmore htwo]
          rfl

end Reader

end Ebnf
