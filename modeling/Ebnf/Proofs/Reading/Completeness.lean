import Ebnf.Proofs.Reading.Found
import Ebnf.Proofs.Reading.Production

/-!
# Productions that are spelled are found

The converse of what the readers ensure.  A production is found when what comes
behind it, after trivia, may follow it.  The first part says for each reader what
it does once the readers that it is made of have found their constructs; the second
part is the induction over spellings, in which every step is one of those.
-/

namespace Ebnf

open Byte

namespace Reader

open Scanning

theorem openers_find {bracket : Bracket} {opener : Bytes} (h : opener ∈ bracket.openers)
    (inside : Bytes) :
    bracket.openers.find? (fun s => s.isPrefixOf (opener ++ inside)) = some opener := by
  cases bracket with
  | optional => rcases Bracket.mem_openers_optional.1 h with rfl | rfl <;> rfl
  | repeated => rcases Bracket.mem_openers_repeated.1 h with rfl | rfl <;> rfl
  | grouped => obtain rfl := Bracket.mem_openers_grouped.1 h; rfl

theorem closers_find {bracket : Bracket} {closer : Bytes} (h : closer ∈ bracket.closers)
    (rest : Bytes) :
    bracket.closers.find? (fun s => s.isPrefixOf (closer ++ rest)) = some closer := by
  cases bracket with
  | optional => rcases Bracket.mem_closers_optional.1 h with rfl | rfl <;> rfl
  | repeated => rcases Bracket.mem_closers_repeated.1 h with rfl | rfl <;> rfl
  | grouped => obtain rfl := Bracket.mem_closers_grouped.1 h; rfl

variable [Runtime]

/-! ### Brackets -/

section Bracketed

variable {bracket : Bracket} {opener closer inside rest : Bytes}
  {contents : List (Definition Extent)} {comments : List (Comment Mark)}

theorem bracketed_run (hopener : opener ∈ bracket.openers)
    (hcloser : closer ∈ bracket.closers)
    (hinside : definitions.run inside = .ok ⟨contents, comments, closer ++ rest⟩) :
    (bracketed bracket).run (opener ++ inside) =
      .ok ⟨some (.bracketed ⟨(opener ++ inside).length, rest.length⟩ bracket contents),
        comments, rest⟩ := by
  simp only [Scanning.bracketed, Scanning.bracketedWith, scanning_entering, scanning_place,
    scanning_stop, scanning_symbol, scanning_fail]
  rw [run_mark_bind, run_bind_of_ok (symbol_run_some (openers_find hopener inside)),
    passing_nil]
  simp only
  rw [run_bind_of_ok hinside,
    run_bind_of_ok (symbol_run_some (closers_find hcloser rest)), passing_nil]
  simp only
  rw [run_mark_bind, run_pure, passing_ok, List.append_nil, Extent.between_eq]

theorem bracketed_run_none {input : Bytes}
    (h : ∀ opener ∈ bracket.openers, ¬opener <+: input) :
    (bracketed bracket).run input = .ok ⟨none, [], input⟩ := by
  simp only [Scanning.bracketed, Scanning.bracketedWith, scanning_entering, scanning_place,
    scanning_symbol]
  rw [run_mark_bind, run_bind_of_ok (symbol_run_none h), passing_nil]
  rfl

theorem primary_eq : primary = firstOf [bracketed .optional, bracketed .repeated,
    bracketed .grouped, identifier, terminal, special] := rfl

theorem primary_run_bracketed (hopener : opener ∈ bracket.openers)
    (hcloser : closer ∈ bracket.closers)
    (hclear : bracket = .grouped → inside.head? ≠ some solidus ∧ inside.head? ≠ some colon)
    (hinside : definitions.run inside = .ok ⟨contents, comments, closer ++ rest⟩) :
    primary.run (opener ++ inside) =
      .ok ⟨some (.bracketed ⟨(opener ++ inside).length, rest.length⟩ bracket contents),
        comments, rest⟩ := by
  have hrun := bracketed_run hopener hcloser hinside
  rw [primary_eq]
  cases bracket with
  | optional => exact firstOf_run_some hrun
  | repeated =>
    have hoptional : ∀ other ∈ Bracket.optional.openers, ¬other <+: opener ++ inside := by
      rcases Bracket.mem_openers_repeated.1 hopener with rfl | rfl <;>
        simp +decide [Bracket.openers]
    rw [firstOf_run_none (bracketed_run_none hoptional)]
    exact firstOf_run_some hrun
  | grouped =>
    obtain ⟨hsolidus, hcolon⟩ := hclear rfl
    obtain rfl := Bracket.mem_openers_grouped.1 hopener
    have hsecond : ∀ b, inside.head? ≠ some b →
        ¬[leftParenthesis, b] <+: [leftParenthesis] ++ inside := by
      rintro b hb ⟨more, hmore⟩
      obtain rfl := (List.cons.inj hmore).2
      exact hb rfl
    have hoptional : ∀ other ∈ Bracket.optional.openers,
        ¬other <+: [leftParenthesis] ++ inside := by
      intro other hother
      rcases Bracket.mem_openers_optional.1 hother with rfl | rfl
      · simp +decide
      · exact hsecond solidus hsolidus
    have hrepeated : ∀ other ∈ Bracket.repeated.openers,
        ¬other <+: [leftParenthesis] ++ inside := by
      intro other hother
      rcases Bracket.mem_openers_repeated.1 hother with rfl | rfl
      · simp +decide
      · exact hsecond colon hcolon
    rw [firstOf_run_none (bracketed_run_none hoptional),
      firstOf_run_none (bracketed_run_none hrepeated)]
    exact firstOf_run_some hrun

end Bracketed

/-! ### Primaries -/

/-- Only brackets begin with a bracket. -/
theorem primary_run_unbracketed {input : Bytes}
    (h : ∀ b, input.head? = some b →
      b ≠ leftSquareBracket ∧ b ≠ leftCurlyBracket ∧ b ≠ leftParenthesis) :
    primary.run input = (firstOf [identifier, terminal, special]).run input := by
  have habsent : ∀ bracket : Bracket, ∀ opener ∈ bracket.openers, ¬opener <+: input := by
    rintro bracket opener hopener ⟨more, rfl⟩
    obtain ⟨b, second, rfl, -⟩ := Bracket.exists_isOpening hopener
    obtain ⟨hsquare, hcurly, hparenthesis⟩ := h b rfl
    cases bracket with
    | optional =>
      rcases Bracket.mem_openers_optional.1 hopener with hopener | hopener
      · exact hsquare (List.cons.inj hopener).1
      · exact hparenthesis (List.cons.inj hopener).1
    | repeated =>
      rcases Bracket.mem_openers_repeated.1 hopener with hopener | hopener
      · exact hcurly (List.cons.inj hopener).1
      · exact hparenthesis (List.cons.inj hopener).1
    | grouped => exact hparenthesis (List.cons.inj (Bracket.mem_openers_grouped.1 hopener)).1
  rw [primary_eq, firstOf_run_none (bracketed_run_none (habsent .optional)),
    firstOf_run_none (bracketed_run_none (habsent .repeated)),
    firstOf_run_none (bracketed_run_none (habsent .grouped))]

theorem primary_run_identifier {input name stop rest : Bytes}
    {comments comments' : List (Comment Mark)}
    (h : SpellsName input name comments stop) (htrivia : SpellsTrivia stop comments' rest)
    (hsettled : Settled rest) (hmaximal : ∀ b, rest.head? = some b → ¬isWord b) :
    primary.run input =
      .ok ⟨some (.identifier ⟨input.length, stop.length⟩ name), comments ++ comments', rest⟩ := by
  have hhead : ∀ b, input.head? = some b →
      b ≠ leftSquareBracket ∧ b ≠ leftCurlyBracket ∧ b ≠ leftParenthesis := by
    obtain ⟨letter, hletter, hisLetter⟩ := h.head
    refine forall_head hletter ?_
    refine ⟨?_, ?_, ?_⟩ <;> rintro rfl <;> exact absurd hisLetter (by decide)
  rw [primary_run_unbracketed hhead]
  exact firstOf_run_some (identifier_run h htrivia hsettled hmaximal)

theorem primary_run_terminal {quote : UInt8} {content rest : Bytes}
    (hquote : quote = apostrophe ∨ quote = quotationMark) (hnonempty : content ≠ [])
    (hcontent : ∀ b ∈ content, isTerminal quote b) :
    primary.run (quote :: (content ++ quote :: rest)) =
      .ok ⟨some (.terminal ⟨(quote :: (content ++ quote :: rest)).length, rest.length⟩ content),
        [], rest⟩ := by
  have hhead : ∀ b, (quote :: (content ++ quote :: rest)).head? = some b →
      b ≠ leftSquareBracket ∧ b ≠ leftCurlyBracket ∧ b ≠ leftParenthesis := by
    refine forall_head rfl ?_
    rcases hquote with rfl | rfl <;> decide
  have hletter : ¬isLetter quote := by
    rcases hquote with rfl | rfl <;> decide
  have hsettled : Settled (quote :: (content ++ quote :: rest)) := by
    rcases hquote with rfl | rfl <;> exact .of_head rfl (by decide) (by decide)
  have hname : identifier.run (quote :: (content ++ quote :: rest)) =
      .ok ⟨none, [], quote :: (content ++ quote :: rest)⟩ :=
    identifier_run_none hsettled (by simpa using hletter)
  rw [primary_run_unbracketed hhead, firstOf_run_none hname]
  exact firstOf_run_some (terminal_run hquote hnonempty hcontent)

theorem primary_run_special {interior rest : Bytes} (hinterior : questionMark ∉ interior) :
    primary.run (questionMark :: (interior ++ questionMark :: rest)) =
      .ok ⟨some (.special
        ⟨(questionMark :: (interior ++ questionMark :: rest)).length, rest.length⟩
        (Utf8.text interior.trim)), [], rest⟩ := by
  have hname : identifier.run (questionMark :: (interior ++ questionMark :: rest)) =
      .ok ⟨none, [], questionMark :: (interior ++ questionMark :: rest)⟩ :=
    identifier_run_none (.of_head rfl (by decide) (by decide)) (forall_head rfl (by decide))
  have hquote : terminal.run (questionMark :: (interior ++ questionMark :: rest)) =
      .ok ⟨none, [], questionMark :: (interior ++ questionMark :: rest)⟩ :=
    terminal_run_none (forall_head rfl (by decide))
  rw [primary_run_unbracketed (forall_head rfl (by decide)), firstOf_run_none hname,
    firstOf_run_none hquote]
  exact firstOf_run_some (special_run hinterior)

theorem primary_run_none {input : Bytes} (hsettled : Settled input)
    (h : ∀ b, input.head? = some b → ¬isOpening b) :
    primary.run input = .ok ⟨none, [], input⟩ := by
  have hdifferent : ∀ {b c}, input.head? = some b → isOpening c → b ≠ c := by
    rintro b c hb hc rfl
    exact h b hb hc
  have hbracket : ∀ b, input.head? = some b →
      b ≠ leftSquareBracket ∧ b ≠ leftCurlyBracket ∧ b ≠ leftParenthesis :=
    fun b hb => ⟨hdifferent hb (by decide), hdifferent hb (by decide), hdifferent hb (by decide)⟩
  have hletter : ∀ b, input.head? = some b → ¬isLetter b :=
    fun b hb hletter => h b hb (isOpening_of_isLetter hletter)
  have hquote : ∀ b, input.head? = some b → ¬(b = apostrophe ∨ b = quotationMark) := by
    rintro b hb (rfl | rfl)
    · exact h _ hb (by decide)
    · exact h _ hb (by decide)
  have hquestion : input.head? ≠ some questionMark :=
    fun hhead => h _ hhead (by decide)
  rw [primary_run_unbracketed hbracket, firstOf_run_none (identifier_run_none hsettled hletter),
    firstOf_run_none (terminal_run_none hquote), firstOf_run_none (special_run_none hquestion)]
  rfl

/-! ### Factors and terms -/

theorem factor_eq : factor = (do
    let start ← mark
    let digits ← takeWhile isDigit
    if digits.isEmpty then
      return (← primary).map .primary
    else
      let count ← convert digits
      trivia
      if ← byte asterisk then
        let stop ← mark
        trivia
        let operand ← primary
        return some (.repetition
          ⟨start, (operand.map fun p => p.note.stop).getD stop⟩ count operand)
      else
        fail (.missingRepetitionSymbol count) start) := rfl

theorem term_eq : term = (do
    let start ← mark
    match ← factor with
    | none => return none
    | some base =>
      trivia
      if ← byte hyphen then
        let stop ← mark
        trivia
        let excluded ← factor
        return some (.exception
          ⟨start, (excluded.map fun x => x.note.stop).getD stop⟩ base excluded)
      else
        return some (.factor base)) := by
  refine bind_congr fun start => bind_congr fun base => ?_
  cases base <;> rfl

theorem factor_run_uncounted {input rest : Bytes} {value : Option (Primary Extent)}
    {comments : List (Comment Mark)} (hdigit : ∀ b, input.head? = some b → ¬isDigit b)
    (h : primary.run input = .ok ⟨value, comments, rest⟩) :
    factor.run input = .ok ⟨value.map .primary, comments, rest⟩ := by
  have hnone : (takeWhile isDigit).run input = .ok ⟨[], [], input⟩ := by
    change (takeWhile isDigit).run ([] ++ input) = _
    exact takeWhile_run (by simp) hdigit
  rw [factor_eq, run_mark_bind, run_bind_of_ok hnone, passing_nil, if_pos List.isEmpty_nil,
    run_bind_of_ok h, run_pure, passing_ok, List.append_nil]

/-- A count is found, with the operand that a primary behind it makes. -/
theorem factor_run_repetition {digits input middle start rest : Bytes}
    {count : Nat} {operand : Option (Primary Extent)}
    {comments₁ comments₂ comments₃ : List (Comment Mark)} (hcount : SpellsCount digits count)
    (hbefore : SpellsTrivia input comments₁ (asterisk :: middle))
    (hafter : SpellsTrivia middle comments₂ start) (hsettled : Settled start)
    (h : primary.run start = .ok ⟨operand, comments₃, rest⟩) :
    factor.run (digits ++ input) =
      .ok ⟨some (.repetition
        ⟨(digits ++ input).length, (operand.map fun p => p.note.stop).getD middle.length⟩
        count operand), comments₁ ++ (comments₂ ++ comments₃), rest⟩ := by
  have hasterisk : Settled (asterisk :: middle) := .of_head rfl (by decide) (by decide)
  have hvalue : digits.decimal = count := (decimal_eq_ofDigits digits).trans hcount.value.symm
  rw [factor_eq, run_mark_bind, run_bind_of_ok (takeWhile_run hcount.digit hbefore.not_isDigit),
    passing_nil, if_neg (by simpa using hcount.nonempty),
    run_bind_of_ok (convert_run hcount.converted _), passing_nil, hvalue,
    run_bind_of_ok (trivia_run_of_settled hbefore hasterisk), run_byte_bind_cons, run_mark_bind,
    run_bind_of_ok (trivia_run_of_settled hafter hsettled), run_bind_of_ok h, run_pure,
    passing_ok, passing_ok, passing_ok, List.append_nil]

theorem primary_run_delimited {input : Bytes} (h : Delimited input) :
    primary.run input = .ok ⟨none, [], input⟩ :=
  primary_run_none h.settled h.not_isOpening

theorem factor_run_delimited {input : Bytes} (h : Delimited input) :
    factor.run input = .ok ⟨none, [], input⟩ :=
  factor_run_uncounted h.not_isDigit (primary_run_delimited h)

theorem term_run_delimited {input : Bytes} (h : Delimited input) :
    term.run input = .ok ⟨none, [], input⟩ := by
  rw [term_eq, run_mark_bind, run_bind_of_ok (factor_run_delimited h), passing_nil, run_pure]

theorem term_run_factor {input rest : Bytes} {x : Factor Extent}
    {comments : List (Comment Mark)} (h : factor.Finds input x comments rest)
    (hsettled : Settled rest) (hhyphen : rest.head? ≠ some hyphen) :
    term.run input = .ok ⟨some (.factor x), comments, rest⟩ := by
  obtain ⟨comments₁, comments₂, middle, hrun, htrivia, rfl⟩ := h
  rw [term_eq, run_mark_bind, run_bind_of_ok hrun]
  simp only
  rw [run_bind_of_ok (trivia_run_of_settled htrivia hsettled), run_byte_bind_of_ne _ _ hhyphen,
    run_pure, passing_ok, passing_ok, List.append_nil]

theorem term_run_exception {input middle start rest : Bytes} {base : Factor Extent}
    {excluded : Option (Factor Extent)} {comments₁ comments₂ comments₃ : List (Comment Mark)}
    (hbase : factor.Finds input base comments₁ (hyphen :: middle))
    (hafter : SpellsTrivia middle comments₂ start) (hsettled : Settled start)
    (h : factor.run start = .ok ⟨excluded, comments₃, rest⟩) :
    term.run input =
      .ok ⟨some (.exception
        ⟨input.length, (excluded.map fun x => x.note.stop).getD middle.length⟩ base excluded),
        comments₁ ++ (comments₂ ++ comments₃), rest⟩ := by
  have hhyphen : Settled (hyphen :: middle) := .of_head rfl (by decide) (by decide)
  obtain ⟨comments₀, comments₁, stop, hrun, htrivia, rfl⟩ := hbase
  rw [term_eq, run_mark_bind, run_bind_of_ok hrun]
  simp only
  rw [run_bind_of_ok (trivia_run_of_settled htrivia hhyphen), run_byte_bind_cons, run_mark_bind,
    run_bind_of_ok (trivia_run_of_settled hafter hsettled), run_bind_of_ok h, run_pure]
  simp only [passing_ok, List.append_nil, List.append_assoc]

/-! ### Slots and chains -/

theorem slot_run_empty {input rest : Bytes} {comments : List (Comment Mark)}
    (htrivia : SpellsTrivia input comments rest) (hrest : Delimited rest) :
    (afterTrivia (beforeTrivia term)).run input = .ok ⟨none, comments, rest⟩ := by
  unfold afterTrivia beforeTrivia
  rw [run_bind_of_ok (trivia_run_of_settled htrivia hrest.settled),
    run_bind_of_ok (term_run_delimited hrest), passing_nil,
    run_bind_of_ok (trivia_run_settled hrest.settled), run_pure, passing_ok, passing_ok,
    List.append_nil, List.append_nil]

theorem slot_run_filled {input start rest : Bytes} {t : Term Extent}
    {comments comments' : List (Comment Mark)}
    (hbefore : SpellsTrivia input comments start) (hstart : Settled start)
    (h : term.Finds start t comments' rest) (hrest : Settled rest) :
    (afterTrivia (beforeTrivia term)).run input =
      .ok ⟨some t, comments ++ comments', rest⟩ := by
  obtain ⟨comments₁, comments₂, middle, hrun, htrivia, rfl⟩ := h
  unfold afterTrivia beforeTrivia
  rw [run_bind_of_ok (trivia_run_of_settled hbefore hstart), run_bind_of_ok hrun,
    run_bind_of_ok (trivia_run_of_settled htrivia hrest), run_pure]
  simp only [passing_ok, List.append_nil]

section Separated

variable {item : Reader (Option α)} {accepts : Reader Bool} (hforward : item.Forward)
  (hconsumes : accepts.Consumes id)

include hforward hconsumes

theorem afterTrivia_separated_eq :
    afterTrivia (separated item (separator accepts)) =
      afterTrivia item >>= fun first => do
        if ← separator accepts then
          return first.toList ++ (← separated item (separator accepts))
        else
          return first.toList := by
  conv => lhs; rw [separated_eq hforward (consumes_separator hconsumes)]
  simp only [afterTrivia, bind_assoc]

variable {input middle next rest : Bytes} {value : Option α} {values : List α}
  {comments comments' : List (Comment Mark)}

theorem separated_run_last
    (hitem : (afterTrivia item).run input = .ok ⟨value, comments, rest⟩)
    (hstop : accepts.run rest = .ok ⟨false, [], rest⟩) :
    (afterTrivia (separated item (separator accepts))).run input =
      .ok ⟨value.toList, comments, rest⟩ := by
  have hseparator : (separator accepts).run rest = .ok ⟨false, [], rest⟩ := by
    unfold separator Scanning.separator
    rw [run_bind_of_ok hstop, passing_nil, if_neg (by simp), run_pure]
  rw [afterTrivia_separated_eq hforward hconsumes, run_bind_of_ok hitem,
    run_bind_of_ok hseparator, passing_nil, if_neg (by simp), run_pure, passing_ok,
    List.append_nil]

theorem separated_run_more
    (hitem : (afterTrivia item).run input = .ok ⟨value, comments, middle⟩)
    (hsymbol : accepts.run middle = .ok ⟨true, [], next⟩)
    (hmore : (afterTrivia (separated item (separator accepts))).run next =
      .ok ⟨values, comments', rest⟩) :
    (afterTrivia (separated item (separator accepts))).run input =
      .ok ⟨value.toList ++ values, comments ++ comments', rest⟩ := by
  -- The trivia behind a separator is read with it and counts as part of the next slot.
  obtain ⟨⟨_, comments₁, start⟩, ⟨_, comments₂, _⟩, htrivia, hrun, heq⟩ :=
    run_bind_eq_ok.1 hmore
  cases heq
  have hseparator : (separator accepts).run middle = .ok ⟨true, comments₁, start⟩ := by
    simp only [Scanning.separator, scanning_trivia]
    rw [run_bind_of_ok hsymbol, passing_nil, if_pos rfl, run_bind_of_ok htrivia, run_pure,
      passing_ok, List.append_nil]
  rw [afterTrivia_separated_eq hforward hconsumes, run_bind_of_ok hitem,
    run_bind_of_ok hseparator, if_pos rfl, run_bind_of_ok hrun, run_pure]
  simp only [passing_ok, List.append_nil]

end Separated

theorem definition_run {input rest : Bytes} {terms : List (Term Extent)}
    {comments : List (Comment Mark)}
    (h : (afterTrivia (separated (beforeTrivia term) (separator (byte comma)))).run input =
      .ok ⟨terms, comments, rest⟩) (hrest : Settled rest) :
    (afterTrivia (beforeTrivia definition)).run input =
      .ok ⟨concatenate terms, comments, rest⟩ := by
  have heq : afterTrivia (beforeTrivia definition) =
      afterTrivia (separated (beforeTrivia term) (separator (byte comma))) >>= fun terms => do
        trivia
        return concatenate terms := by
    rw [definition_eq]
    simp only [afterTrivia, beforeTrivia, bind_assoc, pure_bind]
  rw [heq, run_bind_of_ok h, run_bind_of_ok (trivia_run_settled hrest), run_pure, passing_ok,
    passing_ok, List.append_nil, List.append_nil]

omit [Runtime] in
theorem definitionSeparator_run {input rest : Bytes} (h : SpellsSeparator input rest) :
    definitionSeparator.run input = .ok ⟨true, [], rest⟩ := by
  have hstarts : startsWithSeparator input = true := by
    obtain ⟨hsymbol, hclear⟩ := h
    unfold startsWithSeparator
    split
    · next heq =>
      obtain ⟨rfl, rfl⟩ := List.cons.inj heq
      exact (hclear rfl rfl).elim
    · next heq =>
      obtain ⟨rfl, rfl⟩ := List.cons.inj heq
      simpa [or_assoc] using hsymbol
    · next heq => cases heq
  have htail : input.tail = rest := by
    cases h
    rfl
  rw [definitionSeparator_run_true hstarts, htail]

omit [Runtime] in
theorem definitionSeparator_run_none {input : Bytes}
    (h : ∀ next, ¬SpellsSeparator input next) :
    definitionSeparator.run input = .ok ⟨false, [], input⟩ := by
  apply definitionSeparator_run_false
  intro hstarts
  exact h _ (spells_of_startsWithSeparator hstarts)

end Reader

/-! ### The induction over spellings -/

open Reader
open Scanning (separated)

variable [Runtime]

mutual

theorem SpellsPrimary.found {input stop rest : Bytes} {p : Primary Extent}
    {comments comments' : List (Comment Mark)} (h : SpellsPrimary input p comments stop)
    (htrivia : SpellsTrivia stop comments' rest) (hrest : Delimited rest) :
    primary.Finds input p (comments ++ comments') rest := by
  match h with
  | .bracketed hopener hcloser hclear hdefinitions =>
    have hinside := hdefinitions.run (FollowsDefinitions.of_closer hcloser _)
    refine .of_run (primary_run_bracketed hopener hcloser ?_ hinside) htrivia
    rintro rfl
    exact ⟨hclear rfl, (hdefinitions.plain_of_grouped hcloser).2⟩
  | .identifier hname =>
    exact .of_run_all (primary_run_identifier hname htrivia hrest.settled hrest.not_isWord)
  | .terminal hquote hnonempty hcontent hinput =>
    subst hinput
    exact .of_run (primary_run_terminal hquote hnonempty hcontent) htrivia
  | .special hinterior hinput =>
    subst hinput
    exact .of_run (primary_run_special hinterior) htrivia

theorem SpellsFactor.found {input stop rest : Bytes} {x : Factor Extent}
    {comments comments' : List (Comment Mark)} (h : SpellsFactor input x comments stop)
    (htrivia : SpellsTrivia stop comments' rest) (hrest : Delimited rest) :
    factor.Finds input x (comments ++ comments') rest := by
  match h with
  | .primary hprimary =>
    have hdigit : ∀ b, input.head? = some b → ¬isDigit b := by
      obtain ⟨b, hb, hopening⟩ := hprimary.head
      exact forall_head hb (not_isDigit_of_isOpening hopening)
    obtain ⟨comments₁, comments₂, middle, hrun, hmore, heq⟩ := hprimary.found htrivia hrest
    rw [heq]
    exact .of_run (factor_run_uncounted hdigit hrun) hmore
  | .repetition hcount hbefore =>
    have hrun := factor_run_repetition hcount hbefore htrivia hrest.settled
      (primary_run_delimited hrest)
    simp only [List.append_nil, Option.map_none, Option.getD_none] at hrun
    exact .of_run_all hrun
  | .repetitionOf hcount hbefore hafter hoperand =>
    obtain ⟨comments₄, comments₅, middle, hrun, hmore, heq⟩ := hoperand.found htrivia hrest
    have hfactor := factor_run_repetition hcount hbefore hafter hoperand.settled hrun
    have hfound := Finds.of_run hfactor hmore
    simp only [List.append_assoc, ← heq, Option.map_some, Option.getD_some,
      hoperand.note] at hfound ⊢
    exact hfound

theorem SpellsTerm.found {input stop rest : Bytes} {t : Term Extent}
    {comments comments' : List (Comment Mark)} (h : SpellsTerm input t comments stop)
    (htrivia : SpellsTrivia stop comments' rest) (hrest : FollowsTerm rest) :
    term.Finds input t (comments ++ comments') rest := by
  match h with
  | .factor hfactor =>
    have hfound := hfactor.found htrivia hrest.1
    exact .of_run_all (term_run_factor hfound hrest.1.settled hrest.2)
  | .exception hbase hbefore =>
    have hfound := hbase.found hbefore ⟨hyphen, rfl, by decide⟩
    have hrun := term_run_exception hfound htrivia hrest.1.settled
      (factor_run_delimited hrest.1)
    simp only [List.append_nil, Option.map_none, Option.getD_none] at hrun
    exact .of_run_all hrun
  | .exceptionOf hbase hbefore hafter hexcluded =>
    have hfound := hbase.found hbefore ⟨hyphen, rfl, by decide⟩
    obtain ⟨comments₄, comments₅, middle, hrun, hmore, heq⟩ :=
      hexcluded.found htrivia hrest.1
    have hterm := term_run_exception hfound hafter hexcluded.settled hrun
    have hfound := Finds.of_run hterm hmore
    simp only [List.append_assoc, ← heq, Option.map_some, Option.getD_some,
      hexcluded.note] at hfound ⊢
    exact hfound

theorem SpellsSlot.run {input rest : Bytes} {t : Option (Term Extent)}
    {comments : List (Comment Mark)} (h : SpellsSlot SpellsTerm input t comments rest)
    (hrest : FollowsTerm rest) :
    (afterTrivia (beforeTrivia term)).run input = .ok ⟨t, comments, rest⟩ := by
  match h with
  | .empty htrivia => exact slot_run_empty htrivia hrest.1
  | .filled hbefore hterm hafter =>
    exact slot_run_filled hbefore hterm.settled (hterm.found hafter hrest) hrest.1.settled

theorem SpellsChain.run_terms {input rest : Bytes} {terms : List (Term Extent)}
    {comments : List (Comment Mark)}
    (h : SpellsChain (SpellsSlot SpellsTerm) SpellsComma input terms comments rest)
    (hrest : FollowsDefinition rest) :
    (afterTrivia (separated (beforeTrivia term) (separator (byte comma)))).run input =
      .ok ⟨terms, comments, rest⟩ := by
  match h with
  | .last hslot =>
    exact separated_run_last forward_beforeTrivia_term (Consumes.byte comma)
      (hslot.run hrest.1) (byte_run_of_ne hrest.2)
  | .more hslot hcomma hmore =>
    have hitem := hslot.run hcomma.follows
    obtain ⟨⟩ := hcomma
    exact separated_run_more forward_beforeTrivia_term (Consumes.byte comma)
      hitem (byte_run_cons comma _) (hmore.run_terms hrest)

theorem SpellsDefinition.run {input rest : Bytes} {d : Option (Definition Extent)}
    {comments : List (Comment Mark)} (h : SpellsDefinition input d comments rest)
    (hrest : FollowsDefinition rest) :
    (afterTrivia (beforeTrivia definition)).run input = .ok ⟨d, comments, rest⟩ := by
  match h with
  | .nothing hterms => exact definition_run (hterms.run_terms hrest) hrest.1.1.settled
  | .term hterms => exact definition_run (hterms.run_terms hrest) hrest.1.1.settled
  | .concatenation hterms => exact definition_run (hterms.run_terms hrest) hrest.1.1.settled

theorem SpellsChain.run_definitions {input rest : Bytes}
    {contents : List (Definition Extent)} {comments : List (Comment Mark)}
    (h : SpellsChain SpellsDefinition SpellsSeparator input contents comments rest)
    (hrest : FollowsDefinitions rest) :
    definitions.run input = .ok ⟨contents, comments, rest⟩ := by
  rw [definitions_eq_afterTrivia]
  match h with
  | .last hdefinition =>
    exact separated_run_last forward_beforeTrivia_definition consumes_definitionSeparator
      (hdefinition.run hrest.1) (definitionSeparator_run_none hrest.2)
  | .more hdefinition hseparator hmore =>
    have hrun := hmore.run_definitions hrest
    rw [definitions_eq_afterTrivia] at hrun
    exact separated_run_more forward_beforeTrivia_definition consumes_definitionSeparator
      (hdefinition.run hseparator.follows) (definitionSeparator_run hseparator) hrun

theorem SpellsDefinitions.run {input rest : Bytes} {contents : List (Definition Extent)}
    {comments : List (Comment Mark)} (h : SpellsDefinitions input contents comments rest)
    (hrest : FollowsDefinitions rest) :
    definitions.run input = .ok ⟨contents, comments, rest⟩ := by
  match h with
  | .mk hdefinitions => exact hdefinitions.run_definitions hrest

end

end Ebnf
