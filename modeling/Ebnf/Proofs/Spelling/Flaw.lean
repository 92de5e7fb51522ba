import Ebnf.Proofs.Spelling.Comments
import Ebnf.Proofs.Spelling.Defect
import Ebnf.Proofs.Spelling.Extend
import Ebnf.Report
import Mathlib.Logic.Relation

/-!
# Where defects lie

A defect by itself says what is wrong at a site, but any end of a source may be called a
site, also one in the middle of a comment.  A flaw is a defect at a place that is reached
from the beginning of the source over whole lexemes, and a failure is either a flaw or a
rule that is broken as such, which then stands behind a document of whole rules.

Lexemes are coarser than the symbols of the notation: what counts is only that comments
and quoted lexemes are not entered.  Which lexeme comes next is decided by the bytes, and
so no lexeme that begins before a place so reached goes on behind it.
-/

namespace Ebnf

open Byte Relation

/-- What comes next: a comment, a stretch between two equal quotes or question marks, or a
byte that begins neither. -/
inductive Lexeme : Bytes → Bytes → Prop
  | byte (hquoting : ¬isQuoting b) (hopen : ¬[leftParenthesis, asterisk] <+: b :: rest) :
      Lexeme (b :: rest) rest
  | quoted (hquoting : isQuoting quote) (hcontent : quote ∉ content) :
      Lexeme (quote :: (content ++ quote :: rest)) rest
  | comment (hcomment : SpellsComment input k rest) : Lexeme input rest

/-- From one place to another over whole lexemes. -/
def Lexes : Bytes → Bytes → Prop :=
  ReflTransGen Lexeme

/-- A place that is reached over whole lexemes, with no letter or digit directly before
it. -/
structure Entry (source place : Bytes) : Prop where
  lexes : Lexes source place
  parted : place = source ∨ ∃ b, ¬isWord b ∧ b :: place <:+ source

/-- An entry with no trivia ahead, where a construct may begin. -/
structure Opening (source place : Bytes) : Prop extends Entry source place where
  settled : Settled place

/-- The causes that lie in a construct below the level of rules. -/
def Cause.inConstruct : Cause → Bool
  | unterminatedSpecial | emptyTerminal | unterminatedTerminal | invalidTerminalByte _
  | missingRepetitionSymbol _ | unclosedBracket .. => true
  | _ => false

/-! ### Lexemes -/

theorem SpellsComment.opener {input rest : Bytes} {k : Comment Mark}
    (h : SpellsComment input k rest) : [leftParenthesis, asterisk] <+: input := by
  obtain ⟨-, -, -⟩ := h
  exact ⟨_, rfl⟩

theorem SpellsComment.rest_unique {input rest rest' : Bytes} {k k' : Comment Mark}
    (h : SpellsComment input k rest) (h' : SpellsComment input k' rest') : rest = rest' :=
  h.behind.symm.trans h'.behind

/-- A comment ends with `)`. -/
theorem SpellsComment.closer {input rest : Bytes} {k : Comment Mark}
    (h : SpellsComment input k rest) : rightParenthesis :: rest <:+ input := by
  obtain ⟨-, -, hinside⟩ := h
  have hclosed := (List.suffix_cons _ _).trans hinside.suffix
  exact hclosed.trans (suffix_cons_cons _ _ _)

namespace Lexeme

theorem suffix {input rest : Bytes} (h : Lexeme input rest) : rest <:+ input := by
  cases h with
  | byte => exact List.suffix_cons _ _
  | quoted => exact suffix_quoted _ _ _
  | comment hcomment => exact hcomment.suffix

theorem unique {input rest rest' : Bytes} (h : Lexeme input rest) (h' : Lexeme input rest') :
    rest = rest' := by
  have hcomment : ∀ {input rest b more} {k : Comment Mark}, SpellsComment input k rest →
      input = b :: more → ¬isQuoting b ∧ [leftParenthesis, asterisk] <+: b :: more := by
    rintro input rest b more k hk rfl
    have hopen := hk.opener
    obtain rfl := (List.cons_prefix_cons.1 hopen).1
    exact ⟨by decide, hopen⟩
  cases h with
  | byte hquoting hopen =>
    cases h' with
    | byte => rfl
    | quoted hquoting' => exact absurd hquoting' hquoting
    | comment hk => exact absurd (hcomment hk rfl).2 hopen
  | quoted hquoting hcontent =>
    generalize hinput : _ :: _ = input at h'
    cases h' with
    | byte hquoting' =>
      obtain ⟨rfl, -⟩ := List.cons.inj hinput
      exact absurd hquoting hquoting'
    | quoted _ hcontent' =>
      obtain ⟨rfl, hsame⟩ := List.cons.inj hinput
      exact rest_eq_of_quoted hcontent hcontent' hsame
    | comment hk => exact absurd hquoting (hcomment hk hinput.symm).1
  | comment hk =>
    cases h' with
    | byte _ hopen => exact absurd (hcomment hk rfl).2 hopen
    | quoted hquoting => exact absurd hquoting (hcomment hk rfl).1
    | comment hk' => exact hk.rest_unique hk'

theorem inert {b : UInt8} {rest : Bytes} (h : isInert b) : Lexeme (b :: rest) rest := by
  simp only [isInert, Bool.and_eq_true, Bool.not_eq_true', bne_iff_ne] at h
  apply Lexeme.byte (by simp [h.1])
  intro hopen
  exact h.2 (List.cons_prefix_cons.1 hopen).1.symm

end Lexeme

namespace Lexes

theorem suffix {input rest : Bytes} (h : Lexes input rest) : rest <:+ input := by
  induction h with
  | refl => exact List.suffix_refl _
  | tail _ hlast ih => exact hlast.suffix.trans ih

theorem trans {input middle rest : Bytes} (h : Lexes input middle) (h' : Lexes middle rest) :
    Lexes input rest :=
  ReflTransGen.trans h h'

theorem inert {source rest : Bytes} {b : UInt8} (h : Lexes source (b :: rest))
    (hb : isInert b) : Lexes source rest :=
  ReflTransGen.tail h (.inert hb)

theorem total {source place place' : Bytes} (h : Lexes source place)
    (h' : Lexes source place') : Lexes place place' ∨ Lexes place' place :=
  ReflTransGen.total_of_right_unique (fun _ _ _ => Lexeme.unique) h h'

end Lexes

/-! ### Entries -/

namespace Entry

theorem refl (source : Bytes) : Entry source source :=
  ⟨.refl, .inl rfl⟩

theorem of_byte {source place : Bytes} {b : UInt8} (hlexes : Lexes source place)
    (hb : ¬isWord b) (hbehind : b :: place <:+ source) : Entry source place :=
  ⟨hlexes, .inr ⟨b, hb, hbehind⟩⟩

theorem symbol {source rest : Bytes} {b : UInt8} (h : Lexes source (b :: rest))
    (hinert : isInert b) (hb : ¬isWord b) : Entry source rest :=
  .of_byte (h.inert hinert) hb h.suffix

theorem trans {source place site : Bytes} (h : Entry source place) (h' : Entry place site) :
    Entry source site := by
  refine ⟨h.lexes.trans h'.lexes, ?_⟩
  rcases h'.parted with rfl | ⟨b, hb, hsuffix⟩
  · exact h.parted
  · exact .inr ⟨b, hb, hsuffix.trans h.lexes.suffix⟩

theorem trivia {source place rest : Bytes} {comments : List (Comment Mark)}
    (h : Entry source place) (htrivia : SpellsTrivia place comments rest) :
    Entry source rest := by
  induction htrivia with
  | nothing => exact h
  | @blank b _ _ _ hblank _ ih =>
    have hb : ¬isWord b := fun hword => not_isBlank_of_isWord hword hblank
    exact ih (.symbol h.lexes (isInert_of_isBlank hblank) hb)
  | comment hcomment _ ih =>
    apply ih
    have hbehind := hcomment.closer.trans h.lexes.suffix
    exact .of_byte (ReflTransGen.tail h.lexes (.comment hcomment)) (by decide) hbehind

/-- Behind all trivia that comes next. -/
theorem opening {source place rest : Bytes} {comments : List (Comment Mark)}
    (h : Entry source place) (htrivia : SpellsTrivia place comments rest)
    (hsettled : Settled rest) : Opening source rest :=
  ⟨h.trivia htrivia, hsettled⟩

end Entry

theorem SpellsComma.entry {source input rest : Bytes} (h : SpellsComma input rest)
    (hlexes : Lexes source input) : Entry source rest := by
  cases h
  exact .symbol hlexes (by decide) (by decide)

theorem SpellsSeparator.entry {source input rest : Bytes} (h : SpellsSeparator input rest)
    (hlexes : Lexes source input) : Entry source rest := by
  obtain ⟨rfl | rfl | rfl, -⟩ := h <;> exact .symbol hlexes (by decide) (by decide)

/-! ### Flaws and failures -/

variable [Runtime]

/-- A defect below the level of rules, at a place where a construct or trivia begins. -/
inductive Flaw (source : Bytes) (error : SyntaxError Mark) : Prop
  | comment (hplace : Lexes source site) (hbroken : BrokenComment site error) :
      Flaw source error
  | construct (hentry : Entry source site) (hdefect : Defect site error)
      (hlevel : error.cause.inConstruct) : Flaw source error

/-- What keeps a source from being a document: a flaw of it, or a defect of the first rule
that is not whole. -/
inductive Failure (source : Bytes) (error : SyntaxError Mark) : Prop
  | flaw (h : Flaw source error) : Failure source error
  | rule (hsource : source = front ++ site) (hrules : SpellsDocument front g)
      (hlexes : Lexes source site) (hsite : site ≠ []) (hdefect : Defect site error)
      (hlevel : error.cause.kind.concernsRule) : Failure source error

/-- A run of digits of a source that the runtime refuses to convert, with the mark behind
it. -/
inductive Refused (source : Bytes) : Nat → Mark → Prop
  | mk (hsource : source = before ++ (digits ++ rest)) (hdigits : ∀ b ∈ digits, isDigit b)
      (hlong : ¬Runtime.converts digits.length) : Refused source digits.length rest.length

/-- What stops the reading of a source: an error of a kind, or a refusal. -/
inductive Halts (source : Bytes) (kind : SyntaxError Mark → Prop) : Fault Mark → Prop
  | error (h : kind error) : Halts source kind (.syntaxError error)
  | refusal (h : Refused source digits stop) : Halts source kind (.refusal digits stop)

theorem Lexes.compositional : Compositional fun input rest _ _ => Lexes input rest where
  nothing := .refl
  append h h' := h.trans h'
  inert hinert := .single (.inert hinert)
  parenthesis hhead := by
    refine .single (.byte (by decide) ?_)
    rintro ⟨more, hmore⟩
    obtain rfl := (List.cons.inj hmore).2
    exact hhead rfl
  quoted hquoting hcontent := .single (.quoted hquoting hcontent)
  comment hcomment := .single (.comment hcomment)
  node _ _ h := h

theorem SpellsTrivia.lexes {input rest : Bytes} {comments : List (Comment Mark)}
    (h : SpellsTrivia input comments rest) : Lexes input rest :=
  Lexes.compositional.trivia h

theorem SpellsName.lexes {input name rest : Bytes} {comments : List (Comment Mark)}
    (h : SpellsName input name comments rest) : Lexes input rest :=
  Lexes.compositional.name h

/-- A rule ends with its terminator. -/
theorem SpellsRule.terminator {input rest : Bytes} {r : Rule Extent}
    {comments : List (Comment Mark)} (h : SpellsRule input r comments rest) :
    semicolon :: rest <:+ input := by
  obtain ⟨hname, htrivia, hdefinitions⟩ := h
  have hbody := (List.suffix_cons _ _).trans htrivia.suffix
  exact (hdefinitions.suffix.trans hbody).trans hname.suffix

/-- What stands behind an opening symbol that is read as such. -/
theorem Entry.opener {source opener inside : Bytes} {bracket : Bracket}
    (h : Lexes source (opener ++ inside)) (hopener : opener ∈ bracket.openers)
    (hclear : bracket = .grouped → inside.head? ≠ some asterisk) : Entry source inside := by
  have hparenthesis : ∀ {rest : Bytes}, rest.head? ≠ some asterisk →
      Lexes source (leftParenthesis :: rest) → Lexes source rest :=
    fun hhead hlexes => hlexes.trans (Lexes.compositional.parenthesis hhead)
  cases bracket with
  | optional =>
    rcases Bracket.mem_openers_optional.1 hopener with rfl | rfl
    · exact .symbol h (by decide) (by decide)
    · exact .symbol (hparenthesis (by simp +decide) h) (by decide) (by decide)
  | repeated =>
    rcases Bracket.mem_openers_repeated.1 hopener with rfl | rfl
    · exact .symbol h (by decide) (by decide)
    · exact .symbol (hparenthesis (by simp +decide) h) (by decide) (by decide)
  | grouped =>
    obtain rfl := Bracket.mem_openers_grouped.1 hopener
    exact .of_byte (hparenthesis (hclear rfl) h) (by decide) h.suffix

theorem Halts.of_isError {source : Bytes} {kind kind' : SyntaxError Mark → Prop}
    {fault : Fault Mark} (h : fault.IsError kind) (hkind : ∀ error, kind error → kind' error) :
    Halts source kind' fault := by
  cases fault with
  | syntaxError error => exact .error (hkind error h)
  | refusal => exact h.elim

theorem Refused.of_suffix {source place : Bytes} {digits : Nat} {stop : Mark}
    (h : Refused place digits stop) (hplace : place <:+ source) : Refused source digits stop := by
  obtain ⟨front, rfl⟩ := hplace
  cases h with
  | @mk before digits rest hsource hdigits hlong =>
    have hwhole : front ++ place = (front ++ before) ++ (digits ++ rest) := by
      rw [hsource, List.append_assoc]
    exact .mk hwhole hdigits hlong

/-- What stops the reading of an end of a source stops the reading of the source. -/
theorem Halts.of_suffix {source place : Bytes} {kind kind' : SyntaxError Mark → Prop}
    {fault : Fault Mark} (h : Halts place kind fault) (hplace : place <:+ source)
    (hkind : ∀ error, kind error → kind' error) : Halts source kind' fault := by
  cases h with
  | error h => exact .error (hkind _ h)
  | refusal h => exact .refusal (h.of_suffix hplace)

theorem Halts.mono {source : Bytes} {kind kind' : SyntaxError Mark → Prop}
    {fault : Fault Mark} (h : Halts source kind fault)
    (hkind : ∀ error, kind error → kind' error) : Halts source kind' fault :=
  h.of_suffix (List.suffix_refl _) hkind

theorem BrokenTrivia.flaw {source input : Bytes} {error : SyntaxError Mark}
    (h : BrokenTrivia input error) (hplace : Lexes source input) : Flaw source error := by
  obtain ⟨htrivia, hbroken⟩ := h
  exact .comment (hplace.trans htrivia.lexes) hbroken

theorem Flaw.of_entry {source place : Bytes} {error : SyntaxError Mark}
    (hplace : Entry source place) (h : Flaw place error) : Flaw source error := by
  cases h with
  | comment hsite hbroken => exact .comment (hplace.lexes.trans hsite) hbroken
  | construct hentry hdefect hlevel => exact .construct (hplace.trans hentry) hdefect hlevel

theorem Flaw.defect {source : Bytes} {error : SyntaxError Mark} (h : Flaw source error) :
    ∃ site, site <:+ source ∧ Defect site error := by
  cases h with
  | comment hplace hbroken =>
    obtain ⟨site, hsite, hdefect⟩ := hbroken.defect
    exact ⟨site, hsite.trans hplace.suffix, hdefect⟩
  | construct hentry hdefect => exact ⟨_, hentry.lexes.suffix, hdefect⟩

namespace Failure

variable {source : Bytes} {error : SyntaxError Mark}

theorem defect (h : Failure source error) : ∃ site, site <:+ source ∧ Defect site error := by
  cases h with
  | flaw hflaw => exact hflaw.defect
  | rule hsource _ _ _ hdefect =>
    subst hsource
    exact ⟨_, List.suffix_append _ _, hdefect⟩

/-- A defect of the rule that comes behind trivia. -/
theorem of_trivia {site : Bytes} {comments : List (Comment Mark)}
    (htrivia : SpellsTrivia source comments site) (hsite : site ≠ [])
    (hdefect : Defect site error) (hlevel : error.cause.kind.concernsRule) :
    Failure source error := by
  obtain ⟨front, hfront, hbefore⟩ := htrivia.replace (Moves.sub [] site)
  exact .rule hfront (.trivia (by simpa using hbefore)) htrivia.lexes hsite hdefect hlevel

/-- A failure behind a whole rule. -/
theorem behind {start rest : Bytes} {r : Rule Extent} {comments comments' : List (Comment Mark)}
    (htrivia : SpellsTrivia source comments start) (hrule : SpellsRule start r comments' rest)
    (h : Failure rest error) : Failure source error := by
  cases h with
  | flaw hflaw =>
    have hbefore : Entry source start := (Entry.refl source).trivia htrivia
    have hlexes : Lexes start rest := hrule.assembled Lexes.compositional
    have hentry : Entry start rest := .of_byte hlexes (by decide) hrule.terminator
    exact .flaw (hflaw.of_entry (hbefore.trans hentry))
  | @rule front site g hsource hrules hlexes hsite hdefect hlevel =>
    subst hsource
    have hplace : Lexes source site :=
      (htrivia.lexes.trans (hrule.assembled Lexes.compositional)).trans hlexes
    -- Trivia, rule and the document behind it keep their spelling without what follows.
    obtain ⟨middle, rfl, hrule'⟩ := hrule.replace (Moves.sub front site)
    rw [← List.append_assoc] at htrivia
    obtain ⟨before, rfl, htrivia'⟩ := htrivia.replace (Moves.sub (middle ++ front) site)
    exact .rule (List.append_assoc ..).symm (.rule htrivia' hrule' hrules) hplace hsite hdefect
      hlevel

end Failure

end Ebnf
