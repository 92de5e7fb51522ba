import Ebnf.Proofs.Spelling.Suffix

/-!
# Defects

A defect is what makes a document end before its end.  It stands at a site, an end
of the document whose first byte begins the construct at fault, and each cause
says what the bytes from there on look like up to the place where reading stops.
Nothing here mentions a reader.
-/

namespace Ebnf

open Byte

/-- Neither whitespace nor a comment comes next. -/
def Settled (input : Bytes) : Prop :=
  (∀ b, input.head? = some b → ¬isBlank b) ∧
    ¬[leftParenthesis, asterisk] <+: input

/-- From inside a comment to the rest, which may lie inside comments nested in
it. -/
inductive Descends : Bytes → Bytes → Prop
  | here (hinterior : SpellsInterior input rest) : Descends input rest
  | deeper (hinterior : SpellsInterior input (leftParenthesis :: asterisk :: inside))
      (hnonempty : inside.head? ≠ some rightParenthesis)
      (hinside : Descends inside rest) :
      Descends input rest

/-- What stops a comment: an opener inside it that `)` follows directly, or the end of the
input. -/
inductive CommentFault (start : Mark) : Bytes → SyntaxError Mark → Prop
  | empty (hempty : inside.head? = some rightParenthesis) :
      CommentFault start (leftParenthesis :: asterisk :: inside)
        ⟨.emptyComment, inside.length + 2, inside.length + 1⟩
  | ends : CommentFault start [] ⟨.unterminatedComment, start, 0⟩

/-- A comment opens here and is not completed: `)` follows its opener directly, or it is
stopped further on. -/
inductive BrokenComment : Bytes → SyntaxError Mark → Prop
  | empty (hempty : inside.head? = some rightParenthesis) :
      BrokenComment (leftParenthesis :: asterisk :: inside)
        ⟨.emptyComment, inside.length + 2, inside.length + 1⟩
  | stopped (hnonempty : inside.head? ≠ some rightParenthesis) (hinside : Descends inside rest)
      (hfault : CommentFault (inside.length + 2) rest error) :
      BrokenComment (leftParenthesis :: asterisk :: inside) error

/-- Trivia, and behind it a comment that is not completed. -/
inductive BrokenTrivia : Bytes → SyntaxError Mark → Prop
  | mk (htrivia : SpellsTrivia input comments site) (hbroken : BrokenComment site error) :
      BrokenTrivia input error

theorem Descends.suffix {input rest : Bytes} (h : Descends input rest) :
    rest <:+ input := by
  induction h with
  | here hinterior => exact hinterior.suffix
  | deeper hinterior _ _ ih =>
    have hinside := (suffix_cons_cons _ _ _).trans hinterior.suffix
    exact ih.trans hinside

theorem SpellsInterior.append {input middle rest : Bytes}
    (h : SpellsInterior input middle) (h' : SpellsInterior middle rest) :
    SpellsInterior input rest := by
  induction h with
  | done => exact h'
  | comment hnonempty hinside _ _ ih => exact .comment hnonempty hinside (ih h')
  | byte hopen hclose _ ih => exact .byte hopen hclose (ih h')

theorem SpellsInterior.descends {input middle rest : Bytes}
    (h : SpellsInterior input middle) (h' : Descends middle rest) :
    Descends input rest := by
  cases h' with
  | here hinterior => exact .here (h.append hinterior)
  | deeper hinterior hnonempty hinside =>
    exact .deeper (h.append hinterior) hnonempty hinside

variable [Runtime]

/-- What is wrong at a site: the cause, the mark of the site itself, and the mark at
which it shows. -/
inductive Defect : Bytes → SyntaxError Mark → Prop
  | emptyComment (hempty : inside.head? = some rightParenthesis) :
      Defect (leftParenthesis :: asterisk :: inside)
        ⟨.emptyComment, inside.length + 2, inside.length + 1⟩
  | unterminatedComment (hnonempty : inside.head? ≠ some rightParenthesis)
      (hinside : Descends inside []) :
      Defect (leftParenthesis :: asterisk :: inside)
        ⟨.unterminatedComment, inside.length + 2, 0⟩
  | unterminatedSpecial {interior : Bytes} (hinterior : questionMark ∉ interior) :
      Defect (questionMark :: interior)
        ⟨.unterminatedSpecial, interior.length + 1, 0⟩
  | emptyTerminal (hquote : quote = apostrophe ∨ quote = quotationMark) :
      Defect (quote :: quote :: rest)
        ⟨.emptyTerminal, rest.length + 2, rest.length⟩
  | unterminatedTerminal (hquote : quote = apostrophe ∨ quote = quotationMark)
      (hcontent : ∀ b ∈ content, isTerminal quote b) :
      Defect (quote :: content) ⟨.unterminatedTerminal, content.length + 1, 0⟩
  | invalidTerminalByte (hquote : quote = apostrophe ∨ quote = quotationMark)
      (hcontent : ∀ b ∈ content, isTerminal quote b) (hbyte : ¬isPrintable b)
      (hinput : input = quote :: (content ++ b :: rest)) :
      Defect input ⟨.invalidTerminalByte b, input.length, rest.length + 1⟩
  | missingRepetitionSymbol (hcount : SpellsCount digits count)
      (hmaximal : ∀ b, input.head? = some b → ¬isDigit b)
      (htrivia : SpellsTrivia input comments rest) (hsettled : Settled rest)
      (hmissing : rest.head? ≠ some asterisk) :
      Defect (digits ++ input)
        ⟨.missingRepetitionSymbol count, (digits ++ input).length,
          rest.length⟩
  | unclosedBracket (hopener : opener ∈ bracket.openers)
      (hclear : bracket = .grouped → ∀ b, inside.head? = some b →
        b ≠ asterisk ∧ b ≠ solidus ∧ b ≠ colon)
      (hinside : SpellsDefinitions inside definitions comments rest)
      (hsettled : Settled rest) (hmissing : ∀ closer ∈ bracket.closers, ¬closer <+: rest) :
      Defect (opener ++ inside)
        ⟨.unclosedBracket bracket opener, (opener ++ inside).length, rest.length⟩
  | missingName (hsettled : Settled site)
      (hname : ∀ b, site.head? = some b → ¬isLetter b)
      (hlexeme : ∀ b, site.head? = some b →
        b = questionMark ∨ b = apostrophe ∨ b = quotationMark →
          ∃ p comments rest, SpellsPrimary site p comments rest) :
      Defect site ⟨.missingName, site.length, site.length⟩
  | missingDefiningSymbol (hname : SpellsName site name comments stop)
      (htrivia : SpellsTrivia stop comments' rest) (hsettled : Settled rest)
      (hmaximal : ∀ b, rest.head? = some b → ¬isWord b)
      (hmissing : rest.head? ≠ some equalsSign) :
      Defect site ⟨.missingDefiningSymbol name, site.length, rest.length⟩
  | missingTerminator (hname : SpellsName site name comments stop)
      (htrivia : SpellsTrivia stop comments' (equalsSign :: body))
      (hdefinitions : SpellsDefinitions body definitions comments'' rest)
      (hsettled : Settled rest) (hmissing : rest.head? ≠ some semicolon) :
      Defect site ⟨.missingTerminator name, site.length, rest.length⟩

/-- The defect of a broken comment is in it, at its opener or at one inside. -/
theorem BrokenComment.defect {input : Bytes} {error : SyntaxError Mark}
    (h : BrokenComment input error) : ∃ site, site <:+ input ∧ Defect site error := by
  cases h with
  | empty hempty => exact ⟨_, List.suffix_refl _, .emptyComment hempty⟩
  | stopped hnonempty hinside hfault =>
    cases hfault with
    | empty hempty =>
      exact ⟨_, hinside.suffix.trans (suffix_cons_cons _ _ _), .emptyComment hempty⟩
    | ends => exact ⟨_, List.suffix_refl _, .unterminatedComment hnonempty hinside⟩

end Ebnf
