import Ebnf.Reader.Document
import Mathlib.Data.Nat.Digits.Defs

/-!
# Spellings

This file says what a document looks like, without saying how one is read.  A
spelling relates some bytes to a construct, to the comments in it and to the
bytes that follow it; the construct takes up exactly the bytes in between.  The
layout is as free as the notation allows: trivia between any two symbols and
inside names, either way to write a bracket on either side, either quote, leading
zeros, and commas and separators with nothing between them.

Every symbol stands in a constructor as the bytes that it consists of, so a
spelling accounts for each byte of the input once.  Two conditions look at a byte
of the next symbol: the `(` of a grouped sequence and a separating `/` must not
form `(/` or `/)` with what follows them.  Everything else is unambiguous as it
stands.

Extents are spelled too.  A node begins where its first symbol begins and stops
behind its last one, both given by the number of bytes from there to the end.
-/

namespace Ebnf

open Byte

abbrev Spelling (α : Type) := Bytes → α → List (Comment Mark) → Bytes → Prop

/-! ### Trivia -/

/-- The inside of a comment, up to the rest: nested comments, and bytes that begin
neither `(*` nor `*)`. -/
inductive SpellsInterior : Bytes → Bytes → Prop
  | done : SpellsInterior rest rest
  | comment (hnonempty : inside.head? ≠ some rightParenthesis)
      (hinside : SpellsInterior inside (asterisk :: rightParenthesis :: middle))
      (hmore : SpellsInterior middle rest) :
      SpellsInterior (leftParenthesis :: asterisk :: inside) rest
  | byte (hopen : ¬[leftParenthesis, asterisk] <+: b :: input)
      (hclose : ¬[asterisk, rightParenthesis] <+: b :: input)
      (hmore : SpellsInterior input rest) :
      SpellsInterior (b :: input) rest

inductive SpellsComment : Bytes → Comment Mark → Bytes → Prop
  | mk {interior : Bytes} (hinput : inside = interior ++ asterisk :: rightParenthesis :: rest)
      (hnonempty : inside.head? ≠ some rightParenthesis)
      (hinside : SpellsInterior inside (asterisk :: rightParenthesis :: rest)) :
      SpellsComment (leftParenthesis :: asterisk :: inside)
        ⟨Utf8.text (Bytes.trim interior), inside.length + 2⟩ rest

inductive SpellsTrivia : Bytes → List (Comment Mark) → Bytes → Prop
  | nothing : SpellsTrivia rest [] rest
  | blank (hblank : isBlank b) (hmore : SpellsTrivia input comments rest) :
      SpellsTrivia (b :: input) comments rest
  | comment (hcomment : SpellsComment input comment middle)
      (hmore : SpellsTrivia middle comments rest) :
      SpellsTrivia input (comment :: comments) rest

/-! ### Names -/

/-- Letters and digits with trivia between them. -/
inductive SpellsWord : Spelling Bytes
  | last (hword : isWord b) : SpellsWord (b :: rest) [b] [] rest
  | more (hword : isWord b) (htrivia : SpellsTrivia input comments middle)
      (hmore : SpellsWord middle word comments' rest) :
      SpellsWord (b :: input) (b :: word) (comments ++ comments') rest

inductive SpellsName : Spelling Bytes
  | mk (hletter : isLetter b) (hword : SpellsWord (b :: input) name comments rest) :
      SpellsName (b :: input) name comments rest

/-! ### Counts -/

variable [Runtime]

/-- A run of digits that the runtime converts, and the number that it denotes. -/
structure SpellsCount (digits : Bytes) (count : Nat) : Prop where
  nonempty : digits ≠ []
  digit : ∀ b ∈ digits, isDigit b
  converted : Runtime.converts digits.length
  value : count = Nat.ofDigits 10 (digits.reverse.map digitValue)

/-! ### Sequences of constructs that may be missing -/

/-- A construct with trivia around it, or trivia alone. -/
inductive SpellsSlot (item : Spelling α) : Spelling (Option α)
  | empty (htrivia : SpellsTrivia input comments rest) :
      SpellsSlot item input none comments rest
  | filled (hbefore : SpellsTrivia input comments₁ start)
      (hitem : item start value comments₂ stop)
      (hafter : SpellsTrivia stop comments₃ rest) :
      SpellsSlot item input (some value)
        (comments₁ ++ (comments₂ ++ comments₃)) rest

/-- Slots with separators between them; the value has what the slots contain. -/
inductive SpellsChain (slot : Spelling (Option α)) (separator : Bytes → Bytes → Prop) :
    Spelling (List α)
  | last (hslot : slot input value comments rest) :
      SpellsChain slot separator input value.toList comments rest
  | more (hslot : slot input value comments middle)
      (hseparator : separator middle next)
      (hmore : SpellsChain slot separator next values comments' rest) :
      SpellsChain slot separator input (value.toList ++ values)
        (comments ++ comments') rest

inductive SpellsComma : Bytes → Bytes → Prop
  | mk : SpellsComma (comma :: rest) rest

/-- One of `|`, `/` and `!`; a `/` before `)` is no separator. -/
inductive SpellsSeparator : Bytes → Bytes → Prop
  | mk (hsymbol : b = verticalLine ∨ b = solidus ∨ b = exclamationMark)
      (hclear : b = solidus → rest.head? ≠ some rightParenthesis) :
      SpellsSeparator (b :: rest) rest

/-! ### Productions -/

mutual

inductive SpellsPrimary : Bytes → Primary Extent → List (Comment Mark) → Bytes → Prop
  | bracketed (hopener : opener ∈ bracket.openers) (hcloser : closer ∈ bracket.closers)
      (hclear : bracket = .grouped → inside.head? ≠ some solidus)
      (hinside : SpellsDefinitions inside definitions comments (closer ++ rest)) :
      SpellsPrimary (opener ++ inside)
        (.bracketed ⟨(opener ++ inside).length, rest.length⟩ bracket definitions)
        comments rest
  | identifier (hname : SpellsName input name comments rest) :
      SpellsPrimary input (.identifier ⟨input.length, rest.length⟩ name) comments rest
  | terminal (hquote : quote = apostrophe ∨ quote = quotationMark)
      (hnonempty : content ≠ []) (hcontent : ∀ b ∈ content, isTerminal quote b)
      (hinput : input = quote :: (content ++ quote :: rest)) :
      SpellsPrimary input (.terminal ⟨input.length, rest.length⟩ content) [] rest
  | special {interior : Bytes} (hinterior : questionMark ∉ interior)
      (hinput : input = questionMark :: (interior ++ questionMark :: rest)) :
      SpellsPrimary input
        (.special ⟨input.length, rest.length⟩ (Utf8.text (Bytes.trim interior))) [] rest

inductive SpellsFactor : Bytes → Factor Extent → List (Comment Mark) → Bytes → Prop
  | primary (hprimary : SpellsPrimary input p comments rest) :
      SpellsFactor input (.primary p) comments rest
  | repetition (hcount : SpellsCount digits count)
      (htrivia : SpellsTrivia input comments (asterisk :: rest)) :
      SpellsFactor (digits ++ input)
        (.repetition ⟨(digits ++ input).length, rest.length⟩ count none)
        comments rest
  | repetitionOf (hcount : SpellsCount digits count)
      (hbefore : SpellsTrivia input comments₁ (asterisk :: middle))
      (hafter : SpellsTrivia middle comments₂ start)
      (hoperand : SpellsPrimary start p comments₃ rest) :
      SpellsFactor (digits ++ input)
        (.repetition ⟨(digits ++ input).length, rest.length⟩ count (some p))
        (comments₁ ++ (comments₂ ++ comments₃)) rest

inductive SpellsTerm : Bytes → Term Extent → List (Comment Mark) → Bytes → Prop
  | factor (hfactor : SpellsFactor input x comments rest) :
      SpellsTerm input (.factor x) comments rest
  | exception (hbase : SpellsFactor input x comments₁ stop)
      (htrivia : SpellsTrivia stop comments₂ (hyphen :: rest)) :
      SpellsTerm input (.exception ⟨input.length, rest.length⟩ x none)
        (comments₁ ++ comments₂) rest
  | exceptionOf (hbase : SpellsFactor input x comments₁ stop)
      (hbefore : SpellsTrivia stop comments₂ (hyphen :: middle))
      (hafter : SpellsTrivia middle comments₃ start)
      (hexcluded : SpellsFactor start y comments₄ rest) :
      SpellsTerm input (.exception ⟨input.length, rest.length⟩ x (some y))
        (comments₁ ++ (comments₂ ++ (comments₃ ++ comments₄))) rest

/-- A definition with the commas and the trivia around it, or only those. -/
inductive SpellsDefinition :
    Bytes → Option (Definition Extent) → List (Comment Mark) → Bytes → Prop
  | nothing (hterms : SpellsChain (SpellsSlot SpellsTerm) SpellsComma
        input [] comments rest) :
      SpellsDefinition input none comments rest
  | term (hterms : SpellsChain (SpellsSlot SpellsTerm) SpellsComma
        input [t] comments rest) :
      SpellsDefinition input (some (.term t)) comments rest
  | concatenation (hterms : SpellsChain (SpellsSlot SpellsTerm) SpellsComma
        input (first :: second :: more) comments rest) :
      SpellsDefinition input
        (some (.concatenation
          ⟨first.note.start, ((second :: more).getLast (by simp)).note.stop⟩
          first second more))
        comments rest

inductive SpellsDefinitions :
    Bytes → List (Definition Extent) → List (Comment Mark) → Bytes → Prop
  | mk (hdefinitions : SpellsChain SpellsDefinition SpellsSeparator
        input definitions comments rest) :
      SpellsDefinitions input definitions comments rest

end

inductive SpellsRule : Spelling (Rule Extent)
  | mk (hname : SpellsName input name comments₁ stop)
      (htrivia : SpellsTrivia stop comments₂ (equalsSign :: body))
      (hdefinitions : SpellsDefinitions body definitions comments₃ (semicolon :: rest)) :
      SpellsRule input ⟨⟨input.length, rest.length⟩, name, definitions⟩
        (comments₁ ++ (comments₂ ++ comments₃)) rest

/-! ### Documents -/

inductive SpellsDocument : Bytes → Grammar Extent Mark → Prop
  | trivia (htrivia : SpellsTrivia input comments []) :
      SpellsDocument input ⟨[], comments⟩
  | rule (htrivia : SpellsTrivia input comments₁ start)
      (hrule : SpellsRule start rule comments₂ rest)
      (hmore : SpellsDocument rest ⟨rules, comments₃⟩) :
      SpellsDocument input ⟨rule :: rules, comments₁ ++ (comments₂ ++ comments₃)⟩

end Ebnf
