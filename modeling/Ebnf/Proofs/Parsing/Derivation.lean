import Ebnf.Proofs.Parsing.Positions
import Ebnf.Proofs.Spelling.Derivation
import Ebnf.Tree.Equality

/-!
# Which sources are accepted

A source is accepted just if its symbols are derived in the grammar of the notation with
something before every `-`, and with counts that the runtime converts.  Nothing else that the
grammar lets be empty makes a difference: the operand behind `-`, the operand of a repetition,
terms, definitions and the inside of brackets.  Since a source consists of one row of symbols
at most, one that is derived only with nothing before a `-` is not accepted.
-/

namespace Ebnf

open Byte

/-- A source is accepted just if it consists of symbols that are derived with something before
every `-` and with counts that are converted.  Whether its own symbols are derived so decides
about each source, and those of an accepted one are derived in the grammar of the notation,
which sets no bound to a count. -/
theorem parse_ok_iff_derived [Runtime] (options : Options) (source : Bytes) :
    ((∃ g, parse options source = .ok g) ↔ ∃ symbols, ConsistsOf source symbols ∧
      DerivesDocument False (Runtime.converts ·) symbols) ∧
    ∀ symbols, ConsistsOf source symbols →
      ((∃ g, parse options source = .ok g) ↔
        DerivesDocument False (Runtime.converts ·) symbols) ∧
      ((∃ g, parse options source = .ok g) → DerivesDocument True (fun _ => True) symbols) := by
  have hiff : (∃ g, parse options source = .ok g) ↔ ∃ symbols, ConsistsOf source symbols ∧
      DerivesDocument False (Runtime.converts ·) symbols := by
    rw [exists_parse_iff]
    constructor
    · rintro ⟨spelled, hspelled⟩
      exact hspelled.derived
    · rintro ⟨symbols, hsymbols, hderives⟩
      exact hderives.spelled hsymbols
  refine ⟨hiff, fun symbols hsymbols => ?_⟩
  have hderived : (∃ g, parse options source = .ok g) →
      DerivesDocument False (Runtime.converts ·) symbols := by
    intro haccepted
    obtain ⟨symbols', hsymbols', hderives⟩ := hiff.1 haccepted
    rwa [hsymbols.unique hsymbols']
  exact ⟨⟨hderived, fun hderives => hiff.2 ⟨symbols, hsymbols, hderives⟩⟩,
    fun haccepted => (hderived haccepted).mono False.elim fun _ _ => trivial⟩

/-- A name of one letter, before a symbol that is one byte. -/
theorem SpellsSymbol.letter {b b' : UInt8} {rest : Bytes} (h : isLetter b)
    (hnext : ¬isBlank b' ∧ b' ≠ leftParenthesis ∧ ¬isWord b') :
    SpellsSymbol (b :: b' :: rest) .name (b' :: rest) := by
  have hclosed : Closed (b' :: rest) :=
    .of_settled (.of_head rfl hnext.1 hnext.2.1) (forall_head rfl hnext.2.2)
  exact .name (.mk h (.last (isWord_of_isLetter h))) hclosed

/-- `a=b-;`, with nothing behind the `-`. -/
def openExceptionSource : Bytes :=
  [0x61, 0x3D, 0x62, 0x2D, 0x3B]

def openExceptionGrammar : Grammar Span Position where
  rules := [⟨⟨⟨0, 0, 0⟩, 5⟩, [0x61],
    [.term (.exception ⟨⟨2, 0, 2⟩, 2⟩ (.primary (.identifier ⟨⟨2, 0, 2⟩, 1⟩ [0x62])) none)]⟩]
  comments := []

attribute [local instance] Runtime.usual

theorem derived_openExceptionSource :
    ConsistsOf openExceptionSource [.name, .defining, .name, .except, .terminator] ∧
    parse {} openExceptionSource = .ok openExceptionGrammar ∧
    DerivesDocument False (Runtime.converts ·)
      [.name, .defining, .name, .except, .terminator] := by
  have hsymbols : ConsistsOf openExceptionSource
      [.name, .defining, .name, .except, .terminator] :=
    ⟨[], [], .symbol .nothing (.letter (by decide) (by decide)) <|
      .symbol .nothing (.single rfl) <| .symbol .nothing (.letter (by decide) (by decide)) <|
      .symbol .nothing (.single rfl) <| .single .nothing (.single rfl), .nothing⟩
  have haccepted : parse {} openExceptionSource = .ok openExceptionGrammar := by
    decide +kernel
  have hderived := (parse_ok_iff_derived {} openExceptionSource).2 _ hsymbols
  exact ⟨hsymbols, haccepted, hderived.1.1 ⟨_, haccepted⟩⟩

/-- `a=-b;`, with nothing before the `-`. -/
def bareExceptionSource : Bytes :=
  [0x61, 0x3D, 0x2D, 0x62, 0x3B]

/-- Its symbols are derived in the grammar of the notation, and yet it is not accepted. -/
theorem bareExceptionSource_rejected :
    ConsistsOf bareExceptionSource [.name, .defining, .except, .name, .terminator] ∧
    DerivesDocument True (fun _ => True) [.name, .defining, .except, .name, .terminator] ∧
    parse {} bareExceptionSource =
      .error (.syntaxError ⟨.missingTerminator [0x61], ⟨0, 0, 0⟩, ⟨2, 0, 2⟩⟩) := by
  have hterm : DerivesTerm True (fun _ => True) [.except, .name] :=
    .exception (.primary .empty) (fun _ => trivial) (.primary .name)
  refine ⟨⟨[], [], ?_, .nothing⟩, .rule (.mk (.definition (.term hterm))) .empty, ?_⟩
  · exact .symbol .nothing (.letter (by decide) (by decide)) <|
      .symbol .nothing (.single rfl) <| .symbol .nothing (.single rfl) <|
      .symbol .nothing (.letter (by decide) (by decide)) <| .single .nothing (.single rfl)
  · decide +kernel

end Ebnf
