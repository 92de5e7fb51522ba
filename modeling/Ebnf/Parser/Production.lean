import Ebnf.Parser.Trivia
import Ebnf.Scanning.Production
import Ebnf.Tree.Walk

/-!
# Productions as parsers

A parser scans the source of a session from the cursor on, so the productions are parsers.
Its places are positions, a stop is an offset, and the note of a construct is its span.
-/

namespace Ebnf

/-- A span that is said to end before it begins is empty. -/
instance : Noting Span Position Nat where
  between start stop := ⟨start, stop - start.offset⟩
  start := Span.start
  stop := Span.stop

variable [Runtime]

instance : Scanning Parser Position Nat Span where
  left := Parser.left
  place := Parser.place
  stop := Parser.stop
  current := Parser.current
  byte := Parser.byte
  one := Parser.one
  takeWhile := Parser.takeWhile
  passTo := Parser.passTo
  symbol := Parser.symbol
  definitionSeparator := Parser.definitionSeparator
  trivia := Parser.trivia
  orUndo := Parser.orUndo
  check := Parser.check
  fail := Parser.fail
  convert := Parser.convert
  entering _ parser := parser

/-- The constructs and levels of the notation that can be asked for. -/
inductive Production where
  | identifier
  | terminal
  | special
  | bracketed (bracket : Bracket)
  | primary
  | factor
  | term
  | definition
  | rule
deriving DecidableEq, Repr

/-- A production by its name, over any scanner. -/
def Production.scanner {m : Type → Type} [Monad m] {Place Stop Note : Type}
    [Scanning m Place Stop Note] [Noting Note Place Stop] : Production → m (Option (Node Note))
  | identifier => Option.map .ofPrimary <$> Scanning.identifier
  | terminal => Option.map .ofPrimary <$> Scanning.terminal
  | special => Option.map .ofPrimary <$> Scanning.special
  | bracketed bracket => Option.map .ofPrimary <$> Scanning.bracketed bracket
  | primary => Option.map .ofPrimary <$> Scanning.primary
  | factor => Option.map .ofFactor <$> Scanning.factor
  | term => Option.map .ofTerm <$> Scanning.term
  | definition => Option.map .definition <$> Scanning.definition
  | rule => do return some (.rule (← Scanning.rule))

end Ebnf
