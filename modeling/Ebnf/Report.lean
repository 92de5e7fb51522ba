import Ebnf.SyntaxError
import Ebnf.Text.Utf8

/-!
# Reports of syntax errors

A report is an error as it is shown to an author: its kind, a text, the two
positions, and the rule it concerns.  Reports need not come from a cause; the two
general kinds have none, and any text may be reported under any kind.
-/

namespace Ebnf

namespace Report

inductive Kind where
  | general
  | unterminatedSpecial
  | emptyComment
  | unterminatedComment
  | unclosedBracket
  | missingRepetitionSymbol
  | unterminatedTerminal
  | invalidTerminalByte
  | emptyTerminal
  /-- Anything wrong with a rule as such; the three kinds below are of this kind. -/
  | ruleGeneral
  | missingName
  | missingDefiningSymbol
  | missingTerminator
deriving DecidableEq, Repr

/-- The kinds that tell which rule they concern. -/
def Kind.concernsRule : Kind → Bool
  | ruleGeneral | missingName | missingDefiningSymbol | missingTerminator => true
  | _ => false

end Report

structure Report where
  kind : Report.Kind
  text : String
  start : Position
  stop : Position
  ruleName : Option String := none
deriving DecidableEq, Repr

def Cause.kind : Cause → Report.Kind
  | emptyComment => .emptyComment
  | unterminatedComment => .unterminatedComment
  | unterminatedSpecial => .unterminatedSpecial
  | emptyTerminal => .emptyTerminal
  | unterminatedTerminal => .unterminatedTerminal
  | invalidTerminalByte _ => .invalidTerminalByte
  | missingRepetitionSymbol _ => .missingRepetitionSymbol
  | unclosedBracket .. => .unclosedBracket
  | missingName => .missingName
  | missingDefiningSymbol _ => .missingDefiningSymbol
  | missingTerminator _ => .missingTerminator

def SyntaxError.report (error : SyntaxError Position) : Report where
  kind := error.cause.kind
  text := error.cause.text
  start := error.start
  stop := error.stop
  ruleName := error.cause.ruleName

namespace Report

def message (report : Report) : String :=
  report.text ++ " at " ++ report.start.lineColumn ++ ", " ++ report.stop.lineColumn

/-- The bytes met on the way from an index to the end of the document.  An index
below zero counts from the end; going up from it passes the last bytes first and
then, from zero on, the whole document. -/
def bytesFrom (source : Bytes) (index : Int) : Bytes :=
  source.drop (source.resolveIndex index) ++ if index < 0 then source else []

/-- The line on which the report starts, as its column gives it.  It ends at the
first CR or LF, and is empty when it begins beyond the end.  There is none when it
would begin further before the end than the source is long; then the position has
not been found in this source. -/
def line? (report : Report) (source : Bytes) : Option Bytes :=
  let start := report.start.lineStart
  if start < -source.length then none
  else
    let bytes := (bytesFrom source start).takeWhile fun b => !Byte.endsLine b
    some (source.slice start (start + bytes.length))

/-- A caret below a column; columns below zero count as zero. -/
def caret (column : Int) : String :=
  String.ofList (List.replicate column.toNat ' ') ++ "^"

/-- Shows the line on which the report starts, and a caret below its column. -/
def snippet? (report : Report) (source : Bytes) : Option String :=
  (report.line? source).map fun line =>
    Utf8.text line ++ "\n" ++ caret report.start.column

end Report

end Ebnf
