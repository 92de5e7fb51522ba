import Ebnf.Parser.Production

/-!
# Documents

A document is rules and trivia up to its end.  The loop over rules keeps each rule as soon as
it is complete, so those before an error are kept as well; on request it writes a line for
each of them, and one more line when all are complete.
-/

namespace Ebnf

/-- The line for a rule. -/
def Rule.line (rule : Rule Span) : String :=
  "[DEBUG] rule '" ++ rule.name.ascii ++ "' at " ++ rule.note.start.lineColumn ++
    " | bytes=" ++ toString rule.note.length ++
    " definitions=" ++ toString rule.definitions.length

/-- The line that counts rules and comments. -/
def Grammar.line (grammar : Grammar α μ) : String :=
  "[DEBUG] syntax ready | rules=" ++ toString grammar.rules.length ++
    " comments=" ++ toString grammar.comments.length

/-- How far a parse has come: the session, and the lines that have been written. -/
structure Stage where
  session : Session
  lines : List String := []

namespace Stage

variable (debug : Bool)

/-- Writes a line if lines are asked for. -/
def write (line : String) (stage : Stage) : Stage :=
  if debug then { stage with lines := stage.lines ++ [line] } else stage

/-- The stage with one more rule. -/
def complete (rule : Rule Span) (stage : Stage) : Stage :=
  { stage with session := { stage.session with rules := stage.session.rules ++ [rule] } }

variable [Runtime]

/-- One round of the loop, and whether there is another one. -/
def round (stage : Stage) : Except (Fault Position) Bool × Stage :=
  match Parser.run Scanning.nextRule stage.session with
  | (.error fault, session) => (.error fault, { stage with session })
  | (.ok none, session) =>
    (.ok false, ({ stage with session } : Stage).write debug session.grammar.line)
  | (.ok (some rule), session) =>
    (.ok true, (({ stage with session } : Stage).complete rule).write debug rule.line)

/-- A number of rounds at most.  Every round but the last takes a rule, so there are never
more of them than bytes and one. -/
def rounds : Nat → Stage → Except (Fault Position) (Grammar Span Position) × Stage
  | 0, stage => (.ok stage.session.grammar, stage)
  | more + 1, stage =>
    match stage.round debug with
    | (.error fault, last) => (.error fault, last)
    | (.ok false, last) => (.ok last.session.grammar, last)
    | (.ok true, next) => rounds more next

end Stage

variable [Runtime]

/-- Reads the rest of the document.  The answer has the rules of all such readings, and all
comments of the session. -/
def Session.readAll (session : Session) (debug : Bool) :
    Except (Fault Position) (Grammar Span Position) × Stage :=
  Stage.rounds debug (session.cursor.left + 1) { session }

/-- Parses a document and gives the lines written on the way as well. -/
def parseTraced (options : Options) (debug : Bool) (source : Bytes) :
    Except (Fault Position) (Grammar Span Position) × List String :=
  let (answer, last) := (Session.start options source).readAll debug
  (answer, last.lines)

def parse (options : Options) (source : Bytes) :
    Except (Fault Position) (Grammar Span Position) :=
  (parseTraced options false source).1

end Ebnf
