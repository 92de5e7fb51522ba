import Ebnf.Parser.Document

/-!
# Calls

A session reads a document piece by piece: any production may be asked for at any
place, and the cursor may be moved by hand in between.
-/

namespace Ebnf

/-- What can be asked of a session. -/
inductive Call where
  | produce (production : Production)
  | definitions
  /-- Passes over trivia, and tells whether there was any. -/
  | trivia
  | comment
  | strayLexeme
  | symbol (spellings : List Bytes)
  /-- Reads the rest of the document. -/
  | parse
deriving DecidableEq, Repr

def Call.Answer : Call → Type
  | produce _ => Option (Node Span)
  | definitions => List (Definition Span)
  | trivia => Bool
  | comment => Bool
  | strayLexeme => Unit
  | symbol _ => Option Bytes
  | parse => Grammar Span Position

/-- Passes over trivia and tells whether the cursor has moved. -/
def Parser.triviaMoved : Parser Bool := do
  let entry ← stop
  trivia
  return entry != (← stop)

variable [Runtime]

namespace Session

/-- The answer to a call, and the session as the call leaves it. -/
def call (session : Session) : (call : Call) → Except (Fault Position) call.Answer × Session
  | .produce production => Parser.run production.scanner session
  | .definitions => Parser.run Scanning.definitions session
  | .trivia => Parser.triviaMoved.run session
  | .comment => Parser.comment.run session
  | .strayLexeme => Parser.run Scanning.strayLexeme session
  | .symbol spellings => (Parser.symbol spellings).run session
  | .parse =>
    let (answer, last) := session.readAll false
    (answer, last.session)

/-- The answer and the session to go on with, unless there was an error. -/
def ask (session : Session) (call : Call) :
    Except (Fault Position) (call.Answer × Session) := do
  let (answer, next) := session.call call
  return (← answer, next)

def produce (session : Session) (production : Production) :
    Except (Fault Position) (Option (Node Span) × Session) :=
  session.ask (.produce production)

def definitions (session : Session) :
    Except (Fault Position) (List (Definition Span) × Session) :=
  session.ask .definitions

def trivia (session : Session) : Except (Fault Position) (Bool × Session) :=
  session.ask .trivia

def comment (session : Session) : Except (Fault Position) (Bool × Session) :=
  session.ask .comment

def strayLexeme (session : Session) : Except (Fault Position) (Unit × Session) :=
  session.ask .strayLexeme

def symbol (session : Session) (spellings : List Bytes) :
    Except (Fault Position) (Option Bytes × Session) :=
  session.ask (.symbol spellings)

def parse (session : Session) :
    Except (Fault Position) (Grammar Span Position × Session) :=
  session.ask .parse

end Session

end Ebnf
