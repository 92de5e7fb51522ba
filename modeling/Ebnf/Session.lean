import Ebnf.Cursor
import Ebnf.Tree.Basic

/-!
# Reading sessions

What a parse changes on its way is a session: the place of the cursor and the comments that
have been met, to which come the rules once they are complete.  A checkpoint brings back the
place and the comments.
-/

namespace Ebnf

structure Session where
  cursor : Cursor
  comments : List (Comment Position) := []
  /-- The rules that have been completed. -/
  rules : List (Rule Span) := []

structure Checkpoint where
  position : Position
  comments : Nat
deriving DecidableEq, Repr

namespace Session

def start (options : Options) (source : Bytes) : Session where
  cursor := { source, options }

def checkpoint (session : Session) : Checkpoint :=
  ⟨session.cursor.position, session.comments.length⟩

def reset (session : Session) (checkpoint : Checkpoint) : Session :=
  { session with
    cursor := session.cursor.moveTo checkpoint.position
    comments := session.comments.take checkpoint.comments }

/-- Everything that has been collected. -/
def grammar (session : Session) : Grammar Span Position :=
  ⟨session.rules, session.comments⟩

end Session

end Ebnf
