import Ebnf.Parser.Basic
import Ebnf.Text.Utf8

/-!
# Trivia in a session

Whitespace and bracketed comments may stand between any two symbols and inside
meta-identifiers.  Comments nest, and only the outermost ones are collected.
-/

namespace Ebnf.Parser

open Byte

/-- Whether `(*` is at the cursor. -/
def atComment : Parser Bool := do
  let cursor ← cursor
  return cursor.current == some leftParenthesis && cursor.peek == some asterisk

/-- Steps over the opening symbol of a comment.  One that `)` follows directly is an error of
its own. -/
def openComment (start : Position) : Parser Unit := do
  move Cursor.step
  if (← cursor).peek = some rightParenthesis then
    fail .emptyComment start
  else
    move Cursor.step

/-- Goes on to the end of the comments that are open, `depth` in number, and answers how many
have not been closed when the source ends.  Every round moves the cursor, so there are never
more of them than bytes. -/
def closeComments : Nat → Nat → Parser Nat
  | 0, depth => return depth
  | rounds + 1, depth => do
    let cursor ← cursor
    if depth = 0 || cursor.atEnd then
      return depth
    else if cursor.current = some asterisk && cursor.peek = some rightParenthesis then
      move (·.step.step)
      closeComments rounds (depth - 1)
    else if ← atComment then
      openComment cursor.position
      closeComments rounds (depth + 1)
    else
      move Cursor.advance
      closeComments rounds depth

/-- Adds the comment that has begun at `start` and has just been closed. -/
def collectComment (start : Position) : Parser Unit := do
  let interior := (← cursor).source.slice (start.offset + 2) ((← stop) - 2)
  modify fun session => { session with
    comments := session.comments ++ [⟨Utf8.text interior.trim, start⟩] }

/-- Reads the comment that opens at the cursor. -/
def passComment : Parser Unit := do
  let start ← place
  openComment start
  if (← closeComments (← left) 1) = 0 then
    collectComment start
  else
    fail .unterminatedComment start

/-- Reads a comment if one opens here. -/
def comment : Parser Bool := do
  if ← atComment then
    passComment
    return true
  else
    return false

/-- Whitespace and a comment behind it, as long as comments come, in so many rounds at most. -/
def triviaUpTo : Nat → Parser Unit
  | 0 => return ()
  | rounds + 1 => do
    if (← cursor).atEnd then
      return ()
    else
      move fun cursor => cursor.advanceWhile isBlank cursor.left
      if ← comment then triviaUpTo rounds else return ()

/-- Passes over all whitespace and comments that come next.  Every round but the last passes a
comment, so there are never more of them than bytes. -/
def trivia : Parser Unit := do
  triviaUpTo (← left)

end Ebnf.Parser
