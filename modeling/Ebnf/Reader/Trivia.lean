import Ebnf.Reader.Basic
import Ebnf.Text.Utf8

/-!
# Trivia

Whitespace and bracketed comments may stand between any two symbols and inside
meta-identifiers.  Comments nest, and only the outermost ones are collected.
-/

namespace Ebnf.Reader

open Scanning

/-- What follows the comment that opened at `start`, read from inside it.  As many
comments as `depth` are open within it.  An opener that `)` follows directly is
an error of its own, at its own place. -/
def afterComment (start : Mark) : Nat → Bytes → Except (SyntaxError Mark) Bytes
  | _, [] => .error ⟨.unterminatedComment, start, 0⟩
  | 0, Byte.asterisk :: Byte.rightParenthesis :: rest => .ok rest
  | depth + 1, Byte.asterisk :: Byte.rightParenthesis :: rest =>
    afterComment start depth rest
  | depth, Byte.leftParenthesis :: Byte.asterisk :: rest =>
    if rest.head? = some Byte.rightParenthesis then
      .error ⟨.emptyComment, rest.length + 2, rest.length + 1⟩
    else afterComment start (depth + 1) rest
  | depth, _ :: rest => afterComment start depth rest

/-- Reads a comment if one opens here. -/
def comment : Reader Bool where
  attempt
  | Byte.leftParenthesis :: Byte.asterisk :: inside =>
    if inside.head? = some Byte.rightParenthesis then
      { result := .error (.syntaxError ⟨.emptyComment, inside.length + 2, inside.length + 1⟩) }
    else
      match afterComment (inside.length + 2) 0 inside with
      | .error error => { result := .error (.syntaxError error) }
      | .ok rest =>
        let interior := inside.take (inside.length - (rest.length + 2))
        ⟨[⟨Utf8.text (Bytes.trim interior), inside.length + 2⟩], .ok (true, rest)⟩
  | input => { result := .ok (false, input) }

/-- One whitespace byte or one comment. -/
def triviaPiece : Reader (Option Unit) := do
  match ← one Byte.isBlank with
  | some _ => return some ()
  | none => if ← comment then return some () else return none

/-- Passes over all whitespace and comments that come next. -/
def trivia : Reader Unit := do
  let _ ← many triviaPiece
  return ()

end Ebnf.Reader
