import Ebnf.Scanning.Basic
import Ebnf.Text.Utf8

/-!
# Productions

One definition for each level of the notation, over any scanner.  A production answers
`none`, and has consumed nothing, when its construct does not begin at the cursor; once
it has begun, a construct that is not completed is an error.

Bracketed sequences contain definitions again; the productions that lead to them take
what scans the inside of brackets as an argument, and `definitionsUpTo` closes the circle
for a number of levels.  Every level costs at least the byte of its bracket, so as many
levels as there are bytes are enough.
-/

namespace Ebnf.Scanning

open Byte Noting

variable {m : Type → Type} [Monad m] {Place Stop Note : Type} [Scanning m Place Stop Note]

/-! ### Lexemes -/

/-- The next letter or digit of a meta-identifier, with the stop behind it, and the trivia
that follows. -/
def nameByte : m (Option (UInt8 × Stop)) := do
  match ← one isWord with
  | none => return none
  | some b =>
    let behind ← stop
    trivia
    return some (b, behind)

variable [Noting Note Place Stop]

/-- A meta-identifier, after any trivia.  Its bytes may themselves have trivia between
them; its note ends with the last of them, though trivia behind it is consumed too. -/
def name : m (Option (Note × Bytes)) := orUndo do
  trivia
  let start ← place
  if (← current).any isLetter then
    let bytes ← many nameByte
    return bytes.getLast?.map fun last => (between start last.2, bytes.map Prod.fst)
  else
    return none

def identifier : m (Option (Primary Note)) := do
  return (← name).map fun (note, bytes) => .identifier note bytes

/-- A terminal string between two quotes of the same kind. -/
def terminal : m (Option (Primary Note)) := do
  let start ← place
  match ← one fun b => b == apostrophe || b == quotationMark with
  | none => return none
  | some quote =>
    if ← byte quote then
      fail .emptyTerminal start
    else
      let content ← takeWhile (isTerminal quote)
      match ← current with
      | none => fail .unterminatedTerminal start
      | some b =>
        if ← byte quote then
          return some (.terminal (between start (← stop)) content)
        else
          fail (.invalidTerminalByte b) start

/-- A special sequence between two question marks. -/
def special : m (Option (Primary Note)) := do
  let start ← place
  if ← byte questionMark then
    let content ← passTo questionMark
    if ← byte questionMark then
      return some (.special (between start (← stop)) (Utf8.text content.trim))
    else
      fail .unterminatedSpecial start
  else
    return none

/-! ### Levels -/

/-- A symbol and the trivia behind it. -/
def separator (accepts : m Bool) : m Bool := do
  if ← accepts then
    trivia
    return true
  else
    return false

/-- The definition that terms make up. -/
def concatenate : List (Term Note) → Option (Definition Note)
  | [] => none
  | [t] => some (.term t)
  | first :: second :: more =>
    some (.concatenation
      (between (Noting.start first.note) (Noting.stop ((second :: more).getLast (by simp)).note))
      first second more)

section Levels

variable (inside : m (List (Definition Note)))

def bracketedWith (bracket : Bracket) : m (Option (Primary Note)) :=
  entering (.bracketed bracket) do
    let start ← place
    match ← symbol bracket.openers with
    | none => return none
    | some opener =>
      let definitions ← inside
      match ← symbol bracket.closers with
      | none => fail (.unclosedBracket bracket opener) start
      | some _ => return some (.bracketed (between start (← stop)) bracket definitions)

/-- A primary that is not empty.  Optional and repeated sequences come before grouped
ones, whose opening symbol begins one of their spellings. -/
def primaryWith : m (Option (Primary Note)) :=
  entering .primary <|
    firstOf [bracketedWith inside .optional, bracketedWith inside .repeated,
      bracketedWith inside .grouped, identifier, terminal, special]

/-- A primary, or a count, `*`, and a primary that may be empty. -/
def factorWith : m (Option (Factor Note)) :=
  entering .factor do
    let start ← place
    let digits ← takeWhile isDigit
    if digits.isEmpty then
      return (← primaryWith inside).map .primary
    else
      let count ← convert digits
      trivia
      if ← byte asterisk then
        let behind ← stop
        trivia
        let operand ← primaryWith inside
        return some (.repetition
          (between start ((operand.map fun p => Noting.stop p.note).getD behind)) count operand)
      else
        fail (.missingRepetitionSymbol count) start

/-- A factor, and after `-` a factor that may be empty.  An exception takes up everything
from where the term was looked for, and so the trivia that a meta-identifier passes over
to get to its first letter. -/
def termWith : m (Option (Term Note)) :=
  entering .term do
    let start ← place
    match ← factorWith inside with
    | none => return none
    | some base =>
      trivia
      if ← byte hyphen then
        let behind ← stop
        trivia
        let excluded ← factorWith inside
        return some (.exception
          (between start ((excluded.map fun x => Noting.stop x.note).getD behind)) base excluded)
      else
        return some (.factor base)

/-- Terms between commas, any of which may be missing. -/
def definitionWith : m (Option (Definition Note)) :=
  entering .definition do
    let terms ← separated
      (do
        let t ← termWith inside
        trivia
        return t)
      (separator (byte comma))
    return concatenate terms

/-- Definitions between separators, any of which may be missing. -/
def definitionsWith : m (List (Definition Note)) := do
  trivia
  separated
    (do
      let d ← definitionWith inside
      trivia
      return d)
    (separator definitionSeparator)

end Levels

/-- Scans definitions with brackets nested up to a number of levels. -/
def definitionsUpTo : Nat → m (List (Definition Note))
  | 0 => return []
  | levels + 1 => definitionsWith (definitionsUpTo levels)

def definitions : m (List (Definition Note)) := do
  definitionsUpTo ((← left) + 1)

def bracketed (bracket : Bracket) : m (Option (Primary Note)) :=
  bracketedWith definitions bracket

def primary : m (Option (Primary Note)) :=
  primaryWith definitions

def factor : m (Option (Factor Note)) :=
  factorWith definitions

def term : m (Option (Term Note)) :=
  termWith definitions

def definition : m (Option (Definition Note)) :=
  definitionWith definitions

/-! ### Rules -/

/-- Stops if a quoted lexeme that is not well formed begins here.  Where a name is
missing, such a lexeme is reported rather than the missing name. -/
def strayLexeme : m Unit :=
  check (firstOf [special, terminal])

/-- A rule, after any trivia: its name, `=`, its definitions and `;`. -/
def rule : m (Rule Note) := do
  trivia
  let start ← place
  match ← name with
  | none =>
    strayLexeme
    fail .missingName start
  | some (_, name) =>
    if ← byte equalsSign then
      let definitions ← definitions
      if ← byte semicolon then
        return ⟨between start (← stop), name, definitions⟩
      else
        fail (.missingTerminator name) start
    else
      fail (.missingDefiningSymbol name) start

/-- The next rule, unless only trivia is left. -/
def nextRule : m (Option (Rule Note)) := do
  trivia
  if (← current).isNone then return none
  else return some (← rule)

end Ebnf.Scanning
