import Ebnf.Proofs.Simulation.Document

/-!
# Calls move a session forward

Whatever is asked of a session, and whether it is answered or ends in an error, the
session stands at or behind the place where it stood, on the same document, and has the
comments it had with those passed on the way behind them.  This is so for a cursor put
anywhere, also beyond the end, where nothing is left to be read.
-/

namespace Ebnf

open Reader

/-- Comments that begin at or behind one offset and before another, each behind the one
before. -/
structure Between (entry exit : Nat) (comments : List (Comment Position)) : Prop where
  within : ∀ c ∈ comments, entry ≤ c.start.offset ∧ c.start.offset < exit
  ordered : comments.Pairwise fun c d => c.start.offset < d.start.offset

namespace Between

theorem nil (entry exit : Nat) : Between entry exit [] :=
  ⟨by simp, List.Pairwise.nil⟩

theorem append {entry middle exit : Nat} {comments comments' : List (Comment Position)}
    (h : Between entry middle comments) (h' : Between middle exit comments')
    (hentry : entry ≤ middle) (hexit : middle ≤ exit) :
    Between entry exit (comments ++ comments') where
  within c hc := by
    rcases List.mem_append.1 hc with hc | hc
    · have hwithin := h.within c hc
      omega
    · have hwithin := h'.within c hc
      omega
  ordered := by
    refine List.pairwise_append.2 ⟨h.ordered, h'.ordered, fun c hc d hd => ?_⟩
    exact Nat.lt_of_lt_of_le (h.within c hc).2 (h'.within d hd).1

end Between

/-- Fewer unread bytes are further on. -/
theorem Cursor.offset_lt {cursor : Cursor} {place further : Mark} (hlt : further < place)
    (hplace : place ≤ cursor.unread.length) :
    (cursor.positionAt place).offset < (cursor.positionAt further).offset := by
  rw [cursor.offset_positionAt, cursor.offset_positionAt]
  exact Nat.add_lt_add_left (Nat.sub_lt_sub_left (Nat.lt_of_lt_of_le hlt hplace) hlt) _

theorem Cursor.offset_entry_le (cursor : Cursor) (place : Mark) :
    cursor.position.offset ≤ (cursor.positionAt place).offset := by
  rw [cursor.offset_positionAt]
  exact Nat.le_add_right _ _

/-- The cursor does not leave the document, unless it has been put beyond it. -/
theorem Cursor.offset_le_max (cursor : Cursor) (place : Mark) :
    (cursor.positionAt place).offset ≤ max cursor.position.offset cursor.source.length := by
  rw [cursor.offset_positionAt, Cursor.unread, List.length_drop]
  omega

/-- Comments passed by a reader lie between the cursor and where the reader has stopped. -/
theorem Cursor.between {cursor : Cursor} {left : Mark} {comments : List (Comment Mark)}
    (h : Passed left cursor.unread.length comments) :
    Between cursor.position.offset (cursor.positionAt left).offset
      (comments.map (Comment.map cursor.positionAt)) where
  within := by
    rw [List.forall_mem_map]
    intro c hc
    obtain ⟨hleft, hentry⟩ := h.within c hc
    exact ⟨cursor.offset_entry_le c.start, cursor.offset_lt hleft hentry⟩
  ordered := by
    refine List.pairwise_map.2 (h.ordered.imp_of_mem fun {c d} hc _ hlt => ?_)
    exact cursor.offset_lt hlt (h.within c hc).2

/-! ### Sessions -/

namespace Session

/-- A session has become another one by moving forward. -/
structure Follows (session next : Session) : Prop where
  source : next.cursor.source = session.cursor.source
  options : next.cursor.options = session.cursor.options
  forward : session.cursor.position.offset ≤ next.cursor.position.offset
  inside : next.cursor.position.offset ≤
    max session.cursor.position.offset session.cursor.source.length
  added : ∃ added, next.comments = session.comments ++ added ∧
    Between session.cursor.position.offset next.cursor.position.offset added

theorem Follows.refl (session : Session) : session.Follows session where
  source := rfl
  options := rfl
  forward := Nat.le_refl _
  inside := Nat.le_max_left _ _
  added := ⟨[], (List.append_nil _).symm, Between.nil _ _⟩

theorem Follows.trans {session middle next : Session} (h : session.Follows middle)
    (h' : middle.Follows next) : session.Follows next where
  source := h'.source.trans h.source
  options := h'.options.trans h.options
  forward := Nat.le_trans h.forward h'.forward
  inside := by
    have hmiddle := h.inside
    have hnext := h'.inside
    rw [h.source] at hnext
    omega
  added := by
    obtain ⟨added, hcomments, hbetween⟩ := h.added
    obtain ⟨added', hcomments', hbetween'⟩ := h'.added
    refine ⟨added ++ added', ?_, hbetween.append hbetween' h.forward h'.forward⟩
    rw [hcomments', hcomments, List.append_assoc]

theorem run_follows (session : Session) {reader : Reader α} (h : reader.Forward) :
    session.Follows (session.run reader).2 where
  source := rfl
  options := rfl
  forward := session.cursor.offset_entry_le _
  inside := session.cursor.offset_le_max _
  added := ⟨_, rfl, Cursor.between (h.passed _)⟩

/-- A symbol that stands at the cursor stands in the document. -/
theorem symbol_follows (session : Session) (spellings : List Bytes) :
    session.Follows ((Parser.symbol spellings).run session).2 := by
  rw [Parser.symbol_run]
  cases hfind : spellings.find? session.cursor.startsWith with
  | none => exact .refl session
  | some spelling =>
    obtain ⟨hinside, hprefix⟩ : session.cursor.position.offset ≤ session.cursor.source.length ∧
        spelling <+: session.cursor.unread := by
      simpa [Cursor.startsWith] using List.find?_some hfind
    have hlength := hprefix.length_le
    rw [Cursor.unread, List.length_drop] at hlength
    simp only [Cursor.stepOver_eq]
    exact {
      source := rfl
      options := rfl
      forward := Nat.le_add_right _ _
      inside := by
        simp only [Cursor.moveTo]
        omega
      added := ⟨[], (List.append_nil _).symm, Between.nil _ _⟩ }

end Session

/-! ### One call -/

variable [Runtime]

theorem Reader.documentUpTo_passed (rules : Nat) (input : Bytes) :
    (documentUpTo rules input).left ≤ input.length ∧
      Passed (documentUpTo rules input).left input.length
        (documentUpTo rules input).comments := by
  induction rules generalizing input with
  | zero => exact ⟨Nat.zero_le _, Passed.nil _ _⟩
  | succ rules ih =>
    have hinside := forward_nextRule.inside input
    have hpassed := forward_nextRule.passed input
    simp only [documentUpTo]
    rcases hattempt : nextRule.attempt input with ⟨comments, error | ⟨_ | rule, rest⟩⟩ <;>
      rw [hattempt] at hinside hpassed
    · exact ⟨hinside, hpassed⟩
    · exact ⟨Nat.zero_le _, hpassed.mono (Nat.zero_le _)⟩
    · obtain ⟨hleft, hmore⟩ := ih rest
      exact ⟨Nat.le_trans hleft hinside, hpassed.append hmore hleft hinside⟩

theorem Production.forward (production : Production) : production.reader.Forward := by
  cases production with
  | identifier => exact forward_identifier.map _
  | terminal => exact forward_terminal.map _
  | special => exact forward_special.map _
  | bracketed bracket => exact (forward_bracketedWith forward_definitions bracket).map _
  | primary => exact (forward_primaryWith forward_definitions).map _
  | factor => exact (forward_factorWith forward_definitions).map _
  | term => exact (forward_termWith forward_definitions).map _
  | definition => exact (forward_definitionWith forward_definitions).map _
  | rule => exact forward_rule.bind fun _ => Forward.pure _

namespace Session

theorem readAll_follows (session : Session) (debug : Bool) :
    session.Follows (session.readAll debug).2.session := by
  obtain ⟨-, hpassed⟩ := documentUpTo_passed (session.cursor.unread.length + 1)
    session.cursor.unread
  rw [readAll_eq]
  exact {
    source := rfl
    options := rfl
    forward := session.cursor.offset_entry_le _
    inside := session.cursor.offset_le_max _
    added := ⟨_, rfl, Cursor.between hpassed⟩ }

theorem call_follows (session : Session) (call : Call) :
    session.Follows (session.call call).2 := by
  cases call with
  | produce production =>
    rw [call_produce]
    exact session.run_follows (production.forward.map _)
  | definitions =>
    rw [call_definitions]
    exact session.run_follows (forward_definitions.map _)
  | trivia =>
    rw [call_trivia]
    exact session.run_follows <| Forward.mark.bind fun _ => forward_trivia.bind fun _ =>
      Forward.mark.bind fun _ => Forward.pure _
  | comment =>
    rw [call_comment]
    exact session.run_follows forward_comment
  | strayLexeme =>
    rw [call_strayLexeme]
    exact session.run_follows forward_strayLexeme
  | symbol spellings => exact session.symbol_follows spellings
  | parse => exact session.readAll_follows false

/-! ### Calls one after another -/

/-- The session after some calls, whatever comes of them. -/
def after (session : Session) (calls : List Call) : Session :=
  calls.foldl (fun session call => (session.call call).2) session

theorem after_follows (session : Session) (calls : List Call) :
    session.Follows (session.after calls) := by
  induction calls generalizing session with
  | nil => exact .refl session
  | cons call calls ih => exact (session.call_follows call).trans (ih (session.call call).2)

end Session

end Ebnf
