import Ebnf.Proofs.Reading.Run
import Ebnf.Reader.Progress

/-!
# What a reader yields

A postcondition on the value, the comments and the rest of a reader that does not stop
with an error.  Unlike what a reader ensures, it is about one place alone, says nothing
of errors, and so needs nothing known of the bytes there.  The rules take a combination
of readers apart from left to right.
-/

namespace Ebnf.Reader

open Scanning

structure Yields (reader : Reader α) (input : Bytes)
    (post : α → List (Comment Mark) → Bytes → Prop) : Prop where
  holds : ∀ {value comments rest}, reader.run input = .ok ⟨value, comments, rest⟩ →
    post value comments rest

namespace Yields

variable {input : Bytes} {post post' : α → List (Comment Mark) → Bytes → Prop}

theorem mono {reader : Reader α} (h : reader.Yields input post)
    (hpost : ∀ value comments rest, post value comments rest → post' value comments rest) :
    reader.Yields input post' where
  holds hrun := hpost _ _ _ (h.holds hrun)

/-- What is known of the reader as such may be used. -/
theorem with_run {reader : Reader α} (h : reader.Yields input post) :
    reader.Yields input fun value comments rest =>
      reader.run input = .ok ⟨value, comments, rest⟩ ∧ post value comments rest where
  holds hrun := ⟨hrun, h.holds hrun⟩

theorem of_run_eq {reader next : Reader α} {rest : Bytes} (h : next.Yields rest post)
    (hrun : reader.run input = next.run rest) : reader.Yields input post where
  holds hreader := h.holds (hrun ▸ hreader)

theorem pure {value : α} (h : post value [] input) :
    (Pure.pure value : Reader α).Yields input post where
  holds hrun := by
    cases hrun
    exact h

theorem fail (cause : Cause) (start : Mark) :
    (Reader.fail cause start : Reader α).Yields input post where
  holds hrun := by cases hrun

theorem bind {reader : Reader α} {next : α → Reader β}
    {post : β → List (Comment Mark) → Bytes → Prop}
    (h : reader.Yields input fun value comments rest =>
      (next value).Yields rest fun value' comments' rest' =>
        post value' (comments ++ comments') rest') :
    (reader >>= next).Yields input post where
  holds hrun := by
    obtain ⟨first, second, hfirst, hsecond, heq⟩ := run_bind_eq_ok.1 hrun
    injection heq with hvalue hcomments hrest
    rw [hvalue, hcomments, hrest]
    exact (h.holds hfirst).holds hsecond

theorem bind_pure {reader : Reader α} {f : α → β}
    {post : β → List (Comment Mark) → Bytes → Prop}
    (h : reader.Yields input fun value comments rest => post (f value) comments rest) :
    (reader >>= fun value => Pure.pure (f value)).Yields input post := by
  apply bind
  apply h.mono
  intro value comments rest hpost
  apply pure
  rwa [List.append_nil]

theorem map {reader : Reader α} {f : α → β}
    {post : β → List (Comment Mark) → Bytes → Prop}
    (h : reader.Yields input fun value comments rest => post (f value) comments rest) :
    (f <$> reader).Yields input post := by
  rw [map_eq_pure_bind]
  exact h.bind_pure

theorem bind_mark {next : Mark → Reader α} (h : (next input.length).Yields input post) :
    (Reader.mark >>= next).Yields input post :=
  h.of_run_eq (run_mark_bind next input)

theorem bind_current {next : Option UInt8 → Reader α}
    (h : (next input.head?).Yields input post) : (Reader.current >>= next).Yields input post :=
  h.of_run_eq (run_current_bind next input)

theorem convert [Runtime] {digits : Bytes} {post : Nat → List (Comment Mark) → Bytes → Prop}
    (h : Runtime.converts digits.length → post digits.decimal [] input) :
    (Reader.convert digits).Yields input post where
  holds hrun := by
    by_cases hconverts : Runtime.converts digits.length
    · rw [convert_run hconverts] at hrun
      cases hrun
      exact h hconverts
    · rw [convert_run_refused hconverts] at hrun
      cases hrun

theorem bind_byte {expected : UInt8} {yes no : Reader α}
    (hyes : ∀ rest, input = expected :: rest → yes.Yields rest post)
    (hno : no.Yields input post) :
    (Reader.byte expected >>= fun found => if found then yes else no).Yields input post := by
  by_cases hhead : input.head? = some expected
  · obtain ⟨rest, rfl⟩ := List.head?_eq_some_iff.1 hhead
    exact (hyes rest rfl).of_run_eq (run_byte_bind_cons expected yes no rest)
  · exact hno.of_run_eq (run_byte_bind_of_ne yes no hhead)

theorem orUndo {reader : Reader (Option α)}
    {post : Option α → List (Comment Mark) → Bytes → Prop} (hnone : post none [] input)
    (hsome : reader.Yields input fun value comments rest =>
      value.isSome → post value comments rest) : reader.orUndo.Yields input post where
  holds {value comments rest} hrun := by
    rcases hattempt : reader.run input with error | ⟨_ | found, comments', rest'⟩
    · rw [orUndo_run_error hattempt] at hrun
      cases hrun
    · rw [orUndo_run_none hattempt] at hrun
      cases hrun
      exact hnone
    · rw [orUndo_run_some hattempt] at hrun
      cases hrun
      exact hsome.holds hattempt rfl

/-! ### Loops -/

theorem many {item : Reader (Option α)} (hconsumes : item.Consumes Option.isSome)
    (post : Bytes → List α → List (Comment Mark) → Bytes → Prop)
    (hitem : ∀ input, item.Yields input fun value comments rest =>
      match value with
      | none => post input [] comments rest
      | some value => ∀ values comments' rest', post rest values comments' rest' →
          post input (value :: values) (comments ++ comments') rest')
    (input : Bytes) : (Scanning.many item).Yields input (post input) := by
  induction hlength : input.length using Nat.strongRecOn generalizing input with
  | _ length ih =>
    rw [many_eq hconsumes]
    apply bind
    apply (hitem input).with_run.mono
    rintro value comments rest ⟨hrun, hmore⟩
    cases value with
    | none =>
      apply pure
      rwa [List.append_nil]
    | some value =>
      have hshort := hconsumes.shorter hrun rfl
      apply bind
      apply (ih rest.length (hlength ▸ hshort) rest rfl).mono
      intro values comments' rest' hpost
      apply pure
      rw [List.append_nil]
      exact hmore values comments' rest' hpost

theorem separated {item : Reader (Option α)} {separator : Reader Bool}
    (hitem : item.Forward) (hconsumes : separator.Consumes id)
    (post : Bytes → List α → List (Comment Mark) → Bytes → Prop)
    (hround : ∀ input, item.Yields input fun value comments middle =>
      separator.Yields middle fun more comments' next =>
        match more with
        | false => post input value.toList (comments ++ comments') next
        | true => ∀ values comments'' rest, post next values comments'' rest →
            post input (value.toList ++ values) (comments ++ (comments' ++ comments'')) rest)
    (input : Bytes) : (Scanning.separated item separator).Yields input (post input) := by
  induction hlength : input.length using Nat.strongRecOn generalizing input with
  | _ length ih =>
    rw [separated_eq hitem hconsumes]
    apply bind
    apply (hround input).with_run.mono
    rintro value comments middle ⟨hfirst, hvalue⟩
    apply bind
    apply hvalue.with_run.mono
    rintro more comments' next ⟨hsecond, hmore⟩
    cases more with
    | false =>
      apply pure
      rwa [List.append_nil]
    | true =>
      have hle := hitem.length_le hfirst
      have hshort := hconsumes.shorter hsecond rfl
      simp only at hle hshort
      apply bind
      apply (ih next.length (by omega) next rfl).mono
      intro values comments'' rest hpost
      apply pure
      rw [List.append_nil]
      exact hmore values comments'' rest hpost

end Yields

end Ebnf.Reader
