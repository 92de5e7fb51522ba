import Ebnf.Proofs.Reading.Run
import Ebnf.Reader.Progress

/-!
# What a reader ensures

A reader at some place either succeeds, and then a postcondition holds of its value, its
comments and the rest, or it stops with an error, and then the error is a fault of the
source being read.  What counts as a fault is the same for all the readers that a
production combines, so a fault that one of them meets is passed on as it is.

The rules below take a combination of readers apart from left to right, so that a
production is proved right in the order in which it reads.  Loops are the only
place with an induction, on the length of the input.
-/

namespace Ebnf.Reader

open Scanning

/-- A run ends either in the postcondition or in a fault. -/
def Ensures (fault : Fault Mark → Prop) (reader : Reader α) (input : Bytes)
    (post : α → List (Comment Mark) → Bytes → Prop) : Prop :=
  match reader.run input with
  | .ok outcome => post outcome.value outcome.comments outcome.rest
  | .error error => fault error

namespace Ensures

variable {fault fault' : Fault Mark → Prop}
  {post post' : α → List (Comment Mark) → Bytes → Prop} {input : Bytes}

theorem of_ok {reader : Reader α} (h : reader.Ensures fault input post)
    {outcome : Outcome α} (hrun : reader.run input = .ok outcome) :
    post outcome.value outcome.comments outcome.rest := by
  unfold Ensures at h
  rwa [hrun] at h

theorem of_error {reader : Reader α} (h : reader.Ensures fault input post)
    {error : Fault Mark} (hrun : reader.run input = .error error) : fault error := by
  unfold Ensures at h
  rwa [hrun] at h

theorem mono_run {reader : Reader α} (h : reader.Ensures fault input post)
    (hpost : ∀ outcome, reader.run input = .ok outcome →
      post outcome.value outcome.comments outcome.rest →
        post' outcome.value outcome.comments outcome.rest) :
    reader.Ensures fault input post' := by
  unfold Ensures at h ⊢
  cases hrun : reader.run input with
  | error error => simpa only [hrun] using h
  | ok outcome =>
    rw [hrun] at h
    exact hpost outcome hrun h

theorem mono {reader : Reader α} (h : reader.Ensures fault input post)
    (hpost : ∀ value comments rest, post value comments rest → post' value comments rest) :
    reader.Ensures fault input post' :=
  h.mono_run fun outcome _ => hpost outcome.value outcome.comments outcome.rest

/-- A fault that means something else where the reader is used. -/
theorem mono_fault {reader : Reader α} (h : reader.Ensures fault input post)
    (hfault : ∀ error, fault error → fault' error) : reader.Ensures fault' input post := by
  unfold Ensures at h ⊢
  cases hrun : reader.run input with
  | error error =>
    rw [hrun] at h
    exact hfault error h
  | ok outcome =>
    rw [hrun] at h
    exact h

/-- A run that goes on as another one does. -/
theorem of_run_eq {reader next : Reader α} {rest : Bytes} (h : next.Ensures fault rest post)
    (hrun : reader.run input = next.run rest) : reader.Ensures fault input post := by
  unfold Ensures at h ⊢
  rwa [hrun]

theorem pure {value : α} (h : post value [] input) :
    (Pure.pure value : Reader α).Ensures fault input post := h

theorem bind {reader : Reader α} {next : α → Reader β}
    {post : β → List (Comment Mark) → Bytes → Prop}
    (h : reader.Ensures fault input fun value comments rest =>
      (next value).Ensures fault rest fun value' comments' rest' =>
        post value' (comments ++ comments') rest') :
    (reader >>= next).Ensures fault input post := by
  unfold Ensures at h ⊢
  rw [run_bind]
  cases hfirst : reader.run input with
  | error error => simpa only [hfirst] using h
  | ok first =>
    rw [hfirst] at h
    simp only at h ⊢
    cases hsecond : (next first.value).run first.rest with
    | error error => simpa only [hsecond] using h
    | ok second =>
      rw [hsecond] at h
      exact h

theorem bind_pure {reader : Reader α} {f : α → β}
    {post : β → List (Comment Mark) → Bytes → Prop}
    (h : reader.Ensures fault input fun value comments rest =>
      post (f value) comments rest) :
    (reader >>= fun value => Pure.pure (f value)).Ensures fault input post := by
  apply bind
  apply h.mono
  intro value comments rest hpost
  apply pure
  rwa [List.append_nil]

theorem bind_current {next : Option UInt8 → Reader α}
    (h : (next input.head?).Ensures fault input post) :
    (Reader.current >>= next).Ensures fault input post :=
  h.of_run_eq (run_current_bind next input)

theorem bind_mark {next : Mark → Reader α}
    (h : (next input.length).Ensures fault input post) :
    (Reader.mark >>= next).Ensures fault input post :=
  h.of_run_eq (run_mark_bind next input)

theorem fail {cause : Cause} {start : Mark}
    (h : fault (.syntaxError ⟨cause, start, input.length⟩)) :
    (Reader.fail cause start : Reader α).Ensures fault input post := h

theorem convert [Runtime] {digits : Bytes} {post : Nat → List (Comment Mark) → Bytes → Prop}
    (hyes : Runtime.converts digits.length → post digits.decimal [] input)
    (hno : ¬Runtime.converts digits.length → fault (.refusal digits.length input.length)) :
    (Reader.convert digits).Ensures fault input post := by
  unfold Ensures
  by_cases hconverts : Runtime.converts digits.length
  · rw [convert_run hconverts]
    exact hyes hconverts
  · rw [convert_run_refused hconverts]
    exact hno hconverts

theorem byte {expected : UInt8} {post : Bool → List (Comment Mark) → Bytes → Prop}
    (hyes : ∀ rest, input = expected :: rest → post true [] rest)
    (hno : input.head? ≠ some expected → post false [] input) :
    (Reader.byte expected).Ensures fault input post := by
  unfold Ensures
  by_cases hhead : input.head? = some expected
  · obtain ⟨rest, rfl⟩ := List.head?_eq_some_iff.1 hhead
    rw [byte_run_cons]
    exact hyes rest rfl
  · rw [byte_run_of_ne hhead]
    exact hno hhead

theorem bind_byte {expected : UInt8} {yes no : Reader α}
    (hyes : ∀ rest, input = expected :: rest → yes.Ensures fault rest post)
    (hno : input.head? ≠ some expected → no.Ensures fault input post) :
    (Reader.byte expected >>= fun found => if found then yes else no).Ensures
      fault input post := by
  by_cases hhead : input.head? = some expected
  · obtain ⟨rest, rfl⟩ := List.head?_eq_some_iff.1 hhead
    exact (hyes rest rfl).of_run_eq (run_byte_bind_cons expected yes no rest)
  · exact (hno hhead).of_run_eq (run_byte_bind_of_ne yes no hhead)

theorem one {member : UInt8 → Bool}
    {post : Option UInt8 → List (Comment Mark) → Bytes → Prop}
    (hyes : ∀ b rest, input = b :: rest → member b → post (some b) [] rest)
    (hno : (∀ b, input.head? = some b → ¬member b) → post none [] input) :
    (Reader.one member).Ensures fault input post := by
  unfold Ensures
  by_cases hmember : ∃ b, input.head? = some b ∧ member b
  · obtain ⟨b, hhead, hb⟩ := hmember
    obtain ⟨rest, rfl⟩ := List.head?_eq_some_iff.1 hhead
    rw [one_run_cons hb]
    exact hyes b rest rfl hb
  · have hnone : ∀ b, input.head? = some b → ¬member b :=
      fun b hb hmem => hmember ⟨b, hb, hmem⟩
    rw [one_run_none hnone]
    exact hno hnone

theorem takeWhile {member : UInt8 → Bool}
    {post : Bytes → List (Comment Mark) → Bytes → Prop}
    (h : ∀ run rest, input = run ++ rest → (∀ b ∈ run, member b) →
      (∀ b, rest.head? = some b → ¬member b) → post run [] rest) :
    (Reader.takeWhile member).Ensures fault input post := by
  have hmember : ∀ b ∈ input.takeWhile member, member b := by
    intro b hb
    exact List.mem_takeWhile_imp hb
  have hmaximal : ∀ b, (input.dropWhile member).head? = some b → ¬member b := by
    intro b hb
    have hstop := List.head?_dropWhile_not member input
    rw [hb] at hstop
    simpa using hstop
  exact h _ _ List.takeWhile_append_dropWhile.symm hmember hmaximal

theorem symbol {spellings : List Bytes}
    {post : Option Bytes → List (Comment Mark) → Bytes → Prop}
    (hyes : ∀ spelling rest, spellings.find? (fun spelling => spelling.isPrefixOf input) =
      some spelling → input = spelling ++ rest → post (some spelling) [] rest)
    (hno : (∀ spelling ∈ spellings, ¬spelling <+: input) → post none [] input) :
    (Reader.symbol spellings).Ensures fault input post := by
  unfold Ensures
  cases hfind : spellings.find? fun spelling => spelling.isPrefixOf input with
  | none =>
    have hnone : ∀ spelling ∈ spellings, ¬spelling <+: input := by
      intro spelling hmem hprefix
      have hnot := List.find?_eq_none.1 hfind spelling hmem
      exact hnot (List.isPrefixOf_iff_prefix.2 hprefix)
    rw [symbol_run_none hnone]
    exact hno hnone
  | some spelling =>
    have hhere : spelling.isPrefixOf input := by
      simpa using List.find?_some hfind
    obtain ⟨rest, rfl⟩ := List.isPrefixOf_iff_prefix.1 hhere
    rw [symbol_run_some hfind]
    exact hyes spelling rest hfind rfl

theorem orUndo {reader : Reader (Option α)}
    {post : Option α → List (Comment Mark) → Bytes → Prop}
    (h : reader.Ensures fault input fun value comments rest =>
      match value with
      | none => post none [] input
      | some value => post (some value) comments rest) :
    reader.orUndo.Ensures fault input post := by
  unfold Ensures at h ⊢
  cases hrun : reader.run input with
  | error error =>
    rw [hrun] at h
    rwa [orUndo_run_error hrun]
  | ok outcome =>
    rw [hrun] at h
    rcases outcome with ⟨value, comments, rest⟩
    cases value with
    | none => rwa [orUndo_run_none hrun]
    | some value => rwa [orUndo_run_some hrun]

theorem check {reader : Reader α} {post : Unit → List (Comment Mark) → Bytes → Prop}
    (h : reader.Ensures fault input fun _ _ _ => post () [] input) :
    reader.check.Ensures fault input post := by
  unfold Ensures at h ⊢
  cases hrun : reader.run input with
  | error error =>
    rw [hrun] at h
    rwa [check_run_error hrun]
  | ok outcome =>
    rw [hrun] at h
    rwa [check_run_ok hrun]

/-! ### Loops -/

theorem many {item : Reader (Option α)} (hconsumes : item.Consumes Option.isSome)
    {pre : Bytes → Prop} {post : Bytes → List α → List (Comment Mark) → Bytes → Prop}
    (hitem : ∀ input, pre input →
      item.Ensures fault input fun value comments rest =>
        match value with
        | none => post input [] comments rest
        | some value => pre rest ∧ ∀ values comments' rest', post rest values comments' rest' →
            post input (value :: values) (comments ++ comments') rest')
    (hpre : pre input) :
    (Scanning.many item).Ensures fault input (post input) := by
  induction hlength : input.length using Nat.strongRecOn generalizing input with
  | _ length ih =>
    rw [many_eq hconsumes]
    apply bind
    apply (hitem input hpre).mono_run
    intro first hfirst hmore
    rcases first with ⟨value, comments, rest⟩
    cases value with
    | none =>
      apply pure
      simpa using hmore
    | some value =>
      obtain ⟨hrest, hmore⟩ := hmore
      have hshort := hconsumes.shorter hfirst rfl
      apply bind
      apply (ih rest.length (hlength ▸ hshort) hrest rfl).mono
      intro values comments' rest' hpost
      apply pure
      rw [List.append_nil]
      exact hmore values comments' rest' hpost

theorem separated {item : Reader (Option α)} {separator : Reader Bool}
    (hitem : item.Forward) (hconsumes : separator.Consumes id) {pre : Bytes → Prop}
    {post : Bytes → List α → List (Comment Mark) → Bytes → Prop}
    (hround : ∀ input, pre input →
      item.Ensures fault input fun value comments middle =>
        separator.Ensures fault middle fun more comments' next =>
          match more with
          | false => post input value.toList (comments ++ comments') next
          | true => pre next ∧ ∀ values comments'' rest, post next values comments'' rest →
              post input (value.toList ++ values)
                (comments ++ (comments' ++ comments'')) rest)
    (hpre : pre input) :
    (Scanning.separated item separator).Ensures fault input (post input) := by
  induction hlength : input.length using Nat.strongRecOn generalizing input with
  | _ length ih =>
    rw [separated_eq hitem hconsumes]
    apply bind
    apply (hround input hpre).mono_run
    intro first hfirst hvalue
    apply bind
    apply hvalue.mono_run
    intro second hsecond hmore
    have hle := hitem.length_le hfirst
    rcases second with ⟨more, comments, next⟩
    cases more with
    | false =>
      apply pure
      simpa using hmore
    | true =>
      -- The item may have consumed nothing; the separator is what leaves fewer bytes.
      obtain ⟨hnext, hmore⟩ := hmore
      have hshort := hconsumes.shorter hsecond rfl
      simp only at hshort
      apply bind
      apply (ih next.length (by omega) hnext rfl).mono
      intro values comments' rest hpost
      apply pure
      rw [List.append_nil]
      exact hmore values comments' rest hpost

end Ensures

end Ebnf.Reader
