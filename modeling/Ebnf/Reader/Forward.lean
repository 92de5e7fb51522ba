import Ebnf.Reader.Document

/-!
# Readers only move forward

What a reader leaves unread is an end of what it was given, and also an error stops it
inside of its input.  The comments it passed begin one behind the other on the way.  The
property passes through every way of combining readers, so every production has it.  A
reader that goes on to another round has also consumed at least one byte, and this is
what makes the bounds on the rounds harmless.
-/

namespace Ebnf.Reader

open Scanning

/-! ### Running a combination -/

@[ext] theorem ext {reader other : Reader α}
    (h : ∀ input, reader.attempt input = other.attempt input) : reader = other := by
  cases reader
  cases other
  congr
  funext input
  exact h input

theorem run_of_attempt_ok {reader : Reader α} {input rest : Bytes} {value : α}
    {comments : List (Comment Mark)}
    (h : reader.attempt input = ⟨comments, .ok (value, rest)⟩) :
    reader.run input = .ok ⟨value, comments, rest⟩ := by
  simp only [run, h, Attempt.outcome]

theorem run_of_attempt_error {reader : Reader α} {input : Bytes} {error : Fault Mark}
    {comments : List (Comment Mark)} (h : reader.attempt input = ⟨comments, .error error⟩) :
    reader.run input = .error error := by
  simp only [run, h, Attempt.outcome]

theorem attempt_of_run_ok {reader : Reader α} {input : Bytes} {outcome : Outcome α}
    (h : reader.run input = .ok outcome) :
    reader.attempt input = ⟨outcome.comments, .ok (outcome.value, outcome.rest)⟩ := by
  rcases hattempt : reader.attempt input with ⟨comments, error | ⟨value, rest⟩⟩
  · rw [run_of_attempt_error hattempt] at h
    cases h
  · rw [run_of_attempt_ok hattempt] at h
    cases h
    rfl

theorem attempt_of_run_error {reader : Reader α} {input : Bytes} {error : Fault Mark}
    (h : reader.run input = .error error) :
    ∃ comments, reader.attempt input = ⟨comments, .error error⟩ := by
  rcases hattempt : reader.attempt input with ⟨comments, error' | ⟨value, rest⟩⟩
  · rw [run_of_attempt_error hattempt] at h
    cases h
    exact ⟨comments, rfl⟩
  · rw [run_of_attempt_ok hattempt] at h
    cases h

@[simp] theorem attempt_pure (value : α) (input : Bytes) :
    (pure value : Reader α).attempt input = ⟨[], .ok (value, input)⟩ := rfl

@[simp] theorem run_pure (value : α) (input : Bytes) :
    (pure value : Reader α).run input = .ok { value, rest := input } := rfl

theorem attempt_bind (reader : Reader α) (next : α → Reader β) (input : Bytes) :
    (reader >>= next).attempt input =
      match reader.attempt input with
      | ⟨comments, .error error⟩ => ⟨comments, .error error⟩
      | ⟨comments, .ok (value, rest)⟩ =>
        ⟨comments ++ ((next value).attempt rest).comments,
          ((next value).attempt rest).result⟩ := rfl

theorem attempt_bind_of_error {reader : Reader α} (next : α → Reader β) {input : Bytes}
    {comments : List (Comment Mark)} {error : Fault Mark}
    (h : reader.attempt input = ⟨comments, .error error⟩) :
    (reader >>= next).attempt input = ⟨comments, .error error⟩ := by
  simp only [attempt_bind, h]

theorem attempt_bind_of_ok {reader : Reader α} (next : α → Reader β) {input rest : Bytes}
    {comments : List (Comment Mark)} {value : α}
    (h : reader.attempt input = ⟨comments, .ok (value, rest)⟩) :
    (reader >>= next).attempt input =
      ⟨comments ++ ((next value).attempt rest).comments,
        ((next value).attempt rest).result⟩ := by
  simp only [attempt_bind, h]

theorem run_bind (reader : Reader α) (next : α → Reader β) (input : Bytes) :
    (reader >>= next).run input =
      match reader.run input with
      | .error error => .error error
      | .ok first =>
        match (next first.value).run first.rest with
        | .error error => .error error
        | .ok second =>
          .ok { second with comments := first.comments ++ second.comments } := by
  rcases hfirst : reader.attempt input with ⟨comments, error | ⟨value, rest⟩⟩
  · rw [run_of_attempt_error hfirst, run_of_attempt_error (attempt_bind_of_error next hfirst)]
  · rw [run_of_attempt_ok hfirst]
    simp only [run, attempt_bind_of_ok next hfirst, Attempt.outcome]
    cases ((next value).attempt rest).result <;> rfl

theorem run_bind_eq_ok {reader : Reader α} {next : α → Reader β} {input : Bytes}
    {outcome : Outcome β} :
    (reader >>= next).run input = .ok outcome ↔
      ∃ first second, reader.run input = .ok first ∧
        (next first.value).run first.rest = .ok second ∧
        outcome = { second with comments := first.comments ++ second.comments } := by
  rw [run_bind]
  cases hfirst : reader.run input with
  | error error => simp
  | ok first =>
    cases hsecond : (next first.value).run first.rest with
    | error error => simp [hsecond]
    | ok second => simp [hsecond, eq_comm]

private theorem id_map_attempt (reader : Reader α) : id <$> reader = reader := by
  ext1 input
  change (reader >>= fun value => pure (id value)).attempt input = _
  rw [attempt_bind]
  rcases reader.attempt input with ⟨comments, error | ⟨value, rest⟩⟩ <;> simp

private theorem pure_bind_attempt (value : α) (next : α → Reader β) :
    pure value >>= next = next value := by
  ext1 input
  simp only [attempt_bind, attempt_pure, List.nil_append]

private theorem bind_assoc_attempt (reader : Reader α) (next : α → Reader β)
    (last : β → Reader γ) :
    reader >>= next >>= last = reader >>= fun value => next value >>= last := by
  ext1 input
  simp only [attempt_bind]
  rcases reader.attempt input with ⟨comments, error | ⟨value, rest⟩⟩
  · rfl
  · simp only
    rcases (next value).attempt rest with ⟨comments', error | ⟨value', rest'⟩⟩
    · rfl
    · simp only [List.append_assoc]

instance : LawfulMonad Reader :=
  LawfulMonad.mk' Reader id_map_attempt pure_bind_attempt bind_assoc_attempt

/-! ### Moving forward -/

/-- Comments that begin between two marks, each behind the one before. -/
structure Passed (left entry : Mark) (comments : List (Comment Mark)) : Prop where
  within : ∀ c ∈ comments, left < c.start ∧ c.start ≤ entry
  ordered : comments.Pairwise fun c d => d.start < c.start

namespace Passed

theorem nil (left entry : Mark) : Passed left entry [] :=
  ⟨by simp, List.Pairwise.nil⟩

theorem mono {left left' entry : Mark} {comments : List (Comment Mark)}
    (h : Passed left entry comments) (hle : left' ≤ left) : Passed left' entry comments where
  within c hc := ⟨Nat.lt_of_le_of_lt hle (h.within c hc).1, (h.within c hc).2⟩
  ordered := h.ordered

theorem append {left middle entry : Mark} {comments comments' : List (Comment Mark)}
    (h : Passed middle entry comments) (h' : Passed left middle comments')
    (hleft : left ≤ middle) (hmiddle : middle ≤ entry) :
    Passed left entry (comments ++ comments') where
  within c hc := by
    rcases List.mem_append.1 hc with hc | hc
    · have hwithin := h.within c hc
      exact ⟨Nat.lt_of_le_of_lt hleft hwithin.1, hwithin.2⟩
    · have hwithin := h'.within c hc
      exact ⟨hwithin.1, Nat.le_trans hwithin.2 hmiddle⟩
  ordered := by
    refine List.pairwise_append.2 ⟨h.ordered, h'.ordered, fun c hc d hd => ?_⟩
    exact Nat.lt_of_le_of_lt (h'.within d hd).2 (h.within c hc).1

end Passed

/-- A reader leaves an end of its input, also when an error stops it, and passes comments
on the way there. -/
structure Forward (reader : Reader α) : Prop where
  suffix : ∀ {input outcome}, reader.run input = .ok outcome → outcome.rest <:+ input
  inside : ∀ input, (reader.attempt input).left ≤ input.length
  passed : ∀ input, Passed (reader.attempt input).left input.length
    (reader.attempt input).comments

theorem Forward.length_le {reader : Reader α} (h : reader.Forward)
    {input : Bytes} {outcome : Outcome α} (hrun : reader.run input = .ok outcome) :
    outcome.rest.length ≤ input.length :=
  (h.suffix hrun).length_le

/-- A reader leaves a shorter input whenever it finds what it looks for. -/
structure Consumes (found : α → Bool) (reader : Reader α) : Prop where
  shorter : ∀ {input outcome}, reader.run input = .ok outcome → found outcome.value →
    outcome.rest.length < input.length

namespace Forward

/-- A reader that does on each input what some reader that moves forward does. -/
theorem of_attempt {reader : Reader α}
    (h : ∀ input, ∃ other : Reader α, other.Forward ∧
      reader.attempt input = other.attempt input) : reader.Forward where
  suffix {input _} hrun := by
    obtain ⟨other, hother, hsame⟩ := h input
    rw [run, hsame] at hrun
    exact hother.suffix hrun
  inside input := by
    obtain ⟨other, hother, hsame⟩ := h input
    rw [hsame]
    exact hother.inside input
  passed input := by
    obtain ⟨other, hother, hsame⟩ := h input
    rw [hsame]
    exact hother.passed input

theorem plain {step : Bytes → Except (Fault Mark) (α × Bytes)}
    (hok : ∀ {input value rest}, step input = .ok (value, rest) → rest <:+ input)
    (herror : ∀ {input error}, step input = .error error → error.stop ≤ input.length) :
    (Reader.plain step).Forward where
  suffix {input _} hrun := by
    have hresult := congrArg Attempt.result (attempt_of_run_ok hrun)
    exact hok hresult
  inside input := by
    simp only [Reader.plain, Attempt.left]
    cases hstep : step input with
    | error error => exact herror hstep
    | ok pair => exact (hok hstep).length_le
  passed _ := Passed.nil _ _

theorem pure (value : α) : Forward (Pure.pure value : Reader α) :=
  plain (fun hstep => by cases hstep; exact List.suffix_refl _) (fun hstep => by cases hstep)

theorem bind {reader : Reader α} {next : α → Reader β}
    (hreader : reader.Forward) (hnext : ∀ value, (next value).Forward) :
    (reader >>= next).Forward where
  suffix hrun := by
    obtain ⟨first, second, hfirst, hsecond, rfl⟩ := run_bind_eq_ok.1 hrun
    exact ((hnext _).suffix hsecond).trans (hreader.suffix hfirst)
  inside input := by
    have hfirst := hreader.inside input
    rcases hattempt : reader.attempt input with ⟨comments, error | ⟨value, rest⟩⟩
    · rw [attempt_bind_of_error next hattempt]
      rwa [hattempt] at hfirst
    · rw [attempt_bind_of_ok next hattempt]
      rw [hattempt] at hfirst
      exact Nat.le_trans ((hnext value).inside rest) hfirst
  passed input := by
    have hinside := hreader.inside input
    have hfirst := hreader.passed input
    rcases hattempt : reader.attempt input with ⟨comments, error | ⟨value, rest⟩⟩
    · rw [attempt_bind_of_error next hattempt]
      rwa [hattempt] at hfirst
    · rw [attempt_bind_of_ok next hattempt]
      rw [hattempt] at hfirst hinside
      exact hfirst.append ((hnext value).passed rest) ((hnext value).inside rest) hinside

theorem map {reader : Reader α} (f : α → β) (h : reader.Forward) :
    (f <$> reader).Forward := by
  rw [map_eq_pure_bind]
  exact h.bind fun _ => Forward.pure _

theorem ite {condition : Prop} [Decidable condition] {yes no : Reader α}
    (hyes : yes.Forward) (hno : no.Forward) :
    (if condition then yes else no).Forward := by
  split
  · exact hyes
  · exact hno

theorem current : Reader.current.Forward :=
  plain (fun hstep => by cases hstep; exact List.suffix_refl _) (fun hstep => by cases hstep)

theorem mark : Reader.mark.Forward :=
  plain (fun hstep => by cases hstep; exact List.suffix_refl _) (fun hstep => by cases hstep)

theorem fail (cause : Cause) (start : Mark) :
    (Reader.fail cause start : Reader α).Forward :=
  plain (fun hstep => by cases hstep) (fun hstep => by cases hstep; exact Nat.le_refl _)

theorem convert [Runtime] (digits : Bytes) : (Reader.convert digits).Forward := by
  apply plain
  · intro input value rest hstep
    split at hstep <;> cases hstep
    exact List.suffix_refl _
  · intro input error hstep
    split at hstep <;> cases hstep
    exact Nat.le_refl _

theorem byte (expected : UInt8) : (Reader.byte expected).Forward := by
  apply plain
  · intro input value rest hstep
    cases input with
    | nil =>
      cases hstep
      exact List.suffix_refl _
    | cons b rest =>
      simp only at hstep
      split at hstep <;> cases hstep
      · exact List.suffix_cons _ _
      · exact List.suffix_refl _
  · intro input error hstep
    cases input with
    | nil => cases hstep
    | cons b rest =>
      simp only at hstep
      split at hstep <;> cases hstep

theorem one (member : UInt8 → Bool) : (Reader.one member).Forward := by
  apply plain
  · intro input value rest hstep
    cases input with
    | nil =>
      cases hstep
      exact List.suffix_refl _
    | cons b rest =>
      simp only at hstep
      split at hstep <;> cases hstep
      · exact List.suffix_cons _ _
      · exact List.suffix_refl _
  · intro input error hstep
    cases input with
    | nil => cases hstep
    | cons b rest =>
      simp only at hstep
      split at hstep <;> cases hstep

theorem takeWhile (member : UInt8 → Bool) : (Reader.takeWhile member).Forward :=
  plain (fun hstep => by cases hstep; exact List.dropWhile_suffix _)
    (fun hstep => by cases hstep)

theorem symbol (spellings : List Bytes) : (Reader.symbol spellings).Forward := by
  apply plain
  · intro input value rest hstep
    split at hstep <;> cases hstep
    · exact List.suffix_refl _
    · exact List.drop_suffix _ _
  · intro input error hstep
    split at hstep <;> cases hstep

theorem orUndo {reader : Reader (Option α)} (h : reader.Forward) :
    reader.orUndo.Forward := by
  refine of_attempt fun input => ?_
  rcases hattempt : reader.attempt input with ⟨comments, error | ⟨_ | value, rest⟩⟩
  · exact ⟨reader, h, by simp only [Reader.orUndo, hattempt]⟩
  · exact ⟨Pure.pure none, pure none, by simp only [Reader.orUndo, hattempt, attempt_pure]⟩
  · exact ⟨reader, h, by simp only [Reader.orUndo, hattempt]⟩

theorem check {reader : Reader α} (h : reader.Forward) : reader.check.Forward := by
  refine of_attempt fun input => ?_
  rcases hattempt : reader.attempt input with ⟨comments, error | ⟨value, rest⟩⟩
  · refine ⟨reader >>= fun _ => Pure.pure (), h.bind fun _ => pure (), ?_⟩
    rw [attempt_bind_of_error _ hattempt]
    simp only [Reader.check, hattempt]
  · exact ⟨Pure.pure (), pure (), by simp only [Reader.check, hattempt, attempt_pure]⟩

theorem firstOf {readers : List (Reader (Option α))}
    (h : ∀ reader ∈ readers, reader.Forward) : (Scanning.firstOf readers).Forward := by
  induction readers with
  | nil => exact Forward.pure none
  | cons reader more ih =>
    refine (h reader (by simp)).bind fun value => ?_
    cases value with
    | some value => exact Forward.pure _
    | none => exact ih fun other hmem => h other (by simp [hmem])

theorem manyUpTo {item : Reader (Option α)} (h : item.Forward) (rounds : Nat) :
    (Scanning.manyUpTo item rounds).Forward := by
  induction rounds with
  | zero => exact Forward.pure []
  | succ rounds ih =>
    refine h.bind fun value => ?_
    cases value with
    | none => exact Forward.pure []
    | some value => exact ih.bind fun _ => Forward.pure _

theorem many {item : Reader (Option α)} (h : item.Forward) :
    (Scanning.many item).Forward :=
  of_attempt fun input => ⟨_, h.manyUpTo (input.length + 1), rfl⟩

theorem separatedUpTo {item : Reader (Option α)} {separator : Reader Bool}
    (hitem : item.Forward) (hseparator : separator.Forward) (rounds : Nat) :
    (Scanning.separatedUpTo item separator rounds).Forward := by
  induction rounds with
  | zero => exact Forward.pure []
  | succ rounds ih =>
    refine hitem.bind fun first => hseparator.bind fun more => ?_
    exact Forward.ite (ih.bind fun _ => Forward.pure _) (Forward.pure _)

theorem separated {item : Reader (Option α)} {separator : Reader Bool}
    (hitem : item.Forward) (hseparator : separator.Forward) :
    (Scanning.separated item separator).Forward :=
  of_attempt fun input => ⟨_, hitem.separatedUpTo hseparator (input.length + 1), rfl⟩

end Forward

/-! ### Consuming -/

namespace Consumes

theorem plain {step : Bytes → Except (Fault Mark) (α × Bytes)} {found : α → Bool}
    (h : ∀ {input value rest}, step input = .ok (value, rest) → found value →
      rest.length < input.length) : (Reader.plain step).Consumes found where
  shorter hrun hfound := h (congrArg Attempt.result (attempt_of_run_ok hrun)) hfound

theorem byte (expected : UInt8) : (Reader.byte expected).Consumes id := by
  apply plain
  intro input value rest hstep hfound
  cases input with
  | nil =>
    cases hstep
    cases hfound
  | cons b rest =>
    simp only at hstep
    split at hstep <;> cases hstep
    · simp
    · cases hfound

theorem one (member : UInt8 → Bool) : (Reader.one member).Consumes Option.isSome := by
  apply plain
  intro input value rest hstep hfound
  cases input with
  | nil =>
    cases hstep
    cases hfound
  | cons b rest =>
    simp only at hstep
    split at hstep <;> cases hstep
    · simp
    · cases hfound

theorem symbol {spellings : List Bytes} (h : [] ∉ spellings) :
    (Reader.symbol spellings).Consumes Option.isSome := by
  apply plain
  intro input value rest hstep hfound
  split at hstep
  · cases hstep
    cases hfound
  next spelling hspelling =>
    cases hstep
    have hmem := List.mem_of_find?_eq_some hspelling
    have hhere := List.find?_some hspelling
    have hle := (List.isPrefixOf_iff_prefix.1 hhere).length_le
    have hpos : spelling.length ≠ 0 := by
      intro hzero
      rw [List.length_eq_zero_iff] at hzero
      exact h (hzero ▸ hmem)
    simp only [List.length_drop]
    omega

/-- A reader consumes if it finds nothing unless its first part consumes. -/
theorem bind_left {reader : Reader α} {next : α → Reader β}
    {first : α → Bool} {found : β → Bool} (hreader : reader.Consumes first)
    (hnext : ∀ value, (next value).Forward)
    (honly : ∀ value input outcome, (next value).run input = .ok outcome →
      found outcome.value → first value) :
    (reader >>= next).Consumes found where
  shorter hrun hfound := by
    obtain ⟨one, two, hone, htwo, rfl⟩ := run_bind_eq_ok.1 hrun
    have hle := (hnext one.value).length_le htwo
    have hshort := hreader.shorter hone (honly _ _ _ htwo hfound)
    exact Nat.lt_of_le_of_lt hle hshort

end Consumes

/-! ### Rounds -/

theorem attempt_many (item : Reader (Option α)) (input : Bytes) :
    (many item).attempt input = (manyUpTo item (input.length + 1)).attempt input := rfl

theorem attempt_separated (item : Reader (Option α)) (separator : Reader Bool) (input : Bytes) :
    (separated item separator).attempt input =
      (separatedUpTo item separator (input.length + 1)).attempt input := rfl

/-- More rounds than bytes change nothing. -/
theorem manyUpTo_eq {item : Reader (Option α)} (hconsumes : item.Consumes Option.isSome) :
    ∀ {rounds other : Nat} {input : Bytes}, input.length < rounds →
      input.length < other →
      (manyUpTo item rounds).attempt input = (manyUpTo item other).attempt input := by
  intro rounds
  induction rounds with
  | zero =>
    intro other input hrounds
    omega
  | succ rounds ih =>
    intro other input hrounds hother
    obtain ⟨other, rfl⟩ : ∃ n, other = n + 1 := ⟨other - 1, by omega⟩
    simp only [manyUpTo, attempt_bind]
    rcases hitem : item.attempt input with ⟨comments, error | ⟨_ | value, rest⟩⟩
    · rfl
    · rfl
    · have hshort := hconsumes.shorter (run_of_attempt_ok hitem) rfl
      simp only at hshort
      simp only [attempt_bind,
        ih (by omega : rest.length < rounds) (by omega : rest.length < other)]

/-- Reading many items is reading one and then many, or none. -/
theorem many_eq {item : Reader (Option α)} (hconsumes : item.Consumes Option.isSome) :
    many item = do
      match ← item with
      | none => return []
      | some value => return value :: (← many item) := by
  ext1 input
  simp only [attempt_many, manyUpTo, attempt_bind]
  rcases hitem : item.attempt input with ⟨comments, error | ⟨_ | value, rest⟩⟩
  · rfl
  · rfl
  · have hshort := hconsumes.shorter (run_of_attempt_ok hitem) rfl
    simp only at hshort
    simp only [attempt_bind, attempt_many,
      manyUpTo_eq hconsumes hshort (Nat.lt_succ_self rest.length)]

theorem separatedUpTo_eq {item : Reader (Option α)} {separator : Reader Bool}
    (hitem : item.Forward) (hseparator : separator.Consumes id) :
    ∀ {rounds other : Nat} {input : Bytes}, input.length < rounds →
      input.length < other →
      (separatedUpTo item separator rounds).attempt input =
        (separatedUpTo item separator other).attempt input := by
  intro rounds
  induction rounds with
  | zero =>
    intro other input hrounds
    omega
  | succ rounds ih =>
    intro other input hrounds hother
    obtain ⟨other, rfl⟩ : ∃ n, other = n + 1 := ⟨other - 1, by omega⟩
    simp only [separatedUpTo, attempt_bind]
    rcases hfirst : item.attempt input with ⟨comments, error | ⟨first, middle⟩⟩
    · rfl
    · have hle := hitem.length_le (run_of_attempt_ok hfirst)
      simp only at hle ⊢
      rcases hsep : separator.attempt middle with ⟨comments', error | ⟨_ | _, rest⟩⟩
      · rfl
      · rfl
      · have hshort := hseparator.shorter (run_of_attempt_ok hsep) rfl
        simp only at hshort
        simp only [if_true, attempt_bind,
          ih (by omega : rest.length < rounds) (by omega : rest.length < other)]

/-- Reading separated items is reading one and, after a separator, the others. -/
theorem separated_eq {item : Reader (Option α)} {separator : Reader Bool}
    (hitem : item.Forward) (hseparator : separator.Consumes id) :
    separated item separator = do
      let first ← item
      if ← separator then
        return first.toList ++ (← separated item separator)
      else
        return first.toList := by
  ext1 input
  simp only [attempt_separated, separatedUpTo, attempt_bind]
  rcases hfirst : item.attempt input with ⟨comments, error | ⟨first, middle⟩⟩
  · rfl
  · have hle := hitem.length_le (run_of_attempt_ok hfirst)
    simp only at hle ⊢
    rcases hsep : separator.attempt middle with ⟨comments', error | ⟨_ | _, rest⟩⟩
    · rfl
    · rfl
    · have hshort := hseparator.shorter (run_of_attempt_ok hsep) rfl
      simp only at hshort
      simp only [if_true, attempt_bind, attempt_separated,
        separatedUpTo_eq hitem hseparator (Nat.lt_of_lt_of_le hshort hle)
          (Nat.lt_succ_self rest.length)]

end Ebnf.Reader
