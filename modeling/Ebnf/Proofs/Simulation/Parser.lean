import Ebnf.Proofs.Reading.Trivia
import Ebnf.Proofs.Simulation.Basic
import Ebnf.Proofs.Simulation.Cursor
import Ebnf.Proofs.Simulation.Run
import Mathlib.Data.List.Find

/-!
# Parsers do what readers do

Relative to the cursor at which a reading begins, every place that a parser comes to is given
by the bytes that are left there.  Each elementary parser moves the cursor from the place of
its input to the place of what the reader leaves, and collects the comments that the reader
passes.  So the line counter of the cursor always agrees with the recount of the bytes.
-/

namespace Ebnf

open Byte

/-! ### The session that an attempt stands for -/

/-- The answer of an attempt that began at a cursor. -/
def Attempt.answer (base : Cursor) (attempt : Attempt α) : Except (Fault Position) α :=
  match attempt.result with
  | .error fault => .error (fault.map base.positionAt)
  | .ok (value, _) => .ok value

/-- The session behind an attempt that began at a cursor. -/
def Session.behind (base : Cursor) (session : Session) (attempt : Attempt α) : Session :=
  { session with
    cursor := base.before attempt.left
    comments := session.comments ++ attempt.comments.map (Comment.map base.positionAt) }

/-- Going back undoes an attempt. -/
theorem Session.behind_reset {base : Cursor} {session : Session} {place : Mark}
    (h : session.cursor = base.before place) (attempt : Attempt α) :
    (session.behind base attempt).reset session.checkpoint = session := by
  rcases session with ⟨cursor, comments, rules⟩
  subst h
  simp only [behind, reset, checkpoint, List.take_left]
  rfl

namespace Cursor

variable {base : Cursor} {input rest : Bytes}

theorem left_eq (cursor : Cursor) : cursor.left = cursor.unread.length := by
  rw [left, Cursor.unread, List.length_drop]

theorem atEnd_eq (cursor : Cursor) : cursor.atEnd = cursor.unread.isEmpty := by
  rw [Bool.eq_iff_iff, List.isEmpty_iff, ← List.length_eq_zero_iff, ← left_eq, left, atEnd,
    decide_eq_true_eq, Nat.sub_eq_zero_iff_le]

theorem startsWith_eq (cursor : Cursor) {word : Bytes} (h : word ≠ []) :
    cursor.startsWith word = word.isPrefixOf cursor.unread := by
  unfold startsWith
  by_cases hinside : cursor.position.offset ≤ cursor.source.length
  · simp only [hinside, decide_true, Bool.true_and]
  · have hunread : cursor.unread = [] :=
      List.drop_eq_nil_of_le (Nat.le_of_lt (Nat.lt_of_not_le hinside))
    obtain ⟨b, word, rfl⟩ := List.exists_cons_of_ne_nil h
    simp only [hinside, decide_false, Bool.false_and, hunread, List.isPrefixOf_cons_nil]

theorem atSeparator_eq (cursor : Cursor) :
    cursor.atSeparator = Reader.startsWithSeparator cursor.unread := by
  unfold atSeparator current peek
  generalize cursor.unread = input
  fun_cases Reader.startsWithSeparator input with
  | case1 => rfl
  | case2 b rest hpair =>
    have hnot : ¬(b = solidus ∧ rest.head? = some rightParenthesis) := by
      rintro ⟨rfl, hhead⟩
      obtain ⟨more, rfl⟩ := List.head?_eq_some_iff.1 hhead
      exact hpair more rfl rfl
    rw [if_neg (by simpa using hnot)]
    rfl
  | case3 => rfl

theorem resolveIndex_natCast (bytes : Bytes) (index : Nat) :
    bytes.resolveIndex index = min bytes.length index := by
  unfold Bytes.resolveIndex
  rw [if_neg (by omega), Int.toNat_natCast]

/-- The bytes between two offsets, given by those behind the first. -/
theorem slice_of_drop {source taken rest : Bytes} {start stop : Nat}
    (h : source.drop start = taken ++ rest) (hstop : stop = start + taken.length) :
    source.slice start stop = taken := by
  have hlength := congrArg List.length h
  rw [List.length_drop, List.length_append] at hlength
  unfold Bytes.slice
  rw [resolveIndex_natCast, resolveIndex_natCast, List.drop_take]
  by_cases hinside : start ≤ source.length
  · rw [Nat.min_eq_right hinside, h, List.take_left']
    omega
  · have hnone : taken = [] := List.length_eq_zero_iff.1 (by omega)
    subst hnone
    rw [List.drop_eq_nil_of_le (by omega), List.take_nil]

/-- The bytes between two places. -/
theorem slice_unread {taken : Bytes} (h : taken ++ rest <:+ base.unread) :
    base.source.slice (base.positionAt (taken ++ rest).length).offset
      (base.positionAt rest.length).offset = taken := by
  have hlength := h.length_le
  have hdrop := List.suffix_iff_eq_drop.1 h
  rw [List.length_append] at hlength
  apply slice_of_drop
  · rw [offset_positionAt, ← List.drop_drop]
    exact hdrop.symm
  · rw [offset_positionAt, offset_positionAt, List.length_append]
    omega

namespace Reaches

/-! ### What is seen from there -/

theorem current (h : base.Reaches input) : (base.before input.length).current = input.head? := by
  rw [Cursor.current, h.unread]

theorem peek (h : base.Reaches input) : (base.before input.length).peek = input.tail.head? := by
  rw [Cursor.peek, h.unread]

theorem atEnd (h : base.Reaches input) : (base.before input.length).atEnd = input.isEmpty := by
  rw [atEnd_eq, h.unread]

theorem left (h : base.Reaches input) : (base.before input.length).left = input.length := by
  rw [left_eq, h.unread]

end Reaches

end Cursor

namespace Parser

/-- A parser, in front of the input, does what a reader does. -/
structure Does (base : Cursor) (input : Bytes) (f : β → α) (parser : Parser α)
    (reader : Reader β) : Prop where
  run : ∀ session : Session, session.cursor = base.before input.length →
    parser.run session =
      (((reader.attempt input).map f).answer base, session.behind base (reader.attempt input))
  reaches : ∀ value comments rest, reader.run input = .ok ⟨value, comments, rest⟩ →
    base.Reaches rest

namespace Does

variable {base : Cursor} {input rest : Bytes} {f : β → α}

/-- What comes of an attempt that passes no comment. -/
theorem of_ok {parser : Parser α} {reader : Reader β} (value : β) (rest : Bytes)
    (hattempt : reader.attempt input = { result := .ok (value, rest) })
    (hrun : ∀ session : Session, session.cursor = base.before input.length →
      parser.run session = (.ok (f value), { session with cursor := base.before rest.length }))
    (hrest : base.Reaches rest) : Does base input f parser reader where
  run session hcursor := by
    rw [hrun session hcursor, hattempt]
    simp [Session.behind, Attempt.left, Attempt.map, Attempt.answer, Except.map]
  reaches value' comments rest' hreader := by
    rw [Reader.run_of_attempt_ok hattempt] at hreader
    cases hreader
    exact hrest

theorem of_error {parser : Parser α} {reader : Reader β} (fault : Fault Mark)
    (hattempt : reader.attempt input = { result := .error fault })
    (hrun : ∀ session : Session, session.cursor = base.before input.length →
      parser.run session = (.error (fault.map base.positionAt),
        { session with cursor := base.before fault.stop })) : Does base input f parser reader where
  run session hcursor := by
    rw [hrun session hcursor, hattempt]
    simp [Session.behind, Attempt.left, Attempt.map, Attempt.answer, Except.map]
  reaches value' comments rest' hreader := by
    rw [Reader.run_of_attempt_error hattempt] at hreader
    cases hreader

/-- What another parser and another reader do alike. -/
theorem of_same {parser parser' : Parser α} {reader reader' : Reader β}
    (h : Does base input f parser reader)
    (hparser : ∀ session : Session, session.cursor = base.before input.length →
      parser'.run session = parser.run session)
    (hreader : reader'.attempt input = reader.attempt input) :
    Does base input f parser' reader' where
  run session hcursor := by
    rw [hparser session hcursor, hreader]
    exact h.run session hcursor
  reaches value comments rest hrun := by
    rw [Reader.run, hreader] at hrun
    exact h.reaches value comments rest hrun

theorem pure {value : α} {value' : β} (h : base.Reaches input) (hvalue : f value' = value) :
    Does base input f (Pure.pure value) (Pure.pure value') := by
  subst hvalue
  refine of_ok _ _ rfl (fun session hcursor => ?_) h
  rw [← hcursor]
  rfl

theorem bind {γ δ : Type} {g : δ → γ} {parser : Parser α} {reader : Reader β}
    {next : α → Parser γ} {next' : β → Reader δ} (h : Does base input f parser reader)
    (hnext : ∀ value comments rest, reader.run input = .ok ⟨value, comments, rest⟩ →
      base.Reaches rest → Does base rest g (next (f value)) (next' value)) :
    Does base input g (parser >>= next) (reader >>= next') := by
  rcases hattempt : reader.attempt input with ⟨comments, fault | ⟨value, rest⟩⟩
  · constructor
    · intro session hcursor
      have hrun := h.run session hcursor
      rw [hattempt] at hrun
      rw [run_bind_of_error hrun, Reader.attempt_bind_of_error next' hattempt]
      rfl
    · intro value comments rest hreader
      rw [Reader.run_of_attempt_error (Reader.attempt_bind_of_error next' hattempt)] at hreader
      cases hreader
  · have hvalue := Reader.run_of_attempt_ok hattempt
    have hdoes := hnext value comments rest hvalue (h.reaches value comments rest hvalue)
    constructor
    · intro session hcursor
      have hrun := h.run session hcursor
      rw [hattempt] at hrun
      rw [run_bind_of_ok hrun, hdoes.run _ rfl, Reader.attempt_bind_of_ok next' hattempt]
      simp only [Session.behind, Attempt.answer, Attempt.map, Attempt.left, List.map_append,
        List.append_assoc]
    · intro value' comments' rest' hreader
      rw [Reader.run_bind_of_ok hvalue] at hreader
      cases hrest : (next' value).run rest with
      | error fault =>
        rw [hrest] at hreader
        cases hreader
      | ok outcome =>
        rw [hrest] at hreader
        cases hreader
        exact hdoes.reaches _ _ _ hrest

/-! ### Elementary parsers -/

theorem place (h : base.Reaches input) :
    Does base input base.positionAt Parser.place Reader.mark := by
  refine of_ok _ _ rfl ?_ h
  rintro ⟨_, comments, rules⟩ rfl
  rfl

theorem stop (h : base.Reaches input) :
    Does base input (fun mark => (base.positionAt mark).offset) Parser.stop Reader.mark := by
  refine of_ok _ _ rfl ?_ h
  rintro ⟨_, comments, rules⟩ rfl
  rfl

theorem left (h : base.Reaches input) : Does base input id Parser.left Reader.mark := by
  refine of_ok _ _ rfl ?_ h
  rintro ⟨_, comments, rules⟩ rfl
  exact congrArg (fun left => (Except.ok left, _)) h.left

theorem current (h : base.Reaches input) : Does base input id Parser.current Reader.current := by
  refine of_ok _ _ rfl ?_ h
  rintro ⟨_, comments, rules⟩ rfl
  exact congrArg (fun b => (Except.ok b, _)) h.current

theorem byte {expected : UInt8} (h : base.Reaches input) (hprintable : isPrintable expected) :
    Does base input id (Parser.byte expected) (Reader.byte expected) := by
  by_cases hhead : input.head? = some expected
  · obtain ⟨rest, rfl⟩ := List.head?_eq_some_iff.1 hhead
    obtain ⟨hrest, hstep⟩ := h.step hprintable
    refine of_ok _ _ (Reader.attempt_of_run_ok (Reader.byte_run_cons expected rest)) ?_ hrest
    rintro ⟨_, comments, rules⟩ rfl
    rw [byte_run, h.current, if_pos hhead, hstep]
    rfl
  · refine of_ok _ _ (Reader.attempt_of_run_ok (Reader.byte_run_of_ne hhead)) ?_ h
    rintro ⟨_, comments, rules⟩ rfl
    rw [byte_run, h.current, if_neg hhead]
    rfl

theorem one {member : UInt8 → Bool} (h : base.Reaches input)
    (hprintable : ∀ b, member b → isPrintable b) :
    Does base input id (Parser.one member) (Reader.one member) := by
  by_cases hhead : ∃ b rest, input = b :: rest ∧ member b
  · obtain ⟨b, rest, rfl, hb⟩ := hhead
    obtain ⟨hrest, hstep⟩ := h.step (hprintable b hb)
    refine of_ok _ _ (Reader.attempt_of_run_ok (Reader.one_run_cons hb)) ?_ hrest
    rintro ⟨_, comments, rules⟩ rfl
    rw [one_run, h.current, List.head?_cons, Option.any_some, if_pos hb, hstep]
    rfl
  · have hnone : ∀ b, input.head? = some b → ¬member b := by
      intro b hb hmember
      obtain ⟨rest, rfl⟩ := List.head?_eq_some_iff.1 hb
      exact hhead ⟨b, rest, rfl, hmember⟩
    refine of_ok _ _ (Reader.attempt_of_run_ok (Reader.one_run_none hnone)) ?_ h
    rintro ⟨_, comments, rules⟩ rfl
    rw [one_run, h.current, if_neg]
    · rfl
    · rw [Option.any_eq_true]
      rintro ⟨b, hb, hmember⟩
      exact hnone b hb hmember

theorem takeWhile {member : UInt8 → Bool} (h : base.Reaches input)
    (hprintable : ∀ b, member b → isPrintable b) :
    Does base input id (Parser.takeWhile member) (Reader.takeWhile member) := by
  obtain ⟨hrest, htake⟩ := h.take? hprintable
  refine of_ok _ _ rfl ?_ hrest
  rintro ⟨_, comments, rules⟩ rfl
  rw [takeWhile_run, htake]
  cases hempty : (input.takeWhile member).isEmpty with
  | true =>
    have hnone := List.isEmpty_iff.1 hempty
    have hsame : input.dropWhile member = input := by
      have hsplit := List.takeWhile_append_dropWhile (p := member) (l := input)
      rwa [hnone, List.nil_append] at hsplit
    rw [hnone, hsame]
    rfl
  | false => rfl

theorem passTo {b : UInt8} (h : base.Reaches input) (hprintable : isPrintable b) :
    Does base input id (Parser.passTo b) (Reader.takeWhile (· != b)) := by
  have hfeed : (lineFeed != b) = true := by
    rw [bne_iff_ne]
    rintro rfl
    exact absurd hprintable (by decide)
  have hsplit : input.takeWhile (· != b) ++ input.dropWhile (· != b) = input :=
    List.takeWhile_append_dropWhile
  obtain ⟨hrest, hadvance⟩ := h.advanceWhile (· != b) hfeed (Nat.le_refl _)
  refine of_ok _ _ rfl ?_ hrest
  rintro ⟨_, comments, rules⟩ rfl
  have hslice := Cursor.slice_unread (hsplit.symm ▸ h.suffix)
  rw [hsplit] at hslice
  rw [passTo_run, h.left, hadvance]
  exact congrArg (fun bytes => (Except.ok bytes, _)) hslice

theorem symbol {spellings : List Bytes} (h : base.Reaches input)
    (hspellings : ∀ spelling ∈ spellings, spelling ≠ [] ∧ ∀ b ∈ spelling, isPrintable b) :
    Does base input id (Parser.symbol spellings) (Reader.symbol spellings) := by
  have hfind : spellings.find? (base.before input.length).startsWith =
      spellings.find? fun spelling => spelling.isPrefixOf input := by
    refine List.find?_congr fun spelling hmem => ?_
    rw [Cursor.startsWith_eq _ (hspellings spelling hmem).1, h.unread]
  cases hfound : spellings.find? fun spelling => spelling.isPrefixOf input with
  | none =>
    refine of_ok none input ?_ ?_ h
    · simp only [Reader.symbol, Reader.plain, hfound]
    · rintro ⟨_, comments, rules⟩ rfl
      rw [symbol_run, hfind, hfound]
      rfl
  | some spelling =>
    have hhere := List.find?_some hfound
    obtain ⟨rest, rfl⟩ := List.isPrefixOf_iff_prefix.1 hhere
    obtain ⟨-, hprintable⟩ := hspellings spelling (List.mem_of_find?_eq_some hfound)
    obtain ⟨hrest, hover⟩ := h.stepOver _ hprintable
    refine of_ok (some spelling) rest ?_ ?_ hrest
    · simp only [Reader.symbol, Reader.plain, hfound, List.drop_left]
    · rintro ⟨_, comments, rules⟩ rfl
      rw [symbol_run, hfind, hfound, ← hover]
      rfl

theorem definitionSeparator (h : base.Reaches input) :
    Does base input id Parser.definitionSeparator Reader.definitionSeparator := by
  have hseparator : (base.before input.length).atSeparator = Reader.startsWithSeparator input := by
    rw [Cursor.atSeparator_eq, h.unread]
  cases hstarts : Reader.startsWithSeparator input with
  | false =>
    refine of_ok false input ?_ ?_ h
    · simp [Reader.definitionSeparator, Reader.plain, hstarts]
    · rintro ⟨_, comments, rules⟩ rfl
      rw [definitionSeparator_run, hseparator, hstarts]
      rfl
  | true =>
    obtain ⟨b, rest, rfl, hprintable⟩ : ∃ b rest, input = b :: rest ∧ isPrintable b := by
      fun_cases Reader.startsWithSeparator input with
      | case1 => cases hstarts
      | case2 b rest =>
        refine ⟨b, rest, rfl, ?_⟩
        simp only [Reader.startsWithSeparator, Bool.or_eq_true, beq_iff_eq] at hstarts
        rcases hstarts with (rfl | rfl) | rfl <;> decide
      | case3 => cases hstarts
    obtain ⟨hrest, hstep⟩ := h.step hprintable
    refine of_ok true rest ?_ ?_ hrest
    · simp [Reader.definitionSeparator, Reader.plain, hstarts]
    · rintro ⟨_, comments, rules⟩ rfl
      rw [definitionSeparator_run, hseparator, hstarts, if_pos rfl, hstep]
      rfl

theorem orUndo {parser : Parser (Option α)} {reader : Reader (Option β)} (h : base.Reaches input)
    (hdoes : Does base input (Option.map f) parser reader) :
    Does base input (Option.map f) parser.orUndo reader.orUndo := by
  rcases hattempt : reader.attempt input with ⟨comments, fault | ⟨_ | value, rest⟩⟩
  · refine hdoes.of_same (fun session hcursor => ?_) (by simp only [Reader.orUndo, hattempt])
    rw [orUndo_run, hdoes.run session hcursor, hattempt]
    rfl
  · refine of_ok none input ?_ (fun session hcursor => ?_) h
    · simp only [Reader.orUndo, hattempt]
    · rw [orUndo_run, hdoes.run session hcursor, hattempt, ← hcursor]
      exact congrArg (fun session => (Except.ok none, session)) (Session.behind_reset hcursor _)
  · refine hdoes.of_same (fun session hcursor => ?_) (by simp only [Reader.orUndo, hattempt])
    rw [orUndo_run, hdoes.run session hcursor, hattempt]
    rfl

theorem check {parser : Parser α} {reader : Reader β} (h : base.Reaches input)
    (hdoes : Does base input f parser reader) : Does base input id parser.check reader.check := by
  rcases hattempt : reader.attempt input with ⟨comments, fault | ⟨value, rest⟩⟩
  · have hcheck : reader.check.attempt input = ⟨comments, .error fault⟩ := by
      simp only [Reader.check, hattempt]
    refine ⟨fun session hcursor => ?_, fun value comments rest hreader => ?_⟩
    · rw [check_run, hdoes.run session hcursor, hattempt, hcheck]
      rfl
    · rw [Reader.run_of_attempt_error hcheck] at hreader
      cases hreader
  · refine of_ok () input ?_ (fun session hcursor => ?_) h
    · simp only [Reader.check, hattempt]
    · rw [check_run, hdoes.run session hcursor, hattempt, ← hcursor]
      exact congrArg (fun session => (Except.ok (), session)) (Session.behind_reset hcursor _)

theorem fail (f : β → α) (cause : Cause) (start : Mark) :
    Does base input f (Parser.fail cause (base.positionAt start)) (Reader.fail cause start) := by
  refine of_error _ rfl ?_
  rintro ⟨_, comments, rules⟩ rfl
  rfl

theorem convert [Runtime] (digits : Bytes) (h : base.Reaches input) :
    Does base input id (Parser.convert digits) (Reader.convert digits) := by
  by_cases hconverts : Runtime.converts digits.length
  · refine of_ok _ _ (Reader.attempt_of_run_ok (Reader.convert_run hconverts input)) ?_ h
    rintro ⟨_, comments, rules⟩ rfl
    rw [convert_run, if_pos hconverts]
    rfl
  · refine of_error (.refusal digits.length input.length) ?_ ?_
    · simp only [Reader.convert, Reader.plain, if_neg hconverts]
    · rintro ⟨_, comments, rules⟩ rfl
      rw [convert_run, if_neg hconverts]
      rfl

end Does

end Parser

end Ebnf
