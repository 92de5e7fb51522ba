import Ebnf.Proofs.Reading.Yields
import Ebnf.Reader.Levels
import Ebnf.Tree.Walk

/-!
# Extents lie in what is consumed

A production that finds a construct notes an extent for it that is not empty and lies
between the place where the production began and the place where it ended.  Nothing has
to be known of these places: the construct may begin behind trivia, and trivia behind it
may have been consumed as well.  Of the terms in a row each ends before the next one
begins, with a byte left in between, since a separator has been consumed there.
-/

namespace Ebnf

open Byte

/-- The extent is not empty and lies between two marks. -/
structure Extent.Inside (entry left : Mark) (extent : Extent) : Prop where
  entry : extent.start ≤ entry
  proper : extent.stop < extent.start
  left : left ≤ extent.stop

theorem Extent.Inside.mono {entry entry' left left' : Mark} {extent : Extent}
    (h : extent.Inside entry left) (hentry : entry ≤ entry') (hleft : left' ≤ left) :
    extent.Inside entry' left' where
  entry := Nat.le_trans h.entry hentry
  proper := h.proper
  left := Nat.le_trans hleft h.left

/-! ### Extents one behind the other -/

/-- Extents lie between two marks, one behind the other with a byte at least in between. -/
structure Spread (entry left : Mark) (extents : List Extent) : Prop where
  le : left ≤ entry
  inside : ∀ extent ∈ extents, extent.Inside entry left
  apart : extents.Pairwise fun extent extent' => extent'.start < extent.stop

namespace Spread

variable {entry middle next left : Mark} {extents extents' : List Extent}

theorem nil (h : left ≤ entry) : Spread entry left [] where
  le := h
  inside := by simp
  apart := .nil

theorem singleton {extent : Extent} (h : extent.Inside entry left) :
    Spread entry left [extent] where
  le := Nat.le_trans h.left (Nat.le_trans (Nat.le_of_lt h.proper) h.entry)
  inside := List.forall_mem_singleton.2 h
  apart := List.pairwise_singleton _ _

theorem mono {entry' left' : Mark} (h : Spread entry left extents) (hentry : entry ≤ entry')
    (hleft : left' ≤ left) : Spread entry' left' extents where
  le := Nat.le_trans hleft (Nat.le_trans h.le hentry)
  inside extent hextent := (h.inside extent hextent).mono hentry hleft
  apart := h.apart

theorem append (h : Spread entry middle extents) (hless : next < middle)
    (h' : Spread next left extents') : Spread entry left (extents ++ extents') where
  le := Nat.le_trans h'.le (Nat.le_trans (Nat.le_of_lt hless) h.le)
  inside := by
    have hleft := Nat.le_trans h'.le (Nat.le_of_lt hless)
    have hentry := Nat.le_trans (Nat.le_of_lt hless) h.le
    rw [List.forall_mem_append]
    exact ⟨(h.mono (Nat.le_refl _) hleft).inside, (h'.mono hentry (Nat.le_refl _)).inside⟩
  apart := by
    refine List.pairwise_append.2 ⟨h.apart, h'.apart, fun extent hextent extent' hextent' => ?_⟩
    have hbegins := Nat.lt_of_le_of_lt (h'.inside extent' hextent').entry hless
    exact Nat.lt_of_lt_of_le hbegins (h.inside extent hextent).left

theorem notMem_of_several {first second : Extent}
    (h : Spread entry left (first :: second :: extents)) :
    (⟨entry, left⟩ : Extent) ∉ first :: second :: extents := by
  obtain ⟨hfirst, hmore⟩ := List.forall_mem_cons.1 h.inside
  have hsecond := hmore second List.mem_cons_self
  have hapart := (List.pairwise_cons.1 h.apart).1
  intro hmem
  rcases List.mem_cons.1 hmem with rfl | hmem
  · have hends := Nat.lt_of_lt_of_le (hapart second List.mem_cons_self) hsecond.left
    exact Nat.lt_asymm hends hsecond.proper
  · have hbegins := Nat.lt_trans (hapart _ hmem) hfirst.proper
    exact Nat.not_lt.2 hfirst.entry hbegins

/-- A concatenation goes from its first term to its last. -/
theorem concatenation {first second : Term Extent} {more : List (Term Extent)}
    (h : Spread entry left ((first :: second :: more).map Term.note)) :
    Extent.Inside entry left
      ⟨first.note.start, ((second :: more).getLast (by simp)).note.stop⟩ := by
  obtain ⟨hfirst, hmore⟩ := List.forall_mem_cons.1 h.inside
  have hmem := List.mem_map_of_mem (f := Term.note)
    (List.getLast_mem (List.cons_ne_nil second more))
  have hlast := hmore _ hmem
  have hbehind := Nat.lt_trans ((List.pairwise_cons.1 h.apart).1 _ hmem) hfirst.proper
  exact ⟨hfirst.entry, Nat.lt_trans hlast.proper hbehind, hlast.left⟩

end Spread

namespace Reader

open Scanning

theorem Forward.yields {reader : Reader α} (h : reader.Forward) (input : Bytes) :
    reader.Yields input fun _ _ rest => rest.length ≤ input.length where
  holds hrun := h.length_le hrun

theorem Consumes.yields {reader : Reader α} {found : α → Bool} (h : reader.Consumes found)
    (hforward : reader.Forward) (input : Bytes) :
    reader.Yields input fun value _ rest =>
      rest.length ≤ input.length ∧ (found value → rest.length < input.length) where
  holds hrun := ⟨hforward.length_le hrun, h.shorter hrun⟩

/-- What is found, if anything, has an extent in the bytes consumed since a mark. -/
def SpansFrom (note : α → Extent) (entry : Mark) (value : Option α) (_ : List (Comment Mark))
    (rest : Bytes) : Prop :=
  ∀ found, value = some found → (note found).Inside entry rest.length

namespace SpansFrom

variable {note : α → Extent} {entry : Mark} {comments : List (Comment Mark)} {rest : Bytes}

theorem none : SpansFrom note entry none comments rest :=
  fun _ hfound => by cases hfound

theorem some {value : α} (h : (note value).Inside entry rest.length) :
    SpansFrom note entry (some value) comments rest := by
  intro found hfound
  cases hfound
  exact h

theorem map {note' : β → Extent} {f : α → β} {value : Option α}
    (h : SpansFrom note entry value comments rest) (hnote : ∀ value, note' (f value) = note value) :
    SpansFrom note' entry (value.map f) comments rest := by
  intro found hfound
  obtain ⟨value, rfl, rfl⟩ := Option.map_eq_some_iff.1 hfound
  rw [hnote]
  exact h value rfl

theorem mono {entry' : Mark} {value : Option α} (h : SpansFrom note entry value comments rest)
    (hentry : entry ≤ entry') : SpansFrom note entry' value comments rest :=
  fun found hfound => (h found hfound).mono hentry (Nat.le_refl _)

end SpansFrom

def Spans (note : α → Extent) (reader : Reader (Option α)) : Prop :=
  ∀ input, reader.Yields input (SpansFrom note input.length)

namespace Spans

variable {note : α → Extent}

theorem map {note' : β → Extent} {f : α → β} {reader : Reader (Option α)}
    (h : Spans note reader) (hnote : ∀ value, note' (f value) = note value) :
    Spans note' (Option.map f <$> reader) := by
  intro input
  apply Yields.map
  apply (h input).mono
  intro value comments rest hinside
  exact hinside.map hnote

/-- The readers that come after one that has found nothing go on behind it. -/
theorem firstOf {readers : List (Reader (Option α))}
    (h : ∀ reader ∈ readers, Spans note reader ∧ reader.Forward) :
    Spans note (Scanning.firstOf readers) := by
  induction readers with
  | nil => exact fun _ => .pure .none
  | cons reader more ih =>
    rw [List.forall_mem_cons] at h
    obtain ⟨⟨hreader, hforward⟩, hmore⟩ := h
    intro input
    apply Yields.bind
    apply (hreader input).with_run.mono
    rintro (_ | value) comments middle ⟨hrun, hvalue⟩
    · have hle := hforward.length_le hrun
      apply (ih hmore middle).mono
      intro value comments' rest hinside
      exact hinside.mono hle
    · exact .pure hvalue

end Spans

/-! ### Lexemes -/

variable [Runtime]

theorem spans_terminal : Spans Primary.note terminal := by
  intro input
  apply Yields.bind_mark
  apply Yields.bind
  apply ((Consumes.one _).yields (Forward.one _) input).mono
  rintro (_ | quote) _ opened ⟨-, hopened⟩
  · exact .pure .none
  · have hopened := hopened rfl
    apply Yields.bind_byte
    · intro rest _
      exact .fail _ _
    · apply Yields.bind
      apply ((Forward.takeWhile _).yields opened).mono
      intro content _ closing hclosing
      apply Yields.bind_current
      cases closing.head? with
      | none => exact .fail _ _
      | some b =>
        apply Yields.bind_byte
        · rintro rest rfl
          apply Yields.bind_mark
          apply Yields.pure
          apply SpansFrom.some
          refine ⟨Nat.le_refl _, ?_, Nat.le_refl _⟩
          exact Nat.lt_of_le_of_lt (Nat.le_trans (Nat.le_succ _) hclosing) hopened
        · exact .fail _ _

theorem spans_special : Spans Primary.note special := by
  intro input
  apply Yields.bind_mark
  apply Yields.bind_byte
  · rintro opened rfl
    apply Yields.bind
    apply ((Forward.takeWhile _).yields opened).mono
    intro content _ closing hclosing
    apply Yields.bind_byte
    · rintro rest rfl
      apply Yields.bind_mark
      apply Yields.pure
      apply SpansFrom.some
      refine ⟨Nat.le_refl _, ?_, Nat.le_refl _⟩
      exact Nat.lt_succ_of_le (Nat.le_trans (Nat.le_succ _) hclosing)
    · exact .fail _ _
  · exact .pure .none

/-- Behind each letter of a name fewer bytes are left than in front of the first, and no
fewer than in the end. -/
theorem yields_nameBytes (input : Bytes) :
    (many nameByte).Yields input fun bytes _ rest => rest.length ≤ input.length ∧
      ∀ b ∈ bytes, b.2 < input.length ∧ rest.length ≤ b.2 := by
  apply Yields.many consumes_nameByte fun input bytes _ rest =>
    rest.length ≤ input.length ∧ ∀ b ∈ bytes, b.2 < input.length ∧ rest.length ≤ b.2
  intro input
  apply Yields.bind
  apply ((Consumes.one _).yields (Forward.one _) input).mono
  rintro (_ | b) _ next ⟨hnext, hshort⟩
  · exact .pure ⟨hnext, by simp⟩
  · have hshort := hshort rfl
    apply Yields.bind_mark
    apply Yields.bind
    apply (forward_trivia.yields next).mono
    intro _ _ rest hrest
    apply Yields.pure
    rintro bytes comments' rest' ⟨hrest', hbytes⟩
    refine ⟨Nat.le_trans hrest' (Nat.le_trans hrest hnext), ?_⟩
    rw [List.forall_mem_cons]
    refine ⟨⟨hshort, Nat.le_trans hrest' hrest⟩, fun other hother => ?_⟩
    obtain ⟨hbefore, hbehind⟩ := hbytes other hother
    exact ⟨Nat.lt_of_lt_of_le hbefore (Nat.le_trans hrest hnext), hbehind⟩

theorem spans_name : Spans Prod.fst name := by
  intro input
  apply Yields.orUndo .none
  apply Yields.bind
  apply (forward_trivia.yields input).mono
  intro _ _ start hstart
  apply Yields.bind_mark
  apply Yields.bind_current
  split
  · apply Yields.bind_pure
    apply (yields_nameBytes start).mono
    rintro bytes _ rest ⟨-, hbytes⟩ - found hfound
    obtain ⟨last, hlast, rfl⟩ := Option.map_eq_some_iff.1 hfound
    obtain ⟨hbefore, hbehind⟩ := hbytes last (List.mem_of_getLast? hlast)
    exact ⟨hstart, hbefore, hbehind⟩
  · exact .pure fun _ => .none

theorem spans_identifier : Spans Primary.note identifier :=
  spans_name.map fun _ => rfl

/-! ### Terms in a row -/

omit [Runtime] in
theorem yields_terms_spread {accepts : Reader Bool} {item : Reader (Option (Term Extent))}
    (hspans : Spans Term.note item) (hitem : item.Forward) (haccepts : accepts.Forward)
    (hconsumes : accepts.Consumes id) (input : Bytes) :
    (separated item accepts).Yields input fun terms _ rest =>
      Spread input.length rest.length (terms.map Term.note) := by
  apply Yields.separated hitem hconsumes
    fun input terms _ rest => Spread input.length rest.length (terms.map Term.note)
  intro input
  apply (hspans input).with_run.mono
  rintro value comments middle ⟨hrun, hvalue⟩
  have hmiddle := hitem.length_le hrun
  have hfirst : Spread input.length middle.length (value.toList.map Term.note) := by
    cases value with
    | none => exact .nil hmiddle
    | some t => exact .singleton (hvalue t rfl)
  apply (hconsumes.yields haccepts middle).mono
  rintro more _ next ⟨hnext, hless⟩
  cases more with
  | false => exact hfirst.mono (Nat.le_refl _) hnext
  | true =>
    intro terms _ rest hterms
    rw [List.map_append]
    exact hfirst.append (hless rfl) hterms

section Levels

variable {inside : Reader (List (Definition Extent))} (hforward : inside.Forward)

include hforward

theorem spans_bracketedWith (bracket : Bracket) :
    Spans Primary.note (bracketedWith inside bracket) := by
  intro input
  apply Yields.bind_mark
  apply Yields.bind
  apply ((Consumes.symbol (openers_nonempty bracket)).yields (Forward.symbol _) input).mono
  rintro (_ | opener) _ opened ⟨-, hopened⟩
  · exact .pure .none
  · have hopened := hopened rfl
    apply Yields.bind
    apply (hforward.yields opened).mono
    intro definitions _ closing hclosing
    apply Yields.bind
    apply ((Forward.symbol _).yields closing).mono
    rintro (_ | closer) _ rest hrest
    · exact .fail _ _
    · apply Yields.bind_mark
      apply Yields.pure
      apply SpansFrom.some
      refine ⟨Nat.le_refl _, ?_, Nat.le_refl _⟩
      exact Nat.lt_of_le_of_lt (Nat.le_trans hrest hclosing) hopened

theorem spans_primaryWith : Spans Primary.note (primaryWith inside) := by
  refine Spans.firstOf fun reader hmem => ?_
  simp only [List.mem_cons, List.not_mem_nil, or_false] at hmem
  rcases hmem with rfl | rfl | rfl | rfl | rfl | rfl
  · exact ⟨spans_bracketedWith hforward _, forward_bracketedWith hforward _⟩
  · exact ⟨spans_bracketedWith hforward _, forward_bracketedWith hforward _⟩
  · exact ⟨spans_bracketedWith hforward _, forward_bracketedWith hforward _⟩
  · exact ⟨spans_identifier, forward_identifier⟩
  · exact ⟨spans_terminal, forward_terminal⟩
  · exact ⟨spans_special, forward_special⟩

omit [Runtime] hforward in
/-- A construct that ends with an operand ends where the operand ends; where that is
missing, it ends before the trivia in front of it. -/
theorem yields_operand {note : α → Extent} {reader : Reader (Option α)}
    (hspans : Spans note reader) (hreader : reader.Forward) (input : Bytes) :
    (do trivia; reader).Yields input fun operand _ rest =>
      (operand.map fun x => (note x).stop).getD input.length ≤ input.length ∧
        rest.length ≤ (operand.map fun x => (note x).stop).getD input.length := by
  apply Yields.bind
  apply (forward_trivia.yields input).mono
  intro _ _ start hstart
  apply (hspans start).with_run.mono
  rintro (_ | operand) comments rest ⟨hrun, hoperand⟩
  · have hle := hreader.length_le hrun
    exact ⟨Nat.le_refl _, Nat.le_trans hle hstart⟩
  · obtain ⟨hentry, hproper, hleft⟩ := hoperand operand rfl
    refine ⟨?_, hleft⟩
    exact Nat.le_trans (Nat.le_of_lt hproper) (Nat.le_trans hentry hstart)

theorem spans_factorWith : Spans Factor.note (factorWith inside) := by
  intro input
  apply Yields.bind_mark
  apply Yields.bind
  apply ((Forward.takeWhile _).yields input).mono
  intro digits _ middle hmiddle
  split
  · apply Yields.bind_pure
    apply (spans_primaryWith hforward middle).mono
    intro value comments rest hinside
    have hfactor : SpansFrom Factor.note middle.length (value.map .primary) comments rest :=
      hinside.map fun _ => rfl
    exact hfactor.mono hmiddle
  · apply Yields.bind
    apply Yields.convert
    intro _
    apply Yields.bind
    apply (forward_trivia.yields middle).mono
    intro _ _ stop hstop
    apply Yields.bind_byte
    · rintro behind rfl
      apply Yields.bind_mark
      have hbehind := Nat.lt_of_lt_of_le (Nat.lt_succ_self _) (Nat.le_trans hstop hmiddle)
      rw [← bind_assoc]
      apply Yields.bind_pure
      apply (yields_operand (spans_primaryWith hforward) (forward_primaryWith hforward)
        behind).mono
      rintro operand _ rest ⟨hend, hrest⟩
      exact .some ⟨Nat.le_refl _, Nat.lt_of_le_of_lt hend hbehind, hrest⟩
    · exact .fail _ _

theorem spans_termWith : Spans Term.note (termWith inside) := by
  intro input
  apply Yields.bind_mark
  apply Yields.bind
  apply (spans_factorWith hforward input).mono
  rintro (_ | base) _ middle hbase
  · exact .pure .none
  · have hinside := hbase base rfl
    apply Yields.bind
    apply (forward_trivia.yields middle).mono
    intro _ _ stop hstop
    apply Yields.bind_byte
    · rintro behind rfl
      apply Yields.bind_mark
      have hbehind := Nat.lt_of_lt_of_le (Nat.lt_succ_self _) hstop
      rw [← bind_assoc]
      apply Yields.bind_pure
      apply (yields_operand (spans_factorWith hforward) (forward_factorWith hforward)
        behind).mono
      rintro excluded _ rest ⟨hend, hrest⟩
      refine .some ⟨Nat.le_refl _, ?_, hrest⟩
      have hmiddle := Nat.le_trans hinside.left (Nat.le_of_lt hinside.proper)
      have hentry := Nat.lt_of_lt_of_le hbehind (Nat.le_trans hmiddle hinside.entry)
      exact Nat.lt_of_le_of_lt hend hentry
    · exact .pure (.some (hinside.mono (Nat.le_refl _) hstop))

/-- The terms of a definition lie one behind the other. -/
theorem yields_terms_of_definition (input : Bytes) :
    (separated
      (do
        let t ← termWith inside
        trivia
        return t)
      (separator (byte comma))).Yields input
      fun terms _ rest => Spread input.length rest.length (terms.map Term.note) := by
  have hitem : Spans Term.note (do
      let t ← termWith inside
      trivia
      return t) := by
    intro input
    apply Yields.bind
    apply (spans_termWith hforward input).mono
    intro value _ middle hvalue
    apply Yields.bind_pure
    apply (forward_trivia.yields middle).mono
    intro _ _ rest hrest found hfound
    exact (hvalue found hfound).mono (Nat.le_refl _) hrest
  have hslot := (forward_termWith hforward).bind fun t : Option (Term Extent) =>
    forward_trivia.bind fun _ => Forward.pure t
  exact yields_terms_spread hitem hslot (forward_separator (Forward.byte _))
    (consumes_separator (Consumes.byte _)) input

end Levels

end Reader

end Ebnf
