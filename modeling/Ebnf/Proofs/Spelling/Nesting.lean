import Ebnf.Proofs.Spelling.Defect
import Mathlib.Logic.Relation

/-!
# The nesting of comments

From inside a comment on, the bytes can be gone through with no more than the number of
comments that are open: an opening symbol adds one to it, a closing symbol takes one off,
and any other byte leaves it alone.  An opening symbol is found before anything else, so
`(*)` opens a comment and does not close one.

Every step is determined, and none leads on from where no comment is open or no byte is
left.  A comment that is spelled therefore is one from which the count comes back to zero
behind it, and one that is not completed leads either to an opening symbol with `)` behind
it or to the end.
-/

namespace Ebnf

open Byte Relation

/-- How many comments are open, and what is left. -/
structure Nesting where
  depth : Nat
  rest : Bytes

/-- What the next symbol, or byte, does to the count. -/
inductive Counts : Nesting → Nesting → Prop
  | opens : Counts ⟨depth + 1, leftParenthesis :: asterisk :: rest⟩ ⟨depth + 2, rest⟩
  | closes : Counts ⟨depth + 1, asterisk :: rightParenthesis :: rest⟩ ⟨depth, rest⟩
  | byte (hopen : ¬[leftParenthesis, asterisk] <+: b :: rest)
      (hclose : ¬[asterisk, rightParenthesis] <+: b :: rest) :
      Counts ⟨depth + 1, b :: rest⟩ ⟨depth + 1, rest⟩

/-- From one place to another, with any number of steps. -/
def Leads : Nesting → Nesting → Prop :=
  ReflTransGen Counts

/-- An opening symbol that `)` follows directly. -/
def OpensEmpty (input : Bytes) : Prop :=
  [leftParenthesis, asterisk, rightParenthesis] <+: input

/-- Such a symbol is met while a comment is open. -/
def MeetsEmpty (place : Nesting) : Prop :=
  ∃ met, Leads place met ∧ 0 < met.depth ∧ OpensEmpty met.rest

theorem opensEmpty_iff {input : Bytes} : OpensEmpty input ↔
    ∃ inside, input = leftParenthesis :: asterisk :: inside ∧
      inside.head? = some rightParenthesis := by
  constructor
  · rintro ⟨rest, rfl⟩
    exact ⟨_, rfl, rfl⟩
  · rintro ⟨inside, rfl, hhead⟩
    obtain ⟨rest, rfl⟩ := List.head?_eq_some_iff.1 hhead
    exact ⟨rest, rfl⟩

namespace Counts

theorem unique {place next next' : Nesting} (h : Counts place next)
    (h' : Counts place next') : next = next' := by
  cases h with
  | opens =>
    cases h' with
    | opens => rfl
    | byte hopen => exact absurd ⟨_, rfl⟩ hopen
  | closes =>
    cases h' with
    | closes => rfl
    | byte _ hclose => exact absurd ⟨_, rfl⟩ hclose
  | byte hopen hclose =>
    cases h' with
    | opens => exact absurd ⟨_, rfl⟩ hopen
    | closes => exact absurd ⟨_, rfl⟩ hclose
    | byte => rfl

theorem not_closed {rest : Bytes} {next : Nesting} : ¬Counts ⟨0, rest⟩ next :=
  nofun

theorem not_nil {depth : Nat} {next : Nesting} : ¬Counts ⟨depth, []⟩ next :=
  nofun

end Counts

namespace Leads

theorem single {place next : Nesting} (h : Counts place next) : Leads place next :=
  ReflTransGen.single h

theorem trans {place next last : Nesting} (h : Leads place next) (h' : Leads next last) :
    Leads place last :=
  ReflTransGen.trans h h'

/-- All places that are led to lie on one way. -/
theorem total {place one other : Nesting} (h : Leads place one) (h' : Leads place other) :
    Leads one other ∨ Leads other one :=
  ReflTransGen.total_of_right_unique (fun _ _ _ => Counts.unique) h h'

theorem eq_of_last {place next : Nesting} (h : Leads place next)
    (hlast : ∀ next, ¬Counts place next) : next = place := by
  rcases ReflTransGen.cases_head h with hsame | ⟨_, hstep, -⟩
  · exact hsame.symm
  · exact absurd hstep (hlast _)

/-- Where the way ends with comments open, there is one open all the way. -/
theorem positive {place last met : Nesting} (h : Leads place last)
    (hlast : ∀ next, ¬Counts last next) (hdepth : 0 < last.depth)
    (hmet : Leads place met) : 0 < met.depth := by
  rcases h.total hmet with hafter | hbefore
  · rwa [hafter.eq_of_last hlast]
  · rcases met with ⟨_ | depth, rest⟩
    · rw [hbefore.eq_of_last fun _ => Counts.not_closed] at hdepth
      exact absurd hdepth (Nat.lt_irrefl 0)
    · exact Nat.succ_pos depth

end Leads

namespace MeetsEmpty

variable {place next : Nesting}

/-- A step that does not go over such a symbol leaves it to be met. -/
theorem of_step (h : MeetsEmpty place) (hempty : ¬OpensEmpty place.rest)
    (hstep : Counts place next) : MeetsEmpty next := by
  obtain ⟨met, hleads, hdepth, hmet⟩ := h
  rcases ReflTransGen.cases_head hleads with rfl | ⟨next', hstep', hmore⟩
  · exact absurd hmet hempty
  · obtain rfl := Counts.unique hstep hstep'
    exact ⟨met, hmore, hdepth, hmet⟩

theorem not_closed {rest : Bytes} (h : MeetsEmpty ⟨0, rest⟩) : False := by
  obtain ⟨met, hleads, hdepth, -⟩ := h
  obtain rfl := Leads.eq_of_last hleads fun _ => Counts.not_closed
  exact absurd hdepth (Nat.lt_irrefl 0)

theorem not_nil {depth : Nat} (h : MeetsEmpty ⟨depth, []⟩) : False := by
  obtain ⟨met, hleads, -, hmet⟩ := h
  obtain rfl := Leads.eq_of_last hleads fun _ => Counts.not_nil
  cases List.prefix_nil.1 hmet

end MeetsEmpty

/-! ### The inside of a comment -/

theorem not_opensEmpty_of_opener {inside : Bytes}
    (hnonempty : inside.head? ≠ some rightParenthesis) :
    ¬OpensEmpty (leftParenthesis :: asterisk :: inside) := by
  rw [opensEmpty_iff]
  rintro ⟨inside', hinside, hhead⟩
  cases hinside
  exact hnonempty hhead

theorem not_opensEmpty_of_byte {b : UInt8} {input : Bytes}
    (hopen : ¬[leftParenthesis, asterisk] <+: b :: input) : ¬OpensEmpty (b :: input) := by
  rw [opensEmpty_iff]
  rintro ⟨inside, hinside, -⟩
  exact hopen ⟨inside, hinside.symm⟩

theorem not_opensEmpty_of_closer (rest : Bytes) :
    ¬OpensEmpty (asterisk :: rightParenthesis :: rest) := by
  rw [opensEmpty_iff]
  rintro ⟨_, hinside, -⟩
  cases hinside

/-- The count is back where it was. -/
theorem SpellsInterior.leads {input rest : Bytes} (h : SpellsInterior input rest)
    (depth : Nat) : Leads ⟨depth + 1, input⟩ ⟨depth + 1, rest⟩ := by
  induction h generalizing depth with
  | done => exact .refl
  | comment _ _ _ ihinside ihmore =>
    have hinside := (Leads.single .opens).trans (ihinside (depth + 1))
    exact (hinside.trans (Leads.single .closes)).trans (ihmore depth)
  | byte hopen hclose _ ih => exact (Leads.single (.byte hopen hclose)).trans (ih depth)

/-- No opening symbol in it is followed by `)`. -/
theorem SpellsInterior.meetsEmpty {input rest : Bytes} (h : SpellsInterior input rest)
    {depth : Nat} (hmeets : MeetsEmpty ⟨depth + 1, input⟩) : MeetsEmpty ⟨depth + 1, rest⟩ := by
  induction h generalizing depth with
  | done => exact hmeets
  | comment hnonempty _ _ ihinside ihmore =>
    have hinside := ihinside (hmeets.of_step (not_opensEmpty_of_opener hnonempty) .opens)
    exact ihmore (hinside.of_step (not_opensEmpty_of_closer _) .closes)
  | byte hopen hclose _ ih =>
    exact ih (hmeets.of_step (not_opensEmpty_of_byte hopen) (.byte hopen hclose))

/-- Going down adds the comments that are entered. -/
theorem Descends.leads {input rest : Bytes} (h : Descends input rest) (depth : Nat) :
    ∃ deeper, Leads ⟨depth + 1, input⟩ ⟨deeper + 1, rest⟩ ∧
      (MeetsEmpty ⟨depth + 1, input⟩ → MeetsEmpty ⟨deeper + 1, rest⟩) := by
  induction h generalizing depth with
  | here hinterior => exact ⟨depth, hinterior.leads depth, hinterior.meetsEmpty⟩
  | deeper hinterior hnonempty _ ih =>
    obtain ⟨deeper, hleads, hmeets⟩ := ih (depth + 1)
    have hopener := (hinterior.leads depth).trans (Leads.single .opens)
    refine ⟨deeper, hopener.trans hleads, ?_⟩
    intro hmet
    have hinside := hinterior.meetsEmpty hmet
    exact hmeets (hinside.of_step (not_opensEmpty_of_opener hnonempty) .opens)

/-! ### Whole and broken comments -/

/-- A comment opens, and an opening symbol with `)` behind it is met before it closes: the
first one, or one inside. -/
def EmptyOpening (input : Bytes) : Prop :=
  ∃ inside, input = leftParenthesis :: asterisk :: inside ∧
    (inside.head? = some rightParenthesis ∨ MeetsEmpty ⟨1, inside⟩)

/-- A comment opens, and the input ends before it closes and before any such symbol. -/
def EndsOpen (input : Bytes) : Prop :=
  ∃ inside, input = leftParenthesis :: asterisk :: inside ∧
    inside.head? ≠ some rightParenthesis ∧ ¬MeetsEmpty ⟨1, inside⟩ ∧
      ∃ depth, Leads ⟨1, inside⟩ ⟨depth + 1, []⟩

theorem EmptyOpening.opener {input : Bytes} (h : EmptyOpening input) :
    [leftParenthesis, asterisk] <+: input := by
  obtain ⟨inside, rfl, -⟩ := h
  exact ⟨inside, rfl⟩

theorem EndsOpen.opener {input : Bytes} (h : EndsOpen input) :
    [leftParenthesis, asterisk] <+: input := by
  obtain ⟨inside, rfl, -⟩ := h
  exact ⟨inside, rfl⟩

theorem EmptyOpening.not_endsOpen {input : Bytes} (h : EmptyOpening input) :
    ¬EndsOpen input := by
  obtain ⟨inside, rfl, hempty | hmeets⟩ := h
  · rintro ⟨_, hinput, hnonempty, -⟩
    cases hinput
    exact hnonempty hempty
  · rintro ⟨_, hinput, -, hclear, -⟩
    cases hinput
    exact hclear hmeets

theorem SpellsComment.not_emptyOpening {input rest : Bytes} {k : Comment Mark}
    (h : SpellsComment input k rest) : ¬EmptyOpening input := by
  obtain ⟨-, hnonempty, hinside⟩ := h
  rintro ⟨inside, hinput, hempty | hmeets⟩
  · cases hinput
    exact hnonempty hempty
  · cases hinput
    have hclosing := hinside.meetsEmpty hmeets
    exact (hclosing.of_step (not_opensEmpty_of_closer _) .closes).not_closed

theorem SpellsComment.not_endsOpen {input rest : Bytes} {k : Comment Mark}
    (h : SpellsComment input k rest) : ¬EndsOpen input := by
  obtain ⟨-, -, hinside⟩ := h
  rintro ⟨inside, hinput, -, -, depth, hleads⟩
  cases hinput
  have hclosed := (hinside.leads 0).trans (Leads.single .closes)
  have hpositive := hleads.positive (fun _ => Counts.not_nil) (Nat.succ_pos depth) hclosed
  exact absurd hpositive (Nat.lt_irrefl 0)

theorem BrokenComment.emptyOpening_or_endsOpen {input : Bytes} {error : SyntaxError Mark}
    (h : BrokenComment input error) :
    (error.cause = .emptyComment ∧ EmptyOpening input) ∨
      (error.cause = .unterminatedComment ∧ EndsOpen input) := by
  cases h with
  | empty hempty => exact .inl ⟨rfl, _, rfl, .inl hempty⟩
  | stopped hnonempty hinside hfault =>
    obtain ⟨depth, hleads, hmeets⟩ := hinside.leads 0
    cases hfault with
    | empty hempty =>
      have hmet : OpensEmpty (leftParenthesis :: asterisk :: _) :=
        opensEmpty_iff.2 ⟨_, rfl, hempty⟩
      exact .inl ⟨rfl, _, rfl, .inr ⟨_, hleads, Nat.succ_pos depth, hmet⟩⟩
    | ends =>
      exact .inr ⟨rfl, _, rfl, hnonempty, fun hmet => (hmeets hmet).not_nil, depth, hleads⟩

end Ebnf
