import Ebnf.Proofs.Parsing.Positions
import Ebnf.Proofs.Spelling.Extend
import Ebnf.Tree.Equality

/-!
# Parsing two documents in a row

A document that is well formed is not affected by what is written behind it, and
what is written behind it is read as by itself.  So the parse of two documents in a
row is the parse of the second, put behind the first.  Only places move: those in
the second document are further on, and their lines and columns are looked up in the
table of the whole.  That table is not the second table below the first, because a
CR and a LF that come together at the seam end one line and not two.
-/

namespace Ebnf

open Reader

/-- The place of the same byte in a source in which `count` bytes come before. -/
def Position.relocate (options : Options) (source : Bytes) (count : Nat)
    (position : Position) : Position :=
  tablePosition options source (count + position.offset)

def Span.relocate (options : Options) (source : Bytes) (count : Nat) (span : Span) : Span :=
  ⟨span.start.relocate options source count, span.length⟩

theorem document_append [Runtime] {p : Bytes} {g : Grammar Extent Mark} (h : SpellsDocument p g)
    (q : Bytes) :
    (document (p ++ q)).result =
      (document q).result.map (g.map (Extent.shift q.length) (· + q.length) ++ ·) := by
  induction h with
  | trivia htrivia =>
    rw [document_of_trivia (htrivia.extend q)]
    rfl
  | @rule input comments₁ start rule comments₂ rest rules comments₃ htrivia hrule _ ih =>
    rw [document_of_trivia (htrivia.extend q), document_of_rule (hrule.extend q), ih]
    cases (document q).result with
    | error error => rfl
    | ok g' =>
      apply congrArg Except.ok
      apply congrArg₂ Grammar.mk rfl
      simp only [Grammar.map, List.map_append, List.append_assoc]
      rfl

variable (options : Options) (p q : Bytes)

/-- Bytes behind a place do not matter for its position. -/
theorem positionAt_shift (place : Mark) :
    Cursor.positionAt { source := p ++ q, options } (place + q.length) =
      Cursor.positionAt { source := p, options } place := by
  rw [positionAt_eq, positionAt_eq, List.length_append, Nat.add_sub_add_right,
    List.take_append_of_le_length (Nat.sub_le _ _)]

theorem locate_shift (extent : Extent) :
    Cursor.locate { source := p ++ q, options } (extent.shift q.length) =
      Cursor.locate { source := p, options } extent := by
  unfold Cursor.locate Extent.shift
  rw [positionAt_shift, Nat.add_sub_add_right]

variable {q}

theorem positionAt_relocate {place : Mark} (h : Anchored q place) :
    Cursor.positionAt { source := p ++ q, options } place =
      (Cursor.positionAt { source := q, options } place).relocate options (p ++ q) p.length := by
  have hle : place ≤ q.length := by
    obtain ⟨rest, ⟨before, rfl, -⟩, rfl⟩ := h
    simp
  rw [positionAt_of_anchored options (h.append_left p), positionAt_of_anchored options h]
  unfold Position.relocate tablePosition
  rw [List.length_append, Nat.add_sub_assoc hle]

theorem locate_relocate {extent : Extent} (h : Anchored q extent.start) :
    Cursor.locate { source := p ++ q, options } extent =
      (Cursor.locate { source := q, options } extent).relocate options (p ++ q) p.length := by
  unfold Cursor.locate Span.relocate
  rw [positionAt_relocate options p h]

variable {options p}

/-- A document behind a well-formed one is parsed as by itself, and what comes of it
is put behind, or fails, at the places of the whole. -/
theorem parse_append [Runtime] {g : Grammar Span Position} (h : parse options p = .ok g)
    (q : Bytes) :
    parse options (p ++ q) =
      match parse options q with
      | .ok g' => .ok (g ++ g'.map (Span.relocate options (p ++ q) p.length)
          (Position.relocate options (p ++ q) p.length))
      | .error fault =>
        .error (fault.map (Position.relocate options (p ++ q) p.length)) := by
  obtain ⟨spelled, hresult, rfl⟩ := parse_eq_ok h
  rw [parse_eq, document_append (spells_of_document hresult) q, parse_eq options q]
  cases hsecond : (document q).result with
  | error fault =>
    cases fault with
    | syntaxError error =>
      obtain ⟨hstart, hstop⟩ := anchored_error hsecond
      simp only [Except.map, Fault.map, SyntaxError.map, positionAt_relocate options p hstart,
        positionAt_relocate options p hstop]
    | refusal digits stop =>
      have hstop := anchored_refusal hsecond
      simp only [Except.map, Fault.map, positionAt_relocate options p hstop]
  | ok g' =>
    have hfirst : (spelled.map (Extent.shift q.length) (· + q.length)).map
        (Cursor.locate { source := p ++ q, options })
        (Cursor.positionAt { source := p ++ q, options }) =
          spelled.map (Cursor.locate { source := p, options })
            (Cursor.positionAt { source := p, options }) := by
      rw [Grammar.map_map]
      apply Grammar.map_congr
      · intro n _
        exact locate_shift options p q n.note
      · intro k _
        exact positionAt_shift options p q k.start
    have hmore : g'.map (Cursor.locate { source := p ++ q, options })
        (Cursor.positionAt { source := p ++ q, options }) =
          (g'.map (Cursor.locate { source := q, options })
            (Cursor.positionAt { source := q, options })).map
              (Span.relocate options (p ++ q) p.length)
              (Position.relocate options (p ++ q) p.length) := by
      rw [Grammar.map_map]
      apply Grammar.map_congr
      · intro n hn
        exact locate_relocate options p (anchored_nodes hsecond n hn)
      · intro k hk
        exact positionAt_relocate options p (anchored_comments hsecond k hk)
    simp only [Except.map]
    rw [Grammar.map_append, hfirst, hmore]

/-- A rule, and a CR behind it. -/
def seamBefore : Bytes :=
  [0x61, 0x3D, 0x62, 0x3B, 0x0D]

def seamGrammar : Grammar Span Position where
  rules := [⟨⟨⟨0, 0, 0⟩, 4⟩, [0x61],
    [.term (.factor (.primary (.identifier ⟨⟨2, 0, 2⟩, 1⟩ [0x62])))]⟩]
  comments := []

/-- A LF, a rule and a comment. -/
def seamAfter : Bytes :=
  [0x0A, 0x63, 0x3D, 0x27, 0x78, 0x27, 0x3B, 0x28, 0x2A, 0x6B, 0x2A, 0x29]

attribute [local instance] Runtime.usual

/-- CR and LF at the seam are one line boundary. -/
theorem parse_seam : parse {} seamBefore = .ok seamGrammar ∧
    parse {} (seamBefore ++ seamAfter) =
      .ok (seamGrammar ++
        ⟨[⟨⟨⟨6, 1, 0⟩, 6⟩, [0x63],
          [.term (.factor (.primary (.terminal ⟨⟨8, 1, 2⟩, 3⟩ [0x78])))]⟩],
          [⟨"k", ⟨12, 1, 6⟩⟩]⟩) := by
  have hbefore : parse {} seamBefore = .ok seamGrammar := by decide +kernel
  exact ⟨hbefore, (parse_append hbefore seamAfter).trans (by decide +kernel)⟩

end Ebnf
