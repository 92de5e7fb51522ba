import Ebnf.Proofs.Parsing.Positions
import Ebnf.Proofs.Tree.WellFormed
import Ebnf.Tree.Equality

/-!
# Parsing and rendering

A source renders a tree when the document that it spells is that tree, whatever the
layout.  Parsing takes exactly the sources that render a tree, and gives that tree.
So all renderings of a tree parse alike up to the places of things, and no source
renders two trees.
-/

namespace Ebnf

open Reader

/-- The tree alone: what it says, without the places of things. -/
def Grammar.bare (g : Grammar α μ) : Grammar Unit Unit :=
  g.map (fun _ => ()) fun _ => ()

theorem Grammar.bare_map (f : α → β) (h : μ → ν) (g : Grammar α μ) :
    (g.map f h).bare = g.bare := by
  unfold Grammar.bare
  rw [Grammar.map_map]

section

variable [Runtime]

/-- The source is a rendering of the tree, with these comments.  Symbols may stand together
as long as they are told apart: the `(` of a group is not before `/`, a `/` that separates is
not before `)`, and a count has digits that the runtime converts. -/
def Renders (source : Bytes) (tree : Grammar Unit Unit) : Prop :=
  ∃ spelled, SpellsDocument source spelled ∧ spelled.bare = tree

/-! ### Well-formedness -/

omit [Runtime] in
theorem SpellsWord.isWord {input word rest : Bytes} {comments : List (Comment Mark)}
    (h : SpellsWord input word comments rest) : ∀ b ∈ word, Byte.isWord b := by
  induction h with
  | last hword => simpa using hword
  | more hword _ _ ih =>
    rw [List.forall_mem_cons]
    exact ⟨hword, ih⟩

omit [Runtime] in
theorem SpellsName.isName {input name rest : Bytes} {comments : List (Comment Mark)}
    (h : SpellsName input name comments rest) : IsName name := by
  obtain ⟨hletter, hword⟩ := h
  have hname := hword.isWord
  cases hword with
  | last => exact ⟨_, [], rfl, hletter, by simp⟩
  | more _ _ hmore =>
    rw [List.forall_mem_cons] at hname
    exact ⟨_, _, rfl, hletter, hname.2⟩

theorem SpellsPrimary.hasLexeme {input rest : Bytes} {p : Primary Extent}
    {comments : List (Comment Mark)} (h : SpellsPrimary input p comments rest) :
    p.HasLexeme := by
  cases h with
  | bracketed => exact trivial
  | identifier hname => exact hname.isName
  | terminal hquote hnonempty hcontent _ => exact ⟨hnonempty, _, hquote, hcontent⟩
  | special hinterior _ => exact ⟨_, hinterior, rfl⟩

theorem SpellsTerm.hasLexeme {input rest : Bytes} {t : Term Extent}
    {comments : List (Comment Mark)} (h : SpellsTerm input t comments rest) :
    (Node.ofTerm t).HasLexeme := by
  cases h with
  | factor hfactor =>
    cases hfactor with
    | primary hprimary => exact hprimary.hasLexeme
    | repetition => exact trivial
    | repetitionOf => exact trivial
  | exception => exact trivial
  | exceptionOf => exact trivial

theorem SpellsNode.hasLexeme {source : Bytes} {n : Node Extent} (h : SpellsNode source n) :
    n.HasLexeme := by
  obtain ⟨-, hnode⟩ := h
  cases hnode with
  | rule hrule =>
    obtain ⟨hname, -, -⟩ := hrule
    exact hname.isName
  | definition hdefinition =>
    cases hdefinition with
    | term hterms =>
      obtain ⟨_, _, _, -, hterm⟩ := hterms.spelled_terms _ List.mem_cons_self
      exact hterm.hasLexeme
    | concatenation => exact trivial

theorem SpellsDocument.wellFormed {source : Bytes} {g : Grammar Extent Mark}
    (h : SpellsDocument source g) : g.WellFormed :=
  fun n hn => (h.grounded.nodes n hn).hasLexeme

/-! ### Parsing -/

/-- Rendering can be decided by reading. -/
theorem renders_iff {source : Bytes} {tree : Grammar Unit Unit} :
    Renders source tree ↔ (document source).result.toOption.map Grammar.bare = some tree := by
  constructor
  · rintro ⟨spelled, hspelled, rfl⟩
    rw [document_of_spells hspelled]
    rfl
  · intro h
    cases hresult : (document source).result with
    | error error => simp [hresult, Except.toOption] at h
    | ok spelled =>
      rw [hresult] at h
      exact ⟨spelled, spells_of_document hresult, Option.some.inj h⟩

instance (source : Bytes) (tree : Grammar Unit Unit) : Decidable (Renders source tree) :=
  decidable_of_iff _ renders_iff.symm

/-- Any rendering of a tree parses, and gives the tree and the comments in it. -/
theorem parse_of_renders (options : Options) {source : Bytes} {tree : Grammar Unit Unit}
    (h : Renders source tree) :
    ∃ g, parse options source = .ok g ∧ g.bare = tree := by
  obtain ⟨spelled, hspelled, rfl⟩ := h
  refine ⟨_, ?_, spelled.bare_map (Cursor.locate { source, options })
    (Cursor.positionAt { source, options })⟩
  rw [parse_eq, document_of_spells hspelled]

/-- A rule with everything packed together: nested comments inside its name, brackets
closed by their other spelling, a separator behind `(`, an operand that is missing
before `)`, leading zeros, and symbols with nothing between them. -/
def denseSource : Bytes :=
  [0x61, 0x28, 0x2A, 0x78, 0x28, 0x2A, 0x79, 0x2A, 0x29, 0x2A, 0x29, 0x31, 0x20, 0x3D,
    0x7B, 0x20, 0x62, 0x2F, 0x3A, 0x29, 0x7C, 0x28, 0x20, 0x2F, 0x28, 0x2A, 0x63, 0x2A,
    0x29, 0x22, 0x27, 0x22, 0x2D, 0x29, 0x21, 0x28, 0x33, 0x2A, 0x29, 0x2C, 0x30, 0x30,
    0x37, 0x2A, 0x3F, 0x73, 0x3F, 0x2C, 0x2C, 0x2F, 0x28, 0x3A, 0x5B, 0x64, 0x2D, 0x20,
    0x65, 0x2F, 0x29, 0x7D, 0x3B]

def denseTree : Grammar Unit Unit where
  rules := [⟨(), [0x61, 0x31],
    [.term (.factor (.primary (.bracketed () .repeated
        [.term (.factor (.primary (.identifier () [0x62])))]))),
      .term (.factor (.primary (.bracketed () .grouped
        [.term (.exception () (.primary (.terminal () [0x27])) none)]))),
      .concatenation ()
        (.factor (.primary (.bracketed () .grouped
          [.term (.factor (.repetition () 3 none))])))
        (.factor (.repetition () 7 (some (.special () "s")))) [],
      .term (.factor (.primary (.bracketed () .repeated
        [.term (.factor (.primary (.bracketed () .optional
          [.term (.exception () (.primary (.identifier () [0x64]))
            (some (.primary (.identifier () [0x65]))))])))])))]⟩]
  comments := [⟨"x(*y*)", ()⟩, ⟨"c", ()⟩]

end

section

attribute [local instance] Runtime.usual

theorem parse_denseSource : Renders denseSource denseTree ∧
    ∃ g, parse {} denseSource = .ok g ∧ g.bare = denseTree :=
  ⟨by decide +kernel, parse_of_renders {} (by decide +kernel)⟩

/-- The symbols of `a = ( / b ) ;`, a group that an empty definition begins. -/
def leadingSlash : List Bytes :=
  [[0x61], [0x3D], [0x28], [0x2F], [0x62], [0x29], [0x3B]]

/-- The symbols of `a = ( b / ) ;`, a group that an empty definition ends. -/
def trailingSlash : List Bytes :=
  [[0x61], [0x3D], [0x28], [0x62], [0x2F], [0x29], [0x3B]]

def groupTree : Grammar Unit Unit where
  rules := [⟨(), [0x61], [.term (.factor (.primary (.bracketed () .grouped
    [.term (.factor (.primary (.identifier () [0x62])))])))]⟩]
  comments := []

/-- `a=0*b;`, with any number of digits in the count. -/
def zerosSource (digits : Nat) : Bytes :=
  [0x61, 0x3D] ++ List.replicate digits 0x30 ++ [0x2A, 0x62, 0x3B]

def zerosTree : Grammar Unit Unit where
  rules := [⟨(), [0x61], [.term (.factor (.repetition () 0
    (some (.identifier () [0x62]))))]⟩]
  comments := []

/-- Not all that the symbols of a tree make up is a rendering of it.  With nothing between
them, `(` and `/` are one symbol that opens an optional sequence and `/` and `)` one that
closes it; and no more zeros may lead a count than the runtime converts. -/
theorem unspaced_rejected :
    Renders ([0x20].intercalate leadingSlash) groupTree ∧
    parse {} leadingSlash.flatten = .error (.syntaxError
      ⟨.unclosedBracket .optional [0x28, 0x2F], ⟨2, 0, 2⟩, ⟨5, 0, 5⟩⟩) ∧
    Renders ([0x20].intercalate trailingSlash) groupTree ∧
    parse {} trailingSlash.flatten = .error (.syntaxError
      ⟨.unclosedBracket .grouped [0x28], ⟨2, 0, 2⟩, ⟨4, 0, 4⟩⟩) ∧
    Renders (zerosSource 1) zerosTree ∧
    parse {} (zerosSource 4301) = .error (.refusal 4301 ⟨4303, 0, 4303⟩) := by
  decide +kernel

end

section

variable [Runtime]

/-- Whatever a parse gives is well formed, and the source spells it to the last byte;
what is spelled is what the parse gives, with extents in place of positions. -/
theorem spells_of_parse {options : Options} {source : Bytes} {g : Grammar Span Position}
    (h : parse options source = .ok g) :
    g.WellFormed ∧ ∃ spelled, SpellsDocument source spelled ∧
      g = spelled.map (Cursor.locate { source, options })
        (Cursor.positionAt { source, options }) := by
  obtain ⟨spelled, hresult, rfl⟩ := parse_eq_ok h
  have hspelled := spells_of_document hresult
  refine ⟨?_, spelled, hspelled, rfl⟩
  rw [Grammar.wellFormed_map]
  exact hspelled.wellFormed

end

section

attribute [local instance] Runtime.usual

theorem spells_denseSource : ∃ g, parse {} denseSource = .ok g ∧ g.WellFormed ∧
    ∃ spelled, SpellsDocument denseSource spelled ∧
      g = spelled.map (Cursor.locate { source := denseSource })
        (Cursor.positionAt { source := denseSource }) := by
  have hsome : (parse {} denseSource).toOption.isSome := by decide +kernel
  cases hparse : parse {} denseSource with
  | error error => simp [hparse, Except.toOption] at hsome
  | ok g => exact ⟨g, rfl, spells_of_parse hparse⟩

end

section

variable [Runtime]

/-- No source renders two trees. -/
theorem Renders.unique {source : Bytes} {tree tree' : Grammar Unit Unit}
    (h : Renders source tree) (h' : Renders source tree') : tree = tree' := by
  rw [renders_iff] at h h'
  exact Option.some.inj (h.symm.trans h')

end

end Ebnf
