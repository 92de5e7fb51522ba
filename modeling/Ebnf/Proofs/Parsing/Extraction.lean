import Ebnf.Proofs.Parsing.Comments
import Ebnf.Proofs.Spelling.Enclosed
import Ebnf.Proofs.Spelling.Extend

/-!
# Parsing a part of a document by itself

How a construct is read depends on no byte outside of its span, and its span has no byte
that does not belong to it.  So the bytes of a rule are a document of that one rule, and
the bytes of anything else can be put after a name and an equals sign, with a terminator
behind them: what is read is the same node again, and the comments that were in it.  Only
places move, by as much as the first byte does, and their lines and columns are looked up
in the table of the new source.
-/

namespace Ebnf

open Byte Reader

/-- The bytes that a span takes up. -/
def Span.slice (source : Bytes) (span : Span) : Bytes :=
  (source.take span.stop).drop span.start.offset

/-- The bytes of a span as the definition of a rule with the name `x`. -/
def Span.asRule (source : Bytes) (span : Span) : Bytes :=
  [0x78, equalsSign] ++ (span.slice source ++ [semicolon])

/-- The comments that lie in a span. -/
def Grammar.commentsIn (source : Bytes) (span : Span) (g : Grammar Span Position) :
    List (Comment Position) :=
  g.comments.filter fun k => span.start.offset ≤ k.start.offset && k.stop source ≤ span.stop

/-- The place in another source that is as far from `target` as the position is from
`origin`. -/
def Position.rebase (options : Options) (source : Bytes) (origin target : Nat)
    (position : Position) : Position :=
  tablePosition options source (position.offset + target - origin)

def Span.rebase (options : Options) (source : Bytes) (origin target : Nat) (span : Span) :
    Span :=
  ⟨span.start.rebase options source origin target, span.length⟩

/-! ### The same bytes between others -/

section

variable (options : Options) {source source' before ahead front stop back : Bytes}
  (hsource : source = before ++ (front ++ stop))
  (hsource' : source' = ahead ++ (front ++ back))

include hsource hsource'

theorem positionAt_rebase {place : Mark} (hstop : stop.length ≤ place)
    (hstart : place ≤ (front ++ stop).length)
    (h : Anchored source' (exchanged stop back place)) :
    Cursor.positionAt { source := source', options } (exchanged stop back place) =
      (Cursor.positionAt { source, options } place).rebase options source' before.length
        ahead.length := by
  have hoffset : ∀ place : Nat, stop.length ≤ place → place ≤ (front ++ stop).length →
      source'.length - (place - stop.length + back.length) =
        source.length - place + ahead.length - before.length := by
    subst hsource hsource'
    simp only [List.length_append]
    omega
  rw [positionAt_of_anchored options h]
  unfold Position.rebase
  rw [offset_positionAt, ← hoffset place hstop hstart]
  rfl

variable [Runtime] {n : Node Extent} {comments : List (Comment Mark)} {g : Grammar Extent Mark}
  (hnode : SpellsWhole (front ++ stop) n comments stop)
  (hresult : (document source').result = .ok g)

include hnode hresult

theorem locate_rebase {m : Node Extent} (hm : m ∈ n.nodes)
    (hnew : m.map (Extent.map (exchanged stop back)) ∈ g.nodes) :
    Cursor.locate { source := source', options } (m.note.map (exchanged stop back)) =
      (Cursor.locate { source, options } m.note).rebase options source' before.length
        ahead.length := by
  obtain ⟨hstart, hstop⟩ := hnode.laid.nodesWithin m hm
  have hproper := ((hnode.assembled Grounded.compositional).2.nodes m hm).stop_le_start
  have hanchored := anchored_nodes hresult _ hnew
  rw [Node.note_map] at hanchored
  have hbegin := positionAt_rebase options hsource hsource'
    (Nat.le_trans hstop hproper) hstart hanchored
  unfold Cursor.locate Span.rebase Extent.map
  rw [hbegin]
  apply congrArg (Span.mk _)
  unfold exchanged
  rw [Nat.add_sub_add_right, Nat.sub_sub_sub_cancel_right hstop]

theorem comments_rebase
    (hcomments : g.comments = comments.map (Comment.map (exchanged stop back))) :
    g.comments.map (Comment.map (Cursor.positionAt { source := source', options })) =
      (comments.map (Comment.map (Cursor.positionAt { source, options }))).map
        (Comment.map (Position.rebase options source' before.length ahead.length)) := by
  have hanchored := anchored_comments hresult
  rw [hcomments, List.forall_mem_map] at hanchored
  rw [hcomments, List.map_map, List.map_map]
  apply List.map_congr_left
  intro k hk
  obtain ⟨hend, hproper, hstart⟩ := hnode.laid.commentsWithin k hk
  have hstop := Nat.le_trans hend (Nat.le_of_lt hproper)
  exact congrArg (Comment.mk k.content)
    (positionAt_rebase options hsource hsource' hstop hstart (hanchored k hk))

end

/-! ### Documents of one rule -/

theorem Grammar.nodes_singleton (r : Rule α) (comments : List (Comment μ)) :
    (Grammar.mk [r] comments).nodes = r.nodes :=
  List.flatMap_singleton ..

theorem SpellsRule.document [Runtime] {input : Bytes} {r : Rule Extent}
    {comments : List (Comment Mark)} (h : SpellsRule input r comments []) :
    SpellsDocument input ⟨[r], comments⟩ := by
  have hdocument := SpellsDocument.rule .nothing h (.trivia .nothing)
  rwa [List.append_nil, List.nil_append] at hdocument

/-- The bytes of a rule are a document. -/
theorem SpellsRule.alone [Runtime] {start stop : Bytes} {r : Rule Extent}
    {comments : List (Comment Mark)} (h : SpellsRule start r comments stop) :
    ∃ front, start = front ++ stop ∧ SpellsDocument front
      ((Grammar.mk [r] comments).map (Extent.map (exchanged stop [])) (exchanged stop [])) := by
  obtain ⟨front, hfront, hrule⟩ := h.replace (Moves.exchange stop [])
  rw [List.append_nil] at hrule
  exact ⟨front, hfront, hrule.document⟩

/-- The bytes of a definition are those of the definition of a rule. -/
theorem SpellsDefinition.asRule [Runtime] {start stop : Bytes} {d : Definition Extent}
    {comments : List (Comment Mark)} (h : SpellsDefinition start (some d) comments stop) :
    ∃ front, start = front ++ stop ∧
      SpellsDocument ([0x78, equalsSign] ++ (front ++ [semicolon]))
        ⟨[⟨⟨front.length + 3, 0⟩, [0x78], [d.map (Extent.map (exchanged stop [semicolon]))]⟩],
          comments.map (Comment.map (exchanged stop [semicolon]))⟩ := by
  obtain ⟨front, hfront, hdefinition⟩ := h.replace (Moves.exchange stop [semicolon])
  have hname : SpellsName ([0x78, equalsSign] ++ (front ++ [semicolon])) [0x78] []
      (equalsSign :: (front ++ [semicolon])) := .mk (by decide) (.last (by decide))
  have hrule := SpellsRule.mk hname .nothing (.mk (.last hdefinition))
  have hlength : ([0x78, equalsSign] ++ (front ++ [semicolon])).length = front.length + 3 := by
    simp
  rw [hlength] at hrule
  exact ⟨front, hfront, hrule.document⟩

section

variable (options : Options) {source : Bytes}

/-- The bytes of a node are those between the places around it. -/
theorem slice_locate {before front stop : Bytes} (hsource : before ++ (front ++ stop) = source)
    {extent : Extent} (hextent : extent = ⟨(front ++ stop).length, stop.length⟩) :
    (Cursor.locate { source, options } extent).slice source = front ∧
      (Cursor.locate { source, options } extent).start.offset = before.length ∧
      (Cursor.locate { source, options } extent).length = front.length := by
  have hstart : (front ++ stop).length ≤ source.length := by
    rw [← hsource]
    exact (List.suffix_append _ _).length_le
  have hbegin : source.length - (front ++ stop).length = before.length := by
    simp only [← hsource, List.length_append]
    omega
  have hend : source.length - stop.length = (before ++ front).length := by
    simp only [← hsource, List.length_append]
    omega
  subst hextent
  refine ⟨?_, ?_, ?_⟩
  · unfold Span.slice
    rw [stop_locate (List.suffix_append _ _).length_le hstart, start_locate, hbegin, hend,
      ← hsource, ← List.append_assoc, List.take_left, List.drop_left]
  · rw [start_locate, hbegin]
  · exact (congrArg (· - stop.length) List.length_append).trans (Nat.add_sub_cancel ..)

variable {options}

theorem locate_source : Cursor.locate { source, options } ⟨source.length, 0⟩ =
    ⟨.origin, source.length⟩ := by
  unfold Cursor.locate
  rw [positionAt_eq, Nat.sub_self]
  rfl

variable [Runtime]

/-- A comment lies in a span if and only if it lies in the extent. -/
theorem commentsIn_locate {spelled : Grammar Extent Mark} (h : SpellsDocument source spelled)
    {extent : Extent} (hstop : extent.stop ≤ extent.start)
    (hstart : extent.start ≤ source.length) :
    (spelled.map (Cursor.locate { source, options })
        (Cursor.positionAt { source, options })).commentsIn source
          (Cursor.locate { source, options } extent) =
      (enclosedComments source extent spelled.comments).map
        (Comment.map (Cursor.positionAt { source, options })) := by
  have hle : ∀ place place' : Nat, place ≤ source.length →
      (source.length - place' ≤ source.length - place ↔ place ≤ place') := by
    omega
  unfold Grammar.commentsIn enclosedComments
  rw [Grammar.map, List.filter_map]
  apply congrArg
  apply List.filter_congr
  intro k hk
  have hbegins := hle k.start extent.start (h.laid.commentsWithin k hk).2.2
  have hends := hle extent.stop (commentEnd source k.start) (Nat.le_trans hstop hstart)
  simp only [Function.comp, Comment.stop_positionAt, stop_locate hstop hstart, start_locate]
  simp only [Comment.map, offset_positionAt, hbegins, hends]

/-! ### Nodes by themselves -/

theorem SpellsWhole.parse_rule {start stop : Bytes} {r : Rule Extent}
    {comments : List (Comment Mark)} (hplace : start <:+ source)
    (h : SpellsWhole start (.rule r) comments stop) {span : Span}
    (hspan : span = Cursor.locate { source, options } r.note) :
    parse options (span.slice source) =
      .ok ⟨[(r.map (Cursor.locate { source, options })).map
          (Span.rebase options (span.slice source) span.start.offset 0)],
        (comments.map (Comment.map (Cursor.positionAt { source, options }))).map
          (Comment.map (Position.rebase options (span.slice source) span.start.offset 0))⟩ := by
  obtain ⟨before, hsource⟩ := hplace
  have hnode := h
  cases h with
  | rule hrule =>
    obtain ⟨front, rfl, hdocument⟩ := hrule.alone
    obtain ⟨hslice, hbegin, -⟩ := slice_locate options hsource hrule.note
    have hresult := document_of_spells hdocument
    have hfront : front = [] ++ (front ++ []) := by simp
    subst hspan
    rw [hslice, hbegin]
    have hvalue : (r.map (Extent.map (exchanged stop []))).map
        (Cursor.locate { source := front, options }) =
          (r.map (Cursor.locate { source, options })).map
            (Span.rebase options front before.length 0) := by
      rw [Rule.map_map, Rule.map_map]
      apply Rule.map_congr
      intro m hm
      apply locate_rebase options hsource.symm hfront hnode hresult hm
      have hnew := List.mem_map_of_mem (f := Node.map (Extent.map (exchanged stop []))) hm
      rwa [← Rule.nodes_map, ← Grammar.nodes_singleton] at hnew
    have hcomments := comments_rebase options hsource.symm hfront hnode hresult rfl
    rw [parse_eq, hresult]
    exact congrArg Except.ok (congrArg₂ Grammar.mk (congrArg ([·]) hvalue) hcomments)

theorem SpellsWhole.parse_definition {start stop : Bytes} {d : Definition Extent}
    {comments : List (Comment Mark)} (hplace : start <:+ source)
    (h : SpellsWhole start (.definition d) comments stop) {span : Span}
    (hspan : span = Cursor.locate { source, options } d.note) :
    parse options (span.asRule source) =
      .ok ⟨[⟨⟨.origin, span.length + 3⟩, [0x78],
          [(d.map (Cursor.locate { source, options })).map
            (Span.rebase options (span.asRule source) span.start.offset 2)]⟩],
        (comments.map (Comment.map (Cursor.positionAt { source, options }))).map
          (Comment.map (Position.rebase options (span.asRule source) span.start.offset 2))⟩ := by
  obtain ⟨before, hsource⟩ := hplace
  have hnode := h
  cases h with
  | definition hdefinition hnote =>
    -- The terminator behind the definition takes the place of all that followed it.
    obtain ⟨front, rfl, hdocument⟩ := hdefinition.asRule
    obtain ⟨hslice, hbegin, hlength⟩ := slice_locate options hsource hnote
    have hresult := document_of_spells hdocument
    subst hspan
    unfold Span.asRule
    rw [hslice, hbegin, hlength]
    generalize hsource' : [0x78, equalsSign] ++ (front ++ [semicolon]) = source' at hresult ⊢
    have hrule : Cursor.locate { source := source', options } ⟨front.length + 3, 0⟩ =
        ⟨.origin, front.length + 3⟩ := by
      have hall : source'.length = front.length + 3 := by simp [← hsource']
      rw [← hall, locate_source]
    have hvalue : (d.map (Extent.map (exchanged stop [semicolon]))).map
        (Cursor.locate { source := source', options }) =
          (d.map (Cursor.locate { source, options })).map
            (Span.rebase options source' before.length 2) := by
      rw [Definition.map_map, Definition.map_map]
      apply Definition.map_congr
      intro m hm
      apply locate_rebase options hsource.symm hsource'.symm hnode hresult hm
      have hnew := List.mem_map_of_mem
        (f := Node.map (Extent.map (exchanged stop [semicolon]))) hm
      rw [← Definition.nodes_map] at hnew
      rw [Grammar.nodes_singleton, Rule.nodes, Definition.nodesAll, Definition.nodesAll,
        List.append_nil]
      exact List.mem_cons_of_mem _ hnew
    have hcomments :=
      comments_rebase options hsource.symm hsource'.symm hnode hresult rfl
    rw [parse_eq, hresult]
    exact congrArg Except.ok (congrArg₂ Grammar.mk
      (congrArg ([·]) (congrArg₂ (Rule.mk · [0x78] ·) hrule (congrArg ([·]) hvalue))) hcomments)

end

/-- A rule is read again from its own bytes, and any other node from its bytes as the
definition of a rule: the same node, at the same distances from its first byte, and with
those comments that lie in it. -/
theorem parse_extract [Runtime] {options : Options} {source : Bytes} {g : Grammar Span Position}
    (h : parse options source = .ok g) :
    (∀ d, Node.definition d ∈ g.nodes →
      parse options (d.note.asRule source) =
        .ok ⟨[⟨⟨.origin, d.note.length + 3⟩, [0x78],
            [d.map (Span.rebase options (d.note.asRule source) d.note.start.offset 2)]⟩],
          (g.commentsIn source d.note).map
            (Comment.map (Position.rebase options (d.note.asRule source)
              d.note.start.offset 2))⟩) ∧
    ∀ r ∈ g.rules,
      parse options (r.note.slice source) =
        .ok ⟨[r.map (Span.rebase options (r.note.slice source) r.note.start.offset 0)],
          (g.commentsIn source r.note).map
            (Comment.map (Position.rebase options (r.note.slice source)
              r.note.start.offset 0))⟩ := by
  obtain ⟨spelled, hresult, rfl⟩ := parse_eq_ok h
  have hspelled := spells_of_document hresult
  have hcomments : ∀ n ∈ spelled.nodes,
      (spelled.map (Cursor.locate { source, options })
          (Cursor.positionAt { source, options })).commentsIn source
            (Cursor.locate { source, options } n.note) =
        (enclosedComments source n.note spelled.comments).map
          (Comment.map (Cursor.positionAt { source, options })) := by
    intro n hn
    exact commentsIn_locate hspelled (hspelled.grounded.nodes n hn).stop_le_start
      (hspelled.laid.nodesWithin n hn).1
  constructor
  · rw [Grammar.nodes_map]
    intro d' hd'
    obtain ⟨n, hn, hmap⟩ := List.mem_map.1 hd'
    cases n with
    | rule r => nomatch hmap
    | definition d =>
      obtain rfl := Node.definition.inj hmap
      obtain ⟨start, stop, hplace, hnode⟩ := hspelled.enclosed hn
      have hnote : (d.map (Cursor.locate { source, options })).note =
          Cursor.locate { source, options } d.note :=
        Node.note_map _ (.definition d)
      have hinside := hcomments _ hn
      rw [Node.note, ← hnote] at hinside
      rw [hinside]
      exact hnode.parse_definition hplace hnote
  · rw [Grammar.map, List.forall_mem_map]
    intro r hr
    have hn := Grammar.mem_nodes_of_mem_rules hr
    obtain ⟨start, stop, hplace, hnode⟩ := hspelled.enclosed hn
    have hnote : (r.map (Cursor.locate { source, options })).note =
        Cursor.locate { source, options } r.note := rfl
    have hinside := hcomments _ hn
    rw [Node.note, ← hnote] at hinside
    rw [← Grammar.map, hinside]
    exact hnode.parse_rule hplace hnote

/-- A rule on the second line, with comments before its definition, in it and behind it.
The definition has an exception that excludes nothing, and one of the definitions in its
brackets is empty. -/
def excerptSource : Bytes :=
  [0x0A, 0x61, 0x3D, 0x28, 0x2A, 0x6B, 0x2A, 0x29, 0x33, 0x2A, 0x28, 0x2A, 0x6C, 0x0A, 0x2A,
    0x29, 0x62, 0x2D, 0x2C, 0x5B, 0x27, 0x63, 0x27, 0x28, 0x2A, 0x6D, 0x2A, 0x29, 0x7C, 0x5D,
    0x28, 0x2A, 0x6E, 0x2A, 0x29, 0x3B]

def excerptDefinition : Definition Span :=
  .concatenation ⟨⟨8, 1, 7⟩, 22⟩
    (.exception ⟨⟨8, 1, 7⟩, 10⟩
      (.repetition ⟨⟨8, 1, 7⟩, 9⟩ 3 (some (.identifier ⟨⟨16, 2, 2⟩, 1⟩ [0x62]))) none)
    (.factor (.primary (.bracketed ⟨⟨19, 2, 5⟩, 11⟩ .optional
      [.term (.factor (.primary (.terminal ⟨⟨20, 2, 6⟩, 3⟩ [0x63])))]))) []

def excerptGrammar : Grammar Span Position where
  rules := [⟨⟨⟨1, 1, 0⟩, 35⟩, [0x61], [excerptDefinition]⟩]
  comments := [⟨"k", ⟨3, 1, 2⟩⟩, ⟨"l", ⟨10, 1, 9⟩⟩, ⟨"m", ⟨23, 2, 9⟩⟩, ⟨"n", ⟨30, 2, 16⟩⟩]

attribute [local instance] Runtime.usual

/-- The definition by itself has the comments that are in it, on the lines of its own. -/
theorem parse_excerptSource : parse {} excerptSource = .ok excerptGrammar ∧
    Node.definition excerptDefinition ∈ excerptGrammar.nodes ∧
    parse {} (excerptDefinition.note.asRule excerptSource) =
      .ok ⟨[⟨⟨⟨0, 0, 0⟩, 25⟩, [0x78],
        [.concatenation ⟨⟨2, 0, 2⟩, 22⟩
          (.exception ⟨⟨2, 0, 2⟩, 10⟩
            (.repetition ⟨⟨2, 0, 2⟩, 9⟩ 3 (some (.identifier ⟨⟨10, 1, 2⟩, 1⟩ [0x62]))) none)
          (.factor (.primary (.bracketed ⟨⟨13, 1, 5⟩, 11⟩ .optional
            [.term (.factor (.primary (.terminal ⟨⟨14, 1, 6⟩, 3⟩ [0x63])))]))) []]⟩],
        [⟨"l", ⟨4, 0, 4⟩⟩, ⟨"m", ⟨17, 1, 9⟩⟩]⟩ := by
  have hparse : parse {} excerptSource = .ok excerptGrammar := by decide +kernel
  have hmem : Node.definition excerptDefinition ∈ excerptGrammar.nodes := .tail _ (.head _)
  exact ⟨hparse, hmem, ((parse_extract hparse).1 _ hmem).trans (by decide +kernel)⟩

end Ebnf
