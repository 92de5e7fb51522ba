import Ebnf.Proofs.Parsing.Comments
import Ebnf.Proofs.Parsing.Concatenation

/-!
# Parsing the beginning of a document

A well-formed document that is cut off is well formed again if and only if the cut goes
through no rule and no comment.  At such a cut the bytes before it spell what they
spelled before.  If conversely the first part is well formed by itself, then the whole is
that part and what is parsed behind it, and none of the rules and comments of either
reaches into the other.
-/

namespace Ebnf

open Reader

/-- A cut with as many bytes behind it as `place` says goes through the stretch. -/
def Cuts (place start stop : Mark) : Prop :=
  place < start ∧ stop < place

/-! ### Cutting a spelling off -/

/-- A cut that does not go through a stretch comes right before it or somewhere behind
it. -/
theorem split_of_not_cuts {input rest p q : Bytes} (hrest : rest <:+ input)
    (hcut : input = p ++ q) (h : ¬Cuts q.length input.length rest.length) :
    p = [] ∨ ∃ behind, rest = behind ++ q ∧
      ∀ front, input = front ++ rest → p = front ++ behind := by
  by_cases hbehind : q.length ≤ rest.length
  · right
    obtain ⟨behind, rfl⟩ : q <:+ rest :=
      List.suffix_of_suffix_length_le ⟨p, hcut.symm⟩ hrest hbehind
    refine ⟨behind, rfl, ?_⟩
    intro front hfront
    rw [hcut, ← List.append_assoc] at hfront
    exact List.append_cancel_right hfront
  · left
    have hle : input.length ≤ q.length :=
      Nat.le_of_not_lt fun hlt => h ⟨hlt, Nat.lt_of_not_le hbehind⟩
    rw [hcut, List.length_append] at hle
    exact List.length_eq_zero_iff.1 (by omega)

/-- Trivia that is cut off is trivia, and either the cut comes behind it or nothing is
left behind it. -/
theorem SpellsTrivia.take {source input rest : Bytes} {comments : List (Comment Mark)}
    (h : SpellsTrivia input comments rest) (hplace : input <:+ source) {p q : Bytes}
    (hcut : input = p ++ q)
    (hclear : ∀ k ∈ comments, ¬Cuts q.length k.start (commentEnd source k.start)) :
    ∃ comments' middle, SpellsTrivia p comments' middle ∧ (rest = middle ++ q ∨ middle = []) := by
  induction h generalizing p with
  | nothing => exact ⟨[], p, .nothing, .inl hcut⟩
  | @blank b _ _ _ hblank _ ih =>
    cases p with
    | nil => exact ⟨[], [], .nothing, .inr rfl⟩
    | cons first p =>
      obtain ⟨rfl, hmore⟩ := List.cons.inj hcut
      obtain ⟨comments', middle, htrivia, hmiddle⟩ :=
        ih ((List.suffix_cons b _).trans hplace) hmore hclear
      exact ⟨comments', middle, .blank hblank htrivia, hmiddle⟩
  | @comment input k middle _ _ hcomment _ ih =>
    rw [List.forall_mem_cons, hcomment.end_eq hplace, hcomment.start_eq] at hclear
    obtain ⟨hproper, hclear⟩ := hclear
    rcases split_of_not_cuts hcomment.suffix hcut hproper with rfl | ⟨behind, rfl, hsplit⟩
    · exact ⟨[], [], .nothing, .inr rfl⟩
    · obtain ⟨front, hfront, hbefore⟩ := hcomment.replace (Moves.sub behind q)
      obtain ⟨comments', last, htrivia, hlast⟩ :=
        ih (hcomment.suffix.trans hplace) rfl hclear
      rw [hsplit front hfront]
      exact ⟨_, last, .comment hbefore htrivia, hlast⟩

theorem SpellsDocument.take [Runtime] {source input : Bytes} {g : Grammar Extent Mark}
    (h : SpellsDocument input g) (hplace : input <:+ source) {p q : Bytes}
    (hcut : input = p ++ q)
    (hrules : ∀ r ∈ g.rules, ¬Cuts q.length r.note.start r.note.stop)
    (hcomments : ∀ k ∈ g.comments, ¬Cuts q.length k.start (commentEnd source k.start)) :
    ∃ g', SpellsDocument p g' := by
  induction h generalizing p with
  | trivia htrivia =>
    obtain ⟨comments', middle, htrivia', hmiddle⟩ := htrivia.take hplace hcut hcomments
    have hempty : middle = [] := by
      rcases hmiddle with hrest | hempty
      · exact (List.append_eq_nil_iff.1 hrest.symm).1
      · exact hempty
    subst hempty
    exact ⟨_, .trivia htrivia'⟩
  | @rule input comments₁ start r comments₂ rest rules comments₃ htrivia hrule _ ih =>
    simp only [List.forall_mem_append] at hcomments
    rw [List.forall_mem_cons, hrule.note] at hrules
    obtain ⟨hproper, hrules⟩ := hrules
    obtain ⟨comments', middle, htrivia', hmiddle⟩ := htrivia.take hplace hcut hcomments.1
    rcases hmiddle with rfl | rfl
    · rcases split_of_not_cuts hrule.suffix rfl hproper with rfl | ⟨behind, rfl, hsplit⟩
      · exact ⟨_, .trivia htrivia'⟩
      · obtain ⟨front, hfront, hrule'⟩ := hrule.replace (Moves.sub behind q)
        obtain ⟨g', hmore⟩ :=
          ih (hrule.suffix.trans (htrivia.suffix.trans hplace)) rfl hrules hcomments.2.2
        rw [hsplit front hfront] at htrivia'
        exact ⟨_, .rule htrivia' hrule' hmore⟩
    · exact ⟨_, .trivia htrivia'⟩

/-! ### What lies before a cut -/

/-- The rules and the comments that end before a place. -/
def Grammar.before (source : Bytes) (place : Mark) (g : Grammar Extent Mark) :
    Grammar Extent Mark where
  rules := g.rules.filter fun r => place ≤ r.note.stop
  comments := g.comments.filter fun k => place ≤ commentEnd source k.start

/-- Every rule and every comment of a grammar ends before the place. -/
structure EndsBefore (source : Bytes) (place : Mark) (g : Grammar Extent Mark) : Prop where
  rules : ∀ r ∈ g.rules, place ≤ r.note.stop
  comments : ∀ k ∈ g.comments, place ≤ commentEnd source k.start

/-- Every rule and every comment of a grammar begins behind the place, and ends further
on. -/
structure BeginsBehind (source : Bytes) (place : Mark) (g : Grammar Extent Mark) : Prop where
  rules : ∀ r ∈ g.rules, r.note.start ≤ place ∧ r.note.stop < r.note.start
  comments : ∀ k ∈ g.comments, k.start ≤ place ∧ commentEnd source k.start < k.start

theorem filter_append_left {p : α → Bool} {before behind : List α}
    (hbefore : ∀ x ∈ before, p x) (hbehind : ∀ x ∈ behind, ¬p x) :
    (before ++ behind).filter p = before := by
  rw [List.filter_append, List.filter_eq_self.2 hbefore, List.filter_eq_nil_iff.2 hbehind,
    List.append_nil]

theorem Grammar.before_append {source : Bytes} {place : Mark} {g g' : Grammar Extent Mark}
    (h : EndsBefore source place g) (h' : BeginsBehind source place g') :
    (g ++ g').before source place = g := by
  have hrules : (g.rules ++ g'.rules).filter (fun r => place ≤ r.note.stop) = g.rules := by
    apply filter_append_left
    · intro r hr
      simpa using h.rules r hr
    · intro r hr
      obtain ⟨hstart, hproper⟩ := h'.rules r hr
      simpa using Nat.lt_of_lt_of_le hproper hstart
  have hcomments : (g.comments ++ g'.comments).filter
      (fun k => place ≤ commentEnd source k.start) = g.comments := by
    apply filter_append_left
    · intro k hk
      simpa using h.comments k hk
    · intro k hk
      obtain ⟨hstart, hproper⟩ := h'.comments k hk
      simpa using Nat.lt_of_lt_of_le hproper hstart
  exact congrArg₂ Grammar.mk hrules hcomments

/-- The end of a comment does not change with more bytes behind the source. -/
theorem SpellsComment.end_shift {source input rest : Bytes} {k : Comment Mark}
    (h : SpellsComment input k rest) (hplace : input <:+ source) (more : Bytes) :
    commentEnd (source ++ more) (k.shift more.length).start = rest.length + more.length := by
  obtain ⟨before, rfl⟩ := hplace
  obtain ⟨front, rfl, hcomment⟩ := h.replace (Moves.add rest more)
  have hplace : front ++ (rest ++ more) <:+ before ++ (front ++ rest) ++ more :=
    ⟨before, by simp⟩
  rw [← List.length_append]
  exact hcomment.end_eq hplace

/-- A cut at an offset goes through the same stretches as the cut at its mark. -/
theorem cuts_iff {length cut start stop : Nat} (hstart : start ≤ length) :
    Cuts (length - cut) start stop ↔ length - start < cut ∧ cut < length - stop := by
  change length - cut < start ∧ stop < length - cut ↔ _
  omega

/-- What is spelled in the first part of a source is located in the whole as in that
part. -/
theorem Grammar.map_shift (options : Options) (p q : Bytes) (spelled : Grammar Extent Mark) :
    (spelled.map (Extent.shift q.length) (· + q.length)).map
        (Cursor.locate { source := p ++ q, options })
        (Cursor.positionAt { source := p ++ q, options }) =
      spelled.map (Cursor.locate { source := p, options })
        (Cursor.positionAt { source := p, options }) := by
  rw [Grammar.map_map]
  apply Grammar.map_congr
  · intro n _
    exact locate_shift options p q n.note
  · intro k _
    exact positionAt_shift options p q k.start

section

variable [Runtime]

theorem SpellsDocument.rules_spelled {source : Bytes} {g : Grammar Extent Mark}
    (h : SpellsDocument source g) :
    ∀ r ∈ g.rules, ∃ input comments rest, input <:+ source ∧ SpellsRule input r comments rest := by
  intro r hr
  obtain ⟨hplace, hnode⟩ := h.grounded.nodes _ (Grammar.mem_nodes_of_mem_rules hr)
  cases hnode with
  | rule hrule => exact ⟨_, _, _, hplace, hrule⟩

/-- A document whose first part is one falls apart there. -/
theorem SpellsDocument.split {p q : Bytes} {g g₁ : Grammar Extent Mark}
    (h : SpellsDocument (p ++ q) g) (h₁ : SpellsDocument p g₁) :
    ∃ g₂, g = g₁.map (Extent.shift q.length) (· + q.length) ++ g₂ ∧
      EndsBefore (p ++ q) q.length (g₁.map (Extent.shift q.length) (· + q.length)) ∧
      BeginsBehind (p ++ q) q.length g₂ := by
  have hresult := document_of_spells h
  rw [document_append h₁ q] at hresult
  cases hsecond : (document q).result with
  | error error =>
    rw [hsecond] at hresult
    cases hresult
  | ok g₂ =>
    rw [hsecond] at hresult
    have h₂ := spells_of_document hsecond
    refine ⟨g₂, (Except.ok.inj hresult).symm, ⟨?_, ?_⟩, ⟨?_, ?_⟩⟩
    · rw [Grammar.map, List.forall_mem_map]
      intro r _
      exact Nat.le_add_left _ _
    · rw [Grammar.map, List.forall_mem_map]
      intro k hk
      obtain ⟨input, rest, hplace, hcomment⟩ := h₁.grounded.comments k hk
      change q.length ≤ commentEnd (p ++ q) (k.shift q.length).start
      rw [hcomment.end_shift hplace]
      exact Nat.le_add_left _ _
    · intro r hr
      obtain ⟨input, comments, rest, hplace, hrule⟩ := h₂.rules_spelled r hr
      rw [hrule.note]
      exact ⟨hplace.length_le, hrule.shorter⟩
    · intro k hk
      obtain ⟨input, rest, hplace, hcomment⟩ := h₂.grounded.comments k hk
      rw [hcomment.end_eq (hplace.trans (List.suffix_append p q)), hcomment.start_eq]
      exact ⟨hplace.length_le, hcomment.shorter⟩

/-- The first part of a document is one if and only if the cut goes through no rule and
no comment, and it is then spelled by what ends before the cut. -/
theorem spellsDocument_take {p q : Bytes} {g : Grammar Extent Mark}
    (h : SpellsDocument (p ++ q) g) :
    ((∃ g', SpellsDocument p g') ↔
      (∀ r ∈ g.rules, ¬Cuts q.length r.note.start r.note.stop) ∧
        ∀ k ∈ g.comments, ¬Cuts q.length k.start (commentEnd (p ++ q) k.start)) ∧
    ∀ g', SpellsDocument p g' →
      g'.map (Extent.shift q.length) (· + q.length) = g.before (p ++ q) q.length := by
  refine ⟨⟨?_, ?_⟩, ?_⟩
  · rintro ⟨g₁, h₁⟩
    obtain ⟨g₂, rfl, hbefore, hbehind⟩ := h.split h₁
    constructor
    · intro r hr
      rcases List.mem_append.1 hr with hr | hr
      · exact fun hcut => Nat.not_lt.2 (hbefore.rules r hr) hcut.2
      · exact fun hcut => Nat.not_lt.2 (hbehind.rules r hr).1 hcut.1
    · intro k hk
      rcases List.mem_append.1 hk with hk | hk
      · exact fun hcut => Nat.not_lt.2 (hbefore.comments k hk) hcut.2
      · exact fun hcut => Nat.not_lt.2 (hbehind.comments k hk).1 hcut.1
  · rintro ⟨hrules, hcomments⟩
    exact h.take (List.suffix_refl _) rfl hrules hcomments
  · intro g₁ h₁
    obtain ⟨g₂, rfl, hbefore, hbehind⟩ := h.split h₁
    rw [Grammar.before_append hbefore hbehind]

/-! ### Offsets -/

variable {options : Options} {source : Bytes} {spelled : Grammar Extent Mark}

theorem SpellsDocument.stop_rule (h : SpellsDocument source spelled) {r : Rule Extent}
    (hr : r ∈ spelled.rules) :
    (Cursor.locate { source, options } r.note).stop = source.length - r.note.stop := by
  obtain ⟨input, comments, rest, hplace, hrule⟩ := h.rules_spelled r hr
  rw [hrule.note]
  exact stop_locate (Nat.le_of_lt hrule.shorter) hplace.length_le

theorem SpellsDocument.cuts_rule (h : SpellsDocument source spelled) {r : Rule Extent}
    (hr : r ∈ spelled.rules) (cut : Nat) :
    Cuts (source.length - cut) r.note.start r.note.stop ↔
      (Cursor.locate { source, options } r.note).start.offset < cut ∧
        cut < (Cursor.locate { source, options } r.note).stop := by
  have hstart := (h.laid.nodesWithin _ (Grammar.mem_nodes_of_mem_rules hr)).1
  rw [Node.note] at hstart
  rw [start_locate, h.stop_rule hr, cuts_iff hstart]

theorem SpellsDocument.cuts_comment (h : SpellsDocument source spelled) {k : Comment Mark}
    (hk : k ∈ spelled.comments) (cut : Nat) :
    Cuts (source.length - cut) k.start (commentEnd source k.start) ↔
      (Cursor.positionAt { source, options } k.start).offset < cut ∧
        cut < (k.map (Cursor.positionAt { source, options })).stop source := by
  have hstart := (h.laid.commentsWithin k hk).2.2
  rw [offset_positionAt, Comment.stop_positionAt, cuts_iff hstart]

/-- What ends before a mark is what ends before its offset. -/
theorem SpellsDocument.map_before (h : SpellsDocument source spelled) (cut : Nat) :
    (spelled.before source (source.length - cut)).map (Cursor.locate { source, options })
        (Cursor.positionAt { source, options }) =
      ⟨(spelled.rules.map (Rule.map (Cursor.locate { source, options }))).filter
          fun r => r.note.stop ≤ cut,
        (spelled.comments.map (Comment.map (Cursor.positionAt { source, options }))).filter
          fun k => k.stop source ≤ cut⟩ := by
  have hcut : ∀ stop : Nat, source.length - cut ≤ stop ↔ source.length - stop ≤ cut := by
    omega
  apply congrArg₂ Grammar.mk
  · rw [List.filter_map]
    apply congrArg
    apply List.filter_congr
    intro r hr
    have hstop : (r.map (Cursor.locate { source, options })).note.stop =
        source.length - r.note.stop := h.stop_rule hr
    simp only [Function.comp, hstop, decide_eq_decide]
    exact hcut r.note.stop
  · rw [List.filter_map]
    apply congrArg
    apply List.filter_congr
    intro k _
    simp only [Function.comp, Comment.stop_positionAt, decide_eq_decide]
    exact hcut _

end

/-- The bytes before a cut parse if and only if the cut goes through no rule and no
comment; what they give is what ends before the cut, unchanged. -/
theorem parse_take [Runtime] {options : Options} {source : Bytes} {g : Grammar Span Position}
    (h : parse options source = .ok g) (cut : Nat) :
    ((∃ g', parse options (source.take cut) = .ok g') ↔
      (∀ r ∈ g.rules, ¬(r.note.start.offset < cut ∧ cut < r.note.stop)) ∧
        ∀ k ∈ g.comments, ¬(k.start.offset < cut ∧ cut < k.stop source)) ∧
    ∀ g', parse options (source.take cut) = .ok g' →
      g' = ⟨g.rules.filter fun r => r.note.stop ≤ cut,
        g.comments.filter fun k => k.stop source ≤ cut⟩ := by
  obtain ⟨spelled, hresult, rfl⟩ := parse_eq_ok h
  have hspelled := spells_of_document hresult
  have hsource := hspelled
  rw [← List.take_append_drop cut source] at hsource
  obtain ⟨hiff, hbefore⟩ := spellsDocument_take hsource
  rw [List.take_append_drop, List.length_drop] at hiff hbefore
  constructor
  · rw [exists_parse_iff, hiff]
    simp only [Grammar.map, List.forall_mem_map]
    apply and_congr
    · apply forall₂_congr
      intro r hr
      exact not_congr (hspelled.cuts_rule hr cut)
    · apply forall₂_congr
      intro k hk
      exact not_congr (hspelled.cuts_comment hk cut)
  · intro g' hg'
    obtain ⟨spelled', hresult', rfl⟩ := parse_eq_ok hg'
    have hsame := hbefore spelled' (spells_of_document hresult')
    rw [← Grammar.map_shift options _ (source.drop cut), List.take_append_drop,
      List.length_drop, hsame]
    exact hspelled.map_before cut

/-- Two rules, and a comment between them that has another in it. -/
def cutSource : Bytes :=
  [0x61, 0x3D, 0x62, 0x3B, 0x28, 0x2A, 0x28, 0x2A, 0x6B, 0x2A, 0x29, 0x2A, 0x29, 0x0A, 0x63,
    0x3D, 0x27, 0x3B, 0x27, 0x3B]

def cutGrammar : Grammar Span Position where
  rules := [⟨⟨⟨0, 0, 0⟩, 4⟩, [0x61],
      [.term (.factor (.primary (.identifier ⟨⟨2, 0, 2⟩, 1⟩ [0x62])))]⟩,
    ⟨⟨⟨14, 1, 0⟩, 6⟩, [0x63],
      [.term (.factor (.primary (.terminal ⟨⟨16, 1, 2⟩, 3⟩ [0x3B])))]⟩]
  comments := [⟨"(*k*)", ⟨4, 0, 4⟩⟩]

attribute [local instance] Runtime.usual

/-- A cut behind the comment leaves a document, and one behind the inner `*)` or behind the
`;` of the terminal string does not. -/
theorem parse_cutSource : parse {} cutSource = .ok cutGrammar ∧
    parse {} (cutSource.take 13) = .ok ⟨cutGrammar.rules.take 1, cutGrammar.comments⟩ ∧
    (¬∃ g, parse {} (cutSource.take 11) = .ok g) ∧
    ¬∃ g, parse {} (cutSource.take 18) = .ok g := by
  have hparse : parse {} cutSource = .ok cutGrammar := by decide +kernel
  refine ⟨hparse, ?_, ?_, ?_⟩
  · obtain ⟨hiff, hsame⟩ := parse_take hparse 13
    obtain ⟨g, hg⟩ := hiff.2 (by decide +kernel)
    rw [hg, hsame g hg]
    decide +kernel
  · rw [(parse_take hparse 11).1]
    decide +kernel
  · rw [(parse_take hparse 18).1]
    decide +kernel

end Ebnf
