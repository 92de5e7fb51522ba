import Ebnf.Proofs.Spelling.Comments
import Ebnf.Proofs.Spelling.Extend

/-!
# Comments that are overwritten

Spaces in place of a comment are trivia as the comment was, and are as many bytes.  So a
document in which some comments are overwritten with spaces is spelled as before, at the
same places, without these comments.
-/

namespace Ebnf

open Byte

/-- The input with spaces in some stretches, each given by its two marks. -/
def blank (stretches : List (Mark × Mark)) : Bytes → Bytes
  | [] => []
  | b :: rest =>
    (if stretches.any fun s => s.2 ≤ rest.length && rest.length < s.1 then space else b) ::
      blank stretches rest

section

variable (stretches : List (Mark × Mark))

theorem blank_length (input : Bytes) : (blank stretches input).length = input.length := by
  induction input with
  | nil => rfl
  | cons b rest ih => rw [blank, List.length_cons, List.length_cons, ih]

theorem blank_head (input : Bytes) : ∀ b, (blank stretches input).head? = some b →
    input.head? = some b ∨ isBlank b := by
  cases input with
  | nil => nofun
  | cons first rest =>
    intro b hb
    rw [blank, List.head?_cons, Option.some.injEq] at hb
    subst hb
    split
    · exact .inr (by decide)
    · exact .inl rfl

/-- A byte in front of all stretches stands. -/
theorem blank_cons {b : UInt8} {rest : Bytes} (h : ∀ s ∈ stretches, s.1 ≤ rest.length) :
    blank stretches (b :: rest) = b :: blank stretches rest := by
  have hnone : ¬stretches.any fun s => s.2 ≤ rest.length && rest.length < s.1 := by
    simp only [List.any_eq_true, Bool.and_eq_true, decide_eq_true_eq, not_exists, not_and]
    intro s hs _
    exact Nat.not_lt.2 (h s hs)
  rw [blank, if_neg hnone]

theorem blank_append {front rest : Bytes} (h : ∀ s ∈ stretches, s.1 ≤ rest.length) :
    blank stretches (front ++ rest) = front ++ blank stretches rest := by
  induction front with
  | nil => rfl
  | cons b front ih =>
    have hfront : ∀ s ∈ stretches, s.1 ≤ (front ++ rest).length := by
      intro s hs
      exact Nat.le_trans (h s hs) (List.suffix_append front rest).length_le
    rw [List.cons_append, blank_cons stretches hfront, ih, List.cons_append]

/-- A stretch does not matter behind its end. -/
theorem blank_behind {input : Bytes} {start stop : Mark} (h : input.length ≤ stop) :
    blank ((start, stop) :: stretches) input = blank stretches input := by
  induction input with
  | nil => rfl
  | cons b rest ih =>
    rw [List.length_cons] at h
    have hstop : ¬stop ≤ rest.length := Nat.not_le.2 h
    rw [blank, blank, ih (Nat.le_of_lt h), List.any_cons]
    simp only [hstop, decide_false, Bool.false_and, Bool.false_or]

/-- A stretch is overwritten from where it starts to where it stops. -/
theorem blank_stretch {front rest : Bytes} {start : Mark} (h : (front ++ rest).length ≤ start) :
    blank ((start, rest.length) :: stretches) (front ++ rest) =
      List.replicate front.length space ++ blank stretches rest := by
  induction front with
  | nil => exact blank_behind stretches (Nat.le_refl _)
  | cons b front ih =>
    rw [List.cons_append, List.length_cons] at h
    have hstop : rest.length ≤ (front ++ rest).length :=
      (List.suffix_append front rest).length_le
    rw [List.cons_append, blank, ih (Nat.le_of_lt h), List.any_cons, List.length_cons,
      List.replicate_succ, List.cons_append]
    have hstart : (front ++ rest).length < start := h
    simp only [hstop, hstart, decide_true, Bool.and_self, Bool.true_or, if_true]

end

theorem spellsTrivia_spaces (count : Nat) (rest : Bytes) :
    SpellsTrivia (List.replicate count space ++ rest) [] rest := by
  induction count with
  | zero => exact .nothing
  | succ count ih => exact .blank (by decide) ih

/-! ### Overwriting comments -/

theorem commentEnd_append (front : Bytes) {rest : Bytes} {place : Mark}
    (h : place ≤ rest.length) : commentEnd (front ++ rest) place = commentEnd rest place := by
  unfold commentEnd
  rw [List.length_append, Nat.add_sub_assoc h, Nat.add_assoc, List.drop_length_add_append]

/-- Where the comments of an input stand. -/
def commentStretches (input : Bytes) (comments : List (Comment Mark)) : List (Mark × Mark) :=
  comments.map fun k => (k.start, commentEnd input k.start)

/-- An input and what comes of it when the chosen ones of its comments are overwritten. -/
structure Blanked (chosen : Comment Mark → Bool) (input input' : Bytes)
    (comments : List (Comment Mark)) : Prop where
  eq : input' = blank (commentStretches input (comments.filter chosen)) input
  within : ∀ k ∈ comments, k.start ≤ input.length

namespace Blanked

variable {chosen : Comment Mark → Bool} {rest rest' : Bytes} {comments : List (Comment Mark)}

theorem stretches_within (h : Blanked chosen rest rest' comments) :
    ∀ s ∈ commentStretches rest (comments.filter chosen), s.1 ≤ rest.length := by
  unfold commentStretches
  rw [List.forall_mem_map]
  intro k hk
  exact h.within k (List.mem_filter.1 hk).1

theorem stretches_append (h : Blanked chosen rest rest' comments) (front : Bytes) :
    commentStretches (front ++ rest) (comments.filter chosen) =
      commentStretches rest (comments.filter chosen) := by
  apply List.map_congr_left
  intro k hk
  rw [commentEnd_append front (h.within k (List.mem_filter.1 hk).1)]

theorem within_append (h : Blanked chosen rest rest' comments) (front : Bytes) :
    ∀ k ∈ comments, k.start ≤ (front ++ rest).length :=
  fun k hk => Nat.le_trans (h.within k hk) (List.suffix_append front rest).length_le

theorem append (h : Blanked chosen rest rest' comments) (front : Bytes) :
    Blanked chosen (front ++ rest) (front ++ rest') comments where
  eq := by rw [h.stretches_append, blank_append _ h.stretches_within, h.eq]
  within := h.within_append front

theorem length_eq (h : Blanked chosen rest rest' comments) : rest.length = rest'.length := by
  rw [h.eq, blank_length]

/-- A comment that is not chosen stands. -/
theorem comment_kept (h : Blanked chosen rest rest' comments) {input : Bytes}
    {k : Comment Mark} (hcomment : SpellsComment input k rest) (hk : ¬chosen k) :
    ∃ input', Blanked chosen input input' (k :: comments) ∧
      SpellsTrivia input' [k.map id] rest' := by
  have hmoves : Moves id rest rest' := fun before => congrArg (before + ·) h.length_eq
  have hstart := hcomment.start_eq
  obtain ⟨front, rfl, hcomment'⟩ := hcomment.replace hmoves
  refine ⟨front ++ rest', ⟨?_, ?_⟩, .comment hcomment' .nothing⟩
  · rw [List.filter_cons_of_neg hk]
    exact (h.append front).eq
  · rw [List.forall_mem_cons]
    exact ⟨Nat.le_of_eq hstart, h.within_append front⟩

/-- A comment that is chosen leaves spaces. -/
theorem comment_chosen (h : Blanked chosen rest rest' comments) {input : Bytes}
    {k : Comment Mark} (hcomment : SpellsComment input k rest) (hk : chosen k) :
    ∃ input', Blanked chosen input input' (k :: comments) ∧ SpellsTrivia input' [] rest' := by
  have hstart := hcomment.start_eq
  have hend := hcomment.end_eq (List.suffix_refl input)
  obtain ⟨front, rfl⟩ := hcomment.suffix
  refine ⟨List.replicate front.length space ++ rest', ⟨?_, ?_⟩, spellsTrivia_spaces _ _⟩
  · have hstretches : commentStretches (front ++ rest) ((k :: comments).filter chosen) =
        (k.start, rest.length) :: commentStretches rest (comments.filter chosen) := by
      rw [List.filter_cons_of_pos hk, ← h.stretches_append front, ← hend]
      rfl
    rw [hstretches, blank_stretch _ (Nat.le_of_eq hstart.symm), h.eq]
  · rw [List.forall_mem_cons]
    exact ⟨Nat.le_of_eq hstart, h.within_append front⟩

theorem recast (chosen : Comment Mark → Bool) :
    Recast (Blanked chosen) id fun k => !chosen k where
  length h := h.length_eq
  head_ne h hb hhead := by
    rw [h.eq]
    intro hhead'
    rcases blank_head _ _ _ hhead' with hsame | hblank
    · exact hhead hsame
    · rcases hb with rfl | rfl <;> exact absurd hblank (by decide)
  cons b h := h.append [b]
  comment := by
    intro input k rest rest' comments hcomment h
    by_cases hk : chosen k
    · obtain ⟨input', hinput, htrivia⟩ := h.comment_chosen hcomment hk
      refine ⟨input', hinput, ?_⟩
      rwa [carried, List.filter_cons_of_neg (by simpa using hk)]
    · obtain ⟨input', hinput, htrivia⟩ := h.comment_kept hcomment hk
      refine ⟨input', hinput, ?_⟩
      rwa [carried, List.filter_cons_of_pos (by simpa using hk)]

end Blanked

variable [Runtime]

/-- A document is spelled with any of its comments overwritten, only without them. -/
theorem SpellsDocument.blank {source : Bytes} {g : Grammar Extent Mark}
    (h : SpellsDocument source g) (chosen : Comment Mark → Bool) :
    SpellsDocument (Ebnf.blank (commentStretches source (g.comments.filter chosen)) source)
      ((g.retain fun k => !chosen k).map (Extent.map id) id) := by
  have hend : Blanked chosen [] [] [] := ⟨rfl, by simp⟩
  obtain ⟨source', hsource, hdocument⟩ := h.recast (Blanked.recast chosen) hend
  rwa [← hsource.eq]

end Ebnf
