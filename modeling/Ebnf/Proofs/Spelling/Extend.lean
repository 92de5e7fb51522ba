import Ebnf.Proofs.Spelling.Recast

/-!
# Other bytes behind a spelling

Comments, trivia and rules are spelled by their own bytes.  With anything else behind
them these bytes spell the same, only that another number of bytes is unread at every
place.  The symbols that look at a byte of the next one see what they saw before: in a
comment there is always its `*)` to come, and in a rule its terminator.  For the same
reason a definition may be followed by a terminator, whatever else followed it.
-/

namespace Ebnf

open Byte

/-- The same bytes, with more of them behind. -/
def Extent.shift (count : Nat) (extent : Extent) : Extent :=
  ⟨extent.start + count, extent.stop + count⟩

def Comment.shift (count : Nat) (k : Comment Mark) : Comment Mark :=
  k.map (· + count)

/-- Takes the places before `rest` to the same places before `rest'`. -/
def Moves (place : Mark → Mark) (rest rest' : Bytes) : Prop :=
  ∀ before, place (before + rest.length) = before + rest'.length

/-- The mark of the same byte with other bytes behind. -/
def exchanged (rest rest' : Bytes) (place : Mark) : Mark :=
  place - rest.length + rest'.length

section

variable {place : Mark → Mark} {rest rest' : Bytes}

theorem Moves.append (h : Moves place rest rest') (front : Bytes) :
    Moves place (front ++ rest) (front ++ rest') := by
  intro before
  rw [List.length_append, List.length_append, ← Nat.add_assoc, h, Nat.add_assoc]

theorem Moves.length_eq (h : Moves place rest rest') (front : Bytes) :
    place (front ++ rest).length = (front ++ rest').length := by
  rw [List.length_append, List.length_append, h]

theorem Moves.add (rest more : Bytes) : Moves (· + more.length) rest (rest ++ more) := by
  intro before
  change before + rest.length + more.length = _
  rw [List.length_append, Nat.add_assoc]

theorem Moves.sub (rest more : Bytes) : Moves (· - more.length) (rest ++ more) rest := by
  intro before
  change before + (rest ++ more).length - more.length = _
  rw [List.length_append, ← Nat.add_assoc, Nat.add_sub_cancel]

theorem Moves.exchange (rest rest' : Bytes) : Moves (exchanged rest rest') rest rest' := by
  intro before
  change before + rest.length - rest.length + rest'.length = _
  rw [Nat.add_sub_cancel]

/-! ### Comments and trivia -/

theorem pair_prefix_of_head_eq {first second b : UInt8} {input input' : Bytes}
    (h : input.head? = input'.head?) :
    [first, second] <+: b :: input ↔ [first, second] <+: b :: input' := by
  cases input <;> cases input' <;> simp_all [List.cons_prefix_cons]

theorem head?_append_cons (front : Bytes) (b : UInt8) (rest rest' : Bytes) :
    (front ++ b :: rest).head? = (front ++ b :: rest').head? := by
  cases front <;> rfl

theorem SpellsInterior.replace {input : Bytes} {b : UInt8}
    (h : SpellsInterior input (b :: rest)) (rest' : Bytes) :
    ∃ front, input = front ++ b :: rest ∧ SpellsInterior (front ++ b :: rest') (b :: rest') := by
  generalize hback : b :: rest = back at h
  induction h generalizing b rest rest' with
  | done =>
    subst hback
    exact ⟨[], rfl, .done⟩
  | comment hnonempty _ _ ihinside ihmore =>
    subst hback
    obtain ⟨front, rfl, hmore⟩ := ihmore rest' rfl
    obtain ⟨inside, rfl, hinside⟩ :=
      ihinside (rightParenthesis :: (front ++ b :: rest')) rfl
    refine ⟨leftParenthesis :: asterisk :: (inside ++ asterisk :: rightParenthesis :: front),
      by simp, ?_⟩
    have hcomment : SpellsInterior (leftParenthesis :: asterisk :: (inside ++
        asterisk :: rightParenthesis :: (front ++ b :: rest'))) (b :: rest') := by
      refine .comment ?_ hinside hmore
      rwa [head?_append_cons inside asterisk _ (rightParenthesis :: (front ++ b :: rest))]
    simpa using hcomment
  | @byte first _ _ hopen hclose _ ih =>
    subst hback
    obtain ⟨front, rfl, hmore⟩ := ih rest' rfl
    -- The byte behind this one is the same, so both pairs are seen or not as before.
    have hhead := head?_append_cons front b rest rest'
    refine ⟨first :: front, rfl, .byte ?_ ?_ hmore⟩
    · exact fun h => hopen ((pair_prefix_of_head_eq hhead).2 h)
    · exact fun h => hclose ((pair_prefix_of_head_eq hhead).2 h)

theorem SpellsComment.replace (hplace : Moves place rest rest') {input : Bytes}
    {k : Comment Mark} (h : SpellsComment input k rest) :
    ∃ front, input = front ++ rest ∧ SpellsComment (front ++ rest') (k.map place) rest' := by
  cases h with
  | @mk inside _ interior hinput hnonempty hinside =>
    subst hinput
    obtain ⟨front, hfront, hinside'⟩ := hinside.replace (rightParenthesis :: rest')
    obtain rfl := List.append_cancel_right hfront
    refine ⟨leftParenthesis :: asterisk :: (interior ++ [asterisk, rightParenthesis]),
      by simp, ?_⟩
    have hclear := hnonempty
    rw [head?_append_cons interior asterisk _ (rightParenthesis :: rest')] at hclear
    have hcomment := SpellsComment.mk rfl hclear hinside'
    have hstart := hplace (interior.length + 4)
    simp only [Comment.map, List.length_append, List.length_cons, List.append_assoc,
      List.cons_append, List.nil_append] at hcomment ⊢
    rw [show interior.length + (rest.length + 1 + 1) + 2 =
      interior.length + 4 + rest.length by omega, hstart]
    rwa [show interior.length + (rest'.length + 1 + 1) + 2 =
      interior.length + 4 + rest'.length by omega] at hcomment

theorem SpellsTrivia.replace (hplace : Moves place rest rest') {input : Bytes}
    {comments : List (Comment Mark)} (h : SpellsTrivia input comments rest) :
    ∃ front, input = front ++ rest ∧
      SpellsTrivia (front ++ rest') (comments.map (Comment.map place)) rest' := by
  induction h with
  | nothing => exact ⟨[], rfl, .nothing⟩
  | @blank b _ _ _ hblank _ ih =>
    obtain ⟨front, rfl, hmore⟩ := ih hplace
    exact ⟨b :: front, rfl, .blank hblank hmore⟩
  | comment hcomment _ ih =>
    obtain ⟨front, rfl, hmore⟩ := ih hplace
    obtain ⟨before, rfl, hbefore⟩ := hcomment.replace (hplace.append front)
    rw [← List.append_assoc] at hbefore ⊢
    exact ⟨before ++ front, rfl, .comment hbefore hmore⟩

theorem SpellsTrivia.extend (more : Bytes) {input rest : Bytes}
    {comments : List (Comment Mark)} (h : SpellsTrivia input comments rest) :
    SpellsTrivia (input ++ more) (comments.map (Comment.shift more.length)) (rest ++ more) := by
  obtain ⟨front, rfl, htrivia⟩ := h.replace (Moves.add rest more)
  rw [List.append_assoc]
  exact htrivia

/-! ### Definitions and rules -/

theorem carried_all (place : Mark → Mark) (comments : List (Comment Mark)) :
    carried place (fun _ => true) comments = comments.map (Comment.map place) := by
  unfold carried
  rw [List.filter_eq_self.2 fun _ _ => rfl]

/-- The same bytes in front of `rest` and in front of `rest'`. -/
def Replaced (rest rest' input input' : Bytes) (_behind : List (Comment Mark)) : Prop :=
  ∃ front, input = front ++ rest ∧ input' = front ++ rest'

/-- Anything may be replaced by what begins with a terminator. -/
theorem Moves.recast (hplace : Moves place rest (semicolon :: rest')) :
    Recast (Replaced rest (semicolon :: rest')) place fun _ => true where
  length := by
    rintro _ _ _ ⟨front, rfl, rfl⟩
    exact hplace.length_eq front
  head_ne := by
    rintro _ _ _ b ⟨front, rfl, rfl⟩ hb hhead
    cases front with
    | nil => rcases hb with rfl | rfl <;> simp +decide
    | cons first front => exact hhead
  cons := by
    rintro _ _ _ first ⟨front, rfl, rfl⟩
    exact ⟨first :: front, rfl, rfl⟩
  comment := by
    rintro _ k _ _ _ hcomment ⟨front, rfl, rfl⟩
    obtain ⟨before, rfl, hbefore⟩ := hcomment.replace (hplace.append front)
    have htrivia := SpellsTrivia.comment hbefore .nothing
    refine ⟨before ++ (front ++ semicolon :: rest'), ⟨before ++ front, by simp, by simp⟩, ?_⟩
    rw [carried_all]
    exact htrivia

variable [Runtime]

theorem SpellsDefinition.replace (hplace : Moves place rest (semicolon :: rest'))
    {input : Bytes} {d : Option (Definition Extent)} {comments : List (Comment Mark)}
    (h : SpellsDefinition input d comments rest) :
    ∃ front, input = front ++ rest ∧ SpellsDefinition (front ++ semicolon :: rest')
      (d.map (Definition.map (Extent.map place))) (comments.map (Comment.map place))
      (semicolon :: rest') := by
  have hend : Replaced rest (semicolon :: rest') rest (semicolon :: rest') [] := ⟨[], rfl, rfl⟩
  obtain ⟨_, ⟨front, rfl, rfl⟩, hdefinition⟩ := h.recast hplace.recast hend
  rw [carried_all] at hdefinition
  exact ⟨front, rfl, hdefinition⟩

theorem SpellsRule.replace (hplace : Moves place rest rest') {input : Bytes}
    {r : Rule Extent} {comments : List (Comment Mark)}
    (h : SpellsRule input r comments rest) :
    ∃ front, input = front ++ rest ∧ SpellsRule (front ++ rest')
      (r.map (Extent.map place)) (comments.map (Comment.map place)) rest' := by
  have hbehind : Moves place (semicolon :: rest) (semicolon :: rest') :=
    hplace.append [semicolon]
  have hend : Replaced (semicolon :: rest) (semicolon :: rest') (semicolon :: rest)
      (semicolon :: rest') [] := ⟨[], rfl, rfl⟩
  obtain ⟨_, ⟨front, rfl, rfl⟩, hrule⟩ := h.recast hbehind.recast hend (hplace.length_eq [])
  rw [carried_all] at hrule
  exact ⟨front ++ [semicolon], by simp, by simpa using hrule⟩

theorem SpellsRule.extend (more : Bytes) {input rest : Bytes} {r : Rule Extent}
    {comments : List (Comment Mark)} (h : SpellsRule input r comments rest) :
    SpellsRule (input ++ more) (r.map (Extent.shift more.length))
      (comments.map (Comment.shift more.length)) (rest ++ more) := by
  obtain ⟨front, rfl, hrule⟩ := h.replace (Moves.add rest more)
  rw [List.append_assoc]
  exact hrule

end

end Ebnf
