import Ebnf.Proofs.Spelling.Comments

/-!
# Nodes by themselves

Whatever surrounds a node of a document, the bytes from its first one to its last one
spell it.  The comments in this spelling are those of the document that lie between the
two: trivia before a node and behind it is no part of it.
-/

namespace Ebnf

/-- The comments that lie in an extent of the source. -/
def enclosedComments (source : Bytes) (extent : Extent) (comments : List (Comment Mark)) :
    List (Comment Mark) :=
  comments.filter fun k => k.start ≤ extent.start && extent.stop ≤ commentEnd source k.start

section

variable {source : Bytes} {extent : Extent}

theorem enclosedComments_append (comments comments' : List (Comment Mark)) :
    enclosedComments source extent (comments ++ comments') =
      enclosedComments source extent comments ++ enclosedComments source extent comments' :=
  List.filter_append ..

variable {input rest : Bytes} {nodes : List (Node Extent)} {comments : List (Comment Mark)}

theorem Laid.enclosed (h : Laid source input rest nodes comments)
    (hextent : extent = ⟨input.length, rest.length⟩) :
    enclosedComments source extent comments = comments := by
  apply List.filter_eq_self.2
  intro k hk
  obtain ⟨hend, -, hstart⟩ := h.commentsWithin k hk
  subst hextent
  rw [Bool.and_eq_true, decide_eq_true_eq, decide_eq_true_eq]
  exact ⟨hstart, hend⟩

theorem Laid.not_enclosed (h : Laid source input rest nodes comments)
    (hapart : extent.start ≤ rest.length ∨ input.length ≤ extent.stop) :
    enclosedComments source extent comments = [] := by
  apply List.filter_eq_nil_iff.2
  intro k hk
  obtain ⟨hend, hproper, hstart⟩ := h.commentsWithin k hk
  rw [Bool.and_eq_true, decide_eq_true_eq, decide_eq_true_eq]
  rintro ⟨hbegins, hstops⟩
  rcases hapart with hbefore | hbehind
  · have hle := Nat.le_trans hbegins (Nat.le_trans hbefore hend)
    exact Nat.not_lt.2 hle hproper
  · have hle := Nat.le_trans hstart (Nat.le_trans hbehind hstops)
    exact Nat.not_lt.2 hle hproper

variable [Runtime]

/-- A node is spelled in a stretch, with those of the comments in it that it encloses. -/
inductive Enclosed (source input rest : Bytes) (n : Node Extent)
    (comments : List (Comment Mark)) : Prop
  | mk {start stop : Bytes} (hstart : start <:+ input)
      (hnode : SpellsWhole start n (enclosedComments source n.note comments) stop)
      (hstop : rest <:+ stop) :
      Enclosed source input rest n comments

end

variable [Runtime]

theorem Enclosed.placed (source : Bytes) : Placed source (Enclosed source) where
  whole := by
    intro input rest n comments hplace h
    have hlaid := (h.assembled (Laid.compositional source)).2 hplace
    have henclosed := hlaid.enclosed h.note
    exact .mk (List.suffix_refl _) (henclosed.symm ▸ h) (List.suffix_refl _)
  behind := by
    rintro input middle rest n nodes comments comments' ⟨hstart, hnode, hstop⟩ hrest hbehind hlaid
    have henclosed : enclosedComments source n.note (comments ++ comments') =
        enclosedComments source n.note comments := by
      rw [enclosedComments_append, hlaid.not_enclosed (.inr hbehind), List.append_nil]
    exact .mk hstart (henclosed ▸ hnode) (hrest.trans hstop)
  before := by
    rintro input middle rest n nodes comments comments' ⟨hstart, hnode, hstop⟩ hmiddle hbefore hlaid
    have henclosed : enclosedComments source n.note (comments ++ comments') =
        enclosedComments source n.note comments' := by
      rw [enclosedComments_append, hlaid.not_enclosed (.inl hbefore), List.nil_append]
    exact .mk (hstart.trans hmiddle) (henclosed ▸ hnode) hstop

/-- Every node of a document is spelled at its place, with the comments that it encloses. -/
theorem SpellsDocument.enclosed {source : Bytes} {g : Grammar Extent Mark}
    (h : SpellsDocument source g) {n : Node Extent} (hn : n ∈ g.nodes) :
    ∃ start stop, start <:+ source ∧
      SpellsWhole start n (enclosedComments source n.note g.comments) stop := by
  obtain ⟨hstart, hnode, -⟩ := (Enclosed.placed source).of_document h n hn
  exact ⟨_, _, hstart, hnode⟩

end Ebnf
