import Ebnf.Proofs.Spelling.Nodes

/-!
# Comments in one pass

The comments of a document can be found without reading it.  One pass over the bytes
takes a comment wherever `(*` comes next, up to the `*)` at which the nesting is back
where it was, passes over whatever stands between two quotes or two question marks, and
otherwise goes on byte by byte.  In a document that is spelled it finds exactly the
comments of the spelling: every construct is passed over without a comment of its own
and without leaving the pass inside a quoted lexeme.

The second part says where comments lie: one behind the other, and none of them in
contact with a quoted lexeme.  The third part is for what is to be shown of each node of a
document and all comments of it: it is enough to look at the comments in the node.
-/

namespace Ebnf

open Byte

/-- What stands behind the `*)` that closes the last of a number of open comments. -/
def behindComment : Nat → Bytes → Bytes
  | 0, input => input
  | _ + 1, [] => []
  | depth + 1, asterisk :: rightParenthesis :: rest => behindComment depth rest
  | depth + 1, leftParenthesis :: asterisk :: rest => behindComment (depth + 2) rest
  | depth + 1, _ :: rest => behindComment (depth + 1) rest

theorem behindComment_suffix (depth : Nat) (input : Bytes) :
    behindComment depth input <:+ input := by
  fun_induction behindComment depth input with
  | case1 => exact List.suffix_refl _
  | case2 => exact List.suffix_refl _
  | case3 depth rest ih => exact ih.trans (suffix_cons_cons _ _ _)
  | case4 depth rest ih => exact ih.trans (suffix_cons_cons _ _ _)
  | case5 depth b rest _ _ ih => exact ih.trans (List.suffix_cons _ _)

/-- What stands behind the next byte that is the same as a quote. -/
def behindQuote (quote : UInt8) (input : Bytes) : Bytes :=
  (input.dropWhile (· != quote)).tail

theorem behindQuote_suffix (quote : UInt8) (input : Bytes) :
    behindQuote quote input <:+ input :=
  (List.tail_suffix _).trans (List.dropWhile_suffix _)

theorem behindQuote_content {quote : UInt8} {content rest : Bytes} (hcontent : quote ∉ content) :
    behindQuote quote (content ++ quote :: rest) = rest := by
  have hmore : ∀ b ∈ content, (b != quote) = true := by
    intro b hb
    rw [bne_iff_ne]
    rintro rfl
    exact hcontent hb
  unfold behindQuote
  rw [List.dropWhile_append_of_pos hmore, List.dropWhile_cons_of_neg (by simp), List.tail_cons]

/-- The first quote that comes is the closing one. -/
theorem rest_eq_of_quoted {quote : UInt8} {content content' rest rest' : Bytes}
    (hcontent : quote ∉ content) (hcontent' : quote ∉ content')
    (h : content ++ quote :: rest = content' ++ quote :: rest') : rest = rest' := by
  rw [← @behindQuote_content quote content rest hcontent, h, behindQuote_content hcontent']

/-- The comments that one pass over the bytes finds. -/
def lexComments : Bytes → List (Comment Mark)
  | [] => []
  | leftParenthesis :: asterisk :: inside =>
    let rest := behindComment 1 inside
    let interior := inside.take (inside.length - (rest.length + 2))
    ⟨Utf8.text (Bytes.trim interior), inside.length + 2⟩ :: lexComments rest
  | b :: rest =>
    if isQuoting b then lexComments (behindQuote b rest) else lexComments rest
termination_by input => input.length
decreasing_by
  · have hle := (behindComment_suffix 1 inside).length_le
    simp only [List.length_cons]
    omega
  · have hle := (behindQuote_suffix b rest).length_le
    simp only [List.length_cons]
    omega
  · simp only [List.length_cons]
    omega

/-! ### The pass over a spelling -/

theorem behindComment_opener (depth : Nat) (inside : Bytes) :
    behindComment (depth + 1) (leftParenthesis :: asterisk :: inside) =
      behindComment (depth + 2) inside := rfl

theorem behindComment_closer (depth : Nat) (rest : Bytes) :
    behindComment (depth + 1) (asterisk :: rightParenthesis :: rest) =
      behindComment depth rest := rfl

theorem behindComment_byte {depth : Nat} {b : UInt8} {input : Bytes}
    (hopen : ¬[leftParenthesis, asterisk] <+: b :: input)
    (hclose : ¬[asterisk, rightParenthesis] <+: b :: input) :
    behindComment (depth + 1) (b :: input) = behindComment (depth + 1) input := by
  rw [behindComment]
  · rintro rest rfl rfl
    exact hclose ⟨rest, rfl⟩
  · rintro rest rfl rfl
    exact hopen ⟨rest, rfl⟩

theorem behindComment_interior {input rest : Bytes} (h : SpellsInterior input rest)
    (depth : Nat) : behindComment (depth + 1) input = behindComment (depth + 1) rest := by
  induction h generalizing depth with
  | done => rfl
  | comment _ _ _ ihinside ihmore =>
    rw [behindComment_opener, ihinside, behindComment_closer, ihmore]
  | byte hopen hclose _ ih => rw [behindComment_byte hopen hclose, ih]

/-- Behind a comment comes what its spelling leaves. -/
theorem SpellsComment.behind {input rest : Bytes} {k : Comment Mark}
    (h : SpellsComment input k rest) : behindComment 1 (input.drop 2) = rest := by
  obtain ⟨-, -, hinside⟩ := h
  rw [List.drop_succ_cons, List.drop_succ_cons, List.drop_zero,
    behindComment_interior hinside, behindComment_closer, behindComment]

theorem lexComments_opener (inside : Bytes) :
    lexComments (leftParenthesis :: asterisk :: inside) =
      ⟨Utf8.text (Bytes.trim (inside.take
        (inside.length - ((behindComment 1 inside).length + 2)))), inside.length + 2⟩ ::
        lexComments (behindComment 1 inside) := by
  rw [lexComments.eq_def]
  rfl

theorem lexComments_comment {input rest : Bytes} {k : Comment Mark}
    (h : SpellsComment input k rest) : lexComments input = k :: lexComments rest := by
  cases h with
  | @mk inside _ interior hinput hnonempty hinside =>
    have hbehind : behindComment 1 inside = rest :=
      (SpellsComment.mk hinput hnonempty hinside).behind
    have hlength : inside.length - (rest.length + 2) = interior.length := by
      rw [hinput, List.length_append]
      simp only [List.length_cons]
      omega
    have hinterior : inside.take (inside.length - (rest.length + 2)) = interior := by
      rw [hlength, hinput, List.take_left]
    rw [lexComments_opener, hbehind, hinterior]

theorem lexComments_byte {b : UInt8} {rest : Bytes} (hquote : ¬isQuoting b)
    (hopen : b = leftParenthesis → rest.head? ≠ some asterisk) :
    lexComments (b :: rest) = lexComments rest := by
  rw [lexComments, if_neg hquote]
  rintro inside hb rfl
  exact hopen hb rfl

theorem lexComments_quoted {quote : UInt8} {content rest : Bytes} (hquote : isQuoting quote)
    (hcontent : quote ∉ content) :
    lexComments (quote :: (content ++ quote :: rest)) = lexComments rest := by
  rw [lexComments, if_pos hquote, behindQuote_content hcontent]
  rintro inside rfl
  exact absurd hquote (by decide)

/-! ### Where comments lie -/

/-- The mark behind the comment that opens at a mark of the source. -/
def commentEnd (source : Bytes) (place : Mark) : Mark :=
  (behindComment 1 (source.drop (source.length - place + 2))).length

theorem SpellsComment.start_eq {input rest : Bytes} {k : Comment Mark}
    (h : SpellsComment input k rest) : k.start = input.length := by
  obtain ⟨-, -, -⟩ := h
  rfl

theorem SpellsComment.end_eq {source input rest : Bytes} {k : Comment Mark}
    (h : SpellsComment input k rest) (hplace : input <:+ source) :
    commentEnd source k.start = rest.length := by
  obtain ⟨before, rfl⟩ := hplace
  have hdrop : (before ++ input).drop ((before ++ input).length - input.length + 2) =
      input.drop 2 := by
    rw [List.length_append, Nat.add_sub_cancel, List.drop_append]
    simp
  unfold commentEnd
  rw [h.start_eq, hdrop, h.behind]

theorem SpellsComment.shorter {input rest : Bytes} {k : Comment Mark}
    (h : SpellsComment input k rest) : rest.length < input.length := by
  obtain ⟨-, -, hinside⟩ := h
  have hle := hinside.suffix.length_le
  simp only [List.length_cons] at hle ⊢
  omega

/-- The nodes and the comments of a stretch lie in it; comments lie one behind the
other, and outside of quoted lexemes. -/
structure Laid (source input rest : Bytes) (nodes : List (Node Extent))
    (comments : List (Comment Mark)) : Prop where
  nodesWithin : ∀ n ∈ nodes, n.note.start ≤ input.length ∧ rest.length ≤ n.note.stop
  commentsWithin : ∀ k ∈ comments, rest.length ≤ commentEnd source k.start ∧
    commentEnd source k.start < k.start ∧ k.start ≤ input.length
  ordered : comments.Pairwise fun k k' => k'.start ≤ commentEnd source k.start
  apart : ∀ n ∈ nodes, n.IsQuoted → ∀ k ∈ comments,
    n.note.start ≤ commentEnd source k.start ∨ k.start ≤ n.note.stop

namespace Laid

variable {source input middle rest : Bytes} {nodes nodes' : List (Node Extent)}
  {comments comments' : List (Comment Mark)}

theorem nothing : Laid source input rest [] [] := by
  constructor <;> simp

theorem append (hmiddle : middle <:+ input) (hrest : rest <:+ middle)
    (h : Laid source input middle nodes comments)
    (h' : Laid source middle rest nodes' comments') :
    Laid source input rest (nodes ++ nodes') (comments ++ comments') := by
  have hbefore := hmiddle.length_le
  have hbehind := hrest.length_le
  constructor
  · rw [List.forall_mem_append]
    constructor
    · intro n hn
      obtain ⟨hstart, hstop⟩ := h.nodesWithin n hn
      exact ⟨hstart, Nat.le_trans hbehind hstop⟩
    · intro n hn
      obtain ⟨hstart, hstop⟩ := h'.nodesWithin n hn
      exact ⟨Nat.le_trans hstart hbefore, hstop⟩
  · rw [List.forall_mem_append]
    constructor
    · intro k hk
      obtain ⟨hend, hproper, hstart⟩ := h.commentsWithin k hk
      exact ⟨Nat.le_trans hbehind hend, hproper, hstart⟩
    · intro k hk
      obtain ⟨hend, hproper, hstart⟩ := h'.commentsWithin k hk
      exact ⟨hend, hproper, Nat.le_trans hstart hbefore⟩
  · rw [List.pairwise_append]
    refine ⟨h.ordered, h'.ordered, ?_⟩
    intro k hk k' hk'
    exact Nat.le_trans (h'.commentsWithin k' hk').2.2 (h.commentsWithin k hk).1
  · rw [List.forall_mem_append]
    constructor
    · intro n hn hquoted
      rw [List.forall_mem_append]
      refine ⟨h.apart n hn hquoted, ?_⟩
      intro k hk
      exact .inr (Nat.le_trans (h'.commentsWithin k hk).2.2 (h.nodesWithin n hn).2)
    · intro n hn hquoted
      rw [List.forall_mem_append]
      refine ⟨?_, h'.apart n hn hquoted⟩
      intro k hk
      exact .inl (Nat.le_trans (h'.nodesWithin n hn).1 (h.commentsWithin k hk).1)

theorem comment (hplace : input <:+ source) {k : Comment Mark}
    (hcomment : SpellsComment input k rest) : Laid source input rest [] [k] := by
  have hend := hcomment.end_eq hplace
  have hstart := hcomment.start_eq
  have hshort := hcomment.shorter
  constructor
  · simp
  · rw [List.forall_mem_singleton, hend, hstart]
    exact ⟨Nat.le_refl _, hshort, Nat.le_refl _⟩
  · exact List.pairwise_singleton _ _
  · simp

theorem cons {n : Node Extent} (hstart : n.note.start ≤ input.length)
    (hstop : rest.length ≤ n.note.stop) (hquoted : n.IsQuoted → comments = [])
    (h : Laid source input rest nodes comments) :
    Laid source input rest (n :: nodes) comments := by
  constructor
  · rw [List.forall_mem_cons]
    exact ⟨⟨hstart, hstop⟩, h.nodesWithin⟩
  · exact h.commentsWithin
  · exact h.ordered
  · rw [List.forall_mem_cons]
    refine ⟨?_, h.apart⟩
    intro hn k hk
    rw [hquoted hn] at hk
    cases hk

end Laid

/-! ### Comments of a document -/

variable [Runtime]

theorem lexComments_compositional :
    Compositional fun input rest _ comments =>
      lexComments input = comments ++ lexComments rest where
  nothing := rfl
  append h h' := by rw [h, h', List.append_assoc]
  inert hinert := by
    simp only [isInert, Bool.and_eq_true, Bool.not_eq_true', bne_iff_ne] at hinert
    exact lexComments_byte (by simp [hinert.1]) fun hb => (hinert.2 hb).elim
  parenthesis hhead := lexComments_byte (by decide) fun _ => hhead
  quoted hquote hcontent := lexComments_quoted hquote hcontent
  comment hcomment := lexComments_comment hcomment
  node _ _ h := h

/-- One pass over a document finds its comments. -/
theorem SpellsDocument.lexed {source : Bytes} {g : Grammar Extent Mark}
    (h : SpellsDocument source g) : lexComments source = g.comments := by
  have hlexed := h.assembled lexComments_compositional
  rwa [show lexComments [] = [] by rw [lexComments], List.append_nil] at hlexed

theorem Laid.compositional (source : Bytes) :
    Compositional fun input rest nodes comments =>
      rest <:+ input ∧ (input <:+ source → Laid source input rest nodes comments) where
  nothing := ⟨List.suffix_refl _, fun _ => nothing⟩
  append := by
    rintro input middle rest nodes nodes' comments comments' ⟨hmiddle, h⟩ ⟨hrest, h'⟩
    refine ⟨hrest.trans hmiddle, fun hplace => ?_⟩
    exact append hmiddle hrest (h hplace) (h' (hmiddle.trans hplace))
  inert _ := ⟨List.suffix_cons _ _, fun _ => nothing⟩
  parenthesis _ := ⟨List.suffix_cons _ _, fun _ => nothing⟩
  quoted _ _ := ⟨suffix_quoted _ _ _, fun _ => nothing⟩
  comment hcomment := ⟨hcomment.suffix, fun hplace => comment hplace hcomment⟩
  node := by
    rintro input rest n nodes comments hnode hquoted ⟨hrest, h⟩
    exact ⟨hrest, fun hplace => (h hplace).cons hnode.within.1 hnode.within.2 hquoted⟩

theorem SpellsWhole.laid {input rest : Bytes} {n : Node Extent}
    {comments : List (Comment Mark)} (h : SpellsWhole input n comments rest) :
    Laid input input rest n.nodes comments :=
  (h.assembled (Laid.compositional input)).2 (List.suffix_refl input)

theorem SpellsDocument.laid {source : Bytes} {g : Grammar Extent Mark}
    (h : SpellsDocument source g) : Laid source source [] g.nodes g.comments :=
  (h.assembled (Laid.compositional source)).2 (List.suffix_refl source)

/-! ### Nodes among the comments -/

/-- A property of a node in a stretch that holds with the comments in the node, whatever
comments are before the node and behind it. -/
structure Placed (source : Bytes)
    (Q : Bytes → Bytes → Node Extent → List (Comment Mark) → Prop) : Prop where
  whole : ∀ {input rest n comments}, input <:+ source → SpellsWhole input n comments rest →
    Q input rest n comments
  behind : ∀ {input middle rest n nodes comments comments'}, Q input middle n comments →
    rest <:+ middle → middle.length ≤ n.note.stop → Laid source middle rest nodes comments' →
      Q input rest n (comments ++ comments')
  before : ∀ {input middle rest n nodes comments comments'}, Q middle rest n comments' →
    middle <:+ input → n.note.start ≤ middle.length → Laid source input middle nodes comments →
      Q input rest n (comments ++ comments')

namespace Placed

variable {source : Bytes} {Q : Bytes → Bytes → Node Extent → List (Comment Mark) → Prop}
  (h : Placed source Q)

include h

theorem of_padded {input rest : Bytes} {n : Node Extent} {comments : List (Comment Mark)}
    (hplace : input <:+ source) (hpadded : SpellsPadded input n comments rest) :
    Q input rest n comments := by
  obtain ⟨hbefore, hnode, hbehind⟩ := hpadded
  have hP := Laid.compositional source
  have hstart := hbefore.suffix.trans hplace
  have hbegins := Nat.le_of_eq (congrArg Extent.start hnode.note)
  have hends := Nat.le_of_eq (congrArg Extent.stop hnode.note).symm
  have hinside := h.behind (h.whole hstart hnode) hbehind.suffix hends
    ((hP.padding hbehind).2 (hnode.suffix.trans hstart))
  exact h.before hinside hbefore.suffix hbegins ((hP.padding hbefore).2 hplace)

theorem compositional :
    Compositional fun input rest nodes comments =>
      (rest <:+ input ∧ (input <:+ source → Laid source input rest nodes comments)) ∧
        (input <:+ source → ∀ n ∈ nodes, Q input rest n comments) where
  nothing := ⟨(Laid.compositional source).nothing, by simp⟩
  append := by
    rintro input middle rest nodes nodes' comments comments' ⟨hlaid, hnodes⟩ ⟨hlaid', hnodes'⟩
    refine ⟨(Laid.compositional source).append hlaid hlaid', ?_⟩
    obtain ⟨hmiddle, hlaid⟩ := hlaid
    obtain ⟨hrest, hlaid'⟩ := hlaid'
    intro hplace
    have hplace' := hmiddle.trans hplace
    have hfirst := hlaid hplace
    have hsecond := hlaid' hplace'
    rw [List.forall_mem_append]
    constructor
    · intro n hn
      exact h.behind (hnodes hplace n hn) hrest (hfirst.nodesWithin n hn).2 hsecond
    · intro n hn
      exact h.before (hnodes' hplace' n hn) hmiddle (hsecond.nodesWithin n hn).1 hfirst
  inert hinert := ⟨(Laid.compositional source).inert hinert, by simp⟩
  parenthesis hhead := ⟨(Laid.compositional source).parenthesis hhead, by simp⟩
  quoted hquote hcontent := ⟨(Laid.compositional source).quoted hquote hcontent, by simp⟩
  comment hcomment := ⟨(Laid.compositional source).comment hcomment, by simp⟩
  node := by
    rintro input rest n nodes comments hnode hquoted ⟨hlaid, hnodes⟩
    refine ⟨(Laid.compositional source).node hnode hquoted hlaid, fun hplace => ?_⟩
    rw [List.forall_mem_cons]
    exact ⟨h.of_padded hplace hnode, hnodes hplace⟩

theorem of_document {g : Grammar Extent Mark} (hdocument : SpellsDocument source g) :
    ∀ n ∈ g.nodes, Q source [] n g.comments :=
  (hdocument.assembled h.compositional).2 (List.suffix_refl source)

end Placed

end Ebnf
