import Ebnf.Tree.Walk

/-!
# Changing the notes of a tree

Walking a tree and changing its notes go past each other, and what the new notes
are is decided on the nodes alone: two changes that agree on the notes of all nodes
make the same tree.
-/

namespace Ebnf

theorem Term.nodesAll_append (terms terms' : List (Term α)) :
    Term.nodesAll (terms ++ terms') = Term.nodesAll terms ++ Term.nodesAll terms' := by
  induction terms with
  | nil => rfl
  | cons t more ih => simp only [List.cons_append, Term.nodesAll, ih, List.append_assoc]

theorem Definition.nodesAll_append (definitions definitions' : List (Definition α)) :
    Definition.nodesAll (definitions ++ definitions') =
      Definition.nodesAll definitions ++ Definition.nodesAll definitions' := by
  induction definitions with
  | nil => rfl
  | cons d more ih => simp only [List.cons_append, Definition.nodesAll, ih, List.append_assoc]

theorem Term.mapAll_append (f : α → β) (terms terms' : List (Term α)) :
    Term.mapAll f (terms ++ terms') = Term.mapAll f terms ++ Term.mapAll f terms' := by
  simp only [Term.mapAll_eq, List.map_append]

theorem Term.mapAll_toList (f : α → β) (t : Option (Term α)) :
    Term.mapAll f t.toList = (t.map (Term.map f)).toList := by
  cases t <;> rfl

theorem Term.getLast_mapAll (f : α → β) (t : Term α) (more : List (Term α)) :
    (t.map f :: Term.mapAll f more).getLast (List.cons_ne_nil _ _) =
      ((t :: more).getLast (List.cons_ne_nil _ _)).map f := by
  simp only [Term.mapAll_eq, ← List.map_cons, List.getLast_map]

theorem Definition.mapAll_append (f : α → β) (definitions definitions' : List (Definition α)) :
    Definition.mapAll f (definitions ++ definitions') =
      Definition.mapAll f definitions ++ Definition.mapAll f definitions' := by
  simp only [Definition.mapAll_eq, List.map_append]

theorem Definition.mapAll_toList (f : α → β) (d : Option (Definition α)) :
    Definition.mapAll f d.toList = (d.map (Definition.map f)).toList := by
  cases d <;> rfl

theorem Primary.note_map (f : α → β) (p : Primary α) : (p.map f).note = f p.note := by
  cases p <;> rfl

theorem Factor.note_map (f : α → β) (x : Factor α) : (x.map f).note = f x.note := by
  cases x with
  | primary p => exact p.note_map f
  | repetition note count operand => cases operand <;> rfl

theorem Term.note_map (f : α → β) (t : Term α) : (t.map f).note = f t.note := by
  cases t with
  | factor x => exact x.note_map f
  | exception note base excluded => cases excluded <;> rfl

theorem Node.note_map (f : α → β) (n : Node α) : (n.map f).note = f n.note := by
  cases n with
  | rule r => rfl
  | definition d =>
    cases d with
    | term t => exact t.note_map f
    | concatenation note first second more => rfl

mutual

theorem Primary.nodes_map (f : α → β) :
    (p : Primary α) → (p.map f).nodes = p.nodes.map (Node.map f)
  | .bracketed note bracket definitions => by
    simp only [Primary.map, Primary.nodes, List.map_cons, Definition.nodesAll_mapAll]
    rfl
  | .identifier _ _ => rfl
  | .terminal _ _ => rfl
  | .special _ _ => rfl

theorem Factor.nodes_map (f : α → β) :
    (x : Factor α) → (x.map f).nodes = x.nodes.map (Node.map f)
  | .primary p => p.nodes_map f
  | .repetition _ _ none => rfl
  | .repetition _ _ (some operand) => by
    simp only [Factor.map, Factor.nodes, List.map_cons, operand.nodes_map]
    rfl

theorem Term.nodes_map (f : α → β) :
    (t : Term α) → (t.map f).nodes = t.nodes.map (Node.map f)
  | .factor x => x.nodes_map f
  | .exception _ base none => by
    simp only [Term.map, Term.nodes, List.map_cons, base.nodes_map]
    rfl
  | .exception _ base (some excluded) => by
    simp only [Term.map, Term.nodes, List.map_cons, List.map_append, base.nodes_map,
      excluded.nodes_map]
    rfl

theorem Definition.nodes_map (f : α → β) :
    (d : Definition α) → (d.map f).nodes = d.nodes.map (Node.map f)
  | .term t => t.nodes_map f
  | .concatenation _ first second more => by
    simp only [Definition.map, Definition.nodes, List.map_cons, List.map_append,
      first.nodes_map, second.nodes_map, Term.nodesAll_mapAll]
    rfl

theorem Term.nodesAll_mapAll (f : α → β) :
    (terms : List (Term α)) →
      Term.nodesAll (Term.mapAll f terms) = (Term.nodesAll terms).map (Node.map f)
  | [] => rfl
  | t :: more => by
    simp only [Term.mapAll, Term.nodesAll, List.map_append, t.nodes_map,
      Term.nodesAll_mapAll f more]

theorem Definition.nodesAll_mapAll (f : α → β) :
    (definitions : List (Definition α)) →
      Definition.nodesAll (Definition.mapAll f definitions) =
        (Definition.nodesAll definitions).map (Node.map f)
  | [] => rfl
  | d :: more => by
    simp only [Definition.mapAll, Definition.nodesAll, List.map_append, d.nodes_map,
      Definition.nodesAll_mapAll f more]

end

theorem Rule.nodes_map (f : α → β) (r : Rule α) :
    (r.map f).nodes = r.nodes.map (Node.map f) := by
  unfold Rule.nodes
  simp only [List.map_cons, Rule.map, ← Definition.mapAll_eq, Definition.nodesAll_mapAll]
  simp only [Node.map, Rule.map, Definition.mapAll_eq]

theorem Grammar.nodes_map (f : α → β) (g : μ → ν) (grammar : Grammar α μ) :
    (grammar.map f g).nodes = grammar.nodes.map (Node.map f) := by
  unfold Grammar.nodes Grammar.map
  simp only [List.flatMap_map, List.map_flatMap, Rule.nodes_map]

theorem Grammar.mem_nodes_of_mem_rules {g : Grammar α μ} {r : Rule α} (h : r ∈ g.rules) :
    Node.rule r ∈ g.nodes :=
  List.mem_flatMap.2 ⟨r, h, List.mem_cons_self⟩

/-! ### Changes that agree -/

section Congruence

variable {f g : α → β}

mutual

theorem Primary.map_congr :
    (p : Primary α) → (∀ n ∈ p.nodes, f n.note = g n.note) → p.map f = p.map g
  | .bracketed note bracket definitions, h => by
    simp only [Primary.nodes, List.forall_mem_cons] at h
    have hnote : f note = g note := h.1
    simp only [Primary.map, hnote, Definition.mapAll_congr definitions h.2]
  | .identifier note name, h => by
    have hnote : f note = g note := h (.ofPrimary (.identifier note name)) (by simp [Primary.nodes])
    simp only [Primary.map, hnote]
  | .terminal note content, h => by
    have hnote : f note = g note :=
      h (.ofPrimary (.terminal note content)) (by simp [Primary.nodes])
    simp only [Primary.map, hnote]
  | .special note content, h => by
    have hnote : f note = g note := h (.ofPrimary (.special note content)) (by simp [Primary.nodes])
    simp only [Primary.map, hnote]

theorem Factor.map_congr :
    (x : Factor α) → (∀ n ∈ x.nodes, f n.note = g n.note) → x.map f = x.map g
  | .primary p, h => by
    simp only [Factor.map, p.map_congr h]
  | .repetition note count none, h => by
    have hnote : f note = g note :=
      h (.ofFactor (.repetition note count none)) (by simp [Factor.nodes])
    simp only [Factor.map, hnote]
  | .repetition note count (some operand), h => by
    simp only [Factor.nodes, List.forall_mem_cons] at h
    have hnote : f note = g note := h.1
    simp only [Factor.map, hnote, operand.map_congr h.2]

theorem Term.map_congr :
    (t : Term α) → (∀ n ∈ t.nodes, f n.note = g n.note) → t.map f = t.map g
  | .factor x, h => by
    simp only [Term.map, x.map_congr h]
  | .exception note base none, h => by
    simp only [Term.nodes, List.forall_mem_cons] at h
    have hnote : f note = g note := h.1
    simp only [Term.map, hnote, base.map_congr h.2]
  | .exception note base (some excluded), h => by
    simp only [Term.nodes, List.forall_mem_cons, List.forall_mem_append] at h
    have hnote : f note = g note := h.1
    simp only [Term.map, hnote, base.map_congr h.2.1, excluded.map_congr h.2.2]

theorem Definition.map_congr :
    (d : Definition α) → (∀ n ∈ d.nodes, f n.note = g n.note) → d.map f = d.map g
  | .term t, h => by
    simp only [Definition.map, t.map_congr h]
  | .concatenation note first second more, h => by
    simp only [Definition.nodes, List.forall_mem_cons, List.forall_mem_append] at h
    obtain ⟨hnote, hfirst, hsecond, hmore⟩ := h
    have hnote : f note = g note := hnote
    simp only [Definition.map, hnote, first.map_congr hfirst, second.map_congr hsecond,
      Term.mapAll_congr more hmore]

theorem Term.mapAll_congr :
    (terms : List (Term α)) → (∀ n ∈ Term.nodesAll terms, f n.note = g n.note) →
      Term.mapAll f terms = Term.mapAll g terms
  | [], _ => rfl
  | t :: more, h => by
    simp only [Term.nodesAll, List.forall_mem_append] at h
    simp only [Term.mapAll, t.map_congr h.1, Term.mapAll_congr more h.2]

theorem Definition.mapAll_congr :
    (definitions : List (Definition α)) →
      (∀ n ∈ Definition.nodesAll definitions, f n.note = g n.note) →
        Definition.mapAll f definitions = Definition.mapAll g definitions
  | [], _ => rfl
  | d :: more, h => by
    simp only [Definition.nodesAll, List.forall_mem_append] at h
    simp only [Definition.mapAll, d.map_congr h.1, Definition.mapAll_congr more h.2]

end

theorem Rule.map_congr (r : Rule α) (h : ∀ n ∈ r.nodes, f n.note = g n.note) :
    r.map f = r.map g := by
  simp only [Rule.nodes, List.forall_mem_cons] at h
  have hnote : f r.note = g r.note := h.1
  simp only [Rule.map, hnote, ← Definition.mapAll_eq, Definition.mapAll_congr _ h.2]

theorem Grammar.map_congr {h k : μ → ν} (grammar : Grammar α μ)
    (hnodes : ∀ n ∈ grammar.nodes, f n.note = g n.note)
    (hcomments : ∀ c ∈ grammar.comments, h c.start = k c.start) :
    grammar.map f h = grammar.map g k := by
  have hrules : ∀ r ∈ grammar.rules, r.map f = r.map g := by
    intro r hr
    apply r.map_congr
    intro n hn
    exact hnodes n (List.mem_flatMap.2 ⟨r, hr, hn⟩)
  have hstarts : ∀ c ∈ grammar.comments, c.map h = c.map k := by
    intro c hc
    simp only [Comment.map, hcomments c hc]
  simp only [Grammar.map, List.map_congr_left hrules, List.map_congr_left hstarts]

end Congruence

/-! ### No change -/

mutual

theorem Primary.map_id : (p : Primary α) → p.map id = p
  | .bracketed _ _ definitions => by simp only [Primary.map, Definition.mapAll_id definitions, id]
  | .identifier _ _ => rfl
  | .terminal _ _ => rfl
  | .special _ _ => rfl

theorem Factor.map_id : (x : Factor α) → x.map id = x
  | .primary p => by simp only [Factor.map, p.map_id]
  | .repetition _ _ none => rfl
  | .repetition _ _ (some operand) => by simp only [Factor.map, operand.map_id, id]

theorem Term.map_id : (t : Term α) → t.map id = t
  | .factor x => by simp only [Term.map, x.map_id]
  | .exception _ base none => by simp only [Term.map, base.map_id, id]
  | .exception _ base (some excluded) => by
    simp only [Term.map, base.map_id, excluded.map_id, id]

theorem Definition.map_id : (d : Definition α) → d.map id = d
  | .term t => by simp only [Definition.map, t.map_id]
  | .concatenation _ first second more => by
    simp only [Definition.map, first.map_id, second.map_id, Term.mapAll_id more, id]

theorem Term.mapAll_id : (terms : List (Term α)) → Term.mapAll id terms = terms
  | [] => rfl
  | t :: more => by simp only [Term.mapAll, t.map_id, Term.mapAll_id more]

theorem Definition.mapAll_id :
    (definitions : List (Definition α)) → Definition.mapAll id definitions = definitions
  | [] => rfl
  | d :: more => by simp only [Definition.mapAll, d.map_id, Definition.mapAll_id more]

end

theorem Rule.map_id (r : Rule α) : r.map id = r := by
  simp only [Rule.map, ← Definition.mapAll_eq, Definition.mapAll_id, id]

/-! ### Two changes in a row -/

section Composition

variable {γ : Type} (f : α → β) (g : β → γ)

mutual

theorem Primary.map_map : (p : Primary α) → (p.map f).map g = p.map (g ∘ f)
  | .bracketed _ _ definitions => by
    simp only [Primary.map, Definition.mapAll_mapAll definitions, Function.comp]
  | .identifier _ _ => rfl
  | .terminal _ _ => rfl
  | .special _ _ => rfl

theorem Factor.map_map : (x : Factor α) → (x.map f).map g = x.map (g ∘ f)
  | .primary p => by simp only [Factor.map, p.map_map]
  | .repetition _ _ none => rfl
  | .repetition _ _ (some operand) => by
    simp only [Factor.map, operand.map_map, Function.comp]

theorem Term.map_map : (t : Term α) → (t.map f).map g = t.map (g ∘ f)
  | .factor x => by simp only [Term.map, x.map_map]
  | .exception _ base none => by simp only [Term.map, base.map_map, Function.comp]
  | .exception _ base (some excluded) => by
    simp only [Term.map, base.map_map, excluded.map_map, Function.comp]

theorem Definition.map_map : (d : Definition α) → (d.map f).map g = d.map (g ∘ f)
  | .term t => by simp only [Definition.map, t.map_map]
  | .concatenation _ first second more => by
    simp only [Definition.map, first.map_map, second.map_map, Term.mapAll_mapAll more,
      Function.comp]

theorem Term.mapAll_mapAll :
    (terms : List (Term α)) → Term.mapAll g (Term.mapAll f terms) = Term.mapAll (g ∘ f) terms
  | [] => rfl
  | t :: more => by simp only [Term.mapAll, t.map_map, Term.mapAll_mapAll more]

theorem Definition.mapAll_mapAll :
    (definitions : List (Definition α)) →
      Definition.mapAll g (Definition.mapAll f definitions) =
        Definition.mapAll (g ∘ f) definitions
  | [] => rfl
  | d :: more => by simp only [Definition.mapAll, d.map_map, Definition.mapAll_mapAll more]

end

theorem Rule.map_map (r : Rule α) : (r.map f).map g = r.map (g ∘ f) := by
  simp only [Rule.map, ← Definition.mapAll_eq, Definition.mapAll_mapAll, Function.comp]

theorem Grammar.map_map {ξ : Type} (h : μ → ν) (k : ν → ξ) (grammar : Grammar α μ) :
    (grammar.map f h).map g k = grammar.map (g ∘ f) (k ∘ h) := by
  simp only [Grammar.map, List.map_map, Function.comp_def, Rule.map_map, Comment.map]
  rfl

end Composition

/-! ### Primaries among the nodes -/

theorem Node.map_eq_ofPrimary {f : α → β} {n : Node α} {p' : Primary β}
    (h : n.map f = .ofPrimary p') : ∃ p, n = .ofPrimary p ∧ p.map f = p' := by
  match n with
  | .rule _ => nomatch h
  | .definition (.concatenation ..) => nomatch h
  | .definition (.term (.exception _ _ none)) => nomatch h
  | .definition (.term (.exception _ _ (some _))) => nomatch h
  | .definition (.term (.factor (.repetition _ _ none))) => nomatch h
  | .definition (.term (.factor (.repetition _ _ (some _)))) => nomatch h
  | .definition (.term (.factor (.primary p))) =>
    cases h
    exact ⟨p, rfl, rfl⟩

theorem Primary.map_eq_special {f : α → β} {p : Primary α} {note : β} {content : String}
    (h : p.map f = .special note content) :
    ∃ note', p = .special note' content ∧ f note' = note := by
  cases p <;> cases h
  exact ⟨_, rfl, rfl⟩

theorem Primary.map_eq_terminal {f : α → β} {p : Primary α} {note : β} {content : Bytes}
    (h : p.map f = .terminal note content) :
    ∃ note', p = .terminal note' content ∧ f note' = note := by
  cases p <;> cases h
  exact ⟨_, rfl, rfl⟩

end Ebnf
