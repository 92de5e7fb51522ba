import Ebnf.Proofs.Parsing.Extraction
import Ebnf.Proofs.Spelling.Spacing

/-!
# The bytes at both ends of a node

The bytes of a node begin with the symbol that tells its construct and end with the symbol
that closes it.  Three constructs begin or end with an operand instead, and then the two
begin or end at the same place: a concatenation begins with its first term and ends with
its last, an exception begins with its base and ends with what it excludes, if that is
there, and so does a repetition end with its operand.
-/

namespace Ebnf

open Byte

/-- How the bytes of a node begin and end, or which operands stand there. -/
inductive Node.Framed (text : Bytes) : Node Span → Prop
  | rule (hfirst : text.head? = some b) (hletter : isLetter b)
      (hlast : text.getLast? = some semicolon) :
      Framed text (.rule r)
  | concatenation (hfirst : first.note.start = span.start)
      (hlast : ((second :: more).getLast (by simp)).note.stop = span.stop) :
      Framed text (.definition (.concatenation span first second more))
  | exception (hfirst : base.note.start = span.start) (hlast : text.getLast? = some hyphen) :
      Framed text (.ofTerm (.exception span base none))
  | exceptionOf (hfirst : base.note.start = span.start)
      (hlast : excluded.note.stop = span.stop) :
      Framed text (.ofTerm (.exception span base (some excluded)))
  | repetition (hfirst : text.head? = some b) (hdigit : isDigit b)
      (hlast : text.getLast? = some asterisk) :
      Framed text (.ofFactor (.repetition span count none))
  | repetitionOf (hfirst : text.head? = some b) (hdigit : isDigit b)
      (hlast : operand.note.stop = span.stop) :
      Framed text (.ofFactor (.repetition span count (some operand)))
  | bracketed (hopener : opener ∈ bracket.openers) (hcloser : closer ∈ bracket.closers)
      (htext : text = opener ++ (inside ++ closer))
      (hclear : bracket = .grouped →
        (inside ++ closer).head? ∉ [some asterisk, some solidus, some colon]) :
      Framed text (.ofPrimary (.bracketed span bracket definitions))
  | identifier (hfirst : text.head? = some b) (hletter : isLetter b)
      (hlast : text.getLast? = some b') (hword : isWord b') :
      Framed text (.ofPrimary (.identifier span name))
  | terminal (hquote : quote = apostrophe ∨ quote = quotationMark)
      (htext : text = quote :: (content ++ [quote])) :
      Framed text (.ofPrimary (.terminal span content))
  | special {interior : Bytes} (htext : text = questionMark :: (interior ++ [questionMark])) :
      Framed text (.ofPrimary (.special span content))

/-! ### Bytes in front of a rest -/

section

variable {input front stop : Bytes} {b : UInt8} {comments : List (Comment Mark)}

theorem getLast?_of_suffix (hinput : input = front ++ stop) (h : b :: stop <:+ input) :
    front.getLast? = some b := by
  obtain ⟨before, rfl⟩ := h
  have hfront : before ++ [b] ++ stop = front ++ stop := by simpa using hinput
  obtain rfl := List.append_cancel_right hfront
  exact List.getLast?_concat

theorem SpellsWord.last_byte {word : Bytes} (h : SpellsWord input word comments stop) :
    ∃ b, isWord b ∧ b :: stop <:+ input := by
  induction h with
  | last hword => exact ⟨_, hword, List.suffix_refl _⟩
  | more _ htrivia _ ih =>
    obtain ⟨b, hb, hlast⟩ := ih
    exact ⟨b, hb, hlast.trans (htrivia.suffix.trans (List.suffix_cons _ _))⟩

theorem SpellsName.last_byte {name : Bytes} (h : SpellsName input name comments stop) :
    ∃ b, isWord b ∧ b :: stop <:+ input := by
  obtain ⟨-, hword⟩ := h
  exact hword.last_byte

theorem SpellsWhole.head?_front [Runtime] {n : Node Extent} (h : SpellsWhole input n comments stop)
    (hinput : input = front ++ stop) (hhead : input.head? = some b) : front.head? = some b := by
  subst hinput
  have hfront : front ≠ [] := by
    rintro rfl
    exact Nat.lt_irrefl _ h.shorter
  rwa [List.head?_append_of_ne_nil _ hfront] at hhead

end

/-! ### The constructs -/

section

variable (options : Options) {source input front stop : Bytes} {comments : List (Comment Mark)}
  [Runtime]

theorem SpellsWhole.stop_located {n : Node Extent} (h : SpellsWhole input n comments stop)
    (hplace : input <:+ source) :
    (Cursor.locate { source, options } n.note).stop = source.length - stop.length := by
  rw [h.note]
  exact stop_locate h.suffix.length_le hplace.length_le

theorem SpellsPrimary.framed {p : Primary Extent} (h : SpellsPrimary input p comments stop)
    (hinput : input = front ++ stop) :
    ((Node.ofPrimary p).map (Cursor.locate { source, options })).Framed front := by
  have hwhole := h.whole
  cases h with
  | @bracketed opener closer bracket inside _ _ _ hopener hcloser hclear hdefinitions =>
    obtain ⟨middle, rfl⟩ := hdefinitions.suffix
    have hfront : opener ++ (middle ++ closer) ++ stop = front ++ stop := by simpa using hinput
    obtain rfl := List.append_cancel_right hfront
    refine .bracketed hopener hcloser rfl ?_
    rintro rfl
    have hplain := hdefinitions.plain_of_grouped hcloser
    obtain rfl := Bracket.mem_closers_grouped.1 hcloser
    rw [head?_append_cons middle rightParenthesis [] stop, List.mem_cons, List.mem_cons,
      List.mem_singleton, not_or, not_or]
    exact ⟨hplain.1, hclear rfl, hplain.2⟩
  | identifier hname =>
    obtain ⟨b, hhead, hletter⟩ := hname.head
    obtain ⟨b', hword, hlast⟩ := hname.last_byte
    exact .identifier (hwhole.head?_front hinput hhead) hletter
      (getLast?_of_suffix hinput hlast) hword
  | @terminal quote content _ _ hquote _ _ hterminal =>
    have hfront : front ++ stop = quote :: (content ++ [quote]) ++ stop := by
      simpa using hinput.symm.trans hterminal
    exact .terminal hquote (List.append_cancel_right hfront)
  | @special _ _ interior _ hspecial =>
    have hfront : front ++ stop = questionMark :: (interior ++ [questionMark]) ++ stop := by
      simpa using hinput.symm.trans hspecial
    exact .special (List.append_cancel_right hfront)

theorem SpellsFactor.framed {x : Factor Extent} (h : SpellsFactor input x comments stop)
    (hinput : input = front ++ stop) (hplace : input <:+ source) :
    ((Node.ofFactor x).map (Cursor.locate { source, options })).Framed front := by
  have hwhole := h.whole
  have hstop := hwhole.stop_located options hplace
  cases h with
  | primary hprimary => exact hprimary.framed options hinput
  | @repetition digits _ _ _ _ hcount htrivia =>
    obtain ⟨b, hhead, hdigit⟩ := head_of_digits hcount.nonempty hcount.digit _
    have hlast := htrivia.suffix.trans (List.suffix_append digits _)
    exact .repetition (hwhole.head?_front hinput hhead) hdigit (getLast?_of_suffix hinput hlast)
  | @repetitionOf digits _ _ _ _ _ _ _ _ _ hcount hbefore hafter hoperand =>
    obtain ⟨b, hhead, hdigit⟩ := head_of_digits hcount.nonempty hcount.digit _
    have hmiddle := (List.suffix_cons _ _).trans hbefore.suffix
    have hinside := (hafter.suffix.trans hmiddle).trans (List.suffix_append digits _)
    have hstart := hinside.trans hplace
    refine .repetitionOf (hwhole.head?_front hinput hhead) hdigit ?_
    rw [Primary.note_map]
    exact (hoperand.whole.stop_located options hstart).trans hstop.symm

theorem SpellsTerm.framed {t : Term Extent} (h : SpellsTerm input t comments stop)
    (hinput : input = front ++ stop) (hplace : input <:+ source) :
    ((Node.ofTerm t).map (Cursor.locate { source, options })).Framed front := by
  have hstop := h.whole.stop_located options hplace
  cases h with
  | factor hfactor => exact hfactor.framed options hinput hplace
  | exception hbase htrivia =>
    refine .exception ?_ (getLast?_of_suffix hinput (htrivia.suffix.trans hbase.suffix))
    rw [Factor.note_map, hbase.note]
    rfl
  | exceptionOf hbase hbefore hafter hexcluded =>
    have hmiddle := (List.suffix_cons _ _).trans (hbefore.suffix.trans hbase.suffix)
    have hstart := (hafter.suffix.trans hmiddle).trans hplace
    refine .exceptionOf ?_ ?_
    · rw [Factor.note_map, hbase.note]
      rfl
    · rw [Factor.note_map]
      exact (hexcluded.whole.stop_located options hstart).trans hstop.symm

theorem SpellsWhole.framed {n : Node Extent} (h : SpellsWhole input n comments stop)
    (hinput : input = front ++ stop) (hplace : input <:+ source) :
    (n.map (Cursor.locate { source, options })).Framed front := by
  have hwhole := h
  cases h with
  | rule hrule =>
    obtain ⟨hname, htrivia, hdefinitions⟩ := hrule
    obtain ⟨b, hhead, hletter⟩ := hname.head
    have hbody := (List.suffix_cons _ _).trans (htrivia.suffix.trans hname.suffix)
    exact .rule (hwhole.head?_front hinput hhead) hletter
      (getLast?_of_suffix hinput (hdefinitions.suffix.trans hbody))
  | definition hdefinition hnote =>
    cases hdefinition with
    | term hterms =>
      obtain ⟨_, hterm⟩ := hterms.exact_term hnote
      exact hterm.framed options hinput hplace
    | concatenation hterms =>
      have hends := hwhole.stop_located options hplace
      have hlast := hterms.spread_terms.inside _
        (List.mem_map_of_mem (List.mem_cons_of_mem _ (List.getLast_mem (List.cons_ne_nil _ _))))
      have hstart := Nat.le_trans hlast.entry hplace.length_le
      refine .concatenation ?_ ?_
      · rw [Term.note_map]
        rfl
      · rw [Term.getLast_mapAll, Term.note_map, stop_locate (Nat.le_of_lt hlast.proper) hstart]
        exact (congrArg (source.length - ·) (congrArg Extent.stop hnote)).trans hends.symm

end

end Ebnf
