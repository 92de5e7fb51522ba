import Ebnf.Proofs.Reading.Lexeme
import Ebnf.Proofs.Reading.Run
import Ebnf.Proofs.Spelling.Head

/-!
# Lexemes that are spelled are found

A reader finds a value when it answers with it and leaves, before the place where
the next symbol begins, nothing but trivia.  How much of that trivia it has already
consumed differs from construct to construct, and no later reader can tell.

A reader whose construct does not begin here finds nothing and consumes nothing;
the first byte is enough to know.
-/

namespace Ebnf

open Byte

namespace Reader

open Scanning

/-- The reader finds the value, and what it leaves before the rest is trivia. -/
def Finds (reader : Reader (Option α)) (input : Bytes) (value : α)
    (comments : List (Comment Mark)) (rest : Bytes) : Prop :=
  ∃ comments₁ comments₂ middle,
    reader.run input = .ok ⟨some value, comments₁, middle⟩ ∧
      SpellsTrivia middle comments₂ rest ∧ comments = comments₁ ++ comments₂

theorem Finds.of_run {reader : Reader (Option α)} {input middle rest : Bytes} {value : α}
    {comments comments' : List (Comment Mark)}
    (hrun : reader.run input = .ok ⟨some value, comments, middle⟩)
    (htrivia : SpellsTrivia middle comments' rest) :
    reader.Finds input value (comments ++ comments') rest :=
  ⟨comments, comments', middle, hrun, htrivia, rfl⟩

/-- A reader that has consumed the trivia as well. -/
theorem Finds.of_run_all {reader : Reader (Option α)} {input rest : Bytes} {value : α}
    {comments : List (Comment Mark)}
    (hrun : reader.run input = .ok ⟨some value, comments, rest⟩) :
    reader.Finds input value comments rest :=
  ⟨comments, [], rest, hrun, .nothing, (List.append_nil _).symm⟩

variable [Runtime]

/-! ### Identifiers -/

omit [Runtime] in
theorem many_run_nil {item : Reader (Option α)} (hconsumes : item.Consumes Option.isSome)
    {input : Bytes} (h : item.run input = .ok ⟨none, [], input⟩) :
    (many item).run input = .ok ⟨[], [], input⟩ := by
  rw [many_eq hconsumes, run_bind_of_ok h, passing_nil, run_pure]

omit [Runtime] in
theorem many_run_cons {item : Reader (Option α)} (hconsumes : item.Consumes Option.isSome)
    {input middle rest : Bytes} {value : α} {values : List α}
    {comments comments' : List (Comment Mark)}
    (h : item.run input = .ok ⟨some value, comments, middle⟩)
    (hmore : (many item).run middle = .ok ⟨values, comments', rest⟩) :
    (many item).run input = .ok ⟨value :: values, comments ++ comments', rest⟩ := by
  rw [many_eq hconsumes, run_bind_of_ok h, run_bind_of_ok hmore, run_pure, passing_ok,
    passing_ok, List.append_nil]

theorem nameByte_run {b : UInt8} {middle rest : Bytes} {comments : List (Comment Mark)}
    (hword : isWord b) (htrivia : SpellsTrivia middle comments rest)
    (hsettled : Settled rest) :
    nameByte.run (b :: middle) = .ok ⟨some (b, middle.length), comments, rest⟩ := by
  simp only [Scanning.nameByte, scanning_one, scanning_stop, scanning_trivia]
  rw [run_bind_of_ok (one_run_cons hword), passing_nil]
  simp only
  rw [run_mark_bind, run_bind_of_ok (trivia_run_of_settled htrivia hsettled), run_pure,
    passing_ok, List.append_nil]

theorem nameByte_run_none {input : Bytes} (h : ∀ b, input.head? = some b → ¬isWord b) :
    nameByte.run input = .ok ⟨none, [], input⟩ := by
  simp only [Scanning.nameByte, scanning_one]
  rw [run_bind_of_ok (one_run_none h), passing_nil]
  rfl

theorem letters_run {input word stop rest : Bytes} {comments comments' : List (Comment Mark)}
    (h : SpellsWord input word comments stop) (htrivia : SpellsTrivia stop comments' rest)
    (hsettled : Settled rest) (hmaximal : ∀ b, rest.head? = some b → ¬isWord b) :
    ∃ letters, (many nameByte).run input = .ok ⟨letters, comments ++ comments', rest⟩ ∧
      letters.map Prod.fst = word ∧ letters.getLast?.map Prod.snd = some stop.length := by
  induction h with
  | @last b stop hword =>
    have hbyte := nameByte_run hword htrivia hsettled
    have hstop := many_run_nil consumes_nameByte (nameByte_run_none hmaximal)
    have hrun := many_run_cons consumes_nameByte hbyte hstop
    rw [List.append_nil] at hrun
    exact ⟨[(b, stop.length)], hrun, rfl, rfl⟩
  | @more b input comments₁ middle word comments₂ stop hword hbetween hmore ih =>
    obtain ⟨letters, hrun, hletters, hlast⟩ := ih htrivia
    have hbyte := nameByte_run hword hbetween (SpellsWord.settled hmore)
    refine ⟨(b, input.length) :: letters, ?_, ?_, ?_⟩
    · rw [List.append_assoc]
      exact many_run_cons consumes_nameByte hbyte hrun
    · rw [List.map_cons, hletters]
    · cases letters with
      | nil => simp at hlast
      | cons letter letters => rwa [List.getLast?_cons_cons]

theorem name_run {input name stop rest : Bytes} {comments comments' : List (Comment Mark)}
    (h : SpellsName input name comments stop) (htrivia : SpellsTrivia stop comments' rest)
    (hsettled : Settled rest) (hmaximal : ∀ b, rest.head? = some b → ¬isWord b) :
    Reader.name.run input =
      .ok ⟨some (⟨input.length, stop.length⟩, name), comments ++ comments', rest⟩ := by
  obtain ⟨hletter, hword⟩ := h
  obtain ⟨letters, hrun, rfl, hlast⟩ := letters_run hword htrivia hsettled hmaximal
  obtain ⟨last, hlast, hstop⟩ := Option.map_eq_some_iff.1 hlast
  apply orUndo_run_some
  simp only [scanning_trivia, scanning_place, scanning_current]
  rw [run_bind_of_ok (trivia_run_settled hword.settled), passing_nil, run_mark_bind,
    run_current_bind, List.head?_cons, if_pos (by simpa using hletter), run_bind_of_ok hrun,
    run_pure, passing_ok, List.append_nil, hlast, ← hstop]
  rfl

/-- No name is found where none begins. -/
theorem name_run_none {input : Bytes} (hsettled : Settled input)
    (h : ∀ b, input.head? = some b → ¬isLetter b) :
    Reader.name.run input = .ok ⟨none, [], input⟩ := by
  have hletter : ¬input.head?.any isLetter := by
    intro hany
    obtain ⟨b, hb, hbletter⟩ := (Option.any_eq_true _ _).1 hany
    exact h b hb hbletter
  apply orUndo_run_none
  simp only [scanning_trivia, scanning_place, scanning_current]
  rw [run_bind_of_ok (trivia_run_settled hsettled), passing_nil, run_mark_bind,
    run_current_bind, if_neg hletter, run_pure]

theorem identifier_run {input name stop rest : Bytes} {comments comments' : List (Comment Mark)}
    (h : SpellsName input name comments stop) (htrivia : SpellsTrivia stop comments' rest)
    (hsettled : Settled rest) (hmaximal : ∀ b, rest.head? = some b → ¬isWord b) :
    identifier.run input =
      .ok ⟨some (.identifier ⟨input.length, stop.length⟩ name), comments ++ comments', rest⟩ := by
  unfold identifier Scanning.identifier
  rw [run_bind_of_ok (name_run h htrivia hsettled hmaximal), run_pure, passing_ok,
    List.append_nil]
  rfl

theorem identifier_run_none {input : Bytes} (hsettled : Settled input)
    (h : ∀ b, input.head? = some b → ¬isLetter b) :
    identifier.run input = .ok ⟨none, [], input⟩ := by
  unfold identifier Scanning.identifier
  rw [run_bind_of_ok (name_run_none hsettled h), passing_nil]
  rfl

/-! ### Quoted lexemes -/

theorem terminal_run {quote : UInt8} {content rest : Bytes}
    (hquote : quote = apostrophe ∨ quote = quotationMark) (hnonempty : content ≠ [])
    (hcontent : ∀ b ∈ content, isTerminal quote b) :
    terminal.run (quote :: (content ++ quote :: rest)) =
      .ok ⟨some (.terminal ⟨(quote :: (content ++ quote :: rest)).length, rest.length⟩ content),
        [], rest⟩ := by
  have hopen : (one fun b => b == apostrophe || b == quotationMark).run
      (quote :: (content ++ quote :: rest)) =
        .ok ⟨some quote, [], content ++ quote :: rest⟩ :=
    one_run_cons (by simpa using hquote)
  have hfirst : (content ++ quote :: rest).head? ≠ some quote := by
    obtain ⟨b, content, rfl⟩ := List.exists_cons_of_ne_nil hnonempty
    intro hhead
    obtain rfl := Option.some.inj hhead
    exact isTerminal_quote b (hcontent b (by simp))
  have hclose : ∀ b, (quote :: rest).head? = some b → ¬isTerminal quote b :=
    forall_head rfl (isTerminal_quote quote)
  simp only [Scanning.terminal, scanning_place, scanning_stop, scanning_current, scanning_one,
    scanning_byte, scanning_takeWhile, scanning_fail]
  rw [run_mark_bind, run_bind_of_ok hopen, passing_nil]
  simp only
  rw [run_byte_bind_of_ne _ _ hfirst, run_bind_of_ok (takeWhile_run hcontent hclose),
    passing_nil, run_current_bind]
  simp only [List.head?_cons]
  rw [run_byte_bind_cons, run_mark_bind, run_pure, Extent.between_eq]

theorem terminal_run_none {input : Bytes}
    (h : ∀ b, input.head? = some b → ¬(b = apostrophe ∨ b = quotationMark)) :
    terminal.run input = .ok ⟨none, [], input⟩ := by
  have habsent : (one fun b => b == apostrophe || b == quotationMark).run input =
      .ok ⟨none, [], input⟩ := by
    apply one_run_none
    intro b hb
    simpa using h b hb
  simp only [Scanning.terminal, scanning_place, scanning_one]
  rw [run_mark_bind, run_bind_of_ok habsent, passing_nil]
  rfl

theorem special_run {interior rest : Bytes} (hinterior : questionMark ∉ interior) :
    special.run (questionMark :: (interior ++ questionMark :: rest)) =
      .ok ⟨some (.special
        ⟨(questionMark :: (interior ++ questionMark :: rest)).length, rest.length⟩
        (Utf8.text interior.trim)), [], rest⟩ := by
  have hrun : ∀ b ∈ interior, (b != questionMark) = true := by
    intro b hb
    simp only [bne_iff_ne]
    rintro rfl
    exact hinterior hb
  have hclose : ∀ b, (questionMark :: rest).head? = some b → ¬(b != questionMark) = true :=
    forall_head rfl (by decide)
  simp only [Scanning.special, scanning_place, scanning_stop, scanning_byte, scanning_passTo,
    scanning_fail]
  rw [run_mark_bind, run_byte_bind_cons, run_bind_of_ok (takeWhile_run hrun hclose),
    passing_nil, run_byte_bind_cons, run_mark_bind, run_pure, Extent.between_eq]

theorem special_run_none {input : Bytes} (h : input.head? ≠ some questionMark) :
    special.run input = .ok ⟨none, [], input⟩ := by
  simp only [Scanning.special, scanning_place, scanning_byte]
  rw [run_mark_bind, run_byte_bind_of_ne _ _ h, run_pure]

end Reader

end Ebnf
