import Ebnf.Proofs.Reading.Trivia

/-!
# Lexemes that are read are spelled

A reader that finds its construct may also have consumed the trivia behind it, as
a meta-identifier always does.  One that finds nothing has consumed nothing, as
long as its input does not begin with trivia; documents never ask for a lexeme
elsewhere.
-/

namespace Ebnf

open Byte

/-- A construct and the trivia behind it. -/
inductive SpellsTrailed (item : Spelling α) : Spelling α
  | mk (hitem : item input value comments stop)
      (htrivia : SpellsTrivia stop comments' rest) :
      SpellsTrailed item input value (comments ++ comments') rest

/-- A construct and the trivia behind it, or nothing at all. -/
inductive SpellsIfAny (item : Spelling α) : Spelling (Option α)
  | nothing : SpellsIfAny item input none [] input
  | found (hitem : SpellsTrailed item input value comments rest) :
      SpellsIfAny item input (some value) comments rest

/-- The bytes of a name one after the other, each with the mark behind it. -/
inductive SpellsLetters : Spelling (List (UInt8 × Mark))
  | nothing (hmaximal : ∀ b, input.head? = some b → ¬isWord b) :
      SpellsLetters input [] [] input
  | letter (hword : isWord b) (htrivia : SpellsTrivia middle comments rest)
      (hsettled : Settled rest) (hmore : SpellsLetters rest letters comments' rest') :
      SpellsLetters (b :: middle) ((b, middle.length) :: letters)
        (comments ++ comments') rest'

/-- A name and the trivia behind it.  No letter or digit follows. -/
inductive SpellsWholeName : Spelling (Extent × Bytes)
  | mk (hname : SpellsName input name comments stop)
      (htrivia : SpellsTrivia stop comments' rest) (hsettled : Settled rest)
      (hmaximal : ∀ b, rest.head? = some b → ¬isWord b) :
      SpellsWholeName input (⟨input.length, stop.length⟩, name)
        (comments ++ comments') rest

theorem SpellsLetters.settled {input rest : Bytes} {letters : List (UInt8 × Mark)}
    {comments : List (Comment Mark)} (h : SpellsLetters input letters comments rest)
    (hinput : Settled input) : Settled rest := by
  induction h with
  | nothing => exact hinput
  | letter _ _ hsettled _ ih => exact ih hsettled

theorem SpellsLetters.maximal {input rest : Bytes} {letters : List (UInt8 × Mark)}
    {comments : List (Comment Mark)} (h : SpellsLetters input letters comments rest) :
    ∀ b, rest.head? = some b → ¬isWord b := by
  induction h with
  | nothing hmaximal => exact hmaximal
  | letter _ _ _ _ ih => exact ih

theorem SpellsLetters.word {input rest : Bytes} {letters : List (UInt8 × Mark)}
    {comments : List (Comment Mark)} (h : SpellsLetters input letters comments rest)
    {last : UInt8 × Mark} (hlast : letters.getLast? = some last) :
    ∃ comments₁ comments₂ stop, SpellsWord input (letters.map Prod.fst) comments₁ stop ∧
      SpellsTrivia stop comments₂ rest ∧ comments = comments₁ ++ comments₂ ∧
      last.2 = stop.length := by
  induction h with
  | nothing => simp at hlast
  | @letter b middle comments rest letters comments' rest' hword htrivia _ hmore ih =>
    cases hmore with
    | nothing =>
      simp only [List.getLast?_singleton, Option.some.injEq] at hlast
      subst hlast
      exact ⟨[], comments, middle, .last hword, htrivia, by simp, rfl⟩
    | letter hword' htrivia' hsettled' hmore' =>
      rw [List.getLast?_cons_cons] at hlast
      obtain ⟨comments₁, comments₂, stop, hrest, hstop, hcomments, hmark⟩ := ih hlast
      refine ⟨comments ++ comments₁, comments₂, stop, .more hword htrivia hrest, hstop, ?_, hmark⟩
      rw [hcomments, List.append_assoc]

theorem SpellsIfAny.of_item {item : Spelling α} {input rest : Bytes} {value : α}
    {comments : List (Comment Mark)} (h : item input value comments rest) :
    SpellsIfAny item input (some value) comments rest := by
  have htrailed := SpellsTrailed.mk h .nothing
  rw [List.append_nil] at htrailed
  exact .found htrailed

theorem SpellsIfAny.lexes [Runtime] {item : Spelling α} {input rest : Bytes} {value : Option α}
    {comments : List (Comment Mark)}
    (hitem : ∀ {value comments stop}, item input value comments stop → Lexes input stop)
    (h : SpellsIfAny item input value comments rest) : Lexes input rest := by
  cases h with
  | nothing => exact .refl
  | found htrailed =>
    obtain ⟨hvalue, htrivia⟩ := htrailed
    exact (hitem hvalue).trans htrivia.lexes

namespace Reader

open Scanning

variable [Runtime]

theorem ensures_nameByte {source input : Bytes} (hlexes : Lexes source input) :
    nameByte.Ensures (Halts source (Flaw source)) input fun value comments rest =>
      match value with
      | none => comments = [] ∧ rest = input ∧ ∀ b, input.head? = some b → ¬isWord b
      | some (b, stop) => ∃ middle, input = b :: middle ∧ isWord b ∧
          stop = middle.length ∧ SpellsTrivia middle comments rest ∧ Settled rest := by
  apply Ensures.bind
  apply Ensures.one
  · rintro b middle rfl hword
    apply Ensures.bind_mark
    apply Ensures.bind_trivia (hlexes.inert (isInert_of_isWord hword))
    intro comments rest htrivia hsettled
    apply Ensures.pure
    simp only [List.nil_append, List.append_nil]
    exact ⟨middle, rfl, hword, rfl, htrivia, hsettled⟩
  · intro hword
    apply Ensures.pure
    exact ⟨rfl, rfl, hword⟩

theorem ensures_letters {source input : Bytes} (hlexes : Lexes source input) :
    (many nameByte).Ensures (Halts source (Flaw source)) input (SpellsLetters input) := by
  apply Ensures.many consumes_nameByte _ hlexes
  intro input hlexes
  apply (ensures_nameByte hlexes).mono
  intro value comments rest hvalue
  cases value with
  | none =>
    obtain ⟨rfl, rfl, hmaximal⟩ := hvalue
    exact .nothing hmaximal
  | some value =>
    obtain ⟨b, stop⟩ := value
    obtain ⟨middle, rfl, hword, rfl, htrivia, hsettled⟩ := hvalue
    refine ⟨(hlexes.inert (isInert_of_isWord hword)).trans htrivia.lexes, ?_⟩
    intro values comments' rest' hmore
    exact .letter hword htrivia hsettled hmore

/-- A name that is looked for where no trivia comes next. -/
theorem ensures_name {source input : Bytes} (hlexes : Lexes source input)
    (hsettled : Settled input) :
    name.Ensures (Halts source (Flaw source)) input fun value comments rest =>
      match value with
      | none => comments = [] ∧ rest = input ∧ ∀ b, input.head? = some b → ¬isLetter b
      | some name => SpellsWholeName input name comments rest := by
  apply Ensures.orUndo
  apply Ensures.bind_trivia_settled hsettled
  apply Ensures.bind_mark
  apply Ensures.bind_current
  by_cases hletter : input.head?.any isLetter
  · rw [if_pos hletter]
    obtain ⟨b, hhead, hb⟩ := (Option.any_eq_true _ _).1 hletter
    apply Ensures.bind_pure
    apply (ensures_letters hlexes).mono
    intro letters comments stop hletters
    cases hlast : letters.getLast? with
    | none =>
      rw [List.getLast?_eq_none_iff] at hlast
      subst hlast
      cases hletters with
      | nothing hmaximal => exact (hmaximal b hhead (isWord_of_isLetter hb)).elim
    | some last =>
      obtain ⟨comments₁, comments₂, middle, hword, hafter, rfl, hmark⟩ := hletters.word hlast
      obtain ⟨more, rfl⟩ := List.head?_eq_some_iff.1 hhead
      have hwhole := SpellsWholeName.mk (.mk hb hword) hafter
        (hletters.settled hsettled) hletters.maximal
      simpa [hmark] using hwhole
  · rw [if_neg hletter]
    apply Ensures.pure
    refine ⟨rfl, rfl, ?_⟩
    intro b hb hbletter
    rw [hb] at hletter
    exact hletter hbletter

theorem ensures_identifier {source input : Bytes} (hlexes : Lexes source input)
    (hsettled : Settled input) :
    identifier.Ensures (Halts source (Flaw source)) input fun value comments rest =>
      SpellsIfAny SpellsPrimary input value comments rest ∧
        (value = none → ∀ b, input.head? = some b → ¬isLetter b) := by
  apply Ensures.bind_pure
  apply (ensures_name hlexes hsettled).mono
  intro value comments rest hvalue
  cases value with
  | none =>
    obtain ⟨rfl, rfl, hletter⟩ := hvalue
    exact ⟨.nothing, fun _ => hletter⟩
  | some value =>
    obtain ⟨hname, htrivia, -, -⟩ := hvalue
    exact ⟨.found (.mk (.identifier hname) htrivia), nofun⟩

omit [Runtime] in
theorem isTerminal_quote (quote : UInt8) : ¬isTerminal quote quote := by
  simp [isTerminal]

theorem ensures_terminal {source input : Bytes} (hentry : Entry source input) :
    terminal.Ensures (Halts source (Flaw source)) input fun value comments rest =>
      SpellsIfAny SpellsPrimary input value comments rest ∧ (value = none →
        ∀ b, input.head? = some b → ¬(b = apostrophe ∨ b = quotationMark)) := by
  apply Ensures.bind_mark
  apply Ensures.bind
  apply Ensures.one
  · rintro quote inside rfl hquote
    have hquote : quote = apostrophe ∨ quote = quotationMark := by
      simpa using hquote
    apply Ensures.bind_byte
    · rintro rest rfl
      exact Ensures.fail (.error (.construct hentry (.emptyTerminal hquote) rfl))
    · intro hnonempty
      apply Ensures.bind
      apply Ensures.takeWhile
      rintro content stop rfl hterminal hmaximal
      apply Ensures.bind_current
      cases stop with
      | nil =>
        rw [List.append_nil] at hentry ⊢
        exact Ensures.fail
          (.error (.construct hentry (.unterminatedTerminal hquote hterminal) rfl))
      | cons b rest =>
        apply Ensures.bind_byte
        · intro rest' hclose
          obtain ⟨rfl, rfl⟩ := List.cons.inj hclose
          have hcontent : content ≠ [] := by
            rintro rfl
            exact hnonempty rfl
          apply Ensures.bind_mark
          apply Ensures.pure
          exact ⟨.of_item (.terminal hquote hcontent hterminal rfl), nofun⟩
        · intro hclose
          have hb : b ≠ quote := by simpa using hclose
          have hprintable : ¬isPrintable b := by
            have hnot := hmaximal b rfl
            simpa [isTerminal, hb] using hnot
          exact Ensures.fail (.error (.construct hentry
            (.invalidTerminalByte hquote hterminal hprintable rfl) rfl))
  · intro hquote
    apply Ensures.pure
    exact ⟨.nothing, fun _ => by simpa using hquote⟩

theorem ensures_special {source input : Bytes} (hentry : Entry source input) :
    special.Ensures (Halts source (Flaw source)) input fun value comments rest =>
      SpellsIfAny SpellsPrimary input value comments rest ∧
        (value = none → input.head? ≠ some questionMark) := by
  apply Ensures.bind_mark
  apply Ensures.bind_byte
  · rintro inside rfl
    apply Ensures.bind
    apply Ensures.takeWhile
    rintro interior stop rfl hmember hmaximal
    have hinterior : questionMark ∉ interior := by
      intro hmem
      simpa using hmember questionMark hmem
    apply Ensures.bind_byte
    · rintro rest rfl
      apply Ensures.bind_mark
      apply Ensures.pure
      exact ⟨.of_item (.special hinterior rfl), nofun⟩
    · intro hclose
      cases stop with
      | nil =>
        rw [List.append_nil] at hentry ⊢
        exact Ensures.fail (.error (.construct hentry (.unterminatedSpecial hinterior) rfl))
      | cons b rest =>
        have hb : ¬(b != questionMark) := hmaximal b rfl
        have hquestion : b = questionMark := by simpa using hb
        exact (hclose (congrArg some hquestion)).elim
  · intro hquestion
    apply Ensures.pure
    exact ⟨.nothing, fun _ => hquestion⟩

end Reader

end Ebnf
