import Ebnf.Proofs.Spelling.Defect

/-!
# First bytes

How a construct begins is all that a reader goes by, and how the construct that
follows begins is all that it stops at.  The bytes at which primaries begin and
those that delimit them are disjoint, and neither are blank, so constructs and
what follows them are told apart at once.  The exceptions are the symbols that
begin with `(`: those are told apart by their second byte, which is why what
stands inside brackets is shown never to begin with `*` or `:`.
-/

namespace Ebnf

open Byte

namespace Bracket

theorem mem_openers_optional {opener : Bytes} : opener ∈ optional.openers ↔
    opener = [leftSquareBracket] ∨ opener = [leftParenthesis, solidus] := by
  simp [openers]

theorem mem_openers_repeated {opener : Bytes} : opener ∈ repeated.openers ↔
    opener = [leftCurlyBracket] ∨ opener = [leftParenthesis, colon] := by
  simp [openers]

theorem mem_openers_grouped {opener : Bytes} : opener ∈ grouped.openers ↔
    opener = [leftParenthesis] := by
  simp [openers]

theorem mem_closers_optional {closer : Bytes} : closer ∈ optional.closers ↔
    closer = [rightSquareBracket] ∨ closer = [solidus, rightParenthesis] := by
  simp [closers]

theorem mem_closers_repeated {closer : Bytes} : closer ∈ repeated.closers ↔
    closer = [rightCurlyBracket] ∨ closer = [colon, rightParenthesis] := by
  simp [closers]

theorem mem_closers_grouped {closer : Bytes} : closer ∈ grouped.closers ↔
    closer = [rightParenthesis] := by
  simp [closers]

end Bracket

/-- What holds of the first byte holds of it by any name. -/
theorem forall_head {p : UInt8 → Prop} {input : Bytes} {b : UInt8}
    (hhead : input.head? = some b) (h : p b) : ∀ b', input.head? = some b' → p b' := by
  intro b' hb'
  obtain rfl := Option.some.inj (hhead.symm.trans hb')
  exact h

/-- The bytes that open a quoted lexeme and close it. -/
def Byte.isQuoting (b : UInt8) : Bool :=
  b == apostrophe || b == quotationMark || b == questionMark

/-- The bytes that open neither a quoted lexeme nor, with the byte behind them, a
comment. -/
def Byte.isInert (b : UInt8) : Bool :=
  !isQuoting b && b != leftParenthesis

/-- The bytes at which a primary begins. -/
def Byte.isOpening (b : UInt8) : Bool :=
  isLetter b || b == leftSquareBracket || b == leftCurlyBracket || b == leftParenthesis ||
    b == apostrophe || b == quotationMark || b == questionMark

/-- The bytes at which what follows a factor begins. -/
def Byte.isDelimiter (b : UInt8) : Bool :=
  b == hyphen || b == comma || b == verticalLine || b == solidus || b == exclamationMark ||
    b == rightSquareBracket || b == rightCurlyBracket || b == rightParenthesis ||
    b == colon || b == semicolon

/-- A delimiter comes next. -/
def Delimited (rest : Bytes) : Prop :=
  ∃ b, rest.head? = some b ∧ isDelimiter b

/-- What may follow a term. -/
def FollowsTerm (rest : Bytes) : Prop :=
  Delimited rest ∧ rest.head? ≠ some hyphen

/-- What may follow a definition. -/
def FollowsDefinition (rest : Bytes) : Prop :=
  FollowsTerm rest ∧ rest.head? ≠ some comma

/-- What may follow the last of some definitions. -/
def FollowsDefinitions (rest : Bytes) : Prop :=
  FollowsDefinition rest ∧ ∀ next, ¬SpellsSeparator rest next

/-! ### Delimiters -/

theorem eq_of_isDelimiter {b : UInt8} (h : isDelimiter b) :
    b = hyphen ∨ b = comma ∨ b = verticalLine ∨ b = solidus ∨ b = exclamationMark ∨
      b = rightSquareBracket ∨ b = rightCurlyBracket ∨ b = rightParenthesis ∨
      b = colon ∨ b = semicolon := by
  simpa [isDelimiter, or_assoc] using h

theorem not_isBlank_of_isDelimiter {b : UInt8} (h : isDelimiter b) : ¬isBlank b := by
  rcases eq_of_isDelimiter h with rfl | rfl | rfl | rfl | rfl | rfl | rfl | rfl | rfl | rfl <;>
    decide

theorem not_isOpening_of_isDelimiter {b : UInt8} (h : isDelimiter b) : ¬isOpening b := by
  rcases eq_of_isDelimiter h with rfl | rfl | rfl | rfl | rfl | rfl | rfl | rfl | rfl | rfl <;>
    decide

theorem isWord_of_isLetter {b : UInt8} (h : isLetter b) : isWord b := by
  simp [isWord, h]

theorem isWord_of_isDigit {b : UInt8} (h : isDigit b) : isWord b := by
  simp [isWord, h]

theorem not_isWord_of_isDelimiter {b : UInt8} (h : isDelimiter b) : ¬isWord b := by
  rcases eq_of_isDelimiter h with rfl | rfl | rfl | rfl | rfl | rfl | rfl | rfl | rfl | rfl <;>
    decide

theorem Settled.of_head {b : UInt8} {rest : Bytes} (hhead : rest.head? = some b)
    (hblank : ¬isBlank b) (hopen : b ≠ leftParenthesis) : Settled rest := by
  obtain ⟨more, rfl⟩ := List.head?_eq_some_iff.1 hhead
  constructor
  · exact forall_head rfl hblank
  · intro hcomment
    exact hopen (List.cons_prefix_cons.1 hcomment).1.symm

theorem Delimited.settled {rest : Bytes} (h : Delimited rest) : Settled rest := by
  obtain ⟨b, hhead, hb⟩ := h
  apply Settled.of_head hhead (not_isBlank_of_isDelimiter hb)
  rintro rfl
  exact not_isOpening_of_isDelimiter hb (by decide)

theorem Delimited.not_isWord {rest : Bytes} (h : Delimited rest) :
    ∀ b, rest.head? = some b → ¬isWord b := by
  obtain ⟨b, hhead, hb⟩ := h
  exact forall_head hhead (not_isWord_of_isDelimiter hb)

theorem Delimited.not_isDigit {rest : Bytes} (h : Delimited rest) :
    ∀ b, rest.head? = some b → ¬isDigit b := by
  intro b hb hdigit
  exact h.not_isWord b hb (isWord_of_isDigit hdigit)

theorem Delimited.not_isOpening {rest : Bytes} (h : Delimited rest) :
    ∀ b, rest.head? = some b → ¬isOpening b := by
  obtain ⟨b, hhead, hb⟩ := h
  exact forall_head hhead (not_isOpening_of_isDelimiter hb)

theorem FollowsDefinition.of_head {b : UInt8} {rest : Bytes} (hdelimiter : isDelimiter b)
    (hhyphen : b ≠ hyphen) (hcomma : b ≠ comma) : FollowsDefinition (b :: rest) := by
  refine ⟨⟨⟨b, rfl, hdelimiter⟩, ?_⟩, ?_⟩
  · simpa using hhyphen
  · simpa using hcomma

theorem FollowsDefinitions.of_head {b : UInt8} {rest : Bytes}
    (h : b = rightSquareBracket ∨ b = rightCurlyBracket ∨ b = rightParenthesis ∨
      b = colon ∨ b = semicolon) : FollowsDefinitions (b :: rest) := by
  constructor
  · rcases h with rfl | rfl | rfl | rfl | rfl <;>
      exact FollowsDefinition.of_head (by decide) (by decide) (by decide)
  · rintro next ⟨hsymbol, -⟩
    rcases h with rfl | rfl | rfl | rfl | rfl <;> revert hsymbol <;> decide

theorem FollowsDefinitions.of_solidus (rest : Bytes) :
    FollowsDefinitions (solidus :: rightParenthesis :: rest) := by
  constructor
  · exact FollowsDefinition.of_head (by decide) (by decide) (by decide)
  · rintro next ⟨-, hclear⟩
    exact hclear rfl rfl

theorem FollowsDefinitions.of_closer {bracket : Bracket} {closer : Bytes}
    (h : closer ∈ bracket.closers) (rest : Bytes) : FollowsDefinitions (closer ++ rest) := by
  cases bracket with
  | optional =>
    rcases Bracket.mem_closers_optional.1 h with rfl | rfl
    · exact .of_head (by decide)
    · exact .of_solidus rest
  | repeated =>
    rcases Bracket.mem_closers_repeated.1 h with rfl | rfl
    · exact .of_head (by decide)
    · exact .of_head (by decide)
  | grouped =>
    obtain rfl := Bracket.mem_closers_grouped.1 h
    exact .of_head (by decide)

theorem SpellsComma.follows {input rest : Bytes} (h : SpellsComma input rest) :
    FollowsTerm input := by
  cases h
  exact ⟨⟨comma, rfl, by decide⟩, by simp only [List.head?_cons]; decide⟩

theorem SpellsSeparator.follows {input rest : Bytes} (h : SpellsSeparator input rest) :
    FollowsDefinition input := by
  obtain ⟨hsymbol, -⟩ := h
  rcases hsymbol with rfl | rfl | rfl <;>
    exact FollowsDefinition.of_head (by decide) (by decide) (by decide)

/-! ### Beginnings -/

theorem SpellsName.head {input name rest : Bytes} {comments : List (Comment Mark)}
    (h : SpellsName input name comments rest) :
    ∃ b, input.head? = some b ∧ isLetter b := by
  obtain ⟨hletter, -⟩ := h
  exact ⟨_, rfl, hletter⟩

theorem isOpening_of_isLetter {b : UInt8} (h : isLetter b) : isOpening b := by
  simp [isOpening, h]

theorem Bracket.exists_isOpening {bracket : Bracket} {opener : Bytes}
    (h : opener ∈ bracket.openers) : ∃ b more, opener = b :: more ∧ isOpening b := by
  cases bracket with
  | optional => rcases mem_openers_optional.1 h with rfl | rfl <;> exact ⟨_, _, rfl, by decide⟩
  | repeated => rcases mem_openers_repeated.1 h with rfl | rfl <;> exact ⟨_, _, rfl, by decide⟩
  | grouped =>
    obtain rfl := mem_openers_grouped.1 h
    exact ⟨_, _, rfl, by decide⟩

theorem head_of_digits {digits : Bytes} (hdigits : digits ≠ [])
    (hdigit : ∀ b ∈ digits, isDigit b) (more : Bytes) :
    ∃ b, (digits ++ more).head? = some b ∧ isDigit b := by
  obtain ⟨b, digits, rfl⟩ := List.exists_cons_of_ne_nil hdigits
  exact ⟨b, rfl, hdigit b List.mem_cons_self⟩

/-- Neither `*` nor `:` comes next. -/
def Plain (input : Bytes) : Prop :=
  input.head? ≠ some asterisk ∧ input.head? ≠ some colon

theorem Plain.of_head {b : UInt8} {input : Bytes} (hhead : input.head? = some b)
    (hasterisk : b ≠ asterisk) (hcolon : b ≠ colon) : Plain input := by
  unfold Plain
  rw [hhead]
  simpa using And.intro hasterisk hcolon

theorem SpellsTrivia.plain {input rest : Bytes} {comments : List (Comment Mark)}
    (h : SpellsTrivia input comments rest) (hrest : Plain rest) : Plain input := by
  cases h with
  | nothing => exact hrest
  | blank hblank _ =>
    apply Plain.of_head rfl
    · rintro rfl
      exact absurd hblank (by decide)
    · rintro rfl
      exact absurd hblank (by decide)
  | comment hcomment _ =>
    obtain ⟨-, -, -⟩ := hcomment
    exact Plain.of_head rfl (by decide) (by decide)

theorem SpellsChain.plain {slot : Spelling (Option α)} {separator : Bytes → Bytes → Prop}
    {input rest : Bytes} {values : List α} {comments : List (Comment Mark)}
    (hslot : ∀ {value comments rest}, slot input value comments rest → Plain rest → Plain input)
    (hseparator : ∀ {middle next}, separator middle next → Plain middle)
    (h : SpellsChain slot separator input values comments rest) (hrest : Plain rest) :
    Plain input := by
  cases h with
  | last hvalue => exact hslot hvalue hrest
  | more hvalue hsymbol _ => exact hslot hvalue (hseparator hsymbol)

theorem SpellsComma.plain {input rest : Bytes} (h : SpellsComma input rest) : Plain input := by
  cases h
  exact Plain.of_head rfl (by decide) (by decide)

theorem SpellsSeparator.plain {input rest : Bytes} (h : SpellsSeparator input rest) :
    Plain input := by
  obtain ⟨rfl | rfl | rfl, -⟩ := h <;>
    exact Plain.of_head rfl (by decide) (by decide)

/-! ### No trivia comes before a symbol -/

theorem not_isBlank_of_isOpening {b : UInt8} (h : isOpening b) : ¬isBlank b := by
  simp only [isOpening, isLetter, isBlank, Bool.or_eq_true, Bool.and_eq_true,
    decide_eq_true_eq, beq_iff_eq] at h ⊢
  grind

theorem not_isDigit_of_isOpening {b : UInt8} (h : isOpening b) : ¬isDigit b := by
  simp only [isOpening, isLetter, isDigit, Bool.or_eq_true, Bool.and_eq_true,
    decide_eq_true_eq, beq_iff_eq] at h ⊢
  grind

theorem not_isBlank_of_isDigit {b : UInt8} (h : isDigit b) : ¬isBlank b := by
  simp only [isDigit, isBlank, Bool.or_eq_true, Bool.and_eq_true, decide_eq_true_eq,
    beq_iff_eq] at h ⊢
  grind

theorem SpellsTrivia.not_isDigit {input rest : Bytes} {comments : List (Comment Mark)}
    (h : SpellsTrivia input comments (asterisk :: rest)) :
    ∀ b, input.head? = some b → ¬isDigit b := by
  cases h with
  | nothing => exact forall_head rfl (by decide)
  | blank hblank _ =>
    refine forall_head rfl ?_
    intro hdigit
    exact not_isBlank_of_isDigit hdigit hblank
  | comment hcomment _ =>
    obtain ⟨-, -, -⟩ := hcomment
    exact forall_head rfl (by decide)

theorem Settled.of_parenthesis {inside : Bytes} (h : inside.head? ≠ some asterisk) :
    Settled (leftParenthesis :: inside) := by
  constructor
  · exact forall_head rfl (by decide)
  · intro hcomment
    obtain ⟨more, rfl⟩ := (List.cons_prefix_cons.1 hcomment).2
    exact h rfl

theorem not_isBlank_of_isWord {b : UInt8} (h : isWord b) : ¬isBlank b := by
  unfold isWord at h
  rcases Bool.or_eq_true_iff.1 h with hletter | hdigit
  · exact not_isBlank_of_isOpening (isOpening_of_isLetter hletter)
  · exact not_isBlank_of_isDigit hdigit

theorem Settled.of_isWord {b : UInt8} {rest : Bytes} (h : isWord b) : Settled (b :: rest) := by
  apply Settled.of_head rfl (not_isBlank_of_isWord h)
  rintro rfl
  exact absurd h (by decide)

theorem Settled.of_digits {digits : Bytes} (hdigits : digits ≠ [])
    (hdigit : ∀ b ∈ digits, isDigit b) (more : Bytes) : Settled (digits ++ more) := by
  obtain ⟨b, hb, hcount⟩ := head_of_digits hdigits hdigit more
  apply Settled.of_head hb (not_isBlank_of_isDigit hcount)
  rintro rfl
  exact absurd hcount (by decide)

theorem SpellsWord.settled {input word rest : Bytes} {comments : List (Comment Mark)}
    (h : SpellsWord input word comments rest) : Settled input := by
  cases h with
  | last hword => exact Settled.of_isWord hword
  | more hword _ _ => exact Settled.of_isWord hword

theorem SpellsName.settled {input name rest : Bytes} {comments : List (Comment Mark)}
    (h : SpellsName input name comments rest) : Settled input := by
  obtain ⟨-, hword⟩ := h
  exact hword.settled

theorem Settled.of_opener {bracket : Bracket} {opener inside : Bytes}
    (hopener : opener ∈ bracket.openers) (hplain : bracket = .grouped → Plain inside) :
    Settled (opener ++ inside) := by
  cases bracket with
  | optional =>
    rcases Bracket.mem_openers_optional.1 hopener with rfl | rfl
    · exact .of_head rfl (by decide) (by decide)
    · have hsecond : some solidus ≠ some asterisk := by decide
      exact .of_parenthesis hsecond
  | repeated =>
    rcases Bracket.mem_openers_repeated.1 hopener with rfl | rfl
    · exact .of_head rfl (by decide) (by decide)
    · have hsecond : some colon ≠ some asterisk := by decide
      exact .of_parenthesis hsecond
  | grouped =>
    obtain rfl := Bracket.mem_openers_grouped.1 hopener
    exact .of_parenthesis (hplain rfl).1

/-! ### Quoting and inert bytes -/

theorem eq_of_isQuoting {b : UInt8} (h : isQuoting b) :
    b = questionMark ∨ b = apostrophe ∨ b = quotationMark := by
  simpa [isQuoting, or_assoc, or_comm, or_left_comm] using h

theorem Bracket.exists_not_isQuoting {bracket : Bracket} {opener : Bytes}
    (h : opener ∈ bracket.openers) : ∃ b more, opener = b :: more ∧ ¬isQuoting b := by
  cases bracket with
  | optional => rcases mem_openers_optional.1 h with rfl | rfl <;> exact ⟨_, _, rfl, by decide⟩
  | repeated => rcases mem_openers_repeated.1 h with rfl | rfl <;> exact ⟨_, _, rfl, by decide⟩
  | grouped =>
    obtain rfl := mem_openers_grouped.1 h
    exact ⟨_, _, rfl, by decide⟩

theorem isInert_of_ne {b : UInt8} (h : b ≠ apostrophe ∧ b ≠ quotationMark ∧
    b ≠ questionMark ∧ b ≠ leftParenthesis) : isInert b := by
  simpa [isInert, isQuoting, and_assoc] using h

theorem isInert_of_isBlank {b : UInt8} (h : isBlank b) : isInert b := by
  apply isInert_of_ne
  refine ⟨?_, ?_, ?_, ?_⟩ <;> rintro rfl <;> exact absurd h (by decide)

theorem isInert_of_isWord {b : UInt8} (h : isWord b) : isInert b := by
  apply isInert_of_ne
  refine ⟨?_, ?_, ?_, ?_⟩ <;> rintro rfl <;> exact absurd h (by decide)

theorem isInert_of_isDigit {b : UInt8} (h : isDigit b) : isInert b :=
  isInert_of_isWord (isWord_of_isDigit h)

theorem Bracket.isInert_of_closer {bracket : Bracket} {closer : Bytes}
    (h : closer ∈ bracket.closers) : ∀ b ∈ closer, isInert b := by
  have hsymbol : ∀ b, isInert b → ∀ b' ∈ [b], isInert b' :=
    fun _ hb => List.forall_mem_singleton.2 hb
  have hdigraph : ∀ b, isInert b → ∀ b' ∈ [b, rightParenthesis], isInert b' :=
    fun _ hb => List.forall_mem_cons.2 ⟨hb, hsymbol _ (by decide)⟩
  cases bracket with
  | optional =>
    rcases mem_closers_optional.1 h with rfl | rfl
    · exact hsymbol _ (by decide)
    · exact hdigraph _ (by decide)
  | repeated =>
    rcases mem_closers_repeated.1 h with rfl | rfl
    · exact hsymbol _ (by decide)
    · exact hdigraph _ (by decide)
  | grouped =>
    obtain rfl := mem_closers_grouped.1 h
    exact hsymbol _ (by decide)

/-! ### Constructs -/

variable [Runtime]

theorem SpellsPrimary.head {input rest : Bytes} {p : Primary Extent}
    {comments : List (Comment Mark)} (h : SpellsPrimary input p comments rest) :
    ∃ b, input.head? = some b ∧ isOpening b := by
  cases h with
  | bracketed hopener _ _ _ =>
    obtain ⟨b, more, rfl, hopening⟩ := Bracket.exists_isOpening hopener
    exact ⟨b, rfl, hopening⟩
  | identifier hname =>
    obtain ⟨b, hb, hletter⟩ := hname.head
    exact ⟨b, hb, isOpening_of_isLetter hletter⟩
  | terminal hquote _ _ hinput =>
    subst hinput
    rcases hquote with rfl | rfl <;> exact ⟨_, rfl, by decide⟩
  | special _ hinput =>
    subst hinput
    exact ⟨_, rfl, by decide⟩

theorem SpellsFactor.head {input rest : Bytes} {x : Factor Extent}
    {comments : List (Comment Mark)} (h : SpellsFactor input x comments rest) :
    ∃ b, input.head? = some b ∧ (isOpening b ∨ isDigit b) := by
  cases h with
  | primary hprimary =>
    obtain ⟨b, hb, hopening⟩ := hprimary.head
    exact ⟨b, hb, .inl hopening⟩
  | repetition hcount _ =>
    obtain ⟨b, hb, hcount⟩ := head_of_digits hcount.nonempty hcount.digit _
    exact ⟨b, hb, .inr hcount⟩
  | repetitionOf hcount _ _ _ =>
    obtain ⟨b, hb, hcount⟩ := head_of_digits hcount.nonempty hcount.digit _
    exact ⟨b, hb, .inr hcount⟩

theorem SpellsTerm.head {input rest : Bytes} {t : Term Extent}
    {comments : List (Comment Mark)} (h : SpellsTerm input t comments rest) :
    ∃ b, input.head? = some b ∧ (isOpening b ∨ isDigit b) := by
  cases h with
  | factor hfactor => exact hfactor.head
  | exception hbase _ => exact hbase.head
  | exceptionOf hbase _ _ _ => exact hbase.head

theorem SpellsTerm.plain {input rest : Bytes} {t : Term Extent}
    {comments : List (Comment Mark)} (h : SpellsTerm input t comments rest) :
    Plain input := by
  obtain ⟨b, hhead, hb⟩ := h.head
  apply Plain.of_head hhead
  · rintro rfl
    exact absurd hb (by decide)
  · rintro rfl
    exact absurd hb (by decide)

theorem SpellsSlot.plain {input rest : Bytes} {value : Option (Term Extent)}
    {comments : List (Comment Mark)}
    (h : SpellsSlot SpellsTerm input value comments rest) (hrest : Plain rest) :
    Plain input := by
  cases h with
  | empty htrivia => exact htrivia.plain hrest
  | filled hbefore hterm _ => exact hbefore.plain hterm.plain

theorem SpellsDefinition.plain {input rest : Bytes} {d : Option (Definition Extent)}
    {comments : List (Comment Mark)} (h : SpellsDefinition input d comments rest)
    (hrest : Plain rest) : Plain input := by
  cases h with
  | nothing hterms => exact hterms.plain SpellsSlot.plain SpellsComma.plain hrest
  | term hterms => exact hterms.plain SpellsSlot.plain SpellsComma.plain hrest
  | concatenation hterms => exact hterms.plain SpellsSlot.plain SpellsComma.plain hrest

theorem SpellsDefinitions.plain {input rest : Bytes} {definitions : List (Definition Extent)}
    {comments : List (Comment Mark)} (h : SpellsDefinitions input definitions comments rest)
    (hrest : Plain rest) : Plain input := by
  obtain ⟨hdefinitions⟩ := h
  exact hdefinitions.plain SpellsDefinition.plain SpellsSeparator.plain hrest

theorem SpellsDefinitions.plain_of_grouped {inside closer rest : Bytes}
    {definitions : List (Definition Extent)} {comments : List (Comment Mark)}
    (hcloser : closer ∈ Bracket.grouped.closers)
    (h : SpellsDefinitions inside definitions comments (closer ++ rest)) : Plain inside := by
  obtain rfl := Bracket.mem_closers_grouped.1 hcloser
  exact h.plain (Plain.of_head rfl (by decide) (by decide))

theorem SpellsPrimary.settled {input rest : Bytes} {p : Primary Extent}
    {comments : List (Comment Mark)} (h : SpellsPrimary input p comments rest) :
    Settled input := by
  cases h with
  | bracketed hopener hcloser _ hdefinitions =>
    apply Settled.of_opener hopener
    rintro rfl
    exact hdefinitions.plain_of_grouped hcloser
  | identifier hname => exact hname.settled
  | terminal hquote _ _ hinput =>
    subst hinput
    rcases hquote with rfl | rfl <;> exact .of_head rfl (by decide) (by decide)
  | special _ hinput =>
    subst hinput
    exact .of_head rfl (by decide) (by decide)

theorem SpellsFactor.settled {input rest : Bytes} {x : Factor Extent}
    {comments : List (Comment Mark)} (h : SpellsFactor input x comments rest) :
    Settled input := by
  cases h with
  | primary hprimary => exact hprimary.settled
  | repetition hcount _ => exact Settled.of_digits hcount.nonempty hcount.digit _
  | repetitionOf hcount _ _ _ => exact Settled.of_digits hcount.nonempty hcount.digit _

theorem SpellsTerm.settled {input rest : Bytes} {t : Term Extent}
    {comments : List (Comment Mark)} (h : SpellsTerm input t comments rest) :
    Settled input := by
  cases h with
  | factor hfactor => exact hfactor.settled
  | exception hbase _ => exact hbase.settled
  | exceptionOf hbase _ _ _ => exact hbase.settled

end Ebnf
