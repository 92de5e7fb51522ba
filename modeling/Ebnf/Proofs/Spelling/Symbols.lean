import Ebnf.Proofs.Spelling.Flaw

/-!
# The symbols of a source

Between its bytes and its grammar a document is a row of symbols, with trivia before each
of them and behind the last.  Here the bytes are divided into symbols without regard to how
these follow one another: each symbol is the longest one that stands at its place.  A name
goes on over trivia as long as letters and digits come next, an integer takes all digits,
`(*` opens a comment, and `(/`, `(:` and `/)` are one symbol each and not two.
-/

namespace Ebnf

open Byte

inductive Symbol where
  | name
  /-- A run of so many digits. -/
  | integer (digits : Nat)
  | terminal
  | special
  | opening (bracket : Bracket)
  | closing (bracket : Bracket)
  | separator
  | concatenate
  | except
  | repetition
  | defining
  | terminator
deriving DecidableEq, Repr

/-- The symbols that are always written as the same byte. -/
def Symbol.byte? : Symbol → Option UInt8
  | concatenate => some comma
  | except => some hyphen
  | repetition => some asterisk
  | defining => some equalsSign
  | terminator => some semicolon
  | _ => none

/-- No letter and no digit comes next behind trivia. -/
def Closed (rest : Bytes) : Prop :=
  ∀ ⦃comments b more⦄, SpellsTrivia rest comments (b :: more) → ¬isWord b

/-- The symbol that stands at the beginning of the bytes, and what follows it. -/
inductive SpellsSymbol : Bytes → Symbol → Bytes → Prop
  | name (hname : SpellsName input name comments rest) (hlongest : Closed rest) :
      SpellsSymbol input .name rest
  | integer (hdigits : digits ≠ []) (hdigit : ∀ b ∈ digits, isDigit b)
      (hlongest : ∀ b, rest.head? = some b → ¬isDigit b) :
      SpellsSymbol (digits ++ rest) (.integer digits.length) rest
  | terminal (hquote : quote = apostrophe ∨ quote = quotationMark)
      (hnonempty : content ≠ []) (hcontent : ∀ b ∈ content, isTerminal quote b) :
      SpellsSymbol (quote :: (content ++ quote :: rest)) .terminal rest
  | special {interior : Bytes} (hinterior : questionMark ∉ interior) :
      SpellsSymbol (questionMark :: (interior ++ questionMark :: rest)) .special rest
  | opening (hopener : opener ∈ bracket.openers)
      (hlongest : bracket = .grouped → Plain rest ∧ rest.head? ≠ some solidus) :
      SpellsSymbol (opener ++ rest) (.opening bracket) rest
  | closing (hcloser : closer ∈ bracket.closers) :
      SpellsSymbol (closer ++ rest) (.closing bracket) rest
  | separator (hseparator : SpellsSeparator input rest) : SpellsSymbol input .separator rest
  | single (hbyte : symbol.byte? = some b) : SpellsSymbol (b :: rest) symbol rest

/-- Symbols with trivia before each of them. -/
inductive SpellsSymbols : Bytes → List Symbol → Bytes → Prop
  | nothing : SpellsSymbols rest [] rest
  | symbol (htrivia : SpellsTrivia input comments start)
      (hsymbol : SpellsSymbol start symbol middle)
      (hmore : SpellsSymbols middle symbols rest) :
      SpellsSymbols input (symbol :: symbols) rest

/-- All of the source is symbols and trivia. -/
def ConsistsOf (source : Bytes) (symbols : List Symbol) : Prop :=
  ∃ rest comments, SpellsSymbols source symbols rest ∧ SpellsTrivia rest comments []

/-! ### Single symbols -/

namespace SpellsSymbol

variable {input rest : Bytes}

theorem of_name (h : SpellsSymbol input .name rest) :
    ∃ name comments, SpellsName input name comments rest ∧ Closed rest := by
  cases h with
  | name hname hlongest => exact ⟨_, _, hname, hlongest⟩
  | single hbyte => cases hbyte

theorem of_integer {count : Nat} (h : SpellsSymbol input (.integer count) rest) :
    ∃ digits, input = digits ++ rest ∧ digits ≠ [] ∧ (∀ b ∈ digits, isDigit b) ∧
      digits.length = count ∧ ∀ b, rest.head? = some b → ¬isDigit b := by
  cases h with
  | integer hdigits hdigit hlongest => exact ⟨_, rfl, hdigits, hdigit, rfl, hlongest⟩
  | single hbyte => cases hbyte

theorem of_terminal (h : SpellsSymbol input .terminal rest) :
    ∃ quote content, input = quote :: (content ++ quote :: rest) ∧
      (quote = apostrophe ∨ quote = quotationMark) ∧ content ≠ [] ∧
      ∀ b ∈ content, isTerminal quote b := by
  cases h with
  | terminal hquote hnonempty hcontent => exact ⟨_, _, rfl, hquote, hnonempty, hcontent⟩
  | single hbyte => cases hbyte

theorem of_special (h : SpellsSymbol input .special rest) :
    ∃ interior, input = questionMark :: (interior ++ questionMark :: rest) ∧
      questionMark ∉ interior := by
  cases h with
  | special hinterior => exact ⟨_, rfl, hinterior⟩
  | single hbyte => cases hbyte

theorem of_opening {bracket : Bracket} (h : SpellsSymbol input (.opening bracket) rest) :
    ∃ opener ∈ bracket.openers, input = opener ++ rest ∧
      (bracket = .grouped → Plain rest ∧ rest.head? ≠ some solidus) := by
  cases h with
  | opening hopener hlongest => exact ⟨_, hopener, rfl, hlongest⟩
  | single hbyte => cases hbyte

theorem of_closing {bracket : Bracket} (h : SpellsSymbol input (.closing bracket) rest) :
    ∃ closer ∈ bracket.closers, input = closer ++ rest := by
  cases h with
  | closing hcloser => exact ⟨_, hcloser, rfl⟩
  | single hbyte => cases hbyte

theorem of_separator (h : SpellsSymbol input .separator rest) : SpellsSeparator input rest := by
  cases h with
  | separator hseparator => exact hseparator
  | single hbyte => cases hbyte

theorem of_single {symbol : Symbol} {b : UInt8} (h : SpellsSymbol input symbol rest)
    (hbyte : symbol.byte? = some b) : input = b :: rest := by
  cases h with
  | single hbyte' => rw [Option.some.inj (hbyte.symm.trans hbyte')]
  | _ => cases hbyte

end SpellsSymbol

/-! ### Rows of symbols -/

namespace SpellsSymbols

variable {input middle rest : Bytes} {symbols more : List Symbol}

theorem append (h : SpellsSymbols input symbols middle) (h' : SpellsSymbols middle more rest) :
    SpellsSymbols input (symbols ++ more) rest := by
  induction h with
  | nothing => exact h'
  | symbol htrivia hsymbol _ ih => exact .symbol htrivia hsymbol (ih h')

theorem split (h : SpellsSymbols input (symbols ++ more) rest) :
    ∃ middle, SpellsSymbols input symbols middle ∧ SpellsSymbols middle more rest := by
  induction symbols generalizing input with
  | nil => exact ⟨input, .nothing, h⟩
  | cons symbol symbols ih =>
    cases h with
    | symbol htrivia hsymbol hmore =>
      obtain ⟨middle, hfront, hback⟩ := ih hmore
      exact ⟨middle, .symbol htrivia hsymbol hfront, hback⟩

/-- One symbol and the trivia before it. -/
theorem single {symbol : Symbol} {start : Bytes} {comments : List (Comment Mark)}
    (htrivia : SpellsTrivia input comments start) (hsymbol : SpellsSymbol start symbol rest) :
    SpellsSymbols input [symbol] rest :=
  .symbol htrivia hsymbol .nothing

/-- Trivia in front belongs to the first symbol. -/
theorem behind_trivia {start : Bytes} {comments : List (Comment Mark)}
    (htrivia : SpellsTrivia input comments start) (h : SpellsSymbols start symbols rest)
    (hnonempty : symbols ≠ []) : SpellsSymbols input symbols rest := by
  cases h with
  | nothing => exact absurd rfl hnonempty
  | symbol hbefore hsymbol hmore => exact .symbol (htrivia.append hbefore) hsymbol hmore

theorem eq_of_nil (h : SpellsSymbols input [] rest) : rest = input := by
  cases h
  rfl

theorem of_cons {symbol : Symbol} (h : SpellsSymbols input (symbol :: symbols) rest) :
    ∃ start middle comments, SpellsTrivia input comments start ∧
      SpellsSymbol start symbol middle ∧ SpellsSymbols middle symbols rest := by
  cases h with
  | symbol htrivia hsymbol hmore => exact ⟨_, _, _, htrivia, hsymbol, hmore⟩

theorem of_singleton {symbol : Symbol} (h : SpellsSymbols input [symbol] rest) :
    ∃ start comments, SpellsTrivia input comments start ∧ SpellsSymbol start symbol rest := by
  obtain ⟨start, middle, comments, htrivia, hsymbol, hnothing⟩ := h.of_cons
  obtain rfl := hnothing.eq_of_nil
  exact ⟨start, comments, htrivia, hsymbol⟩

end SpellsSymbols

/-! ### What comes next behind trivia -/

/-- Where trivia ends does not depend on how much of it has been passed. -/
theorem SpellsTrivia.behind {input middle rest : Bytes} {comments comments' : List (Comment Mark)}
    (h : SpellsTrivia input comments rest) (hsettled : Settled rest)
    (h' : SpellsTrivia input comments' middle) :
    ∃ comments'', SpellsTrivia middle comments'' rest := by
  induction h' generalizing comments with
  | nothing => exact ⟨comments, h⟩
  | blank hblank _ ih =>
    cases h with
    | nothing => exact absurd hblank (hsettled.1 _ rfl)
    | blank _ hmore => exact ih hmore
    | comment hcomment =>
      obtain ⟨-, -, -⟩ := hcomment
      exact absurd hblank (by decide)
  | comment hcomment _ ih =>
    cases h with
    | nothing => exact absurd hcomment.opener hsettled.2
    | blank hblank =>
      obtain ⟨-, -, -⟩ := hcomment
      exact absurd hblank (by decide)
    | comment hcomment' hmore =>
      obtain rfl := hcomment.rest_unique hcomment'
      exact ih hmore

theorem SpellsTrivia.eq_of_settled {input rest : Bytes} {comments : List (Comment Mark)}
    (h : SpellsTrivia input comments rest) (hsettled : Settled input) : rest = input := by
  cases h with
  | nothing => rfl
  | blank hblank => exact absurd hblank (hsettled.1 _ rfl)
  | comment hcomment => exact absurd hcomment.opener hsettled.2

/-- All trivia ends at one place. -/
theorem SpellsTrivia.rest_unique {input rest rest' : Bytes}
    {comments comments' : List (Comment Mark)} (h : SpellsTrivia input comments rest)
    (hsettled : Settled rest) (h' : SpellsTrivia input comments' rest')
    (hsettled' : Settled rest') : rest = rest' := by
  obtain ⟨_, hbehind⟩ := h.behind hsettled h'
  exact hbehind.eq_of_settled hsettled'

namespace Closed

variable {input rest : Bytes} {comments : List (Comment Mark)}

theorem of_trivia (h : SpellsTrivia input comments rest) (hrest : Closed rest) :
    Closed input := by
  intro comments' b more htrivia hword
  obtain ⟨comments'', hbehind⟩ := htrivia.behind (Settled.of_isWord hword) h
  exact hrest hbehind hword

theorem of_settled (hsettled : Settled input) (h : ∀ b, input.head? = some b → ¬isWord b) :
    Closed input := by
  intro comments b more htrivia
  rw [← htrivia.eq_of_settled hsettled] at h
  exact h b rfl

/-- A delimiter comes next. -/
theorem of_delimited (h : Delimited rest) : Closed rest :=
  .of_settled h.settled h.not_isWord

end Closed

/-! ### The longest symbol -/

/-- The symbols of two bytes. -/
def digraphs : List ((UInt8 × UInt8) × Symbol) :=
  [((leftParenthesis, solidus), .opening .optional), ((leftParenthesis, colon), .opening .repeated),
    ((solidus, rightParenthesis), .closing .optional),
    ((colon, rightParenthesis), .closing .repeated)]

/-- The bytes that are symbols, or that begin a quoted one. -/
def monographs : List (UInt8 × Symbol) :=
  [(leftSquareBracket, .opening .optional), (rightSquareBracket, .closing .optional),
    (leftCurlyBracket, .opening .repeated), (rightCurlyBracket, .closing .repeated),
    (leftParenthesis, .opening .grouped), (rightParenthesis, .closing .grouped),
    (verticalLine, .separator), (solidus, .separator), (exclamationMark, .separator),
    (comma, .concatenate), (hyphen, .except), (asterisk, .repetition), (equalsSign, .defining),
    (semicolon, .terminator), (apostrophe, .terminal), (quotationMark, .terminal),
    (questionMark, .special)]

/-- Which symbol comes next if it is none of two bytes. -/
def symbolOf : Bytes → Option Symbol
  | [] => none
  | b :: rest =>
    if isLetter b then some .name
    else if isDigit b then some (.integer ((b :: rest).takeWhile isDigit).length)
    else monographs.lookup b

/-- Which symbol comes next, two bytes before one. -/
def symbolAt : Bytes → Option Symbol
  | b :: b' :: rest => (digraphs.lookup (b, b')).or (symbolOf (b :: b' :: rest))
  | input => symbolOf input

/-- A byte that no symbol of two bytes begins with here. -/
theorem symbolAt_of_not_digraph {b : UInt8} {rest : Bytes}
    (h : ∀ b', rest.head? = some b' → ∀ p ∈ digraphs, p.1 ≠ (b, b')) :
    symbolAt (b :: rest) = symbolOf (b :: rest) := by
  cases rest with
  | nil => rfl
  | cons b' rest =>
    have hnone : digraphs.lookup (b, b') = none := by
      rw [List.lookup_eq_none_iff]
      exact fun p hp => bne_iff_ne.2 (h b' rfl p hp).symm
    rw [symbolAt, hnone, Option.none_or]

theorem symbolAt_cons {b : UInt8} (h : b ≠ leftParenthesis ∧ b ≠ solidus ∧ b ≠ colon)
    (rest : Bytes) : symbolAt (b :: rest) = symbolOf (b :: rest) := by
  apply symbolAt_of_not_digraph
  rintro b' -
  simp [digraphs, h.1.symm, h.2.1.symm, h.2.2.symm]

theorem symbolAt_word {b : UInt8} (h : isWord b) (rest : Bytes) :
    symbolAt (b :: rest) = symbolOf (b :: rest) := by
  apply symbolAt_cons
  refine ⟨?_, ?_, ?_⟩ <;> rintro rfl <;> exact absurd h (by decide)

theorem symbolAt_parenthesis {rest : Bytes}
    (h : rest.head? ≠ some solidus ∧ rest.head? ≠ some colon) :
    symbolAt (leftParenthesis :: rest) = some (.opening .grouped) := by
  rw [symbolAt_of_not_digraph]
  · rfl
  · intro b' hb'
    rw [hb'] at h
    simp_all +decide [digraphs, eq_comm]

theorem symbolAt_solidus {rest : Bytes} (h : rest.head? ≠ some rightParenthesis) :
    symbolAt (solidus :: rest) = some .separator := by
  rw [symbolAt_of_not_digraph]
  · rfl
  · intro b' hb'
    rw [hb'] at h
    simp_all +decide [digraphs, eq_comm]

theorem symbolAt_opener {bracket : Bracket} {opener rest : Bytes} (h : opener ∈ bracket.openers)
    (hlongest : bracket = .grouped → Plain rest ∧ rest.head? ≠ some solidus) :
    symbolAt (opener ++ rest) = some (.opening bracket) := by
  cases bracket with
  | optional =>
    rcases Bracket.mem_openers_optional.1 h with rfl | rfl
    · exact symbolAt_cons (by decide) _
    · rfl
  | repeated =>
    rcases Bracket.mem_openers_repeated.1 h with rfl | rfl
    · exact symbolAt_cons (by decide) _
    · rfl
  | grouped =>
    obtain rfl := Bracket.mem_openers_grouped.1 h
    exact symbolAt_parenthesis ⟨(hlongest rfl).2, (hlongest rfl).1.2⟩

theorem symbolAt_closer {bracket : Bracket} {closer : Bytes} (h : closer ∈ bracket.closers)
    (rest : Bytes) : symbolAt (closer ++ rest) = some (.closing bracket) := by
  cases bracket with
  | optional =>
    rcases Bracket.mem_closers_optional.1 h with rfl | rfl
    · exact symbolAt_cons (by decide) _
    · rfl
  | repeated =>
    rcases Bracket.mem_closers_repeated.1 h with rfl | rfl
    · exact symbolAt_cons (by decide) _
    · rfl
  | grouped =>
    obtain rfl := Bracket.mem_closers_grouped.1 h
    exact symbolAt_cons (by decide) _

theorem takeWhile_digits {digits rest : Bytes} (h : ∀ b ∈ digits, isDigit b)
    (hrest : ∀ b, rest.head? = some b → ¬isDigit b) :
    (digits ++ rest).takeWhile isDigit = digits := by
  rw [List.takeWhile_append_of_pos h]
  cases rest with
  | nil => exact List.append_nil _
  | cons b rest => rw [List.takeWhile_cons_of_neg (hrest b rfl), List.append_nil]

namespace SpellsSymbol

variable {input rest rest' : Bytes} {symbol symbol' : Symbol}

theorem symbolAt_eq (h : SpellsSymbol input symbol rest) : symbolAt input = some symbol := by
  cases h with
  | name hname =>
    obtain ⟨hletter, -⟩ := hname
    rw [symbolAt_word (isWord_of_isLetter hletter), symbolOf, if_pos hletter]
  | integer hdigits hdigit hlongest =>
    have hrun := takeWhile_digits hdigit hlongest
    obtain ⟨b, digits, rfl⟩ := List.exists_cons_of_ne_nil hdigits
    have hb := hdigit b List.mem_cons_self
    have hletter : ¬isLetter b := fun hletter =>
      not_isDigit_of_isOpening (isOpening_of_isLetter hletter) hb
    rw [List.cons_append, symbolAt_word (isWord_of_isDigit hb), symbolOf, if_neg hletter,
      if_pos hb, ← List.cons_append, hrun]
  | terminal hquote => rcases hquote with rfl | rfl <;> exact symbolAt_cons (by decide) _
  | special => exact symbolAt_cons (by decide) _
  | opening hopener hlongest => exact symbolAt_opener hopener hlongest
  | closing hcloser => exact symbolAt_closer hcloser _
  | separator hseparator =>
    obtain ⟨rfl | rfl | rfl, hclear⟩ := hseparator
    · exact symbolAt_cons (by decide) _
    · exact symbolAt_solidus (hclear rfl)
    · exact symbolAt_cons (by decide) _
  | single hbyte => cases symbol <;> cases hbyte <;> exact symbolAt_cons (by decide) _

/-- No trivia stands at the beginning of a symbol. -/
theorem settled (h : SpellsSymbol input symbol rest) : Settled input := by
  cases h with
  | name hname => exact hname.settled
  | integer hdigits hdigit => exact .of_digits hdigits hdigit _
  | terminal hquote => rcases hquote with rfl | rfl <;> exact .of_head rfl (by decide) (by decide)
  | special => exact .of_head rfl (by decide) (by decide)
  | opening hopener hlongest => exact .of_opener hopener fun hgrouped => (hlongest hgrouped).1
  | closing hcloser => exact (FollowsDefinitions.of_closer hcloser rest).1.1.1.settled
  | separator hseparator => exact hseparator.follows.1.1.settled
  | single hbyte => cases symbol <;> cases hbyte <;> exact .of_head rfl (by decide) (by decide)

end SpellsSymbol

theorem Closed.not_spellsWord {rest middle word stop : Bytes}
    {comments comments' : List (Comment Mark)} (h : Closed rest)
    (htrivia : SpellsTrivia rest comments middle) (hword : SpellsWord middle word comments' stop) :
    False := by
  cases hword with
  | last hb => exact h htrivia hb
  | more hb => exact h htrivia hb

/-- A name goes on as long as it can. -/
theorem SpellsWord.rest_unique {input word word' rest rest' : Bytes}
    {comments comments' : List (Comment Mark)} (h : SpellsWord input word comments rest)
    (hclosed : Closed rest) (h' : SpellsWord input word' comments' rest')
    (hclosed' : Closed rest') : rest = rest' := by
  induction h generalizing word' comments' with
  | last =>
    cases h' with
    | last => rfl
    | more _ htrivia hmore => exact (hclosed.not_spellsWord htrivia hmore).elim
  | more _ htrivia hmore ih =>
    cases h' with
    | last => exact (hclosed'.not_spellsWord htrivia hmore).elim
    | more _ htrivia' hmore' =>
      obtain rfl := htrivia.rest_unique hmore.settled htrivia' hmore'.settled
      exact ih hclosed hmore'

theorem dropWhile_digits {digits rest : Bytes} (h : ∀ b ∈ digits, isDigit b)
    (hrest : ∀ b, rest.head? = some b → ¬isDigit b) :
    (digits ++ rest).dropWhile isDigit = rest := by
  rw [List.dropWhile_append_of_pos h]
  cases rest with
  | nil => rfl
  | cons b rest => exact List.dropWhile_cons_of_neg (hrest b rfl)

/-- Of spellings none of which begins another, one at most comes next. -/
theorem rest_eq_of_spellings {spellings : List Bytes}
    (hapart : ∀ one ∈ spellings, ∀ other ∈ spellings, one <+: other → one = other)
    {one other rest rest' : Bytes} (hone : one ∈ spellings) (hother : other ∈ spellings)
    (hsame : one ++ rest = other ++ rest') : rest = rest' := by
  have heq : one = other := by
    rcases List.prefix_or_prefix_of_prefix ⟨rest, hsame⟩ (List.prefix_append other rest')
      with hprefix | hprefix
    · exact hapart one hone other hother hprefix
    · exact (hapart other hother one hone hprefix).symm
  subst heq
  exact List.append_cancel_left hsame

namespace SpellsSymbol

variable {input rest rest' : Bytes} {symbol symbol' : Symbol}

theorem rest_unique (h : SpellsSymbol input symbol rest) (h' : SpellsSymbol input symbol rest') :
    rest = rest' := by
  rcases hbyte : symbol.byte? with _ | b
  · match symbol with
    | .name =>
      obtain ⟨_, _, ⟨_, hword⟩, hclosed⟩ := h.of_name
      obtain ⟨_, _, ⟨_, hword'⟩, hclosed'⟩ := h'.of_name
      exact hword.rest_unique hclosed hword' hclosed'
    | .integer _ =>
      obtain ⟨digits, rfl, -, hdigit, -, hlongest⟩ := h.of_integer
      obtain ⟨digits', hsame, -, hdigit', -, hlongest'⟩ := h'.of_integer
      rw [← dropWhile_digits hdigit hlongest, hsame, dropWhile_digits hdigit' hlongest']
    | .terminal =>
      obtain ⟨quote, content, rfl, -, -, hcontent⟩ := h.of_terminal
      obtain ⟨quote', content', hsame, -, -, hcontent'⟩ := h'.of_terminal
      obtain ⟨rfl, hsame⟩ := List.cons.inj hsame
      exact rest_eq_of_quoted (quote_notMem hcontent) (quote_notMem hcontent') hsame
    | .special =>
      obtain ⟨interior, rfl, hinterior⟩ := h.of_special
      obtain ⟨interior', hsame, hinterior'⟩ := h'.of_special
      exact rest_eq_of_quoted hinterior hinterior' (List.cons.inj hsame).2
    | .opening bracket =>
      obtain ⟨opener, hopener, rfl, -⟩ := h.of_opening
      obtain ⟨opener', hopener', hsame, -⟩ := h'.of_opening
      exact rest_eq_of_spellings (by cases bracket <;> decide) hopener hopener' hsame
    | .closing bracket =>
      obtain ⟨closer, hcloser, rfl⟩ := h.of_closing
      obtain ⟨closer', hcloser', hsame⟩ := h'.of_closing
      exact rest_eq_of_spellings (by cases bracket <;> decide) hcloser hcloser' hsame
    | .separator =>
      obtain ⟨-, -⟩ := h.of_separator
      generalize hsame : _ :: _ = input at h'
      obtain ⟨-, -⟩ := h'.of_separator
      exact (List.cons.inj hsame).2
  · have hsame := (h.of_single hbyte).symm.trans (h'.of_single hbyte)
    exact (List.cons.inj hsame).2

/-- One symbol at most stands at a place, and ends at one place. -/
theorem unique (h : SpellsSymbol input symbol rest) (h' : SpellsSymbol input symbol' rest') :
    symbol = symbol' ∧ rest = rest' := by
  have hsame := Option.some.inj (h.symbolAt_eq.symm.trans h'.symbolAt_eq)
  subst hsame
  exact ⟨rfl, h.rest_unique h'⟩

end SpellsSymbol

/-- A row of symbols that goes on does not stand where only trivia is left. -/
theorem SpellsSymbol.not_end {input start rest : Bytes} {symbol : Symbol}
    {comments comments' : List (Comment Mark)} (h : SpellsSymbol start symbol rest)
    (htrivia : SpellsTrivia input comments start) (hend : SpellsTrivia input comments' []) :
    False := by
  obtain rfl := htrivia.rest_unique h.settled hend ⟨nofun, by simp⟩
  exact nomatch h.symbolAt_eq

theorem SpellsSymbols.unique {source rest rest' : Bytes} {symbols symbols' : List Symbol}
    {comments comments' : List (Comment Mark)} (h : SpellsSymbols source symbols rest)
    (hend : SpellsTrivia rest comments []) (h' : SpellsSymbols source symbols' rest')
    (hend' : SpellsTrivia rest' comments' []) : symbols = symbols' := by
  induction h generalizing symbols' with
  | nothing =>
    cases h' with
    | nothing => rfl
    | symbol htrivia hsymbol => exact (hsymbol.not_end htrivia hend).elim
  | symbol htrivia hsymbol _ ih =>
    cases h' with
    | nothing => exact (hsymbol.not_end htrivia hend').elim
    | symbol htrivia' hsymbol' hmore' =>
      obtain rfl := htrivia.rest_unique hsymbol.settled htrivia' hsymbol'.settled
      obtain ⟨rfl, rfl⟩ := hsymbol.unique hsymbol'
      rw [ih hend hmore']

/-- A source consists of one row of symbols at most. -/
theorem ConsistsOf.unique {source : Bytes} {symbols symbols' : List Symbol}
    (h : ConsistsOf source symbols) (h' : ConsistsOf source symbols') : symbols = symbols' := by
  obtain ⟨rest, comments, hsymbols, hend⟩ := h
  obtain ⟨rest', comments', hsymbols', hend'⟩ := h'
  exact hsymbols.unique hend hsymbols' hend'

end Ebnf
