import Ebnf.Proofs.Parsing.Positions
import Ebnf.Proofs.Spelling.Nesting
import Ebnf.Tree.Equality

/-!
# What an error points at

The start of an error is the place of the construct that is at fault, and between its start
and its stop the source is in order.  For an error of structure this says that the bytes
there are a whole part of the notation, only that what it needs next does not come.  For an
error inside a lexeme it says what the bytes of the lexeme are up to where it breaks.

Wherever an error starts, it is not inside a comment or a quoted lexeme that is complete.
Only an empty comment may be inside another comment, and then the outer one is not
completed.
-/

namespace Ebnf

open Byte Reader Relation

/-- No lexeme of the source has the site strictly inside of it. -/
def Outside (source site : Bytes) : Prop :=
  ∀ place next, Lexes source place → Lexeme place next →
    ¬(next.length < site.length ∧ site.length < place.length)

/-! ### Sites -/

/-- Lexemes that begin before a place which is reached end before it, too. -/
theorem Lexes.outside {source site : Bytes} (h : Lexes source site) : Outside source site := by
  rintro place next hplace hnext ⟨hinside, hbefore⟩
  rcases h.total hplace with hbehind | hahead
  · exact Nat.not_lt.2 hbehind.suffix.length_le hbefore
  · rcases ReflTransGen.cases_head hahead with rfl | ⟨next', hnext', hmore⟩
    · exact Nat.lt_irrefl _ hbefore
    · obtain rfl := hnext.unique hnext'
      exact Nat.not_lt.2 (Lexes.suffix hmore).length_le hinside

namespace BrokenComment

variable {source input : Bytes} {error : SyntaxError Mark}

/-- A comment that is not completed is no lexeme, and nothing else begins as it does. -/
theorem not_lexeme {next : Bytes} (h : BrokenComment input error) : ¬Lexeme input next := by
  have hbroken : ∃ inside, input = leftParenthesis :: asterisk :: inside := by
    cases h <;> exact ⟨_, rfl⟩
  obtain ⟨inside, hinside⟩ := hbroken
  intro hlexeme
  cases hlexeme with
  | byte hquoting hopen => exact hopen ⟨inside, hinside.symm⟩
  | quoted hquoting =>
    obtain ⟨rfl, -⟩ := List.cons.inj hinside
    exact absurd hquoting (by decide)
  | comment hcomment =>
    rcases h.emptyOpening_or_endsOpen with ⟨-, hempty⟩ | ⟨-, hopen⟩
    · exact hcomment.not_emptyOpening hempty
    · exact hcomment.not_endsOpen hopen

/-- What lies in a broken comment lies in no lexeme, as nothing leads into it. -/
theorem outside {site : Bytes} (hplace : Lexes source input) (h : BrokenComment input error)
    (hsite : site <:+ input) : Outside source site := by
  rintro place next hlexes hnext ⟨hinside, -⟩
  rcases hplace.total hlexes with hbehind | hahead
  · rcases ReflTransGen.cases_head hbehind with rfl | ⟨_, hstep, -⟩
    · exact h.not_lexeme hnext
    · exact h.not_lexeme hstep
  · rcases ReflTransGen.cases_head hahead with rfl | ⟨next', hnext', hmore⟩
    · exact h.not_lexeme hnext
    · obtain rfl := hnext.unique hnext'
      have hle := hsite.length_le.trans (Lexes.suffix hmore).length_le
      exact Nat.not_lt.2 hle hinside

/-- The place at which the error of a broken comment starts. -/
theorem site [Runtime] (h : BrokenComment input error) :
    ∃ site, site <:+ input ∧ site.length = error.start := by
  obtain ⟨site, hsite, hdefect⟩ := h.defect
  exact ⟨site, hsite, hdefect.start_eq.symm⟩

end BrokenComment

theorem Defect.stop_le_start [Runtime] {site : Bytes} {error : SyntaxError Mark}
    (h : Defect site error) : error.stop ≤ error.start := by
  obtain ⟨rest, ⟨before, rfl, -⟩, hstop⟩ := h.anchored_stop
  rw [h.start_eq, ← hstop, List.length_append]
  exact Nat.le_add_left _ _

namespace Failure

variable [Runtime] {source : Bytes} {error : SyntaxError Mark}

theorem within (h : Failure source error) :
    error.stop ≤ error.start ∧ error.start ≤ source.length := by
  obtain ⟨site, hsite, hdefect⟩ := h.defect
  refine ⟨hdefect.stop_le_start, ?_⟩
  rw [hdefect.start_eq]
  exact hsite.length_le

theorem outside (h : Failure source error) :
    Outside source (source.drop (source.length - error.start)) := by
  have hdrop : ∀ {site : Bytes}, site <:+ source → site.length = error.start →
      Outside source site → Outside source (source.drop (source.length - error.start)) := by
    intro site hsite hstart houtside
    rw [← hstart, ← List.suffix_iff_eq_drop.1 hsite]
    exact houtside
  cases h with
  | flaw hflaw =>
    cases hflaw with
    | comment hplace hbroken =>
      obtain ⟨site, hsite, hstart⟩ := hbroken.site
      exact hdrop (hsite.trans hplace.suffix) hstart (hbroken.outside hplace hsite)
    | construct hentry hdefect =>
      exact hdrop hentry.lexes.suffix hdefect.start_eq.symm hentry.lexes.outside
  | rule _ _ hlexes _ hdefect =>
    exact hdrop hlexes.suffix hdefect.start_eq.symm hlexes.outside

end Failure

/-! ### Errors of structure -/

section

variable {options : Options} {source : Bytes} {error : SyntaxError Position}

theorem parse_failure [Runtime] (h : parse options source = .error error) :
    ∃ found, Failure source found ∧
      error = found.map (Cursor.positionAt { source, options }) := by
  obtain ⟨found, hresult, hfound⟩ := parse_eq_error h
  exact ⟨found, failure_of_document hresult, hfound⟩

theorem drop_offset {rest : Bytes} (h : rest <:+ source) :
    source.drop (Cursor.positionAt { source, options } rest.length).offset = rest := by
  rw [offset_positionAt]
  exact (List.suffix_iff_eq_drop.1 h).symm

/-- An error starts at the place of its defect. -/
theorem Defect.drop_start [Runtime] {place : Bytes} {found : SyntaxError Mark}
    (h : Defect place found) (hplace : Lexes source place) :
    source.drop (Cursor.positionAt { source, options } found.start).offset = place := by
  rw [h.start_eq]
  exact drop_offset hplace.suffix

theorem offset_ahead {place : Mark} (count : Nat) (h : place + count ≤ source.length) :
    (Cursor.positionAt { source, options } place).offset =
      (Cursor.positionAt { source, options } (place + count)).offset + count := by
  rw [offset_positionAt, offset_positionAt, Nat.sub_add_eq, Nat.sub_add_cancel]
  exact Nat.le_sub_of_add_le' h

section

attribute [local instance] Runtime.usual

end

/-! ### Errors of lexemes -/

/-- From the opening symbol on a comment stays open to the end, with no empty one in it. -/
theorem Descends.never_closed {inside : Bytes} (h : Descends inside []) :
    ∀ place, Leads ⟨1, inside⟩ place → 0 < place.depth ∧ ¬OpensEmpty place.rest := by
  obtain ⟨depth, hleads, hmeets⟩ := h.leads 0
  intro place hplace
  have hdepth := hleads.positive (fun _ => Counts.not_nil) (Nat.succ_pos depth) hplace
  refine ⟨hdepth, ?_⟩
  intro hempty
  exact (hmeets ⟨place, hplace, hdepth, hempty⟩).not_nil

/-- An error in a lexeme starts where the lexeme opens, which is inside no other one that is
complete.  An unterminated lexeme goes on to the end of the source without the symbol that
would close it; an empty comment is met as an opening symbol, by itself or in a comment
that is open there; an empty terminal has nothing between its quotes, and an invalid byte
of a terminal is the first one in it that is not printable, and the digits that the message
shows are its value. -/
theorem lexical_error_exact [Runtime] (h : parse options source = .error error) :
    let site := source.drop error.start.offset
    let rest := source.drop error.stop.offset
    Outside source site ∧
    match error.cause with
    | .unterminatedComment =>
      ∃ inside, site = leftParenthesis :: asterisk :: inside ∧ Lexes source site ∧
        inside.head? ≠ some rightParenthesis ∧
        (∀ place, Leads ⟨1, inside⟩ place → 0 < place.depth ∧ ¬OpensEmpty place.rest) ∧
        error.stop.offset = source.length
    | .emptyComment =>
      OpensEmpty site ∧
      (Lexes source site ∨ ∃ inside depth, Lexes source (leftParenthesis :: asterisk :: inside) ∧
        Leads ⟨1, inside⟩ ⟨depth + 1, site⟩) ∧
      error.stop.offset = error.start.offset + 1
    | .unterminatedSpecial =>
      ∃ interior, site = questionMark :: interior ∧ questionMark ∉ interior ∧
        Lexes source site ∧ error.stop.offset = source.length
    | .emptyTerminal =>
      ∃ quote more, (quote = apostrophe ∨ quote = quotationMark) ∧
        site = quote :: quote :: more ∧ Lexes source site ∧
        error.stop.offset = error.start.offset + 2
    | .unterminatedTerminal =>
      ∃ quote content, (quote = apostrophe ∨ quote = quotationMark) ∧
        site = quote :: content ∧ (∀ b ∈ content, isTerminal quote b) ∧ Lexes source site ∧
        error.stop.offset = source.length
    | .invalidTerminalByte b =>
      ∃ quote content, (quote = apostrophe ∨ quote = quotationMark) ∧
        site = quote :: (content ++ rest) ∧ (∀ c ∈ content, isTerminal quote c) ∧
        rest.head? = some b ∧ ¬isPrintable b ∧ Lexes source site ∧
        error.report.text = "Invalid character 0x" ++ hex b ++ " in terminal string" ∧
        ShowsByte (hex b) b
    | _ => True := by
  obtain ⟨found, hfailure, rfl⟩ := parse_failure h
  intro site rest
  have hoffset : ∀ place, (Cursor.positionAt { source, options } place).offset =
      source.length - place := offset_positionAt
  refine ⟨?_, ?_⟩
  · have houtside := hfailure.outside
    rwa [← hoffset] at houtside
  cases hfailure with
  | flaw hflaw =>
    cases hflaw with
    | comment hplace hbroken =>
      cases hbroken with
      | empty hempty =>
        have hsite : site = _ := drop_offset hplace.suffix
        have hopens : OpensEmpty site := opensEmpty_iff.2 ⟨_, hsite, hempty⟩
        exact ⟨hopens, .inl (hsite ▸ hplace), offset_ahead 1 hplace.suffix.length_le⟩
      | stopped hnonempty hinside hfault =>
        cases hfault with
        | empty hempty =>
          have hsuffix := (hinside.suffix.trans (suffix_cons_cons _ _ _)).trans hplace.suffix
          have hsite : site = _ := drop_offset hsuffix
          have hopens : OpensEmpty site := opensEmpty_iff.2 ⟨_, hsite, hempty⟩
          obtain ⟨depth, hleads, -⟩ := hinside.leads 0
          exact ⟨hopens, .inr ⟨_, depth, hplace, hsite ▸ hleads⟩,
            offset_ahead 1 hsuffix.length_le⟩
        | ends =>
          have hsite : site = _ := drop_offset hplace.suffix
          exact ⟨_, hsite, hsite ▸ hplace, hnonempty, hinside.never_closed, hoffset 0⟩
    | construct hentry hdefect hlevel =>
      have hplace := hentry.lexes
      have hsite : site = _ := hdefect.drop_start hplace
      cases hdefect with
      | unterminatedSpecial hinterior =>
        exact ⟨_, hsite, hinterior, hsite ▸ hplace, hoffset 0⟩
      | emptyTerminal hquote =>
        exact ⟨_, _, hquote, hsite, hsite ▸ hplace, offset_ahead 2 hplace.suffix.length_le⟩
      | unterminatedTerminal hquote hcontent =>
        exact ⟨_, _, hquote, hsite, hcontent, hsite ▸ hplace, hoffset 0⟩
      | @invalidTerminalByte quote content b input more hquote hcontent hbyte hinput =>
        subst hinput
        have hstop : b :: more <:+ quote :: (content ++ b :: more) :=
          (List.suffix_append _ _).trans (List.suffix_cons _ _)
        have hrest : rest = b :: more := drop_offset (hstop.trans hplace.suffix)
        rw [← hrest] at hsite
        rw [← hrest, ← hsite] at hplace
        exact ⟨_, _, hquote, hsite, hcontent, by rw [hrest]; rfl, hbyte, hplace, rfl,
          hex_shows b⟩
      | emptyComment => cases hlevel
      | unterminatedComment => cases hlevel
      | _ => trivial
  | rule _ _ _ _ hdefect hlevel =>
    cases hdefect with
    | missingName => trivial
    | missingDefiningSymbol => trivial
    | missingTerminator => trivial
    | _ => cases hlevel

/-- A whole comment, and then an empty one in a comment that is open. -/
def emptyInsideSource : Bytes :=
  [0x61, 0x3D, 0x28, 0x2A, 0x78, 0x2A, 0x29, 0x28, 0x2A, 0x79, 0x28, 0x2A, 0x29]

def emptyInsideError : SyntaxError Position :=
  ⟨.emptyComment, ⟨10, 0, 10⟩, ⟨11, 0, 11⟩⟩

attribute [local instance] Runtime.usual

theorem lexical_error_emptyInsideSource :
    parse {} emptyInsideSource = .error emptyInsideError ∧
    Outside emptyInsideSource (emptyInsideSource.drop 10) ∧
    OpensEmpty (emptyInsideSource.drop 10) := by
  have hparse : parse {} emptyInsideSource = .error emptyInsideError := by decide +kernel
  obtain ⟨houtside, hopens, -⟩ := lexical_error_exact hparse
  exact ⟨hparse, houtside, hopens⟩

end

end Ebnf
