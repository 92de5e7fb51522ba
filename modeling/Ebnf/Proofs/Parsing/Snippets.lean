import Ebnf.Proofs.Parsing.Positions
import Ebnf.Proofs.Position.Lines
import Ebnf.Report
import Ebnf.Tree.Equality

/-!
# The line that an error is shown with

A report has no line of its own: the snippet goes back from the start of the error by its
column and shows the bytes from there.  As positions are exact, this is where the line of
the line table begins.  The error never starts at a CR or LF nor at the end of the source,
because its site begins with a byte of the construct at fault, so the line goes on behind
the caret.
-/

namespace Ebnf

open Byte Reader

variable {options : Options} {source : Bytes}

section

variable [Runtime]

theorem Flaw.cause {error : SyntaxError Mark} (h : Flaw source error) :
    error.cause ≠ .missingName := by
  intro hcause
  cases h with
  | comment _ hbroken => cases hbroken with
    | empty => cases hcause
    | stopped _ _ hfault => cases hfault <;> cases hcause
  | construct _ _ hlevel =>
    rw [hcause] at hlevel
    cases hlevel

theorem Failure.site {error : SyntaxError Mark} (h : Failure source error) :
    ∃ site, site <:+ source ∧ site ≠ [] ∧ Defect site error := by
  cases h with
  | flaw hflaw =>
    obtain ⟨site, hsite, hdefect⟩ := hflaw.defect
    exact ⟨site, hsite, hdefect.ne_nil hflaw.cause, hdefect⟩
  | rule hsource _ _ hnonempty hdefect =>
    subst hsource
    exact ⟨_, List.suffix_append _ _, hnonempty, hdefect⟩

/-- The byte at which an error starts. -/
theorem exists_start_byte {error : SyntaxError Position} (h : parse options source = .error error) :
    ∃ b, source[error.start.offset]? = some b ∧ ¬endsLine b := by
  obtain ⟨found, hresult, rfl⟩ := parse_eq_error h
  obtain ⟨site, hsite, hnonempty, hdefect⟩ := (failure_of_document hresult).site
  obtain ⟨b, more, rfl⟩ := List.exists_cons_of_ne_nil hnonempty
  have hdrop : source.drop (found.map (Cursor.positionAt { source, options })).start.offset =
      b :: more := by
    simp only [SyntaxError.map, hdefect.start_eq, offset_positionAt]
    exact (List.suffix_iff_eq_drop.1 hsite).symm
  refine ⟨b, ?_, ?_⟩
  · rw [← List.head?_drop, hdrop, List.head?_cons]
  · intro hends
    exact hdefect.head_not_isBlank b rfl (isBlank_of_endsLine hends)

theorem parse_start_exact {error : SyntaxError Position} (h : parse options source = .error error) :
    Exact options source error.start := by
  obtain ⟨found, hresult, rfl⟩ := parse_eq_error h
  exact (anchored_error hresult).1.exact options

/-! ### Lines of reports -/

namespace Report

variable {report : Report}

omit [Runtime] in
theorem resolveIndex_ofNat {index : Nat} (h : index ≤ source.length) :
    source.resolveIndex index = index := by
  unfold Bytes.resolveIndex
  rw [if_neg (Int.not_lt.2 (Int.natCast_nonneg index)), Int.toNat_natCast]
  exact Nat.min_eq_right h

omit [Runtime] in
theorem bytesFrom_ofNat {index : Nat} (h : index ≤ source.length) :
    bytesFrom source index = source.drop index := by
  unfold bytesFrom
  rw [resolveIndex_ofNat h, if_neg (Int.not_lt.2 (Int.natCast_nonneg index)), List.append_nil]

omit [Runtime] in
theorem slice_ofNat {start stop : Nat} (hstart : start ≤ source.length)
    (hstop : stop ≤ source.length) :
    source.slice start stop = (source.take stop).drop start := by
  unfold Bytes.slice
  rw [resolveIndex_ofNat hstart, resolveIndex_ofNat hstop]

omit [Runtime] in
/-- The column of an exact position leads back to where its line begins. -/
theorem line?_of_exact (h : Exact options source report.start) :
    report.line? source = some
      ((source.take (lineStop source report.start.offset)).drop
        (lineBegin options source report.start.offset)) := by
  obtain ⟨hwithin, hunsplit, hagrees⟩ := h
  generalize report.start.offset = offset at hwithin hunsplit hagrees ⊢
  have hbegin : lineBegin options source offset ≤ source.length := lineBegin_le.trans hwithin
  have hstop : lineStop source offset ≤ source.length := lineStop_le hwithin
  have horder : lineBegin options source offset ≤ lineStop source offset :=
    lineBegin_le.trans le_lineStop
  have hlength : ((source.take (lineStop source offset)).drop
      (lineBegin options source offset)).length =
        lineStop source offset - lineBegin options source offset := by
    rw [List.length_drop, List.length_take_of_le hstop]
  have hnone : ¬(lineBegin options source offset : Int) < -source.length := by omega
  unfold line?
  rw [hagrees, lineStart_tablePosition]
  simp only [if_neg hnone, bytesFrom_ofNat hbegin, takeWhile_line hwithin hunsplit, hlength]
  rw [← Int.natCast_add, Nat.add_sub_cancel' horder, slice_ofNat hbegin hstop]

omit [Runtime] in
theorem caret_ofNat (column : Nat) :
    caret column = String.ofList (List.replicate column ' ') ++ "^" := rfl

omit [Runtime] in
theorem snippet?_of_exact (h : Exact options source report.start) :
    report.snippet? source = some
      (Utf8.text ((source.take (lineStop source report.start.offset)).drop
        (lineBegin options source report.start.offset)) ++ "\n" ++
      (String.ofList (List.replicate
        (report.start.offset - lineBegin options source report.start.offset) ' ') ++ "^")) := by
  have hcolumn : report.start.column =
      ↑(report.start.offset - lineBegin options source report.start.offset) := by
    rw [← column_tablePosition, ← h.agrees]
  unfold snippet?
  rw [line?_of_exact h, hcolumn, caret_ofNat]
  rfl

end Report

/-- An error is shown with the bytes of its line, from where the line begins in the line
table up to the first CR or LF that is not before the error, and with a caret under the
byte at which it starts.  Unless VT and FF break lines, these bytes are a whole line. -/
theorem snippet_exact {error : SyntaxError Position} (h : parse options source = .error error) :
    let start := error.start.offset
    let begins := lineBegin options source start
    let ends := lineStop source start
    (begins ≤ start ∧ start < ends ∧ ends ≤ source.length) ∧
    (∀ b ∈ (source.take ends).drop begins, ¬endsLine b) ∧
    error.report.snippet? source = some
      (Utf8.text ((source.take ends).drop begins) ++ "\n" ++
        (String.ofList (List.replicate (start - begins) ' ') ++ "^")) ∧
    (options.verticalBreaks = false → IsLine source begins ends) := by
  intro start begins ends
  have hexact : Exact options source error.report.start := parse_start_exact h
  obtain ⟨b, hb, hclear⟩ := exists_start_byte h
  exact ⟨⟨lineBegin_le, lt_lineStop hb hclear, lineStop_le hexact.within⟩,
    not_endsLine_of_mem_line hexact.unsplit, Report.snippet?_of_exact hexact,
    fun hplain => isLine hplain hexact.within hexact.unsplit⟩

/-- A rule, and on the next line one with a VT, a comment and a bracket that stays open. -/
def barredSource : Bytes :=
  [0x61, 0x3D, 0x62, 0x3B, 0x0D, 0x0A, 0x63, 0x3D, 0x0B, 0x28, 0x2A, 0xC3, 0xA9, 0x2A, 0x29,
    0x5B, 0x64, 0x0C, 0x3B, 0x0D, 0x65]

def barredError : SyntaxError Position :=
  ⟨.unclosedBracket .optional [leftSquareBracket], ⟨15, 2, 6⟩, ⟨18, 3, 0⟩⟩

end

section

attribute [local instance] Runtime.usual

/-- The shown line begins behind the VT and goes on over the FF up to the CR. -/
theorem snippet_barredSource :
    parse { verticalBreaks := true } barredSource = .error barredError ∧
    (9 ≤ barredError.start.offset ∧ barredError.start.offset < 19 ∧
      19 ≤ barredSource.length) ∧
    barredError.report.snippet? barredSource = some "(*é*)[d\x0c;\n      ^" := by
  have hparse : parse { verticalBreaks := true } barredSource = .error barredError := by
    decide +kernel
  obtain ⟨hbounds, -, hsnippet, -⟩ := snippet_exact hparse
  exact ⟨hparse, hbounds, hsnippet.trans (by decide +kernel)⟩

end

end Ebnf
