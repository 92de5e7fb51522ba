import Ebnf.Proofs.Parsing.Positions
import Ebnf.Report

/-!
# Vertical breaks only change lines

A parser has the options in its cursor, which counts lines by them while it moves and goes
back to columns that were counted so.  Whatever the options are, the parser does what the
readers do on the same bytes, and these know of no lines.  So two parses of a source with
either option agree in everything but lines and columns, and a line with the breaks is ahead
of the one without them by the number of VT and FF bytes before it.
-/

namespace Ebnf

open Byte Reader

def isVertical (b : UInt8) : Bool :=
  b == verticalTab || b == formFeed

/-- The number of VT and FF bytes. -/
def verticals (bytes : Bytes) : Nat :=
  bytes.countP isVertical

def withBreaks : Options := { verticalBreaks := true }

def withoutBreaks : Options := { verticalBreaks := false }

/-- The line numbers of two positions at one offset differ by the VT and FF bytes before
it. -/
structure LinesApart (source : Bytes) (plain broken : Position) : Prop where
  offset : broken.offset = plain.offset
  line : broken.line = plain.line + verticals (source.take plain.offset)

/-! ### Counting lines -/

theorem isBreak_withBreaks (b : UInt8) :
    withBreaks.isBreak b = (endsLine b || isVertical b) := rfl

theorem isBreak_withoutBreaks (b : UInt8) : withoutBreaks.isBreak b = endsLine b := by
  simp [Options.isBreak, withoutBreaks]

theorem isVertical_of_endsLine {b : UInt8} (h : endsLine b) : ¬isVertical b := by
  simp only [endsLine, Bool.or_eq_true, beq_iff_eq] at h
  rcases h with rfl | rfl <;> decide

theorem line_pass (b : UInt8) {plain broken : Position} {count : Nat}
    (h : broken.line = plain.line + count) :
    (broken.pass withBreaks b).line =
      (plain.pass withoutBreaks b).line + ↑(count + verticals [b]) := by
  unfold Position.pass
  rw [isBreak_withBreaks, isBreak_withoutBreaks]
  by_cases hends : endsLine b
  · have hcount : verticals [b] = 0 := by
      simp [verticals, isVertical_of_endsLine hends]
    rw [if_pos hends, if_pos (by simp [hends]), hcount]
    simp only [Position.newLine, h]
    omega
  · rw [if_neg hends]
    by_cases hvertical : isVertical b
    · have hcount : verticals [b] = 1 := by simp [verticals, hvertical]
      rw [if_pos (by simp [hvertical]), hcount]
      simp only [Position.newLine, Position.step, h]
      omega
    · have hcount : verticals [b] = 0 := by simp [verticals, hvertical]
      rw [if_neg (by simp [hends, hvertical]), hcount]
      simp only [Position.step, h]
      omega

/-- Over a stretch of bytes the lines come apart by the VT and FF bytes in it. -/
theorem line_after (bytes : Bytes) {plain broken : Position} {count : Nat}
    (h : broken.line = plain.line + count) :
    (broken.after withBreaks bytes).line =
      (plain.after withoutBreaks bytes).line + ↑(count + verticals bytes) := by
  fun_induction Position.after withoutBreaks bytes plain generalizing broken count with
  | case1 plain => exact h
  | case2 rest plain ih =>
    have hpair : broken.step.newLine.line = plain.step.newLine.line + count := by
      simp only [Position.newLine, Position.step, h]
      omega
    have hcount : verticals (carriageReturn :: lineFeed :: rest) = verticals rest := by
      simp +decide [verticals, isVertical]
    change (broken.step.newLine.after withBreaks rest).line =
      (plain.step.newLine.after withoutBreaks rest).line +
        ↑(count + verticals (carriageReturn :: lineFeed :: rest))
    rw [hcount]
    exact ih hpair
  | case3 b rest plain hpair ih =>
    have hcount : verticals (b :: rest) = verticals [b] + verticals rest := by
      rw [← List.singleton_append]
      exact List.countP_append
    rw [Position.after, hcount, ← Nat.add_assoc]
    · exact ih (line_pass b h)
    · exact hpair

/-! ### Parses -/

theorem linesApart_positionAt (source : Bytes) (place : Mark) :
    LinesApart source (Cursor.positionAt { source, options := withoutBreaks } place)
      (Cursor.positionAt { source, options := withBreaks } place) where
  offset := by rw [offset_positionAt, offset_positionAt]
  line := by
    rw [offset_positionAt, positionAt_eq, positionAt_eq]
    have hstart : Position.origin.line = Position.origin.line + ((0 : Nat) : Int) := by simp
    have hline := line_after (source.take (source.length - place)) hstart
    rwa [Nat.zero_add] at hline

/-- What is left of a span without lines and columns. -/
def Span.erase (span : Span) : Nat × Nat :=
  (span.start.offset, span.length)

/-- With and without vertical breaks a source is parsed to the same tree and the same
comments, or to the same error, but for lines and columns, or the same digits are refused;
and each line with the breaks is ahead of its counterpart by the number of VT and FF bytes
before it. -/
theorem parse_verticalBreaks [Runtime] (source : Bytes) :
    match parse withoutBreaks source, parse withBreaks source with
    | .ok plain, .ok broken =>
      broken.map Span.erase Position.offset = plain.map Span.erase Position.offset ∧
        List.Forall₂ (fun m n => LinesApart source m.note.start n.note.start)
          plain.nodes broken.nodes ∧
        List.Forall₂ (fun k l => LinesApart source k.start l.start)
          plain.comments broken.comments
    | .error (.syntaxError plain), .error (.syntaxError broken) =>
      broken.map Position.offset = plain.map Position.offset ∧
        (broken.report.kind = plain.report.kind ∧ broken.report.text = plain.report.text ∧
          broken.report.ruleName = plain.report.ruleName) ∧
        LinesApart source plain.start broken.start ∧ LinesApart source plain.stop broken.stop
    | .error (.refusal digits plain), .error (.refusal digits' broken) =>
      digits' = digits ∧ LinesApart source plain broken
    | _, _ => False := by
  rw [parse_eq, parse_eq]
  have hapart := linesApart_positionAt source
  cases (document source).result with
  | error fault =>
    cases fault with
    | syntaxError error =>
      refine ⟨?_, ⟨rfl, rfl, rfl⟩, hapart error.start, hapart error.stop⟩
      simp only [SyntaxError.map, (hapart _).offset]
    | refusal digits stop => exact ⟨rfl, hapart stop⟩
  | ok g =>
    simp only
    refine ⟨?_, ?_, ?_⟩
    · rw [Grammar.map_map, Grammar.map_map]
      congr 1
      · funext extent
        exact congrArg (·, extent.start - extent.stop) (hapart extent.start).offset
      · funext place
        exact (hapart place).offset
    · rw [Grammar.nodes_map, Grammar.nodes_map, List.forall₂_map_left_iff,
        List.forall₂_map_right_iff, List.forall₂_same]
      intro n _
      rw [Node.note_map, Node.note_map]
      exact hapart n.note.start
    · simp only [Grammar.map]
      rw [List.forall₂_map_left_iff, List.forall₂_map_right_iff, List.forall₂_same]
      intro k _
      exact hapart k.start

end Ebnf
