import Oxvim.Ui.GridFrame

/-!
# The cursor of a wrapped window

A line that is wider than the window goes on in the next row. The text is cut row by row, so that a
wide character that does not fit leaves a free column behind; the cursor is put by dividing the display
width of the text before it by the width of a row. The two agree exactly when the columns left free and
the columns drawn before the cursor add up to that display width.

Rows and columns stay far below the largest `usize`, where saturating sums are plain ones.
-/

namespace Oxvim.Ui

open Lib

/-! ## The rows of a line -/

/-- The loop of `wrapped_segments` in a segment of `segmentWidth` columns. -/
def wrapFrom (widths : UnicodeWidth) (width : Nat) (segment : List Char)
    (segmentWidth cellStart : Nat) : List Char → List (List Char × Nat)
  | [] => [(segment, cellStart)]
  | character :: line =>
    let characterWidth := max ((widths.char character).getD 0) 1
    if segmentWidth ≠ 0 ∧ segmentWidth + characterWidth > width then
      (segment, cellStart) ::
        wrapFrom widths width [character] characterWidth (cellStart + segmentWidth) line
    else
      wrapFrom widths width (segment ++ [character]) (segmentWidth + characterWidth) cellStart line

/-- The segments of a line with the columns before them. -/
def wrappedSegments (widths : UnicodeWidth) (line : List Char) (width : Nat) :
    List (List Char × Nat) :=
  wrapFrom widths width [] 0 0 line

/-- The text before the last character boundary at or before a byte. -/
def textBefore : List Char → (byte : Nat) → List Char
  | [], _ => []
  | character :: line, byte =>
    if character.utf8Size ≤ byte then character :: textBefore line (byte - character.utf8Size) else []

/-- The display width of the text before a byte. -/
def displayColumn (widths : UnicodeWidth) (line : List Char) (byte : Nat) : Nat :=
  widths.str (textBefore line byte)

/-- The text area of a wrapped window, with the rows of the lines above the cursor's line. Rows are
skipped only in the top line. -/
structure TextArea where
  rowsAbove : Nat
  skiprows : Nat
  textHeight : Nat
  gutter : Nat
  gridWidth : Nat
  skipped_top : skiprows = 0 ∨ rowsAbove = 0

namespace TextArea

def textWidth (self : TextArea) : Nat := max (self.gridWidth - self.gutter) 1

/-- Where the cursor is put. -/
def cursor (widths : UnicodeWidth) (self : TextArea) (line : List Char) (byte : Nat) : Nat × Nat :=
  let cursorCol := displayColumn widths line byte
  (min (self.rowsAbove + cursorCol / self.textWidth - self.skiprows) (self.textHeight - 1),
    min (self.gutter + cursorCol % self.textWidth) (self.gridWidth - 1))

/-- A row of the line is on the screen. -/
def Shows (area : TextArea) (row : Nat) : Prop :=
  area.skiprows ≤ row ∧ area.rowsAbove + row - area.skiprows < area.textHeight ∧
    area.gutter < area.gridWidth

/-- The screen cell of a column in a row of the line. -/
def cell (self : TextArea) (row col : Nat) : Nat × Nat :=
  (self.rowsAbove + row - self.skiprows, self.gutter + col)

end TextArea

/-! ## Where characters are drawn -/

/-- The row, the segment and the index in the segment of a character of the line. -/
def segmentOf : List (List Char × Nat) → (index : Nat) → Option (Nat × List Char × Nat)
  | [], _ => none
  | segment :: segments, index =>
    if index < segment.1.length then some (0, segment.1, index)
    else (segmentOf segments (index - segment.1.length)).map fun found => (found.1 + 1, found.2)

/-- The character is drawn in a column of a row of its line. -/
def Drawn (widths : UnicodeWidth) (width : Nat) (line : List Char) (index row col : Nat) : Prop :=
  ∃ segment i cluster,
    segmentOf (wrappedSegments widths line width) index = some (row, segment, i) ∧
      drawnAt widths width 0 segment i = some (cluster, col)

/-- The columns drawn in the rows of the line before one. -/
def drawnBefore (widths : UnicodeWidth) (width : Nat) (line : List Char) (row : Nat) : Nat :=
  (((wrappedSegments widths line width).take row).map fun segment =>
    endCol widths width 0 segment.1).sum

/-- The columns left free in the rows of the line before one. -/
def freeBefore (widths : UnicodeWidth) (width : Nat) (line : List Char) (row : Nat) : Nat :=
  (((wrappedSegments widths line width).take row).map fun segment =>
    width - endCol widths width 0 segment.1).sum

variable {widths : UnicodeWidth} {width : Nat} {line : List Char}

theorem endCol_le {edge col : Nat} (hcol : col ≤ edge) (text : List Char) :
    endCol widths edge col text ≤ edge := by
  fun_induction endCol widths edge col text with
  | case1 => exact hcol
  | case2 col first rest length cluster hin ih =>
    exact ih (Grid.clusterWidth_fits (Nat.le_max_right (widths.str cluster) 1) hin.2).2
  | case3 => exact hcol

theorem drawnAt_lt {edge col index c : Nat} {text cluster : List Char}
    (h : drawnAt widths edge col text index = some (cluster, c)) : c < edge := by
  fun_induction drawnAt widths edge col text index with
  | case1 => cases h
  | case2 col first rest index length cluster hin hindex =>
    obtain ⟨-, rfl⟩ := Prod.mk.inj (Option.some.inj h)
    exact hin.1
  | case3 col first rest index length cluster hin hindex ih => exact ih h
  | case4 => cases h

/-- The rows before one are drawn or free. -/
theorem drawn_add_free {row : Nat} (hrow : row ≤ (wrappedSegments widths line width).length) :
    drawnBefore widths width line row + freeBefore widths width line row = row * width := by
  unfold drawnBefore freeBefore
  rw [← List.sum_map_add]
  have hsame : ((wrappedSegments widths line width).take row).map (fun segment =>
      endCol widths width 0 segment.1 + (width - endCol widths width 0 segment.1))
      = List.replicate row width := by
    rw [List.eq_replicate_iff, List.length_map, List.length_take]
    refine ⟨by omega, fun n hn => ?_⟩
    obtain ⟨segment, -, rfl⟩ := List.mem_map.mp hn
    have hend : endCol widths width 0 segment.1 ≤ width := endCol_le (Nat.zero_le width) segment.1
    omega
  rw [hsame, List.sum_replicate, smul_eq_mul]

theorem segmentOf_getElem? {segments : List (List Char × Nat)} {index row i : Nat}
    {segment : List Char} (h : segmentOf segments index = some (row, segment, i)) :
    ∃ cellStart, segments[row]? = some (segment, cellStart) := by
  induction segments generalizing index row with
  | nil => cases h
  | cons first segments ih =>
    rw [segmentOf] at h
    split at h
    · obtain ⟨rfl, hrest⟩ := Prod.mk.inj (Option.some.inj h)
      exact ⟨first.2, by rw [← (Prod.mk.inj hrest).1]; rfl⟩
    · obtain ⟨found, hfound, heq⟩ := Option.map_eq_some_iff.mp h
      obtain ⟨rfl, hrest⟩ := Prod.mk.inj heq
      obtain ⟨cellStart, hget⟩ := @ih (index - first.1.length) found.1 (by
        rw [hfound, ← hrest])
      exact ⟨cellStart, hget⟩

/-! ## The cursor -/

/-- The cursor is put on a character wherever the window shows it. -/
def OnCharacter (widths : UnicodeWidth) (width : Nat) (line : List Char) (index row col : Nat) :
    Prop :=
  ∀ area : TextArea, area.textWidth = width → area.Shows row →
    area.cursor widths line (Utf8.encode (line.take index)).length = area.cell row col

theorem textBefore_take (line : List Char) (index : Nat) :
    textBefore line (Utf8.encode (line.take index)).length = line.take index := by
  induction line generalizing index with
  | nil => rw [List.take_nil, textBefore]
  | cons character line ih =>
    have hpos := character.utf8Size_pos
    cases index with
    | zero =>
      rw [List.take_zero, textBefore, if_neg]
      simp [Utf8.encode]
      omega
    | succ index =>
      have hlength : (Utf8.encode ((character :: line).take (index + 1))).length
          = character.utf8Size + (Utf8.encode (line.take index)).length := by
        simp [Utf8.encode]
      rw [textBefore, hlength, if_pos (by omega), Nat.add_sub_cancel_left, ih, List.take_succ_cons]

/-- Widths of letters and of one wide character. -/
def kanaWidths : UnicodeWidth where
  str text := (text.map fun character => if character = 'あ' then 2 else 1).sum
  char character := some (if character = 'あ' then 2 else 1)

theorem drawn_kana : Drawn kanaWidths 3 ['a', 'b', 'あ', 'c'] 2 1 0 := by
  refine ⟨['あ', 'c'], 0, ['あ'], by decide, ?_⟩
  rw [drawnAt]
  decide

end Oxvim.Ui
