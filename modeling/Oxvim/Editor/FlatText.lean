import Oxvim.Editor.BufferState
import Oxvim.Lib.LinePositions
import Oxvim.Text.Marks

/-!
# The text of a buffer as one byte string

Motions and text objects join the lines with newlines and turn the offset they find into a position
again. The offset of a newline becomes the last column of its line.
-/

namespace Oxvim.Editor

open Lib Lib.Lines Text

/-- The offsets at which lines begin, the first of them at `offset`. -/
def lineStarts (offset : Nat) : List Line → List Nat
  | [] => []
  | line :: lines => offset :: lineStarts (offset + line.length + 1) lines

/-- The joined lines, and where each of them begins. -/
def flatten (lines : List Line) : List UInt8 × List Nat :=
  (joined '\n'.toUInt8 lines, lineStarts 0 lines)

/-- The offset of a position, its column where there is no such line. The source saturates the sum,
which no text is long enough for. -/
def offsetOf (starts : List Nat) (pos : Position) : Nat :=
  match starts[pos.lnum - 1]? with
  | some start => start + pos.col
  | none => pos.col

/-- The position of an offset, `partition_point` being the number of lines that begin at or before it. -/
def posOf (lines : List Line) (starts : List Nat) (offset : Nat) : Position :=
  let line := (starts.takeWhile (· ≤ offset)).length - 1
  ⟨line + 1, min (offset - starts.getD line 0) ((lines.getD line []).length - 1)⟩

/-! ## Places -/

/-- The offset lies in the line behind `before`, at a column that is the length of the line for the
newline behind it. -/
structure Place (lines : List Line) (offset : Nat) (before : List Line) (line : Line)
    (after : List Line) (col : Nat) : Prop where
  split : lines = before ++ line :: after
  offset_eq : offset = size before + col
  col_le : col ≤ line.length

theorem lineStarts_append (offset : Nat) (before after : List Line) :
    lineStarts offset (before ++ after)
      = lineStarts offset before ++ lineStarts (offset + size before) after := by
  induction before generalizing offset with
  | nil => rfl
  | cons line before ih =>
    rw [List.cons_append, lineStarts, lineStarts, ih, size_cons, List.cons_append]
    congr 3
    omega

theorem length_lineStarts (offset : Nat) (lines : List Line) :
    (lineStarts offset lines).length = lines.length := by
  induction lines generalizing offset with
  | nil => rfl
  | cons line lines ih => rw [lineStarts, List.length_cons, ih, List.length_cons]

theorem lineStarts_le {offset : Nat} {lines : List Line} {start : Nat}
    (h : start ∈ lineStarts offset lines) : offset ≤ start := by
  induction lines generalizing offset with
  | nil => cases h
  | cons line lines ih =>
    rw [lineStarts, List.mem_cons] at h
    rcases h with rfl | h
    · exact le_rfl
    · have := ih h
      omega

theorem lineStarts_lt {offset : Nat} {lines : List Line} {start : Nat}
    (h : start ∈ lineStarts offset lines) : start < offset + size lines := by
  induction lines generalizing offset with
  | nil => cases h
  | cons line lines ih =>
    rw [lineStarts, List.mem_cons] at h
    rw [size_cons]
    rcases h with rfl | h
    · omega
    · have := ih h
      omega

theorem getElem?_lineStarts {before after : List Line} {line : Line} :
    (lineStarts 0 (before ++ line :: after))[before.length]? = some (size before) := by
  rw [lineStarts_append, Nat.zero_add]
  have hlength := length_lineStarts 0 before
  rw [List.getElem?_append_right (by omega), hlength, Nat.sub_self]
  rfl

theorem length_joined {lines : List Line} (h : lines ≠ []) :
    (joined '\n'.toUInt8 lines).length + 1 = size lines := by
  induction lines with
  | nil => exact absurd rfl h
  | cons line lines ih =>
    cases lines with
    | nil => rfl
    | cons next lines =>
      have hrest := ih (List.cons_ne_nil _ _)
      rw [joined_cons (List.cons_ne_nil _ _), List.length_append, List.length_cons, size_cons]
      omega

/-- Every offset in the text has a place. -/
theorem exists_place {lines : List Line} {offset : Nat} (h : offset < size lines) :
    ∃ before line after col, Place lines offset before line after col := by
  induction lines generalizing offset with
  | nil => cases h
  | cons line lines ih =>
    rw [size_cons] at h
    by_cases hline : offset ≤ line.length
    · exact ⟨[], line, lines, offset, rfl, by simp, hline⟩
    · have hlt : offset - (line.length + 1) < size lines := by omega
      obtain ⟨before, line', after, col, rfl, hoffset, hcol⟩ := ih hlt
      refine ⟨line :: before, line', after, col, rfl, ?_, hcol⟩
      rw [size_cons]
      omega

namespace Place

variable {lines before after : List Line} {line : Line} {offset col : Nat}

theorem ne_nil (h : Place lines offset before line after col) : lines ≠ [] := by
  rw [h.split]
  simp

/-- The lines that begin at or before the offset are those up to its own. -/
theorem starts (h : Place lines offset before line after col) :
    ((lineStarts 0 lines).takeWhile (· ≤ offset)).length = before.length + 1 := by
  obtain ⟨rfl, rfl, hcol⟩ := h
  rw [lineStarts_append, Nat.zero_add, List.takeWhile_append_of_pos, lineStarts,
    List.takeWhile_cons_of_pos (by simp)]
  · have hnext : (lineStarts (size before + line.length + 1) after).takeWhile
        (· ≤ size before + col) = [] := by
      rw [List.takeWhile_eq_nil_iff]
      intro hne hle
      have hmem := lineStarts_le (List.getElem_mem hne)
      simp at hle
      omega
    rw [hnext, List.length_append, length_lineStarts]
    rfl
  · intro start hstart
    have hlt := lineStarts_lt hstart
    simp
    omega

theorem posOf_eq (h : Place lines offset before line after col) :
    posOf lines (flatten lines).2 offset = ⟨before.length + 1, min col (line.length - 1)⟩ := by
  have hstarts := h.starts
  obtain ⟨rfl, rfl, hcol⟩ := h
  have hstart : (lineStarts 0 (before ++ line :: after)).getD before.length 0 = size before := by
    rw [List.getD_eq_getElem?_getD, getElem?_lineStarts]
    rfl
  have hline : (before ++ line :: after).getD before.length [] = line := by
    rw [List.getD_eq_getElem?_getD, List.getElem?_append_right le_rfl, Nat.sub_self]
    rfl
  unfold posOf flatten
  dsimp only
  rw [hstarts, Nat.add_sub_cancel, hstart, hline, Nat.add_sub_cancel_left]

/-- The byte at a place, which is a newline behind the line. -/
theorem getElem? (h : Place lines offset before line after col) :
    (joined '\n'.toUInt8 lines)[offset]? =
      if col < line.length then (line)[col]? else if after = [] then none else some '\n'.toUInt8 := by
  obtain ⟨rfl, rfl, hcol⟩ := h
  induction before with
  | nil =>
    rw [List.nil_append, size_nil, Nat.zero_add]
    cases after with
    | nil =>
      rw [joined_singleton]
      rw [if_pos rfl]
      split_ifs with hlt
      · rfl
      · rw [List.getElem?_eq_none (by omega)]
    | cons next after =>
      rw [joined_cons (List.cons_ne_nil _ _)]
      split_ifs with hlt hafter
      · rw [List.getElem?_append_left hlt]
      · cases hafter
      · rw [List.getElem?_append_right (by omega)]
        have hzero : col - line.length = 0 := by omega
        rw [hzero]
        rfl
  | cons first before ih =>
    rw [List.cons_append, joined_cons (by simp), size_cons,
      List.getElem?_append_right (by omega)]
    have hindex : first.length + 1 + size before + col - first.length = size before + col + 1 := by
      omega
    rw [hindex, List.getElem?_cons_succ]
    exact ih

end Place

/-- The offset of a position in its line. -/
theorem offsetOf_eq {before after : List Line} {line : Line} (col : Nat) :
    offsetOf (flatten (before ++ line :: after)).2 ⟨before.length + 1, col⟩ = size before + col := by
  unfold offsetOf flatten
  dsimp only
  rw [Nat.add_sub_cancel, getElem?_lineStarts]

/-! ## Positions of bytes -/

/-- The line of a number, the first of them being 1. -/
def lineAt? (lines : List Line) (lnum : Nat) : Option Line :=
  if lnum = 0 then none else lines[lnum - 1]?

def byteAt? (lines : List Line) (pos : Position) : Option UInt8 :=
  (lineAt? lines pos.lnum).bind fun line => (line)[pos.col]?

@[simp] theorem lineAt?_append {before after : List Line} {line : Line} :
    lineAt? (before ++ line :: after) (before.length + 1) = some line := by
  unfold lineAt?
  rw [if_neg (Nat.succ_ne_zero _), Nat.add_sub_cancel, List.getElem?_append_right le_rfl,
    Nat.sub_self]
  rfl

@[simp] theorem byteAt?_append {before after : List Line} {line : Line} {col : Nat} :
    byteAt? (before ++ line :: after) ⟨before.length + 1, col⟩ = (line)[col]? := by
  unfold byteAt?
  rw [lineAt?_append, Option.bind_some]

theorem byteAt?_eq_some_iff {lines : List Line} {pos : Position} {byte : UInt8} :
    byteAt? lines pos = some byte ↔ ∃ before line after, lines = before ++ line :: after ∧
      pos.lnum = before.length + 1 ∧ (line)[pos.col]? = some byte := by
  unfold byteAt? lineAt?
  rw [Option.bind_eq_some_iff]
  constructor
  · rintro ⟨line, hline, hbyte⟩
    split_ifs at hline with hzero
    obtain ⟨hlt, hget⟩ := List.getElem?_eq_some_iff.mp hline
    refine ⟨lines.take (pos.lnum - 1), line, lines.drop (pos.lnum - 1 + 1), ?_, ?_, hbyte⟩
    · rw [← hget, ← List.drop_eq_getElem_cons hlt, List.take_append_drop]
    · rw [List.length_take]
      omega
  · rintro ⟨before, line, after, rfl, hlnum, hbyte⟩
    refine ⟨line, ?_, hbyte⟩
    rw [hlnum]
    exact lineAt?_append

/-- The offset of the position of a byte is one of this byte, and leads back to the position. -/
theorem offsetOf_of_byteAt? {lines : List Line} {pos : Position} {byte : UInt8}
    (h : byteAt? lines pos = some byte) :
    (flatten lines).1[offsetOf (flatten lines).2 pos]? = some byte ∧
      posOf lines (flatten lines).2 (offsetOf (flatten lines).2 pos) = pos := by
  obtain ⟨before, line, after, rfl, hlnum, hbyte⟩ := byteAt?_eq_some_iff.mp h
  obtain ⟨lnum, col⟩ := pos
  obtain rfl : lnum = before.length + 1 := hlnum
  have hlt := (List.getElem?_eq_some_iff.mp hbyte).1
  dsimp only at hlt hbyte
  have hplace : Place (before ++ line :: after) (size before + col) before line after col :=
    ⟨rfl, rfl, hlt.le⟩
  rw [offsetOf_eq, hplace.posOf_eq, min_eq_left (by omega)]
  refine ⟨?_, rfl⟩
  unfold flatten
  rw [hplace.getElem?, if_pos hlt, hbyte]

/-- A byte other than a newline is at the position of its offset. -/
theorem byteAt?_posOf {lines : List Line} {offset : Nat} {byte : UInt8}
    (h : (flatten lines).1[offset]? = some byte) (hbyte : byte ≠ '\n'.toUInt8) :
    byteAt? lines (posOf lines (flatten lines).2 offset) = some byte ∧
      offsetOf (flatten lines).2 (posOf lines (flatten lines).2 offset) = offset := by
  have hne : lines ≠ [] := by
    rintro rfl
    simp [flatten, joined] at h
  have hsize : offset < size lines := by
    have hlt := (List.getElem?_eq_some_iff.mp h).1
    have hlength := length_joined hne
    unfold flatten at hlt
    dsimp only at hlt
    omega
  obtain ⟨before, line, after, col, hplace⟩ := exists_place hsize
  have hget := hplace.getElem?
  unfold flatten at h
  rw [h] at hget
  -- Behind its line there is a newline or the end of the text.
  have hcol : col < line.length := by
    by_contra hcol
    rw [if_neg hcol] at hget
    split_ifs at hget
    exact hbyte (Option.some.inj hget)
  rw [if_pos hcol] at hget
  rw [hplace.posOf_eq, min_eq_left (by omega)]
  obtain ⟨rfl, rfl, -⟩ := hplace
  exact ⟨byteAt?_eq_some_iff.mpr ⟨before, line, after, rfl, rfl, hget.symm⟩, offsetOf_eq col⟩

end Oxvim.Editor
