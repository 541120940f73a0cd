import Mathlib

/-!
# The UI grid and its lines

A grid of screen cells, row after row, and the spans of cells that are sent for it: the smallest span
of each row that has changed, or every row in full. A span is packed into `[text, hl_id?, repeat?]`
tuples: equal neighbours are counted, and a highlight that is the one before is left out.
-/

namespace Oxvim.Ui

/-- What a message to a client is made of. -/
inductive Object where
  | integer (value : Int)
  | string (text : List UInt8)
  | boolean (value : Bool)
  | array (items : List Object)

/-- A rendered screen cell. Continuation cells have an empty text and the width 0. -/
@[ext] structure Cell where
  text : List UInt8
  hlId : UInt64
  width : UInt8
  deriving DecidableEq, Repr

namespace Cell

/-- The default blank cell. -/
def blank : Cell where
  text := [0x20]
  hlId := 0
  width := 1

end Cell

/-- Dense row-major server-side screen grid. No vector holds more than `isize::MAX` elements. -/
@[ext] structure Grid where
  id : Int
  width : Nat
  height : Nat
  cells : List Cell
  wraps : List Bool
  cells_length : cells.length = width * height
  wraps_length : wraps.length = height
  cells_small : cells.length < 2 ^ 63
  wraps_small : wraps.length < 2 ^ 63

/-- A minimal changed span suitable for one `grid_line` call. -/
structure GridLine where
  row : Nat
  startCol : Nat
  cells : List Object
  wrap : Bool

/-- `i64::try_from(n).unwrap_or(i64::MAX)`. -/
def clampI64 (n : Nat) : Int :=
  if n < 2 ^ 63 then n else 2 ^ 63 - 1

/-- One tuple for each run of equal cells. -/
def encodeFrom (previousHl : Option UInt64) : List Cell → List Object
  | [] => []
  | cell :: rest =>
    let repeated := 1 + (rest.takeWhile (· = cell)).length
    let includeHl := previousHl ≠ some cell.hlId ∨ repeated > 1
    .array ([.string cell.text]
      ++ (if includeHl then [.integer (clampI64 cell.hlId.toNat)] else [])
      ++ (if repeated > 1 then [.integer (clampI64 repeated)] else []))
      :: encodeFrom (some cell.hlId) (rest.dropWhile (· = cell))
termination_by cells => cells.length
decreasing_by
  have := List.length_dropWhile_le (· = cell) rest
  rw [List.length_cons]
  omega

def encodeCells (cells : List Cell) : List Object :=
  encodeFrom none cells

namespace Grid

/-- The cells of a row, none where there is no such row. -/
def row (self : Grid) (row : Nat) : List Cell :=
  if row ≥ self.height then [] else (self.cells.drop (row * self.width)).take self.width

/-- The changed span of one row with its first and last column. -/
def changedRow (self previous : Grid) (row : Nat) (continueWrap : Bool) :
    Option (GridLine × Nat × Nat) :=
  let current := self.row row
  let old := previous.row row
  if current.isEmpty then none else
  let common := min current.length old.length
  let changed := fun col => decide (current[col]? ≠ old[col]?)
  let changedFirst := (List.range common).find? changed
    <|> if current.length > common then some common else none
  let wrapChanged := self.wraps[row]? ≠ previous.wraps[row]?
  let first := if continueWrap then some 0
    else changedFirst <|> if wrapChanged then some (current.length - 1) else none
  first.map fun first =>
    let changedLast := ((List.range' first (common - first)).reverse.find? changed).getD
      (if current.length > common then current.length - 1 else first)
    let wrap := (self.wraps[row]?).getD false
    let last := if wrap then current.length - 1 else changedLast
    (⟨row, first, encodeCells ((current.take (last + 1)).drop first), wrap⟩, first, last)

/-- `target` with the elements from `first` to `last` taken from `source`. -/
def copyRange {α : Type} (target source : List α) (first last : Nat) : List α :=
  target.mapIdx fun i a => if first ≤ i ∧ i ≤ last then (source[i]?).getD a else a

@[simp] theorem length_copyRange {α : Type} (target source : List α) (first last : Nat) :
    (copyRange target source first last).length = target.length := by
  simp [copyRange]

/-- `previous` with a span of a row and the row's wrap flag taken from `self`. -/
def syncSpan (self previous : Grid) (row first last : Nat) : Grid :=
  { previous with
    cells := copyRange previous.cells self.cells (row * self.width + first)
      (row * self.width + last)
    wraps := copyRange previous.wraps self.wraps row row
    cells_length := (length_copyRange ..).trans previous.cells_length
    wraps_length := (length_copyRange ..).trans previous.wraps_length
    cells_small := (length_copyRange ..).trans_lt previous.cells_small
    wraps_small := (length_copyRange ..).trans_lt previous.wraps_small }

/-- Goes through the rows, collects the changed spans and copies them into `previous`. -/
def syncRows (self : Grid) : (rows : List Nat) → (previous : Grid) → (continueWrap : Bool) →
    List GridLine × Grid
  | [], previous, _ => ([], previous)
  | row :: rows, previous, continueWrap =>
    match self.changedRow previous row continueWrap with
    | some (line, first, last) =>
      let (lines, synced) := self.syncRows rows (self.syncSpan previous row first last) line.wrap
      (line :: lines, synced)
    | none => self.syncRows rows previous false

/-- The changed spans against `previous`, and `previous` as it is left: the same-geometry path. -/
def diffAndSync (self previous : Grid) : List GridLine × Grid :=
  self.syncRows (List.range self.height) previous false

/-- The line of a whole row, none where the row is empty. -/
def fullLine (self : Grid) (row : Nat) : Option GridLine :=
  let cells := self.row row
  if cells.isEmpty then none
  else some ⟨row, 0, encodeCells cells, (self.wraps[row]?).getD false⟩

/-- Every non-empty row, for a newly attached UI. -/
def fullLines (self : Grid) : List GridLine :=
  (List.range self.height).filterMap self.fullLine

end Grid

end Oxvim.Ui
