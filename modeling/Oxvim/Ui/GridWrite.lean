import Oxvim.Lib.Utf8
import Oxvim.Lib.Tiling
import Oxvim.Ui.Grid

/-!
# Writing to the UI grid

Writing single cells, graphemes with their continuation columns, and text. `put` clears what it
covers grapheme by grapheme, so that it leaves no half of a wide cell; `writeCell` writes one cell.

Display widths come from a library, here `UnicodeWidth`.
-/

namespace Oxvim.Ui

open Lib

/-- Grid mutation failures. -/
inductive GridError where
  | outOfBounds (row col width height : Nat)
  | invalidWidth (width : UInt8) (col gridWidth : Nat)
  | dimensionOverflow (width height : Nat)
  deriving DecidableEq, Repr

/-- Display widths of strings and of characters, none for a control character. -/
structure UnicodeWidth where
  str : List Char → Nat
  char : Char → Option Nat

/-! ## Clusters -/

def isRegionalIndicator (character : Char) : Bool :=
  0x1F1E6 ≤ character.toNat && character.toNat ≤ 0x1F1FF

/-- The zero width joiner. -/
def joiner : Char := Char.ofNat 0x200D

/-- How many characters join the cluster before them. -/
def joinedLength (widths : UnicodeWidth) : List Char → (previousWasJoiner : Bool) →
    (regionalCount : Nat) → Nat
  | [], _, _ => 0
  | character :: rest, previousWasJoiner, regionalCount =>
    let regionalPair := isRegionalIndicator character && regionalCount % 2 == 1
    let joins := (widths.char character).getD 0 == 0 || previousWasJoiner || regionalPair
    if !joins then 0
    else 1 + joinedLength widths rest (character == joiner)
      (if isRegionalIndicator character then regionalCount + 1 else 0)

/-- The number of characters in the first cluster: `cluster_end`. -/
def clusterLength (widths : UnicodeWidth) : List Char → Nat
  | [] => 0
  | first :: rest => 1 + joinedLength widths rest (first == joiner)
    (if isRegionalIndicator first then 1 else 0)

namespace Grid

/-! ## Cells -/

/-- The cell at a row and a column of the grid. -/
def cellAt (self : Grid) (row col : Nat) : Cell :=
  (self.cells[row * self.width + col]?).getD Cell.blank

/-- The grid with one cell replaced. -/
def setCell (self : Grid) (row col : Nat) (cell : Cell) : Grid :=
  { self with
    cells := self.cells.set (row * self.width + col) cell
    cells_length := List.length_set.trans self.cells_length
    cells_small := List.length_set.trans_lt self.cells_small }

/-- The bounds check that every access goes through. -/
def index (self : Grid) (row col : Nat) : Except GridError Unit :=
  if row ≥ self.height ∨ col ≥ self.width then
    .error (.outOfBounds row col self.width self.height)
  else .ok ()

def cell (self : Grid) (row col : Nat) : Except GridError Cell := do
  self.index row col
  return self.cellAt row col

def hlAt (self : Grid) (row col : Nat) : Except GridError UInt64 := do
  self.index row col
  return (self.cellAt row col).hlId

/-- Writes one cell in place. A wide cell must end within the grid. -/
def writeCell (self : Grid) (row col : Nat) (text : List UInt8) (hlId : UInt64) (width : UInt8) :
    Except GridError Grid := do
  if width > 1 ∧ col + width.toNat > self.width then
    throw (.invalidWidth width col self.width)
  self.index row col
  return self.setCell row col ⟨text, hlId, width⟩

/-- The column of the lead of the grapheme that covers a column. -/
def leadCol (self : Grid) (row : Nat) : Nat → Nat
  | 0 => 0
  | col + 1 => if (self.cellAt row (col + 1)).width = 0 then leadCol self row col else col + 1

/-- Resets cells of a row to the blank cell. -/
def resetBlank (self : Grid) (row : Nat) (cols : List Nat) : Grid :=
  cols.foldl (fun grid col => grid.setCell row col Cell.blank) self

def clearGraphemeAt (self : Grid) (row col : Nat) : Except GridError Grid := do
  self.index row col
  let leadCol := self.leadCol row col
  let oldWidth := max (self.cellAt row leadCol).width.toNat 1
  let cleared := self.resetBlank row
    (List.range' leadCol (min (leadCol + oldWidth) self.width - leadCol))
  return if col ≠ leadCol then cleared.setCell row col Cell.blank else cleared

/-- Writes a grapheme and clears its continuation columns. -/
def put (self : Grid) (row col : Nat) (text : List UInt8) (hlId : UInt64) (width : UInt8) :
    Except GridError Grid := do
  if width = 0 ∨ col + width.toNat > self.width then
    throw (.invalidWidth width col self.width)
  let cleared ← (List.range' col width.toNat).reverse.foldlM
    (fun grid targetCol => grid.clearGraphemeAt row targetCol) self
  let lead ← cleared.writeCell row col text hlId width
  (List.range' 1 (width.toNat - 1)).foldlM
    (fun grid continuation => grid.writeCell row (col + continuation) [] hlId 0) lead

/-- Writes clusters until the row boundary. -/
def writeClusters (widths : UnicodeWidth) (self : Grid) (row col : Nat) (hlId : UInt64) :
    List Char → Except GridError (Nat × Grid)
  | [] => .ok (col, self)
  | first :: rest =>
    if col < self.width then
      let length := clusterLength widths (first :: rest)
      let cluster := (first :: rest).take length
      let width := max (widths.str cluster) 1
      if col + width > self.width then .ok (col, self)
      else
        let width := if width < 256 then UInt8.ofNat width else 255
        match self.put row col (Utf8.encode cluster) hlId width with
        | .error error => .error error
        | .ok grid =>
          writeClusters widths grid row (col + width.toNat) hlId ((first :: rest).drop length)
    else .ok (col, self)
termination_by text => text.length
decreasing_by
  simp only [clusterLength, List.length_drop, List.length_cons]
  omega

/-- Writes terminal-width-aware Unicode clusters until the row boundary. -/
def writeText (widths : UnicodeWidth) (self : Grid) (row startCol : Nat) (text : List Char)
    (hlId : UInt64) : Except GridError (Nat × Grid) := do
  if startCol ≥ self.width then
    self.index row startCol
  self.writeClusters widths row startCol hlId text

end Grid

end Oxvim.Ui
