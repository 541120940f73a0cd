import Oxvim.Ui.GridWrite
import Oxvim.Ui.Highlight

/-!
# Composing layers

The compositor paints its layers over each other in stable z-order, cell by cell under clipping,
with a statusline below each layer that has one and the tabline beneath all of them.
-/

namespace Oxvim.Ui

/-- Semantic layer kind used to resolve equal stacking priorities, in this order. -/
inductive LayerKind where
  | window
  | float
  | message
  deriving DecidableEq, Repr

def LayerKind.rank : LayerKind → Nat
  | .window => 0
  | .float => 1
  | .message => 2

/-- A positioned grid participating in composition. -/
structure Layer where
  grid : Grid
  row : Int
  col : Int
  zindex : UInt32
  /-- Percentage of the underlying color mixed into this layer. -/
  winblend : UInt8
  kind : LayerKind
  /-- Whether blank cells cover lower layers. -/
  isOpaque : Bool
  cursor : Option (Nat × Nat)
  /-- Statusline text and highlight rendered on the default grid. -/
  statusline : Option (List Char × UInt64)

/-- Compositor failures; `panicked` is an allocation beyond what a vector can hold. -/
inductive CompositorError where
  | grid (error : GridError)
  | highlight (error : HlError)
  | panicked
  deriving DecidableEq, Repr

/-- Ordered collection of grids rendered into the default grid. -/
structure Compositor where
  width : Nat
  height : Nat
  layers : List Layer
  /-- Resolved tabline runs for the top row. -/
  tablineRow : List (Nat × List Char × UInt64)
  tablineWasShown : Bool

/-- The output as it is composed, with what else composition derives. -/
structure Composing where
  output : Grid
  highlights : HlState
  cursor : Option (Nat × Nat)
  highlightEvents : List HlEvent

/-- `usize::checked_add_signed`. -/
def checkedAddSigned (n : Nat) (offset : Int) : Option Nat :=
  if 0 ≤ n + offset ∧ n + offset < 2 ^ 64 then some (n + offset).toNat else none

def Cell.isBlank (cell : Cell) : Bool :=
  cell.width == 1 && cell.hlId == 0 && cell.text == [0x20]

/-- The errors of a grid among those of the compositor. -/
def liftGrid {α : Type} : Except GridError α → Except CompositorError α
  | .ok a => .ok a
  | .error error => .error (.grid error)

/-- Resizes and blanks every cell. -/
def Grid.reshape (self : Grid) (width height : Nat) : Except CompositorError Grid :=
  if width * height ≥ 2 ^ 64 then .error (.grid (.dimensionOverflow width height))
  else if h : width * height < 2 ^ 63 ∧ height < 2 ^ 63 then
    .ok
      { id := self.id
        width := width
        height := height
        cells := List.replicate (width * height) Cell.blank
        wraps := List.replicate height false
        cells_length := List.length_replicate
        wraps_length := List.length_replicate
        cells_small := by rw [List.length_replicate]; exact h.1
        wraps_small := by rw [List.length_replicate]; exact h.2 }
  else .error .panicked

namespace Compositor

variable (widths : UnicodeWidth)

/-- The layers from the lowest to the topmost. -/
def order (self : Compositor) (includeMessages : Bool) : List Layer :=
  let key := fun (entry : Layer × Nat) =>
    toLex (decide (entry.1.kind = .message),
      toLex (entry.1.zindex.toNat, toLex (entry.1.kind.rank, entry.2)))
  ((self.layers.zipIdx.filter fun entry => includeMessages || entry.1.kind != .message).mergeSort
    fun a b => key a ≤ key b).map Prod.fst

/-- Writes tabline runs one after another. -/
def paintRuns (self : Compositor) : List (Nat × List Char × UInt64) → Grid →
    Except CompositorError Grid
  | [], output => .ok output
  | (col, text, hlId) :: runs, output =>
    if col < self.width then
      match output.writeText widths 0 col text hlId with
      | .error error => .error (.grid error)
      | .ok (_, output) => paintRuns self runs output
    else paintRuns self runs output

/-- Paints the tabline runs onto the top row. -/
def paintTablineRow (self : Compositor) (output : Grid) : Except CompositorError Grid :=
  if self.width = 0 then .ok output
  else if self.tablineRow.isEmpty then
    if self.tablineWasShown then
      paintRuns widths self [(0, List.replicate self.width ' ', 0)] output
    else .ok output
  else paintRuns widths self self.tablineRow output

/-- Paints one cell of a layer on the screen. -/
def paintCell (layer : Layer) (row col : Nat) (source : Cell) (state : Composing) :
    Except CompositorError Composing :=
  if !layer.isOpaque && source.isBlank then .ok state
  else if layer.winblend = 0 then
    match state.output.writeCell row col source.text source.hlId source.width with
    | .error error => .error (.grid error)
    | .ok output => .ok { state with output := output }
  else
    match state.output.hlAt row col with
    | .error error => .error (.grid error)
    | .ok beneath =>
      match state.highlights.premix source.hlId beneath layer.winblend with
      | .error error => .error (.highlight error)
      | .ok (id, event, highlights) =>
        match state.output.writeCell row col source.text id source.width with
        | .error error => .error (.grid error)
        | .ok output =>
          .ok { state with
            output := output
            highlights := highlights
            highlightEvents := state.highlightEvents ++ event.toList }

/-- Paints the cells of one row of a layer. -/
def paintRow (self : Compositor) (layer : Layer) (sourceRow row : Nat) : List Nat → Composing →
    Except CompositorError Composing
  | [], state => .ok state
  | sourceCol :: cols, state =>
    match checkedAddSigned sourceCol layer.col with
    | none => paintRow self layer sourceRow row cols state
    | some col =>
      if col ≥ self.width then paintRow self layer sourceRow row cols state
      else
        match layer.grid.cell sourceRow sourceCol with
        | .error error => .error (.grid error)
        | .ok source =>
          match paintCell layer row col source state with
          | .error error => .error error
          | .ok state => paintRow self layer sourceRow row cols state

/-- Paints rows of a layer. -/
def paintRows (self : Compositor) (layer : Layer) : List Nat → Composing →
    Except CompositorError Composing
  | [], state => .ok state
  | sourceRow :: rows, state =>
    match checkedAddSigned sourceRow layer.row with
    | none => paintRows self layer rows state
    | some row =>
      if row ≥ self.height then paintRows self layer rows state
      else
        match paintRow self layer sourceRow row (List.range layer.grid.width) state with
        | .error error => .error error
        | .ok state => paintRows self layer rows state

/-- Paints the statusline below a layer. -/
def paintStatusline (self : Compositor) (layer : Layer) (state : Composing) :
    Except CompositorError Composing :=
  match layer.statusline, checkedAddSigned layer.grid.height layer.row,
    checkedAddSigned 0 layer.col with
  | some (statusline, hlId), some row, some col =>
    if row < self.height ∧ col < self.width then
      match state.output.writeText widths row col statusline hlId with
      | .error error => .error (.grid error)
      | .ok (_, output) => .ok { state with output := output }
    else .ok state
  | _, _, _ => .ok state

/-- The cursor of a layer replaces those below where it is on the screen. -/
def placeCursor (self : Compositor) (layer : Layer) (state : Composing) : Composing :=
  match layer.cursor with
  | none => state
  | some (row, col) =>
    match checkedAddSigned row layer.row, checkedAddSigned col layer.col with
    | some row, some col =>
      if row < self.height ∧ col < self.width then { state with cursor := some (row, col) }
      else state
    | _, _ => state

def paintLayer (self : Compositor) (layer : Layer) (state : Composing) :
    Except CompositorError Composing := do
  let painted ← self.paintRows layer (List.range layer.grid.height) state
  let lined ← self.paintStatusline widths layer painted
  return self.placeCursor layer lined

/-- Paints layers one after another. -/
def paintLayers (self : Compositor) : List Layer → Composing → Except CompositorError Composing
  | [], state => .ok state
  | layer :: layers, state =>
    match self.paintLayer widths layer state with
    | .error error => .error error
    | .ok state => paintLayers self layers state

/-- The output before the first layer. -/
def start (self : Compositor) (output : Grid) (highlights : HlState) :
    Except CompositorError Composing := do
  let blank ← output.reshape self.width self.height
  let lined ← self.paintTablineRow widths blank
  return ⟨lined, highlights, none, []⟩

/-- Flattens layers into `output` in stable z-order and resolves the topmost visible cursor. -/
def composeInto (self : Compositor) (output : Grid) (highlights : HlState)
    (includeMessages : Bool) : Except CompositorError Composing := do
  let state ← self.start widths output highlights
  self.paintLayers widths (self.order includeMessages) state

end Compositor

end Oxvim.Ui
