import Oxvim.Lib.EState
import Oxvim.Ui.Grid

/-!
# The redraw batch of a UI channel

Events of one redraw are collected in a batch: calls of the same event one after another share an
entry, and a `grid_line` call that begins where the last one ended becomes part of it.
-/

namespace Oxvim.Ui

open Lib EState

/-- A protocol event before it is grouped into a redraw frame. -/
structure UiEvent where
  name : String
  args : List Object

/-- A bundled event within a redraw batch: each argument set is one call. -/
structure RedrawEvent where
  name : String
  argsets : List (List Object)

/-- Accumulates UI events. -/
abbrev RedrawBatch := List RedrawEvent

/-- `i64::checked_add`. -/
def checkedAddI64 (a b : Int) : Option Int :=
  if -2 ^ 63 ≤ a + b ∧ a + b < 2 ^ 63 then some (a + b) else none

/-- Number of cells a cell tuple `[char, attrid?, repeat?]` represents. -/
def cellCount : Object → Int
  | .array parts => match (parts[2]? : Option Object) with
    | some (.integer n) => n
    | _ => 1
  | _ => 1

/-- Whether `prev` is a `grid_line` call for the same grid and row that ends exactly at `startcol`. -/
def canFuse (prev : List Object) (grid row startcol : Int) : Bool :=
  match prev with
  | [.integer prevGrid, .integer prevRow, .integer prevStart, .array cells, _] =>
    prevGrid = grid ∧ prevRow = row ∧
      (cells.foldlM (fun acc tuple => checkedAddI64 acc (cellCount tuple)) 0).bind
        (checkedAddI64 prevStart) = some startcol
  | _ => false

namespace RedrawBatch

/-- Appends an argument set to an event, bundling consecutive calls of the same name. -/
def push (batch : RedrawBatch) (name : String) (args : List Object) : RedrawBatch :=
  match batch.getLast? with
  | some last =>
    if last.name = name then
      batch.dropLast ++ [{ last with argsets := last.argsets ++ [args] }]
    else batch ++ [⟨name, [args]⟩]
  | none => batch ++ [⟨name, [args]⟩]

/-- A call with more cells and the wrap flag of the later call. -/
def extend (prev : List Object) (cells : List Object) (wrap : Bool) : List Object :=
  match prev with
  | [grid, row, startcol, .array prevCells, _] =>
    [grid, row, startcol, .array (prevCells ++ cells), .boolean wrap]
  | _ => prev

/-- The batch with the cells in its last call, where they continue it. -/
def fused (batch : RedrawBatch) (grid row startcol : Int) (cells : List Object) (wrap : Bool) :
    Option RedrawBatch := do
  let last ← batch.getLast?
  guard (last.name = "grid_line")
  let prev ← last.argsets.getLast?
  guard (canFuse prev grid row startcol)
  return batch.dropLast ++
    [{ last with argsets := last.argsets.dropLast ++ [extend prev cells wrap] }]

/-- Appends a `grid_line` call, coalescing it into the previous call when it continues it. -/
def gridLine (batch : RedrawBatch) (grid row startcol : Int) (cells : List Object) (wrap : Bool) :
    RedrawBatch :=
  (batch.fused grid row startcol cells wrap).getD
    (batch.push "grid_line"
      [.integer grid, .integer row, .integer startcol, .array cells, .boolean wrap])

end RedrawBatch

inductive UiChannelError where
  | batchNotStarted (id : UInt64)
  deriving DecidableEq, Repr

/-- One attached remote UI and its active redraw batch. -/
structure UiChannel where
  id : UInt64
  batch : Option RedrawBatch

namespace UiChannel

/-- Starts a new redraw transaction. -/
def begin (self : UiChannel) : UiChannel :=
  { self with batch := some [] }

def gridLineParts : List Object → Option (Int × Int × Int × List Object × Bool)
  | [.integer grid, .integer row, .integer col, .array cells, .boolean wrap] =>
    some (grid, row, col, cells, wrap)
  | _ => none

/-- Adds an event to the current transaction. -/
def emit (event : UiEvent) : EStateM UiChannelError UiChannel Unit := do
  let self ← get
  match self.batch with
  | none => throw (.batchNotStarted self.id)
  | some batch =>
    if event.name = "flush" then return
    else match if event.name = "grid_line" then gridLineParts event.args else none with
      | some (grid, row, col, cells, wrap) =>
        set { self with batch := some (batch.gridLine grid row col cells wrap) }
      | none => set { self with batch := some (batch.push event.name event.args) }

/-- Ends the transaction with exactly one `flush` and returns its events. -/
def flush : EStateM UiChannelError UiChannel RedrawBatch := do
  let self ← get
  set { self with batch := none }
  match self.batch with
  | none => throw (.batchNotStarted self.id)
  | some batch =>
    if (batch.getLast?).all (·.name ≠ "flush") then return batch.push "flush" []
    else return batch

end UiChannel

/-! ## The client -/

/-- What a client shows in a cell: a text and a highlight. -/
abbrev Shown := List UInt8 × Int

/-- The cells of one grid on the screen of a client. -/
abbrev Screen := Nat → Nat → Option Shown

/-- The grids of a client. -/
abbrev Client := Int → Screen

/-- The cells that are described by a list of tuples, each with its text, a highlight where it
differs from the one before, and a count where it is not one. -/
def spread (hl : Int) : List Object → List Shown
  | [] => []
  | .array (.string text :: rest) :: items =>
    let hl := match rest with
      | .integer hl :: _ => hl
      | _ => hl
    List.replicate (cellCount (.array (.string text :: rest))).toNat (text, hl) ++ spread hl items
  | _ :: items => spread hl items

namespace Screen

/-- The cells inside the new size stay. -/
def resize (screen : Screen) (width height : Nat) : Screen :=
  fun row col => if row < height ∧ col < width then screen row col else none

/-- Cells are written from a column on. -/
def write (screen : Screen) (row col : Nat) (cells : List Shown) : Screen :=
  fun r c => if r = row ∧ col ≤ c ∧ c < col + cells.length then cells[c - col]? else screen r c

theorem write_append (screen : Screen) (row col : Nat) (cells cells' : List Shown) :
    screen.write row col (cells ++ cells')
      = (screen.write row col cells).write row (col + cells.length) cells' := by
  funext r c
  simp only [write, List.length_append, List.getElem?_append]
  grind

end Screen

namespace Client

/-- One call of a redraw event. -/
def call (client : Client) (name : String) (args : List Object) : Client :=
  if name = "grid_resize" then
    match args with
    | [.integer grid, .integer width, .integer height] =>
      Function.update client grid ((client grid).resize width.toNat height.toNat)
    | _ => client
  else if name = "grid_line" then
    match args with
    | [.integer grid, .integer row, .integer col, .array cells, .boolean _] =>
      Function.update client grid ((client grid).write row.toNat col.toNat (spread 0 cells))
    | _ => client
  else client

/-- The events of a batch, one call after another. -/
def receive (client : Client) (batch : RedrawBatch) : Client :=
  batch.foldl (fun client event => event.argsets.foldl (fun client args =>
    client.call event.name args) client) client

end Client

end Oxvim.Ui
