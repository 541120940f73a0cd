import Oxvim.Editor.Layout
import Std.Data.ExtTreeMap

/-!
# The windows of a tabpage

A `TabpageState` owns the tiled layout, the floating windows in the order of their z-index, and the API
state of all of them. It keeps a current window of its own, which may float, and the window before it.

Where a float stands depends on what it is relative to, another window in the end, so that its geometry
is found by recursion along these references. The depth of the recursion is bounded by the number of
floats; `room` is what is left of it. A float relative to the cursor has no geometry: the source calls
that unreachable and panics, here the result is `none`.
-/

namespace Oxvim.Editor

open Lib EState

/-! ## Floating windows -/

/-- Reference coordinate space for a floating window. -/
inductive RelativeTo where
  | editor
  | window (window : WinHandle)
  | cursor
  deriving DecidableEq, Repr

/-- Point of the floating window attached to its configured row and column. -/
inductive Anchor where
  | northWest
  | northEast
  | southWest
  | southEast
  deriving DecidableEq, Repr

/-- Border presentation for a floating window. -/
inductive Border where
  | none
  | single
  | double
  | rounded
  | solid
  | shadow
  | custom (pieces : Vector String 8)
  deriving DecidableEq, Repr

/-- Extra cells reserved around floating-window content. -/
structure Margins where
  top : Nat
  right : Nat
  bottom : Nat
  left : Nat
  deriving DecidableEq, Repr

/-- Configuration for a floating window. -/
structure WinConfig where
  relative : RelativeTo
  anchor : Anchor
  row : Float
  col : Float
  width : Nat
  height : Nat
  zindex : Nat
  border : Border
  margins : Margins
  bufpos : Option (Int × Int)

def WinConfig.validate (self : WinConfig) : Except LayoutError Unit :=
  if self.width = 0 ∨ self.height = 0 then .error (.invalidDimensions self.width self.height)
  else if !self.row.isFinite || !self.col.isFinite then .error .invalidCoordinate
  else .ok ()

/-- A floating window and its viewport state. -/
structure FloatingWindow where
  window : WinHandle
  state : WindowState
  config : WinConfig

/-- Cursor position in rendered screen cells within its anchor window. -/
structure CursorScreenPosition where
  row : Nat
  col : Nat
  deriving DecidableEq, Repr

/-- Per-window API state. -/
structure WindowApiState where
  variablesVersion : Nat := 1
  highlightNamespace : Int := 0
  nextMatchId : Int := 1000
  deriving DecidableEq, Repr

/-! ## Where a float stands -/

/-- The result of an `i128` operation that checks for overflow. -/
def checkedI128 (value : Int) : Option Int :=
  if -2 ^ 127 ≤ value ∧ value < 2 ^ 127 then some value else none

/-- The largest whole number below a coordinate, from the bits of the `f64`. -/
def floorCoordinate (value : Float) : Except LayoutError Int := do
  if !value.isFinite then throw .invalidCoordinate
  let bits := value.toBits.toNat
  let negative := bits / 2 ^ 63 = 1
  let exponentBits := bits / 2 ^ 52 % 2 ^ 11
  let fraction := bits % 2 ^ 52
  if exponentBits = 0 then return if negative ∧ fraction ≠ 0 then -1 else 0
  else if exponentBits < 1023 then return if negative then -1 else 0
  else
    let exponent := exponentBits - 1023
    let significand := 2 ^ 52 + fraction
    -- a shift of the 128-bit number loses the bits that leave it
    let (magnitude, hasFraction) : Nat × Bool ←
      if 52 ≤ exponent then
        if exponent - 52 < 128 then pure (significand * 2 ^ (exponent - 52) % 2 ^ 128, false)
        else throw (if negative then .invalidResolvedPosition else .geometryOverflow)
      else pure (significand / 2 ^ (52 - exponent), significand % 2 ^ (52 - exponent) ≠ 0)
    if negative then
      let magnitude := magnitude + if hasFraction then 1 else 0
      if 2 ^ 128 ≤ magnitude then throw .invalidResolvedPosition
      else if magnitude = 2 ^ 127 then return -2 ^ 127
      else if magnitude < 2 ^ 127 then return -(magnitude : Int)
      else throw .invalidResolvedPosition
    else if magnitude < 2 ^ 127 then return (magnitude : Int)
    else throw .geometryOverflow

/-- A check with the error of its failure. -/
def okOr {α : Type} (value : Option α) (error : LayoutError) : Except LayoutError α :=
  value.elim (.error error) .ok

/-- `Geometry::new`. -/
def Geometry.new (row col width height : Nat) : Except LayoutError Geometry := do
  let geometry : Geometry := { row, col, width, height }
  validateGeometry geometry
  return geometry

/-- The content rectangle of a float whose reference has the origin. -/
def floatingContentGeometry (config : WinConfig) (originRow originCol : Int) :
    Except LayoutError Geometry := do
  config.validate
  let border := if config.border = .none then 0 else 1
  let topInset ← okOr (checkedAdd config.margins.top border) .geometryOverflow
  let leftInset ← okOr (checkedAdd config.margins.left border) .geometryOverflow
  let outerWidth ← okOr (do
    let width ← checkedAdd config.width config.margins.left
    let width ← checkedAdd width config.margins.right
    checkedAdd width (border * 2)) .geometryOverflow
  let outerHeight ← okOr (do
    let height ← checkedAdd config.height config.margins.top
    let height ← checkedAdd height config.margins.bottom
    checkedAdd height (border * 2)) .geometryOverflow
  let row ← okOr (checkedI128 (originRow + (← floorCoordinate config.row))) .geometryOverflow
  let col ← okOr (checkedI128 (originCol + (← floorCoordinate config.col))) .geometryOverflow
  let row ← if config.anchor = .southWest ∨ config.anchor = .southEast then
      okOr (checkedI128 (row - outerHeight)) .invalidResolvedPosition
    else pure row
  let col ← if config.anchor = .northEast ∨ config.anchor = .southEast then
      okOr (checkedI128 (col - outerWidth)) .invalidResolvedPosition
    else pure col
  let row ← okOr (checkedI128 (row + topInset)) .geometryOverflow
  let col ← okOr (checkedI128 (col + leftInset)) .geometryOverflow
  if row < 0 ∨ col < 0 then throw .invalidResolvedPosition
  else if (usizeMax : Int) < row ∨ (usizeMax : Int) < col then throw .geometryOverflow
  else Geometry.new row.toNat col.toNat config.width config.height

/-! ## The tabpage -/

/-- Window state owned by one tabpage. -/
structure TabpageState where
  layout : Layout
  floats : List FloatingWindow
  windowApi : Std.ExtTreeMap WinHandle WindowApiState
  current : WinHandle
  previous : Option WinHandle

namespace TabpageState

/-- A tabpage around a tiled layout. -/
def new (layout : Layout) : TabpageState where
  layout
  floats := []
  windowApi := layout.windows.foldl (fun api window => api.insert window {}) ∅
  current := layout.current
  previous := none

/-- Tiled windows in preorder followed by floating windows in z-order. -/
def windows (self : TabpageState) : List WinHandle :=
  self.layout.windows ++ self.floats.map (·.window)

def resolve (self : TabpageState) (window : WinHandle) : WinHandle :=
  if window.isCurrent then self.current else window

def contains (self : TabpageState) (window : WinHandle) : Bool :=
  self.floats.any (·.window = window) || (self.layout.window window).isOk

/-- The place of a floating window. -/
def floatIndex (self : TabpageState) (window : WinHandle) : Option Nat :=
  self.floats.findIdx? (·.window = window)

/-- State for a tiled or floating window. -/
def window (self : TabpageState) (window : WinHandle) : Except LayoutError WindowState :=
  let resolved := self.resolve window
  match self.floats.find? (·.window = resolved) with
  | some float => .ok float.state
  | none => self.layout.window resolved

def windowApiState (self : TabpageState) (window : WinHandle) : Except LayoutError WindowApiState :=
  let resolved := self.resolve window
  okOr self.windowApi[resolved]? (.unknownWindow resolved)

/-- The origin that a float with a buffer position takes in its reference window. -/
def bufposOrigin (self : TabpageState) (relative : WinHandle) (geometry : Geometry)
    (bufpos : Option (Int × Int)) : Except LayoutError (Int × Int) := do
  match bufpos with
  | none => return ((geometry.row : Int), (geometry.col : Int))
  | some (line, col) =>
    let state ← self.window relative
    let row ← okOr (do
      let row ← checkedI128 (geometry.row + line)
      let row ← checkedI128 (row + 1)
      checkedI128 (row - state.topline)) .geometryOverflow
    let col ← okOr (checkedI128 (geometry.col + col)) .geometryOverflow
    return (row, col)

def resolveWindowGeometry (self : TabpageState) :
    (room : Nat) → WinHandle → Option (Except LayoutError Geometry)
  | room, window =>
    match self.layout.windowGeometry window with
    | .ok geometry => some (.ok geometry)
    | .error _ =>
      match room with
      | 0 => some (.error (.floatingReferenceCycle window))
      | room + 1 =>
        match self.floats.find? (·.window = window) with
        | none => some (.error (.unknownWindow window))
        | some floating =>
          match floating.config.relative with
          | .editor => some (floatingContentGeometry floating.config 0 0)
          | .window relative =>
            (self.resolveWindowGeometry room (self.resolve relative)).map fun geometry => do
              let (row, col) ← self.bufposOrigin relative (← geometry) floating.config.bufpos
              floatingContentGeometry floating.config row col
          | .cursor => none

/-- Assigned content geometry for a tiled or floating window. -/
def windowGeometry (self : TabpageState) (window : WinHandle) :
    Option (Except LayoutError Geometry) :=
  let resolved := self.resolve window
  match self.layout.windowGeometry resolved with
  | .ok geometry => some (.ok geometry)
  | .error _ => self.resolveWindowGeometry (self.floats.length + 1) resolved

/-- The anchor for a cursor-relative float: the current window, or for that one the previous. -/
def cursorAnchorWindow (self : TabpageState) (window : WinHandle) : Option WinHandle :=
  let resolved := self.resolve window
  if self.current ≠ resolved then some self.current
  else self.previous.filter fun previous => previous ≠ resolved && self.contains previous

/-- A cursor offset, which saturates at `u32::MAX`. -/
def cursorOffset (cells : Nat) : Float :=
  Float.ofNat (min cells (2 ^ 32 - 1))

/-- Folds a cursor-relative anchor into the row and column. -/
def freezeCursorAnchor (self : TabpageState) (window : WinHandle) (config : WinConfig)
    (cursor : CursorScreenPosition) : WinConfig :=
  if config.relative ≠ .cursor then config
  else match self.cursorAnchorWindow window with
    | none => { config with relative := .editor }
    | some anchor =>
      { config with
        row := config.row + cursorOffset cursor.row
        col := config.col + cursorOffset cursor.col
        relative := .window anchor }

/-! ## Changes -/

/-- Runs an operation of the layout. -/
def onLayout {α : Type} (op : EStateM LayoutError Layout α) : EStateM LayoutError TabpageState α :=
  zoom layout (fun layout self => { self with layout }) id op

/-- Restores the order by z-index; equal ones keep theirs. -/
def sortFloats (floats : List FloatingWindow) : List FloatingWindow :=
  floats.mergeSort fun a b => a.config.zindex ≤ b.config.zindex

/-- Updates an existing floating window configuration and restores z-order. -/
def setWindowConfig (window : WinHandle) (config : WinConfig) (cursor : CursorScreenPosition) :
    EStateM LayoutError TabpageState Unit := do
  let self ← get
  let resolved := self.resolve window
  let config := self.freezeCursorAnchor resolved config cursor
  MonadExcept.ofExcept config.validate
  match self.floatIndex resolved with
  | none => throw (.unknownWindow resolved)
  | some index =>
    set { self with floats := sortFloats (self.floats.modify index ({ · with config })) }

/-- Sets one extent of a float, or of a tiled window. -/
def setWindowExtent (window : WinHandle) (setFloat : WinConfig → WinConfig)
    (setTiled : WinHandle → EStateM LayoutError Layout Unit) :
    EStateM LayoutError TabpageState Unit := do
  let self ← get
  let resolved := self.resolve window
  match self.floatIndex resolved with
  | some index =>
    match self.floats[index]? with
    | none => throw (.unknownWindow resolved)
    | some floating =>
      let config := setFloat floating.config
      MonadExcept.ofExcept config.validate
      set { self with floats := self.floats.modify index ({ · with config }) }
  | none => onLayout (setTiled resolved)

/-- Changes a tiled or floating window's width. -/
def setWindowWidth (window : WinHandle) (width : Nat) : EStateM LayoutError TabpageState Unit :=
  setWindowExtent window ({ · with width }) (Layout.setWindowWidth · width)

/-- Changes a tiled or floating window's height. -/
def setWindowHeight (window : WinHandle) (height : Nat) : EStateM LayoutError TabpageState Unit :=
  setWindowExtent window ({ · with height }) (Layout.setWindowHeight · height)

/-- The current window changes, unless it is the same. -/
def enter (self : TabpageState) (window : WinHandle) : TabpageState :=
  if self.current ≠ window then { self with previous := some self.current, current := window }
  else self

/-- Makes a tiled or floating window current. -/
def setCurrent (window : WinHandle) : EStateM LayoutError TabpageState Unit := do
  let self ← get
  let resolved := self.resolve window
  if self.floats.any (·.window = resolved) then set (self.enter resolved)
  else
    onLayout (Layout.setCurrent resolved)
    modify (·.enter resolved)

/-- Adds a floating window while preserving stable z-index ordering. -/
def addFloat (window : WinHandle) (state : WindowState) (config : WinConfig)
    (cursor : CursorScreenPosition) : EStateM LayoutError TabpageState Unit := do
  MonadExcept.ofExcept (validateIdentity window)
  let self ← get
  let config := self.freezeCursorAnchor window config cursor
  MonadExcept.ofExcept config.validate
  if self.contains window then throw (.duplicateWindow window)
  else
    let index := (self.floats.findIdx? fun candidate => config.zindex < candidate.config.zindex).getD
      self.floats.length
    set { self with
      floats := self.floats.insertIdx index { window, state, config }
      windowApi := self.windowApi.insert window {} }

/-- What is left of the bookkeeping when a window has gone. -/
def forget (self : TabpageState) (gone : WinHandle) : TabpageState :=
  let self := { self with windowApi := self.windowApi.erase gone }
  let self := if self.previous = some gone then { self with previous := none } else self
  if self.current = gone then
    let self := { self with current := self.layout.current }
    if self.previous = some self.current then { self with previous := none } else self
  else self

/-- Removes a floating window. -/
def removeFloat (window : WinHandle) : EStateM LayoutError TabpageState FloatingWindow := do
  let self ← get
  let resolved := self.resolve window
  match self.floatIndex resolved with
  | none => throw (.unknownWindow resolved)
  | some index =>
    match self.floats[index]? with
    | none => throw (.unknownWindow resolved)
    | some removed =>
      set (forget { self with floats := self.floats.eraseIdx index } resolved)
      return removed

/-- Closes a tiled window and keeps the tabpage current window valid. -/
def closeTiled (window : WinHandle) : EStateM LayoutError TabpageState WindowState := do
  let self ← get
  let resolved := self.resolve window
  let removed ← onLayout (Layout.close resolved)
  modify (forget · resolved)
  return removed

/-- Splits a tiled window with one of the splits of the layout. -/
def splitWith
    (split : (target window : WinHandle) → WindowState → (enter : Bool) →
      EStateM LayoutError Layout Unit)
    (target window : WinHandle) (state : WindowState) (enter : Bool) :
    EStateM LayoutError TabpageState Unit := do
  MonadExcept.ofExcept (validateIdentity window)
  let self ← get
  if self.contains window then throw (.duplicateWindow window)
  else
    let target := self.resolve target
    onLayout (split target window state enter)
    modify fun self => { self with windowApi := self.windowApi.insert window {} }
    if enter then
      modify fun self => { self with previous := some self.current, current := window }

/-- Splits a tiled window vertically. -/
def splitVertical (target window : WinHandle) (state : WindowState) (enter : Bool) :
    EStateM LayoutError TabpageState Unit :=
  splitWith Layout.splitVertical target window state enter

/-- Splits a tiled window horizontally. -/
def splitHorizontal (target window : WinHandle) (state : WindowState) (enter : Bool) :
    EStateM LayoutError TabpageState Unit :=
  splitWith Layout.splitHorizontal target window state enter

/-- Splits a tiled window, placing the new window to the left of `target`. -/
def splitLeft (target window : WinHandle) (state : WindowState) (enter : Bool) :
    EStateM LayoutError TabpageState Unit :=
  splitWith Layout.splitLeft target window state enter

/-- Splits a tiled window, placing the new window above `target`. -/
def splitAbove (target window : WinHandle) (state : WindowState) (enter : Bool) :
    EStateM LayoutError TabpageState Unit :=
  splitWith Layout.splitAbove target window state enter

/-- Resizes and equalizes the tiled layout. -/
def resize (geometry : Geometry) : EStateM LayoutError TabpageState Unit :=
  onLayout (Layout.resize geometry)

/-- Equalizes the tiled layout within its current rectangle. -/
def equalize : EStateM LayoutError TabpageState Unit :=
  onLayout Layout.equalize

end TabpageState

end Oxvim.Editor
