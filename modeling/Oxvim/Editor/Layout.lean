import Oxvim.Lib.EState
import Oxvim.Lib.Usize
import Oxvim.Text.Marks

/-!
# The tiled layout

A `Layout` owns a tree of frames: a leaf is a window, a container arranges its children along an axis.
The source has two constructors for containers: `Row` arranges along the vertical split axis (from
left to right), `Column` along the horizontal one (from top to bottom).

Functions that recurse over a frame come with a companion over the list of children. A method that
changes the layout in place is a program with the layout as its state, so that what a failing call
has already changed stays visible.
-/

namespace Oxvim.Editor

open Lib EState Text

/-! ## Geometry -/

/-- Stable window identity; zero stands for the current window. -/
abbrev WinHandle := Nat

def WinHandle.CURRENT : WinHandle := 0

def WinHandle.isCurrent (window : WinHandle) : Bool :=
  window == WinHandle.CURRENT

/-- A rectangular screen region. -/
structure Geometry where
  row : Nat
  col : Nat
  width : Nat
  height : Nat
  deriving DecidableEq, Repr

/-- Buffer and viewport state displayed by a window. -/
structure WindowState where
  buffer : Nat
  cursor : Position
  topline : Nat
  deriving DecidableEq, Repr

inductive LayoutError where
  | unknownWindow (window : WinHandle)
  | unknownWindowNumber (winnr : Nat)
  | currentWindow
  | lastWindow
  | duplicateWindow (window : WinHandle)
  | invalidDimensions (width height : Nat)
  | insufficientSpace (available children : Nat)
  | invalidWindowExtent (requested available : Nat)
  | floatingReferenceCycle (window : WinHandle)
  | invalidResolvedPosition
  | invalidCoordinate
  | geometryOverflow
  deriving DecidableEq, Repr

inductive SplitAxis where
  | vertical
  | horizontal
  deriving DecidableEq, Repr

/-- Which side of the target a new window lands on. -/
inductive SplitPlacement where
  | before
  | after
  deriving DecidableEq, Repr

namespace Geometry

/-- The cells along an axis. -/
def extent (g : Geometry) : SplitAxis → Nat
  | .vertical => g.width
  | .horizontal => g.height

/-- The part of a region at an offset along an axis. -/
def slice (g : Geometry) (axis : SplitAxis) (offset extent : Nat) : Geometry :=
  match axis with
  | .vertical => { g with col := g.col + offset, width := extent }
  | .horizontal => { g with row := g.row + offset, height := extent }

end Geometry

def validateGeometry (geometry : Geometry) : Except LayoutError Unit :=
  if geometry.width = 0 ∨ geometry.height = 0 then
    .error (.invalidDimensions geometry.width geometry.height)
  else if (checkedAdd geometry.row geometry.height).isNone ∨
      (checkedAdd geometry.col geometry.width).isNone then
    .error .geometryOverflow
  else .ok ()

/-- `slice` with a check of the coordinate it moves. -/
def geometryWithExtent (geometry : Geometry) (axis : SplitAxis) (offset extent : Nat) :
    Except LayoutError Geometry :=
  let start := match axis with
    | .vertical => geometry.col
    | .horizontal => geometry.row
  match checkedAdd start offset with
  | none => .error .geometryOverflow
  | some _ => .ok (geometry.slice axis offset extent)

def checkedOffset (offset extent : Nat) : Except LayoutError Nat :=
  match checkedAdd offset extent with
  | none => .error .geometryOverflow
  | some offset => .ok offset

def validateIdentity (window : WinHandle) : Except LayoutError Unit :=
  if window.isCurrent then .error .currentWindow else .ok ()

/-! ## Frames -/

/-- A leaf in the tiled frame tree. -/
structure LeafFrame where
  window : WinHandle
  state : WindowState
  geometry : Geometry
  deriving DecidableEq, Repr

/-- A recursive tiled frame. -/
inductive Frame where
  | leaf (leaf : LeafFrame)
  | container (axis : SplitAxis) (geometry : Geometry) (children : List Frame)

namespace Frame

/-- Children arranged from left to right. -/
abbrev row (geometry : Geometry) (children : List Frame) : Frame :=
  .container .vertical geometry children

/-- Children arranged from top to bottom. -/
abbrev column (geometry : Geometry) (children : List Frame) : Frame :=
  .container .horizontal geometry children

def geometry : Frame → Geometry
  | leaf l => l.geometry
  | container _ geometry _ => geometry

mutual

def windowCount : Frame → Nat
  | leaf _ => 1
  | container _ _ children => windowCounts children

def windowCounts : List Frame → Nat
  | [] => 0
  | child :: children => child.windowCount + windowCounts children

end

mutual

def findLeaf (window : WinHandle) : Frame → Option LeafFrame
  | leaf l => if l.window = window then some l else none
  | container _ _ children => findLeafIn window children

def findLeafIn (window : WinHandle) : List Frame → Option LeafFrame
  | [] => none
  | child :: children => (findLeaf window child).or (findLeafIn window children)

end

mutual

def collectWindows : Frame → List WinHandle
  | leaf l => [l.window]
  | container _ _ children => collectWindowsIn children

def collectWindowsIn : List Frame → List WinHandle
  | [] => []
  | child :: children => child.collectWindows ++ collectWindowsIn children

end

mutual

/-- The number of a window, and the number that comes next. -/
def preorderNumber (window : WinHandle) : Frame → (next : Nat) → Option Nat × Nat
  | leaf l, next => (if l.window = window then some next else none, next + 1)
  | container _ _ children, next => preorderNumberIn window children next

def preorderNumberIn (window : WinHandle) : List Frame → (next : Nat) → Option Nat × Nat
  | [], next => (none, next)
  | child :: children, next =>
    match preorderNumber window child next with
    | (some number, next) => (some number, next)
    | (none, next) => preorderNumberIn window children next

end

mutual

/-- The window of a number, and the number that comes next. -/
def preorderWindow (wanted : Nat) : Frame → (next : Nat) → Option WinHandle × Nat
  | leaf l, next => (if next = wanted then some l.window else none, next + 1)
  | container _ _ children, next => preorderWindowIn wanted children next

def preorderWindowIn (wanted : Nat) : List Frame → (next : Nat) → Option WinHandle × Nat
  | [], next => (none, next)
  | child :: children, next =>
    match preorderWindow wanted child next with
    | (some window, next) => (some window, next)
    | (none, next) => preorderWindowIn wanted children next

end

/-- Whether the frame stacks its children along `axis`. -/
def matchesAxis (axis : SplitAxis) : Frame → Bool
  | leaf _ => false
  | container own _ _ => own = axis

/-! ## Insertion and removal -/

mutual

/-- The child indices from a frame down to the leaf of a window. -/
def collectContainerPath (wanted : WinHandle) : Frame → Option (List Nat)
  | leaf l => if l.window = wanted then some [] else none
  | container _ _ children => collectContainerPathIn wanted children 0

def collectContainerPathIn (wanted : WinHandle) : List Frame → (index : Nat) → Option (List Nat)
  | [], _ => none
  | child :: children, index =>
    match collectContainerPath wanted child with
    | some path => some (index :: path)
    | none => collectContainerPathIn wanted children (index + 1)

end

/-- The frame a path leads to. -/
def containerAt : (path : List Nat) → Frame → Option Frame
  | [], frame => some frame
  | _ :: _, leaf _ => none
  | index :: path, container _ _ children => children[index]?.bind (containerAt path)

/-- Inserts a child into the container a path leads to. -/
def insertAt (index : Nat) (child : Frame) : (path : List Nat) → Frame → Option Frame
  | _, leaf _ => none
  | [], container axis geometry children =>
    some (container axis geometry (children.insertIdx (min index children.length) child))
  | i :: path, container axis geometry children => do
    let inner ← children[i]?
    let inner ← insertAt index child path inner
    return container axis geometry (children.set i inner)

/-- Inserts a leaf next to `window` where the container of that window stacks along `axis`. -/
def insertIntoMatchingContainer (root : Frame) (window : WinHandle) (newLeaf : Frame)
    (axis : SplitAxis) (placement : SplitPlacement) : Option Frame := do
  let path ← collectContainerPath window root
  let targetIndex ← path.getLast?
  let parentPath := path.dropLast
  let parent ← containerAt parentPath root
  if parent.matchesAxis axis then
    let index := match placement with
      | .after => targetIndex + 1
      | .before => targetIndex
    insertAt index newLeaf parentPath root
  else none

mutual

/-- Replaces the leaf of a window. -/
def replaceLeaf (window : WinHandle) (replacement : Frame) : Frame → Option Frame
  | leaf l => if l.window = window then some replacement else none
  | container axis geometry children =>
    (replaceLeafIn window replacement children).map (container axis geometry)

def replaceLeafIn (window : WinHandle) (replacement : Frame) : List Frame → Option (List Frame)
  | [] => none
  | child :: children =>
    match replaceLeaf window replacement child with
    | some child => some (child :: children)
    | none => (replaceLeafIn window replacement children).map (child :: ·)

end

/-- Whether a frame is the leaf of a window. -/
def isLeafOf (window : WinHandle) : Frame → Bool
  | leaf l => l.window = window
  | container _ _ _ => false

mutual

/-- Takes the leaf of a window out of its container. -/
def removeLeaf (window : WinHandle) : Frame → Option (LeafFrame × Frame)
  | leaf _ => none
  | container axis geometry children =>
    match children.findIdx? (isLeafOf window) with
    | some index =>
      match children[index]? with
      | some (leaf l) => some (l, container axis geometry (children.eraseIdx index))
      | _ => none
    | none =>
      (removeLeafIn window children).map fun r => (r.1, container axis geometry r.2)

def removeLeafIn (window : WinHandle) : List Frame → Option (LeafFrame × List Frame)
  | [] => none
  | child :: children =>
    match removeLeaf window child with
    | some (l, child) => some (l, child :: children)
    | none => (removeLeafIn window children).map fun r => (r.1, child :: r.2)

end

mutual

def depth : Frame → Nat
  | leaf _ => 1
  | container _ _ children => depths children + 1

def depths : List Frame → Nat
  | [] => 0
  | child :: children => max child.depth (depths children)

end

/-- Puts the only child in the place of its container, everywhere. The fuel is the depth. -/
def collapse : (fuel : Nat) → Frame → Frame
  | 0, frame => frame
  | _ + 1, leaf l => leaf l
  | fuel + 1, container axis geometry children =>
    match children.map (collapse fuel) with
    | [child] => collapse fuel child
    | children => container axis geometry children

def collapseContainers (frame : Frame) : Frame :=
  collapse frame.depth frame

/-! ## Equalization -/

mutual

def validateFrameGeometry : Frame → Geometry → Except LayoutError Unit
  | leaf _, geometry => validateGeometry geometry
  | container axis _ children, geometry => do
    validateGeometry geometry
    let available := geometry.extent axis
    if children.isEmpty ∨ available < children.length then
      throw (.insufficientSpace available children.length)
    else
      validateChildrenGeometry axis geometry (available / children.length)
        (available % children.length) children 0 0

/-- Children get `base` cells, and the first `remainder` of them one more. -/
def validateChildrenGeometry (axis : SplitAxis) (geometry : Geometry) (base remainder : Nat) :
    List Frame → (index offset : Nat) → Except LayoutError Unit
  | [], _, _ => .ok ()
  | child :: children, index, offset => do
    let extent := base + if index < remainder then 1 else 0
    let childGeometry ← geometryWithExtent geometry axis offset extent
    validateFrameGeometry child childGeometry
    let offset ← checkedOffset offset extent
    validateChildrenGeometry axis geometry base remainder children (index + 1) offset

end

mutual

def assignFrameGeometry : Frame → Geometry → Frame
  | leaf l, geometry => leaf { l with geometry }
  | container axis _ children, geometry =>
    let available := geometry.extent axis
    container axis geometry (assignChildrenGeometry axis geometry (available / children.length)
      (available % children.length) children 0 0)

def assignChildrenGeometry (axis : SplitAxis) (geometry : Geometry) (base remainder : Nat) :
    List Frame → (index offset : Nat) → List Frame
  | [], _, _ => []
  | child :: children, index, offset =>
    let extent := base + if index < remainder then 1 else 0
    assignFrameGeometry child (geometry.slice axis offset extent) ::
      assignChildrenGeometry axis geometry base remainder children (index + 1) (offset + extent)

end

def equalizeFrame (geometry : Geometry) : EStateM LayoutError Frame Unit := do
  let frame ← get
  MonadExcept.ofExcept (validateFrameGeometry frame geometry)
  set (assignFrameGeometry frame geometry)

/-! ## Resizing one window -/

mutual

/-- The fewest cells a frame needs along an axis. -/
def minimumExtent (axis : SplitAxis) : Frame → Nat
  | leaf _ => 1
  | container own _ children =>
    if own = axis then minimumTotal axis 0 children else minimumMax axis 1 children

def minimumTotal (axis : SplitAxis) : (total : Nat) → List Frame → Nat
  | total, [] => total
  | total, child :: children => minimumTotal axis (satAdd total (minimumExtent axis child)) children

def minimumMax (axis : SplitAxis) : (minimum : Nat) → List Frame → Nat
  | minimum, [] => minimum
  | minimum, child :: children => minimumMax axis (max minimum (minimumExtent axis child)) children

end

/-- Checks the geometry each child is to get. -/
def validateExtents (geometry : Geometry) (axis : SplitAxis) (extent : Nat → Frame → Nat) :
    (children : List Frame) → (index offset : Nat) → Except LayoutError Unit
  | [], _, _ => .ok ()
  | child :: children, index, offset => do
    let childGeometry ← geometryWithExtent geometry axis offset (extent index child)
    validateFrameGeometry child childGeometry
    let offset ← checkedOffset offset (extent index child)
    validateExtents geometry axis extent children (index + 1) offset

/-- Assigns the geometry each child is to get. -/
def assignExtents (geometry : Geometry) (axis : SplitAxis) (extent : Nat → Frame → Nat) :
    (children : List Frame) → (index offset : Nat) → Except LayoutError Unit × List Frame
  | [], _, _ => (.ok (), [])
  | child :: children, index, offset =>
    match geometryWithExtent geometry axis offset (extent index child) with
    | .error e => (.error e, child :: children)
    | .ok childGeometry =>
      match checkedOffset offset (extent index child) with
      | .error e => (.error e, assignFrameGeometry child childGeometry :: children)
      | .ok offset =>
        let (result, children) := assignExtents geometry axis extent children (index + 1) offset
        (result, assignFrameGeometry child childGeometry :: children)

/-- What a child gets: the target what was requested, its siblings their minimum and an equal share
of the rest. -/
def distributedExtent (axis : SplitAxis) (targetIndex requested siblingBase siblingRemainder : Nat)
    (index : Nat) (frame : Frame) : Nat :=
  if index = targetIndex then requested
  else
    let siblingIndex := index - if targetIndex < index then 1 else 0
    minimumExtent axis frame + siblingBase + if siblingIndex < siblingRemainder then 1 else 0

/-- Gives the child at `targetIndex` the requested extent, as far as its siblings allow. -/
def resizeChildren (geometry : Geometry) (axis : SplitAxis) (requested targetIndex : Nat)
    (target : Frame) (children : List Frame) : Except LayoutError Bool × List Frame :=
  let available := geometry.extent axis
  let siblingCount := children.length - 1
  let targetMinimum := minimumExtent axis target
  match ((children.eraseIdx targetIndex).map (minimumExtent axis)).foldlM checkedAdd 0 with
  | none => (.error .geometryOverflow, children)
  | some siblingMinimum =>
    match checkedAdd targetMinimum siblingMinimum with
    | none => (.error .geometryOverflow, children)
    | some totalMinimum =>
      if available < totalMinimum then (.error (.invalidWindowExtent requested available), children)
      else
        let requested := max targetMinimum (min requested (available - siblingMinimum))
        let remaining := available - requested - siblingMinimum
        let extent := distributedExtent axis targetIndex requested (remaining / siblingCount)
          (if siblingCount = 0 then 0 else remaining % siblingCount)
        match validateExtents geometry axis extent children 0 0 with
        | .error e => (.error e, children)
        | .ok () =>
          match assignExtents geometry axis extent children 0 0 with
          | (.error e, children) => (.error e, children)
          | (.ok (), children) => (.ok true, children)

mutual

/-- Changes the extent of a window in the outermost container along `axis` around it. -/
def resizeWindowExtent (window : WinHandle) (requested : Nat) (axis : SplitAxis) :
    Frame → Except LayoutError Bool × Frame
  | leaf l => (.ok false, leaf l)
  | container own geometry children =>
    match children.findIdx? fun child => (findLeaf window child).isSome with
    | none => (.ok false, container own geometry children)
    | some targetIndex =>
      if own = axis then
        match children[targetIndex]? with
        | none => (.ok false, container own geometry children)
        | some target =>
          let (result, children) := resizeChildren geometry axis requested targetIndex target children
          (result, container own geometry children)
      else
        let (result, children) := resizeChildAt window requested axis children targetIndex
        (result, container own geometry children)

def resizeChildAt (window : WinHandle) (requested : Nat) (axis : SplitAxis) :
    List Frame → (index : Nat) → Except LayoutError Bool × List Frame
  | [], _ => (.ok false, [])
  | child :: children, 0 =>
    let (result, child) := resizeWindowExtent window requested axis child
    (result, child :: children)
  | child :: children, index + 1 =>
    let (result, children) := resizeChildAt window requested axis children index
    (result, child :: children)

end

end Frame

/-! ## The layout -/

/-- A tiled window layout. -/
structure Layout where
  root : Frame
  current : WinHandle

namespace Layout

open Oxvim.Editor.Frame (findLeaf preorderNumber preorderWindow insertIntoMatchingContainer replaceLeaf
  removeLeaf collapseContainers equalizeFrame resizeWindowExtent)

/-- A layout containing one tiled window. -/
def new (window : WinHandle) (state : WindowState) (geometry : Geometry) :
    Except LayoutError Layout := do
  validateIdentity window
  validateGeometry geometry
  return { root := .leaf { window, state, geometry }, current := window }

def windowCount (self : Layout) : Nat :=
  self.root.windowCount

def resolve (self : Layout) (window : WinHandle) : WinHandle :=
  if window.isCurrent then self.current else window

/-- Tiled window handles in preorder. -/
def windows (self : Layout) : List WinHandle :=
  self.root.collectWindows

def setCurrent (window : WinHandle) : EStateM LayoutError Layout Unit := do
  let self ← get
  let resolved := self.resolve window
  if (findLeaf resolved self.root).isNone then throw (.unknownWindow resolved)
  else set { self with current := resolved }

def window (self : Layout) (window : WinHandle) : Except LayoutError WindowState :=
  let resolved := self.resolve window
  match findLeaf resolved self.root with
  | some found => .ok found.state
  | none => .error (.unknownWindow resolved)

def size (self : Layout) : Geometry :=
  self.root.geometry

def windowGeometry (self : Layout) (window : WinHandle) : Except LayoutError Geometry :=
  let resolved := self.resolve window
  match findLeaf resolved self.root with
  | some found => .ok found.geometry
  | none => .error (.unknownWindow resolved)

/-- A window's one-based preorder number. -/
def winnr (self : Layout) (window : WinHandle) : Except LayoutError Nat :=
  let resolved := self.resolve window
  match (preorderNumber resolved self.root 1).1 with
  | some number => .ok number
  | none => .error (.unknownWindow resolved)

/-- The window of a one-based preorder number. -/
def windowByWinnr (self : Layout) (winnr : Nat) : Except LayoutError WinHandle :=
  if winnr = 0 then .error (.unknownWindowNumber winnr)
  else match (preorderWindow winnr self.root 1).1 with
    | some window => .ok window
    | none => .error (.unknownWindowNumber winnr)

/-- Equalizes the tree within a rectangle. -/
def equalizeRoot (geometry : Geometry) : EStateM LayoutError Layout Unit :=
  zoom root (fun root self => { self with root }) id (equalizeFrame geometry)

/-- The two frames that a split without a matching container puts in the place of the target. -/
def wrapped (axis : SplitAxis) (placement : SplitPlacement) (geometry : Geometry)
    (oldLeaf newLeaf : Frame) : Frame :=
  match placement with
  | .after => .container axis geometry [oldLeaf, newLeaf]
  | .before => .container axis geometry [newLeaf, oldLeaf]

def splitPlaced (target window : WinHandle) (state : WindowState) (axis : SplitAxis)
    (placement : SplitPlacement) (enter : Bool) : EStateM LayoutError Layout Unit := do
  MonadExcept.ofExcept (validateIdentity window)
  let self ← get
  if (findLeaf window self.root).isSome then throw (.duplicateWindow window) else
  let target := self.resolve target
  match findLeaf target self.root with
  | none => throw (.unknownWindow target)
  | some oldLeaf =>
    let available := oldLeaf.geometry.extent axis
    if available < 2 then throw (.insufficientSpace available 2) else
    let newLeaf := Frame.leaf { window, state, geometry := oldLeaf.geometry }
    match insertIntoMatchingContainer self.root target newLeaf axis placement with
    | some root => set { self with root }
    | none =>
      let replacement := wrapped axis placement oldLeaf.geometry (.leaf oldLeaf) newLeaf
      set { self with root := (replaceLeaf target replacement self.root).getD self.root }
    equalizeRoot (← get).root.geometry
    if enter then modify fun self => { self with current := window }

/-- Splits `target`, placing `window` to its right. -/
def splitVertical (target window : WinHandle) (state : WindowState) (enter : Bool) :
    EStateM LayoutError Layout Unit :=
  splitPlaced target window state .vertical .after enter

/-- Splits `target`, placing `window` below it. -/
def splitHorizontal (target window : WinHandle) (state : WindowState) (enter : Bool) :
    EStateM LayoutError Layout Unit :=
  splitPlaced target window state .horizontal .after enter

/-- Splits `target`, placing `window` to its left. -/
def splitLeft (target window : WinHandle) (state : WindowState) (enter : Bool) :
    EStateM LayoutError Layout Unit :=
  splitPlaced target window state .vertical .before enter

/-- Splits `target`, placing `window` above it. -/
def splitAbove (target window : WinHandle) (state : WindowState) (enter : Bool) :
    EStateM LayoutError Layout Unit :=
  splitPlaced target window state .horizontal .before enter

/-- The window that becomes current when the one at `index` closes: the next, or the one before. -/
def replacementCurrent (order : List WinHandle) (index : Nat) : Option WinHandle :=
  (order.drop (index + 1) ++ (order.take index).reverse).head?

/-- Closes a tiled window and collapses redundant containers. -/
def close (window : WinHandle) : EStateM LayoutError Layout WindowState := do
  let self ← get
  let resolved := self.resolve window
  let oldOrder := self.windows
  match oldOrder.findIdx? (· = resolved) with
  | none => throw (.unknownWindow resolved)
  | some oldIndex =>
    if oldOrder.length = 1 then throw .lastWindow else
    match replacementCurrent oldOrder oldIndex with
    | none => throw .lastWindow
    | some replacement =>
      let geometry := self.root.geometry
      match removeLeaf resolved self.root with
      | none => throw (.unknownWindow resolved)
      | some (removed, root) =>
        set { self with root := collapseContainers root }
        equalizeRoot geometry
        modify fun self =>
          if self.current = resolved then { self with current := replacement } else self
        return removed.state

def setWindowExtent (window : WinHandle) (extent : Nat) (axis : SplitAxis) :
    EStateM LayoutError Layout Unit := do
  let self ← get
  let resolved := self.resolve window
  let geometry ← MonadExcept.ofExcept (self.windowGeometry resolved)
  let current := geometry.extent axis
  if extent = 0 then
    throw (.invalidDimensions (if axis = .vertical then 0 else geometry.width)
      (if axis = .horizontal then 0 else geometry.height))
  else if extent = current then return
  else
    let (result, root) := resizeWindowExtent resolved extent axis self.root
    set { self with root }
    let _ ← MonadExcept.ofExcept result
    return

/-- Changes one tiled window's width while preserving the root rectangle. -/
def setWindowWidth (window : WinHandle) (width : Nat) : EStateM LayoutError Layout Unit :=
  setWindowExtent window width .vertical

/-- Changes one tiled window's height while preserving the root rectangle. -/
def setWindowHeight (window : WinHandle) (height : Nat) : EStateM LayoutError Layout Unit :=
  setWindowExtent window height .horizontal

/-- Changes the root rectangle and equalizes every split below it. -/
def resize (geometry : Geometry) : EStateM LayoutError Layout Unit :=
  equalizeRoot geometry

/-- Redistributes every split equally within the current root rectangle. -/
def equalize : EStateM LayoutError Layout Unit := do
  equalizeRoot (← get).root.geometry

end Layout

end Oxvim.Editor
