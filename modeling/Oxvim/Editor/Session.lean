import Oxvim.Editor.BufferState
import Oxvim.Editor.Tabpage

/-!
# Buffers, windows and tabpages of an editor

The editor owns its buffers, its tabpages and a map from each window to the tabpage it is in, and hands
out the handles of all three. A buffer counts the windows that display it.

The source keeps the state of a window in the leaf or the float of its tabpage. The leaf here holds
what the window starts with, and what it holds later is in `views`, under the handle; a state is only
ever looked up for a window that its tabpage contains.
-/

namespace Oxvim.Editor

open Lib EState Text
open Std (ExtTreeMap)

/-! ## State -/

abbrev BufHandle := Nat

abbrev TabHandle := Nat

/-- The state of a window, with the buffer it displayed before and the window whose location list it
displays. -/
structure WindowView extends WindowState where
  alternateBuffer : Option BufHandle
  loclistRef : Option WinHandle
  deriving DecidableEq

/-- `WindowState::new`. -/
def WindowView.new (buffer : BufHandle) (cursor : Position) : WindowView where
  buffer := buffer
  cursor := cursor
  topline := 1
  alternateBuffer := none
  loclistRef := none

/-- Failures of the operations of an editor. -/
inductive EditorError where
  | unknownBuffer (buffer : BufHandle)
  | unknownWindow (window : WinHandle)
  | unknownTabpage (tab : TabHandle)
  | noCurrentTabpage
  | lastTabpage
  | bufferInUse (buffer : BufHandle) (windows : Nat)
  | handleExhausted (kind : String)
  | buffer (error : BufferStateError)
  | layout (error : LayoutError)
  deriving DecidableEq

/-- What to do with an old buffer after its last window switches away. -/
inductive BufferRelease where
  | keepLoaded
  | unload
  deriving DecidableEq

inductive SplitDirection where
  | left
  | right
  | above
  | below
  deriving DecidableEq

/-- The windows of an editor and what they display. -/
structure Editor where
  buffers : ExtTreeMap BufHandle BufferState
  windows : ExtTreeMap WinHandle TabHandle
  views : WinHandle → WindowView
  tabpages : ExtTreeMap TabHandle TabpageState
  tabOrder : List TabHandle
  currentTab : Option TabHandle
  previousWindow : Option WinHandle
  nextBuffer : Nat
  nextWindow : Nat
  nextTabpage : Nat

/-- The rows of a tiled window that show text. -/
def TabpageState.tiledWindowTextHeight (self : TabpageState) (window : WinHandle) :
    Except LayoutError Nat := do
  let geometry ← self.layout.windowGeometry (self.resolve window)
  let root := self.layout.root.geometry
  let workBottom := satAdd root.row root.height - 1
  let statusline := if 1 < self.layout.windowCount then 1 else 0
  let frameEnd := satAdd geometry.row geometry.height
  let contentEnd := min frameEnd workBottom - statusline
  return max (contentEnd - geometry.row) 1

/-- Floating configuration, or `none` for a tiled window. -/
def TabpageState.windowConfig (self : TabpageState) (window : WinHandle) :
    Except LayoutError (Option WinConfig) := do
  let resolved := self.resolve window
  match self.floats.find? (·.window = resolved) with
  | some float => return some float.config
  | none =>
    let _ ← self.layout.window resolved
    return none

/-- The top line nearest to `topline` that shows the cursor in so many rows. -/
def cursorVisibleTopline (topline cursor height : Nat) : Nat :=
  let topline := max topline 1
  if cursor < topline then max cursor 1
  else if satAdd topline height ≤ cursor then max (cursor - (height - 1)) 1
  else topline

namespace Editor

/-- An editor without buffers and tabpages. -/
def new : Editor where
  buffers := ∅
  windows := ∅
  views := fun _ => .new 0 ⟨1, 0⟩
  tabpages := ∅
  tabOrder := []
  currentTab := none
  previousWindow := none
  nextBuffer := 1
  nextWindow := 1000
  nextTabpage := 1

/-! ## Lookups -/

/-- What a map holds, or the error for its absence. -/
def found {α : Type} (value : Option α) (error : EditorError) : Except EditorError α :=
  value.elim (.error error) .ok

/-- A result of the layout. -/
def fromLayout {α : Type} (result : Except LayoutError α) : Except EditorError α :=
  result.mapError .layout

/-- The current window, if a tabpage has been created. -/
def currentWindow (self : Editor) : Option WinHandle := do
  let tab ← self.currentTab
  let tabpage ← self.tabpages[tab]?
  return tabpage.current

def tabpage (self : Editor) (tab : TabHandle) : Except EditorError TabpageState := do
  let resolved ← if tab = 0 then found self.currentTab .noCurrentTabpage else .ok tab
  found self.tabpages[resolved]? (.unknownTabpage resolved)

def resolveWindowHandle (self : Editor) (window : WinHandle) : Except EditorError WinHandle :=
  if window.isCurrent then found self.currentWindow .noCurrentTabpage else .ok window

/-- The state of a live window. -/
def window (self : Editor) (window : WinHandle) : Except EditorError WindowView := do
  let resolved ← self.resolveWindowHandle window
  let tab ← found self.windows[resolved]? (.unknownWindow resolved)
  let tabpage ← self.tabpage tab
  let _ ← fromLayout (tabpage.window resolved)
  return self.views (tabpage.resolve resolved)

/-- The buffer displayed by the current window. -/
def currentBuffer (self : Editor) : Option BufHandle := do
  let window ← self.currentWindow
  let view ← (self.window window).toOption
  return view.buffer

def resolveBufferHandle (self : Editor) (buffer : BufHandle) : Except EditorError BufHandle :=
  if buffer = 0 then found self.currentBuffer .noCurrentTabpage else .ok buffer

def resolveTabpageHandle (self : Editor) (tab : TabHandle) : Except EditorError TabHandle :=
  if tab = 0 then found self.currentTab .noCurrentTabpage else .ok tab

def buffer (self : Editor) (buffer : BufHandle) : Except EditorError BufferState := do
  let resolved ← self.resolveBufferHandle buffer
  found self.buffers[resolved]? (.unknownBuffer resolved)

def requireBuffer (self : Editor) (buffer : BufHandle) : Except EditorError Unit :=
  if buffer ∈ self.buffers then .ok () else .error (.unknownBuffer buffer)

def requireTabpage (self : Editor) (tab : TabHandle) : Except EditorError Unit :=
  if tab ∈ self.tabpages then .ok () else .error (.unknownTabpage tab)

/-- A tabpage's one-based position. -/
def tabpageIndex (self : Editor) (tab : TabHandle) : Option Nat :=
  (self.tabOrder.findIdx? (· = tab)).map (· + 1)

/-! ## Changes of one part -/

/-- Reads from the state. -/
def read {α : Type} (query : Editor → Except EditorError α) : EStateM EditorError Editor α := do
  MonadExcept.ofExcept (query (← get))

def modifyBuffer (self : Editor) (buffer : BufHandle) (f : BufferState → BufferState) : Editor :=
  { self with buffers := self.buffers.modify buffer f }

def modifyView (self : Editor) (window : WinHandle) (f : WindowView → WindowView) : Editor :=
  { self with views := Function.update self.views window (f (self.views window)) }

/-- Runs an operation of a buffer. -/
def onBuffer {α : Type} (buffer : BufHandle) (op : EStateM BufferStateError BufferState α) :
    EStateM EditorError Editor α := fun self =>
  match self.buffers[buffer]? with
  | none => .error (.unknownBuffer buffer) self
  | some state =>
    zoom (fun _ => state) (fun state self => { self with buffers := self.buffers.insert buffer state })
      .buffer op self

/-- Runs an operation of a tabpage. -/
def onTabpage {α : Type} (tab : TabHandle) (op : EStateM LayoutError TabpageState α) :
    EStateM EditorError Editor α := fun self =>
  match self.tabpages[tab]? with
  | none => .error (.unknownTabpage tab) self
  | some tabpage =>
    zoom (fun _ => tabpage) (fun tabpage self => { self with tabpages := self.tabpages.insert tab tabpage })
      .layout op self

/-- A buffer was attached for an operation, and is detached again when that fails. -/
def attachedFor {α : Type} (buffer : BufHandle) (op : EStateM EditorError Editor α) :
    EStateM EditorError Editor α := fun self =>
  match op self with
  | .ok a self => .ok a self
  | .error error self => .error error (self.modifyBuffer buffer (·.detach true))

/-- Handles are 32-bit integers. -/
def handleMax : Nat := 2 ^ 31 - 1

def allocateBufferHandle : EStateM EditorError Editor BufHandle := do
  let value := (← get).nextBuffer
  if handleMax < value then throw (.handleExhausted "buffer")
  else
    modify fun self => { self with nextBuffer := value + 1 }
    return value

def allocateWindowHandle : EStateM EditorError Editor WinHandle := do
  let value := (← get).nextWindow
  if handleMax < value then throw (.handleExhausted "window")
  else
    modify fun self => { self with nextWindow := value + 1 }
    return value

def allocateTabHandle : EStateM EditorError Editor TabHandle := do
  let value := (← get).nextTabpage
  if handleMax < value then throw (.handleExhausted "tabpage")
  else
    modify fun self => { self with nextTabpage := value + 1 }
    return value

/-! ## Buffers -/

/-- Allocates a listed or unlisted buffer around existing text. -/
def createBufferWith (text : Buffer) (listed : Bool) : EStateM EditorError Editor BufHandle := do
  let handle ← allocateBufferHandle
  modify fun self => { self with buffers := self.buffers.insert handle (.new text listed) }
  return handle

/-- Removes an unattached buffer. -/
def wipeBuffer (buffer : BufHandle) : EStateM EditorError Editor Unit := do
  let buffer ← read (·.resolveBufferHandle buffer)
  let state ← read fun self => found self.buffers[buffer]? (.unknownBuffer buffer)
  if state.attachments ≠ 0 then throw (.bufferInUse buffer state.attachments)
  else modify fun self => { self with buffers := self.buffers.erase buffer }

/-- Releases resident text and undo state of an unattached buffer. -/
def unloadBuffer (buffer : BufHandle) : EStateM EditorError Editor Unit := do
  let buffer ← read (·.resolveBufferHandle buffer)
  onBuffer buffer BufferState.unload

/-- Closes the open undo block of a buffer. -/
def syncBufferUndo (self : Editor) (buffer : BufHandle) : Editor :=
  self.modifyBuffer buffer BufferState.syncUndo

/-- Displays another buffer in a window. -/
def setWindowBuffer (window : WinHandle) (buffer : BufHandle) (release : BufferRelease) :
    EStateM EditorError Editor Unit := do
  let window ← read (·.resolveWindowHandle window)
  let buffer ← read (·.resolveBufferHandle buffer)
  read (·.requireBuffer buffer)
  let oldBuffer := (← read (·.window window)).buffer
  if oldBuffer = buffer then return
  else
    modify (·.syncBufferUndo oldBuffer)
    onBuffer buffer BufferState.attach
    let tab ← read fun self => found self.windows[window]? (.unknownWindow window)
    let tabpage ← read fun self => found self.tabpages[tab]? (.unknownTabpage tab)
    attachedFor buffer do
      let _ ← read fun _ => fromLayout (tabpage.window window)
      modify fun self => self.modifyView (tabpage.resolve window) fun view =>
        { view with alternateBuffer := some oldBuffer, loclistRef := none, buffer := buffer }
    modify fun self => self.modifyBuffer oldBuffer (·.detach (release = .keepLoaded))

/-- Displays a live buffer in the current window. -/
def setCurrentBuffer (buffer : BufHandle) (release : BufferRelease) :
    EStateM EditorError Editor Unit := do
  let buffer ← read (·.resolveBufferHandle buffer)
  let window ← read fun self => found self.currentWindow .noCurrentTabpage
  setWindowBuffer window buffer release

/-! ## Current window and tabpage -/

/-- The window that is current becomes the previous one when another is entered. -/
def leaveFor (self : Editor) (window : WinHandle) : Editor :=
  match self.currentWindow with
  | some current => if current ≠ window then { self with previousWindow := some current } else self
  | none => self

/-- Makes `window` the current window, recording the previous one. -/
def setCurrentWindow (window : WinHandle) : EStateM EditorError Editor Unit := do
  let resolved ← read (·.resolveWindowHandle window)
  let tab ← read fun self => found self.windows[resolved]? (.unknownWindow resolved)
  modify (·.leaveFor resolved)
  onTabpage tab (TabpageState.setCurrent resolved)
  modify fun self => { self with currentTab := some tab }

/-- Makes a live tabpage current. -/
def setCurrentTabpage (tab : TabHandle) : EStateM EditorError Editor Unit := do
  let tab ← read (·.resolveTabpageHandle tab)
  read (·.requireTabpage tab)
  modify fun self => { self with currentTab := some tab }

/-! ## Tabpages -/

def insertTabpage (buffer : BufHandle) (geometry : Geometry) (index : Nat) :
    EStateM EditorError Editor TabHandle := do
  let buffer ← read (·.resolveBufferHandle buffer)
  read (·.requireBuffer buffer)
  let window ← allocateWindowHandle
  let tab ← allocateTabHandle
  let view := WindowView.new buffer ⟨1, 0⟩
  let layout ← read fun _ => fromLayout (Layout.new window view.toWindowState geometry)
  onBuffer buffer BufferState.attach
  modify fun self => { self with
    windows := self.windows.insert window tab
    views := Function.update self.views window view
    tabpages := self.tabpages.insert tab (.new layout)
    tabOrder := self.tabOrder.insertIdx (min index self.tabOrder.length) tab
    currentTab := some tab }
  return tab

/-- Creates a tabpage with one window displaying `buffer`, after every other. -/
def createTabpage (buffer : BufHandle) (geometry : Geometry) :
    EStateM EditorError Editor TabHandle := do
  insertTabpage buffer geometry (← get).tabOrder.length

/-- Creates a tabpage before the one at `after`, or after the current one. -/
def createTabpageAt (buffer : BufHandle) (geometry : Geometry) (after : Nat) :
    EStateM EditorError Editor TabHandle := do
  let self ← get
  let index :=
    if after = 0 then (self.currentTab.bind self.tabpageIndex).getD self.tabOrder.length
    else min (after - 1) self.tabOrder.length
  insertTabpage buffer geometry index

/-! ## Splits and floats -/

/-- The split of the tabpage in a direction. -/
def splitIn (direction : SplitDirection) (target window : WinHandle) (state : WindowState)
    (enter : Bool) : EStateM LayoutError TabpageState Unit :=
  match direction with
  | .right => TabpageState.splitVertical target window state enter
  | .below => TabpageState.splitHorizontal target window state enter
  | .left => TabpageState.splitLeft target window state enter
  | .above => TabpageState.splitAbove target window state enter

/-- A floating window is not split, but the last tiled one in its place. -/
def splitTarget (tabpage : TabpageState) (target : WinHandle) (config : Option WinConfig) : WinHandle :=
  if config.isSome then tabpage.layout.windows.getLast?.getD target else target

def splitWindow (tab : TabHandle) (target : WinHandle) (buffer : BufHandle)
    (direction : SplitDirection) (enter : Bool) : EStateM EditorError Editor WinHandle := do
  let tab ← read (·.resolveTabpageHandle tab)
  let target ← read (·.resolveWindowHandle target)
  let buffer ← read (·.resolveBufferHandle buffer)
  read (·.requireBuffer buffer)
  read (·.requireTabpage tab)
  let tabpage ← read fun self => found self.tabpages[tab]? (.unknownTabpage tab)
  let config ← read fun _ => fromLayout (tabpage.windowConfig target)
  let target := splitTarget tabpage target config
  let previous := (← get).currentWindow
  let _ ← read fun _ => fromLayout (tabpage.window target)
  let old := (← get).views (tabpage.resolve target)
  let oldHeight ← read fun _ => fromLayout (tabpage.tiledWindowTextHeight target)
  let window ← allocateWindowHandle
  let view := WindowView.new buffer (if buffer = old.buffer then old.cursor else ⟨1, 0⟩)
  onBuffer buffer BufferState.attach
  modify fun self => { self with views := Function.update self.views window view }
  attachedFor buffer (onTabpage tab (splitIn direction target window view.toWindowState enter))
  let tabpage ← read fun self => found self.tabpages[tab]? (.unknownTabpage tab)
  let newHeight ← read fun _ => fromLayout (tabpage.tiledWindowTextHeight target)
  let oldRow := min (old.cursor.lnum - old.topline) (oldHeight - 1)
  let newRow := min (oldRow * newHeight) usizeMax / oldHeight
  let fractionTopline := max (old.cursor.lnum - newRow) 1
  let _ ← read fun _ => fromLayout (tabpage.window target)
  modify fun self => self.modifyView (tabpage.resolve target) fun view =>
    { view with topline := cursorVisibleTopline fractionTopline view.cursor.lnum newHeight }
  if enter then
    modify fun self => { self with previousWindow := previous.filter (· ≠ window) }
  modify fun self => { self with windows := self.windows.insert window tab }
  return window

/-- Splits a tiled window vertically and displays `buffer` on the right. -/
def splitVertical (tab : TabHandle) (target : WinHandle) (buffer : BufHandle) (enter : Bool) :
    EStateM EditorError Editor WinHandle :=
  splitWindow tab target buffer .right enter

/-- Splits a tiled window horizontally and displays `buffer` below. -/
def splitHorizontal (tab : TabHandle) (target : WinHandle) (buffer : BufHandle) (enter : Bool) :
    EStateM EditorError Editor WinHandle :=
  splitWindow tab target buffer .below enter

/-- Splits a tiled window vertically and displays `buffer` to the left. -/
def splitLeft (tab : TabHandle) (target : WinHandle) (buffer : BufHandle) (enter : Bool) :
    EStateM EditorError Editor WinHandle :=
  splitWindow tab target buffer .left enter

/-- Splits a tiled window horizontally and displays `buffer` above. -/
def splitAbove (tab : TabHandle) (target : WinHandle) (buffer : BufHandle) (enter : Bool) :
    EStateM EditorError Editor WinHandle :=
  splitWindow tab target buffer .above enter

/-- The rendered cursor position needed when a float is frozen. It depends on the text and on options
of the anchor window: `cursorScreenPosition` is what `cursor_screen_position` answers for that one. -/
def cursorPositionForFloat (cursorScreenPosition : WinHandle → Except EditorError CursorScreenPosition)
    (self : Editor) (tab : TabHandle) (window : WinHandle) (relative : RelativeTo) :
    Except EditorError CursorScreenPosition := do
  if relative ≠ .cursor then return { row := 0, col := 0 }
  else
    let tabpage ← found self.tabpages[tab]? (.unknownTabpage tab)
    match tabpage.cursorAnchorWindow window with
    | none => return { row := 0, col := 0 }
    | some anchor => cursorScreenPosition anchor

/-- Opens a floating window. -/
def openFloat (cursorScreenPosition : WinHandle → Except EditorError CursorScreenPosition)
    (tab : TabHandle) (buffer : BufHandle) (config : WinConfig) :
    EStateM EditorError Editor WinHandle := do
  let tab ← read (·.resolveTabpageHandle tab)
  let buffer ← read (·.resolveBufferHandle buffer)
  read (·.requireBuffer buffer)
  read (·.requireTabpage tab)
  let window ← allocateWindowHandle
  let cursor ← read (cursorPositionForFloat cursorScreenPosition · tab window config.relative)
  let view := WindowView.new buffer ⟨1, 0⟩
  onBuffer buffer BufferState.attach
  let _ ← read fun self => found self.tabpages[tab]? (.unknownTabpage tab)
  modify fun self => { self with views := Function.update self.views window view }
  attachedFor buffer (onTabpage tab (TabpageState.addFloat window view.toWindowState config cursor))
  modify fun self => { self with windows := self.windows.insert window tab }
  return window

/-! ## Closing -/

/-- Closes a tiled or floating window. -/
def closeWindow (tab : TabHandle) (window : WinHandle) (keepBufferLoaded : Bool) :
    EStateM EditorError Editor WindowView := do
  let tab ← read (·.resolveTabpageHandle tab)
  let window ← read (·.resolveWindowHandle window)
  read (·.requireTabpage tab)
  if (← get).windows[window]? ≠ some tab then throw (.unknownWindow window)
  else
    let tabpage ← read fun self => found self.tabpages[tab]? (.unknownTabpage tab)
    let _ ← read fun _ => fromLayout (tabpage.window window)
    let canonical := (← get).views (tabpage.resolve window)
    if tabpage.floats.any (·.window = window) then
      let _ ← onTabpage tab (TabpageState.removeFloat window)
    else
      let _ ← onTabpage tab (TabpageState.closeTiled window)
    modify fun self => { self with windows := self.windows.erase window }
    modify fun self => self.modifyBuffer canonical.buffer (·.detach keepBufferLoaded)
    return canonical

/-- Drops a window of a tabpage that has been removed. -/
def dropWindow (removed : TabpageState) (self : Editor) (window : WinHandle) : Editor :=
  let self := { self with windows := self.windows.erase window }
  match removed.window window with
  | .ok _ => self.modifyBuffer (self.views (removed.resolve window)).buffer (·.detach true)
  | .error _ => self

/-- Closes a tabpage and every window it owns. -/
def closeTabpage (tab : TabHandle) : EStateM EditorError Editor Unit := do
  let tab ← read (·.resolveTabpageHandle tab)
  read (·.requireTabpage tab)
  if (← get).tabOrder.length ≤ 1 then throw .lastTabpage
  else
    let windows := (← read (·.tabpage tab)).windows
    (windows.drop 1).forM fun window => do
      let _ ← closeWindow tab window true
    let removed ← read fun self => found self.tabpages[tab]? (.unknownTabpage tab)
    modify fun self => { self with tabpages := self.tabpages.erase tab }
    modify fun self => removed.windows.foldl (dropWindow removed) self
    modify fun self => { self with tabOrder := self.tabOrder.filter (· ≠ tab) }
    modify fun self =>
      if self.currentTab = some tab then { self with currentTab := self.tabOrder.head? } else self

end Editor

end Oxvim.Editor
