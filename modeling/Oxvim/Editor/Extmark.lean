import Oxvim.Lib.EState
import Oxvim.Lib.PositionIndex
import Oxvim.Lib.RowCol
import Oxvim.Lib.Usize

/-!
# Extmarks

The extmark store of one buffer: namespaces of marks that keep their place while the text around
them is edited. Each namespace keeps its marks by id and an index of their start positions.

Of a mark's attributes only the flags matter here; the rendering attributes are carried along by the
source and read by none of these functions. Ordered maps are `BTreeMap`s in the source, and a loop
over one visits it in key order.
-/

namespace Oxvim.Editor

open Lib

/-- A zero-based byte-oriented buffer position. -/
abbrev ExtmarkPosition := RowCol

/-- A row/column extent relative to a splice start. For a zero-row extent `columns` is added to the
start column, for a multi-row extent it is the column on the final row. -/
structure TextExtent where
  rows : Nat
  columns : Nat
  deriving DecidableEq, Repr

/-- The empty extent used by a pure insertion or deletion result. -/
def TextExtent.EMPTY : TextExtent := ⟨0, 0⟩

def extentEnd (start : ExtmarkPosition) (extent : TextExtent) : ExtmarkPosition :=
  if extent.rows = 0 then ⟨start.row, satAdd start.column extent.columns⟩
  else ⟨satAdd start.row extent.rows, extent.columns⟩

/-- The single geometry representation shared by live edits and undo replay. -/
structure TextSplice where
  start : ExtmarkPosition
  oldExtent : TextExtent
  newExtent : TextExtent
  deriving DecidableEq, Repr

namespace TextSplice

def fromByteEdit (start stop : ExtmarkPosition) (replacement : List (List UInt8)) : TextSplice :=
  { start
    oldExtent := if start.row = stop.row then ⟨0, stop.column - start.column⟩
      else ⟨stop.row - start.row, stop.column⟩
    newExtent := match replacement with
      | [line] => ⟨0, line.length⟩
      | _ => ⟨replacement.length - 1, (replacement.getLast?.map (·.length)).getD 0⟩ }

def lineAnchored (startRow oldRows newRows : Nat) : TextSplice :=
  { start := ⟨startRow, 0⟩, oldExtent := ⟨oldRows, 0⟩, newExtent := ⟨newRows, 0⟩ }

def oldEnd (self : TextSplice) : ExtmarkPosition := extentEnd self.start self.oldExtent

def newEnd (self : TextSplice) : ExtmarkPosition := extentEnd self.start self.newExtent

/-- The splice that takes the replacement out again. -/
def inverse (self : TextSplice) : TextSplice :=
  { start := self.start, oldExtent := self.newExtent, newExtent := self.oldExtent }

end TextSplice

/-- Which side of text inserted at an endpoint owns that endpoint. -/
inductive ExtmarkGravity where
  | left
  | right
  deriving DecidableEq, Repr

/-- An allocated namespace identifier. -/
abbrev NamespaceId := UInt32

/-- A stable identifier unique within one namespace. -/
abbrev ExtmarkId := UInt32

/-- Independently combinable extmark flags. -/
abbrev ExtmarkFlags := UInt8

namespace ExtmarkFlags

/-- Hide the mark once a deletion consumes its complete configured range. -/
def INVALIDATE : ExtmarkFlags := 4

/-- Restore the mark's exact position when surrounding text is undone. -/
def UNDO_RESTORE : ExtmarkFlags := 8

/-- Whether every flag in `other` is enabled. -/
def contains (self other : ExtmarkFlags) : Bool := self &&& other == other

end ExtmarkFlags

/-- Lifetime attributes attached to an extmark. -/
structure ExtmarkAttributes where
  flags : ExtmarkFlags := ExtmarkFlags.UNDO_RESTORE
  deriving DecidableEq, Repr

/-- The optional end of an extmark range. -/
structure ExtmarkEnd where
  position : ExtmarkPosition
  gravity : ExtmarkGravity
  deriving DecidableEq, Repr

/-- An end with the default left gravity. -/
def ExtmarkEnd.new (position : ExtmarkPosition) : ExtmarkEnd := { position, gravity := .left }

/-- Complete placement data used to create or replace an extmark. -/
structure ExtmarkPlacement where
  position : ExtmarkPosition
  stop : Option ExtmarkEnd
  gravity : ExtmarkGravity
  attributes : ExtmarkAttributes
  deriving DecidableEq, Repr

/-- A stored extmark. -/
structure Extmark where
  namespaceId : NamespaceId
  id : ExtmarkId
  placement : ExtmarkPlacement
  invalid : Bool
  renderOrder : UInt64
  deriving DecidableEq, Repr

namespace Extmark

/-- The current start position. -/
def position (self : Extmark) : ExtmarkPosition := self.placement.position

/-- The end position of a range mark. -/
def stop (self : Extmark) : Option ExtmarkPosition := self.placement.stop.map (·.position)

def hasFlag (self : Extmark) (flag : ExtmarkFlags) : Bool :=
  ExtmarkFlags.contains self.placement.attributes.flags flag

end Extmark

/-- Counts produced by a text splice. -/
structure SpliceResult where
  moved : Nat := 0
  invalidated : Nat := 0
  deriving DecidableEq, Repr

structure SpliceUndoEntry where
  namespaceId : NamespaceId
  id : ExtmarkId
  position : ExtmarkPosition
  stop : Option ExtmarkPosition
  invalid : Bool
  afterPosition : ExtmarkPosition
  afterStop : Option ExtmarkPosition
  afterInvalid : Bool
  restoreBefore : Bool
  deriving DecidableEq, Repr

/-- Compact position and invalidation delta retained with one undo header. -/
structure ExtmarkSpliceUndo where
  splice : TextSplice
  entries : List SpliceUndoEntry
  deriving DecidableEq, Repr

/-- An invalid namespace, id, range, or splice operation. -/
inductive ExtmarkError where
  | namespaceIdExhausted
  | unknownNamespace (namespaceId : NamespaceId)
  | extmarkIdExhausted (namespaceId : NamespaceId)
  | invalidExtmarkId
  | unknownExtmark (namespaceId : NamespaceId) (id : ExtmarkId)
  | endBeforeStart
  deriving DecidableEq, Repr

structure NamespaceState where
  highestId : UInt32 := 0
  byId : Std.ExtTreeMap ExtmarkId Extmark := ∅
  byPosition : PositionIndex ExtmarkPosition ExtmarkId := ∅

/-- One relocated mark: its id, the old and the new start. -/
abbrev Relocation := ExtmarkId × ExtmarkPosition × ExtmarkPosition

namespace NamespaceState

def insertIndex (self : NamespaceState) (position : ExtmarkPosition) (id : ExtmarkId) :
    NamespaceState :=
  { self with byPosition := self.byPosition.insertAt position id }

def removeIndex (self : NamespaceState) (position : ExtmarkPosition) (id : ExtmarkId) :
    NamespaceState :=
  { self with byPosition := self.byPosition.removeAt position id }

/-- Moves one mark's index entry after an in-place geometry change. -/
def moveIndex (self : NamespaceState) (old new : ExtmarkPosition) (id : ExtmarkId) :
    NamespaceState :=
  (self.removeIndex old id).insertIndex new id

def rebuildIndex (self : NamespaceState) : NamespaceState :=
  { self with
    byPosition := PositionIndex.build (self.byId.toList.map fun (id, mark) => (id, mark.position)) }

/-- Reconciles the index after in-place geometry changes. Past the halfway point a rebuild is
cheaper than one move for each relocation. -/
def reconcileIndex (self : NamespaceState) (relocated : List Relocation) : NamespaceState :=
  if self.byId.size < relocated.length * 2 then self.rebuildIndex
  else relocated.foldl (fun self (id, old, new) => self.moveIndex old new id) self

/-- Takes a mark out of the store and its index. -/
def removeMark (self : NamespaceState) (id : ExtmarkId) : NamespaceState :=
  match self.byId[id]? with
  | none => self
  | some mark => { self with byId := self.byId.erase id }.removeIndex mark.position id

end NamespaceState

def transformPosition (position : ExtmarkPosition) (gravity : ExtmarkGravity)
    (start oldEnd newEnd : ExtmarkPosition) (insertion : Bool) : ExtmarkPosition :=
  let atGravity := match gravity with
    | .left => start
    | .right => newEnd
  if position < start then position
  else if insertion && position = start then atGravity
  else if !insertion && position ≤ oldEnd then atGravity
  else if position.row = oldEnd.row then
    ⟨newEnd.row, satAdd newEnd.column (position.column - oldEnd.column)⟩
  else ⟨satAdd newEnd.row (position.row - oldEnd.row), position.column⟩

/-- The position an endpoint takes in a splice. -/
def TextSplice.transform (self : TextSplice) (gravity : ExtmarkGravity)
    (position : ExtmarkPosition) : ExtmarkPosition :=
  transformPosition position gravity self.start self.oldEnd self.newEnd
    (self.oldExtent = TextExtent.EMPTY)

namespace Extmark

/-- A deletion contains the mark's complete span, and the mark asks to be invalidated then. -/
def consumedBy (self : Extmark) (splice : TextSplice) : Bool :=
  splice.oldExtent ≠ TextExtent.EMPTY && !self.invalid && self.hasFlag ExtmarkFlags.INVALIDATE &&
    match self.stop with
    | some stop => decide (splice.start ≤ self.position ∧ stop ≤ splice.oldEnd)
    | none => decide (0 < splice.oldExtent.rows ∧ splice.start ≤ self.position ∧
        self.position.row < splice.oldEnd.row)

/-- Such a mark is deleted instead of hidden when undo must not restore it. -/
def removedBy (self : Extmark) (splice : TextSplice) : Bool :=
  self.consumedBy splice && !self.hasFlag ExtmarkFlags.UNDO_RESTORE

/-- Both endpoints moved by a splice; where they cross they are ordered again, each endpoint keeping
its gravity. -/
def moveBy (self : Extmark) (splice : TextSplice) : ExtmarkPlacement :=
  let position := splice.transform self.placement.gravity self.position
  match self.placement.stop with
  | none => { self.placement with position }
  | some stop =>
    let stopPosition := splice.transform stop.gravity stop.position
    if stopPosition < position then
      { self.placement with
        position := stopPosition, stop := some { stop with position := position } }
    else { self.placement with position, stop := some { stop with position := stopPosition } }

/-- The mark after a splice that does not remove it. -/
def spliced (self : Extmark) (splice : TextSplice) : Extmark :=
  { self with placement := self.moveBy splice, invalid := self.invalid || self.consumedBy splice }

/-- A deletion begins at or before an endpoint and ends behind it. -/
def touchedBy (self : Extmark) (splice : TextSplice) : Bool :=
  splice.oldExtent ≠ TextExtent.EMPTY &&
    (decide (splice.start ≤ self.position ∧ self.position < splice.oldEnd) ||
      self.stop.any fun stop => decide (splice.start ≤ stop ∧ stop < splice.oldEnd))

/-- Position and end of the mark differ. -/
def movedFrom (self old : Extmark) : Bool :=
  self.position ≠ old.position || self.stop ≠ old.stop

/-- The undo entry of a mark that the splice changed or touched. -/
def undoEntry (self : Extmark) (splice : TextSplice) : Option SpliceUndoEntry :=
  let after := self.spliced splice
  if after.movedFrom self || after.invalid ≠ self.invalid || self.touchedBy splice then
    some
      { namespaceId := after.namespaceId
        id := after.id
        position := self.position
        stop := self.stop
        invalid := self.invalid
        afterPosition := after.position
        afterStop := after.stop
        afterInvalid := after.invalid
        restoreBefore := true }
  else none

/-- The relocation of a mark that starts elsewhere after a splice. -/
def relocation (self : Extmark) (splice : TextSplice) : Option Relocation :=
  let after := self.spliced splice
  if after.position ≠ self.position then some (after.id, self.position, after.position) else none

/-- A mark that survives an unload stays hidden at the origin. -/
def unloaded (self : Extmark) : Option Extmark :=
  if self.hasFlag ExtmarkFlags.INVALIDATE && self.hasFlag ExtmarkFlags.UNDO_RESTORE then
    some { self with
      placement := { self.placement with
        position := ⟨0, 0⟩
        stop := self.placement.stop.map ({ · with position := ⟨0, 0⟩ }) }
      invalid := true }
  else none

end Extmark

namespace NamespaceState

/-- The marks in id order. -/
def marks (self : NamespaceState) : List Extmark := self.byId.toList.map (·.2)

/-- The marks that stay in the store through a splice. -/
def kept (self : NamespaceState) (splice : TextSplice) : List Extmark :=
  self.marks.filter fun mark => !mark.removedBy splice

def spliceResult (self : NamespaceState) (splice : TextSplice) : SpliceResult :=
  { moved := (self.kept splice).countP fun mark => (mark.spliced splice).movedFrom mark
    invalidated := self.marks.countP (·.consumedBy splice) }

def spliceEntries (self : NamespaceState) (splice : TextSplice) : List SpliceUndoEntry :=
  (self.kept splice).filterMap (·.undoEntry splice)

/-- The namespace after a splice. Marks are changed in place, the removed ones taken out, and the
index reconciled last: until then it holds the old key of each relocated mark. -/
def splice (self : NamespaceState) (splice : TextSplice) : NamespaceState :=
  let removed := (self.marks.filter (·.removedBy splice)).map (·.id)
  let relocated := (self.kept splice).filterMap (·.relocation splice)
  let byId := self.byId.map fun _ mark =>
    if mark.removedBy splice then mark else mark.spliced splice
  let self := removed.foldl removeMark { self with byId }
  self.reconcileIndex relocated

/-- One namespace of `invalidate_for_unload`. -/
def invalidateForUnload (self : NamespaceState) : NamespaceState :=
  let kept := self.byId.toList.filterMap fun (id, mark) => mark.unloaded.map (id, ·)
  { self with byId := kept.foldl (fun byId (id, mark) => byId.insert id mark) ∅ }.rebuildIndex

end NamespaceState

/-- Namespace-isolated extmark storage for one buffer. -/
structure Extmarks where
  highestNamespace : UInt32 := 0
  namedNamespaces : Std.ExtTreeMap String NamespaceId := ∅
  namespaces : Std.ExtTreeMap NamespaceId NamespaceState := ∅
  nextRenderOrder : UInt64 := 0

def validatePlacement (placement : ExtmarkPlacement) : Except ExtmarkError Unit :=
  if placement.stop.any fun stop => stop.position < placement.position then .error .endBeforeStart
  else .ok ()

def orderedBounds (first last : ExtmarkPosition) : ExtmarkPosition × ExtmarkPosition :=
  if first ≤ last then (first, last) else (last, first)

/-- Puts recorded endpoints and validity back. -/
def applyRecordedGeometry (mark : Extmark) (position : ExtmarkPosition)
    (stop : Option ExtmarkPosition) (invalid : Bool) : Extmark :=
  { mark with
    placement := { mark.placement with
      position
      stop := match mark.placement.stop, stop with
        | some existing, some position => some { existing with position }
        | none, some position => some (.new position)
        | _, none => none }
    invalid }

namespace Extmarks

def namespaceState (self : Extmarks) (ns : NamespaceId) : Except ExtmarkError NamespaceState :=
  match self.namespaces[ns]? with
  | some state => .ok state
  | none => .error (.unknownNamespace ns)

/-- Writes a namespace back after a change through `namespace_mut`. -/
def putState (self : Extmarks) (ns : NamespaceId) (state : NamespaceState) : Extmarks :=
  { self with namespaces := self.namespaces.insert ns state }

/-- A mark by namespace and id. -/
def mark? (self : Extmarks) (ns : NamespaceId) (id : ExtmarkId) : Option Extmark :=
  self.namespaces[ns]?.bind (·.byId[id]?)

/-- Creates or retrieves a namespace; an empty name always allocates a new anonymous one. -/
def createNamespace (name : String) : EStateM ExtmarkError Extmarks NamespaceId := do
  let self ← get
  match if name.isEmpty then none else self.namedNamespaces[name]? with
  | some id => return id
  | none =>
    if self.highestNamespace.toNat + 1 = UInt32.size then throw .namespaceIdExhausted
    else
      let id := self.highestNamespace + 1
      set { self with
        highestNamespace := id
        namespaces := self.namespaces.insert id {}
        namedNamespaces := if name.isEmpty then self.namedNamespaces
          else self.namedNamespaces.insert name id }
      return id

/-- Ensures a namespace allocated by the editor-global registry exists locally. -/
def ensureNamespace (self : Extmarks) (ns : NamespaceId) : Extmarks :=
  { self with
    highestNamespace := max self.highestNamespace ns
    namespaces := self.namespaces.insertIfNew ns {} }

/-- The part of `set` that writes the namespace. -/
def placeMark (state : NamespaceState) (mark : Extmark) : NamespaceState :=
  let state := match state.byId[mark.id]? with
    | some old => state.removeIndex old.position mark.id
    | none => state
  { state with byId := state.byId.insert mark.id mark }.insertIndex mark.position mark.id

/-- The order of an existing mark, or the next one. -/
def takeRenderOrder (ns : NamespaceId) (existing : Option UInt64) :
    EStateM ExtmarkError Extmarks UInt64 := do
  match existing with
  | some renderOrder => return renderOrder
  | none =>
    let self ← get
    if self.nextRenderOrder.toNat + 1 = UInt64.size then throw (.extmarkIdExhausted ns)
    else
      set { self with nextRenderOrder := self.nextRenderOrder + 1 }
      return self.nextRenderOrder

/-- The requested id or the next free one, and the highest id then. -/
def takeId (ns : NamespaceId) (state : NamespaceState) (requestedId : Option ExtmarkId) :
    Except ExtmarkError (ExtmarkId × UInt32) :=
  match requestedId with
  | some id => .ok (id, max state.highestId id)
  | none =>
    if state.highestId.toNat + 1 = UInt32.size then .error (.extmarkIdExhausted ns)
    else .ok (state.highestId + 1, state.highestId + 1)

/-- Inserts a mark or replaces the mark with the requested id. -/
def setMark (ns : NamespaceId) (requestedId : Option ExtmarkId) (placement : ExtmarkPlacement) :
    EStateM ExtmarkError Extmarks ExtmarkId := do
  MonadExcept.ofExcept (validatePlacement placement)
  let state ← MonadExcept.ofExcept ((← get).namespaceState ns)
  let existingOrder := (requestedId.bind (state.byId[·]?)).map (·.renderOrder)
  let renderOrder ← takeRenderOrder ns existingOrder
  let (id, highestId) ← MonadExcept.ofExcept (takeId ns state requestedId)
  let mark : Extmark := { namespaceId := ns, id, placement, invalid := false, renderOrder }
  modify (·.putState ns (placeMark { state with highestId } mark))
  return id

/-- Replaces an existing mark without permitting accidental creation. -/
def update (ns : NamespaceId) (id : ExtmarkId) (placement : ExtmarkPlacement) :
    EStateM ExtmarkError Extmarks Unit := do
  let state ← MonadExcept.ofExcept ((← get).namespaceState ns)
  if !state.byId.contains id then throw (.unknownExtmark ns id)
  discard (setMark ns (some id) placement)

/-- Deletes a mark, returning whether it existed. -/
def delete (ns : NamespaceId) (id : ExtmarkId) : EStateM ExtmarkError Extmarks Bool := do
  let self ← get
  let state ← MonadExcept.ofExcept (self.namespaceState ns)
  set (self.putState ns (state.removeMark id))
  return state.byId.contains id

/-- Clears marks whose starts lie within inclusive bounds. -/
def clear (ns : NamespaceId) (first last : ExtmarkPosition) :
    EStateM ExtmarkError Extmarks Nat := do
  let self ← get
  let state ← MonadExcept.ofExcept (self.namespaceState ns)
  let (lower, upper) := orderedBounds first last
  let ids := (state.byPosition.entriesIn lower upper).map (·.2)
  set (self.putState ns (ids.foldl NamespaceState.removeMark state))
  return ids.length

/-- The loop of `query`: looks the ids up until there are `capacity` marks. -/
def collect (state : NamespaceState) : Option Nat → List ExtmarkId → List Extmark
  | _, [] => []
  | capacity, id :: ids => match state.byId[id]? with
    | none => collect state capacity ids
    | some mark => match capacity with
      | some 1 => [mark]
      | _ => mark :: collect state (capacity.map (· - 1)) ids

/-- Marks in traversal order within inclusive bounds, reversed when `last < first`. `none` means
unlimited. -/
def query (self : Extmarks) (ns : NamespaceId) (first last : ExtmarkPosition)
    (limit : Option Nat) : Except ExtmarkError (List Extmark) := do
  let state ← self.namespaceState ns
  if limit = some 0 then return []
  let (lower, upper) := orderedBounds first last
  let entries := state.byPosition.entriesIn lower upper
  let ids := (if first ≤ last then entries else entries.reverse).map (·.2)
  return collect state limit ids

/-- Hides the marks that ask for it and drops the rest when a nofile buffer unloads. -/
def invalidateForUnload (self : Extmarks) : Extmarks :=
  { self with namespaces := self.namespaces.map fun _ state => state.invalidateForUnload }

/-- Applies a text replacement to every namespace, and returns what undo needs. -/
def spliceRecording (self : Extmarks) (splice : TextSplice) :
    (SpliceResult × ExtmarkSpliceUndo) × Extmarks :=
  let states := self.namespaces.toList.map (·.2)
  let result := { moved := (states.map fun state => (state.spliceResult splice).moved).sum
                  invalidated := (states.map fun state => (state.spliceResult splice).invalidated).sum }
  ((result, { splice, entries := states.flatMap (·.spliceEntries splice) }),
    { self with namespaces := self.namespaces.map fun _ state => state.splice splice })

/-- `splice`. -/
def applySplice (self : Extmarks) (splice : TextSplice) : Extmarks := (self.spliceRecording splice).2

/-- Groups relocations by namespace and reconciles each index. -/
def reconcileRelocations (self : Extmarks) (relocated : List (NamespaceId × Relocation)) :
    Extmarks :=
  let touched := (relocated.map (·.1)).dedup.mergeSort (· ≤ ·)
  touched.foldl (fun self ns => match self.namespaces[ns]? with
    | some state => self.putState ns (state.reconcileIndex
        ((relocated.filter (·.1 == ns)).map (·.2)))
    | none => self) self

/-- One step of a replay: the mark of the entry takes the recorded geometry, and is noted when its
start moves. -/
def replayEntry (geometry : SpliceUndoEntry → ExtmarkPosition × Option ExtmarkPosition × Bool)
    (acc : Extmarks × List (NamespaceId × Relocation)) (entry : SpliceUndoEntry) :
    Extmarks × List (NamespaceId × Relocation) :=
  let (self, relocated) := acc
  match self.namespaces[entry.namespaceId]? with
  | none => acc
  | some state => match state.byId[entry.id]? with
    | none => acc
    | some mark =>
      let (position, stop, invalid) := geometry entry
      let after := applyRecordedGeometry mark position stop invalid
      (self.putState entry.namespaceId { state with byId := state.byId.insert entry.id after },
        if after.position ≠ mark.position then
          relocated ++ [(entry.namespaceId, entry.id, mark.position, after.position)]
        else relocated)

/-- Replays the entries whose mark is restorable, then reconciles the indexes. -/
def replay (self : Extmarks) (restorable : List (NamespaceId × ExtmarkId))
    (geometry : SpliceUndoEntry → ExtmarkPosition × Option ExtmarkPosition × Bool)
    (entries : List SpliceUndoEntry) : Extmarks :=
  let (self, relocated) := (entries.filter fun entry =>
    restorable.contains (entry.namespaceId, entry.id)).foldl (replayEntry geometry) (self, [])
  self.reconcileRelocations relocated

/-- Splices the replacement out again, then puts back what the forward splice recorded of the marks
it finds as that splice left them. -/
def undoSplice (self : Extmarks) (undo : ExtmarkSpliceUndo) : Extmarks :=
  let restorable := undo.entries.filterMap fun entry => do
    let mark ← self.mark? entry.namespaceId entry.id
    if mark.position = entry.afterPosition ∧ mark.stop = entry.afterStop ∧
      mark.invalid = entry.afterInvalid then
      some (entry.namespaceId, entry.id)
    else none
  (self.applySplice undo.splice.inverse).replay restorable
    (fun entry => (entry.position, entry.stop, entry.invalid))
    (undo.entries.filter (·.restoreBefore))

/-- Splices the replacement in again, then puts back what the forward splice recorded. -/
def redoSplice (self : Extmarks) (undo : ExtmarkSpliceUndo) : Extmarks :=
  let restorable := undo.entries.filterMap fun entry => do
    let mark ← self.mark? entry.namespaceId entry.id
    if !entry.restoreBefore ∨ (mark.position = entry.position ∧ mark.stop = entry.stop ∧
      mark.invalid = entry.invalid) then
      some (entry.namespaceId, entry.id)
    else none
  (self.applySplice undo.splice).replay restorable
    (fun entry => (entry.afterPosition, entry.afterStop, entry.afterInvalid)) undo.entries

end Extmarks

end Oxvim.Editor
