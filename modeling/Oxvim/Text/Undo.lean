import Oxvim.Lib.EState
import Oxvim.Text.Buffer

/-!
# Branching undo history

The undo tree of `ox-text`. One node is one undo *header*, and a header carries the edits of one
undo block in the order they were applied. Nodes live in a vector and refer to one another by
index; node zero is the original text and carries no header.

Navigation methods take `&mut self` and return a `Result`: they are programs in `EStateM`, so a
failing call shows the tree it leaves behind. The loops that follow parent or child links run on
fuel; `Oxvim.Text.UndoInvariant` shows that the fuel they get is enough.

Sequence numbers are `u64` in the source, advanced with saturation. One is allocated for each node
of a vector, so the bound is out of reach and `Nat` is used.
-/

namespace Oxvim.Text

open Lib

/-- Cursor saved with an undo entry. -/
structure Cursor where
  lnum : Nat := 0
  col : Nat := 0
  deriving DecidableEq, Repr

/-- One line-range replacement and its inverse. -/
structure LineEdit where
  start : Nat
  before : List Line
  after : List Line
  cursorBefore : Cursor
  cursorAfter : Cursor
  deriving DecidableEq, Repr

/-- A recorded undo header. -/
structure UndoEntry where
  seq : Nat
  timestamp : Int
  edits : List LineEdit
  deriving DecidableEq, Repr

namespace UndoEntry

/-- The cursor to restore when this header is undone. -/
def cursorBefore (self : UndoEntry) : Cursor :=
  self.edits.head?.elim {} (·.cursorBefore)

/-- The cursor to restore when this header is redone. -/
def cursorAfter (self : UndoEntry) : Cursor :=
  self.edits.getLast?.elim {} (·.cursorAfter)

end UndoEntry

/-- Direction and entry returned to the buffer owner. -/
inductive UndoStep where
  | undo (entry : UndoEntry)
  | redo (entry : UndoEntry)
  deriving DecidableEq, Repr

/-- Undo-tree navigation errors. -/
inductive UndoError where
  | atOldest
  | atNewest
  | branch (requested available : Nat)
  | unknownSequence (seq : Nat)
  | joinAfterUndo
  deriving DecidableEq, Repr

structure Node where
  entry : Option UndoEntry := none
  parent : Option Nat := none
  children : List Nat := []
  preferredChild : Option Nat := none
  deriving DecidableEq, Repr, Inhabited

/-- Link coordinates of one undo header, zero for no link. -/
structure HeaderRecord where
  seq : Nat
  timestamp : Int
  edits : List LineEdit
  next : Nat
  prev : Nat
  altNext : Nat
  altPrev : Nat
  deriving DecidableEq, Repr

/-- One header as `undotree()` reports it. -/
inductive UndoTreeNode where
  | mk (seq : Nat) (timestamp : Int) (newhead curhead : Bool) (alt : List UndoTreeNode)

/-- Tree-wide fields of the persistent-undo header. -/
structure UndoSummary where
  oldhead : Nat
  newhead : Nat
  curhead : Nat
  seqLast : Nat
  seqCur : Nat
  timeCur : Int
  deriving DecidableEq, Repr

/-- An explicit branch-preserving undo tree. `synced` is true when the newest header is closed, so
that the next recorded edit starts a new one. -/
structure UndoTree where
  nodes : List Node
  current : Nat
  nextSeq : Nat
  synced : Bool
  deriving DecidableEq, Repr

namespace UndoTree

/-- A tree at sequence zero. -/
def new : UndoTree := { nodes := [{}], current := 0, nextSeq := 1, synced := true }

/-- `self.nodes[index]`. -/
def node (self : UndoTree) (index : Nat) : Node := self.nodes.getD index {}

def modifyNode (self : UndoTree) (index : Nat) (f : Node → Node) : UndoTree :=
  { self with nodes := self.nodes.modify index f }

/-- Closes the open header so the next edit starts a new undo block. -/
def sync (self : UndoTree) : UndoTree := { self with synced := true }

/-- The number of edits grouped into the current header, zero at the root. -/
def currentBlockLen (self : UndoTree) : Nat :=
  (self.node self.current).entry.elim 0 (·.edits.length)

/-- The current sequence, zero at the root. -/
def currentSeq (self : UndoTree) : Nat :=
  (self.node self.current).entry.elim 0 (·.seq)

/-- The child of `index` that continues the active branch. -/
def activeChild (self : UndoTree) (index : Nat) : Option Nat :=
  match (self.node index).preferredChild with
  | some child => (self.node index).children[child]?
  | none => (self.node index).children.getLast?

/-- Reopens the newest header so the next edit joins it. -/
def undojoin : EStateM UndoError UndoTree Unit := do
  let self ← get
  if !self.synced then return
  if (self.node self.current).entry.isNone then
    if 1 < self.nextSeq then throw .joinAfterUndo else return
  if (self.activeChild self.current).isSome then throw .joinAfterUndo
  set { self with synced := false }

/-- The edit joins the open header. -/
def pushEdit (self : UndoTree) (edit : LineEdit) : UndoTree :=
  self.modifyNode self.current fun node =>
    { node with entry := node.entry.map fun entry => { entry with edits := entry.edits ++ [edit] } }

/-- The edit starts a new header below the current one. -/
def pushNode (self : UndoTree) (edit : LineEdit) (timestamp : Int) : UndoTree :=
  let seq := self.nextSeq
  let nodeIndex := self.nodes.length
  let childIndex := (self.node self.current).children.length
  let node : Node :=
    { entry := some { seq, timestamp, edits := [edit] }, parent := some self.current }
  let self' : UndoTree := { self with nodes := self.nodes ++ [node] }
  { self'.modifyNode self.current fun node =>
      { node with children := node.children ++ [nodeIndex], preferredChild := some childIndex } with
    current := nodeIndex, nextSeq := self.nextSeq + 1, synced := false }

/-- Records an edit, starting a new header or joining the open one. Returns the sequence of the
header the edit landed in. -/
def record (self : UndoTree) (edit : LineEdit) (timestamp : Int) : Nat × UndoTree :=
  match self.synced, (self.node self.current).entry with
  | false, some entry => (entry.seq, self.pushEdit edit)
  | _, _ => (self.nextSeq, self.pushNode edit timestamp)

/-- Moves to the parent state, closing the open block first. -/
def undo : EStateM UndoError UndoTree UndoStep := do
  let self ← get
  let some parent := (self.node self.current).parent | throw .atOldest
  let some entry := (self.node self.current).entry | throw .atOldest
  let self := match (self.node parent).children.findIdx? (· == self.current) with
    | some index => self.modifyNode parent ({ · with preferredChild := some index })
    | none => self
  set { self with current := parent, synced := true }
  return .undo entry

/-- Reapplies a selected zero-based child branch. -/
def redoBranch (branch : Nat) : EStateM UndoError UndoTree UndoStep := do
  let self ← get
  let available := (self.node self.current).children.length
  let some child := (self.node self.current).children[branch]?
    | throw (if available = 0 then .atNewest else .branch branch available)
  let self := self.modifyNode self.current ({ · with preferredChild := some branch })
  let self := { self with current := child }
  set self
  let some entry := (self.node child).entry | throw .atNewest
  set { self with synced := true }
  return .redo entry

/-- Reapplies the preferred child branch. -/
def redo : EStateM UndoError UndoTree UndoStep := do
  let self ← get
  let node := self.node self.current
  redoBranch (node.preferredChild.getD (node.children.length - 1))

/-- Child sequence numbers in branch order. -/
def branches (self : UndoTree) : List Nat :=
  (self.node self.current).children.filterMap fun child =>
    (self.node child).entry.map (·.seq)

/-- The nodes from `index` up to the root. -/
def pathToRoot (self : UndoTree) : (fuel index : Nat) → List Nat
  | 0, index => [index]
  | fuel + 1, index => index :: match (self.node index).parent with
    | some parent => self.pathToRoot fuel parent
    | none => []

/-- The upward loop of `undoToSeq`: undoes until `common` is the current node. -/
def undoUntil (common : Nat) : (fuel : Nat) → EStateM UndoError UndoTree (List UndoStep)
  | 0 => return []
  | fuel + 1 => do
    if (← get).current = common then return []
    let step ← undo
    return step :: (← undoUntil common fuel)

/-- The downward loop of `undoToSeq`: redoes along the given nodes. -/
def redoAlong (seq : Nat) : List Nat → EStateM UndoError UndoTree (List UndoStep)
  | [] => return []
  | child :: down => do
    let self ← get
    let some branch := (self.node self.current).children.findIdx? (· == child)
      | throw (.unknownSequence seq)
    let step ← redoBranch branch
    return step :: (← redoAlong seq down)

/-- The node that carries `seq`, the root for zero. -/
def targetOf (self : UndoTree) (seq : Nat) : Option Nat :=
  if seq = 0 then some 0
  else self.nodes.findIdx? fun node => node.entry.any (·.seq == seq)

/-- Navigates to an arbitrary sequence, returning edits in application order. -/
def undoToSeq (seq : Nat) : EStateM UndoError UndoTree (List UndoStep) := do
  let self ← get
  let some target := self.targetOf seq | throw (.unknownSequence seq)
  let currentPath := self.pathToRoot self.nodes.length self.current
  let targetPath := self.pathToRoot self.nodes.length target
  let common := (currentPath.find? targetPath.contains).getD 0
  let up ← undoUntil common self.nodes.length
  let down ← redoAlong seq (targetPath.takeWhile (· != common)).reverse
  return up ++ down

def seqOf (self : UndoTree) (index : Nat) : Nat :=
  (self.node index).entry.elim 0 (·.seq)

/-- The children of `parent` off the active branch, newest first. -/
def inactive (self : UndoTree) (parent : Nat) : List Nat :=
  (((self.node parent).children.filter (some · != self.activeChild parent)).mergeSort
    (· ≤ ·)).reverse

/-- The links among the children of one node: the newest inactive sibling hangs off the active
child, and each inactive sibling off the next newer one. -/
def linkSiblings (self : UndoTree) (links : List (Option Nat) × List (Option Nat)) (parent : Nat) :
    List (Option Nat) × List (Option Nat) :=
  match self.inactive parent with
  | [] => links
  | newest :: older =>
    let altNext := match self.activeChild parent with
      | some active => links.1.set active (some newest)
      | none => links.1
    let inactive := newest :: older
    inactive.zipIdx.foldl (fun (altNext, altPrev) (sibling, slot) =>
      (altNext.set sibling inactive[slot + 1]?,
        altPrev.set sibling (if slot = 0 then self.activeChild parent else inactive[slot - 1]?)))
      (altNext, links.2)

/-- The alternate-branch sibling links, by node index. -/
def altLinks (self : UndoTree) : List (Option Nat) × List (Option Nat) :=
  let count := self.nodes.length
  (List.range count).foldl self.linkSiblings (List.replicate count none, List.replicate count none)

/-- Header records for every node with an entry. -/
def headerRecords (self : UndoTree) : List HeaderRecord :=
  let (altNextOf, altPrevOf) := self.altLinks
  self.nodes.zipIdx.filterMap fun (node, index) => node.entry.map fun entry =>
    { seq := entry.seq
      timestamp := entry.timestamp
      edits := entry.edits
      next := node.parent.elim 0 self.seqOf
      prev := (self.activeChild index).elim 0 self.seqOf
      altNext := (altNextOf.getD index none).elim 0 self.seqOf
      altPrev := (altPrevOf.getD index none).elim 0 self.seqOf }

/-- The last node of the active branch below `index`. -/
def activeLeaf (self : UndoTree) : (fuel index : Nat) → Nat
  | 0, index => index
  | fuel + 1, index => match self.activeChild index with
    | some child => self.activeLeaf fuel child
    | none => index

def evalChain (self : UndoTree) (altNextOf : List (Option Nat)) (newhead : Nat)
    (curhead : Option Nat) : (fuel : Nat) → Option Nat → List UndoTreeNode
  | 0, _ => []
  | _ + 1, none => []
  | fuel + 1, some node => match (self.node node).entry with
    | none => []
    | some entry =>
      .mk entry.seq entry.timestamp (node == newhead) (curhead == some node)
        (self.evalChain altNextOf newhead curhead fuel (altNextOf.getD node none)) ::
      self.evalChain altNextOf newhead curhead fuel (self.activeChild node)

/-- The header list `undotree()` reports, oldest first along the active branch with inactive
branches nested under `alt`. -/
def entries (self : UndoTree) : List UndoTreeNode :=
  self.evalChain self.altLinks.1 (self.activeLeaf self.nodes.length self.current)
    (self.activeChild self.current) self.nodes.length (self.activeChild 0)

/-- The top-level header fields for serialization. -/
def summary (self : UndoTree) : UndoSummary :=
  { oldhead := (self.activeChild 0).elim 0 self.seqOf
    newhead := self.seqOf (self.activeLeaf self.nodes.length self.current)
    curhead := (self.activeChild self.current).elim 0 self.seqOf
    seqLast := self.nextSeq - 1
    seqCur := self.currentSeq
    timeCur := (self.node self.current).entry.elim 0 (·.timestamp) }

end UndoTree

end Oxvim.Text
