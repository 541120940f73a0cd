import Oxvim.Editor.Extmark
import Oxvim.Editor.Fold
import Oxvim.Text.Marks
import Oxvim.Text.Undo

/-!
# Buffer state

The text of a buffer together with everything that has to follow it: the undo tree, named marks,
extmarks, manual folds, the prompt row, the change counters, the `MODIFIED` flag, and the queue of
update events for attached listeners.

Methods that take `&mut self` and return a `Result` are programs in `EStateM`: what a failing call
has already changed stays changed. Of the subscriptions only their identities matter here. Names,
variables and the prompt text are read by none of these methods.

Sizes of lines that are in memory are added as natural numbers.
-/

namespace Oxvim.Editor

open Lib Text

/-- The offset at which the counter becomes visible to scripts. -/
def INITIAL_CHANGEDTICK : UInt64 := 2

/-- The projection of one committed buffer update used by line and reload notifications. -/
inductive BufferUpdateKind where
  | mutation (oldLineCount oldByteSize deletedCodepoints deletedCodeunits : Nat)
      (newLines : List Line)
  | reload
  | changedtick
  deriving DecidableEq, Repr

/-- One committed buffer update. -/
structure BufferBytesEvent where
  subscribers : List Nat
  tick : UInt64
  startRow : Nat := 0
  startCol : Nat := 0
  startByte : Nat := 0
  oldRow : Nat := 0
  oldCol : Nat := 0
  oldByte : Nat := 0
  newRow : Nat := 0
  newCol : Nat := 0
  newByte : Nat := 0
  update : BufferUpdateKind
  deriving DecidableEq, Repr

/-- The bytes that one row of a span contributes. -/
def rowBytes (lines : List Line) (start stop : ExtmarkPosition) (row : Nat) : Nat :=
  let lineLen := (lines[row - start.row]?).elim 0 (·.length)
  if row = start.row ∧ row = stop.row then stop.column - start.column
  else if row = start.row then lineLen - start.column + 1
  else if row = stop.row then stop.column
  else lineLen + 1

/-- Byte length of the span from `start` to `stop` across full line bodies; `lines[0]` is the whole
line of the start row. -/
def spanBytes (lines : List Line) (start stop : ExtmarkPosition) : Nat :=
  ((List.range' start.row (stop.row + 1 - start.row)).map (rowBytes lines start stop)).sum

/-- The number of UTF-16 code units of a character. -/
def utf16Len (c : Char) : Nat := if c.toNat < 0x10000 then 1 else 2

/-- The linewise byte, UTF-32 and UTF-16 sizes of deleted lines. Lines of a buffer are UTF-8, so
`from_utf8_lossy` replaces nothing in them. -/
def linewiseDeletedSizes (lines : List Line) : Nat × Nat × Nat :=
  lines.foldl (fun (bytes, codepoints, codeunits) line =>
    let text := (Utf8.decode? line).getD []
    (bytes + (line.length + 1), codepoints + (text.length + 1),
      codeunits + ((text.map utf16Len).sum + 1))) (0, 0, 0)

/-- End column relative to the change start: absolute when the span covers several rows. -/
def endColumn (stop start : ExtmarkPosition) : Nat :=
  if stop.row = start.row then stop.column - start.column else stop.column

/-- Failures while validating a byte-precise buffer text edit. -/
inductive BufferTextEditError where
  | reversedRange
  | outOfRange
  | notCharBoundary (column : Nat)
  | embeddedNewline
  | invalidUtf8
  deriving DecidableEq, Repr

/-- Failures while changing a buffer or its lifecycle. -/
inductive BufferStateError where
  | text (error : BufferError)
  | attached (windows : Nat)
  | unloaded
  | fold (error : FoldError)
  | undo (error : UndoError)
  | textEdit (error : BufferTextEditError)
  deriving DecidableEq, Repr

/-- One byte-precise text replacement against a pre-edit snapshot. -/
structure BufferTextEditRequest where
  start : ExtmarkPosition
  stop : ExtmarkPosition
  replacement : List Line
  deriving DecidableEq, Repr

structure PreparedBufferTextEdit where
  startLine : Nat
  before : List Line
  after : List Line
  splice : TextSplice
  deriving DecidableEq, Repr

def PreparedBufferTextEdit.preservesLineCount (self : PreparedBufferTextEdit) : Bool :=
  self.before.length = self.after.length

/-- Independently combinable buffer status flags. -/
abbrev BufferFlags := UInt8

namespace BufferFlags

/-- Resident text differs from the last saved undo state. -/
def MODIFIED : BufferFlags := 1

/-- The buffer appears in the buffer list. -/
def LISTED : BufferFlags := 4

/-- Whether every flag in `other` is enabled. -/
def contains (self other : BufferFlags) : Bool := self &&& other == other

/-- Enables or disables `flag` without touching the other bits. -/
def set (self flag : BufferFlags) (enabled : Bool) : BufferFlags :=
  if enabled then self ||| flag else self &&& ~~~flag

end BufferFlags

/-- Whether a buffer's text is resident, and whether it has a window. -/
inductive BufferResidency where
  | displayed
  | hidden
  | unloaded
  deriving DecidableEq, Repr

/-- Text and buffer-local state. -/
structure BufferState where
  text : Buffer
  subscriptions : List Nat
  pendingBytes : List BufferBytesEvent
  undoTree : UndoTree
  marks : Marks
  extmarks : Extmarks
  extmarkUndo : Std.ExtTreeMap Nat (List ExtmarkSpliceUndo)
  folds : Folds
  flags : BufferFlags
  promptStart : Nat
  changedtick : UInt64
  savedChangedtick : UInt64
  savedHasEol : Bool
  savedUndoState : Nat × Nat
  forcedModified : Bool
  residency : BufferResidency
  attachments : Nat
  changedtickDiag : UInt64
  changedtickFold : UInt64

/-- Metadata recovered by replaying one undo or redo step. -/
structure ReplayedEdit where
  seq : Nat
  start : Nat
  oldCount : Nat
  newCount : Nat
  cursor : Position
  deriving DecidableEq, Repr

def isUtf8Boundary (bytes : Line) (col : Nat) : Bool :=
  match bytes[col]? with
  | none => true
  | some byte => byte &&& 0xC0 != 0x80

/-- The lines after a byte edit: the prefix of the first line and the suffix of the last one around
the replacement. -/
def composeReplacementLines (before : List Line) (startColumn endColumn : Nat)
    (replacement : List Line) : List Line :=
  let prefixOf := (before.headD []).take startColumn
  let suffixOf := (before.getLastD []).drop endColumn
  match replacement with
  | [] => []
  | [line] => [prefixOf ++ line ++ suffixOf]
  | first :: rest => (prefixOf ++ first) :: rest.dropLast ++ [rest.getLastD [] ++ suffixOf]

namespace BufferState

/-- Creates a loaded buffer with no window attachments. -/
def new (text : Buffer) (listed : Bool) : BufferState :=
  { text
    subscriptions := []
    pendingBytes := []
    undoTree := .new
    marks := {}
    extmarks := {}
    extmarkUndo := ∅
    folds := {}
    flags := BufferFlags.set 0 BufferFlags.LISTED listed
    promptStart := max text.lineCount 1
    changedtick := 0
    savedChangedtick := 0
    savedHasEol := text.hasEol
    savedUndoState := (0, 0)
    forcedModified := false
    residency := .hidden
    attachments := 0
    changedtickDiag := 0
    changedtickFold := 0 }

/-- Whether text and undo state are resident. -/
def isLoaded (self : BufferState) : Bool := self.residency ≠ .unloaded

/-- The tick as scripts see it. -/
def scriptChangedtick (self : BufferState) : UInt64 := self.changedtick + INITIAL_CHANGEDTICK

/-- The current header and how many edits it has collected so far. -/
def undoState (self : BufferState) : Nat × Nat :=
  (self.undoTree.currentSeq, self.undoTree.currentBlockLen)

def bumpChangedtick (self : BufferState) : BufferState :=
  { self with changedtick := self.changedtick + 1 }

def bumpDerivedTicks (self : BufferState) : BufferState :=
  { self with
    changedtickDiag := self.changedtickDiag + 1, changedtickFold := self.changedtickFold + 1 }

def setFlag (self : BufferState) (flag : BufferFlags) (enabled : Bool) : BufferState :=
  { self with flags := self.flags.set flag enabled }

def refreshModified (self : BufferState) : BufferState :=
  self.setFlag BufferFlags.MODIFIED (self.forcedModified || self.undoState ≠ self.savedUndoState ||
    self.text.hasEol ≠ self.savedHasEol)

def pushEvent (self : BufferState) (event : BufferBytesEvent) : BufferState :=
  { self with pendingBytes := self.pendingBytes ++ [event] }

/-- Queues events with the present tick. -/
def pushStamped (self : BufferState) (events : List BufferBytesEvent) : BufferState :=
  let stamped := events.map fun event => { event with tick := self.scriptChangedtick }
  { self with pendingBytes := self.pendingBytes ++ stamped }

def requireLoaded : EStateM BufferStateError BufferState Unit := do
  if (← get).isLoaded then return else throw .unloaded

/-- Runs a text operation. -/
def onText {α : Type} : EStateM BufferError Buffer α → EStateM BufferStateError BufferState α :=
  EState.zoom BufferState.text (fun text self => { self with text }) .text

/-- Passes a read of the text on. -/
def ofText {α : Type} (x : Except BufferError α) : EStateM BufferStateError BufferState α :=
  MonadExcept.ofExcept (x.mapError .text)

/-! ## Events -/

/-- Projects one committed splice onto the `on_bytes` argument shape. The line of the change start
is found in the present text: lines before it are untouched by the edit. -/
def bytesEvent (self : BufferState) (edit : PreparedBufferTextEdit) :
    Except BufferError BufferBytesEvent := do
  let start := edit.splice.start
  let oldEnd := edit.splice.oldEnd
  let newEnd := extentEnd start edit.splice.newExtent
  let startByte := (← self.text.byteOfLine (start.row + 1)) + start.column
  let oldByte := spanBytes edit.before start oldEnd
  let newByte := spanBytes edit.after start newEnd
  let (oldByteSize, deletedCodepoints, deletedCodeunits) := linewiseDeletedSizes edit.before
  return {
    subscribers := self.subscriptions
    tick := self.scriptChangedtick
    startRow := start.row
    startCol := start.column
    startByte
    oldRow := oldEnd.row - start.row
    oldCol := endColumn oldEnd start
    oldByte
    newRow := newEnd.row - start.row
    newCol := endColumn newEnd start
    newByte
    update := .mutation edit.before.length oldByteSize deletedCodepoints deletedCodeunits edit.after }

/-- The event of one undo or redo edit, which puts `apply` in the place of `remove`. -/
def replayEvent (self : BufferState) (start : Nat) (remove apply : List Line) :
    Except BufferError BufferBytesEvent := do
  let (oldByteSize, deletedCodepoints, deletedCodeunits) := linewiseDeletedSizes remove
  let startByte ← self.text.byteOfLine start
  return {
    subscribers := self.subscriptions
    tick := self.scriptChangedtick
    startRow := start - 1
    startByte
    oldRow := remove.length
    oldByte := oldByteSize
    newRow := apply.length
    newByte := (apply.map fun line => line.length + 1).sum
    update := .mutation remove.length oldByteSize deletedCodepoints deletedCodeunits apply }

/-! ## What follows the text -/

def spliceFolds (start oldRows newRows : Nat) : EStateM BufferStateError BufferState Unit := do
  EState.zoom BufferState.folds (fun folds self => { self with folds }) .fold
    (Folds.spliceRows (start - 1) oldRows newRows)
  modify fun self => { self with folds := self.folds.invalidate self.changedtick }

/-- Adjusts the prompt row through the same line splice that moves marks. -/
def splicePromptStart (self : BufferState) (start oldCount newCount : Nat) : BufferState :=
  let oldEnd := satAdd start oldCount
  let row :=
    if oldCount = 0 ∧ start ≤ self.promptStart then satAdd self.promptStart newCount
    else if oldEnd ≤ self.promptStart then satAdd (self.promptStart - oldCount) newCount
    else if start ≤ self.promptStart then
      satAdd start (min (self.promptStart - start) (newCount - 1))
    else self.promptStart
  { self with promptStart := max 1 (min row (max self.text.lineCount 1)) }

def spliceMarks (self : BufferState) (start oldCount newCount : Nat) : BufferState :=
  { self with marks := self.marks.splice start oldCount newCount }

/-! ## Recorded edits -/

/-- Writes a prepared splice's lines into the resident text. -/
def writePreparedLines (edit : PreparedBufferTextEdit) :
    EStateM BufferStateError BufferState Unit :=
  if edit.before.isEmpty then onText (Buffer.appendLines (edit.startLine - 1) edit.after)
  else onText (Buffer.replaceLines edit.startLine (edit.startLine + edit.before.length - 1)
    edit.after)

def recordCommittedSplice (edit : PreparedBufferTextEdit) (cursorBefore cursorAfter : Position)
    (timestamp : Int) : EStateM BufferStateError BufferState Nat := do
  modify (·.spliceMarks edit.startLine edit.before.length edit.after.length)
  let ((_, extmarkUndo), extmarks) := (← get).extmarks.spliceRecording edit.splice
  modify ({ · with extmarks })
  spliceFolds edit.startLine edit.before.length edit.after.length
  modify (·.splicePromptStart edit.startLine edit.before.length edit.after.length)
  let (seq, undoTree) := (← get).undoTree.record
    { start := edit.startLine
      before := edit.before
      after := edit.after
      cursorBefore := ⟨cursorBefore.lnum, cursorBefore.col⟩
      cursorAfter := ⟨cursorAfter.lnum, cursorAfter.col⟩ } timestamp
  modify fun self => { self with
    undoTree, extmarkUndo := self.extmarkUndo.insert seq (self.extmarkUndo.getD seq [] ++ [extmarkUndo]) }
  return seq

/-- Commits a splice: text and event first, then everything that follows the text. -/
def commitRecordedSplice (edit : PreparedBufferTextEdit) (cursorBefore cursorAfter : Position)
    (timestamp : Int) : EStateM BufferStateError BufferState Nat := do
  writePreparedLines edit
  modify bumpChangedtick
  let event ← ofText ((← get).bytesEvent edit)
  modify (·.pushEvent event)
  let seq ← recordCommittedSplice edit cursorBefore cursorAfter timestamp
  modify refreshModified
  modify bumpDerivedTicks
  return seq

/-- The lines from `start` to `stop`, both included. -/
def linesFrom (text : Buffer) (start stop : Nat) : Except BufferError (List Line) :=
  (List.range' start (stop + 1 - start)).mapM text.line

/-- Replaces an inclusive line range, joining the open undo block or starting a new one. -/
def replaceLines (start stop : Nat) (lines : List Line) (cursorBefore cursorAfter : Position)
    (timestamp : Int) : EStateM BufferStateError BufferState Nat := do
  requireLoaded
  let before ← ofText (linesFrom (← get).text start stop)
  commitRecordedSplice
    { startLine := start, before, after := lines
      splice := .lineAnchored (start - 1) before.length lines.length }
    cursorBefore cursorAfter timestamp

/-- Inserts logical lines after `afterLnum` with explicit undo cursors. A line number past the table
is refused by the text, whatever its successor. -/
def insertLines (afterLnum : Nat) (lines : List Line) (cursorBefore cursorAfter : Position)
    (timestamp : Int) : EStateM BufferStateError BufferState Nat :=
  commitRecordedSplice
    { startLine := afterLnum + 1, before := [], after := lines
      splice := .lineAnchored afterLnum 0 lines.length }
    cursorBefore cursorAfter timestamp

/-- Inserts logical lines after `lnum`. -/
def appendLines (lnum : Nat) (lines : List Line) (cursor : Position) (timestamp : Int) :
    EStateM BufferStateError BufferState Nat := do
  requireLoaded
  insertLines lnum lines cursor { lnum := satAdd cursor.lnum lines.length, col := cursor.col }
    timestamp

/-- Deletes an inclusive logical-line range. -/
def deleteLines (start stop : Nat) (cursor : Position) (timestamp : Int) :
    EStateM BufferStateError BufferState Nat :=
  replaceLines start stop [] cursor cursor timestamp

/-- Checks one byte edit against the resident text and composes the lines it leaves. -/
def prepareBufferTextEdit (self : BufferState) (request : BufferTextEditRequest) :
    Except BufferStateError PreparedBufferTextEdit := do
  if !self.isLoaded then throw .unloaded else
  let start := request.start
  let stop := request.stop
  let replacement := if request.replacement.isEmpty then [[]] else request.replacement
  if replacement.any (·.contains LF) then throw (.textEdit .embeddedNewline) else
  if replacement.any fun line => (Utf8.decode? line).isNone then throw (.textEdit .invalidUtf8) else
  if stop.row < start.row then throw (.textEdit .reversedRange) else
  let lineCount := self.text.lineCount
  if lineCount ≤ start.row ∨ lineCount ≤ stop.row then throw (.textEdit .outOfRange) else
  let startLineBytes ← (self.text.line (start.row + 1)).mapError .text
  let endLineBytes ← if stop.row = start.row then pure startLineBytes
    else (self.text.line (stop.row + 1)).mapError .text
  if startLineBytes.length < start.column ∨ endLineBytes.length < stop.column then
    throw (.textEdit .outOfRange) else
  if start.row = stop.row ∧ stop.column < start.column then throw (.textEdit .reversedRange) else
  if !isUtf8Boundary startLineBytes start.column then
    throw (.textEdit (.notCharBoundary start.column)) else
  if !isUtf8Boundary endLineBytes stop.column then
    throw (.textEdit (.notCharBoundary stop.column)) else
  let before ← (linesFrom self.text (start.row + 1) (stop.row + 1)).mapError .text
  return {
    startLine := start.row + 1
    before
    after := composeReplacementLines before start.column stop.column replacement
    splice := .fromByteEdit start stop replacement }

/-- Replaces one validated byte range. -/
def replaceBufferText (request : BufferTextEditRequest) (cursorBefore cursorAfter : Position)
    (timestamp : Int) : EStateM BufferStateError BufferState Nat := do
  let prepared ← MonadExcept.ofExcept ((← get).prepareBufferTextEdit request)
  commitRecordedSplice prepared cursorBefore cursorAfter timestamp

/-- Records the edits of a batch one after the other; returns the last sequence. -/
def recordBatch (cursorBefore cursorAfter : Position) (timestamp : Int) :
    Nat → List PreparedBufferTextEdit → EStateM BufferStateError BufferState Nat
  | seq, [] => return seq
  | _, edit :: edits => do
    let seq ← recordCommittedSplice edit cursorBefore cursorAfter timestamp
    recordBatch cursorBefore cursorAfter timestamp seq edits

/-- Commits edits of disjoint rows that keep the line count as one text change. -/
def commitPreparedLinePreservingBatch (prepared : List PreparedBufferTextEdit)
    (cursorBefore cursorAfter : Position) (timestamp : Int) :
    EStateM BufferStateError BufferState Nat := do
  if prepared.isEmpty then return 0 else
  let events ← ofText (prepared.mapM (← get).bytesEvent)
  onText (Buffer.replaceLinesDisjoint (prepared.map fun edit =>
    { start := edit.startLine, stop := edit.startLine + edit.before.length - 1
      lines := edit.after }))
  modify bumpChangedtick
  modify (·.pushStamped events)
  let seq ← recordBatch cursorBefore cursorAfter timestamp 0 prepared
  modify refreshModified
  modify bumpDerivedTicks
  return seq

/-- Replaces the live prompt line without recording undo. -/
def replacePromptLine (lnum : Nat) (line : Line) (splice : TextSplice) :
    EStateM BufferStateError BufferState Unit := do
  requireLoaded
  let before ← ofText ((← get).text.line lnum)
  onText (Buffer.replaceLines lnum lnum [line])
  modify bumpChangedtick
  let after ← ofText ((← get).text.line lnum)
  let event ← ofText ((← get).bytesEvent
    { startLine := lnum, before := [before], after := [after], splice })
  modify (·.pushEvent event)
  modify (·.spliceMarks lnum 1 1)
  modify fun self => { self with extmarks := (self.extmarks.spliceRecording splice).2 }
  spliceFolds lnum 1 1
  modify (·.splicePromptStart lnum 1 1)
  modify bumpDerivedTicks

/-! ## Undo and redo -/

/-- Applies `apply` in place of the `remove` lines currently at `start`; `checked_add` cannot overflow
on lines that were in memory. -/
def replayText (start : Nat) (remove apply : List Line) :
    EStateM BufferStateError BufferState Unit :=
  if remove.isEmpty then
    if apply.isEmpty then pure () else onText (Buffer.appendLines (start - 1) apply)
  else
    onText (Buffer.replaceLines start (start + remove.length - 1) apply)

/-- The lines a replay removes. -/
def replayRemove (undoing : Bool) (edit : LineEdit) : List Line :=
  if undoing then edit.after else edit.before

/-- The lines a replay puts in their place. -/
def replayApply (undoing : Bool) (edit : LineEdit) : List Line :=
  if undoing then edit.before else edit.after

/-- Replays the extmark part of an edit, when one is recorded. -/
def replayExtmarks (self : BufferState) (seq index : Nat) (undoing : Bool) : BufferState :=
  match (self.extmarkUndo[seq]?).bind (·[index]?) with
  | some extmarkUndo => { self with
      extmarks := if undoing then self.extmarks.undoSplice extmarkUndo
        else self.extmarks.redoSplice extmarkUndo }
  | none => self

/-- What a caller learns of a replayed edit. -/
def replayReport (entry : UndoEntry) (undoing : Bool) (edit : LineEdit) : ReplayedEdit :=
  let cursor := if undoing then edit.cursorBefore else edit.cursorAfter
  { seq := entry.seq
    start := edit.start
    oldCount := (replayRemove undoing edit).length
    newCount := (replayApply undoing edit).length
    cursor := ⟨cursor.lnum, cursor.col⟩ }

/-- Replays one edit of a header. -/
def replayEdit (entry : UndoEntry) (undoing : Bool) (edit : LineEdit) (index : Nat) :
    EStateM BufferStateError BufferState ReplayedEdit := do
  let remove := replayRemove undoing edit
  let apply := replayApply undoing edit
  let event ← ofText ((← get).replayEvent edit.start remove apply)
  replayText edit.start remove apply
  modify (·.pushEvent event)
  modify (·.spliceMarks edit.start remove.length apply.length)
  modify (·.replayExtmarks entry.seq index undoing)
  spliceFolds edit.start remove.length apply.length
  return replayReport entry undoing edit

def replayEdits (entry : UndoEntry) (undoing : Bool) :
    List (LineEdit × Nat) → EStateM BufferStateError BufferState (List ReplayedEdit)
  | [] => return []
  | (edit, index) :: edits => do
    let replayed ← replayEdit entry undoing edit index
    return replayed :: (← replayEdits entry undoing edits)

/-- Replays one undo-tree step: an undo walks the edits of the block backwards, a redo in recording
order. -/
def applyUndoStep (step : UndoStep) : EStateM BufferStateError BufferState (List ReplayedEdit) := do
  modify bumpChangedtick
  let replayed ← match step with
    | .undo entry => replayEdits entry true entry.edits.zipIdx.reverse
    | .redo entry => replayEdits entry false entry.edits.zipIdx
  modify refreshModified
  modify bumpDerivedTicks
  return replayed

/-- Undoes the most recent undo block. -/
def undo : EStateM BufferStateError BufferState (Option (List ReplayedEdit)) := do
  match UndoTree.undo (← get).undoTree with
  | .error _ undoTree =>
    modify ({ · with undoTree })
    return none
  | .ok step undoTree =>
    modify ({ · with undoTree })
    return some (← applyUndoStep step)

/-- Redoes the next undo block. -/
def redo : EStateM BufferStateError BufferState (Option (List ReplayedEdit)) := do
  match UndoTree.redo (← get).undoTree with
  | .error _ undoTree =>
    modify ({ · with undoTree })
    return none
  | .ok step undoTree =>
    modify ({ · with undoTree })
    return some (← applyUndoStep step)

def applyUndoSteps :
    List UndoStep → EStateM BufferStateError BufferState (List (List ReplayedEdit))
  | [] => return []
  | step :: steps => do
    let replayed ← applyUndoStep step
    return replayed :: (← applyUndoSteps steps)

/-- Runs an undo-tree operation. -/
def onUndo {α : Type} : EStateM UndoError UndoTree α → EStateM BufferStateError BufferState α :=
  EState.zoom BufferState.undoTree (fun undoTree self => { self with undoTree }) .undo

/-- Navigates the undo tree to sequence `seq`, replaying every step the route needs. -/
def undoToSeq (seq : Nat) : EStateM BufferStateError BufferState (List (List ReplayedEdit)) := do
  let steps ← onUndo (UndoTree.undoToSeq seq)
  applyUndoSteps steps

/-- Reopens the newest undo block so the next edit joins it. -/
def undojoin : EStateM BufferStateError BufferState Unit := do
  requireLoaded
  onUndo UndoTree.undojoin

/-- Closes the open undo block so the next edit starts a new one. -/
def syncUndo (self : BufferState) : BufferState := { self with undoTree := self.undoTree.sync }

/-! ## Saved state and lifecycle -/

/-- Forces `'modified'` until the buffer is marked saved. -/
def markModified (self : BufferState) : BufferState :=
  { self with forcedModified := true }.setFlag BufferFlags.MODIFIED true

/-- Records the current undo state as saved and clears `'modified'`. -/
def markSaved (self : BufferState) : BufferState :=
  { self with
    forcedModified := false
    savedChangedtick := self.changedtick
    savedHasEol := self.text.hasEol
    savedUndoState := self.undoState }.setFlag BufferFlags.MODIFIED false

/-- Queues a whole-buffer reload notification for every active attachment. -/
def queueReloadEvent (self : BufferState) : BufferState :=
  if self.subscriptions.isEmpty then self
  else self.pushEvent
    { subscribers := self.subscriptions, tick := self.scriptChangedtick, update := .reload }

/-- Replaces resident text wholesale. -/
def load (self : BufferState) (text : Buffer) : BufferState :=
  let self := { self with text }.bumpChangedtick
  let self := { self with
    promptStart := max 1 (min self.promptStart (max self.text.lineCount 1))
    undoTree := .new
    extmarks := {}
    extmarkUndo := ∅
    folds := {} }.setFlag BufferFlags.MODIFIED false
  { self with
    savedChangedtick := self.changedtick
    savedHasEol := self.text.hasEol
    savedUndoState := (0, 0)
    residency := if self.attachments = 0 then .hidden else .displayed }.queueReloadEvent

/-- Changes final-EOL state and advances every text-derived generation. -/
def setEol (hasEol : Bool) : EStateM BufferStateError BufferState Unit := do
  requireLoaded
  let changed := (← get).text.hasEol ≠ hasEol
  modify fun self => { self with text := self.text.setEol hasEol }
  if changed then
    modify bumpChangedtick
    modify fun self => self.pushEvent
      { subscribers := self.subscriptions, tick := self.scriptChangedtick, update := .changedtick }
    modify fun self => { self with folds := self.folds.invalidate self.changedtick }
  modify refreshModified
  modify bumpDerivedTicks

def releaseResidentState (self : BufferState) : BufferState :=
  let self := { self with text := .new }.bumpChangedtick
  let self := { self with
    undoTree := .new
    extmarks := self.extmarks.invalidateForUnload
    extmarkUndo := ∅
    folds := {} }.setFlag BufferFlags.MODIFIED false
  { self with
    savedChangedtick := self.changedtick
    savedHasEol := self.text.hasEol
    savedUndoState := (0, 0)
    subscriptions := []
    pendingBytes := [] }

/-- Attaches one window to resident text. -/
def attach : EStateM BufferStateError BufferState Unit := do
  requireLoaded
  modify fun self => { self with
    attachments := satAdd self.attachments 1, residency := .displayed }

/-- Detaches one window; the last one leaves a hidden or an unloaded buffer. -/
def detach (self : BufferState) (keepLoaded : Bool) : BufferState :=
  let self := { self with attachments := self.attachments - 1 }
  if self.attachments ≠ 0 then self
  else if keepLoaded then { self with residency := .hidden }
  else { self with residency := .unloaded }.releaseResidentState

/-- Unloads text state when no window displays the buffer. -/
def unload : EStateM BufferStateError BufferState Unit := do
  let self ← get
  if self.attachments ≠ 0 then throw (.attached self.attachments)
  else set { self with residency := .unloaded }.releaseResidentState

end BufferState

end Oxvim.Editor
