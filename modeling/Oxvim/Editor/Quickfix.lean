import Mathlib
import Oxvim.Lib.Utf8
import Oxvim.Eval.Typval

/-!
# Quickfix lists

The quickfix stack, a location list's stack, and `setqflist()` and `setloclist()`, which choose or make
a list of a stack and then read the entries for it.

Reading entries asks the editor for buffers (`Host`) and runs text lines through the error format
engine (`EfmEngine`). Both are parameters: what a call does to a stack when reading fails does not
depend on either.
-/

namespace Oxvim.Editor.Quickfix

open Oxvim.Eval (Typval DictEntry)
open Lib

/-- Vimscript values; lists and dictionaries are numbered. -/
abbrev Value := Typval Nat Nat

abbrev Entries := List (DictEntry Nat Nat)

/-- A shared list: its items, and whether it is locked or mutably borrowed. -/
structure ListCell where
  items : List Value
  locked : Bool
  borrowed : Bool

/-- A shared dictionary. -/
structure DictCell where
  entries : Entries
  borrowed : Bool

/-- What the references of the arguments point to. -/
structure Cells where
  lists : Nat → ListCell
  dicts : Nat → DictCell

structure EvalError where
  code : String
  offset : Nat
  message : String
  deriving DecidableEq, Repr

structure EfmError where
  code : String
  message : String
  deriving DecidableEq, Repr

/-! ## Stacks -/

/-- One entry in a quickfix or location list. -/
structure QuickfixItem where
  bufnr : Int64
  module' : List UInt8
  lnum : Int64
  col : Int64
  endLnum : Int64
  endCol : Int64
  vcol : Int64
  nr : Int64
  pattern : List UInt8
  text : List UInt8
  itemType : List UInt8
  valid : Bool
  userData : Value

/-- One list in the quickfix history. -/
structure QuickfixList where
  items : List QuickfixItem
  title : List UInt8
  id : Nat
  /-- One-based current entry, or zero for an empty list. -/
  idx : Nat
  changedtick : Nat
  context : Value
  quickfixtextfunc : Value

/-- Quickfix or location list history. -/
structure QuickfixStack where
  lists : List QuickfixList
  current : Nat
  nextId : Nat

/-- The largest 64-bit counter. -/
def u64Max : Nat := 2 ^ 64 - 1

/-- The one-based index of the first valid entry, or zero. -/
def firstValid (items : List QuickfixItem) : Nat :=
  match items.findIdx? (·.valid) with
  | some index => index + 1
  | none => 0

namespace QuickfixList

def new (id : Nat) (title : List UInt8) : QuickfixList where
  items := []
  title
  id
  idx := 0
  changedtick := 0
  context := .string []
  quickfixtextfunc := .string []

/-- Bump the tick. -/
def touch (self : QuickfixList) : QuickfixList :=
  { self with changedtick := min (self.changedtick + 1) u64Max }

/-- Replace all entries and reset the cursor to the first valid one. -/
def setItems (self : QuickfixList) (items : List QuickfixItem) : QuickfixList :=
  { self with items, idx := firstValid items }.touch

/-- Replace all entries; the cursor stays where the entry at its index is still valid. -/
def setItemsUpdate (self : QuickfixList) (items : List QuickfixItem) : QuickfixList :=
  let idx := if self.idx ≠ 0 ∧ (items[self.idx - 1]?).any (·.valid) then self.idx else firstValid items
  { self with items, idx }.touch

/-- Append entries, selecting the first valid one if the list was empty. -/
def appendItems (self : QuickfixList) (items : List QuickfixItem) : QuickfixList :=
  let all := self.items ++ items
  { self with items := all, idx := if self.items.isEmpty then firstValid all else self.idx }.touch

def setIdx (self : QuickfixList) (idx : Int64) : QuickfixList :=
  if idx ≤ 0 then { self with idx := firstValid self.items }
  else { self with idx := min idx.toNatClampNeg self.items.length }

end QuickfixList

def dictValue (entries : Entries) (name : String) : Option Value :=
  (entries.find? fun entry => entry.key == Utf8.encode name.toList).map (·.value)

def dictNumber (entries : Entries) (name : String) : Option Int64 :=
  match dictValue entries name with
  | some (.number value) => some value
  | some (.bool value) => some (if value then 1 else 0)
  | _ => none

def dictString (entries : Entries) (name : String) : Option (List UInt8) :=
  match dictValue entries name with
  | some (.string value) => some value
  | _ => none

namespace QuickfixStack

def new : QuickfixStack := ⟨[], 0, 1⟩

/-- Remove all lists and reset the cursor. -/
def clear (self : QuickfixStack) : QuickfixStack :=
  { self with lists := [], current := 0 }

/-- Push a fresh list onto the history and make it current; newer lists go. -/
def push (self : QuickfixStack) (title : List UInt8) : QuickfixStack × Nat :=
  let lists := self.lists.take (self.current + 1) ++ [.new self.nextId title]
  let current := lists.length - 1
  ({ lists, current, nextId := min (self.nextId + 1) u64Max }, current)

/-- The list that the `nr` and `id` keys select. -/
def select (self : QuickfixStack) (what : Entries) : Option Nat := do
  let selected ← match dictValue what "nr" with
    | none => some self.current
    | some (.number number) =>
      if number = 0 then some self.current
      else if 0 < number then some (number.toNatClampNeg - 1)
      else none
    | some (.string value) =>
      if value = Utf8.encode ['$'] then
        if self.lists.isEmpty then none else some (self.lists.length - 1)
      else none
    | some _ => none
  let selected ← match dictValue what "id" with
    | none => some selected
    | some (.number id) =>
      if id = 0 then some selected
      else if 0 < id then self.lists.findIdx? fun list => list.id == id.toNatClampNeg
      else none
    | some _ => none
  if selected < self.lists.length then some selected else none

/-- The list that a call is for. It becomes the current one. -/
def targetForSet (self : QuickfixStack) (action : Char) (what : Entries) (title : List UInt8) :
    Option (QuickfixStack × Nat) :=
  if action = ' ' ∨ self.lists.isEmpty then some (self.push title)
  else (self.select what).map fun selected => ({ self with current := selected }, selected)

/-- Drop a list that could not be filled. -/
def dropCreated (self : QuickfixStack) (target : Nat) : QuickfixStack :=
  { self with lists := self.lists.eraseIdx target, current := self.current - 1 }

def modifyList (self : QuickfixStack) (target : Nat) (f : QuickfixList → QuickfixList) :
    QuickfixStack :=
  { self with lists := self.lists.modify target f }

end QuickfixStack

/-! ## Reading entries -/

/-- A parsed error line. -/
structure ParsedEntry where
  bufnr : Int64
  module' : List Char
  lnum : Int64
  endLnum : Int64
  col : Int64
  endCol : Int64
  vcol : Bool
  nr : Int64
  pattern : List Char
  text : List Char
  itemType : UInt8
  valid : Bool

/-- What a continuation line adds to an entry. -/
structure Continuation where
  text : List Char
  nr : Int64
  itemType : UInt8
  lnum : Int64
  endLnum : Int64
  col : Int64
  endCol : Int64
  vcol : Bool
  bufnr : Int64

/-- What one input line produced. -/
inductive LineOutcome where
  | entry (entry : ParsedEntry)
  | folded
  | foldOutside (continuation : Continuation)
  | ignored

variable {β Part State : Type}

/-- What reading needs of the editor, whose state apart from the stacks is a `β`. -/
structure Host (β : Type) where
  bufferExists : Int64 → β → Bool
  /-- The buffer of a name, made when it is absent. -/
  namedBuffer : List UInt8 → β → β × Option Int64
  effectiveEfm : β → List Char
  toStringLossy : List UInt8 → List Char

/-- The error format engine: one part of a format, and one line run through a format. -/
structure EfmEngine (β Part State : Type) where
  initial : State
  compilePart : List Char → Except EfmError Part
  parseLine : List Char → List Part → State → List ParsedEntry → β →
    β × Except EfmError (LineOutcome × State × List ParsedEntry)

/-- The parts of a format, separated by commas; `none` stands for the blanks after one. -/
def splitParts : List Char → Option (List Char) → List (List Char)
  | [], none => []
  | [], some part => [part]
  | ch :: rest, part =>
    if ch = ' ' ∧ part.isNone then splitParts rest none
    else if ch = ',' then part.getD [] :: splitParts rest none
    else if ch = '\\' then
      match rest with
      | [] => [part.getD [] ++ [ch]]
      | quoted :: rest => splitParts rest (some (part.getD [] ++ [ch, quoted]))
    else splitParts rest (some (part.getD [] ++ [ch]))

/-- Compile a comma-separated 'errorformat'. -/
def EfmEngine.compile (engine : EfmEngine β Part State) (spec : List Char) :
    Except EfmError (List Part) := do
  let parts ← (if spec.isEmpty then [] else splitParts spec (some [])).mapM engine.compilePart
  if parts.isEmpty then .error ⟨"E378", "'errorformat' contains no pattern"⟩ else .ok parts

/-- Reading: it may fail, and has changed the editor either way. -/
abbrev Reader (β : Type) := ExceptT EvalError (StateM β)

def typeFlag (itemType : UInt8) : List UInt8 :=
  if itemType = 0 then [] else Utf8.encode [Char.ofNat itemType.toNat]

def flagNumber (flag : Bool) : Int64 := if flag then 1 else 0

/-- Convert a parsed error line to a list entry. -/
def parsedToItem (entry : ParsedEntry) : QuickfixItem where
  bufnr := entry.bufnr
  module' := Utf8.encode entry.module'
  lnum := entry.lnum
  col := entry.col
  endLnum := entry.endLnum
  endCol := entry.endCol
  vcol := flagNumber entry.vcol
  nr := entry.nr
  pattern := Utf8.encode entry.pattern
  text := Utf8.encode entry.text
  itemType := typeFlag entry.itemType
  valid := entry.valid
  userData := .special .null

/-- Fold continuation fields into an existing entry. -/
def applyContinuation (host : Host β) (item : QuickfixItem) (cont : Continuation) : QuickfixItem :=
  { item with
    text := if cont.text.isEmpty then item.text
      else Utf8.encode (host.toStringLossy item.text ++ '\n' :: cont.text)
    nr := if item.nr = -1 then cont.nr else item.nr
    itemType := if cont.itemType ≠ 0 ∧ item.itemType.isEmpty then typeFlag cont.itemType
      else item.itemType
    lnum := if item.lnum = 0 then cont.lnum else item.lnum
    endLnum := if item.endLnum = 0 then cont.endLnum else item.endLnum
    col := if item.col = 0 then cont.col else item.col
    vcol := if item.col = 0 then flagNumber cont.vcol else item.vcol
    endCol := if item.endCol = 0 then cont.endCol else item.endCol
    bufnr := if item.bufnr = 0 then cont.bufnr else item.bufnr }

/-- Build one quickfix item from an entry dict, creating the named buffer when absent. -/
def dictEntryItem (host : Host β) (entries : Entries) : Reader β QuickfixItem := do
  let given := (dictNumber entries "bufnr").getD 0
  let found ← match dictString entries "filename" with
    | some filename =>
      if given = 0 ∧ ¬filename.isEmpty then do
        let (next, buffer) := host.namedBuffer filename (← get)
        set next
        match buffer with
        | some buffer => pure buffer
        | none => throw ⟨"E948", 0, "Cannot create buffer"⟩
      else pure given
    | none => pure given
  let bufnr := if found ≠ 0 ∧ !host.bufferExists found (← get) then 0 else found
  let lnum := (dictNumber entries "lnum").getD 0
  let pattern := (dictString entries "pattern").getD []
  let detected := bufnr ≠ 0 ∧ (lnum ≠ 0 ∨ ¬pattern.isEmpty)
  pure {
    bufnr, lnum, pattern
    module' := (dictString entries "module").getD []
    col := (dictNumber entries "col").getD 0
    endLnum := (dictNumber entries "end_lnum").getD 0
    endCol := (dictNumber entries "end_col").getD 0
    vcol := (dictNumber entries "vcol").getD 0
    nr := (dictNumber entries "nr").getD 0
    text := (dictString entries "text").getD []
    itemType := (dictString entries "type").getD []
    valid := match dictNumber entries "valid" with
      | some value => value ≠ 0
      | none => detected
    userData := (dictValue entries "user_data").getD (.special .null) }

/-- How far reading has come: entries read, text entries that a continuation may still change, and
continuations without an entry. -/
structure Progress (State : Type) where
  items : List QuickfixItem
  parsed : List ParsedEntry
  efm : State
  deferred : List Continuation

/-- Move the text entries to the entries read. -/
def Progress.drain (self : Progress State) : Progress State :=
  { self with items := self.items ++ self.parsed.map parsedToItem, parsed := [] }

/-- The lines of a text. -/
def textLines (text : List Char) : List (List Char) :=
  let lines := text.splitOn '\n'
  if text.isEmpty then [[]] else if lines.getLast? = some [] then lines.dropLast else lines

def readLine (host : Host β) (engine : EfmEngine β Part State) (parts : List Part)
    (progress : Progress State) (line : List Char) : Reader β (Progress State) := do
  let (next, result) := engine.parseLine line parts progress.efm progress.parsed (← get)
  set next
  match result with
  | .error error => throw ⟨error.code, 0, error.message⟩
  | .ok (outcome, efm, parsed) =>
    let progress := { progress with efm, parsed }
    match outcome with
    | .entry entry => pure { progress with parsed := parsed ++ [entry] }
    | .folded | .ignored => pure progress
    | .foldOutside cont =>
      let progress := progress.drain
      match progress.items.getLast? with
      | some item => pure { progress with
          items := progress.items.dropLast ++ [applyContinuation host item cont] }
      | none => pure { progress with deferred := progress.deferred ++ [cont] }

def readValue (host : Host β) (engine : EfmEngine β Part State) (cells : Cells)
    (format : Option (List Part)) (progress : Progress State) (value : Value) :
    Reader β (Progress State) :=
  match value, format with
  | .string text, some parts =>
    (textLines (host.toStringLossy text)).foldlM (readLine host engine parts) progress
  | .dict ref, _ =>
    if (cells.dicts ref).borrowed then throw ⟨"E742", 0, "Cannot change value"⟩
    else do
      let progress := progress.drain
      let item ← dictEntryItem host (cells.dicts ref).entries
      pure { progress with items := progress.items ++ [item] }
  | _, _ => pure progress

def isString : Value → Bool
  | .string _ => true
  | _ => false

/-- Parse list entries from values; strings run through the error format. -/
def parseItemsEfm (host : Host β) (engine : EfmEngine β Part State) (cells : Cells)
    (values : List Value) (efm : State) (efmOverride : Option (List Char))
    (deferred : List Continuation) : Reader β (Progress State) := do
  let format ← if values.any isString then do
      match engine.compile (efmOverride.getD (host.effectiveEfm (← get))) with
      | .ok parts => pure (some parts)
      | .error error => throw ⟨error.code, 0, error.message⟩
    else pure none
  let progress ← values.foldlM (readValue host engine cells format) ⟨[], [], efm, deferred⟩
  pure progress.drain

/-! ## `setqflist()` -/

/-- The arguments of a call that is to fill a list. -/
structure Request where
  action : Char
  what : Entries
  title : List UInt8
  sourceItems : List Value
  efmOverride : Option (List Char)
  lines : Option (List Value)

/-- What the arguments ask for. -/
inductive Prepared where
  /-- Action `f`. -/
  | free
  /-- An `efm` or `lines` of the wrong type. -/
  | invalid
  | request (request : Request)

def e742 : EvalError := ⟨"E742", 0, "Cannot change value"⟩

/-- Parse the action argument. -/
def parseAction (host : Host β) : Option Value → Except EvalError Char
  | none => .ok ' '
  | some (.string [byte]) =>
    let action := Char.ofNat byte.toNat
    if action ∈ ['a', 'r', 'u', ' ', 'f'] then .ok action
    else .error ⟨"E927", 0, "Invalid action: '" ++ String.ofList (host.toStringLossy [byte]) ++ "'"⟩
  | some (.string value) =>
    .error ⟨"E927", 0, "Invalid action: '" ++ String.ofList (host.toStringLossy value) ++ "'"⟩
  | some _ => .error ⟨"E1174", 0, "String required for argument 2"⟩

/-- Parse the optional third argument, a `what` dictionary or a title. -/
def whatArgument (cells : Cells) (argument : Option Value) (noItems : Bool) :
    Except EvalError (Entries × Option (List UInt8)) :=
  match argument with
  | none => .ok ([], none)
  | some (.dict ref) =>
    if (cells.dicts ref).borrowed then .error e742
    else if !noItems then
      .error ⟨"E475", 0, "Invalid argument: cannot have both a list and a \"what\" argument"⟩
    else .ok ((cells.dicts ref).entries, none)
  | some (.string title) => .ok ([], some title)
  | some _ => .error ⟨"E715", 0, "Dictionary required"⟩

/-- The items of a list that can be read and is not locked. -/
def unlockedItems (cells : Cells) (ref : Nat) : Except EvalError (List Value) :=
  if (cells.lists ref).borrowed then .error e742
  else if (cells.lists ref).locked then .error e742
  else .ok (cells.lists ref).items

/-- Read the `efm` and `lines` keys; `none` for an invalid type. -/
def efmAndLines (host : Host β) (cells : Cells) (what : Entries) :
    Except EvalError (Option (Option (List Char) × Option (List Value))) :=
  let lines (efmOverride : Option (List Char)) := match dictValue what "lines" with
    | none => .ok (some (efmOverride, none))
    | some (.list ref) => (unlockedItems cells ref).map fun items => some (efmOverride, some items)
    | some _ => .ok none
  match dictValue what "efm" with
  | none => lines none
  | some (.string value) => lines (some (host.toStringLossy value))
  | some _ => .ok none

/-- The checks of `set_list` that come before the list is chosen. -/
def prepare (host : Host β) (cells : Cells) (args : List Value) (defaultTitle : String) :
    Except EvalError Prepared :=
  match args.head? with
  | some (.list ref) => do
    if (cells.lists ref).borrowed then throw e742
    let rawItems := (cells.lists ref).items
    let action ← parseAction host args[1]?
    if action = 'f' then return .free
    let (what, legacyTitle) ← whatArgument cells args[2]? rawItems.isEmpty
    let sourceItems ← match dictValue what "items" with
      | none => .ok rawItems
      | some (.list ref) => unlockedItems cells ref
      | some _ => .error ⟨"E1211", 0, "List required for argument 3"⟩
    let title := (legacyTitle.or (dictString what "title")).getD (Utf8.encode defaultTitle.toList)
    match ← efmAndLines host cells what with
    | none => return .invalid
    | some (efmOverride, lines) =>
      return .request { action, what, title, sourceItems, efmOverride, lines }
  | _ => .error ⟨"E714", 0, "List required"⟩

/-- Read the entries of a request. -/
def readItems (host : Host β) (engine : EfmEngine β Part State) (cells : Cells) (request : Request) :
    Reader β (List QuickfixItem × List Continuation) := do
  let first ← parseItemsEfm host engine cells request.sourceItems engine.initial none []
  match request.lines with
  | none => pure (first.items, first.deferred)
  | some lines =>
    let kept := if request.action = 'r' ∨ request.action = 'u' then [] else first.items
    let second ← parseItemsEfm host engine cells lines first.efm request.efmOverride first.deferred
    pure (kept ++ second.items, second.deferred)

/-- Apply the `what` fields to the target list. -/
def applyWhatFields (list : QuickfixList) (what : Entries) (action : Char) (hasSourceItems : Bool)
    (items : List QuickfixItem) : QuickfixList :=
  let touched := if (dictString what "title").isSome ∨ (dictValue what "context").isSome ∨
    (dictValue what "quickfixtextfunc").isSome then list.touch else list
  let titled := { touched with
    title := (dictString what "title").getD touched.title
    context := (dictValue what "context").getD touched.context
    quickfixtextfunc := (dictValue what "quickfixtextfunc").getD touched.quickfixtextfunc }
  let filled := if (dictValue what "items").isSome ∨ hasSourceItems ∨ what.isEmpty then
      if action = 'a' then titled.appendItems items
      else if action = 'u' then titled.setItemsUpdate items
      else titled.setItems items
    else titled
  match dictNumber what "idx" with
  | some idx => filled.setIdx idx
  | none => filled

abbrev WinHandle := Nat

/-- Which stack a call is for. -/
inductive QfScope where
  | quickfix
  | loclist (window : WinHandle)
  deriving DecidableEq

/-- The stacks of the editor; the rest of it is `host`. -/
structure EditorState (β : Type) where
  quickfix : QuickfixStack
  loclists : WinHandle → Option QuickfixStack
  /-- The window a location list window belongs to. -/
  loclistRef : WinHandle → Option WinHandle
  host : β

namespace EditorState

/-- Follow a location-list display window to its source window. -/
def resolve (self : EditorState β) : QfScope → QfScope
  | .quickfix => .quickfix
  | .loclist window => .loclist ((self.loclistRef window).getD window)

/-- The stack of a scope. A location list that was never created is an empty stack. -/
def stack (self : EditorState β) (scope : QfScope) : QuickfixStack :=
  match self.resolve scope with
  | .quickfix => self.quickfix
  | .loclist window => (self.loclists window).getD .new

def setStack (self : EditorState β) (scope : QfScope) (stack : QuickfixStack) : EditorState β :=
  match self.resolve scope with
  | .quickfix => { self with quickfix := stack }
  | .loclist window => { self with loclists := Function.update self.loclists window (some stack) }

@[simp] theorem stack_setStack (self : EditorState β) (scope : QfScope) (stack : QuickfixStack) :
    (self.setStack scope stack).stack scope = stack := by
  cases scope with
  | quickfix => rfl
  | loclist window => simp [EditorState.stack, setStack, resolve]

@[simp] theorem stack_host (self : EditorState β) (scope : QfScope) (host : β) :
    ({ self with host } : EditorState β).stack scope = self.stack scope := by
  cases scope <;> rfl

end EditorState

/-- `setqflist()` and `setloclist()` on the stack of `scope`. -/
def setList (host : Host β) (engine : EfmEngine β Part State) (cells : Cells) (editor : EditorState β)
    (scope : QfScope) (args : List Value) (defaultTitle : String) :
    EditorState β × Except EvalError Value :=
  match prepare host cells args defaultTitle with
  | .error error => (editor, .error error)
  | .ok .free => (editor.setStack scope (editor.stack scope).clear, .ok (.number 0))
  | .ok .invalid => (editor, .ok (.number (-1)))
  | .ok (.request request) =>
    let stack := editor.stack scope
    let created := request.action = ' ' ∨ stack.lists.isEmpty
    -- a continuation on the first line folds into the last entry there was
    let foldTail := if (request.action = 'a' ∨ request.action = 'u') ∧ ¬created then
        stack.lists.getLast?.bind fun list =>
          if list.items.isEmpty then none else some (list.items.length - 1)
      else none
    match stack.targetForSet request.action request.what request.title with
    | none => (editor.setStack scope stack, .error ⟨"E475", 0, "Invalid argument"⟩)
    | some (chosen, target) =>
      let (result, next) := (readItems host engine cells request).run editor.host
      let editor := { editor with host := next }
      match result with
      | .error error =>
        (editor.setStack scope (if created then chosen.dropCreated target else chosen), .error error)
      | .ok (items, deferred) =>
        let filled := chosen.modifyList target fun list =>
          applyWhatFields list request.what request.action
            (!request.sourceItems.isEmpty || request.lines.isSome) items
        let folded := match foldTail with
          | some idx => filled.modifyList target fun list =>
            { list with items := list.items.modify idx fun item =>
                deferred.foldl (applyContinuation host) item }
          | none => filled
        (editor.setStack scope folded, .ok (.number 0))

/-! ## Failing calls -/

/-- An error, or the result -1. -/
def Failed : Except EvalError Value → Prop
  | .error _ => True
  | .ok (.number value) => value = -1
  | .ok _ => False

/-- The same lists in the same order, and the same current list. -/
structure Unchanged (before after : QuickfixStack) : Prop where
  lists : after.lists = before.lists
  current : after.current = before.current

theorem not_failed_zero : ¬Failed (.ok (.number 0)) := by
  intro h
  have hne : (0 : Int64) ≠ -1 := by decide
  exact hne h

/-- A call that fails leaves its stack as it was. -/
def Atomic (host : Host β) (engine : EfmEngine β Part State) (cells : Cells) (editor : EditorState β)
    (scope : QfScope) (args : List Value) (defaultTitle : String) : Prop :=
  let (next, result) := setList host engine cells editor scope args defaultTitle
  Failed result → Unchanged (editor.stack scope) (next.stack scope)

/-- Choosing the list of a request is undone with no loss: a list that is pushed comes after the newest
one, which is the current one, and a list that is selected is current already. -/
def ChoosesInPlace (stack : QuickfixStack) (request : Request) : Prop :=
  if request.action = ' ' ∨ stack.lists.isEmpty then
    stack.lists.length = stack.current + 1 ∨ stack.lists = [] ∧ stack.current = 0
  else ∀ selected, stack.select request.what = some selected → selected = stack.current

theorem Unchanged.refl (stack : QuickfixStack) : Unchanged stack stack :=
  ⟨rfl, rfl⟩

/-- A list that is pushed and dropped again leaves the older lists, one of which becomes current. -/
theorem unchanged_dropCreated (stack : QuickfixStack) (title : List UInt8) :
    Unchanged stack ((stack.push title).1.dropCreated (stack.push title).2) ↔
      stack.lists.length = stack.current + 1 ∨ stack.lists = [] ∧ stack.current = 0 := by
  have hlists : ((stack.push title).1.dropCreated (stack.push title).2).lists
      = stack.lists.take (stack.current + 1) := by
    simp [QuickfixStack.push, QuickfixStack.dropCreated, List.eraseIdx_append_of_length_le]
  have hcurrent : ((stack.push title).1.dropCreated (stack.push title).2).current
      = min (stack.current + 1) stack.lists.length - 1 := by
    simp [QuickfixStack.push, QuickfixStack.dropCreated]
  have hempty : stack.lists = [] ↔ stack.lists.length = 0 := List.length_eq_zero_iff.symm
  constructor
  · intro h
    have hlength := congrArg List.length (hlists.symm.trans h.lists)
    have hsame := hcurrent.symm.trans h.current
    rw [List.length_take] at hlength
    rw [hempty]
    omega
  · intro h
    rw [hempty] at h
    refine ⟨?_, ?_⟩
    · rw [hlists]
      exact List.take_of_length_le (by omega)
    · rw [hcurrent]
      omega

/-- What happens to a stack whose list is chosen for a request that cannot be read. -/
theorem unchanged_targetForSet {stack chosen : QuickfixStack} {request : Request} {target : Nat}
    (htarget : stack.targetForSet request.action request.what request.title = some (chosen, target)) :
    Unchanged stack (if request.action = ' ' ∨ stack.lists.isEmpty then chosen.dropCreated target
      else chosen) ↔ ChoosesInPlace stack request := by
  rw [QuickfixStack.targetForSet] at htarget
  rw [ChoosesInPlace]
  by_cases hcreated : request.action = ' ' ∨ stack.lists.isEmpty = true
  · rw [if_pos hcreated, Option.some.injEq] at htarget
    rw [if_pos hcreated, if_pos hcreated]
    have hdrop := unchanged_dropCreated stack request.title
    rw [htarget] at hdrop
    exact hdrop
  · rw [if_neg hcreated, Option.map_eq_some_iff] at htarget
    obtain ⟨selected, hselect, htarget⟩ := htarget
    cases htarget
    rw [if_neg hcreated, if_neg hcreated]
    constructor
    · intro h other hother
      rw [hselect, Option.some.injEq] at hother
      exact hother ▸ h.current
    · intro h
      exact ⟨rfl, h _ hselect⟩

/-- **A failing call leaves its stack as it was**, if and only if, where its entries cannot be read, the
list it is for is chosen in place. -/
theorem setList_atomic_iff (host : Host β) (engine : EfmEngine β Part State) (cells : Cells)
    (editor : EditorState β) (scope : QfScope) (args : List Value) (defaultTitle : String) :
    Atomic host engine cells editor scope args defaultTitle ↔
      ∀ request error, prepare host cells args defaultTitle = .ok (.request request) →
        ((readItems host engine cells request).run editor.host).1 = .error error →
          ChoosesInPlace (editor.stack scope) request := by
  rw [Atomic, setList]
  cases hprepare : prepare host cells args defaultTitle with
  | error error => exact iff_of_true (fun _ => .refl _) (by simp)
  | ok prepared =>
    cases prepared with
    | free => exact iff_of_true (fun hfailed => absurd hfailed not_failed_zero) (by simp)
    | invalid => exact iff_of_true (fun _ => .refl _) (by simp)
    | request request =>
      dsimp only
      cases htarget : (editor.stack scope).targetForSet request.action request.what request.title with
      | none =>
        refine iff_of_true (fun _ => ?_) ?_
        · simpa using Unchanged.refl (editor.stack scope)
        · -- nothing is selected, and nothing pushed
          intro other error hother _
          cases hother
          rw [QuickfixStack.targetForSet] at htarget
          rw [ChoosesInPlace]
          split at htarget
          · cases htarget
          · rw [if_neg ‹_›]
            intro selected hselect
            rw [hselect] at htarget
            cases htarget
      | some choice =>
        obtain ⟨chosen, target⟩ := choice
        have hiff := unchanged_targetForSet htarget
        dsimp only
        cases hread : (readItems host engine cells request).run editor.host with
        | mk result next =>
          cases result with
          | error error =>
            dsimp only
            rw [EditorState.stack_setStack]
            constructor
            · intro h other _ hother _
              cases hother
              exact hiff.mp (h trivial)
            · intro h _
              exact hiff.mpr (h request error rfl (by rw [hread]))
          | ok read =>
            refine iff_of_true (fun hfailed => absurd hfailed not_failed_zero) ?_
            intro other error hother herror
            cases hother
            rw [hread] at herror
            cases herror

/-! ### Lists that are lost -/

/-- An editor without buffers. -/
def noBuffers : Host Unit where
  bufferExists _ _ := false
  namedBuffer _ next := (next, none)
  effectiveEfm _ := []
  toStringLossy bytes := bytes.map fun byte => Char.ofNat byte.toNat

/-- An engine that compiles any part and ignores every line. -/
def ignoring : EfmEngine Unit Unit Unit where
  initial := ()
  compilePart _ := .ok ()
  parseLine _ _ efm parsed next := (next, .ok (.ignored, efm, parsed))

/-- `[]`, `['x']` and `{'lines': ['x'], 'efm': ''}`. -/
def emptyFormat : Cells where
  lists ref := ⟨if ref = 1 then [.string [120]] else [], false, false⟩
  dicts _ := ⟨[⟨Utf8.encode "lines".toList, .list 1⟩, ⟨Utf8.encode "efm".toList, .string []⟩], false⟩

/-- Two lists, of which the older one is current. -/
def older : EditorState Unit where
  quickfix := ⟨[.new 1 [], .new 2 []], 0, 3⟩
  loclists _ := none
  loclistRef _ := none
  host := ()

theorem not_atomic_older : ¬ Atomic noBuffers ignoring emptyFormat older .quickfix
    [.list 0, .string [32], .dict 0] ":setqflist()" := by
  intro h
  have hunchanged := h trivial
  have hlength := congrArg List.length hunchanged.lists
  revert hlength
  decide

end Oxvim.Editor.Quickfix
