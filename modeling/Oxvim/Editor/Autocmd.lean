import Mathlib

/-!
# Autocommands

The store of autocommand groups and definitions. A group has an id and, while it is live, a name; a
group that `:augroup!` deletes keeps its id as a tombstone for the definitions that still name it. A
definition (an entry) has an id and a sequence number of its own, and a payload that the caller has to
release when the entry leaves the store.
-/

namespace Oxvim.Editor.Autocmd

/-- Autocommand events. -/
inductive Event where
  | bufAdd | bufDelete | bufEnter | bufFilePost | bufFilePre | bufHidden | bufLeave | bufNew
  | bufNewFile | bufReadCmd | bufReadPost | bufReadPre | bufUnload | bufWinEnter | bufWinLeave
  | bufWipeout | bufWriteCmd | bufWritePost | bufWritePre | chanClose | chanInfo | chanOpen
  | cmdAtom | cmdUndefined | cmdlineChanged | cmdlineEnter | cmdlineLeave | cmdlineLeavePre
  | cmdwinEnter | cmdwinLeave | colorScheme | colorSchemePre | completeChanged | completeDone
  | completeDonePre | cursorHold | cursorHoldI | cursorMoved | cursorMovedC | cursorMovedI
  | diagnosticChanged | diffUpdated | dirChanged | dirChangedPre | encodingChanged | exitPre
  | fileAppendCmd | fileAppendPost | fileAppendPre | fileChangedRO | fileChangedShell
  | fileChangedShellPost | fileReadCmd | fileReadPost | fileReadPre | fileType | fileWriteCmd
  | fileWritePost | fileWritePre | filterReadPost | filterReadPre | filterWritePost
  | filterWritePre | focusGained | focusLost | funcUndefined | guiEnter | guiFailed
  | insertChange | insertCharPre | insertEnter | insertLeave | insertLeavePre | lspAttach
  | lspDetach | lspNotify | lspProgress | lspRequest | lspTokenUpdate | markSet | menuPopup
  | modeChanged | optionSet | quickFixCmdPost | quickFixCmdPre | quitPre | packChangedPre
  | packChanged | progress | recordingEnter | recordingLeave | remoteReply | safeState
  | searchWrapped | sessionLoadPost | sessionLoadPre | sessionWritePre | sessionWritePost
  | shellCmdPost | shellFilterPost | signal | sourceCmd | sourcePost | sourcePre
  | spellFileMissing | stdinReadPost | stdinReadPre | swapExists | syntaxEvent | tabClosed
  | tabClosedPre | tabEnter | tabLeave | tabMoved | tabNew | tabNewEntered | termChanged
  | termClose | termEnter | termLeave | termOpen | termRequest | termResponse | textChanged
  | textChangedI | textChangedP | textChangedT | textPutPost | textPutPre | textYankPost
  | uiEnter | uiLeave | user | vimEnter | vimLeave | vimLeavePre | vimResized | vimResume
  | vimSuspend | winClosed | winEnter | winLeave | winNewPre | winNew | winResized | winScrolled
  deriving DecidableEq

/-- Stable augroup identity. Zero is the default, ungrouped namespace. -/
abbrev AugroupId := Nat

abbrev AutocmdEntryId := Nat

abbrev BufHandle := Nat

/-- Host-owned action referenced by an autocommand. -/
inductive AutocmdKind where
  | exString (source : String)
  | vimscriptFunction (name : String)
  | luaCallback (reference : Nat)
  deriving DecidableEq

structure AutocmdOptions where
  group : AugroupId
  /-- Buffer substituted for `<abuf>`, `<buffer>` and `<buffer=0>`. -/
  buffer : Option BufHandle
  once : Bool
  nested : Bool
  description : Option String
  deriving DecidableEq

/-- Selector of definitions; `none` matches all. -/
structure AutocmdFilter where
  group : Option AugroupId
  events : Option (List Event)
  patterns : Option (List String)
  buffers : Option (List BufHandle)
  apiId : Option Nat

inductive AutocmdError where
  | emptyGroupName
  | emptyEvent
  | emptyPattern
  | missingBuffer
  | invalidBufferPattern (pattern : String)
  | unknownGroup (id : AugroupId)
  | unbalancedBraces
  deriving DecidableEq

inductive StoredPattern where
  | glob (patterns : List String)
  | buffer (handle : BufHandle)
  deriving DecidableEq

inductive GroupState where
  | live (name : String)
  | tombstoned
  deriving DecidableEq

structure Entry where
  id : AutocmdEntryId
  apiId : Option Nat
  sequence : Nat
  event : Event
  pattern : StoredPattern
  sourcePattern : String
  kind : AutocmdKind
  options : AutocmdOptions
  deriving DecidableEq

/-- Editor-owned augroups and autocmd definitions. -/
structure Autocmds where
  groups : AugroupId → Option GroupState
  groupNames : String → Option AugroupId
  entries : List Entry
  nextEntryId : Nat
  nextApiId : Nat
  nextGroup : Nat
  nextSequence : Nat

/-- The largest 64-bit counter. -/
def u64Max : Nat := 2 ^ 64 - 1

def saturatingIncr (n : Nat) : Nat := min (n + 1) u64Max

/-! ## Patterns -/

/-- `split_pattern_list` from a point of the text on: commas inside braces and after a backslash do
not split. -/
def splitPatternFrom : List Char → (depth : Nat) → (escaped : Bool) → (current : List Char) →
    Except AutocmdError (List (List Char))
  | [], depth, escaped, current =>
    if depth ≠ 0 then .error .unbalancedBraces
    else .ok [if escaped then current ++ ['\\'] else current]
  | ch :: rest, depth, escaped, current =>
    if escaped then splitPatternFrom rest depth false (current ++ [ch])
    else if ch = '\\' then splitPatternFrom rest depth true (current ++ [ch])
    else if ch = '{' then splitPatternFrom rest (depth + 1) false (current ++ [ch])
    else if ch = '}' then
      if depth = 0 then .error .unbalancedBraces
      else splitPatternFrom rest (depth - 1) false (current ++ [ch])
    else if ch = ',' ∧ depth = 0 then
      (splitPatternFrom rest 0 false []).map fun parts => current :: parts
    else splitPatternFrom rest depth false (current ++ [ch])

def splitPatternList (patterns : List Char) : Except AutocmdError (List (List Char)) :=
  splitPatternFrom patterns 0 false []

/-- A part is no longer than the text it is cut from, a lone backslash at its end apart. -/
theorem length_splitPatternFrom {chars : List Char} {depth : Nat} {escaped : Bool}
    {current : List Char} {parts : List (List Char)}
    (h : splitPatternFrom chars depth escaped current = .ok parts) :
    ∀ part ∈ parts, part.length ≤ current.length + chars.length + 1 := by
  induction chars generalizing depth escaped current parts with
  | nil =>
    rw [splitPatternFrom] at h
    split at h
    · cases h
    · cases h
      intro part hpart
      rw [List.mem_singleton.mp hpart]
      split <;> simp
  | cons ch rest ih =>
    have hpush : ∀ {depth : Nat} {escaped : Bool},
        splitPatternFrom rest depth escaped (current ++ [ch]) = .ok parts →
          ∀ part ∈ parts, part.length ≤ current.length + (ch :: rest).length + 1 := by
      intro depth escaped h part hpart
      have hle := ih h part hpart
      simp only [List.length_append, List.length_cons, List.length_nil] at hle ⊢
      omega
    rw [splitPatternFrom] at h
    split at h
    · exact hpush h
    split at h
    · exact hpush h
    split at h
    · exact hpush h
    split at h
    · split at h
      · cases h
      · exact hpush h
    split at h
    · cases hsplit : splitPatternFrom rest 0 false [] with
      | error error =>
        rw [hsplit] at h
        cases h
      | ok tail =>
        rw [hsplit] at h
        cases h
        intro part hpart
        rcases List.mem_cons.mp hpart with rfl | hpart
        · simp only [List.length_cons]
          omega
        · have hle := ih hsplit part hpart
          simp only [List.length_cons, List.length_nil] at hle ⊢
          omega
    · exact hpush h

/-- The index of the brace that closes the first one. -/
def closeBrace : List Char → (depth : Nat) → (index : Nat) → Option Nat
  | [], _, _ => none
  | ch :: rest, depth, index =>
    let depth := if ch = '{' then depth + 1 else depth
    if ch = '}' then
      if depth = 0 then none
      else if depth - 1 = 0 then some index
      else closeBrace rest (depth - 1) (index + 1)
    else closeBrace rest depth (index + 1)

theorem closeBrace_bounds {chars : List Char} {depth index close : Nat}
    (h : closeBrace chars depth index = some close) :
    index ≤ close ∧ close < index + chars.length := by
  induction chars generalizing depth index with
  | nil => cases h
  | cons ch rest ih =>
    simp only [closeBrace] at h
    generalize (if ch = '{' then depth + 1 else depth) = opened at h
    simp only [List.length_cons]
    split at h
    · split at h
      · cases h
      · split at h
        · cases h
          omega
        · have hle := ih h
          omega
    · have hle := ih h
      omega

/-- The alternatives of the first brace group, put in its place one after another. -/
def expandBraces (pattern : List Char) : Option (List (List Char)) :=
  match hstart : pattern.findIdx? (· == '{') with
  | none => some [pattern]
  | some start =>
    match hclose : closeBrace (pattern.drop start) 0 start with
    | none => none
    | some close =>
      match hsplit : splitPatternList ((pattern.take close).drop (start + 1)) with
      | .error _ => none
      | .ok alternatives =>
        (alternatives.attach.mapM fun alternative =>
          expandBraces (pattern.take start ++ alternative.1 ++ pattern.drop (close + 1))).map
            List.flatten
termination_by pattern.length
decreasing_by
  have hlt : start < pattern.length := (List.findIdx?_eq_some_iff_getElem.mp hstart).1
  have hbrace : pattern.drop start = '{' :: pattern.drop (start + 1) := by
    obtain ⟨_, hname, -⟩ := List.findIdx?_eq_some_iff_getElem.mp hstart
    rw [List.drop_eq_getElem_cons hlt, beq_iff_eq.mp hname]
  have hafter : start + 1 ≤ close ∧ close < pattern.length := by
    rw [hbrace, closeBrace] at hclose
    have hbounds := closeBrace_bounds hclose
    rw [List.length_drop] at hbounds
    omega
  have hle := length_splitPatternFrom hsplit alternative.1 alternative.2
  simp only [List.length_append, List.length_take, List.length_drop, List.length_nil] at hle ⊢
  omega

/-- A 64-bit integer in decimal. -/
def parseI64 (text : List Char) : Option Int :=
  let (negative, digits) := match text with
    | '-' :: rest => (true, rest)
    | '+' :: rest => (false, rest)
    | rest => (false, rest)
  if digits.isEmpty || !digits.all Char.isDigit then none
  else
    let magnitude : Int := digits.foldl (fun n ch => 10 * n + (ch.toNat - '0'.toNat)) 0
    let value := if negative then -magnitude else magnitude
    if -2 ^ 63 ≤ value ∧ value < 2 ^ 63 then some value else none

/-- A handle is a 32-bit integer that is not negative. -/
def BufHandle.tryFrom (value : Int) : Option BufHandle :=
  if 0 ≤ value ∧ value < 2 ^ 31 then some value.toNat else none

def resolveBufferPattern (part : List Char) (fallback : Option BufHandle) :
    Except AutocmdError (Option BufHandle) :=
  let current := match fallback with
    | some handle => .ok (some handle)
    | none => .error .missingBuffer
  if part = "<abuf>".toList ∨ part = "<buffer>".toList ∨ part = "<buffer=0>".toList then current
  else if "<buffer=".toList.isPrefixOf part ∧ (part.drop 8).getLast? = some '>' then
    match parseI64 (part.drop 8).dropLast with
    | none => .error (.invalidBufferPattern (String.ofList part))
    | some n =>
      if n = 0 then current
      else match BufHandle.tryFrom n with
        | none => .error (.invalidBufferPattern (String.ofList part))
        | some handle => .ok (some handle)
  else .ok none

/-- One pattern item as it is stored, with its canonical source. -/
def parsePattern (part : List Char) (fallback : Option BufHandle) :
    Except AutocmdError (StoredPattern × String) :=
  match resolveBufferPattern part fallback with
  | .error error => .error error
  | .ok (some handle) => .ok (.buffer handle, "<buffer=" ++ toString handle ++ ">")
  | .ok none => match expandBraces part with
    | none => .error .unbalancedBraces
    | some expanded => .ok (.glob (expanded.map String.ofList), String.ofList part)

/-! ## The store -/

namespace Autocmds

/-- A store with the core augroups and no definitions. -/
def new : Autocmds where
  groups id := if id = 1 then some (.live "nvim.popupmenu") else none
  groupNames name := if name = "nvim.popupmenu" then some 1 else none
  entries := []
  nextEntryId := 1
  nextApiId := 1
  nextGroup := 2
  nextSequence := 1

/-- Whether a group id exists, live or tombstoned. -/
def hasGroup (self : Autocmds) (id : AugroupId) : Bool :=
  id == 0 || (self.groups id).isSome

/-- Whether a group id is live or the default group. -/
def isLiveGroup (self : Autocmds) (id : AugroupId) : Bool :=
  id == 0 || match self.groups id with
    | some (.live _) => true
    | _ => false

/-- The first id from `candidate` on that no group has. The last id is tried for ever. -/
def allocateFrom (groups : AugroupId → Option GroupState) (candidate : Nat) :
    (left : Nat) → Option AugroupId
  | 0 => if (groups candidate).isNone then some candidate else none
  | left + 1 =>
    if (groups candidate).isNone then some candidate
    else allocateFrom groups (candidate + 1) left

/-- A fresh group id; `none` where the search does not end. -/
def allocateGroupId (self : Autocmds) : Option (AugroupId × Autocmds) :=
  (allocateFrom self.groups self.nextGroup (u64Max - self.nextGroup)).map fun id =>
    (id, { self with nextGroup := saturatingIncr id })

/-- Take the entries that meet a condition out of the store, with their payloads. -/
def retainNot (self : Autocmds) (doomed : Entry → Bool) : Autocmds × List AutocmdKind :=
  ({ self with entries := self.entries.filter fun entry => !doomed entry },
    (self.entries.filter doomed).map (·.kind))

/-- Clear every definition in an augroup while preserving the group. -/
def clearGroup (self : Autocmds) (id : AugroupId) :
    Except AutocmdError (Autocmds × List AutocmdKind) :=
  if id ≠ 0 ∧ !self.isLiveGroup id then .error (.unknownGroup id)
  else .ok (self.retainNot fun entry => entry.options.group == id)

/-- Create a group or return its existing identity; `none` where no id is found for a new one. -/
def createGroup (self : Autocmds) (name : String) (clear : Bool) :
    Option (Autocmds × Except AutocmdError AugroupId) :=
  if name = "" then some (self, .error .emptyGroupName)
  else match self.groupNames name with
    | some id =>
      if clear then
        match self.clearGroup id with
        | .error error => some (self, .error error)
        | .ok (next, _) => some (next, .ok id)
      else some (self, .ok id)
    | none => self.allocateGroupId.map fun (id, next) =>
      ({ next with
          groups := Function.update next.groups id (some (.live name))
          groupNames := Function.update next.groupNames name (some id) },
        .ok id)

/-- Remove a group, its name and all its entries. -/
def deleteGroup (self : Autocmds) (id : AugroupId) :
    Except AutocmdError (Autocmds × List AutocmdKind) :=
  match self.groups id with
  | none => .error (.unknownGroup id)
  | some state =>
    let groupNames := match state with
      | .live name => Function.update self.groupNames name none
      | .tombstoned => self.groupNames
    .ok (({ self with groups := Function.update self.groups id none, groupNames }).retainNot
      fun entry => entry.options.group == id)

/-- Remove the name of a live group; its entries stay under a tombstone. -/
def deleteGroupLegacy (self : Autocmds) (id : AugroupId) : Except AutocmdError Autocmds :=
  match self.groups id with
  | some (.live name) =>
    .ok { self with
      groupNames := Function.update self.groupNames name none
      groups := Function.update self.groups id (some .tombstoned) }
  | _ => .error (.unknownGroup id)

/-- Check the group and parse every pattern item. -/
def parseRegistration (self : Autocmds) (patterns : String) (options : AutocmdOptions) :
    Except AutocmdError (List (StoredPattern × String)) :=
  if options.group ≠ 0 ∧ !self.isLiveGroup options.group then
    .error (.unknownGroup options.group)
  else do
    let parts ← splitPatternList patterns.toList
    if parts.all List.isEmpty then .error .emptyPattern
    else (parts.filter fun part => !part.isEmpty).mapM fun part => parsePattern part options.buffer

/-- Add one entry under the next id and sequence number. -/
def pushEntry (kind : AutocmdKind) (options : AutocmdOptions) (apiId : Option Nat) (self : Autocmds)
    (definition : (StoredPattern × String) × Event) : Autocmds :=
  { self with
    nextEntryId := saturatingIncr self.nextEntryId
    nextSequence := saturatingIncr self.nextSequence
    entries := self.entries ++
      [⟨self.nextEntryId, apiId, self.nextSequence, definition.2, definition.1.1, definition.1.2,
        kind, options⟩] }

def commitRegistration (self : Autocmds) (events : List Event) (kind : AutocmdKind)
    (options : AutocmdOptions) (parsed : List (StoredPattern × String)) (apiId : Option Nat) :
    Autocmds :=
  (parsed.flatMap fun pattern => events.map fun event => (pattern, event)).foldl
    (pushEntry kind options apiId) self

/-- Register one batch under a shared API id. -/
def registerApi (self : Autocmds) (events : List Event) (patterns : String) (kind : AutocmdKind)
    (options : AutocmdOptions) : Except AutocmdError (Autocmds × Nat) :=
  if events.isEmpty then .error .emptyEvent
  else match self.parseRegistration patterns options with
    | .error error => .error error
    | .ok parsed =>
      let apiId := self.nextApiId
      .ok (({ self with nextApiId := saturatingIncr apiId }).commitRegistration events kind options
        parsed (some apiId), apiId)

/-- Register entries without an API id. -/
def registerLegacy (self : Autocmds) (events : List Event) (patterns : String) (kind : AutocmdKind)
    (options : AutocmdOptions) : Except AutocmdError Autocmds :=
  if events.isEmpty then .error .emptyEvent
  else match self.parseRegistration patterns options with
    | .error error => .error error
    | .ok parsed => .ok (self.commitRegistration events kind options parsed none)

def entryMatchesFilter (self : Autocmds) (entry : Entry) (filter : AutocmdFilter) : Bool :=
  (filter.group.all fun id => id == entry.options.group && (id == 0 || self.isLiveGroup id)) &&
    (filter.events.all fun events => events.contains entry.event) &&
    (filter.patterns.all fun patterns => patterns.contains entry.sourcePattern) &&
    (filter.buffers.all fun buffers => match entry.pattern with
      | .buffer handle => buffers.contains handle
      | .glob _ => false) &&
    (filter.apiId.all fun id => entry.apiId == some id)

/-- Remove the definitions that match the filter. -/
def clear (self : Autocmds) (filter : AutocmdFilter) : Autocmds × List AutocmdKind :=
  let doomed := (self.entries.filter (self.entryMatchesFilter · filter)).map (·.id)
  self.retainNot fun entry => doomed.contains entry.id

/-- Remove every entry sharing one API id. -/
def deleteApiId (self : Autocmds) (apiId : Nat) : Autocmds × List AutocmdKind :=
  self.retainNot fun entry => entry.apiId == some apiId

/-- Remove one entry by entry id; the payload of the last one removed. -/
def deleteEntry (self : Autocmds) (entryId : AutocmdEntryId) : Autocmds × Option AutocmdKind :=
  let (next, removed) := self.retainNot fun entry => entry.id == entryId
  (next, removed.getLast?)

/-- Remove the one-shot definition identified by `entryId`. -/
def consumeOnce (self : Autocmds) (entryId : AutocmdEntryId) : Autocmds × Option AutocmdKind :=
  let (next, removed) := self.retainNot fun entry => entry.id == entryId && entry.options.once
  (next, removed.getLast?)

/-- Remove all buffer-local definitions of a wiped buffer. -/
def removeBuffer (self : Autocmds) (buffer : BufHandle) : Autocmds × List AutocmdKind :=
  self.retainNot fun entry => entry.pattern == .buffer buffer

end Autocmds

end Oxvim.Editor.Autocmd
