import Oxvim.Editor.Fold

/-!
# Computed folds

The two fold methods that need no host, by indent and by markers, turn the lines into one level for
each row and the levels into ranges, one for each stretch of rows of at least a depth. The ranges of
the other computed methods come from the host. The folds are computed when they are asked for, by
`Folds.refresh`, and kept until the text or a setting changes.
-/

namespace Oxvim.Editor

open Lib

/-- The maximum representable fold nesting depth. -/
def maxFoldDepth : Nat := 20

/-- `usize::saturating_mul`. -/
def satMul (a b : Nat) : Nat := min (a * b) usizeMax

namespace FoldRange

/-- Creates a whole-line half-open range. -/
def lines (startRow endRowExclusive : Nat) : Except FoldError FoldRange :=
  normalized ⟨startRow, 0⟩ ⟨endRowExclusive, 0⟩

/-- Whether the range contains the position. -/
def Has (self : FoldRange) (position : FoldPosition) : Prop :=
  self.start ≤ position ∧ position < self.stop

instance (self : FoldRange) (position : FoldPosition) : Decidable (self.Has position) :=
  inferInstanceAs (Decidable (_ ∧ _))

/-- Whether the fold occupies any part of a zero-based row. -/
def CoversRow (self : FoldRange) (row : Nat) : Prop :=
  self.start.row ≤ row ∧ (row < self.stop.row ∨ row = self.stop.row ∧ 0 < self.stop.column)

instance (self : FoldRange) (row : Nat) : Decidable (self.CoversRow row) :=
  inferInstanceAs (Decidable (_ ∧ _))

end FoldRange

/-! ## Levels by indent -/

/-- The loop over the bytes of a line in `indentLevels`: the column that the white space ends in,
and whether nothing but white space was found. -/
def scanIndent (shiftWidth : Nat) : (columns : Nat) → List UInt8 → Nat × Bool
  | columns, [] => (columns, true)
  | columns, byte :: bytes =>
    if byte = 0x20 then scanIndent shiftWidth (satAdd columns 1) bytes
    else if byte = 0x09 then
      scanIndent shiftWidth (satAdd columns (shiftWidth - columns % shiftWidth)) bytes
    else if byte = 0x0D ∨ byte = 0x0A then scanIndent shiftWidth columns bytes
    else (columns, false)

/-- The level of a line on its own, `none` for a blank one. -/
def rawIndent (shiftWidth : Nat) (line : List UInt8) : Option Nat :=
  let (columns, blank) := scanIndent shiftWidth 0 line
  if blank then none else some (min (columns / shiftWidth) maxFoldDepth)

/-- The forward pass: a blank line takes the nearest level above. -/
def seedAbove : (previous : Nat) → List (Option Nat) → List Nat
  | _, [] => []
  | _, some lvl :: raw => lvl :: seedAbove lvl raw
  | previous, none :: raw => previous :: seedAbove previous raw

/-- The backward pass: a blank line takes the lower of its level and the nearest level below. The
first component is the nearest level of the lines read so far. -/
def takeLower : List (Option Nat) → List Nat → Nat × List Nat
  | some lvl :: raw, level :: levels => (lvl, level :: (takeLower raw levels).2)
  | none :: raw, level :: levels =>
    let (next, levels) := takeLower raw levels
    (next, min level next :: levels)
  | _, _ => (0, [])

/-- Computes indent fold levels for byte lines. -/
def indentLevels (lines : List (List UInt8)) (shiftWidth : Nat) : Except FoldError (List Nat) :=
  if shiftWidth = 0 then .error .zeroShiftWidth
  else
    let raw := lines.map (rawIndent shiftWidth)
    .ok (takeLower raw (seedAbove 0 raw)).2

/-! ## Levels by markers -/

/-- Where `needle` begins in `haystack`. -/
def findBytes (haystack needle : List UInt8) : Option Nat :=
  (List.range (haystack.length + 1 - needle.length)).find? fun i =>
    (haystack.drop i).take needle.length = needle

def isAsciiDigit (byte : UInt8) : Bool := 0x30 ≤ byte && byte ≤ 0x39

/-- The decimal number that the bytes begin with. -/
def decimalAfter (bytes : List UInt8) : Option Nat :=
  let digits := bytes.takeWhile isAsciiDigit
  if digits = [] then none
  else some (digits.foldl (fun value byte => satAdd (satMul value 10) (byte - 0x30).toNat) 0)

/-- The loop over the markers of a line in `markerLevels`, on the bytes that are left: the level
behind the line and the level of the line. Markers are not empty, so each one found leaves fewer
bytes and the fuel is the number of bytes. -/
def scanMarkers (start stop : List UInt8) :
    (fuel : Nat) → List UInt8 → (nextLevel lineLevel : Nat) → Nat × Nat
  | 0, _, nextLevel, lineLevel => (nextLevel, lineLevel)
  | fuel + 1, bytes, nextLevel, lineLevel =>
    let opening (at' : Nat) :=
      let rest := bytes.drop (at' + start.length)
      let nextLevel := min ((decimalAfter rest).getD (satAdd nextLevel 1)) maxFoldDepth
      scanMarkers start stop fuel rest nextLevel (max lineLevel nextLevel)
    let closing (at' : Nat) :=
      let rest := bytes.drop (at' + stop.length)
      scanMarkers start stop fuel rest
        ((decimalAfter rest).elim (nextLevel - 1) (· - 1)) (max lineLevel nextLevel)
    if bytes = [] then (nextLevel, lineLevel)
    else match findBytes bytes start, findBytes bytes stop with
      | none, none => (nextLevel, lineLevel)
      | some startAt, none => opening startAt
      | some startAt, some stopAt => if startAt ≤ stopAt then opening startAt else closing stopAt
      | none, some stopAt => closing stopAt

/-- The loop of `markerLevels` from a level on. -/
def markerLevelsFrom (start stop : List UInt8) : (level : Nat) → List (List UInt8) → List Nat
  | _, [] => []
  | level, line :: lines =>
    let (nextLevel, lineLevel) := scanMarkers start stop line.length line level level
    min lineLevel maxFoldDepth :: markerLevelsFrom start stop (min nextLevel maxFoldDepth) lines

def markerLevels (lines : List (List UInt8)) (start stop : List UInt8) : List Nat :=
  markerLevelsFrom start stop 0 lines

/-! ## Ranges of levels -/

/-- One row of the scan for the ranges of a depth: the row at which the pending range starts, and
the ranges so far. -/
def scanRow (levels : List Nat) (depth : Nat) (state : Option Nat × List FoldRange) (row : Nat) :
    Except FoldError (Option Nat × List FoldRange) :=
  let folded := levels[row]?.any (depth ≤ ·)
  match state.1, folded with
  | none, true => .ok (some row, state.2)
  | some startRow, false => do
    let range ← FoldRange.lines startRow row
    return (none, state.2 ++ [range])
  | _, _ => .ok state

/-- The scan for the ranges of a depth, behind the ranges so far. -/
def scanDepth (levels : List Nat) (ranges : List FoldRange) (depth : Nat) :
    Except FoldError (List FoldRange) := do
  let (_, ranges) ← (List.range (levels.length + 1)).foldlM (scanRow levels depth) (none, ranges)
  return ranges

/-- A range for each stretch of rows of at least a depth. -/
def rangesFromLevels (levels : List Nat) : Except FoldError (List FoldRange) :=
  let maxLevel := min (levels.max?.getD 0) maxFoldDepth
  (List.range' 1 maxLevel).foldlM (scanDepth levels) []

/-! ## Refreshing -/

/-- A fold computation delegated to the editor host. -/
inductive HostFoldKind where
  | expr
  | syn
  | diff
  deriving DecidableEq, Repr

/-- The host kind for methods that require host computation. -/
def FoldMethod.hostKind : FoldMethod → Option HostFoldKind
  | .expr => some .expr
  | .syn => some .syn
  | .diff => some .diff
  | .manual | .indent | .marker => none

/-- An immutable request for host-computed fold ranges. -/
structure FoldComputeRequest where
  kind : HostFoldKind
  changedtick : UInt64
  lineCount : Nat
  deriving DecidableEq, Repr

/-- A host's completed fold computation. -/
structure FoldComputeResult where
  request : FoldComputeRequest
  ranges : List FoldRange
  deriving DecidableEq, Repr

/-- Outcome of lazily refreshing the active fold method. -/
inductive FoldRefresh where
  | ready (changedtick : UInt64) (foldCount : Nat)
  | host (request : FoldComputeRequest)
  deriving DecidableEq, Repr

namespace Folds

/-- The active folds. -/
def active (self : Folds) : List Fold :=
  if self.method = .manual then self.manual else self.computed

/-- Replaces the active folds. -/
def setActive (self : Folds) (folds : List Fold) : Folds :=
  if self.method = .manual then { self with manual := folds } else { self with computed := folds }

/-- The nesting level at a zero-based row. -/
def levelAtRow (self : Folds) (row : Nat) : Nat :=
  self.active.countP fun fold => fold.range.CoversRow row

/-- The state of the last computed fold with a range and a depth. -/
def stateOf (self : Folds) (fold : Fold) : FoldState :=
  ((self.computed.reverse.find? fun old => old.range = fold.range ∧ old.depth = fold.depth).map
    (·.state)).getD .closed

/-- Replaces the computed folds; a fold that stays keeps its state. -/
def replaceComputed (ranges : List FoldRange) : EStateM FoldError Folds Unit := do
  let self ← get
  let folds := ranges.map fun range => ({ range, depth := 1, state := .closed } : Fold)
  match normalizeFolds folds with
  | .error e _ => throw e
  | .ok _ folds =>
    let computed := folds.map fun fold => { fold with state := self.stateOf fold }
    set ({ self with computed } : Folds)

/-- Records that the folds are those of `changedtick`. -/
def markFresh (changedtick : UInt64) : EStateM FoldError Folds Unit :=
  modify fun self => { self with changedtick := some changedtick, dirty := false }

/-- The folds of a method that needs no host. -/
def recompute (changedtick : UInt64) (levels : Except FoldError (List Nat)) :
    EStateM FoldError Folds Unit := do
  let levels ← MonadExcept.ofExcept levels
  let ranges ← MonadExcept.ofExcept (rangesFromLevels levels)
  replaceComputed ranges
  markFresh changedtick

/-- The answer that the cache is ready for queries. -/
def ready (changedtick : UInt64) : EStateM FoldError Folds FoldRefresh := do
  return .ready changedtick (← get).active.length

/-- Lazily refreshes local methods or returns typed host work. -/
def refresh (changedtick : UInt64) (lines : List (List UInt8)) :
    EStateM FoldError Folds FoldRefresh := do
  modify fun self => { self with requestedTick := some changedtick }
  let self ← get
  if !self.dirty ∧ self.changedtick = some changedtick then ready changedtick
  else match self.method with
    | .manual =>
      markFresh changedtick
      ready changedtick
    | .indent =>
      recompute changedtick (indentLevels lines self.shiftWidth)
      ready changedtick
    | .marker =>
      recompute changedtick (.ok (markerLevels lines self.markerStart self.markerEnd))
      ready changedtick
    | .expr | .syn | .diff => match self.method.hostKind with
      | none => throw .wrongHostMethod
      | some kind => return .host { kind, changedtick, lineCount := lines.length }

/-- Applies ranges returned by the host. -/
def applyHostResult (result : FoldComputeResult) : EStateM FoldError Folds Unit := do
  let self ← get
  if self.method.hostKind ≠ some result.request.kind then throw .wrongHostMethod
  else if self.requestedTick ≠ some result.request.changedtick then throw .staleResult
  else
    replaceComputed result.ranges
    markFresh result.request.changedtick

/-- Sets the nonzero indentation shift width. -/
def setShiftWidth (shiftWidth : Nat) : EStateM FoldError Folds Unit := do
  let self ← get
  if shiftWidth = 0 then throw .zeroShiftWidth
  else if self.shiftWidth ≠ shiftWidth then
    let dirty := self.dirty || self.method = .indent
    set ({ self with shiftWidth, dirty } : Folds)
  else return

/-- Sets non-empty marker byte strings. -/
def setMarkers (start stop : List UInt8) : EStateM FoldError Folds Unit := do
  let self ← get
  if start = [] ∨ stop = [] then throw .emptyMarker
  else if self.markerStart ≠ start ∨ self.markerEnd ≠ stop then
    let dirty := self.dirty || self.method = .marker
    set ({ self with markerStart := start, markerEnd := stop, dirty } : Folds)
  else return

/-- Deletes the deepest manual fold containing `position`, and with `recursive` its descendants. -/
def deleteManualAt (position : FoldPosition) (recursive : Bool) :
    EStateM FoldError Folds (List Fold) := do
  requireManual
  let self ← get
  match self.manual.reverse.find? fun fold => fold.range.Has position with
  | none => throw .noFold
  | some target =>
    let delete (fold : Fold) : Bool := fold.range = target.range ∨
      recursive ∧ target.range.Contains fold.range ∧ target.range ≠ fold.range
    set ({ self with manual := self.manual.filter fun fold => !delete fold } : Folds)
    normalizeManual
    return self.manual.filter delete

/-! ## Display states -/

/-- Sets the state of the fold at an index. -/
def restate (state : FoldState) (index : Nat) (folds : List Fold) : List Fold :=
  folds.modify index fun fold => { fold with state }

/-- The first closed fold that contains the position. -/
def firstClosed (folds : List Fold) (position : FoldPosition) : Option Nat :=
  folds.findIdx? fun fold => fold.range.Has position ∧ fold.state = .closed

/-- The last fold that contains the position before the first closed one does. -/
def deepestOpen (position : FoldPosition) :
    List Fold → (index : Nat) → (deepest : Option Nat) → Option Nat
  | [], _, deepest => deepest
  | fold :: folds, index, deepest =>
    if ¬fold.range.Has position then deepestOpen position folds (index + 1) deepest
    else if fold.state = .closed then deepest
    else deepestOpen position folds (index + 1) (some index)

/-- Opens the outermost closed fold containing `position`. -/
def openAt (position : FoldPosition) : EStateM FoldError Folds Bool := do
  let self ← get
  match firstClosed self.active position with
  | some index =>
    set (self.setActive (restate .opened index self.active))
    return true
  | none =>
    if self.active.any fun fold => fold.range.Has position then return false else throw .noFold

/-- Closes the deepest currently visible open fold containing `position`. -/
def closeAt (position : FoldPosition) : EStateM FoldError Folds Bool := do
  let self ← get
  match deepestOpen position self.active 0 none with
  | some index =>
    set (self.setActive (restate .closed index self.active))
    return true
  | none =>
    if self.active.any fun fold => fold.range.Has position then return false else throw .noFold

/-- Opens a closed fold at `position`, otherwise closes the deepest one. -/
def toggle (position : FoldPosition) : EStateM FoldError Folds Bool := do
  let self ← get
  match firstClosed self.active position, deepestOpen position self.active 0 none with
  | some index, _ =>
    set (self.setActive (restate .opened index self.active))
    return true
  | none, some index =>
    set (self.setActive (restate .closed index self.active))
    return true
  | none, none => throw .noFold

/-- Opens the first closed containing fold and all of its descendants. -/
def openRecursive (position : FoldPosition) : EStateM FoldError Folds Nat := do
  let self ← get
  let folds := self.active
  let deepest := (List.range folds.length).reverse.find? fun index =>
    folds[index]?.any fun fold => fold.range.Has position
  match (firstClosed folds position).or deepest with
  | none => throw .noFold
  | some target =>
    let inner (fold : Fold) : Bool :=
      folds[target]?.any (fun outer => outer.range.Contains fold.range) && fold.state = .closed
    let reopened := (folds.drop target).map fun fold =>
      if inner fold then { fold with state := .opened } else fold
    set (self.setActive (folds.take target ++ reopened))
    return (folds.drop target).countP inner

/-- Closes the outermost fold containing `position`. -/
def closeRecursive (position : FoldPosition) : EStateM FoldError Folds Nat := do
  let self ← get
  match self.active.findIdx? fun fold => fold.range.Has position with
  | none => throw .noFold
  | some index =>
    if self.active[index]?.any (·.state = .closed) then return 0
    else
      set (self.setActive (restate .closed index self.active))
      return 1

/-- Sets the state of every active fold; opening and closing all. -/
def setAll (state : FoldState) : EStateM FoldError Folds Nat := do
  let self ← get
  set (self.setActive (self.active.map fun fold => { fold with state }))
  return self.active.countP (·.state ≠ state)

end Folds

end Oxvim.Editor
