import Oxvim.Lib.EState
import Oxvim.Lib.Nesting
import Oxvim.Lib.RowCol
import Oxvim.Lib.Usize

/-!
# Manual folds

Fold data of one buffer: the manual folds with their nesting depths, and the bookkeeping by which
computed folds are invalidated. A fold covers a half-open range of positions.

The operations change the folds in place and normalize them last, so a call that fails in
`normalizeFolds` leaves them changed. `sort_by` is a stable sort, here `List.insertionSort`.
-/

namespace Oxvim.Editor

open Lib

/-- A zero-based, byte-oriented buffer position. -/
abbrev FoldPosition := RowCol

/-- A half-open fold range. -/
abbrev FoldRange := Span FoldPosition

/-- The source used to derive folds. -/
inductive FoldMethod where
  | manual
  | indent
  | expr
  | marker
  | syn
  | diff
  deriving DecidableEq, Repr

/-- A fold's explicit display state. -/
inductive FoldState where
  | opened
  | closed
  deriving DecidableEq, Repr

/-- One normalized fold in outer-before-inner order. -/
structure Fold where
  range : FoldRange
  depth : Nat
  state : FoldState
  deriving DecidableEq, Repr

/-- A rejected fold operation. -/
inductive FoldError where
  | emptyRange
  | zeroShiftWidth
  | emptyMarker
  | notManual
  | duplicateRange
  | noFold
  | crossingRanges
  | wrongHostMethod
  | staleResult
  deriving DecidableEq, Repr

/-- Buffer-local fold data and lazy computation state. -/
structure Folds where
  method : FoldMethod := .manual
  shiftWidth : Nat := 8
  markerStart : List UInt8 := "\x7b\x7b\x7b".toUTF8.toList
  markerEnd : List UInt8 := "\x7d\x7d\x7d".toUTF8.toList
  manual : List Fold := []
  computed : List Fold := []
  changedtick : Option UInt64 := none
  requestedTick : Option UInt64 := none
  dirty : Bool := true
  deriving DecidableEq, Repr

namespace FoldRange

/-- Creates a range and reverses its endpoints when necessary. -/
def normalized (start stop : FoldPosition) : Except FoldError FoldRange :=
  let range : FoldRange := if start ≤ stop then ⟨start, stop⟩ else ⟨stop, start⟩
  if range.start = range.stop then .error .emptyRange else .ok range

/-- The smallest range enclosing both ranges. -/
def union (self other : FoldRange) : FoldRange :=
  { start := min self.start other.start, stop := max self.stop other.stop }

end FoldRange

/-- Drops the ranges of the stack that end before `range` begins, innermost first. -/
def popStack (range : FoldRange) : List FoldRange → Except FoldError (List FoldRange)
  | [] => .ok []
  | candidate :: stack =>
    if candidate.Contains range then .ok (candidate :: stack)
    else if candidate.Overlaps range then .error .crossingRanges
    else popStack range stack

/-- The loop of `normalizeFolds` over the sorted folds: the depth of a fold is the number of ranges
on the stack, which are the ones that contain it. -/
def assignDepths (stack : List FoldRange) : List Fold → Except FoldError Unit × List Fold
  | [] => (.ok (), [])
  | fold :: folds => match popStack fold.range stack with
    | .error e => (.error e, fold :: folds)
    | .ok stack =>
      let (result, folds) := assignDepths (fold.range :: stack) folds
      (result, { fold with depth := stack.length + 1 } :: folds)

/-- Sorts the folds and assigns their depths. -/
def normalizeFolds : EStateM FoldError (List Fold) Unit := do
  let folds := (← get).insertionSort fun left right => left.range.OuterFirst right.range
  let (result, folds) := assignDepths [] folds
  set folds
  MonadExcept.ofExcept result

/-- Where a row goes when `oldRows` rows from `start` on are replaced by `newRows`. -/
def spliceRow (row start oldRows newRows : Nat) (rightGravity : Bool) : Nat :=
  let oldEnd := satAdd start oldRows
  let newEnd := satAdd start newRows
  if oldRows = 0 then
    if start < row ∨ row = start ∧ rightGravity then satAdd row newRows else row
  else if row < start ∨ row = start ∧ !rightGravity then row
  else if oldEnd < row ∨ row = oldEnd ∧ rightGravity then satAdd newEnd (row - oldEnd)
  else if rightGravity then newEnd else start

/-- A range whose rows are spliced: the start has right gravity, the end left gravity. -/
def spliceRange (range : FoldRange) (start oldRows newRows : Nat) : FoldRange :=
  { start := { range.start with row := spliceRow range.start.row start oldRows newRows true }
    stop := { range.stop with row := spliceRow range.stop.row start oldRows newRows false } }

namespace Folds

def requireManual : EStateM FoldError Folds Unit := do
  if (← get).method = .manual then return else throw .notManual

/-- Runs `normalizeFolds` on the manual folds. -/
def normalizeManual : EStateM FoldError Folds Unit :=
  EState.zoom Folds.manual (fun manual self => { self with manual }) id normalizeFolds

/-- Marks computed folds stale for `changedtick`. -/
def invalidate (self : Folds) (changedtick : UInt64) : Folds :=
  { self with requestedTick := some changedtick, dirty := true }

/-- The manual folds after a splice of their rows; consumed ones are gone. -/
def splicedManual (self : Folds) (start oldRows newRows : Nat) : List Fold :=
  (self.manual.map fun fold => { fold with range := spliceRange fold.range start oldRows newRows }).filter
    fun fold => fold.range.Inhabited

/-- Adjusts the rows of the manual folds through a line replacement. -/
def spliceRows (start oldRows newRows : Nat) : EStateM FoldError Folds Unit := do
  if (← get).method ≠ .manual then return
  else
    modify fun self => { self with manual := self.splicedManual start oldRows newRows }
    normalizeManual

/-- One pass over the folds in `createManual`: a fold that the range crosses extends it. -/
def expandOver : List Fold → FoldRange → Bool → Except FoldError (FoldRange × Bool)
  | [], range, expanded => .ok (range, expanded)
  | fold :: folds, range, expanded =>
    if fold.range = range then .error .duplicateRange
    else if fold.range.Overlaps range ∧ ¬fold.range.Contains range ∧ ¬range.Contains fold.range then
      expandOver folds (FoldRange.union range fold.range) true
    else expandOver folds range expanded

/-- Passes until none extends the range. A pass that does takes one more fold in for good, so there
are no more passes than folds and the last one. -/
def expandRange (folds : List Fold) : (fuel : Nat) → FoldRange → Except FoldError FoldRange
  | 0, range => .ok range
  | fuel + 1, range => do
    let (range, expanded) ← expandOver folds range false
    if expanded then expandRange folds fuel range else return range

/-- Creates a normalized manual fold, initially closed; folds that it crosses extend it. -/
def createManual (start stop : FoldPosition) : EStateM FoldError Folds FoldRange := do
  requireManual
  let range ← MonadExcept.ofExcept (FoldRange.normalized start stop)
  let self ← get
  let range ← MonadExcept.ofExcept (expandRange self.manual (self.manual.length + 1) range)
  if self.manual.any (·.range = range) then throw .duplicateRange
  else
    let fold : Fold := { range, depth := 1, state := .closed }
    set ({ self with manual := self.manual ++ [fold] } : Folds)
    normalizeManual
    return range

/-- Deletes one exact manual fold, retaining its nested folds. -/
def deleteManual (range : FoldRange) : EStateM FoldError Folds Fold := do
  requireManual
  let self ← get
  match self.manual.findIdx? (·.range = range), self.manual.find? (·.range = range) with
  | some index, some removed =>
    set ({ self with manual := self.manual.eraseIdx index } : Folds)
    normalizeManual
    return removed
  | _, _ => throw .noFold

/-- Removes every manual fold. -/
def clearManual : EStateM FoldError Folds Nat := do
  requireManual
  let self ← get
  set { self with manual := [] }
  return self.manual.length

/-- Selects a fold method and invalidates computed data. -/
def setMethod (self : Folds) (method : FoldMethod) : Folds :=
  if self.method = method then self
  else { self with
    method, computed := [], changedtick := none, requestedTick := none, dirty := true }

end Folds

end Oxvim.Editor
