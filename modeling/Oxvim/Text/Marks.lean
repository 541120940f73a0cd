import Oxvim.Lib.Usize
import Std.Data.ExtTreeMap

/-!
# Mark positions

A registry of positions that is adjusted as logical lines are spliced. The ordered map is a
`BTreeMap` in the source.
-/

namespace Oxvim.Text

open Lib

/-- Stable caller-assigned mark identifier. -/
abbrev MarkId := UInt64

/-- A byte-column position in a one-based line. -/
structure Position where
  lnum : Nat
  col : Nat
  deriving DecidableEq, Repr

/-- Registry of positions adjusted as logical lines are spliced. -/
structure Marks where
  positions : Std.ExtTreeMap MarkId Position := ∅

namespace Marks

/-- A line number behind a splice. -/
def shift (value added removed : Nat) : Nat :=
  if removed ≤ added then satAdd value (added - removed) else max (value - (removed - added)) 1

/-- One mark after `oldCount` lines at `start` were replaced by `newCount`. -/
def splicePosition (start oldCount newCount : Nat) (position : Position) : Position :=
  if position.lnum < start then position
  else if satAdd start oldCount ≤ position.lnum then
    { position with lnum := shift position.lnum newCount oldCount }
  else if position.lnum - start < newCount then position
  else { lnum := start, col := 0 }

/-- Adjusts all marks for replacement of `oldCount` lines at `start`. -/
def splice (self : Marks) (start oldCount newCount : Nat) : Marks :=
  { positions := self.positions.map fun _ position =>
      splicePosition start oldCount newCount position }

end Marks

end Oxvim.Text
