import Oxvim.Lib.Splice

/-!
# Replaying recorded splices

A history keeps each splice as an `Edit`: what stood at an index and what took its place. Undoing is
the inverse edits backwards, redoing the same edits forwards.

The list an edit leaves is settled: a default element `d` stands in for the empty one. No edit
mentions that element, so that the inverse of an edit that left nothing puts the old elements before
`d`, and one element too many remains at the end of the list.
-/

namespace Lib

universe u

variable {α : Type u}

/-- A recorded splice: `before` stood at index `start` and was replaced by `after`. -/
structure Edit (α : Type u) where
  start : Nat
  before : List α
  after : List α

namespace Edit

/-- The edit that takes an edit back. -/
def inverse (e : Edit α) : Edit α := { start := e.start, before := e.after, after := e.before }

/-- The splice of an edit. -/
def spliced (e : Edit α) (l : List α) : List α := splice l e.start e.before.length e.after

/-- The list an edit leaves. -/
def apply (d : α) (e : Edit α) (l : List α) : List α := settle d (e.spliced l)

/-- What the edit removes stands in its place. -/
structure Fits (e : Edit α) (l : List α) : Prop where
  bound : e.start + e.before.length ≤ l.length
  slice : slice l e.start e.before.length = e.before

variable {d : α} {e : Edit α} {l : List α}

theorem apply_ne_nil : e.apply d l ≠ [] := settle_ne_nil d _

end Edit

/-! ## Lists of edits -/

/-- Carries out edits one after the other. -/
def applyEdits (d : α) (edits : List (Edit α)) (l : List α) : List α :=
  edits.foldl (fun l e => e.apply d l) l

/-- Every edit finds what it removes in its place. -/
def InPlace (d : α) : List α → List (Edit α) → Prop
  | _, [] => True
  | l, e :: es => e.Fits l ∧ InPlace d (e.apply d l) es

/-- The edits that take a block back, last one first. -/
def undoEdits (edits : List (Edit α)) : List (Edit α) := (edits.map Edit.inverse).reverse

variable {d : α} {es fs : List (Edit α)} {l : List α}

@[simp] theorem applyEdits_nil : applyEdits d [] l = l := rfl

@[simp] theorem applyEdits_cons {e : Edit α} :
    applyEdits d (e :: es) l = applyEdits d es (e.apply d l) := rfl

theorem applyEdits_append :
    applyEdits d (es ++ fs) l = applyEdits d fs (applyEdits d es l) :=
  List.foldl_append

theorem applyEdits_ne_nil (h : l ≠ []) : applyEdits d es l ≠ [] := by
  induction es generalizing l with
  | nil => exact h
  | cons e es ih => exact ih Edit.apply_ne_nil

end Lib
