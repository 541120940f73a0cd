import Oxvim.Lib.RowCol
import Oxvim.Lib.Lines

/-!
# Positions in lines

A text is a list of lines, each of them with a terminator. A position in it is a row and a column,
the column behind the last unit of a line being that of its terminator. `unitsBefore` counts the
units before a position.
-/

namespace Lib.Lines

variable {α : Type*} {a b ls : List (List α)} {p : RowCol}

/-- The units of lines, terminators included. -/
def size (ls : List (List α)) : Nat := (ls.map (·.length + 1)).sum

/-- The units before a position. -/
def unitsBefore (ls : List (List α)) (p : RowCol) : Nat := size (ls.take p.row) + p.column

/-- A position of a unit or of a terminator. -/
def Inside (ls : List (List α)) (p : RowCol) : Prop :=
  ∃ line, ls[p.row]? = some line ∧ p.column ≤ line.length

/-- The unit at a position, `none` at a terminator. -/
def unitAt (ls : List (List α)) (p : RowCol) : Option α := ls[p.row]?.bind (·[p.column]?)

@[simp] theorem size_nil : size ([] : List (List α)) = 0 := rfl

@[simp] theorem size_cons (l : List α) (ls : List (List α)) :
    size (l :: ls) = l.length + 1 + size ls :=
  List.sum_cons

@[simp] theorem size_append : size (a ++ b) = size a + size b := by
  rw [size, List.map_append, List.sum_append]
  rfl

/-- The units from a position on. -/
theorem size_sub_unitsBefore (ls : List (List α)) (p : RowCol) :
    size ls - unitsBefore ls p = size (ls.drop p.row) - p.column := by
  have hsplit : size ls = size (ls.take p.row) + size (ls.drop p.row) := by
    rw [← size_append, List.take_append_drop]
  rw [unitsBefore, hsplit]
  omega

/-- Lines behind a position do not matter to what is before it. -/
theorem unitsBefore_append_left (h : p.row ≤ a.length) :
    unitsBefore (a ++ b) p = unitsBefore a p := by
  rw [unitsBefore, unitsBefore, List.take_append_of_le_length h]

end Lib.Lines
