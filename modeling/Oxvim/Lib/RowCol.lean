import Mathlib

/-!
# Positions in a text

A row and a column, ordered by row first. The order is the lexicographic one; `lt_iff` and `le_iff`
spell it out, so that a fact about positions becomes one about numbers.
-/

namespace Lib

/-- A row and a column. -/
@[ext] structure RowCol where
  row : Nat
  column : Nat
  deriving DecidableEq, Repr

namespace RowCol

/-- The pair with the lexicographic order. -/
def toPair (p : RowCol) : Nat ×ₗ Nat := toLex (p.row, p.column)

theorem toPair_injective : Function.Injective toPair := by
  intro p q h
  have h : (p.row, p.column) = (q.row, q.column) := toLex.injective h
  ext1
  · exact congrArg Prod.fst h
  · exact congrArg Prod.snd h

instance : LinearOrder RowCol := LinearOrder.lift' toPair toPair_injective

theorem le_iff {p q : RowCol} : p ≤ q ↔ p.row < q.row ∨ p.row = q.row ∧ p.column ≤ q.column := by
  show toLex (p.row, p.column) ≤ toLex (q.row, q.column) ↔ _
  rw [Prod.Lex.toLex_le_toLex]

theorem lt_iff {p q : RowCol} : p < q ↔ p.row < q.row ∨ p.row = q.row ∧ p.column < q.column := by
  show toLex (p.row, p.column) < toLex (q.row, q.column) ↔ _
  rw [Prod.Lex.toLex_lt_toLex]

end RowCol

end Lib
