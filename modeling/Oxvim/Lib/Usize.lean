import Mathlib

/-!
# Machine coordinates

Coordinates are `usize` values, added with saturation or with a check. They are natural numbers here;
`satAdd` cuts a sum off at `usizeMax`, `checkedAdd` refuses it, and where the sum fits both are the
plain sum.
-/

namespace Lib

/-- `usize::MAX` on a 64-bit target. -/
def usizeMax : Nat := 2 ^ 64 - 1

/-- `usize::saturating_add`. -/
def satAdd (a b : Nat) : Nat := min (a + b) usizeMax

/-- `usize::checked_add`. -/
def checkedAdd (a b : Nat) : Option Nat := if a + b ≤ usizeMax then some (a + b) else none

/-- `usize::checked_add_signed`. -/
def checkedAddSigned (a : Nat) (delta : Int) : Option Nat :=
  if 0 ≤ a + delta ∧ a + delta ≤ usizeMax then some (a + delta).toNat else none

theorem checkedAdd_eq {a b : Nat} (h : a + b ≤ usizeMax) : checkedAdd a b = some (a + b) :=
  if_pos h

theorem satAdd_eq {a b : Nat} (h : a + b ≤ usizeMax) : satAdd a b = a + b :=
  Nat.min_eq_left h

end Lib
