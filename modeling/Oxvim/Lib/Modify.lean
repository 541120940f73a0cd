import Mathlib.Data.List.Basic

/-!
# Changing an element of a list in place
-/

namespace Lib

/-- A change leaves alone what does not depend on it. -/
theorem map_modify_eq {α β : Type*} {f : α → α} {g : α → β} (h : ∀ a, g (f a) = g a) (l : List α)
    (i : Nat) : (l.modify i f).map g = l.map g := by
  apply List.ext_getElem?
  intro j
  rw [List.getElem?_map, List.getElem?_map, List.getElem?_modify]
  by_cases hij : i = j
  · cases hj : l[j]? <;> simp [hij, h]
  · cases hj : l[j]? <;> simp [hij]

end Lib
