import Mathlib
import Std.Data.ExtTreeMap

/-!
# Maps with ordered keys

What a map holds at a key after one entry was set, changed or erased, for keys that compare equal only
when they are the same.
-/

namespace Lib.OrderedMap

open Std (ExtTreeMap)

variable {κ : Type*} {ν : Type*} [Ord κ] [Std.TransOrd κ] [Std.LawfulEqOrd κ] [DecidableEq κ]
  {m : ExtTreeMap κ ν} {k k' : κ} {v : ν}

theorem getElem?_insert : (m.insert k v)[k']? = if k' = k then some v else m[k']? := by
  rw [ExtTreeMap.getElem?_insert]
  simp only [Std.compare_eq_iff_eq, @eq_comm _ k k']

theorem getElem?_erase : (m.erase k)[k']? = if k' = k then none else m[k']? := by
  rw [ExtTreeMap.getElem?_erase]
  simp only [Std.compare_eq_iff_eq, @eq_comm _ k k']

theorem getElem?_modify {f : ν → ν} :
    (m.modify k f)[k']? = if k' = k then m[k']?.map f else m[k']? := by
  rw [ExtTreeMap.getElem?_modify]
  simp only [Std.compare_eq_iff_eq, @eq_comm _ k k']
  split
  · next heq => rw [heq]
  · rfl

omit [DecidableEq κ] in
theorem mem_iff : k ∈ m ↔ ∃ v, m[k]? = some v := by
  rw [ExtTreeMap.mem_iff_isSome_getElem?, Option.isSome_iff_exists]

omit [DecidableEq κ] in
theorem mem_of_getElem? (h : m[k]? = some v) : k ∈ m :=
  mem_iff.mpr ⟨v, h⟩

omit [DecidableEq κ] in
theorem getElem?_eq_none (h : k ∉ m) : m[k]? = none :=
  Option.eq_none_iff_forall_ne_some.mpr fun _ hv => h (mem_of_getElem? hv)

omit [DecidableEq κ] in
theorem mem_insert : k' ∈ m.insert k v ↔ k' = k ∨ k' ∈ m := by
  rw [ExtTreeMap.mem_insert, Std.compare_eq_iff_eq, eq_comm]

omit [DecidableEq κ] in
theorem mem_erase : k' ∈ m.erase k ↔ k' ≠ k ∧ k' ∈ m := by
  rw [ExtTreeMap.mem_erase, ne_eq, Std.compare_eq_iff_eq, eq_comm]

omit [DecidableEq κ] in
theorem mem_modify {f : ν → ν} : k' ∈ m.modify k f ↔ k' ∈ m :=
  ExtTreeMap.mem_modify

/-- Setting an entry to what it is. -/
theorem insert_eq_self (h : m[k]? = some v) : m.insert k v = m := by
  apply ExtTreeMap.ext_getElem?
  intro k'
  rw [getElem?_insert]
  split
  · next heq => rw [heq, h]
  · rfl

/-! ## The keys as a set -/

/-- The keys of a map. -/
def keySet (m : ExtTreeMap κ ν) : Finset κ := m.keys.toFinset

@[simp] theorem mem_keySet : k ∈ keySet m ↔ k ∈ m := by
  rw [keySet, List.mem_toFinset, ExtTreeMap.mem_keys]

theorem keySet_insert : keySet (m.insert k v) = insert k (keySet m) := by
  ext k'
  rw [mem_keySet, mem_insert, Finset.mem_insert, mem_keySet]

theorem keySet_erase : keySet (m.erase k) = (keySet m).erase k := by
  ext k'
  rw [mem_keySet, mem_erase, Finset.mem_erase, mem_keySet]

end Lib.OrderedMap
