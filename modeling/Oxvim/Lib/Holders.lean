import Mathlib

/-!
# Reference counts

Each holder of a finite set holds one resource. `holders` counts the holders of a resource: it is what
a reference count should be that is raised when a holder takes the resource and lowered when it lets
it go.
-/

namespace Lib

variable {ι ρ : Type*} [DecidableEq ι] [DecidableEq ρ] {s : Finset ι} {f g : ι → ρ} {i : ι} {r : ρ}

/-- How many holders hold a resource. -/
def holders (s : Finset ι) (f : ι → ρ) (r : ρ) : Nat :=
  (s.filter fun i => f i = r).card

omit [DecidableEq ι] in
theorem holders_congr (h : ∀ i ∈ s, f i = g i) : holders s f r = holders s g r := by
  rw [holders, holders]
  congr 1
  apply Finset.filter_congr
  intro i hi
  rw [h i hi]

theorem holders_insert (hi : i ∉ s) :
    holders (insert i s) f r = holders s f r + if f i = r then 1 else 0 := by
  rw [holders, Finset.filter_insert]
  split
  · rw [Finset.card_insert_of_notMem, holders]
    rw [Finset.mem_filter]
    exact fun h => hi h.1
  · rfl

theorem holders_erase (hi : i ∈ s) :
    holders (s.erase i) f r + (if f i = r then 1 else 0) = holders s f r := by
  rw [← holders_insert (Finset.notMem_erase i s), Finset.insert_erase hi]

/-- A holder takes another resource. -/
theorem holders_update (hi : i ∈ s) (r' : ρ) :
    holders s (Function.update f i r') r + (if f i = r then 1 else 0)
      = holders s f r + if r' = r then 1 else 0 := by
  have hrest : holders (s.erase i) (Function.update f i r') r = holders (s.erase i) f r := by
    apply holders_congr
    intro j hj
    exact Function.update_of_ne (Finset.ne_of_mem_erase hj) _ _
  have hafter := holders_erase (f := Function.update f i r') (r := r) hi
  have hbefore := holders_erase (f := f) (r := r) hi
  rw [Function.update_self] at hafter
  omega

omit [DecidableEq ι] in
theorem holders_eq_zero : holders s f r = 0 ↔ ∀ i ∈ s, f i ≠ r := by
  rw [holders, Finset.card_eq_zero, Finset.filter_eq_empty_iff]

omit [DecidableEq ι] in
theorem holders_le_card : holders s f r ≤ s.card :=
  Finset.card_filter_le s _

/-- Counting along a list that has every holder once. -/
theorem countP_eq_holders {is : List ι} (h : is.Nodup) (hmem : ∀ i, i ∈ is ↔ i ∈ s) :
    is.countP (fun i => f i = r) = holders s f r := by
  have hset : is.toFinset = s := by
    ext i
    rw [List.mem_toFinset, hmem]
  rw [holders, ← hset, List.countP_eq_length_filter, ← List.toFinset_card_of_nodup (h.filter _),
    List.toFinset_filter]
  congr 1
  apply Finset.filter_congr
  intro i _
  rw [decide_eq_true_eq]

end Lib
