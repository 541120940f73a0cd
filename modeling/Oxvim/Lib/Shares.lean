import Mathlib

/-!
# Dividing cells among children

`share total n i` is what child `i` of `n` gets of `total` cells: all get the same, and the first ones
one more each while the remainder lasts. The shares add up to the total, differ by at most one, and
nobody gets less when there is more to divide or one child fewer.

`offset` sums the extents before a position, so that consecutive extents are consecutive intervals.
-/

namespace Lib

/-- What child `index` of `count` gets of `total`. -/
def share (total count index : Nat) : Nat :=
  total / count + if index < total % count then 1 else 0

/-- The sum of the extents of the first `count` children. -/
def offset (extent : Nat → Nat) (count : Nat) : Nat :=
  ((List.range count).map extent).sum

variable {total total' count index : Nat}

@[simp] theorem offset_zero (extent : Nat → Nat) : offset extent 0 = 0 := rfl

theorem offset_succ (extent : Nat → Nat) (count : Nat) :
    offset extent (count + 1) = offset extent count + extent count := by
  simp [offset, List.range_succ]

/-- The first child comes off the front. -/
theorem offset_succ' (extent : Nat → Nat) (count : Nat) :
    offset extent (count + 1) = extent 0 + offset (fun i => extent (i + 1)) count := by
  induction count with
  | zero => simp [offset]
  | succ count ih => rw [offset_succ, ih, offset_succ, Nat.add_assoc]

theorem offset_congr {extent extent' : Nat → Nat} (h : ∀ i < count, extent i = extent' i) :
    offset extent count = offset extent' count := by
  rw [offset, offset]
  congr 1
  apply List.map_congr_left
  intro i hi
  exact h i (List.mem_range.mp hi)

theorem offset_add (extent extent' : Nat → Nat) (count : Nat) :
    offset (fun i => extent i + extent' i) count = offset extent count + offset extent' count := by
  induction count with
  | zero => rfl
  | succ count ih =>
    rw [offset_succ, offset_succ, offset_succ, ih]
    omega

/-- The extent of one child and the ones of its siblings. -/
theorem offset_erase {extent : Nat → Nat} {gone : Nat} (h : gone < count) :
    offset extent count
      = extent gone + offset (fun i => extent (if i < gone then i else i + 1)) (count - 1) := by
  induction count with
  | zero => omega
  | succ count ih =>
    rw [offset_succ, Nat.add_sub_cancel]
    by_cases hlast : gone = count
    · subst hlast
      rw [Nat.add_comm]
      congr 1
      apply offset_congr
      intro i hi
      rw [if_pos hi]
    · obtain ⟨n, rfl⟩ : ∃ n, count = n + 1 := ⟨count - 1, by omega⟩
      rw [ih (by omega), Nat.add_sub_cancel, offset_succ _ n, if_neg (by omega), Nat.add_assoc]

theorem offset_elim {α : Type*} (m : α → Nat) (as : List α) :
    offset (fun i => (as[i]?).elim 0 m) as.length = (as.map m).sum := by
  induction as with
  | nil => rfl
  | cons a as ih =>
    rw [List.length_cons, offset_succ', List.map_cons, List.sum_cons, ← ih]
    rfl

theorem share_one : share total 1 0 = total := by
  simp [share, Nat.mod_one]

/-- A share as one rounded division. -/
theorem share_eq (h : index < count) : share total count index = (total + (count - 1 - index)) / count := by
  have hpos : 0 < count := by omega
  have hdiv : total = count * (total / count) + total % count := (Nat.div_add_mod total count).symm
  have hmod : total % count < count := Nat.mod_lt _ hpos
  have hsum : total + (count - 1 - index)
      = total % count + (count - 1 - index) + count * (total / count) := by omega
  rw [share, hsum, Nat.add_mul_div_left _ _ hpos, Nat.add_comm]
  congr 1
  split
  · next hlt =>
    rw [Nat.div_eq_of_lt_le]
    · omega
    · omega
  · next hge =>
    rw [Nat.div_eq_of_lt]
    omega

theorem share_pos (hcount : 0 < count) (h : count ≤ total) : 1 ≤ share total count index := by
  have hdiv : 1 ≤ total / count := (Nat.one_le_div_iff hcount).mpr h
  exact Nat.le_add_right_of_le hdiv

/-- Shares differ by at most one. -/
theorem share_le_succ (i j : Nat) : share total count i ≤ share total count j + 1 := by
  unfold share
  split <;> split <;> omega

/-- More to divide is more for everyone. -/
theorem share_mono (h : total ≤ total') (hindex : index < count) :
    share total count index ≤ share total' count index := by
  rw [share_eq hindex, share_eq hindex]
  exact Nat.div_le_div_right (Nat.add_le_add_right h _)

/-- One child fewer is more for everyone: `index` is the place among the remaining children of the one
that was at `index`, or behind it, before child `gone` went. -/
theorem share_le_share_erase (total gone : Nat) (hindex : index + 1 < count) :
    share total count (if index < gone then index else index + 1) ≤ share total (count - 1) index := by
  have hlt : index < count - 1 := by omega
  rw [share_eq hlt]
  split
  · rw [share_eq (by omega)]
    generalize hq : (total + (count - 1 - index)) / count = q
    rcases Nat.eq_zero_or_pos q with rfl | hpos
    · exact Nat.zero_le _
    · -- q full rounds of all children leave q full rounds of one child fewer
      have hmul : q * count ≤ total + (count - 1 - index) := by
        rw [← hq]
        exact Nat.div_mul_le_self _ _
      rw [Nat.le_div_iff_mul_le (by omega), Nat.mul_sub, Nat.mul_one]
      omega
  · rw [share_eq hindex, show count - 1 - (index + 1) = count - 1 - 1 - index by omega]
    exact Nat.div_le_div_left (by omega) (by omega)

theorem offset_share_aux (base remainder n : Nat) :
    offset (fun i => base + if i < remainder then 1 else 0) n = n * base + min n remainder := by
  induction n with
  | zero => simp
  | succ n ih =>
    rw [offset_succ, ih, Nat.succ_mul]
    split <;> omega

/-- The shares add up. -/
theorem offset_share (hcount : 0 < count) : offset (share total count) count = total := by
  have hmod : total % count < count := Nat.mod_lt _ hcount
  have hdiv := Nat.div_add_mod total count
  unfold share
  rw [offset_share_aux, Nat.min_eq_right (Nat.le_of_lt hmod)]
  omega

end Lib
