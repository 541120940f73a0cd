import Mathlib.Data.Nat.Find
import Mathlib.Tactic.Ring

/-!
# Runs of one class

The positions below `n` have classes, one of them blank. A word is a maximal run of one class that is
not blank. The scans move a position while the next one, or the one at hand, passes a test.
-/

namespace Lib.Runs

universe u

variable {κ : Type u} {cls : Nat → κ} {blank : κ} {n here : Nat} {p : Nat → Bool}

/-! ## Words -/

/-- A maximal run of one class that is not blank. -/
structure IsWord (cls : Nat → κ) (blank : κ) (n first last : Nat) : Prop where
  ordered : first ≤ last
  last_lt : last < n
  cls_eq : ∀ i, first ≤ i → i ≤ last → cls i = cls first
  not_blank : cls first ≠ blank
  left : ∀ i, i + 1 = first → cls i ≠ cls first
  right : last + 1 < n → cls (last + 1) ≠ cls first

def IsWordStart (cls : Nat → κ) (blank : κ) (n first : Nat) : Prop :=
  ∃ last, IsWord cls blank n first last

def IsWordEnd (cls : Nat → κ) (blank : κ) (n last : Nat) : Prop :=
  ∃ first, IsWord cls blank n first last

/-- The nearest position behind `here`, or the last one if there is none. -/
def NearestAfter (P : Nat → Prop) (n here target : Nat) : Prop :=
  (here < target ∧ P target ∧ ∀ i, here < i → i < target → ¬P i) ∨
    ((∀ i, here < i → ¬P i) ∧ target = n - 1)

/-- The nearest position before `here`, or the first one if there is none. -/
def NearestBefore (P : Nat → Prop) (here target : Nat) : Prop :=
  (target < here ∧ P target ∧ ∀ i, target < i → i < here → ¬P i) ∨
    ((∀ i, i < here → ¬P i) ∧ target = 0)

/-! ## Scans -/

/-- Move right while the next position passes. -/
def advance (p : Nat → Bool) (n here : Nat) : Nat :=
  if here + 1 < n ∧ p (here + 1) = true then advance p n (here + 1) else here
termination_by n - here

/-- Move left while the previous position passes. -/
def retreat (p : Nat → Bool) : Nat → Nat
  | 0 => 0
  | here + 1 => if p here then retreat p here else here + 1

/-- Move left while the position itself passes. -/
def skipBack (p : Nat → Bool) : Nat → Nat
  | 0 => 0
  | here + 1 => if p (here + 1) then skipBack p here else here + 1

/-- Where a scan to the right ends. -/
structure Advanced (p : Nat → Bool) (n here target : Nat) : Prop where
  le : here ≤ target
  lt : target < n
  passes : ∀ i, here < i → i ≤ target → p i = true
  stops : target + 1 < n → p (target + 1) = false

theorem advanced (hhere : here < n) : Advanced p n here (advance p n here) := by
  fun_induction advance p n here with
  | case1 here hnext ih =>
    obtain ⟨hle, hlt, hpasses, hstops⟩ := ih hnext.1
    refine ⟨by omega, hlt, fun i hi hit => ?_, hstops⟩
    by_cases heq : i = here + 1
    · rw [heq]
      exact hnext.2
    · exact hpasses i (by omega) hit
  | case2 here hnext =>
    refine ⟨le_rfl, hhere, fun i hi hit => by omega, fun hlt => ?_⟩
    rw [← Bool.not_eq_true]
    exact fun hp => hnext ⟨hlt, hp⟩

/-- Where a scan to the left ends. -/
structure Retreated (p : Nat → Bool) (here target : Nat) : Prop where
  le : target ≤ here
  passes : ∀ i, target ≤ i → i < here → p i = true
  stops : ∀ i, i + 1 = target → p i = false

theorem retreated (p : Nat → Bool) (here : Nat) : Retreated p here (retreat p here) := by
  induction here with
  | zero => exact ⟨le_rfl, fun i _ hi => absurd hi (Nat.not_lt_zero i), fun i hi => absurd hi (Nat.succ_ne_zero i)⟩
  | succ here ih =>
    unfold retreat
    split_ifs with hp
    · obtain ⟨hle, hpasses, hstops⟩ := ih
      refine ⟨by omega, fun i hi hlt => ?_, hstops⟩
      by_cases heq : i = here
      · rw [heq]
        exact hp
      · exact hpasses i hi (by omega)
    · refine ⟨le_rfl, fun i hi hlt => by omega, fun i hi => ?_⟩
      obtain rfl : i = here := by omega
      simpa using hp

/-- Where a scan to the left over the position itself ends. -/
structure SkippedBack (p : Nat → Bool) (here target : Nat) : Prop where
  le : target ≤ here
  passes : ∀ i, target < i → i ≤ here → p i = true
  stops : target = 0 ∨ p target = false

theorem skippedBack (p : Nat → Bool) (here : Nat) : SkippedBack p here (skipBack p here) := by
  induction here with
  | zero => exact ⟨le_rfl, fun i hi hle => by omega, .inl rfl⟩
  | succ here ih =>
    unfold skipBack
    split_ifs with hp
    · obtain ⟨hle, hpasses, hstops⟩ := ih
      refine ⟨by omega, fun i hi hlt => ?_, hstops⟩
      by_cases heq : i = here + 1
      · rw [heq]
        exact hp
      · exact hpasses i hi (by omega)
    · exact ⟨le_rfl, fun i hi hle => by omega, .inr (by simpa using hp)⟩

/-! ## Boundaries of words -/

variable [DecidableEq κ]

theorem isWordStart_iff : IsWordStart cls blank n here ↔
    here < n ∧ cls here ≠ blank ∧ ∀ i, i + 1 = here → cls i ≠ cls here := by
  constructor
  · rintro ⟨last, hordered, hlast, -, hblank, hleft, -⟩
    exact ⟨by omega, hblank, hleft⟩
  · rintro ⟨hlt, hblank, hleft⟩
    obtain ⟨hle, hlast, hpasses, hstops⟩ := advanced (p := fun i => decide (cls i = cls here)) hlt
    refine ⟨_, hle, hlast, fun i hi hit => ?_, hblank, hleft, fun hnext => by simpa using hstops hnext⟩
    by_cases heq : i = here
    · rw [heq]
    · simpa using hpasses i (by omega) hit

theorem isWordEnd_iff : IsWordEnd cls blank n here ↔
    here < n ∧ cls here ≠ blank ∧ (here + 1 < n → cls (here + 1) ≠ cls here) := by
  constructor
  · rintro ⟨first, hordered, hlast, hcls, hblank, -, hright⟩
    rw [hcls here hordered le_rfl]
    exact ⟨hlast, hblank, hright⟩
  · rintro ⟨hlt, hblank, hright⟩
    obtain ⟨hle, hpasses, hstops⟩ := retreated (fun i => decide (cls i = cls here)) here
    generalize retreat (fun i => decide (cls i = cls here)) here = first at hle hpasses hstops
    have hfirst : cls first = cls here := by
      rcases Nat.lt_or_ge first here with hlt | hge
      · simpa using hpasses first le_rfl hlt
      · rw [le_antisymm hle hge]
    refine ⟨first, hle, hlt, fun i hi hit => ?_, by rwa [hfirst], fun i hi => ?_, by rwa [hfirst]⟩
    · rw [hfirst]
      by_cases heq : i = here
      · rw [heq]
      · simpa using hpasses i hi (by omega)
    · rw [hfirst]
      simpa using hstops i hi

end Lib.Runs
