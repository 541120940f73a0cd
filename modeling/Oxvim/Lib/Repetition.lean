import Mathlib

/-!
# Ordered repetition

A body leads a state to others, in order of priority, and never moves it back. Repeating it leads to
what is reached by enough and not too many iterations: deeper levels come before the level itself where
the repetition is greedy, and after it otherwise. An iteration that does not move is kept and not
continued.
-/

namespace Lib.Repetition

universe u

variable {σ : Type u} (body : σ → List σ) (pos : σ → Nat) (low : Nat) (high : Option Nat)
  (greedy : Bool)

/-- What a level and the deeper ones lead to, in order. -/
def arrange (own more : List σ) : List σ := if greedy then more ++ own else own ++ more

/-- Repeating from a state after so many iterations. -/
def iterate : (fuel : Nat) → (s : σ) → (count : Nat) → List σ
  | 0, _, _ => []
  | fuel + 1, s, count =>
    arrange greedy (if low ≤ count then [s] else [])
      (if high.all (count < ·) then
        (body s).flatMap fun next =>
          if pos next = pos s then if low ≤ count + 1 then [next] else []
          else iterate fuel next (count + 1)
      else [])

section Bounded

variable {body pos low high greedy} {N fuel count : Nat} {s t : σ}

theorem mem_arrange {own more : List σ} : s ∈ arrange greedy own more ↔ s ∈ own ∨ s ∈ more := by
  cases greedy <;> simp [arrange, or_comm]

/-- The body does not move back, nor beyond the end. -/
def Bounded (body : σ → List σ) (pos : σ → Nat) (N : Nat) : Prop :=
  ∀ s, pos s ≤ N → ∀ t ∈ body s, pos s ≤ pos t ∧ pos t ≤ N

theorem iterate_bounded (h : Bounded body pos N) (hs : pos s ≤ N)
    (ht : t ∈ iterate body pos low high greedy fuel s count) : pos s ≤ pos t ∧ pos t ≤ N := by
  induction fuel generalizing s count with
  | zero => cases ht
  | succ fuel ih =>
    rw [iterate, mem_arrange] at ht
    rcases ht with ht | ht
    · split at ht
      · rw [List.mem_singleton.mp ht]
        exact ⟨le_rfl, hs⟩
      · cases ht
    · split at ht
      · obtain ⟨next, hnext, ht⟩ := List.mem_flatMap.mp ht
        have hbound := h s hs next hnext
        split at ht
        · split at ht
          · rw [List.mem_singleton.mp ht]
            exact hbound
          · cases ht
        · have := ih hbound.2 ht
          omega
      · cases ht

/-- What every iteration preserves, a repetition does. -/
theorem iterate_preserves {P : σ → Prop} (h : ∀ s, P s → ∀ t ∈ body s, P t) (hs : P s)
    (ht : t ∈ iterate body pos low high greedy fuel s count) : P t := by
  induction fuel generalizing s count with
  | zero => cases ht
  | succ fuel ih =>
    rw [iterate, mem_arrange] at ht
    rcases ht with ht | ht
    · split at ht
      · rw [List.mem_singleton.mp ht]
        exact hs
      · cases ht
    · split at ht
      · obtain ⟨next, hnext, ht⟩ := List.mem_flatMap.mp ht
        have hnext := h s hs next hnext
        split at ht
        · split at ht
          · rw [List.mem_singleton.mp ht]
            exact hnext
          · cases ht
        · exact ih hnext ht
      · cases ht

/-- A repetition leads related states to related ones, where the body does and positions agree. -/
theorem iterate_related {R : σ → σ → Prop} (hpos : ∀ a b, R a b → pos a = pos b)
    (h : ∀ a b, R a b → List.Forall₂ R (body a) (body b)) {a b : σ} (hab : R a b) :
    List.Forall₂ R (iterate body pos low high greedy fuel a count)
      (iterate body pos low high greedy fuel b count) := by
  induction fuel generalizing a b count with
  | zero => exact .nil
  | succ fuel ih =>
    rw [iterate, iterate]
    have hown : List.Forall₂ R (if low ≤ count then [a] else []) (if low ≤ count then [b] else []) := by
      split
      · exact .cons hab .nil
      · exact .nil
    have hmore : ∀ as bs, List.Forall₂ R as bs →
        List.Forall₂ R
          (as.flatMap fun next => if pos next = pos a then if low ≤ count + 1 then [next] else []
            else iterate body pos low high greedy fuel next (count + 1))
          (bs.flatMap fun next => if pos next = pos b then if low ≤ count + 1 then [next] else []
            else iterate body pos low high greedy fuel next (count + 1)) := by
      intro as bs has
      rw [hpos a b hab]
      induction has with
      | nil => exact .nil
      | @cons c d as bs hcd _ ihs =>
        rw [List.flatMap_cons, List.flatMap_cons, hpos c d hcd]
        refine List.rel_append ?_ ihs
        split
        · split
          · exact .cons hcd .nil
          · exact .nil
        · exact ih hcd
    have hall : List.Forall₂ R
        (if high.all (count < ·) then
          (body a).flatMap fun next => if pos next = pos a then if low ≤ count + 1 then [next] else []
            else iterate body pos low high greedy fuel next (count + 1)
        else [])
        (if high.all (count < ·) then
          (body b).flatMap fun next => if pos next = pos b then if low ≤ count + 1 then [next] else []
            else iterate body pos low high greedy fuel next (count + 1)
        else []) := by
      split
      · exact hmore _ _ (h a b hab)
      · exact .nil
    cases greedy with
    | true => exact List.rel_append hall hown
    | false => exact List.rel_append hown hall

/-- More fuel than there is text left changes nothing. -/
theorem iterate_stable (h : Bounded body pos N) (hs : pos s ≤ N) (hfuel : N < pos s + fuel) :
    iterate body pos low high greedy (fuel + 1) s count
      = iterate body pos low high greedy fuel s count := by
  induction fuel generalizing s count with
  | zero => omega
  | succ fuel ih =>
    rw [iterate, iterate]
    congr 1
    split
    · apply List.flatMap_congr
      intro next hnext
      have hbound := h s hs next hnext
      split
      · rfl
      · exact ih hbound.2 (by omega)
    · rfl

theorem iterate_fuel (h : Bounded body pos N) (hs : pos s ≤ N) {fuel' : Nat}
    (hfuel : N < pos s + fuel) (hle : fuel ≤ fuel') :
    iterate body pos low high greedy fuel' s count
      = iterate body pos low high greedy fuel s count := by
  induction hle with
  | refl => rfl
  | @step m hle ih =>
    have hm : fuel ≤ m := hle
    rw [iterate_stable h hs (by omega), ih]

/-- A repetition is its first level and the repetitions from there. -/
theorem iterate_eq (h : Bounded body pos N) (hs : pos s ≤ N) :
    iterate body pos low high greedy (N + 1) s count
      = arrange greedy (if low ≤ count then [s] else [])
          (if high.all (count < ·) then
            (body s).flatMap fun next =>
              if pos next = pos s then if low ≤ count + 1 then [next] else []
              else iterate body pos low high greedy (N + 1) next (count + 1)
          else []) := by
  rw [iterate]
  congr 1
  split
  · apply List.flatMap_congr
    intro next hnext
    have hbound := h s hs next hnext
    split
    · rfl
    · exact (iterate_fuel h hbound.2 (by omega) (Nat.le_succ N)).symm
  · rfl

/-- The body always moves. -/
def Moves (body : σ → List σ) (pos : σ → Nat) (N : Nat) : Prop :=
  ∀ s, pos s ≤ N → ∀ t ∈ body s, pos t ≠ pos s

/-- A repetition that must go on moves, where the body does. -/
theorem iterate_moves (h : Bounded body pos N) (hmoves : Moves body pos N) (hs : pos s ≤ N)
    (hlow : count < low) (ht : t ∈ iterate body pos low high greedy fuel s count) : pos s < pos t := by
  cases fuel with
  | zero => cases ht
  | succ fuel =>
    rw [iterate, if_neg (by omega), mem_arrange] at ht
    rcases ht with ht | ht
    · cases ht
    · split at ht
      · obtain ⟨next, hnext, ht⟩ := List.mem_flatMap.mp ht
        have hbound := h s hs next hnext
        have hne := hmoves s hs next hnext
        rw [if_neg hne] at ht
        have := iterate_bounded h hbound.2 ht
        omega
      · cases ht

end Bounded

end Lib.Repetition
