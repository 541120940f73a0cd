import Mathlib

/-!
# Moving values in place

Destinations are visited one after another. Each takes the value of its source, which is left blank,
or becomes blank where it has none. When no destination is visited before a source is read from it,
every destination ends with the value that its source had at first (`moveAll_apply`).
-/

namespace Lib

universe u v w

variable {κ : Type u} {α : Type v}

section Moves

variable [DecidableEq κ]

/-- Moves the value of its source to a destination. -/
def moveTo (source : κ → Option κ) (blank : α) (values : κ → α) (d : κ) : κ → α :=
  match source d with
  | some s => Function.update (Function.update values s blank) d (values s)
  | none => Function.update values d blank

/-- Visits destinations in order. -/
def moveAll (source : κ → Option κ) (blank : α) (order : List κ) (values : κ → α) : κ → α :=
  order.foldl (moveTo source blank) values

/-- A source is read before it is visited, and by one destination. -/
def ReadFirst (source : κ → Option κ) (a b : κ) : Prop :=
  ∀ s, source b = some s → s ≠ a ∧ source a ≠ some s

variable {source : κ → Option κ} {blank : α}

theorem moveTo_none {d : κ} (h : source d = none) (values : κ → α) :
    moveTo source blank values d = Function.update values d blank := by
  simp only [moveTo, h]

theorem moveTo_some {d s : κ} (h : source d = some s) (values : κ → α) :
    moveTo source blank values d
      = Function.update (Function.update values s blank) d (values s) := by
  simp only [moveTo, h]

theorem moveTo_self (values : κ → α) (d : κ) :
    moveTo source blank values d d = (source d).elim blank values := by
  cases h : source d with
  | none =>
    rw [moveTo_none h, Function.update_self]
    rfl
  | some s =>
    rw [moveTo_some h, Function.update_self]
    rfl

theorem moveTo_of_ne (values : κ → α) {d k : κ} (hne : k ≠ d) :
    moveTo source blank values d k = if source d = some k then blank else values k := by
  cases h : source d with
  | none => rw [moveTo_none h, Function.update_of_ne hne, if_neg (by simp)]
  | some s =>
    rw [moveTo_some h, Function.update_of_ne hne]
    by_cases hs : s = k
    · rw [hs, Function.update_self, if_pos rfl]
    · rw [Function.update_of_ne (Ne.symm hs), if_neg fun h => hs (Option.some.inj h)]

/-- What is not visited is blank where it was a source. -/
theorem moveAll_of_not_mem {order : List κ} {k : κ} (hk : k ∉ order) (values : κ → α) :
    moveAll source blank order values k
      = if ∃ d ∈ order, source d = some k then blank else values k := by
  induction order generalizing values with
  | nil => simp [moveAll]
  | cons d order ih =>
    rw [List.mem_cons, not_or] at hk
    have hrest := ih hk.2 (moveTo source blank values d)
    rw [moveTo_of_ne values hk.1] at hrest
    rw [moveAll, List.foldl_cons, ← moveAll, hrest]
    have hcons : (∃ b ∈ d :: order, source b = some k) ↔
        source d = some k ∨ ∃ b ∈ order, source b = some k := List.exists_mem_cons_iff ..
    by_cases hlater : ∃ b ∈ order, source b = some k
    · rw [if_pos hlater, if_pos (hcons.mpr (.inr hlater))]
    · rw [if_neg hlater]
      by_cases hnow : source d = some k
      · rw [if_pos hnow, if_pos (hcons.mpr (.inl hnow))]
      · rw [if_neg hnow, if_neg fun h => (hcons.mp h).elim hnow hlater]

/-- **Every destination ends with the value that its source had at first.** -/
theorem moveAll_apply {order : List κ} (hnodup : order.Nodup)
    (hread : order.Pairwise (ReadFirst source)) (values : κ → α) {d : κ} (hd : d ∈ order) :
    moveAll source blank order values d = (source d).elim blank values := by
  induction order generalizing values with
  | nil => cases hd
  | cons first order ih =>
    obtain ⟨hfresh, hnodup⟩ := List.nodup_cons.mp hnodup
    obtain ⟨hfirst, hread⟩ := List.pairwise_cons.mp hread
    rw [moveAll, List.foldl_cons, ← moveAll]
    rcases List.mem_cons.mp hd with rfl | hd
    · -- nothing later reads from the first destination
      rw [moveAll_of_not_mem hfresh, if_neg, moveTo_self]
      intro hlater
      obtain ⟨b, hb, hsource⟩ := hlater
      exact (hfirst b hb _ hsource).1 rfl
    · -- the source of a later destination is as it was at first
      rw [ih hnodup hread _ hd]
      cases hsource : source d with
      | none => rfl
      | some s =>
        obtain ⟨hne, hother⟩ := hfirst d hd s hsource
        exact (moveTo_of_ne values hne).trans (if_neg hother)

end Moves

/-! ## Visiting row by row -/

variable {ι : Type w} {rows : List ι} {cols : List κ} {R : ι × κ → ι × κ → Prop}

/-- Of two cells the first is in an earlier row, or earlier in the same row. -/
theorem pairwise_product (hrows : rows.Pairwise fun a b => ∀ c d, R (a, c) (b, d))
    (hcols : ∀ a, cols.Pairwise fun c d => R (a, c) (a, d)) : (rows ×ˢ cols).Pairwise R := by
  induction rows with
  | nil => exact List.Pairwise.nil
  | cons row rows ih =>
    obtain ⟨hrow, hrows⟩ := List.pairwise_cons.mp hrows
    rw [List.product_cons, List.pairwise_append]
    refine ⟨List.pairwise_map.mpr (hcols row), ih hrows, ?_⟩
    intro p hp q hq
    obtain ⟨c, -, rfl⟩ := List.mem_map.mp hp
    exact hrow q.1 (List.mem_product.mp hq).1 c q.2

/-- Two nested loops go through the cells row by row. -/
theorem foldl_product {σ : Type v} (f : σ → ι × κ → σ) (s : σ) :
    (rows ×ˢ cols).foldl f s
      = rows.foldl (fun s row => cols.foldl (fun s col => f s (row, col)) s) s := by
  induction rows generalizing s with
  | nil => rfl
  | cons row rows ih => rw [List.product_cons, List.foldl_append, List.foldl_map, ih, List.foldl_cons]

end Lib
