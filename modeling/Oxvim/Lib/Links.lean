import Mathlib

/-!
# Walking two interlocking links

Every element has at most two successors, `f x` and `g x`. `visit` walks both links from a start,
the element first, then what `f` leads to, then what `g` leads to; it runs on fuel.

When the links only lead to elements of higher rank, and no element has two predecessors, the walk
sees exactly the elements that are reachable, each of them once: `mem_visit_iff` and `nodup_visit`.
-/

namespace Lib.Links

universe u

variable {α : Type u} {f g : α → Option α}

/-- One of the links leads from `x` to `y`. -/
def Link (f g : α → Option α) (x y : α) : Prop := f x = some y ∨ g x = some y

/-- The elements met from a start, the fuel bounding the length of the way to each. -/
def visit (f g : α → Option α) : Nat → Option α → List α
  | 0, _ => []
  | _ + 1, none => []
  | n + 1, some x => x :: (visit f g n (f x) ++ visit f g n (g x))

/-- No element is linked twice. -/
structure Forest (f g : α → Option α) : Prop where
  pred : ∀ x y z, Link f g x z → Link f g y z → x = y
  apart : ∀ x y, f x = some y → g x ≠ some y

@[simp] theorem visit_none (n : Nat) : visit f g n none = [] := by
  cases n <;> rfl

theorem reach_of_mem_visit {n : Nat} {s x : α} (h : x ∈ visit f g n (some s)) :
    Relation.ReflTransGen (Link f g) s x := by
  induction n generalizing s with
  | zero => simp [visit] at h
  | succ n ih =>
    simp only [visit, List.mem_cons, List.mem_append] at h
    rcases h with rfl | h | h
    · exact .refl
    · cases hf : f s with
      | none => simp [hf] at h
      | some y =>
        rw [hf] at h
        exact .head (.inl hf) (ih h)
    · cases hg : g s with
      | none => simp [hg] at h
      | some y =>
        rw [hg] at h
        exact .head (.inr hg) (ih h)

/-- The walk only looks at the links of elements that it meets. -/
theorem visit_congr {f' g' : α → Option α} {p : α → Prop} (hf : ∀ x, p x → f' x = f x)
    (hg : ∀ x, p x → g' x = g x) (hlink : ∀ x y, p x → Link f g x y → p y) (n : Nat)
    {s : Option α} (hs : ∀ x, s = some x → p x) : visit f' g' n s = visit f g n s := by
  induction n generalizing s with
  | zero => rfl
  | succ n ih =>
    cases s with
    | none => rfl
    | some x =>
      have hx := hs x rfl
      rw [visit, visit, hf x hx, hg x hx, ih fun y hy => hlink x y hx (.inl hy),
        ih fun y hy => hlink x y hx (.inr hy)]

/-! ## Ranks -/

section

variable {rank : α → Nat} (hrank : ∀ x y, Link f g x y → rank x < rank y)
include hrank

theorem rank_le_of_reach {x y : α} (h : Relation.ReflTransGen (Link f g) x y) :
    rank x ≤ rank y := by
  induction h with
  | refl => exact Nat.le_refl _
  | tail _ hyz ih => exact Nat.le_of_lt (Nat.lt_of_le_of_lt ih (hrank _ _ hyz))

/-- With fuel up to the highest rank the walk sees every reachable element. -/
theorem mem_visit_of_reach {bound : Nat} (hbound : ∀ x y, Link f g x y → rank y < bound)
    {n : Nat} {s x : α} (hs : rank s < bound) (hn : bound ≤ n + rank s)
    (h : Relation.ReflTransGen (Link f g) s x) : x ∈ visit f g n (some s) := by
  induction n generalizing s with
  | zero => omega
  | succ n ih =>
    rw [visit, List.mem_cons, List.mem_append]
    rcases Relation.ReflTransGen.cases_head h with rfl | ⟨y, hsy, hyx⟩
    · exact .inl rfl
    · have hlt := hrank s y hsy
      have ih := ih (hbound s y hsy) (by omega) hyx
      rcases hsy with hf | hg
      · rw [hf]
        exact .inr (.inl ih)
      · rw [hg]
        exact .inr (.inr ih)

/-- Where the links form a forest, two different successors of one element lead apart. -/
theorem disjoint_of_forest (hforest : Forest f g) {s y z x : α} (hf : f s = some y)
    (hg : g s = some z) (hy : Relation.ReflTransGen (Link f g) y x)
    (hz : Relation.ReflTransGen (Link f g) z x) : False := by
  -- the ways back from `x` are the same, so one successor lies on the way to the other
  have hback : Relator.RightUnique (Function.swap (Link f g)) :=
    fun a b c hba hca => hforest.pred b c a hba hca
  have key : ∀ {a b : α}, Link f g s a → Link f g s b → a ≠ b →
      ¬ Relation.ReflTransGen (Link f g) a b := by
    intro a b ha hb hne hab
    rcases Relation.ReflTransGen.cases_tail hab with rfl | ⟨c, hac, hcb⟩
    · exact hne rfl
    · obtain rfl := hforest.pred s c b hb hcb
      have := rank_le_of_reach hrank hac
      have := hrank s a ha
      omega
  have hne : y ≠ z := by
    rintro rfl
    exact hforest.apart s y hf hg
  rcases Relation.ReflTransGen.total_of_right_unique hback (Relation.reflTransGen_swap.mpr hy)
    (Relation.reflTransGen_swap.mpr hz) with h | h
  · exact key (.inr hg) (.inl hf) (Ne.symm hne) (Relation.reflTransGen_swap.mp h)
  · exact key (.inl hf) (.inr hg) hne (Relation.reflTransGen_swap.mp h)

/-- The walk sees nothing twice. -/
theorem nodup_visit (hforest : Forest f g) (n : Nat) (s : Option α) : (visit f g n s).Nodup := by
  induction n generalizing s with
  | zero => exact List.nodup_nil
  | succ n ih =>
    cases s with
    | none => exact List.nodup_nil
    | some s =>
      have hnot : ∀ y, Link f g s y → s ∉ visit f g n (some y) := by
        intro y hsy hmem
        have := rank_le_of_reach hrank (reach_of_mem_visit hmem)
        have := hrank s y hsy
        omega
      have hs : s ∉ visit f g n (f s) ++ visit f g n (g s) := by
        rw [List.mem_append]
        rintro (h | h)
        · cases hf : f s with
          | none => simp [hf] at h
          | some y => exact hnot y (.inl hf) (hf ▸ h)
        · cases hg : g s with
          | none => simp [hg] at h
          | some y => exact hnot y (.inr hg) (hg ▸ h)
      refine List.nodup_cons.mpr ⟨hs, (ih _).append (ih _) ?_⟩
      intro x hxf hxg
      cases hf : f s with
      | none => simp [hf] at hxf
      | some y =>
        cases hg : g s with
        | none => simp [hg] at hxg
        | some z =>
          exact disjoint_of_forest hrank hforest hf hg (reach_of_mem_visit (hf ▸ hxf))
            (reach_of_mem_visit (hg ▸ hxg))

end

/-! ## Ranks below the number of elements -/

/-- The number of elements of `nodes` below `x`: a rank that follows `rank` and stays below the size
of `nodes`. -/
def place (nodes : Finset α) (rank : α → Nat) (x : α) : Nat :=
  (nodes.filter (rank · < rank x)).card

theorem place_lt_place {nodes : Finset α} {rank : α → Nat} {x y : α} (hx : x ∈ nodes)
    (h : rank x < rank y) : place nodes rank x < place nodes rank y := by
  apply Finset.card_lt_card
  rw [Finset.ssubset_iff_of_subset]
  · exact ⟨x, by simp [hx, h], by simp⟩
  · intro z hz
    rw [Finset.mem_filter] at hz ⊢
    exact ⟨hz.1, Nat.lt_trans hz.2 h⟩

theorem place_lt_card {nodes : Finset α} {rank : α → Nat} {x : α} (hx : x ∈ nodes) :
    place nodes rank x < nodes.card := by
  apply Finset.card_lt_card
  rw [Finset.ssubset_iff_of_subset (Finset.filter_subset _ _)]
  exact ⟨x, hx, by simp⟩

end Lib.Links
