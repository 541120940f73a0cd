import Oxvim.Lib.Brackets

/-!
# Enclosing pairs

The pairs around a position are nested in one another, so that they can be counted from inside. A
scan backward from the position finds the innermost span that is still open behind it.
-/

namespace Lib.Brackets

universe u

variable {α : Type u} {D : Delims α} {w : List α} {i j k l h r here : Nat}

/-- The span opened at `l` is still open behind `h`. -/
structure OpenBehind (D : Delims α) (w : List α) (l h : Nat) : Prop where
  le : l ≤ h
  opens : ∃ x, w[l]? = some x ∧ D.opens x = true
  depth_le : ∀ m, l < m → m ≤ h + 1 → depth D w (l + 1) ≤ depth D w m

/-- A pair around a position, which may be at one of its ends. -/
structure Enclosing (D : Delims α) (w : List α) (here l r : Nat) : Prop where
  linked : Linked D w l r
  left_le : l ≤ here
  le_right : here ≤ r

/-- The pairs around a position, counted from the innermost one. -/
inductive NthEnclosing (D : Delims α) (w : List α) (here : Nat) : Nat → Nat → Nat → Prop where
  | first {l r : Nat} (enclosing : Enclosing D w here l r)
      (innermost : ∀ l' r', Enclosing D w here l' r' → l' ≤ l) : NthEnclosing D w here 1 l r
  | next {n l r l' r' : Nat} (inner : NthEnclosing D w here n l r)
      (enclosing : Enclosing D w here l' r') (lt : l' < l)
      (nearest : ∀ l'' r'', Enclosing D w here l'' r'' → l'' < l → l'' ≤ l') :
      NthEnclosing D w here (n + 1) l' r'

theorem NthEnclosing.enclosing {n : Nat} (h : NthEnclosing D w here n l r) :
    Enclosing D w here l r := by
  cases h with
  | first enclosing => exact enclosing
  | next _ enclosing => exact enclosing

theorem NthEnclosing.unique {n l' r' : Nat} (h : NthEnclosing D w here n l r)
    (h' : NthEnclosing D w here n l' r') : l = l' ∧ r = r' := by
  have hleft : l = l' := by
    induction h generalizing l' r' with
    | first enclosing innermost =>
      cases h' with
      | first enclosing' innermost' =>
        exact le_antisymm (innermost' _ _ enclosing) (innermost _ _ enclosing')
      | next inner => cases inner
    | next inner enclosing lt nearest ih =>
      cases h' with
      | first => cases inner
      | next inner' enclosing' lt' nearest' =>
        have := ih inner'
        subst this
        exact le_antisymm (nearest' _ _ enclosing lt) (nearest _ _ enclosing' lt')
  subst hleft
  exact ⟨rfl, h.enclosing.linked.right_unique h'.enclosing.linked⟩

theorem NthEnclosing.pos {n : Nat} (h : NthEnclosing D w here n l r) : 0 < n := by
  cases h with
  | first => exact Nat.one_pos
  | next => exact Nat.succ_pos _

/-- Pairs farther out begin farther left. -/
theorem NthEnclosing.lt_of_lt {n n' l' r' : Nat} (h : NthEnclosing D w here n l r)
    (h' : NthEnclosing D w here n' l' r') (hn : n < n') : l' < l := by
  induction h' with
  | first =>
    have := h.pos
    omega
  | next inner enclosing lt _ ih =>
    rcases Nat.lt_or_eq_of_le (Nat.le_of_lt_succ hn) with hlt | heq
    · exact lt.trans (ih hlt)
    · subst heq
      rwa [(h.unique inner).1]

theorem NthEnclosing.exists_first {n : Nat} (h : NthEnclosing D w here n l r) :
    ∃ l' r', NthEnclosing D w here 1 l' r' := by
  induction h with
  | first enclosing innermost => exact ⟨_, _, .first enclosing innermost⟩
  | next _ _ _ _ ih => exact ih

/-- Every enclosing pair has its number. -/
theorem Enclosing.exists_nth (h : Enclosing D w here l r) : ∃ n, NthEnclosing D w here n l r := by
  induction hd : here - l using Nat.strong_induction_on generalizing l r with
  | _ d ih =>
    by_cases hinner : ∃ l' r', Enclosing D w here l' r' ∧ l < l'
    · -- The next pair inside is the nearest one to the right.
      have hexists : ∃ l', l < l' ∧ ∃ r', Enclosing D w here l' r' := by
        obtain ⟨l', r', henclosing, hlt⟩ := hinner
        exact ⟨l', hlt, r', henclosing⟩
      classical
      obtain ⟨hlt, r', henclosing⟩ := Nat.find_spec hexists
      have hle := henclosing.left_le
      obtain ⟨n, hn⟩ := ih (here - Nat.find hexists) (by omega) henclosing rfl
      refine ⟨n + 1, hn.next h hlt fun l'' r'' h'' hlt'' => ?_⟩
      by_contra hgt
      exact Nat.find_min hexists hlt'' ⟨by omega, r'', h''⟩
    · refine ⟨1, .first h fun l' r' h' => ?_⟩
      by_contra hgt
      exact hinner ⟨l', r', h', by omega⟩

/-! ## Nesting -/

section

variable (hD : ∀ x, D.splits x = false)

include hD

theorem Linked.exists_opens (h : Linked D w i j) : ∃ x, w[i]? = some x ∧ D.opens x = true := by
  obtain ⟨x, hx, hopens | hsplits⟩ := h.begins
  · exact ⟨x, hx, hopens⟩
  · rw [hD] at hsplits
    cases hsplits

theorem Linked.exists_closes (h : Linked D w i j) : ∃ x, w[j]? = some x ∧ D.closes x = true := by
  obtain ⟨x, hx, hcloses | hsplits⟩ := h.ends
  · exact ⟨x, hx, hcloses⟩
  · rw [hD] at hsplits
    cases hsplits

/-- Behind a pair, the depth is the one before it. -/
theorem Linked.depth_behind (h : Linked D w i j) : depth D w (j + 1) < depth D w (i + 1) := by
  obtain ⟨x, hx, hcloses⟩ := h.exists_closes hD
  rw [depth_succ hx, delta_closes hcloses, h.nested.depth_eq]
  omega

/-- What opens inside a pair closes inside it. -/
theorem Linked.exists_inside {x : α} (h : Linked D w i j) (hx : w[k]? = some x)
    (hopens : D.opens x = true) (hik : i < k) (hkj : k < j) : ∃ m, Linked D w k m ∧ m < j := by
  have hbehind := h.depth_behind hD
  have hinside := h.nested.depth_le k (by omega) hkj.le
  have hdepth : depth D w (k + 1) = depth D w k + 1 := by rw [depth_succ hx, delta_opens hopens]
  cases hscan : scan D 0 (w.drop (k + 1)) with
  | none =>
    have hle := depth_le_of_scan_eq_none hscan (j - k)
    have hindex : k + 1 + (j - k) = j + 1 := by omega
    rw [depth_drop, hindex] at hle
    omega
  | some m =>
    have hlinked := (scan_iff_linked hx (.inl hopens)).mp hscan
    refine ⟨_, hlinked, ?_⟩
    by_contra hge
    rcases Nat.lt_or_eq_of_le (Nat.le_of_not_lt hge) with hgt | heq
    · have := hlinked.nested.depth_le (j + 1) (by omega) hgt
      omega
    · rw [← heq] at hlinked
      have := h.left_unique hlinked
      omega

/-- Of two pairs, one that begins inside the other ends inside it. -/
theorem Linked.right_lt {i' j' : Nat} (h : Linked D w i j) (h' : Linked D w i' j') (hi : i < i')
    (hij : i' < j) : j' < j := by
  obtain ⟨x, hx, hopens⟩ := h'.exists_opens hD
  obtain ⟨m, hlinked, hlt⟩ := h.exists_inside hD hx hopens hi hij
  rwa [h'.right_unique hlinked]

/-! ## Open spans -/

theorem Linked.openBehind (hlinked : Linked D w l r) (hle : l ≤ h) (hlt : h < r) :
    OpenBehind D w l h :=
  ⟨hle, hlinked.exists_opens hD, fun m hm hmh => hlinked.nested.depth_le m hm (by omega)⟩

theorem OpenBehind.lt_right (hopen : OpenBehind D w l h) (hlinked : Linked D w l r) : h < r := by
  by_contra hle
  have hlt := hlinked.lt
  have := hopen.depth_le (r + 1) (by omega) (by omega)
  have := hlinked.depth_behind hD
  omega

end

/-- The scan backward finds the innermost open span. -/
theorem scanBack_openBehind (hlt : h + 1 ≤ w.length)
    (hscan : scan D.swap 0 (w.take (h + 1)).reverse = some k) (hD : ∀ x, D.splits x = false) :
    k ≤ h ∧ OpenBehind D w (h - k) h ∧ ∀ l, OpenBehind D w l h → l ≤ h - k := by
  obtain ⟨⟨x, hx, hends⟩, heq, hle, -⟩ := scan_eq_some_iff.mp hscan
  have hk : k < h + 1 := by
    have := (List.getElem?_eq_some_iff.mp hx).1
    rw [List.length_reverse, List.length_take] at this
    omega
  rw [getElem?_reverse_take hk hlt] at hx
  rw [depth_reverse_take (by omega) hlt] at heq
  have hindex : h + 1 - 1 - k = h - k := by omega
  have hfirst : h + 1 - k = h - k + 1 := by omega
  rw [hindex] at hx
  rw [hfirst] at heq
  have hopens : D.opens x = true := by
    rcases hends with hopens | hsplits
    · exact hopens
    · have : D.splits x = true := hsplits
      rw [hD] at this
      cases this
  have hinside : ∀ m, h - k < m → m ≤ h + 1 → depth D w (h - k + 1) ≤ depth D w m := by
    intro m hm hmh
    have := hle (h + 1 - m) (by omega)
    rw [depth_reverse_take (by omega) hlt] at this
    have hback : h + 1 - (h + 1 - m) = m := by omega
    rw [hback] at this
    omega
  refine ⟨by omega, ⟨by omega, ⟨x, hx, hopens⟩, hinside⟩, fun l hopen => ?_⟩
  by_contra hgt
  obtain ⟨y, hy, hopensY⟩ := hopen.opens
  have hleft := hopen.depth_le (h + 1) (by have := hopen.le; omega) le_rfl
  have hright := hinside l (by omega) (by have := hopen.le; omega)
  rw [depth_succ hy, delta_opens hopensY] at hleft
  omega

theorem scanBack_eq_none (hlt : h + 1 ≤ w.length)
    (hscan : scan D.swap 0 (w.take (h + 1)).reverse = none) : ¬OpenBehind D w l h := by
  intro hopen
  obtain ⟨y, hy, hopensY⟩ := hopen.opens
  have hle := hopen.le
  have hleft := hopen.depth_le (h + 1) (by omega) le_rfl
  have hdepth := depth_le_of_scan_eq_none hscan (h + 1 - l)
  have hback : h + 1 - (h + 1 - l) = l := by omega
  rw [depth_reverse_take (by omega) hlt, hback] at hdepth
  rw [depth_succ hy, delta_opens hopensY] at hleft
  omega

end Lib.Brackets
