import Mathlib

/-!
# Rows of wide cells

A row in which a cell of width `w` stands for itself and the `w - 1` cells after it, which have
width 0. One row painted over another at an offset is such a row again exactly when the painting cuts
no wide cell: neither one of its own, at an end of the row, nor one of the row beneath.
-/

namespace Lib

/-- The widths of a row of `n` cells, every cell of width 0 being part of a wide cell before it. -/
structure Tiled (n : Nat) (width : Nat → Nat) : Prop where
  fits : ∀ c, c < n → c + width c ≤ n
  follow : ∀ c k, c < n → 0 < k → k < width c → width (c + k) = 0
  owner : ∀ c, c < n → width c = 0 → ∃ l, l < c ∧ c < l + width l

namespace Tiled

variable {n : Nat} {width : Nat → Nat}

/-- A cell belongs to one wide cell. -/
theorem unique (h : Tiled n width) {c l l' : Nat} (hl : l ≤ c) (hc : c < l + width l) (hl' : l' ≤ c)
    (hc' : c < l' + width l') (hn : c < n) : l = l' := by
  rcases Nat.lt_trichotomy l l' with hlt | heq | hlt
  · have hzero := h.follow l (l' - l) (by omega) (by omega) (by omega)
    rw [Nat.add_sub_cancel' hlt.le] at hzero
    omega
  · exact heq
  · have hzero := h.follow l' (l - l') (by omega) (by omega) (by omega)
    rw [Nat.add_sub_cancel' hlt.le] at hzero
    omega

/-- The wide cell that a cell belongs to. -/
theorem exists_owner (h : Tiled n width) {c : Nat} (hc : c < n) : ∃ l, l ≤ c ∧ c < l + width l := by
  rcases Nat.eq_zero_or_pos (width c) with hzero | hpos
  · obtain ⟨l, hl, hlt⟩ := h.owner c hc hzero
    exact ⟨l, hl.le, hlt⟩
  · exact ⟨c, le_rfl, by omega⟩

/-- A row of narrow cells. -/
theorem ones (n : Nat) : Tiled n fun _ => 1 where
  fits c hc := hc
  follow c k _ hpos hlt := absurd hlt (by omega)
  owner c _ hzero := absurd hzero one_ne_zero

theorem congr (h : Tiled n width) {width' : Nat → Nat} (heq : ∀ c, c < n → width' c = width c) :
    Tiled n width' where
  fits c hc := by
    rw [heq c hc]
    exact h.fits c hc
  follow c k hc hpos hlt := by
    rw [heq c hc] at hlt
    have hfits := h.fits c hc
    rw [heq (c + k) (by omega)]
    exact h.follow c k hc hpos hlt
  owner c hc hzero := by
    rw [heq c hc] at hzero
    obtain ⟨l, hl, hlt⟩ := h.owner c hc hzero
    exact ⟨l, hl, by rwa [heq l (by omega)]⟩

end Tiled

/-! ## Painting -/

section Paint

variable {n m : Nat} {offset : Int} {shown : Nat → Prop} {source width width' : Nat → Nat}

/-- Cell `i` of a row of `m` cells is painted on column `c`. -/
def Covers (m : Nat) (offset : Int) (shown : Nat → Prop) (i c : Nat) : Prop :=
  i < m ∧ (i : Int) + offset = c ∧ shown i

theorem Covers.unique {i j c : Nat} (h : Covers m offset shown i c) (h' : Covers m offset shown j c) :
    i = j := by
  have hi := h.2.1
  have hj := h'.2.1
  omega

/-- Painting a row leaves every wide cell in one piece. -/
structure CutsNothing (n m : Nat) (offset : Int) (shown : Nat → Prop) (source width : Nat → Nat) :
    Prop where
  /-- No wide cell goes beyond the right end. -/
  right : ∀ i c, c < n → Covers m offset shown i c → c + source i ≤ n
  /-- No part of a wide cell that begins left of the row is painted. -/
  left : ∀ i c, c < n → Covers m offset shown i c → source i = 0 →
    ∀ l, l < i → i < l + source l → 0 ≤ (l : Int) + offset
  /-- A wide cell beneath is covered whole or not at all. -/
  beneath : ∀ l k, l < n → k < width l →
    ((∃ i, Covers m offset shown i l) ↔ ∃ i, Covers m offset shown i (l + k))

/-- Wide cells are painted whole where they are on the row. -/
theorem covers_of_owner (hsource : Tiled m source) (hwide : ∀ i, source i ≠ 1 → shown i) {i c l : Nat}
    (h : Covers m offset shown i c) (hl : l ≤ i) (hi : i < l + source l) {d k : Nat}
    (hk : k < source l) (hd : ((l + k : Nat) : Int) + offset = d) :
    Covers m offset shown (l + k) d := by
  have him := h.1
  have hfits := hsource.fits l (by omega)
  refine ⟨by omega, hd, ?_⟩
  rcases Nat.eq_zero_or_pos k with rfl | hpos
  · by_cases hone : source l = 1
    · obtain rfl : l = i := by omega
      exact h.2.2
    · exact hwide _ hone
  · apply hwide
    rw [hsource.follow l k (by omega) hpos hk]
    exact zero_ne_one

/-- **Painting keeps a row tiled exactly when it cuts nothing.** -/
theorem tiled_paint_iff (hwidth : Tiled n width) (hsource : Tiled m source)
    (hwide : ∀ i, source i ≠ 1 → shown i)
    (hpaint : ∀ i c, c < n → Covers m offset shown i c → width' c = source i)
    (hkeep : ∀ c, c < n → (∀ i, ¬Covers m offset shown i c) → width' c = width c) :
    Tiled n width' ↔ CutsNothing n m offset shown source width := by
  constructor
  · intro h
    refine ⟨?_, ?_, ?_⟩
    · intro i c hc hcovers
      have hfits := h.fits c hc
      rwa [hpaint i c hc hcovers] at hfits
    · intro i c hc hcovers hzero l hl hi
      by_contra hleft
      obtain ⟨lead, hlead, hclead⟩ := h.owner c hc (by rw [hpaint i c hc hcovers, hzero])
      -- the part of the wide cell before `c` is painted too
      have hi' := hcovers.2.1
      have hcut : ∃ k, 0 < k ∧ k < source l ∧ Covers m offset shown (l + k) lead :=
        ⟨((lead : Int) - offset - l).toNat, by omega, by omega,
          covers_of_owner hsource hwide hcovers hl.le hi (by omega) (by omega)⟩
      obtain ⟨k, hpos, hk, hcut⟩ := hcut
      have hlen := hcut.1
      rw [hpaint _ _ (by omega) hcut, hsource.follow l k (by omega) hpos hk] at hclead
      omega
    · intro l k hl hk
      have hfits := hwidth.fits l hl
      constructor
      · intro hcovered
        obtain ⟨i, hcovers⟩ := hcovered
        by_contra hnot
        push Not at hnot
        have hk0 : 0 < k := by
          rcases Nat.eq_zero_or_pos k with rfl | hpos
          · exact absurd hcovers (hnot i)
          · exact hpos
        have hold : width' (l + k) = 0 := by
          rw [hkeep _ (by omega) hnot]
          exact hwidth.follow l k hl hk0 hk
        obtain ⟨lead, hlead, hlt⟩ := h.owner (l + k) (by omega) hold
        by_cases hpainted : ∃ j, Covers m offset shown j lead
        · obtain ⟨j, hj⟩ := hpainted
          rw [hpaint j lead (by omega) hj] at hlt
          have hj' := hj.2.1
          have hlast := covers_of_owner hsource hwide hj le_rfl (by omega)
            (show l + k - lead < source j by omega) (show _ = ((l + k : Nat) : Int) by omega)
          exact hnot _ hlast
        · push Not at hpainted
          rw [hkeep lead (by omega) hpainted] at hlt
          have hsame : lead = l :=
            hwidth.unique hlead.le hlt (Nat.le_add_right l k) (by omega) (by omega)
          subst hsame
          exact hpainted i hcovers
      · intro hcovered
        obtain ⟨i, hcovers⟩ := hcovered
        by_contra hnot
        push Not at hnot
        have hi := hcovers.2.1
        have hk0 : 0 < k := by
          rcases Nat.eq_zero_or_pos k with rfl | hpos
          · exact absurd hcovers (hnot i)
          · exact hpos
        have hlead : width' l = width l := hkeep l hl hnot
        have hzero : source i = 0 := by
          rw [← hpaint i (l + k) (by omega) hcovers]
          exact h.follow l k hl hk0 (by omega)
        obtain ⟨j, hj, hlt⟩ := hsource.owner i hcovers.1 hzero
        rcases Int.lt_or_le (l : Int) (j + offset) with hafter | hbefore
        · -- the painted wide cell begins inside the old one
          have hcoversLead := covers_of_owner hsource hwide hcovers hj.le hlt
            (show 0 < source j by omega) (show _ = (((j : Int) + offset).toNat : Int) by omega)
          have hcolumn : ((j : Int) + offset).toNat = l + (((j : Int) + offset).toNat - l) := by omega
          have hinside := h.follow l (((j : Int) + offset).toNat - l) hl (by omega) (by omega)
          rw [← hcolumn, hpaint _ _ (by omega) hcoversLead] at hinside
          simp only [Nat.add_zero] at hinside
          omega
        · have hcoversLead := covers_of_owner hsource hwide hcovers hj.le hlt
            (show ((l : Int) - offset - j).toNat < source j by omega)
            (show _ = (l : Int) by omega)
          exact hnot _ hcoversLead
  · intro h
    refine ⟨?_, ?_, ?_⟩
    · intro c hc
      by_cases hpainted : ∃ i, Covers m offset shown i c
      · obtain ⟨i, hi⟩ := hpainted
        rw [hpaint i c hc hi]
        exact h.right i c hc hi
      · push Not at hpainted
        rw [hkeep c hc hpainted]
        exact hwidth.fits c hc
    · intro c k hc hpos hlt
      by_cases hpainted : ∃ i, Covers m offset shown i c
      · obtain ⟨i, hi⟩ := hpainted
        rw [hpaint i c hc hi] at hlt
        have hright := h.right i c hc hi
        have hcolumn := hi.2.1
        have hnext := covers_of_owner hsource hwide hi le_rfl (by omega) hlt
          (show _ = ((c + k : Nat) : Int) by omega)
        rw [hpaint _ _ (by omega) hnext]
        exact hsource.follow i k hi.1 hpos hlt
      · have hnot := hpainted
        push Not at hnot
        rw [hkeep c hc hnot] at hlt
        have hfits := hwidth.fits c hc
        have hrest : ∀ i, ¬Covers m offset shown i (c + k) := fun i hi =>
          hpainted ((h.beneath c k hc hlt).mpr ⟨i, hi⟩)
        rw [hkeep _ (by omega) hrest]
        exact hwidth.follow c k hc hpos hlt
    · intro c hc hzero
      by_cases hpainted : ∃ i, Covers m offset shown i c
      · obtain ⟨i, hi⟩ := hpainted
        rw [hpaint i c hc hi] at hzero
        obtain ⟨l, hl, hlt⟩ := hsource.owner i hi.1 hzero
        have hleft := h.left i c hc hi hzero l hl hlt
        have hcolumn := hi.2.1
        have hlead := covers_of_owner hsource hwide hi hl.le hlt (show 0 < source l by omega)
          (show _ = (((l : Int) + offset).toNat : Int) by omega)
        refine ⟨((l : Int) + offset).toNat, by omega, ?_⟩
        rw [hpaint _ _ (by omega) hlead]
        simp only [Nat.add_zero]
        omega
      · have hnot := hpainted
        push Not at hnot
        rw [hkeep c hc hnot] at hzero
        obtain ⟨l, hl, hlt⟩ := hwidth.owner c hc hzero
        have hlead : ∀ i, ¬Covers m offset shown i l := by
          intro i hi
          have hwhole := (h.beneath l (c - l) (by omega) (by omega)).mp ⟨i, hi⟩
          rw [Nat.add_sub_cancel' hl.le] at hwhole
          exact hpainted hwhole
        exact ⟨l, hl, by rwa [hkeep l (by omega) hlead]⟩

end Paint

end Lib
