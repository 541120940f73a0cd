import Oxvim.Ui.GridWrite

/-!
# Grids without halves of wide cells

A grid is whole when each cell of width `w ≥ 1` is followed in its row by exactly `w - 1` empty
continuation cells, and there are no other continuation cells. `put` and `writeText` keep a grid whole
wherever they write.
-/

namespace Oxvim.Ui

open Lib

namespace Grid

/-- The widths of the cells of a row. -/
def widths (self : Grid) (row col : Nat) : Nat :=
  (self.cellAt row col).width.toNat

/-- **The wide-cell invariant.** -/
structure Whole (grid : Grid) : Prop where
  tiled : ∀ row, row < grid.height → Tiled grid.width (grid.widths row)
  empty : ∀ row col, row < grid.height → col < grid.width → (grid.cellAt row col).width = 0 →
    (grid.cellAt row col).text = []

/-- The same geometry. -/
structure SameSize (grid other : Grid) : Prop where
  id : grid.id = other.id
  width : grid.width = other.width
  height : grid.height = other.height

theorem SameSize.refl (grid : Grid) : SameSize grid grid :=
  ⟨rfl, rfl, rfl⟩

theorem SameSize.trans {a b c : Grid} (h : SameSize a b) (h' : SameSize b c) : SameSize a c :=
  ⟨h.id.trans h'.id, h.width.trans h'.width, h.height.trans h'.height⟩

variable {grid : Grid} {row col : Nat}

/-! ## Single cells -/

theorem index_ok (hrow : row < grid.height) (hcol : col < grid.width) : grid.index row col = .ok () := by
  rw [index, if_neg (by omega)]

theorem sameSize_setCell (cell : Cell) : SameSize (grid.setCell row col cell) grid :=
  ⟨rfl, rfl, rfl⟩

theorem cellIndex_inj {width r c r' c' : Nat} (hc : c < width) (hc' : c' < width) :
    r * width + c = r' * width + c' ↔ r = r' ∧ c = c' := by
  constructor
  · intro h
    have hdiv := congrArg (· / width) h
    simp only [Nat.mul_comm _ width, Nat.mul_add_div (by omega : width > 0), Nat.div_eq_of_lt hc,
      Nat.div_eq_of_lt hc', Nat.add_zero] at hdiv
    subst hdiv
    exact ⟨rfl, by omega⟩
  · intro h
    rw [h.1, h.2]

theorem cellIndex_lt (hrow : row < grid.height) (hcol : col < grid.width) :
    row * grid.width + col < grid.cells.length := by
  rw [grid.cells_length]
  have hle : (row + 1) * grid.width ≤ grid.height * grid.width := Nat.mul_le_mul_right _ hrow
  rw [Nat.add_mul, Nat.one_mul, Nat.mul_comm grid.height] at hle
  omega

/-- What `setCell` leaves, cell by cell. -/
theorem cellAt_setCell (hrow : row < grid.height) (hcol : col < grid.width) (cell : Cell)
    {r c : Nat} (hc : c < grid.width) : (grid.setCell row col cell).cellAt r c
      = if r = row ∧ c = col then cell else grid.cellAt r c := by
  have hlt := cellIndex_lt hrow hcol
  simp only [cellAt, setCell]
  by_cases h : r = row ∧ c = col
  · obtain ⟨rfl, rfl⟩ := h
    rw [if_pos ⟨rfl, rfl⟩, List.getElem?_set_self hlt]
    rfl
  · rw [if_neg h, List.getElem?_set_ne]
    intro heq
    exact h ((cellIndex_inj hc hcol).mp heq.symm)

theorem writeCell_ok (hrow : row < grid.height) (hcol : col < grid.width) {width : UInt8}
    (hwidth : width ≤ 1 ∨ col + width.toNat ≤ grid.width) (text : List UInt8) (hlId : UInt64) :
    grid.writeCell row col text hlId width = .ok (grid.setCell row col ⟨text, hlId, width⟩) := by
  have hnot : ¬(width > 1 ∧ col + width.toNat > grid.width) := by
    rcases hwidth with hle | hle
    · exact fun h => absurd hle (UInt8.not_le.mpr h.1)
    · omega
  rw [writeCell, if_neg hnot, index_ok hrow hcol]
  rfl

/-- What a run of resets leaves. -/
theorem cellAt_resetBlank (hrow : row < grid.height) {cols : List Nat}
    (hcols : ∀ c ∈ cols, c < grid.width) {r c : Nat} (hc : c < grid.width) :
    (grid.resetBlank row cols).cellAt r c
      = if r = row ∧ c ∈ cols then Cell.blank else grid.cellAt r c := by
  induction cols generalizing grid with
  | nil => simp [resetBlank]
  | cons col cols ih =>
    have hcol := hcols col (List.mem_cons_self ..)
    have hrest := @ih (grid.setCell row col Cell.blank) hrow
      (fun c hmem => hcols c (List.mem_cons_of_mem _ hmem)) hc
    rw [resetBlank, List.foldl_cons, ← resetBlank, hrest, cellAt_setCell hrow hcol _ hc]
    grind

theorem sameSize_resetBlank (cols : List Nat) : SameSize (grid.resetBlank row cols) grid := by
  induction cols generalizing grid with
  | nil => exact .refl grid
  | cons col cols ih => exact ih.trans (sameSize_setCell _)

theorem wraps_resetBlank (cols : List Nat) : (grid.resetBlank row cols).wraps = grid.wraps := by
  induction cols generalizing grid with
  | nil => rfl
  | cons col cols ih => exact ih

/-! ## Clearing -/

theorem blank_width : Cell.blank.width.toNat = 1 := rfl

/-- The lead of a wide cell is found from each of its columns. -/
theorem leadCol_eq (h : Tiled grid.width (grid.widths row)) {l c : Nat} (hc : c < grid.width)
    (hl : l ≤ c) (hlt : c < l + grid.widths row l) : grid.leadCol row c = l := by
  induction c with
  | zero =>
    obtain rfl : l = 0 := by omega
    rfl
  | succ c ih =>
    rw [leadCol]
    rcases Nat.eq_or_lt_of_le hl with rfl | hless
    · rw [if_neg]
      intro hzero
      rw [widths, hzero] at hlt
      simp at hlt
    · have hzero : grid.widths row (c + 1) = 0 := by
        have hfollow := h.follow l (c + 1 - l) (by omega) (by omega) (by omega)
        rwa [Nat.add_sub_cancel' hl] at hfollow
      have hzero' : (grid.cellAt row (c + 1)).width = 0 := UInt8.toNat_inj.mp hzero
      rw [if_pos hzero']
      exact ih (by omega) (by omega) (by omega)

/-- The cells that differ are blank now, and wide cells are still in one piece. -/
structure Blanked (grid before : Grid) (row : Nat) : Prop where
  whole : grid.Whole
  size : SameSize grid before
  cells : ∀ r c, c < before.width → grid.cellAt r c = before.cellAt r c ∨
    (r = row ∧ grid.cellAt r c = Cell.blank)

theorem Blanked.refl (h : grid.Whole) : Blanked grid grid row :=
  ⟨h, .refl grid, fun _ _ _ => .inl rfl⟩

theorem Blanked.trans {a b c : Grid} (h : Blanked a b row) (h' : Blanked b c row) :
    Blanked a c row := by
  refine ⟨h.whole, h.size.trans h'.size, ?_⟩
  intro r d hd
  rcases h.cells r d (h'.size.width ▸ hd) with heq | ⟨hr, heq⟩
  · rw [heq]
    exact h'.cells r d hd
  · exact .inr ⟨hr, heq⟩

/-- Clearing a column resets the cells of the grapheme there. -/
theorem clearGraphemeAt_run (h : grid.Whole) (hrow : row < grid.height) (hcol : col < grid.width) :
    ∃ l cleared, l ≤ col ∧ col < l + grid.widths row l ∧
      grid.clearGraphemeAt row col = .ok cleared ∧ SameSize cleared grid ∧
      cleared.wraps = grid.wraps ∧ ∀ r c, c < grid.width → cleared.cellAt r c
        = if r = row ∧ l ≤ c ∧ c < l + grid.widths row l then Cell.blank else grid.cellAt r c := by
  have htiled := h.tiled row hrow
  obtain ⟨l, hl, hlt⟩ := htiled.exists_owner hcol
  have hfits := htiled.fits l (by omega)
  have hlead := leadCol_eq htiled hcol hl hlt
  have hmax : max (grid.cellAt row l).width.toNat 1 = grid.widths row l := by
    rw [widths]
    rw [widths] at hlt
    omega
  have hrange : List.range' l (min (l + grid.widths row l) grid.width - l)
      = List.range' l (grid.widths row l) := by
    congr 1
    omega
  have hcols : ∀ c ∈ List.range' l (grid.widths row l), c < grid.width := by
    intro c hc
    rw [List.mem_range'_1] at hc
    omega
  have hcells : ∀ r c, c < grid.width →
      (grid.resetBlank row (List.range' l (grid.widths row l))).cellAt r c
        = if r = row ∧ l ≤ c ∧ c < l + grid.widths row l then Cell.blank
          else grid.cellAt r c := by
    intro r c hc
    simp only [cellAt_resetBlank hrow hcols hc, List.mem_range'_1]
  have hsize : SameSize (grid.resetBlank row (List.range' l (grid.widths row l))) grid :=
    sameSize_resetBlank _
  have hwraps : (grid.resetBlank row (List.range' l (grid.widths row l))).wraps = grid.wraps :=
    wraps_resetBlank _
  by_cases hlead' : col ≠ l
  · -- the column itself is among those that were reset
    refine ⟨l, (grid.resetBlank row (List.range' l (grid.widths row l))).setCell row col Cell.blank,
      hl, hlt, ?_, (sameSize_setCell _).trans hsize, hwraps, ?_⟩
    · simp only [clearGraphemeAt, index_ok hrow hcol, hlead, hmax, hrange, if_pos hlead']
      rfl
    · intro r c hc
      rw [cellAt_setCell (hsize.height ▸ hrow) (hsize.width ▸ hcol) _ (hsize.width ▸ hc),
        hcells r c hc]
      grind
  · refine ⟨l, grid.resetBlank row (List.range' l (grid.widths row l)), hl, hlt, ?_, hsize, hwraps,
      hcells⟩
    simp only [clearGraphemeAt, index_ok hrow hcol, hlead, hmax, hrange, if_neg hlead']
    rfl

/-- **Clearing a column clears the whole grapheme there.** -/
theorem clearGraphemeAt_ok (h : grid.Whole) (hrow : row < grid.height) (hcol : col < grid.width) :
    ∃ cleared, grid.clearGraphemeAt row col = .ok cleared ∧ Blanked cleared grid row ∧
      cleared.cellAt row col = Cell.blank := by
  have htiled := h.tiled row hrow
  obtain ⟨l, cleared, hl, hlt, hclear, hsize, -, hcells⟩ := clearGraphemeAt_run h hrow hcol
  refine ⟨cleared, hclear, ⟨⟨?_, ?_⟩, hsize, ?_⟩, ?_⟩
  · intro r hr
    rw [hsize.width]
    rw [hsize.height] at hr
    have hwidths : ∀ c, c < grid.width → cleared.widths r c
        = if r = row ∧ l ≤ c ∧ c < l + grid.widths row l then 1 else grid.widths r c := by
      intro c hc
      rw [widths, hcells r c hc]
      split
      · rfl
      · rfl
    have holdTiled := h.tiled r hr
    by_cases hrr : r = row
    · subst hrr
      refine ⟨?_, ?_, ?_⟩
      · intro c hc
        rw [hwidths c hc]
        split
        · omega
        · exact htiled.fits c hc
      · intro c k hc hpos hk
        rw [hwidths c hc] at hk
        split at hk
        · omega
        · next hout =>
          have hcfits := htiled.fits c hc
          rw [hwidths (c + k) (by omega), if_neg, htiled.follow c k hc hpos hk]
          intro hin
          have hsame := htiled.unique (Nat.le_add_right c k) (by omega) hin.2.1 hin.2.2 (by omega)
          exact hout ⟨rfl, by omega, by omega⟩
      · intro c hc hzero
        rw [hwidths c hc] at hzero
        split at hzero
        · omega
        · next hout =>
          obtain ⟨m, hm, hmlt⟩ := htiled.owner c hc hzero
          refine ⟨m, hm, ?_⟩
          rw [hwidths m (by omega), if_neg]
          · exact hmlt
          · intro hin
            have hmpos : m < m + grid.widths r m := by omega
            obtain rfl := htiled.unique le_rfl hmpos hin.2.1 hin.2.2 (by omega)
            exact hout ⟨rfl, by omega, by omega⟩
    · exact holdTiled.congr fun c hc => by rw [hwidths c hc, if_neg (by tauto)]
  · intro r c hr hc hzero
    rw [hsize.width] at hc
    rw [hsize.height] at hr
    rw [hcells r c hc] at hzero ⊢
    split
    · next hin =>
      rw [if_pos hin] at hzero
      cases hzero
    · next hout =>
      rw [if_neg hout] at hzero
      exact h.empty r c hr hc hzero
  · intro r c hc
    rw [hcells r c hc]
    split
    · next hin => exact .inr ⟨hin.1, rfl⟩
    · exact .inl rfl
  · rw [hcells row col hcol, if_pos ⟨rfl, hl, hlt⟩]

/-- Clearing columns one after another leaves them all blank. -/
theorem clearAll_ok (h : grid.Whole) (hrow : row < grid.height) {cols : List Nat}
    (hcols : ∀ c ∈ cols, c < grid.width) :
    ∃ cleared, cols.foldlM (fun grid col => grid.clearGraphemeAt row col) grid = .ok cleared ∧
      Blanked cleared grid row ∧ ∀ c ∈ cols, cleared.cellAt row c = Cell.blank := by
  induction cols generalizing grid with
  | nil => exact ⟨grid, rfl, .refl h, by simp⟩
  | cons col cols ih =>
    obtain ⟨first, hfirst, hblanked, hblank⟩ :=
      clearGraphemeAt_ok h hrow (hcols col (List.mem_cons_self ..))
    obtain ⟨cleared, hcleared, hrest, hblanks⟩ := ih hblanked.whole (hblanked.size.height ▸ hrow)
      (fun c hc => hblanked.size.width ▸ hcols c (List.mem_cons_of_mem _ hc))
    refine ⟨cleared, ?_, hrest.trans hblanked, ?_⟩
    · rw [List.foldlM_cons, hfirst]
      exact hcleared
    · intro c hc
      rcases List.mem_cons.mp hc with rfl | hc
      · rcases hrest.cells row c (hblanked.size.width ▸ hcols c (List.mem_cons_self ..))
          with heq | ⟨-, heq⟩
        · rw [heq, hblank]
        · exact heq
      · exact hblanks c hc

/-! ## Graphemes and text -/

/-- What a run of continuation cells leaves. -/
theorem writeContinuations_ok (hrow : row < grid.height) {hlId : UInt64} {offsets : List Nat}
    (hoffsets : ∀ k ∈ offsets, col + k < grid.width) :
    ∃ written, offsets.foldlM (fun grid k => grid.writeCell row (col + k) [] hlId 0) grid
        = .ok written ∧ SameSize written grid ∧ written.wraps = grid.wraps ∧
      ∀ r c, c < grid.width → written.cellAt r c
        = if r = row ∧ ∃ k ∈ offsets, c = col + k then ⟨[], hlId, 0⟩ else grid.cellAt r c := by
  induction offsets generalizing grid with
  | nil => exact ⟨grid, rfl, .refl grid, rfl, by simp⟩
  | cons k offsets ih =>
    have hk := hoffsets k (List.mem_cons_self ..)
    have hsize : SameSize (grid.setCell row (col + k) ⟨[], hlId, 0⟩) grid := sameSize_setCell _
    obtain ⟨written, hwritten, hsize', hwraps, hcells⟩ :=
      @ih (grid.setCell row (col + k) ⟨[], hlId, 0⟩) (hsize.height ▸ hrow)
        (fun k hk => hsize.width ▸ hoffsets k (List.mem_cons_of_mem _ hk))
    refine ⟨written, ?_, hsize'.trans hsize, hwraps, ?_⟩
    · rw [List.foldlM_cons, writeCell_ok hrow hk (.inl (by decide))]
      exact hwritten
    · intro r c hc
      rw [hcells r c (hsize.width ▸ hc), cellAt_setCell hrow hk _ hc]
      have hcons : (∃ k' ∈ k :: offsets, c = col + k') ↔
          c = col + k ∨ ∃ k' ∈ offsets, c = col + k' :=
        List.exists_mem_cons_iff _ _ _
      by_cases hlater : r = row ∧ ∃ k' ∈ offsets, c = col + k'
      · rw [if_pos hlater, if_pos ⟨hlater.1, hcons.mpr (.inr hlater.2)⟩]
      · rw [if_neg hlater]
        by_cases hfirst : r = row ∧ c = col + k
        · rw [if_pos hfirst, if_pos ⟨hfirst.1, hcons.mpr (.inl hfirst.2)⟩]
        · rw [if_neg hfirst, if_neg]
          intro hin
          rcases hcons.mp hin.2 with heq | hmem
          · exact hfirst ⟨hin.1, heq⟩
          · exact hlater ⟨hin.1, hmem⟩

/-- The widths of one wide cell. -/
theorem tiled_grapheme {w : Nat} (hw : 0 < w) : Tiled w fun i => if i = 0 then w else 0 where
  fits c hc := by
    split
    · omega
    · omega
  follow c k _ hpos hk := by
    split at hk
    · rw [if_neg (by omega)]
    · omega
  owner c _ hzero := by
    split at hzero
    · omega
    · exact ⟨0, by omega, by rw [if_pos rfl]; omega⟩

/-- A put clears its columns and writes a lead and its continuations. -/
theorem put_run (h : grid.Whole) (hrow : row < grid.height) {width : UInt8} (hpos : 0 < width.toNat)
    (hfits : col + width.toNat ≤ grid.width) (text : List UInt8) (hlId : UInt64) :
    ∃ cleared written, (List.range' col width.toNat).reverse.foldlM
        (fun grid targetCol => grid.clearGraphemeAt row targetCol) grid = .ok cleared ∧
      grid.put row col text hlId width = .ok written ∧ SameSize written grid ∧
      written.wraps = cleared.wraps ∧ ∀ r c, c < grid.width → written.cellAt r c
        = if r = row ∧ c = col then ⟨text, hlId, width⟩
          else if r = row ∧ col < c ∧ c < col + width.toNat then ⟨[], hlId, 0⟩
          else cleared.cellAt r c := by
  have hnot : ¬(width = 0 ∨ col + width.toNat > grid.width) := by
    intro hor
    rcases hor with rfl | hgt
    · exact absurd hpos (by decide)
    · omega
  have hcols : ∀ c ∈ (List.range' col width.toNat).reverse, c < grid.width := by
    intro c hc
    rw [List.mem_reverse, List.mem_range'_1] at hc
    omega
  obtain ⟨cleared, hcleared, hblanked, -⟩ := clearAll_ok h hrow hcols
  have hsize := hblanked.size
  have hrow' : row < cleared.height := hsize.height ▸ hrow
  have hcol' : col < cleared.width := by rw [hsize.width]; omega
  have hlead : cleared.writeCell row col text hlId width
      = .ok (cleared.setCell row col ⟨text, hlId, width⟩) :=
    writeCell_ok hrow' hcol' (.inr (by rw [hsize.width]; exact hfits)) text hlId
  have hleadSize : SameSize (cleared.setCell row col ⟨text, hlId, width⟩) cleared :=
    sameSize_setCell _
  obtain ⟨written, hwritten, hwrittenSize, hwraps, hcells⟩ :=
    @writeContinuations_ok (cleared.setCell row col ⟨text, hlId, width⟩) row col
      (hleadSize.height ▸ hrow') hlId (List.range' 1 (width.toNat - 1)) (by
        intro k hk
        rw [List.mem_range'_1] at hk
        rw [hleadSize.width, hsize.width]
        omega)
  refine ⟨cleared, written, hcleared, ?_, (hwrittenSize.trans hleadSize).trans hsize, hwraps, ?_⟩
  · rw [put, if_neg hnot]
    simp only [bind, Except.bind, hcleared, hlead]
    exact hwritten
  · intro r c hc
    have hc' : c < cleared.width := hsize.width ▸ hc
    rw [hcells r c (hleadSize.width ▸ hc'), cellAt_setCell hrow' hcol' _ hc']
    have hmem : (∃ k ∈ List.range' 1 (width.toNat - 1), c = col + k) ↔
        col < c ∧ c < col + width.toNat := by
      simp only [List.mem_range'_1]
      constructor
      · intro hk
        obtain ⟨k, hk, rfl⟩ := hk
        omega
      · exact fun hc => ⟨c - col, by omega, by omega⟩
    simp only [hmem]
    grind

/-- **A grapheme is put without leaving a half of another.** -/
theorem put_ok (h : grid.Whole) (hrow : row < grid.height) {width : UInt8} (hpos : 0 < width.toNat)
    (hfits : col + width.toNat ≤ grid.width) (text : List UInt8) (hlId : UInt64) :
    ∃ written, grid.put row col text hlId width = .ok written ∧ written.Whole ∧
      SameSize written grid := by
  have hcols : ∀ c ∈ (List.range' col width.toNat).reverse, c < grid.width := by
    intro c hc
    rw [List.mem_reverse, List.mem_range'_1] at hc
    omega
  obtain ⟨cleared, hcleared, hblanked, hblank⟩ := clearAll_ok h hrow hcols
  obtain ⟨cleared', written, hcleared', hwritten, hsize', -, hcells'⟩ :=
    put_run h hrow hpos hfits text hlId
  obtain rfl : cleared = cleared' := Except.ok.inj (hcleared.symm.trans hcleared')
  have hsize := hblanked.size
  refine ⟨written, hwritten, ⟨?_, ?_⟩, hsize'⟩
  · intro r hr
    rw [hsize'.width]
    rw [hsize'.height] at hr
    have htiled : Tiled grid.width (cleared.widths r) := by
      have htiled := hblanked.whole.tiled r (hsize.height ▸ hr)
      rwa [hsize.width] at htiled
    by_cases hrr : r = row
    · subst hrr
      have hone : ∀ c, col ≤ c → c < col + width.toNat → cleared.widths r c = 1 := by
        intro c hle hlt
        rw [widths, hblank c (by rw [List.mem_reverse, List.mem_range'_1]; omega)]
        rfl
      have hcovers : ∀ i c, Covers width.toNat (col : Int) (fun _ => True) i c ↔
          i < width.toNat ∧ c = col + i := by
        intro i c
        simp only [Covers, and_true]
        omega
      refine (@tiled_paint_iff grid.width width.toNat col (fun _ => True) _ _ _ htiled
        (tiled_grapheme hpos) (fun _ _ => trivial) ?_ ?_).mpr ⟨?_, ?_, ?_⟩
      · intro i c hc hcov
        obtain ⟨hi, rfl⟩ := (hcovers i c).mp hcov
        rw [widths, hcells' r (col + i) hc]
        by_cases hzero : i = 0
        · subst hzero
          simp
        · simp [hzero, hi, Nat.pos_of_ne_zero hzero]
      · intro c hc hcov
        have hout : ¬(col ≤ c ∧ c < col + width.toNat) := fun hin =>
          hcov (c - col) ((hcovers _ _).mpr ⟨by omega, by omega⟩)
        rw [widths, hcells' r c hc, if_neg (by omega), if_neg (by omega)]
        rfl
      · intro i c _ hcov
        obtain ⟨hi, rfl⟩ := (hcovers i c).mp hcov
        split
        · omega
        · omega
      · intro i c _ _ _ l _ _
        omega
      · intro l k hl hk
        have hin : ∀ c, (∃ i, Covers width.toNat (col : Int) (fun _ => True) i c) ↔
            col ≤ c ∧ c < col + width.toNat := by
          intro c
          constructor
          · intro hi
            obtain ⟨i, hi⟩ := hi
            obtain ⟨hi, rfl⟩ := (hcovers i c).mp hi
            omega
          · exact fun hc => ⟨c - col, (hcovers _ _).mpr ⟨by omega, by omega⟩⟩
        rw [hin, hin]
        rcases Nat.eq_zero_or_pos k with rfl | hkpos
        · exact Iff.rfl
        · have hfollow := htiled.follow l k hl hkpos hk
          have hlone := hone l
          have hkone := hone (l + k)
          omega
    · refine htiled.congr fun c hc => ?_
      rw [widths, hcells' r c hc, if_neg (by tauto), if_neg (by tauto)]
      rfl
  · intro r c hr hc hzero
    rw [hsize'.width] at hc
    rw [hsize'.height] at hr
    rw [hcells' r c hc] at hzero ⊢
    split
    · next hin =>
      rw [if_pos hin] at hzero
      rw [show width.toNat = 0 from congrArg UInt8.toNat hzero] at hpos
      omega
    · next hout =>
      rw [if_neg hout] at hzero
      split
      · rfl
      · next hout' =>
        rw [if_neg hout'] at hzero
        exact hblanked.whole.empty r c (hsize.height ▸ hr) (hsize.width ▸ hc) hzero

/-- The width of a cluster as one byte: `u8::try_from(width).unwrap_or(u8::MAX)`. -/
theorem clusterWidth_fits {n width : Nat} (hpos : 1 ≤ n) (hfits : col + n ≤ width) :
    0 < (if n < 256 then UInt8.ofNat n else 255).toNat ∧
      col + (if n < 256 then UInt8.ofNat n else 255).toNat ≤ width := by
  split
  · next hlt =>
    rw [UInt8.toNat_ofNat_of_lt' hlt]
    exact ⟨hpos, hfits⟩
  · have hvalue : (255 : UInt8).toNat = 255 := rfl
    omega

variable {widths : UnicodeWidth}

theorem writeClusters_ok (h : grid.Whole) (hrow : row < grid.height) (hlId : UInt64)
    (text : List Char) : ∃ end' written,
      grid.writeClusters widths row col hlId text = .ok (end', written) ∧ written.Whole ∧
        SameSize written grid := by
  induction hn : text.length using Nat.strongRecOn generalizing grid col text with
  | ind n ih =>
    subst hn
    cases text with
    | nil => exact ⟨col, grid, by rw [writeClusters], h, .refl grid⟩
    | cons first rest =>
      rw [writeClusters]
      split
      · dsimp only
        split
        · exact ⟨col, grid, rfl, h, .refl grid⟩
        · next hcol hfits =>
          obtain ⟨hpos, hle⟩ := clusterWidth_fits
            (Nat.le_max_right (widths.str ((first :: rest).take
              (clusterLength widths (first :: rest)))) 1) (not_lt.mp hfits)
          obtain ⟨grid', hput, hwhole, hsize⟩ := put_ok h hrow hpos hle
            (Utf8.encode ((first :: rest).take (clusterLength widths (first :: rest)))) hlId
          rw [hput]
          have hlength : ((first :: rest).drop (clusterLength widths (first :: rest))).length
              < (first :: rest).length := by
            simp only [clusterLength, List.length_drop, List.length_cons]
            omega
          obtain ⟨end', written, hwritten, hwhole', hsize'⟩ :=
            ih _ hlength hwhole (hsize.height ▸ hrow) _ rfl
          exact ⟨end', written, hwritten, hwhole', hsize'.trans hsize⟩
      · exact ⟨col, grid, rfl, h, .refl grid⟩

/-- **Text is written without leaving a half of a wide cell.** -/
theorem writeText_ok (h : grid.Whole) (hrow : row < grid.height) (hcol : col < grid.width)
    (text : List Char) (hlId : UInt64) : ∃ end' written,
      grid.writeText widths row col text hlId = .ok (end', written) ∧ written.Whole ∧
        SameSize written grid := by
  obtain ⟨end', written, hwritten, hrest⟩ := @writeClusters_ok grid row col widths h hrow hlId text
  refine ⟨end', written, ?_, hrest⟩
  rw [writeText, if_neg (by omega)]
  exact hwritten

end Grid

end Oxvim.Ui
