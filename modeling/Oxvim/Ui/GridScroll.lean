import Oxvim.Lib.Moves
import Oxvim.Lib.Usize
import Oxvim.Ui.GridWhole

/-!
# Scrolling a region of the grid

A scroll shifts the cells of a rectangle in place, without a copy of it. It visits the rows and the
columns in the direction of the shift, so that every cell is read before it is overwritten.
-/

namespace Oxvim.Ui

open Lib

namespace Grid

/-- The rows or columns of a region in the order in which a shift by `delta` visits them. -/
def scrollOrder (first last : Nat) (delta : Int) : List Nat :=
  (List.range (last - first)).map fun index =>
    if 0 ≤ delta then first + index else last - 1 - index

/-- The cell of the region that a shift brings to a row and a column. -/
def scrollSource (top bottom left right : Nat) (rows cols : Int) (row col : Nat) :
    Option (Nat × Nat) :=
  match checkedAddSigned row rows, checkedAddSigned col cols with
  | some sourceRow, some sourceCol =>
    if top ≤ sourceRow ∧ sourceRow < bottom ∧ left ≤ sourceCol ∧ sourceCol < right then
      some (sourceRow, sourceCol)
    else none
  | _, _ => none

/-- Moves a cell into place and plants a blank behind it. -/
def scrollCell (self : Grid) (source : Option (Nat × Nat)) (row col : Nat) : Grid :=
  match source with
  | some (sourceRow, sourceCol) =>
    (self.setCell sourceRow sourceCol Cell.blank).setCell row col
      (self.cellAt sourceRow sourceCol)
  | none => self.setCell row col Cell.blank

/-- Scrolls a rectangular region. Newly exposed cells are blank. -/
def scroll (self : Grid) (top bottom left right : Nat) (rows cols : Int) : Except GridError Grid :=
  if top > bottom ∨ left > right ∨ bottom > self.height ∨ right > self.width then
    .error (.outOfBounds bottom right self.width self.height)
  else if rows = 0 ∧ cols = 0 then .ok self
  else .ok <| (scrollOrder top bottom rows).foldl (fun grid row =>
    (scrollOrder left right cols).foldl (fun grid col =>
      grid.scrollCell (scrollSource top bottom left right rows cols row col) row col) grid) self

/-! ## The order of the cells -/

theorem mem_scrollOrder {first last : Nat} {delta : Int} {i : Nat} :
    i ∈ scrollOrder first last delta ↔ first ≤ i ∧ i < last := by
  rw [scrollOrder, List.mem_map]
  constructor
  · rintro ⟨index, hindex, rfl⟩
    rw [List.mem_range] at hindex
    split
    · omega
    · omega
  · rintro ⟨hfirst, hlast⟩
    by_cases hdelta : 0 ≤ delta
    · exact ⟨i - first, by rw [List.mem_range]; omega, by rw [if_pos hdelta]; omega⟩
    · exact ⟨last - 1 - i, by rw [List.mem_range]; omega, by rw [if_neg hdelta]; omega⟩

/-- A shift that is not upward visits in ascending order, another in descending order. -/
theorem scrollOrder_pairwise (first last : Nat) (delta : Int) :
    (scrollOrder first last delta).Pairwise fun i j => if 0 ≤ delta then i < j else j < i := by
  rw [scrollOrder, List.pairwise_map]
  refine List.pairwise_lt_range.imp_of_mem ?_
  intro i j hi hj hlt
  rw [List.mem_range] at hi hj
  split
  · omega
  · omega

/-- The cells of the region in the order in which a scroll visits them. -/
def scrollCells (top bottom left right : Nat) (rows cols : Int) : List (Nat × Nat) :=
  scrollOrder top bottom rows ×ˢ scrollOrder left right cols

variable {top bottom left right : Nat} {rows cols : Int}

theorem mem_scrollCells {row col : Nat} :
    (row, col) ∈ scrollCells top bottom left right rows cols ↔
      (top ≤ row ∧ row < bottom) ∧ left ≤ col ∧ col < right := by
  rw [scrollCells, List.mem_product, mem_scrollOrder, mem_scrollOrder]

/-- The source of a cell lies where the shift says. -/
theorem scrollSource_eq_some {row col r c : Nat} :
    scrollSource top bottom left right rows cols row col = some (r, c) ↔
      (r : Int) = row + rows ∧ (c : Int) = col + cols ∧ r ≤ usizeMax ∧ c ≤ usizeMax ∧
        top ≤ r ∧ r < bottom ∧ left ≤ c ∧ c < right := by
  unfold scrollSource checkedAddSigned
  by_cases hrow : 0 ≤ row + rows ∧ row + rows ≤ usizeMax
  · by_cases hcol : 0 ≤ col + cols ∧ col + cols ≤ usizeMax
    · rw [if_pos hrow, if_pos hcol]
      dsimp only
      split
      · simp only [Option.some.injEq, Prod.mk.injEq]
        omega
      · simp only [reduceCtorEq, false_iff]
        omega
    · rw [if_pos hrow, if_neg hcol]
      simp only [reduceCtorEq, false_iff]
      omega
  · rw [if_neg hrow]
    simp only [reduceCtorEq, false_iff]
    omega

/-- **A source is read before it is visited.** -/
theorem scrollCells_readFirst (hshift : ¬(rows = 0 ∧ cols = 0)) :
    (scrollCells top bottom left right rows cols).Pairwise
      (ReadFirst fun d => scrollSource top bottom left right rows cols d.1 d.2) := by
  -- the sources of two cells differ as the cells do
  have hapart : ∀ {a b : Nat × Nat}, a ≠ b →
      (∀ r c, scrollSource top bottom left right rows cols b.1 b.2 = some (r, c) → (r, c) ≠ a) →
      ReadFirst (fun d => scrollSource top bottom left right rows cols d.1 d.2) a b := by
    intro a b hne hsource s hs
    refine ⟨hsource s.1 s.2 hs, fun hother => hne ?_⟩
    have ha := scrollSource_eq_some.mp hother
    have hb := scrollSource_eq_some.mp hs
    exact Prod.ext (by omega) (by omega)
  refine pairwise_product ?_ fun row => ?_
  · refine (scrollOrder_pairwise top bottom rows).imp ?_
    intro row row' hbefore col col'
    have hne : row ≠ row' := by
      split at hbefore
      · omega
      · omega
    refine hapart (fun h => hne (congrArg Prod.fst h)) fun r c hs heq => ?_
    have hr : r = row := congrArg Prod.fst heq
    have hsource := (scrollSource_eq_some.mp hs).1
    split at hbefore
    · omega
    · omega
  · refine (scrollOrder_pairwise left right cols).imp ?_
    intro col col' hbefore
    have hne : col ≠ col' := by
      split at hbefore
      · omega
      · omega
    refine hapart (fun h => hne (congrArg Prod.snd h)) fun r c hs heq => ?_
    have hr : r = row := congrArg Prod.fst heq
    have hc : c = col := congrArg Prod.snd heq
    obtain ⟨hrow, hcol, -⟩ := scrollSource_eq_some.mp hs
    dsimp only at hrow hcol
    split at hbefore
    · omega
    · omega

theorem nodup_scrollCells : (scrollCells top bottom left right rows cols).Nodup := by
  have hnodup : ∀ first last delta, (scrollOrder first last delta).Nodup := by
    intro first last delta
    refine (scrollOrder_pairwise first last delta).imp fun h => ?_
    split at h
    · exact h.ne
    · exact h.ne'
  exact (hnodup ..).product (hnodup ..)

/-! ## The shift -/

variable {grid : Grid}

/-- The cells of the grid are the values. -/
def Shows (grid : Grid) (values : Nat × Nat → Cell) : Prop :=
  ∀ r c, r < grid.height → c < grid.width → grid.cellAt r c = values (r, c)

/-- Moving a cell of the grid moves a value. -/
theorem Shows.scrollCell {values : Nat × Nat → Cell} (h : grid.Shows values)
    {source : Nat × Nat → Option (Nat × Nat)} {d : Nat × Nat} (hrow : d.1 < grid.height)
    (hcol : d.2 < grid.width)
    (hsource : ∀ s, source d = some s → s.1 < grid.height ∧ s.2 < grid.width) :
    (grid.scrollCell (source d) d.1 d.2).Shows (moveTo source Cell.blank values d) ∧
      SameSize (grid.scrollCell (source d) d.1 d.2) grid ∧
      (grid.scrollCell (source d) d.1 d.2).wraps = grid.wraps := by
  cases hs : source d with
  | none =>
    refine ⟨fun r c (hr : r < grid.height) hc => ?_, sameSize_setCell _, rfl⟩
    rw [moveTo_none hs, Grid.scrollCell, cellAt_setCell hrow hcol _ hc, Function.update_apply,
      h r c hr hc]
    simp only [Prod.ext_iff]
  | some s =>
    obtain ⟨hsrow, hscol⟩ := hsource s hs
    refine ⟨fun r c (hr : r < grid.height) (hc : c < grid.width) => ?_,
      (sameSize_setCell _).trans (sameSize_setCell _), rfl⟩
    have hrow' : d.1 < (grid.setCell s.1 s.2 Cell.blank).height := hrow
    have hcol' : d.2 < (grid.setCell s.1 s.2 Cell.blank).width := hcol
    rw [moveTo_some hs, Grid.scrollCell, cellAt_setCell hrow' hcol' _ hc,
      cellAt_setCell hsrow hscol _ hc, Function.update_apply, Function.update_apply,
      h r c hr hc, h s.1 s.2 hsrow hscol]
    simp only [Prod.ext_iff]

theorem Shows.scrollAll {source : Nat × Nat → Option (Nat × Nat)} {order : List (Nat × Nat)}
    (hsource : ∀ d s, source d = some s → s.1 < grid.height ∧ s.2 < grid.width)
    (horder : ∀ d ∈ order, d.1 < grid.height ∧ d.2 < grid.width)
    {values : Nat × Nat → Cell} (h : grid.Shows values) :
    (order.foldl (fun grid d => grid.scrollCell (source d) d.1 d.2) grid).Shows
        (moveAll source Cell.blank order values) ∧
      SameSize (order.foldl (fun grid d => grid.scrollCell (source d) d.1 d.2) grid) grid ∧
      (order.foldl (fun grid d => grid.scrollCell (source d) d.1 d.2) grid).wraps = grid.wraps := by
  induction order generalizing grid values with
  | nil => exact ⟨h, .refl grid, rfl⟩
  | cons d order ih =>
    obtain ⟨hrow, hcol⟩ := horder d (List.mem_cons_self ..)
    obtain ⟨hshows, hsize, hwraps⟩ := h.scrollCell hrow hcol (hsource d)
    obtain ⟨hshows', hsize', hwraps'⟩ := @ih (grid.scrollCell (source d) d.1 d.2)
      (by rwa [hsize.height, hsize.width])
      (by
        rw [hsize.height, hsize.width]
        exact fun d hd => horder d (List.mem_cons_of_mem _ hd)) _ hshows
    exact ⟨hshows', hsize'.trans hsize, hwraps'.trans hwraps⟩

/-- **A scroll is a shift.** In a region within the grid each cell becomes the one that the shift
brings there from within the region, and is blank where that lies outside; all other cells stay. -/
theorem scroll_spec (grid : Grid) (top bottom left right : Nat) (rows cols : Int) :
    (top ≤ bottom ∧ left ≤ right ∧ bottom ≤ grid.height ∧ right ≤ grid.width →
      ∃ scrolled, grid.scroll top bottom left right rows cols = .ok scrolled ∧
        SameSize scrolled grid ∧ scrolled.wraps = grid.wraps ∧
        ∀ r c, r < grid.height → c < grid.width → scrolled.cellAt r c =
          if (top ≤ r ∧ r < bottom) ∧ left ≤ c ∧ c < right then
            if ((top : Int) ≤ r + rows ∧ r + rows < bottom) ∧
                (left : Int) ≤ c + cols ∧ c + cols < right then
              grid.cellAt (r + rows).toNat (c + cols).toNat
            else Cell.blank
          else grid.cellAt r c) ∧
    (¬(top ≤ bottom ∧ left ≤ right ∧ bottom ≤ grid.height ∧ right ≤ grid.width) →
      ∃ e, grid.scroll top bottom left right rows cols = .error e) := by
  constructor
  · rintro ⟨htop, hleft, hbottom, hright⟩
    unfold scroll
    rw [if_neg (by omega)]
    by_cases hzero : rows = 0 ∧ cols = 0
    · obtain ⟨rfl, rfl⟩ := hzero
      rw [if_pos ⟨rfl, rfl⟩]
      refine ⟨grid, rfl, .refl grid, rfl, fun r c _ _ => ?_⟩
      grind
    · rw [if_neg hzero]
      let source (d : Nat × Nat) := scrollSource top bottom left right rows cols d.1 d.2
      let values (d : Nat × Nat) := grid.cellAt d.1 d.2
      have hsource : ∀ d s, source d = some s → s.1 < grid.height ∧ s.2 < grid.width := by
        intro d s hs
        have := scrollSource_eq_some.mp hs
        omega
      have horder : ∀ d ∈ scrollCells top bottom left right rows cols,
          d.1 < grid.height ∧ d.2 < grid.width := by
        intro d hd
        have := mem_scrollCells.mp hd
        omega
      have hstart : grid.Shows values := fun r c _ _ => rfl
      obtain ⟨hshows, hsize, hwraps⟩ := hstart.scrollAll hsource horder
      rw [scrollCells, foldl_product] at hshows hsize hwraps
      refine ⟨_, rfl, hsize, hwraps, fun r c hr hc => ?_⟩
      refine (hshows r c (hsize.height ▸ hr) (hsize.width ▸ hc)).trans ?_
      by_cases hin : (top ≤ r ∧ r < bottom) ∧ left ≤ c ∧ c < right
      · rw [if_pos hin, ← scrollCells, moveAll_apply nodup_scrollCells
          (scrollCells_readFirst hzero) values (mem_scrollCells.mpr hin)]
        have hsmall : bottom ≤ usizeMax ∧ right ≤ usizeMax := by
          have := grid.wraps_small
          have := grid.wraps_length
          have := grid.cells_small
          have := grid.cells_length
          have := Nat.le_mul_of_pos_right grid.width (show 0 < grid.height by omega)
          unfold usizeMax
          omega
        split
        · next hsource =>
          have hs : scrollSource top bottom left right rows cols r c
              = some ((r + rows).toNat, (c + cols).toNat) :=
            scrollSource_eq_some.mpr (by omega)
          rw [hs]
          rfl
        · next hsource =>
          have hs : scrollSource top bottom left right rows cols r c = none := by
            rw [Option.eq_none_iff_forall_ne_some]
            intro s hs
            have := scrollSource_eq_some.mp hs
            omega
          rw [hs]
          rfl
      · rw [if_neg hin, ← scrollCells, moveAll_of_not_mem (fun h => hin (mem_scrollCells.mp h)),
          if_neg]
        rintro ⟨d, -, hs⟩
        have := scrollSource_eq_some.mp hs
        omega
  · intro hout
    unfold scroll
    rw [if_pos (by omega)]
    exact ⟨_, rfl⟩

end Grid

end Oxvim.Ui
