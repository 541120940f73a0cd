import Oxvim.Ui.GridWhole
import Oxvim.Ui.MessageWrap

/-!
# The popup menu drawn on the grid

The fallback for a UI that does not draw popup menus. It fits a window of the item list below the
anchor, scrolls the window so that the selected item is in it, and draws a row for each item and a
scrollbar for a list that is longer than the window.

Texts are decoded; a list is held in memory, so that sums of its length with small numbers do not
overflow. A division by zero panics.
-/

namespace Oxvim.Ui

open Lib

/-- Default maximum number of rows. -/
def pumDefHeight : Nat := 10

/-- Default minimum width. -/
def pumMinWidth : Nat := 15

/-- One item of the menu. -/
structure PopupItem where
  word : List Char
  kind : List Char
  menu : List Char
  deriving DecidableEq, Repr

/-- The menu with its anchor and the widths of the columns of words, kinds and annotations. -/
structure PopupmenuState where
  items : List PopupItem
  selected : Int
  row : Nat
  col : Nat
  wordWidth : Nat
  kindWidth : Nat
  menuWidth : Nat
  deriving DecidableEq, Repr

/-- Where the drawing ends early. -/
inductive PopupFailure where
  | divisionByZero
  | grid (error : GridError)
  deriving DecidableEq, Repr

/-- Integer division. -/
def divide (a b : Nat) : Except PopupFailure Nat :=
  if b = 0 then .error .divisionByZero else .ok (a / b)

/-- The window of the list and the scrollbar. -/
structure PopupLayout where
  selected : Int
  firstRow : Nat
  height : Nat
  width : Nat
  scrollbar : Bool
  first : Nat
  thumbPos : Nat
  thumbHeight : Nat
  deriving DecidableEq, Repr

namespace PopupmenuState

/-- The selected item, the last one where the index is too large, or -1. -/
def selectedItem (self : PopupmenuState) : Int :=
  if self.selected < 0 then -1 else min self.selected (clampI64 self.items.length - 1)

/-- The first item shown: a few lines of context are kept around the selected item. -/
def firstShown (size height : Nat) (selected : Int) : Nat :=
  let context := height / 2
  let maxFirst := size - height
  if height > 2 ∧ selected ≥ 0 then
    let scrollDown := selected - context
    let scrollUp := selected + context - height + 1
    let first := if 0 > scrollDown then (max scrollDown 0).toNat
      else if 0 < scrollUp then (max scrollUp 0).toNat else 0
    min first maxFirst
  else if selected ≥ 0 then
    min (max (selected - height + 1) 0).toNat maxFirst
  else 0

/-- The position and the height of the scrollbar's thumb, if there is a scrollbar. -/
def thumb (size height first : Nat) : Except PopupFailure (Nat × Nat) := do
  let scrollbar : Bool := size > height
  let scrollRange := size - height
  let thumbHeight ← if scrollbar then (max · 1) <$> divide (height * height) size else .ok 0
  let thumbPos ← if scrollbar ∧ scrollRange > 0 then
      divide (first * (height - thumbHeight) + scrollRange / 2) scrollRange
    else .ok 0
  return (thumbPos, thumbHeight)

/-- The layout on a grid, none where there is no room. -/
def layout (self : PopupmenuState) (gridWidth gridHeight : Nat) :
    Except PopupFailure (Option PopupLayout) :=
  if gridHeight = 0 ∨ gridWidth = 0 ∨ self.items = [] then .ok none
  else if self.row ≥ gridHeight ∨ self.col ≥ gridWidth then .ok none
  else
    let totalWidth := max (self.wordWidth + self.kindWidth + self.menuWidth) pumMinWidth
    let selected := self.selectedItem
    let firstRow := self.row + 1
    let availableHeight := gridHeight - firstRow - 1
    let size := self.items.length
    let height := min (min size availableHeight) pumDefHeight
    if height = 0 then .ok none
    else
      let scrollbar : Bool := size > height
      let availableWidth := gridWidth - self.col
      let width := if scrollbar then min totalWidth (availableWidth - 1)
        else min totalWidth availableWidth
      if width = 0 then .ok none
      else do
        let first := firstShown size height selected
        let (thumbPos, thumbHeight) ← thumb size height first
        return some { selected, firstRow, height, width, scrollbar, first, thumbPos, thumbHeight }

end PopupmenuState

/-! ## Drawing -/

/-- How many characters fit `maxWidth` columns behind `w`: `char_prefix_end`. -/
def charPrefixLength (widths : UnicodeWidth) (maxWidth : Nat) : List Char → (w : Nat) → Nat
  | [], _ => 0
  | character :: text, w =>
    if w + widths.cols character > maxWidth then 0
    else 1 + charPrefixLength widths maxWidth text (w + widths.cols character)

namespace Grid

/-- Writes what fits, and nothing behind the edge. -/
def writeTruncated (widths : UnicodeWidth) (self : Grid) (row startCol : Nat) (text : List Char)
    (maxWidth : Nat) (hlId : UInt64) : Except GridError Grid :=
  if maxWidth = 0 ∨ startCol ≥ self.width then .ok self
  else do
    let (_, written) ← self.writeText widths row startCol
      (text.take (charPrefixLength widths maxWidth text 0)) hlId
    return written

/-- A kind or an annotation, in its column behind a blank. -/
def writeColumn (widths : UnicodeWidth) (self : Grid) (row col : Nat) (text : List Char)
    (columnWidth : Nat) (hlId : UInt64) : Except GridError Grid :=
  if columnWidth > 0 then
    let textWidth := min (widths.str text) (columnWidth - 1)
    self.writeTruncated widths row (col + 1)
      (text.take (charPrefixLength widths textWidth text 0)) textWidth hlId
  else .ok self

end Grid

/-- The highlights of the menu. -/
structure PopupHighlights where
  pmenu : UInt64
  pmenuSel : UInt64
  pmenuSbar : UInt64
  pmenuThumb : UInt64

/-- The groups that are defined, each with the one it falls back to. -/
def PopupHighlights.ofGroups (groupId : String → Option UInt64) : PopupHighlights :=
  let pmenu := (groupId "Pmenu").getD 0
  let pmenuSbar := (groupId "PmenuSbar").getD pmenu
  { pmenu, pmenuSbar
    pmenuSel := (groupId "PmenuSel").getD pmenu
    pmenuThumb := (groupId "PmenuThumb").getD pmenuSbar }

namespace PopupmenuState

/-- Draws the item in row `i` of the menu. -/
def drawItem (widths : UnicodeWidth) (groups : PopupHighlights) (self : PopupmenuState)
    (layout : PopupLayout) (grid : Grid) (item : PopupItem) (i : Nat) : Except GridError Grid := do
  let idx := layout.first + i
  let isSelected : Bool := layout.selected ≥ 0 ∧ (idx : Int) = layout.selected
  let row := layout.firstRow + i
  let rowAttr := if isSelected then groups.pmenuSel else groups.pmenu
  let cleared ← if self.col + layout.width ≤ grid.width then
      Prod.snd <$> grid.writeText widths row self.col (List.replicate layout.width ' ') rowAttr
    else .ok grid
  let worded ← cleared.writeTruncated widths row self.col item.word self.wordWidth rowAttr
  let kindCol := self.col + self.wordWidth
  let kinded ← worded.writeColumn widths row kindCol item.kind self.kindWidth rowAttr
  let menuCol := kindCol + self.kindWidth
  let drawn ← kinded.writeColumn widths row menuCol item.menu self.menuWidth rowAttr
  if layout.scrollbar then
    let thumb : Bool := i ≥ layout.thumbPos ∧ i < layout.thumbPos + layout.thumbHeight
    let sbarAttr := if thumb then groups.pmenuThumb else groups.pmenuSbar
    let sbarCol := self.col + layout.width
    if sbarCol < drawn.width then drawn.put row sbarCol [0x20] sbarAttr 1 else return drawn
  else return drawn

/-- The items of the window with their rows. -/
def shown (self : PopupmenuState) (layout : PopupLayout) : List (PopupItem × Nat) :=
  ((self.items.drop layout.first).take layout.height).zipIdx

/-- Draws the menu: `apply_popupmenu_fallback`. -/
def draw (widths : UnicodeWidth) (groupId : String → Option UInt64) (self : PopupmenuState)
    (grid : Grid) : Except PopupFailure Grid := do
  match ← self.layout grid.width grid.height with
  | none => return grid
  | some layout =>
    let drawn := (self.shown layout).foldlM (fun grid (item, i) =>
      self.drawItem widths (.ofGroups groupId) layout grid item i) grid
    drawn.mapError .grid

end PopupmenuState

/-! ## The layout -/

namespace PopupmenuState

/-- The window lies in the list. -/
theorem firstShown_le (size height : Nat) (selected : Int) :
    firstShown size height selected ≤ size - height := by
  unfold firstShown
  dsimp only
  split
  · exact Nat.min_le_right ..
  · split
    · exact Nat.min_le_right ..
    · exact Nat.zero_le _

/-- The selected item lies in the window. -/
theorem firstShown_selected {size height : Nat} {selected : Int} (hheight : 0 < height)
    (hfits : height ≤ size) (hselected : 0 ≤ selected) (hsize : selected < size) :
    (firstShown size height selected : Int) ≤ selected ∧
      selected < firstShown size height selected + height := by
  unfold firstShown
  dsimp only
  split
  · split
    · omega
    · split
      · omega
      · omega
  · omega

theorem divide_ok {a b : Nat} (h : b ≠ 0) : divide a b = .ok (a / b) := if_neg h

theorem selectedItem_lt {self : PopupmenuState} (hitems : self.items ≠ []) :
    self.selectedItem < self.items.length := by
  have hpos := List.length_pos_of_ne_nil hitems
  unfold selectedItem clampI64
  split
  · omega
  · split
    · omega
    · omega

/-- The thumb is at least a row and at most the whole height. -/
theorem thumbHeight_le {size height : Nat} (hheight : 0 < height) (hfits : height ≤ size) :
    max (height * height / size) 1 ≤ height := by
  refine max_le ?_ hheight
  exact Nat.div_le_of_le_mul (Nat.mul_le_mul_right height hfits)

/-- The thumb ends within the height. -/
theorem thumbPos_le {first room range : Nat} (hrange : 0 < range) (hfirst : first ≤ range) :
    (first * room + range / 2) / range ≤ room := by
  rw [← Nat.lt_succ_iff, Nat.div_lt_iff_lt_mul hrange]
  have hle := Nat.mul_le_mul_right room hfirst
  have hhalf : range / 2 < range := Nat.div_lt_self hrange (by decide)
  calc first * room + range / 2 < range * room + range := by omega
    _ = (room + 1) * range := by ring

/-- No division is by zero, and the thumb ends within the height. -/
theorem thumb_ok {size height first : Nat} (hheight : 0 < height) (hfits : height ≤ size)
    (hfirst : first ≤ size - height) :
    ∃ pos thumbHeight, thumb size height first = .ok (pos, thumbHeight) ∧
      pos + thumbHeight ≤ height := by
  by_cases hbar : size > height
  · have hrange : size - height > 0 := by omega
    have hthumb := thumbHeight_le hheight hfits
    let room := height - max (height * height / size) 1
    have hpos : (first * room + (size - height) / 2) / (size - height) ≤ room :=
      thumbPos_le hrange hfirst
    refine ⟨_, _, ?_, (Nat.add_le_add_right hpos _).trans (Nat.sub_add_cancel hthumb).le⟩
    simp only [thumb, hbar, decide_true, if_true, hrange, and_self,
      divide_ok (show size ≠ 0 by omega), divide_ok hrange.ne']
    rfl
  · refine ⟨0, 0, ?_, Nat.zero_le _⟩
    simp only [thumb, hbar, decide_false, Bool.false_eq_true, if_false, false_and]
    rfl

/-- **The layout shows the selection**: the rows and the columns lie in the grid, the window in the
list with the selected item in it, and the thumb in the window's height. -/
structure ShowsSelection (state : PopupmenuState) (gridWidth gridHeight : Nat)
    (layout : PopupLayout) : Prop where
  col : state.col < gridWidth
  height : 0 < layout.height
  rows : layout.firstRow + layout.height ≤ gridHeight
  cols : state.col + layout.width ≤ gridWidth
  window : layout.first + layout.height ≤ state.items.length
  selected : layout.selected = state.selectedItem
  shown : 0 ≤ state.selected →
    (layout.first : Int) ≤ layout.selected ∧ layout.selected < layout.first + layout.height
  thumb : layout.thumbPos + layout.thumbHeight ≤ layout.height

theorem selectedItem_nonneg {self : PopupmenuState} (hitems : self.items ≠ [])
    (h : 0 ≤ self.selected) : 0 ≤ self.selectedItem := by
  have hpos := List.length_pos_of_ne_nil hitems
  unfold selectedItem clampI64
  split
  · omega
  · split
    · omega
    · omega

/-- No division is by zero, and what there is room for shows the selection. -/
theorem layout_spec (self : PopupmenuState) (gridWidth gridHeight : Nat) :
    ∃ layout, self.layout gridWidth gridHeight = .ok layout ∧
      ∀ l, layout = some l → self.ShowsSelection gridWidth gridHeight l := by
  have hnone : ∀ {r : Except PopupFailure (Option PopupLayout)}, r = .ok none →
      ∃ layout, r = .ok layout ∧
        ∀ l, layout = some l → self.ShowsSelection gridWidth gridHeight l :=
    fun h => ⟨none, h, by simp⟩
  unfold PopupmenuState.layout
  by_cases hgrid : gridHeight = 0 ∨ gridWidth = 0 ∨ self.items = []
  · exact hnone (if_pos hgrid)
  rw [if_neg hgrid]
  by_cases hanchor : self.row ≥ gridHeight ∨ self.col ≥ gridWidth
  · exact hnone (if_pos hanchor)
  rw [if_neg hanchor]
  dsimp only
  obtain ⟨height, hheight⟩ : ∃ height, height =
    min (min self.items.length (gridHeight - (self.row + 1) - 1)) pumDefHeight := ⟨_, rfl⟩
  rw [← hheight]
  by_cases hzero : height = 0
  · exact hnone (if_pos hzero)
  rw [if_neg hzero]
  have hitems : self.items ≠ [] := fun h => hgrid (.inr (.inr h))
  have hselected := selectedItem_lt hitems
  have hfits : height ≤ self.items.length := by omega
  have hfirst := firstShown_le self.items.length height self.selectedItem
  obtain ⟨width, hwidth, hwidthLe⟩ : ∃ width, width =
      (if (decide (self.items.length > height)) = true then
        min (max (self.wordWidth + self.kindWidth + self.menuWidth) pumMinWidth)
          (gridWidth - self.col - 1)
      else min (max (self.wordWidth + self.kindWidth + self.menuWidth) pumMinWidth)
        (gridWidth - self.col)) ∧ self.col + width ≤ gridWidth := by
    refine ⟨_, rfl, ?_⟩
    split
    · omega
    · omega
  rw [← hwidth]
  by_cases hnarrow : width = 0
  · exact hnone (if_pos hnarrow)
  rw [if_neg hnarrow]
  obtain ⟨pos, thumbHeight, hthumb, hend⟩ := thumb_ok (by omega) hfits hfirst
  rw [hthumb]
  refine ⟨_, rfl, fun l hl => ?_⟩
  obtain rfl := Option.some.inj hl
  exact {
    col := by omega
    height := by dsimp only; omega
    rows := by dsimp only; omega
    cols := hwidthLe
    window := by dsimp only; omega
    selected := rfl
    shown := fun h => firstShown_selected (by omega) hfits (selectedItem_nonneg hitems h) hselected
    thumb := hend }

end PopupmenuState

/-! ## Drawing inside the grid -/

namespace Grid

variable {grid : Grid} {row col : Nat} {widths : UnicodeWidth}

/-- Clearing inside the grid succeeds. -/
theorem clearGraphemeAt_inside (hrow : row < grid.height) (hcol : col < grid.width) :
    ∃ cleared, grid.clearGraphemeAt row col = .ok cleared ∧ SameSize cleared grid := by
  unfold clearGraphemeAt
  rw [index_ok hrow hcol]
  refine ⟨_, rfl, ?_⟩
  split
  · exact (sameSize_setCell _).trans (sameSize_resetBlank _)
  · exact sameSize_resetBlank _

/-- Steps that succeed and keep the size, one after another. -/
theorem foldlM_inside {α : Type} {f : Grid → α → Except GridError Grid} {as : List α}
    (hstep : ∀ a ∈ as, ∀ g : Grid, SameSize g grid →
      ∃ t, f g a = .ok t ∧ SameSize t grid) {g : Grid} (hg : SameSize g grid) :
    ∃ t, as.foldlM f g = .ok t ∧ SameSize t grid := by
  induction as generalizing g with
  | nil => exact ⟨g, rfl, hg⟩
  | cons a as ih =>
    obtain ⟨next, hnext, hsize⟩ := hstep a (List.mem_cons_self ..) g hg
    obtain ⟨t, hrun, ht⟩ := ih (fun a ha => hstep a (List.mem_cons_of_mem _ ha)) hsize
    refine ⟨t, ?_, ht⟩
    rw [List.foldlM_cons, hnext]
    exact hrun

/-- A put inside the grid succeeds, whatever the cells are. -/
theorem put_inside (hrow : row < grid.height) {width : UInt8} (hpos : 0 < width.toNat)
    (hfits : col + width.toNat ≤ grid.width) (text : List UInt8) (hlId : UInt64) :
    ∃ written, grid.put row col text hlId width = .ok written ∧ SameSize written grid := by
  have hnot : ¬(width = 0 ∨ col + width.toNat > grid.width) := by
    rintro (rfl | hgt)
    · exact absurd hpos (by decide)
    · omega
  have hclear : ∀ c ∈ (List.range' col width.toNat).reverse, ∀ g, SameSize g grid →
      ∃ t, g.clearGraphemeAt row c = .ok t ∧ SameSize t grid := by
    intro c hc g hg
    rw [List.mem_reverse, List.mem_range'_1] at hc
    have hcol : c < g.width := by
      rw [hg.width]
      omega
    obtain ⟨t, ht, hsize⟩ := clearGraphemeAt_inside (hg.height ▸ hrow) hcol
    exact ⟨t, ht, hsize.trans hg⟩
  obtain ⟨cleared, hcleared, hsize⟩ := foldlM_inside hclear (.refl grid)
  have hlead : cleared.writeCell row col text hlId width
      = .ok (cleared.setCell row col ⟨text, hlId, width⟩) :=
    writeCell_ok (hsize.height ▸ hrow) (by rw [hsize.width]; omega)
      (.inr (by rw [hsize.width]; exact hfits)) text hlId
  have hcontinue : ∀ k ∈ List.range' 1 (width.toNat - 1), ∀ g, SameSize g grid →
      ∃ t, g.writeCell row (col + k) [] hlId 0 = .ok t ∧ SameSize t grid := by
    intro k hk g hg
    rw [List.mem_range'_1] at hk
    exact ⟨_, writeCell_ok (hg.height ▸ hrow) (by rw [hg.width]; omega) (.inl (by decide)) [] hlId,
      (sameSize_setCell _).trans hg⟩
  obtain ⟨written, hwritten, hsize'⟩ :=
    foldlM_inside hcontinue ((sameSize_setCell ⟨text, hlId, width⟩).trans hsize)
  refine ⟨written, ?_, hsize'⟩
  rw [put, if_neg hnot]
  simp only [bind, Except.bind, hcleared, hlead]
  exact hwritten

/-- Text that begins inside the grid is written, whatever the cells are. -/
theorem writeClusters_inside (hrow : row < grid.height) (hlId : UInt64) (text : List Char) :
    ∃ last written, grid.writeClusters widths row col hlId text = .ok (last, written) ∧
      SameSize written grid := by
  induction hn : text.length using Nat.strongRecOn generalizing grid col text with
  | ind n ih =>
    subst hn
    cases text with
    | nil => exact ⟨col, grid, by rw [writeClusters], .refl grid⟩
    | cons first rest =>
      rw [writeClusters]
      split
      · dsimp only
        split
        · exact ⟨col, grid, rfl, .refl grid⟩
        · next hin hfits =>
          obtain ⟨hpos, hle⟩ := clusterWidth_fits
            (Nat.le_max_right (widths.str ((first :: rest).take
              (clusterLength widths (first :: rest)))) 1) (not_lt.mp hfits)
          obtain ⟨grid', hput, hsize⟩ := put_inside hrow hpos hle
            (Utf8.encode ((first :: rest).take (clusterLength widths (first :: rest)))) hlId
          rw [hput]
          have hlength : ((first :: rest).drop (clusterLength widths (first :: rest))).length
              < (first :: rest).length := by
            simp only [clusterLength, List.length_drop, List.length_cons]
            omega
          obtain ⟨last, written, hrun, hsize'⟩ := ih _ hlength (hsize.height ▸ hrow) _ rfl
          exact ⟨last, written, hrun, hsize'.trans hsize⟩
      · exact ⟨col, grid, rfl, .refl grid⟩

theorem writeText_inside (hrow : row < grid.height) (hcol : col < grid.width) (text : List Char)
    (hlId : UInt64) : ∃ last written,
      grid.writeText widths row col text hlId = .ok (last, written) ∧ SameSize written grid := by
  obtain ⟨last, written, hrun, hsize⟩ :=
    writeClusters_inside hrow hlId text
  refine ⟨last, written, ?_, hsize⟩
  rw [writeText, if_neg (by omega)]
  exact hrun

theorem writeTruncated_inside (hrow : row < grid.height) (text : List Char) (maxWidth : Nat)
    (hlId : UInt64) : ∃ written,
      grid.writeTruncated widths row col text maxWidth hlId = .ok written ∧
        SameSize written grid := by
  unfold writeTruncated
  split
  · exact ⟨grid, rfl, .refl grid⟩
  · obtain ⟨last, written, hrun, hsize⟩ := writeText_inside hrow
      (show col < grid.width by omega) (text.take (charPrefixLength widths maxWidth text 0)) hlId
    rw [hrun]
    exact ⟨written, rfl, hsize⟩

theorem writeColumn_inside (hrow : row < grid.height) (text : List Char) (columnWidth : Nat)
    (hlId : UInt64) : ∃ written,
      grid.writeColumn widths row col text columnWidth hlId = .ok written ∧
        SameSize written grid := by
  unfold writeColumn
  split
  · exact writeTruncated_inside hrow _ _ hlId
  · exact ⟨grid, rfl, .refl grid⟩

end Grid

namespace PopupmenuState

open Grid

variable {widths : UnicodeWidth} {groups : PopupHighlights} {self : PopupmenuState}
  {layout : PopupLayout} {grid : Grid}

/-- An item is drawn in a row of the grid. -/
theorem drawItem_inside (hlayout : self.ShowsSelection grid.width grid.height layout)
    (item : PopupItem) {i : Nat} (hi : i < layout.height) :
    ∃ drawn, self.drawItem widths groups layout grid item i = .ok drawn ∧ SameSize drawn grid := by
  have hrows := hlayout.rows
  obtain ⟨rowAttr, hattr⟩ : ∃ rowAttr, rowAttr =
    if decide (layout.selected ≥ 0 ∧ ((layout.first + i : Nat) : Int) = layout.selected) = true
      then groups.pmenuSel else groups.pmenu := ⟨_, rfl⟩
  obtain ⟨_, cleared, hclear, hcleared⟩ := writeText_inside
    (show layout.firstRow + i < grid.height by omega) hlayout.col
    (List.replicate layout.width ' ') rowAttr
  obtain ⟨worded, hword, hworded⟩ := writeTruncated_inside
    (show layout.firstRow + i < cleared.height by rw [hcleared.height]; omega) item.word
    self.wordWidth rowAttr
  obtain ⟨kinded, hkind, hkinded⟩ := writeColumn_inside
    (show layout.firstRow + i < worded.height by rw [hworded.height, hcleared.height]; omega)
    item.kind self.kindWidth rowAttr
  have hsize := hkinded.trans (hworded.trans hcleared)
  obtain ⟨menued, hmenu, hmenued⟩ := writeColumn_inside
    (show layout.firstRow + i < kinded.height by rw [hsize.height]; omega)
    item.menu self.menuWidth rowAttr
  have hsize := hmenued.trans hsize
  unfold drawItem
  dsimp only
  rw [← hattr, if_pos hlayout.cols, hclear]
  dsimp only [bind, Except.bind, pure, Except.pure, Functor.map, Except.map]
  rw [hword]
  dsimp only
  rw [hkind]
  dsimp only
  rw [hmenu]
  dsimp only
  split
  · split
    · next hbar hsbar =>
      obtain ⟨drawn, hput, hdrawn⟩ := put_inside
        (show layout.firstRow + i < menued.height by rw [hsize.height]; omega)
        (show 0 < (1 : UInt8).toNat by decide) hsbar [0x20]
        (if decide (i ≥ layout.thumbPos ∧ i < layout.thumbPos + layout.thumbHeight) = true
          then groups.pmenuThumb else groups.pmenuSbar)
      exact ⟨drawn, hput, hdrawn.trans hsize⟩
    · exact ⟨menued, rfl, hsize⟩
  · exact ⟨menued, rfl, hsize⟩

end PopupmenuState

end Oxvim.Ui
