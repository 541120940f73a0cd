import Oxvim.Ui.GridLines

/-!
# Lines bring a screen up to date

What a screen shows of a grid is its `view`. The lines of `full_lines` turn any screen into the view
of the grid; the lines of `diff_and_sync` turn the view of the previous grid into the view of the
grid that `diff_and_sync` leaves as previous, which is the new grid but for the wrap flags of rows
without cells.
-/

namespace Oxvim.Ui

namespace Grid

/-- What a client that mirrors the grid shows. -/
def view (self : Grid) : Screen :=
  fun row col => if row < self.height ∧ col < self.width then
    (self.cells[row * self.width + col]?).map Cell.shown else none

/-! ## Rows -/

theorem row_eq {self : Grid} {row : Nat} (h : row < self.height) :
    self.row row = (self.cells.drop (row * self.width)).take self.width :=
  if_neg (Nat.not_le.mpr h)

/-- The cells of a row end before the next row begins. -/
theorem index_lt {row col width height : Nat} (hrow : row < height) (hcol : col < width) :
    row * width + col < width * height := by
  calc row * width + col < row * width + width := Nat.add_lt_add_left hcol _
    _ = (row + 1) * width := (Nat.succ_mul row width).symm
    _ ≤ height * width := Nat.mul_le_mul_right width hrow
    _ = width * height := Nat.mul_comm height width

theorem getElem?_row {self : Grid} {row col : Nat} (hrow : row < self.height)
    (hcol : col < self.width) : (self.row row)[col]? = self.cells[row * self.width + col]? := by
  rw [row_eq hrow, List.getElem?_take_of_lt hcol, List.getElem?_drop]

theorem length_row {self : Grid} {row : Nat} (h : row < self.height) :
    (self.row row).length = self.width := by
  have hend : (row + 1) * self.width ≤ self.height * self.width := Nat.mul_le_mul_right _ h
  rw [Nat.succ_mul, Nat.mul_comm self.height] at hend
  rw [row_eq h, List.length_take, List.length_drop, self.cells_length]
  omega

theorem row_subset {self : Grid} {row : Nat} : self.row row ⊆ self.cells := by
  unfold Grid.row
  split
  · simp
  · exact fun c hc => List.mem_of_mem_drop (List.mem_of_mem_take hc)

theorem length_row_le (self : Grid) (row : Nat) : (self.row row).length ≤ self.cells.length := by
  unfold Grid.row
  split
  · exact Nat.zero_le _
  · rw [List.length_take, List.length_drop]
    omega

/-- Indices of one row and columns of one span. -/
theorem mem_span_iff (row first : Nat) {last : Nat} (r : Nat) {c width : Nat} (hc : c < width) (hlast : last < width) :
    (row * width + first ≤ r * width + c ∧ r * width + c ≤ row * width + last) ↔
      r = row ∧ first ≤ c ∧ c ≤ last := by
  constructor
  · intro h
    have hrow : r = row := by
      rcases Nat.lt_trichotomy r row with hlt | heq | hgt
      · have hle := Nat.mul_le_mul_right width (Nat.succ_le_of_lt hlt)
        rw [Nat.succ_mul] at hle
        omega
      · exact heq
      · have hle := Nat.mul_le_mul_right width (Nat.succ_le_of_lt hgt)
        rw [Nat.succ_mul] at hle
        omega
    subst hrow
    omega
  · intro h
    obtain ⟨rfl, hfirst, hlast⟩ := h
    omega

theorem getElem?_copyRange {α : Type} (target source : List α) (first last i : Nat) :
    (copyRange target source first last)[i]? = (target[i]?).map fun a =>
      if first ≤ i ∧ i ≤ last then (source[i]?).getD a else a := by
  rw [copyRange, List.getElem?_mapIdx]

/-- A span that is copied is what the source shows there. -/
theorem view_syncSpan {self previous : Grid} (hwidth : previous.width = self.width)
    (hheight : previous.height = self.height) {row first last : Nat} (hlast : last < self.width)
    (r c : Nat) : (self.syncSpan previous row first last).view r c
      = if r = row ∧ first ≤ c ∧ c ≤ last then self.view r c else previous.view r c := by
  by_cases hrc : r < self.height ∧ c < self.width
  · have hspan := mem_span_iff row first r hrc.2 hlast
    have hindex := index_lt hrc.1 hrc.2
    have hself : r * self.width + c < self.cells.length := by rwa [self.cells_length]
    have hprevious : r * self.width + c < previous.cells.length := by
      rwa [previous.cells_length, hwidth, hheight]
    simp only [view, syncSpan, hwidth, hheight, getElem?_copyRange, hspan, if_pos hrc,
      List.getElem?_eq_getElem hself, List.getElem?_eq_getElem hprevious]
    split <;> rfl
  · simp only [view, syncSpan, hwidth, hheight, if_neg hrc, ite_self]

/-! ## The changed span of a row -/

/-- The last number of a range with a property. -/
theorem find?_reverse_range' (p : Nat → Bool) (first n : Nat) (hn : 0 < n) :
    first ≤ ((List.range' first n).reverse.find? p).getD first ∧
      ((List.range' first n).reverse.find? p).getD first < first + n ∧
      ∀ c, ((List.range' first n).reverse.find? p).getD first < c → c < first + n →
        p c = false := by
  cases hfind : (List.range' first n).reverse.find? p with
  | none =>
    refine ⟨Nat.le_refl _, Nat.lt_add_of_pos_right hn, ?_⟩
    intro c hfirst hc
    rw [List.find?_eq_none] at hfind
    have hnot := hfind c (by rw [List.mem_reverse, List.mem_range'_1]; simp at hfirst; omega)
    simpa using hnot
  | some l =>
    obtain ⟨-, before, behind, hsplit, hbefore⟩ := List.find?_eq_some_iff_append.mp hfind
    have hmem : l ∈ List.range' first n := by
      rw [← List.mem_reverse, hsplit]
      simp
    rw [List.mem_range'_1] at hmem
    refine ⟨hmem.1, hmem.2, ?_⟩
    intro c hlc hc
    rw [Option.getD_some] at hlc
    have hcmem : c ∈ before ++ l :: behind := by
      rw [← hsplit, List.mem_reverse, List.mem_range'_1]
      omega
    have hsorted : (List.range' first n).reverse.Pairwise (· > ·) := by
      rw [List.pairwise_reverse]
      exact List.pairwise_lt_range'
    rw [hsplit, List.pairwise_append, List.pairwise_cons] at hsorted
    -- behind `l` there are smaller numbers only
    rcases List.mem_append.mp hcmem with hb | hb
    · simpa using hbefore c hb
    · rcases List.mem_cons.mp hb with rfl | hb
      · omega
      · have hlt := hsorted.2.1.1 c hb
        omega

/-- A line that carries the columns from `first` to `last` of a row, the only ones that differ. -/
structure Span (current previous : Grid) (row : Nat) (line : GridLine) (first last : Nat) : Prop where
  line : line = ⟨row, first, encodeCells (((current.row row).take (last + 1)).drop first),
    (current.wraps[row]?).getD false⟩
  first_le : first ≤ last
  last_lt : last < current.width
  same : ∀ c, c < first ∨ last < c → (current.row row)[c]? = (previous.row row)[c]?

section ChangedRow

variable {self previous : Grid} {row : Nat} {continueWrap : Bool}

/-- In a grid of the same size the two rows are as long as each other. -/
theorem changedRow_eq (hwidth : previous.width = self.width) (hheight : previous.height = self.height)
    (hrow : row < self.height) (hpos : 0 < self.width) :
    self.changedRow previous row continueWrap =
      let changed := fun col => decide ((self.row row)[col]? ≠ (previous.row row)[col]?)
      let first := if continueWrap then some 0
        else (List.range self.width).find? changed <|>
          if self.wraps[row]? ≠ previous.wraps[row]? then some (self.width - 1) else none
      let wrap := (self.wraps[row]?).getD false
      first.map fun first =>
        let last := if wrap then self.width - 1
          else ((List.range' first (self.width - first)).reverse.find? changed).getD first
        (⟨row, first, encodeCells (((self.row row).take (last + 1)).drop first), wrap⟩,
          first, last) := by
  have hlength := length_row hrow
  have hold : (previous.row row).length = self.width := by
    rw [length_row (hheight ▸ hrow), hwidth]
  have hempty : (self.row row).isEmpty = false := by
    rw [List.isEmpty_eq_false_iff, ← List.length_pos_iff]
    omega
  simp only [changedRow, hempty, Bool.false_eq_true, if_false, hlength, hold, Nat.min_self,
    Nat.lt_irrefl, gt_iff_lt, Option.orElse_eq_orElse, Option.orElse_eq_or, Option.or_none]

theorem span_of_changedRow (hwidth : previous.width = self.width)
    (hheight : previous.height = self.height) (hrow : row < self.height) {line : GridLine}
    {first last : Nat} (h : self.changedRow previous row continueWrap = some (line, first, last)) :
    Span self previous row line first last := by
  have hpos : 0 < self.width := by
    rw [Nat.pos_iff_ne_zero]
    intro hzero
    have hempty : (self.row row).isEmpty = true := by
      rw [List.isEmpty_iff_length_eq_zero, length_row hrow, hzero]
    rw [changedRow] at h
    simp [hempty] at h
  rw [changedRow_eq hwidth hheight hrow hpos, Option.map_eq_some_iff] at h
  obtain ⟨f, hfirst, heq⟩ := h
  simp only [Prod.mk.injEq] at heq
  obtain ⟨hline, rfl, hlast⟩ := heq
  -- nothing differs before the first column, which lies in the row
  have hbefore : f < self.width ∧ ∀ c < f, (self.row row)[c]? = (previous.row row)[c]? := by
    cases continueWrap with
    | true =>
      obtain rfl := Option.some.inj hfirst
      exact ⟨hpos, fun c hc => absurd hc (Nat.not_lt_zero c)⟩
    | false =>
      rw [if_neg (by decide), Option.orElse_eq_orElse, Option.orElse_eq_or,
        Option.or_eq_some_iff] at hfirst
      rcases hfirst with hfound | hwrap
      · obtain ⟨-, hmem, hnone⟩ := List.find?_range_eq_some.mp hfound
        refine ⟨List.mem_range.mp hmem, ?_⟩
        intro c hc
        simpa using hnone c hc
      · obtain ⟨hnone, hwrap⟩ := hwrap
        rw [Option.ite_none_right_eq_some] at hwrap
        obtain rfl := Option.some.inj hwrap.2
        refine ⟨by omega, ?_⟩
        intro c hc
        simpa using List.find?_range_eq_none.mp hnone c (by omega)
  have hout : ∀ c, self.width ≤ c → (self.row row)[c]? = (previous.row row)[c]? := by
    intro c hc
    rw [List.getElem?_eq_none ((length_row hrow).trans_le hc),
      List.getElem?_eq_none ((length_row (hheight ▸ hrow)).trans_le (hwidth ▸ hc))]
  obtain ⟨hle, hlt, hbehind⟩ := find?_reverse_range'
    (fun col => decide ((self.row row)[col]? ≠ (previous.row row)[col]?)) f (self.width - f)
    (by omega)
  rw [hlast] at hline
  split at hlast
  · subst hlast
    refine ⟨hline.symm, by omega, by omega, ?_⟩
    intro c hc
    rcases hc with hc | hc
    · exact hbefore.2 c hc
    · exact hout c (by omega)
  · rw [hlast] at hle hlt hbehind
    refine ⟨hline.symm, hle, by omega, ?_⟩
    intro c hc
    rcases hc with hc | hc
    · exact hbefore.2 c hc
    · by_cases hcw : c < self.width
      · simpa using hbehind c hc (by omega)
      · exact hout c (by omega)

/-- A row for which no line is sent is as it was, and so is its flag. -/
theorem unchanged_of_changedRow (hwidth : previous.width = self.width)
    (hheight : previous.height = self.height) (hrow : row < self.height)
    (h : self.changedRow previous row continueWrap = none) :
    self.row row = previous.row row ∧
      (0 < self.width → self.wraps[row]? = previous.wraps[row]?) := by
  have hold : (previous.row row).length = self.width := by
    rw [length_row (hheight ▸ hrow), hwidth]
  rcases Nat.eq_zero_or_pos self.width with hzero | hpos
  · refine ⟨?_, fun hpos => absurd hzero (Nat.ne_of_gt hpos)⟩
    rw [List.length_eq_zero_iff.mp ((length_row hrow).trans hzero),
      List.length_eq_zero_iff.mp (hold.trans hzero)]
  rw [changedRow_eq hwidth hheight hrow hpos, Option.map_eq_none_iff] at h
  cases continueWrap with
  | true => cases h
  | false =>
    rw [if_neg (by decide), Option.orElse_eq_orElse, Option.orElse_eq_or,
      Option.or_eq_none_iff] at h
    obtain ⟨hnone, hwrap⟩ := h
    constructor
    · apply List.ext_getElem?
      intro c
      by_cases hc : c < self.width
      · simpa using List.find?_range_eq_none.mp hnone c hc
      · rw [List.getElem?_eq_none ((length_row hrow).trans_le (Nat.not_lt.mp hc)),
          List.getElem?_eq_none (hold.trans_le (Nat.not_lt.mp hc))]
    · intro _
      by_contra hne
      rw [if_pos hne] at hwrap
      cases hwrap

end ChangedRow

end Grid

/-! ## Lines on a screen -/

/-- A line whose tuples stand for the same cells whatever highlight was read before, at a place that
can be sent. -/
structure GridLine.Carried (line : GridLine) : Prop where
  proper : Proper line.cells
  spread : ∀ hl, spread hl line.cells = Ui.spread 0 line.cells
  row_small : line.row < 2 ^ 63
  startCol_small : line.startCol < 2 ^ 63

/-- What the lines make of a screen. -/
def Screen.draw (screen : Screen) (lines : List GridLine) : Screen :=
  lines.foldl (fun screen line => screen.write line.row line.startCol (spread 0 line.cells)) screen

namespace Grid

variable {self previous : Grid} {row : Nat} {line : GridLine}

theorem fits_row (hfits : Fits self.cells) (row : Nat) : Fits (self.row row) :=
  fun c hc => hfits c (row_subset hc)

theorem carried_of_cells (cells : List Cell) (hfits : Fits cells) (hsmall : cells.length < 2 ^ 63)
    (hline : line.cells = encodeCells cells) (hrow : line.row < self.height)
    (hcol : line.startCol < 2 ^ 63) : line.Carried := by
  refine ⟨hline ▸ proper_encodeFrom none cells, ?_, ?_, hcol⟩
  · intro hl
    rw [hline, spread_encodeCells hfits hsmall, spread_encodeCells hfits hsmall]
  · exact hrow.trans (self.wraps_length ▸ self.wraps_small)

/-- The columns of a row from `first` to `last`, drawn on a screen. -/
theorem write_slice (hrow : row < self.height) (first : Nat) {last : Nat} (hlast : last < self.width)
    (hfits : Fits self.cells) (screen : Screen) (r c : Nat) :
    screen.write row first (spread 0 (encodeCells (((self.row row).take (last + 1)).drop first))) r c
      = if r = row ∧ first ≤ c ∧ c ≤ last then self.view r c else screen r c := by
  have hsub : Fits (((self.row row).take (last + 1)).drop first) :=
    fun cell hc => fits_row hfits row cell (List.mem_of_mem_take (List.mem_of_mem_drop hc))
  have hlength := length_row hrow
  have hsmall := self.cells_small
  have hle := self.length_row_le row
  have hslice : (((self.row row).take (last + 1)).drop first).length = last + 1 - first := by
    rw [List.length_drop, List.length_take, hlength]
    omega
  rw [spread_encodeCells hsub (by omega), Screen.write, List.length_map, hslice]
  by_cases hin : r = row ∧ first ≤ c ∧ c ≤ last
  · obtain ⟨rfl, hfirst, hc⟩ := hin
    rw [if_pos ⟨rfl, hfirst, by omega⟩, if_pos ⟨rfl, hfirst, hc⟩, List.getElem?_map,
      List.getElem?_drop, List.getElem?_take_of_lt (by omega), view,
      if_pos ⟨hrow, by omega⟩, ← getElem?_row hrow (by omega)]
    congr 2
    omega
  · rw [if_neg hin, if_neg fun hc => hin ⟨hc.1, hc.2.1, by omega⟩]

theorem row_syncSpan (hwidth : previous.width = self.width) (hheight : previous.height = self.height)
    (row first : Nat) {last : Nat} (hlast : last < self.width) {r : Nat} (hr : r < self.height) (c : Nat) :
    ((self.syncSpan previous row first last).row r)[c]?
      = if r = row ∧ first ≤ c ∧ c ≤ last then (self.row r)[c]? else (previous.row r)[c]? := by
  have hsync : r < (self.syncSpan previous row first last).height := hheight ▸ hr
  by_cases hc : c < self.width
  · have hspan := mem_span_iff row first r hc hlast
    have hindex := index_lt hr hc
    have hself : r * self.width + c < self.cells.length := by rwa [self.cells_length]
    have hprevious : r * self.width + c < previous.cells.length := by
      rwa [previous.cells_length, hwidth, hheight]
    rw [getElem?_row hsync (show c < previous.width from hwidth ▸ hc), getElem?_row hr hc,
      getElem?_row (hheight ▸ hr) (hwidth ▸ hc)]
    simp only [syncSpan, hwidth, getElem?_copyRange, hspan,
      List.getElem?_eq_getElem hself, List.getElem?_eq_getElem hprevious]
    split <;> rfl
  · rw [List.getElem?_eq_none, if_neg (by omega), List.getElem?_eq_none]
    · rw [length_row (hheight ▸ hr), hwidth]
      exact Nat.not_lt.mp hc
    · rw [length_row hsync]
      exact (show previous.width ≤ c from hwidth ▸ Nat.not_lt.mp hc)

theorem wraps_syncSpan (hheight : previous.height = self.height) (row first last r : Nat) :
    (self.syncSpan previous row first last).wraps[r]?
      = if r = row then self.wraps[r]? else previous.wraps[r]? := by
  rw [syncSpan, getElem?_copyRange]
  by_cases hr : r < self.height
  · rw [List.getElem?_eq_getElem (by rwa [self.wraps_length]),
      List.getElem?_eq_getElem (by rwa [previous.wraps_length, hheight])]
    by_cases hrow : r = row
    · simp [hrow]
    · rw [if_neg hrow, Option.map_some, if_neg (by omega)]
  · rw [List.getElem?_eq_none (by rw [self.wraps_length]; omega),
      List.getElem?_eq_none (by rw [previous.wraps_length]; omega), ite_self]
    rfl

/-- What has become of `previous` and of a screen that showed it when some rows are through. -/
structure Synced (current previous : Grid) (rows : List Nat) (lines : List GridLine) (synced : Grid) :
    Prop where
  id : synced.id = previous.id
  width : synced.width = previous.width
  height : synced.height = previous.height
  carried : ∀ line ∈ lines, line.Carried
  draw : previous.view.draw lines = synced.view
  row : ∀ r < current.height, synced.row r = if r ∈ rows then current.row r else previous.row r
  wraps : 0 < current.width → ∀ r < current.height,
    synced.wraps[r]? = if r ∈ rows then current.wraps[r]? else previous.wraps[r]?

theorem synced_syncRows (hfits : Fits self.cells) {rows : List Nat}
    (hrows : ∀ row ∈ rows, row < self.height) (hwidth : previous.width = self.width)
    (hheight : previous.height = self.height) (continueWrap : Bool) :
    Synced self previous rows (self.syncRows rows previous continueWrap).1
      (self.syncRows rows previous continueWrap).2 := by
  induction rows generalizing previous continueWrap with
  | nil =>
    rw [syncRows]
    exact ⟨rfl, rfl, rfl, by simp, rfl, by simp, by simp⟩
  | cons row rows ih =>
    have hrow := hrows row (List.mem_cons_self ..)
    have hrest : ∀ row ∈ rows, row < self.height := fun r hr => hrows r (List.mem_cons_of_mem _ hr)
    rw [syncRows]
    cases hchanged : self.changedRow previous row continueWrap with
    | none =>
      obtain ⟨hsame, hwrap⟩ := unchanged_of_changedRow hwidth hheight hrow hchanged
      have hsynced := ih hrest hwidth hheight false
      refine ⟨hsynced.id, hsynced.width, hsynced.height, hsynced.carried, hsynced.draw, ?_, ?_⟩
      · intro r hr
        rw [hsynced.row r hr]
        grind
      · intro hpos r hr
        rw [hsynced.wraps hpos r hr]
        grind
    | some span =>
      obtain ⟨line, first, last⟩ := span
      have hspan := span_of_changedRow hwidth hheight hrow hchanged
      have hwidth' : (self.syncSpan previous row first last).width = self.width := hwidth
      have hsynced := ih hrest hwidth' hheight line.wrap
      have hcarried : line.Carried := by
        have hsmall := self.cells_small
        have hle := self.length_row_le row
        have hwide := (length_row hrow).symm.trans_le hle
        have hfirst := hspan.first_le
        have hlast := hspan.last_lt
        refine carried_of_cells (((self.row row).take (last + 1)).drop first) ?_ ?_
          (congrArg GridLine.cells hspan.line) ((congrArg GridLine.row hspan.line).trans_lt hrow)
          ((congrArg GridLine.startCol hspan.line).trans_lt (by dsimp only; omega))
        · exact fun cell hc => fits_row hfits row cell
            (List.mem_of_mem_take (List.mem_of_mem_drop hc))
        · rw [List.length_drop, List.length_take]
          omega
      refine ⟨hsynced.id, hsynced.width, hsynced.height, ?_, ?_, ?_, ?_⟩
      · intro l hl
        rcases List.mem_cons.mp hl with rfl | hl
        · exact hcarried
        · exact hsynced.carried l hl
      · -- the line turns the view of `previous` into that of the grid it was copied into
        have hdrawn : previous.view.write line.row line.startCol (spread 0 line.cells)
            = (self.syncSpan previous row first last).view := by
          funext r c
          rw [hspan.line, write_slice hrow first hspan.last_lt hfits,
            view_syncSpan hwidth hheight hspan.last_lt]
        rw [Screen.draw, List.foldl_cons, hdrawn]
        exact hsynced.draw
      · intro r hr
        rw [hsynced.row r hr]
        have hcols := row_syncSpan hwidth hheight row first hspan.last_lt hr
        by_cases hin : r ∈ rows
        · simp [hin]
        · rw [if_neg hin]
          by_cases hrr : r = row
          · subst hrr
            rw [if_pos (List.mem_cons_self ..)]
            apply List.ext_getElem?
            intro c
            rw [hcols]
            split
            · rfl
            · exact (hspan.same c (by omega)).symm
          · rw [if_neg (by simp [hrr, hin])]
            apply List.ext_getElem?
            intro c
            rw [hcols, if_neg fun hc => hrr hc.1]
      · intro hpos r hr
        rw [hsynced.wraps hpos r hr, wraps_syncSpan hheight]
        grind

/-- Grids of one width and height with the same rows have the same cells. -/
theorem cells_eq_of_rows {other : Grid} (hwidth : other.width = self.width)
    (hheight : other.height = self.height) (h : ∀ r < self.height, other.row r = self.row r) :
    other.cells = self.cells := by
  have hlength : other.cells.length = self.cells.length := by
    rw [other.cells_length, self.cells_length, hwidth, hheight]
  apply List.ext_getElem?
  intro i
  by_cases hi : i < self.cells.length
  · rw [self.cells_length] at hi
    have hpos : 0 < self.width := Nat.pos_of_mul_pos_right (Nat.zero_lt_of_lt hi)
    have hr : i / self.width < self.height := Nat.div_lt_of_lt_mul hi
    have hc : i % self.width < self.width := Nat.mod_lt i hpos
    have hi' : i = i / self.width * self.width + i % self.width := (Nat.div_add_mod' i _).symm
    rw [hi', ← getElem?_row hr hc, ← h _ hr, getElem?_row (hheight ▸ hr) (hwidth ▸ hc), hwidth]
  · rw [List.getElem?_eq_none (Nat.not_lt.mp hi), List.getElem?_eq_none (by omega)]

/-- A grid that is retained for another one: equal but for the wrap flags of rows without cells. -/
structure Retains (previous grid : Grid) : Prop where
  id : previous.id = grid.id
  width : previous.width = grid.width
  height : previous.height = grid.height
  cells : previous.cells = grid.cells
  wraps : 0 < grid.width → previous.wraps = grid.wraps

theorem Retains.view {grid : Grid} (h : previous.Retains grid) : previous.view = grid.view := by
  funext r c
  simp only [Grid.view, h.cells, h.width, h.height]

theorem Retains.refl (grid : Grid) : grid.Retains grid :=
  ⟨rfl, rfl, rfl, rfl, fun _ => rfl⟩

theorem Retains.eq {grid : Grid} (h : previous.Retains grid) (hpos : 0 < grid.width) :
    previous = grid := by
  ext1
  · exact h.id
  · exact h.width
  · exact h.height
  · exact h.cells
  · exact h.wraps hpos

/-- **The spans of a diff bring the view of `previous` up to date**, and `previous` with it. -/
theorem synced_diffAndSync (hfits : Fits self.cells) (hid : previous.id = self.id)
    (hwidth : previous.width = self.width) (hheight : previous.height = self.height) :
    (∀ line ∈ (self.diffAndSync previous).1, line.Carried) ∧
      previous.view.draw (self.diffAndSync previous).1 = self.view ∧
      (self.diffAndSync previous).2.Retains self := by
  have hrows : ∀ r ∈ List.range self.height, r < self.height := fun r hr => List.mem_range.mp hr
  have h := synced_syncRows hfits hrows hwidth hheight false
  have hcells : (self.diffAndSync previous).2.cells = self.cells := by
    apply cells_eq_of_rows (h.width.trans hwidth) (h.height.trans hheight)
    intro r hr
    exact (h.row r hr).trans (if_pos (List.mem_range.mpr hr))
  have hwraps : 0 < self.width → (self.diffAndSync previous).2.wraps = self.wraps := by
    intro hpos
    apply List.ext_getElem?
    intro r
    by_cases hr : r < self.height
    · rw [diffAndSync, h.wraps hpos r hr, if_pos (List.mem_range.mpr hr)]
    · rw [List.getElem?_eq_none, List.getElem?_eq_none]
      · rw [self.wraps_length]
        omega
      · exact (Grid.wraps_length _).trans_le
          ((h.height.trans hheight).trans_le (Nat.not_lt.mp hr))
  have hretains : (self.diffAndSync previous).2.Retains self :=
    ⟨h.id.trans hid, h.width.trans hwidth, h.height.trans hheight, hcells, hwraps⟩
  exact ⟨h.carried, h.draw.trans hretains.view, hretains⟩

/-- The line of a whole row. -/
theorem write_row (hrow : row < self.height) (hfits : Fits self.cells) (screen : Screen) (r c : Nat) :
    screen.write row 0 (spread 0 (encodeCells (self.row row))) r c
      = if r = row ∧ c < self.width then self.view r c else screen r c := by
  rcases Nat.eq_zero_or_pos self.width with hzero | hpos
  · have hempty := List.length_eq_zero_iff.mp ((length_row hrow).trans hzero)
    rw [hempty, encodeCells, encodeFrom, spread, Screen.write, hzero]
    simp
  · have hall : ((self.row row).take (self.width - 1 + 1)).drop 0 = self.row row := by
      rw [List.drop_zero, List.take_of_length_le]
      rw [length_row hrow]
      omega
    have hslice := write_slice hrow 0 (Nat.sub_one_lt_of_lt hpos) hfits screen r c
    rw [hall] at hslice
    rw [hslice]
    apply if_congr _ rfl rfl
    omega

/-- **The full lines draw the grid on any screen.** -/
theorem draw_fullLines (hfits : Fits self.cells) (screen : Screen) (r c : Nat) :
    screen.draw self.fullLines r c
      = if r < self.height ∧ c < self.width then self.view r c else screen r c := by
  -- the first rows are drawn when the loop has reached row `n`
  have hrows : ∀ n ≤ self.height, screen.draw ((List.range n).filterMap self.fullLine) r c
      = if r < n ∧ c < self.width then self.view r c else screen r c := by
    intro n
    induction n with
    | zero => simp [Screen.draw]
    | succ n ih =>
      intro hn
      have hdrawn := ih (Nat.le_of_succ_le hn)
      rw [List.range_succ, List.filterMap_append, Screen.draw, List.foldl_append]
      by_cases hempty : (self.row n).isEmpty = true
      · have hzero : self.width = 0 := by
          rw [← length_row hn, List.isEmpty_iff_length_eq_zero.mp hempty]
        have hnone : self.fullLine n = none := if_pos hempty
        rw [List.filterMap_cons_none hnone]
        refine hdrawn.trans ?_
        simp [hzero]
      · have hsome : self.fullLine n
            = some ⟨n, 0, encodeCells (self.row n), (self.wraps[n]?).getD false⟩ :=
          if_neg hempty
        rw [List.filterMap_cons_some hsome, List.filterMap_nil, List.foldl_cons, List.foldl_nil,
          write_row hn hfits]
        refine (if_congr Iff.rfl rfl hdrawn).trans ?_
        grind
  exact hrows self.height (Nat.le_refl _)

theorem carried_fullLines (hfits : Fits self.cells) : ∀ line ∈ self.fullLines, line.Carried := by
  intro line hline
  obtain ⟨row, hrow, hsome⟩ := List.mem_filterMap.mp hline
  have hsmall := self.cells_small
  have hle := self.length_row_le row
  rw [fullLine] at hsome
  split at hsome
  · cases hsome
  · obtain rfl := Option.some.inj hsome
    exact carried_of_cells _ (fits_row hfits row) (by omega) rfl (List.mem_range.mp hrow) (by simp)

end Grid

end Oxvim.Ui
