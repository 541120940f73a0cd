import Oxvim.Lib.EState
import Oxvim.Ui.GridWhole

/-!
# What a write to the grid changes

A write covers a span of columns of one row. It changes the cells of this span and those of the
graphemes that the span overlaps, which turn blank outside of it (`Written`). The methods of the
source write in place, and a call that fails has written nothing yet.
-/

namespace Oxvim.Ui

open Lib EState

/-! ## Where text is drawn -/

/-- The width that a cluster is drawn with. -/
def clusterCols (widths : UnicodeWidth) (cluster : List Char) : Nat :=
  let width := max (widths.str cluster) 1
  (if width < 256 then UInt8.ofNat width else 255).toNat

/-- The column that text ends in when it is written up to an edge. -/
def endCol (widths : UnicodeWidth) (edge col : Nat) : List Char → Nat
  | [] => col
  | first :: rest =>
    let length := clusterLength widths (first :: rest)
    let cluster := (first :: rest).take length
    if col < edge ∧ col + max (widths.str cluster) 1 ≤ edge then
      endCol widths edge (col + clusterCols widths cluster) ((first :: rest).drop length)
    else col
termination_by text => text.length
decreasing_by
  simp only [clusterLength, List.length_drop, List.length_cons]
  omega

/-- The cluster of the character at an index, and the column that it is written in. -/
def drawnAt (widths : UnicodeWidth) (edge col : Nat) : List Char → (index : Nat) →
    Option (List Char × Nat)
  | [], _ => none
  | first :: rest, index =>
    let length := clusterLength widths (first :: rest)
    let cluster := (first :: rest).take length
    if col < edge ∧ col + max (widths.str cluster) 1 ≤ edge then
      if index < length then some (cluster, col)
      else drawnAt widths edge (col + clusterCols widths cluster) ((first :: rest).drop length)
        (index - length)
    else none
termination_by text => text.length
decreasing_by
  simp only [clusterLength, List.length_drop, List.length_cons]
  omega

namespace Grid

/-- The cell is one of a grapheme that overlaps the columns from `first` up to `last`. -/
def Touches (grid : Grid) (row first last r c : Nat) : Prop :=
  r = row ∧ ∃ l, l ≤ c ∧ c < l + grid.widths row l ∧ l < last ∧ first < l + grid.widths row l

variable {grid before a b : Grid} {row first mid last col : Nat}

/-- The columns themselves are among those that are touched. -/
theorem Whole.touches (h : grid.Whole) (hrow : row < grid.height) {c : Nat} (hc : c < grid.width)
    (hfirst : first ≤ c) (hlast : c < last) : grid.Touches row first last row c := by
  obtain ⟨l, hl, hlt⟩ := (h.tiled row hrow).exists_owner hc
  exact ⟨rfl, l, hl, hlt, by omega, by omega⟩

theorem Touches.mono {r c first' last' : Nat} (h : grid.Touches row first last r c)
    (hfirst : first' ≤ first) (hlast : last ≤ last') : grid.Touches row first' last' r c := by
  obtain ⟨hr, l, hl, hlt, hbegin, hend⟩ := h
  exact ⟨hr, l, hl, hlt, by omega, by omega⟩

/-- **What a write of the columns from `first` up to `last` leaves**: a grid without halves of wide
cells, where each cell that differs is in the columns, or blank and of a grapheme that they
overlap; and no grapheme in the columns goes on behind them. -/
structure Written (grid before : Grid) (row first last : Nat) : Prop where
  whole : grid.Whole
  size : SameSize grid before
  wraps : grid.wraps = before.wraps
  cells : ∀ r c, c < before.width → grid.cellAt r c = before.cellAt r c ∨
    before.Touches row first last r c ∧
      (grid.cellAt r c = Cell.blank ∨ first ≤ c ∧ c < last)
  fits : last ≤ before.width
  ends : ∀ c, first ≤ c → c < last → c + grid.widths row c ≤ last

theorem Written.refl (h : grid.Whole) (hcol : col ≤ grid.width) :
    Written grid grid row col col where
  whole := h
  fits := hcol
  size := .refl grid
  wraps := rfl
  cells _ _ _ := .inl rfl
  ends c hfirst hlast := by omega

/-- A cell that is touched behind what was written is one that was touched before. -/
theorem Written.touches (h : Written a before row first mid) (hrow : row < before.height)
    (hfirst : first ≤ mid) {r c : Nat} (htouches : a.Touches row mid last r c)
    (hc : c < before.width) : before.Touches row first last r c := by
  obtain ⟨rfl, l, hl, hlt, hbegin, hend⟩ := htouches
  rcases h.cells r l (by omega) with hsame | ⟨htouched, hblank | ⟨hin, hbehind⟩⟩
  · -- the grapheme was there before
    have hwidth : a.widths r l = before.widths r l := by rw [widths, widths, hsame]
    exact ⟨rfl, l, hl, hwidth ▸ hlt, hbegin, by omega⟩
  · -- it is a blank cell by now
    have hone : a.widths r l = 1 := by rw [widths, hblank]; rfl
    obtain rfl : l = c := by omega
    exact htouched.mono le_rfl (by omega)
  · -- it is one that was written, which ends before
    have hends := h.ends l hin hbehind
    omega

/-- Writes of adjacent columns. -/
theorem Written.trans (h : Written a before row first mid) (h' : Written b a row mid last)
    (hrow : row < before.height) (hfirst : first ≤ mid) (hlast : mid ≤ last) :
    Written b before row first last where
  whole := h'.whole
  size := h'.size.trans h.size
  wraps := h'.wraps.trans h.wraps
  cells r c hc := by
    rcases h'.cells r c (h.size.width ▸ hc) with hsame | ⟨htouched, hnew⟩
    · rw [hsame]
      rcases h.cells r c hc with hsame | ⟨htouched, hblank | hin⟩
      · exact .inl hsame
      · exact .inr ⟨htouched.mono le_rfl hlast, .inl hblank⟩
      · exact .inr ⟨htouched.mono le_rfl hlast, .inr ⟨hin.1, by omega⟩⟩
    · refine .inr ⟨h.touches hrow hfirst htouched hc, ?_⟩
      rcases hnew with hblank | hin
      · exact .inl hblank
      · exact .inr ⟨by omega, hin.2⟩
  fits := h.size.width ▸ h'.fits
  ends c hc hlt := by
    by_cases hmid : mid ≤ c
    · exact h'.ends c hmid hlt
    · -- the second write leaves what was written before it, or blanks it
      have hends := h.ends c hc (by omega)
      have hfits := h.fits
      rcases h'.cells row c (by rw [h.size.width]; omega) with hsame | ⟨-, hblank | hin⟩
      · rw [widths, hsame]
        exact hends.trans hlast
      · rw [widths, hblank, blank_width]
        omega
      · omega

/-! ## Clearing -/

/-- What clearing columns between `first` and `last` leaves. -/
structure Cleared (grid before : Grid) (row first last : Nat) : Prop where
  whole : grid.Whole
  size : SameSize grid before
  wraps : grid.wraps = before.wraps
  cells : ∀ r c, c < before.width → grid.cellAt r c = before.cellAt r c ∨
    before.Touches row first last r c ∧ grid.cellAt r c = Cell.blank

theorem Cleared.refl (h : grid.Whole) : Cleared grid grid row first last where
  whole := h
  size := .refl grid
  wraps := rfl
  cells _ _ _ := .inl rfl

/-- One more column is cleared. -/
theorem Cleared.clear (h : Cleared a before row first last) (hrow : row < before.height)
    (hcol : col < before.width) (hfirst : first ≤ col) (hlast : col < last) :
    ∃ b, a.clearGraphemeAt row col = .ok b ∧ Cleared b before row first last := by
  have hrow' : row < a.height := h.size.height ▸ hrow
  have hcol' : col < a.width := h.size.width ▸ hcol
  obtain ⟨b', hrun', hblanked, -⟩ := clearGraphemeAt_ok h.whole hrow' hcol'
  obtain ⟨l, b, hl, hlt, hrun, hsize, hwraps, hcells⟩ := clearGraphemeAt_run h.whole hrow' hcol'
  obtain rfl : b' = b := Except.ok.inj (hrun'.symm.trans hrun)
  refine ⟨b', hrun, ⟨hblanked.whole, hsize.trans h.size, hwraps.trans h.wraps, ?_⟩⟩
  intro r c hc
  rw [hcells r c (h.size.width ▸ hc)]
  split
  · next hin =>
    obtain ⟨rfl, hle, hless⟩ := hin
    refine .inr ⟨?_, rfl⟩
    -- the grapheme is one of before, or a blank cell
    rcases h.cells r l (by omega) with hsame | ⟨htouched, hlead⟩
    · have hwidth : a.widths r l = before.widths r l := by rw [widths, widths, hsame]
      exact ⟨rfl, l, hle, hwidth ▸ hless, by omega, by omega⟩
    · have hone : a.widths r l = 1 := by rw [widths, hlead]; rfl
      obtain rfl : l = c := by omega
      exact htouched
  · exact h.cells r c hc

theorem Cleared.clearAll (h : Cleared a before row first last) (hrow : row < before.height)
    (hfits : last ≤ before.width) {cols : List Nat}
    (hcols : ∀ c ∈ cols, first ≤ c ∧ c < last) :
    ∃ b, cols.foldlM (fun grid col => grid.clearGraphemeAt row col) a = .ok b ∧
      Cleared b before row first last := by
  induction cols generalizing a with
  | nil => exact ⟨a, rfl, h⟩
  | cons col cols ih =>
    obtain ⟨hfirst, hlast⟩ := hcols col (List.mem_cons_self ..)
    obtain ⟨next, hnext, hcleared⟩ := h.clear hrow (by omega) hfirst hlast
    obtain ⟨b, hrun, hb⟩ := ih hcleared fun c hc => hcols c (List.mem_cons_of_mem _ hc)
    refine ⟨b, ?_, hb⟩
    rw [List.foldlM_cons, hnext]
    exact hrun

/-! ## Graphemes and text -/

/-- **A put changes the cells of its columns and of the graphemes that these overlap.** -/
theorem put_written (h : grid.Whole) (hrow : row < grid.height) {width : UInt8}
    (hpos : 0 < width.toNat) (hfits : col + width.toNat ≤ grid.width) (text : List UInt8)
    (hlId : UInt64) :
    ∃ written, grid.put row col text hlId width = .ok written ∧
      Written written grid row col (col + width.toNat) ∧
      written.cellAt row col = ⟨text, hlId, width⟩ := by
  obtain ⟨cleared, hrun, hcleared⟩ := (Cleared.refl h).clearAll hrow hfits (by
      intro c hc
      rwa [List.mem_reverse, List.mem_range'_1] at hc)
  obtain ⟨written', hput', hwhole, -⟩ := put_ok h hrow hpos hfits text hlId
  obtain ⟨cleared', written, hrun', hput, hsize, hwraps, hcells⟩ :=
    put_run h hrow hpos hfits text hlId
  obtain rfl : cleared = cleared' := Except.ok.inj (hrun.symm.trans hrun')
  obtain rfl : written' = written := Except.ok.inj (hput'.symm.trans hput)
  refine ⟨written', hput, ⟨hwhole, hsize, hwraps.trans hcleared.wraps, ?_, hfits, ?_⟩, ?_⟩
  · intro r c hc
    rw [hcells r c hc]
    split
    · next hin =>
      obtain ⟨rfl, rfl⟩ := hin
      exact .inr ⟨h.touches hrow hc le_rfl (by omega), .inr ⟨le_rfl, by omega⟩⟩
    · split
      · next hin =>
        obtain ⟨rfl, hlt, hless⟩ := hin
        exact .inr ⟨h.touches hrow hc hlt.le hless, .inr ⟨hlt.le, hless⟩⟩
      · rcases hcleared.cells r c hc with hsame | ⟨htouched, hblank⟩
        · exact .inl hsame
        · exact .inr ⟨htouched, .inl hblank⟩
  · intro c hc hless
    rw [widths, hcells row c (by omega)]
    by_cases hlead : c = col
    · rw [if_pos ⟨rfl, hlead⟩, hlead]
    · rw [if_neg fun hin => hlead hin.2, if_pos ⟨rfl, by omega, hless⟩]
      exact hless.le
  · rw [hcells row col (by omega), if_pos ⟨rfl, rfl⟩]

variable {widths : UnicodeWidth}

/-! ## In place

The methods of the source borrow the grid and change it; these are their bodies. Clearing a grapheme
and writing a cell check their arguments before they write. -/

/-- `put` in place. -/
def putInPlace (row col : Nat) (text : List UInt8) (hlId : UInt64) (width : UInt8) :
    EStateM GridError Grid Unit := do
  let self ← get
  if width = 0 ∨ col + width.toNat > self.width then throw (.invalidWidth width col self.width)
  else
    (List.range' col width.toNat).reverse.forM fun targetCol =>
      attempt fun self => self.clearGraphemeAt row targetCol
    attempt fun self => self.writeCell row col text hlId width
    (List.range' 1 (width.toNat - 1)).forM fun continuation =>
      attempt fun self => self.writeCell row (col + continuation) [] hlId 0

/-- The loop of `write_text` in place. -/
def writeClustersInPlace (widths : UnicodeWidth) (row col : Nat) (hlId : UInt64) :
    List Char → EStateM GridError Grid Nat
  | [] => return col
  | first :: rest => do
    let self ← get
    if col < self.width then
      let length := clusterLength widths (first :: rest)
      let cluster := (first :: rest).take length
      let width := max (widths.str cluster) 1
      if col + width > self.width then return col
      else
        let width := if width < 256 then UInt8.ofNat width else 255
        putInPlace row col (Utf8.encode cluster) hlId width
        writeClustersInPlace widths row (col + width.toNat) hlId ((first :: rest).drop length)
    else return col
termination_by text => text.length
decreasing_by
  simp only [clusterLength, List.length_drop, List.length_cons]
  omega

/-- `write_text` in place. -/
def writeTextInPlace (widths : UnicodeWidth) (row startCol : Nat) (text : List Char)
    (hlId : UInt64) : EStateM GridError Grid Nat := do
  let self ← get
  if startCol ≥ self.width then
    MonadExcept.ofExcept (self.index row startCol)
  writeClustersInPlace widths row startCol hlId text

theorem index_error (h : ¬(row < grid.height ∧ col < grid.width)) :
    grid.index row col = .error (.outOfBounds row col grid.width grid.height) := by
  rw [index, if_pos (by omega)]

theorem putInPlace_ok {width : UInt8} {text : List UInt8} {hlId : UInt64} {written : Grid}
    (h : grid.put row col text hlId width = .ok written) :
    putInPlace row col text hlId width grid = .ok () written := by
  unfold put at h
  unfold putInPlace
  rw [bind_ok (get_run grid)]
  by_cases hbad : width = 0 ∨ col + width.toNat > grid.width
  · rw [if_pos hbad] at h
    cases h
  · rw [if_neg hbad] at h ⊢
    obtain ⟨cleared, hcleared, h⟩ := of_except_bind h
    obtain ⟨lead, hlead, h⟩ := of_except_bind h
    rw [bind_ok (forM_attempt_ok hcleared), bind_ok (attempt_ok hlead)]
    exact forM_attempt_ok h

/-- A put that fails has written nothing. -/
theorem putInPlace_refused {width : UInt8} (text : List UInt8) (hlId : UInt64)
    (h : ¬(row < grid.height ∧ 0 < width.toNat ∧ col + width.toNat ≤ grid.width)) :
    ∃ e, putInPlace row col text hlId width grid = .error e grid := by
  unfold putInPlace
  rw [bind_ok (get_run grid)]
  by_cases hbad : width = 0 ∨ col + width.toNat > grid.width
  · rw [if_pos hbad]
    exact ⟨_, rfl⟩
  · rw [if_neg hbad]
    have hpos : 0 < width.toNat := by
      have hne : width.toNat ≠ 0 := fun hzero => hbad (.inl (UInt8.toNat_inj.mp hzero))
      omega
    -- the first column to be cleared is in no row
    obtain ⟨n, hn⟩ : ∃ n, width.toNat = n + 1 := ⟨width.toNat - 1, by omega⟩
    have hfirst : grid.clearGraphemeAt row (col + n)
        = .error (.outOfBounds row (col + n) grid.width grid.height) := by
      rw [clearGraphemeAt, index_error (by omega)]
      rfl
    rw [hn, List.range'_concat, List.reverse_append, List.reverse_singleton, List.singleton_append,
      List.forM, bind_assoc, Nat.one_mul, bind_error (attempt_error hfirst)]
    exact ⟨_, rfl⟩

/-- What a write behind a grapheme leaves of it. -/
theorem Written.keeps (h : Written b a row mid last) (ha : a.Whole) (hrow : row < a.height) {c : Nat}
    (hwidth : 0 < a.widths row c) (hend : c + a.widths row c ≤ mid) (hc : c < a.width) :
    b.cellAt row c = a.cellAt row c := by
  rcases h.cells row c hc with hsame | ⟨⟨-, l, hl, hlt, -, hover⟩, -⟩
  · exact hsame
  · -- the grapheme is the one of `c` itself, which ends before
    obtain rfl := (ha.tiled row hrow).unique hl hlt le_rfl (by omega) hc
    omega

/-- **Text in place**: it ends where `endCol` says, it changes its columns and the graphemes that
these overlap, and the characters are drawn where `drawnAt` says. -/
theorem writeClustersInPlace_run (h : grid.Whole) (hrow : row < grid.height)
    (hcol : col ≤ grid.width) (hlId : UInt64) (text : List Char) :
    ∃ written, writeClustersInPlace widths row col hlId text grid
        = .ok (endCol widths grid.width col text) written ∧
      col ≤ endCol widths grid.width col text ∧
      Written written grid row col (endCol widths grid.width col text) ∧
      ∀ index cluster c, drawnAt widths grid.width col text index = some (cluster, c) →
        c < grid.width ∧ (written.cellAt row c).text = Utf8.encode cluster := by
  induction hn : text.length using Nat.strongRecOn generalizing grid col text with
  | ind n ih =>
    subst hn
    cases text with
    | nil =>
      refine ⟨grid, by rw [writeClustersInPlace, endCol]; rfl, by rw [endCol], ?_, ?_⟩
      · rw [endCol]
        exact .refl h hcol
      · intro index cluster c hdrawn
        rw [drawnAt] at hdrawn
        cases hdrawn
    | cons first rest =>
      rw [writeClustersInPlace, bind_ok (get_run grid), endCol]
      simp only [drawnAt]
      -- the first cluster, and what is behind it
      obtain ⟨length, hlength⟩ : ∃ length, length = clusterLength widths (first :: rest) := ⟨_, rfl⟩
      rw [← hlength]
      obtain ⟨cluster, hcluster⟩ : ∃ cluster, cluster = (first :: rest).take length := ⟨_, rfl⟩
      rw [← hcluster]
      by_cases hin : col < grid.width ∧ col + max (widths.str cluster) 1 ≤ grid.width
      · rw [if_pos hin.1, if_neg (by omega), if_pos hin]
        simp only [if_pos hin]
        have hwidth : (if max (widths.str cluster) 1 < 256 then
            UInt8.ofNat (max (widths.str cluster) 1) else 255).toNat = clusterCols widths cluster := rfl
        obtain ⟨hpos, hle⟩ := clusterWidth_fits (Nat.le_max_right (widths.str cluster) 1) hin.2
        obtain ⟨grid', hput, hwritten, hlead⟩ := put_written h hrow hpos hle
          (Utf8.encode cluster) hlId
        rw [hwidth] at hpos hle hwritten
        have hless : ((first :: rest).drop length).length < (first :: rest).length := by
          simp only [hlength, clusterLength, List.length_drop, List.length_cons]
          omega
        obtain ⟨written, hrun, hlast, hrest, hcells⟩ := ih _ hless hwritten.whole
          (hwritten.size.height ▸ hrow) (hwritten.size.width ▸ hle) _ rfl
        rw [hwritten.size.width] at hrun hlast hrest hcells
        refine ⟨written, ?_, by omega, hwritten.trans hrest hrow (by omega) hlast, ?_⟩
        · rw [bind_ok (putInPlace_ok hput), hwidth]
          exact hrun
        · intro index cluster' c hdrawn
          split at hdrawn
          · obtain ⟨rfl, rfl⟩ := Prod.mk.inj (Option.some.inj hdrawn)
            have hkept := hrest.keeps hwritten.whole (hwritten.size.height ▸ hrow)
              (c := col) (by rw [Grid.widths, hlead, hwidth]; exact hpos)
              (by rw [Grid.widths, hlead, hwidth]) (hwritten.size.width ▸ hin.1)
            exact ⟨hin.1, by rw [hkept, hlead]⟩
          · exact hcells _ _ _ hdrawn
      · rw [if_neg hin]
        simp only [if_neg hin]
        refine ⟨grid, ?_, le_rfl, .refl h hcol, fun _ _ _ hdrawn => by cases hdrawn⟩
        by_cases hcol' : col < grid.width
        · rw [if_pos hcol', if_pos (by omega)]
          rfl
        · rw [if_neg hcol']
          rfl

/-- Outside of the grid no text is written. -/
theorem writeTextInPlace_refused (hlId : UInt64) (text : List Char)
    (h : ¬(row < grid.height ∧ col < grid.width)) :
    final (writeTextInPlace widths row col text hlId grid) = grid := by
  unfold writeTextInPlace
  rw [bind_ok (get_run grid)]
  by_cases hcol : col ≥ grid.width
  · rw [if_pos hcol, index_error h, bind_error (ofExcept_error_run _ grid)]
    rfl
  · rw [if_neg hcol]
    show final (writeClustersInPlace widths row col hlId text grid) = grid
    cases text with
    | nil => rw [writeClustersInPlace]; rfl
    | cons first rest =>
      rw [writeClustersInPlace, bind_ok (get_run grid), if_pos (by omega)]
      dsimp only
      split
      · rfl
      · obtain ⟨e, hrefused⟩ := putInPlace_refused
          (Utf8.encode ((first :: rest).take (clusterLength widths (first :: rest)))) hlId
          fun hp => h ⟨hp.1, not_le.mp hcol⟩
        rw [bind_error hrefused]
        rfl

/-- **Writes to the grid keep wide characters whole.** On a grid without halves of wide cells a put
inside the grid, and text that begins inside it, leave such a grid again and change only cells of the
columns that they write and of the graphemes that these overlap; elsewhere nothing is written. -/
theorem writes_whole (h : grid.Whole) (widths : UnicodeWidth) (row col : Nat) (hlId : UInt64) :
    (∀ text width, (row < grid.height ∧ 0 < width.toNat ∧ col + width.toNat ≤ grid.width →
        ∃ written, putInPlace row col text hlId width grid = .ok () written ∧
          Written written grid row col (col + width.toNat)) ∧
      (¬(row < grid.height ∧ 0 < width.toNat ∧ col + width.toNat ≤ grid.width) →
        ∃ e, putInPlace row col text hlId width grid = .error e grid)) ∧
    ∀ text, (row < grid.height ∧ col < grid.width →
        ∃ last written, writeTextInPlace widths row col text hlId grid = .ok last written ∧
          Written written grid row col last) ∧
      (¬(row < grid.height ∧ col < grid.width) →
        final (writeTextInPlace widths row col text hlId grid) = grid) := by
  refine ⟨fun text width => ⟨?_, putInPlace_refused text hlId⟩, fun text =>
    ⟨?_, writeTextInPlace_refused hlId text⟩⟩
  · rintro ⟨hrow, hpos, hfits⟩
    obtain ⟨written, hput, hwritten, -⟩ := put_written h hrow hpos hfits text hlId
    exact ⟨written, putInPlace_ok hput, hwritten⟩
  · rintro ⟨hrow, hcol⟩
    obtain ⟨written, hrun, -, hwritten, -⟩ :=
      writeClustersInPlace_run h hrow hcol.le hlId text
    refine ⟨_, written, ?_, hwritten⟩
    unfold writeTextInPlace
    rw [bind_ok (get_run grid), if_neg (by omega)]
    exact hrun

/-- A row of four cells that begins with a wide character. -/
def wideGrid : Grid where
  id := 1
  width := 4
  height := 1
  cells := [⟨[0xE3, 0x81, 0x82], 0, 2⟩, ⟨[], 0, 0⟩, Cell.blank, Cell.blank]
  wraps := [false]
  cells_length := rfl
  wraps_length := List.length_singleton
  cells_small := by decide
  wraps_small := by decide

theorem whole_wideGrid : wideGrid.Whole := by
  have hfits : ∀ c < 4, c + wideGrid.widths 0 c ≤ 4 := by decide
  have hfollow : ∀ c < 4, ∀ k < wideGrid.widths 0 c, 0 < k → wideGrid.widths 0 (c + k) = 0 := by
    decide
  have howner : ∀ c < 4, wideGrid.widths 0 c = 0 → ∃ l < c, c < l + wideGrid.widths 0 l := by decide
  have hempty : ∀ c < 4, (wideGrid.cellAt 0 c).width = 0 → (wideGrid.cellAt 0 c).text = [] := by
    decide
  constructor
  · intro row hrow
    obtain rfl : row = 0 := Nat.lt_one_iff.mp hrow
    exact ⟨hfits, fun c k hc hpos hk => hfollow c hc k hk hpos, howner⟩
  · intro row col hrow hcol hwidth
    obtain rfl : row = 0 := Nat.lt_one_iff.mp hrow
    exact hempty col hcol hwidth

/-- A letter on the second half of the wide character. -/
theorem writes_whole_half : ∃ written,
    putInPlace 0 1 [0x61] 7 1 wideGrid = .ok () written ∧ Written written wideGrid 0 1 2 :=
  ((writes_whole whole_wideGrid ⟨fun _ => 1, fun _ => some 1⟩ 0 1 7).1 [0x61] 1).1 (by decide)

end Grid

end Oxvim.Ui
