import Oxvim.Editor.TerminalRender

/-!
# Wide glyphs on the terminal screen

Cells are written, erased and shifted one by one, and each of these can hit one half of a wide
glyph. As long as no glyph is written over the second half of another one, and none is cut at the
right edge, every wide cell keeps its tail.
-/

namespace Oxvim.Editor

open Lib RowMajor

variable (width : Char → Nat)

/-! ## The pen -/

namespace CellFlags

theorem union_wide (flags : CellFlags) {other : CellFlags} (h : other.bits &&& WIDE.bits = 0) :
    (flags.union other).contains WIDE = flags.contains WIDE := by
  have hbits : (flags.bits ||| other.bits) &&& WIDE.bits = flags.bits &&& WIDE.bits := by
    have hdistrib : (flags.bits ||| other.bits) &&& WIDE.bits =
        (flags.bits &&& WIDE.bits) ||| (other.bits &&& WIDE.bits) := by
      apply UInt16.toNat_inj.mp
      rw [UInt16.toNat_and, UInt16.toNat_or, UInt16.toNat_or, UInt16.toNat_and, UInt16.toNat_and,
        Nat.and_or_distrib_right]
    rw [hdistrib, h, UInt16.or_zero]
  rw [contains, contains, union, hbits]

theorem without_wide (flags : CellFlags) {other : CellFlags} (h : ~~~other.bits &&& WIDE.bits = WIDE.bits) :
    (flags.without other).contains WIDE = flags.contains WIDE := by
  rw [contains, contains, without, UInt16.and_assoc, h]

end CellFlags

namespace TerminalScreen

/-- The pen is without the layout marker. -/
def PlainPen (pen : CellAttrs) : Prop := pen.flags.contains .WIDE = false

theorem PlainPen.union {pen : CellAttrs} (h : PlainPen pen) {other : CellFlags}
    (hother : other.bits &&& CellFlags.WIDE.bits = 0) :
    PlainPen { pen with flags := pen.flags.union other } :=
  (CellFlags.union_wide _ hother).trans h

theorem PlainPen.without {pen : CellAttrs} (h : PlainPen pen) {other : CellFlags}
    (hother : ~~~other.bits &&& CellFlags.WIDE.bits = CellFlags.WIDE.bits) :
    PlainPen { pen with flags := pen.flags.without other } :=
  (CellFlags.without_wide _ hother).trans h

theorem PlainPen.ite {c : Prop} [Decidable c] {first second : CellAttrs × Nat} (hfirst : PlainPen first.1)
    (hsecond : PlainPen second.1) : PlainPen (if c then first else second).1 := by
  split
  · exact hfirst
  · exact hsecond

theorem PlainPen.underline {pen : CellAttrs} (h : PlainPen pen) (style : Nat) :
    PlainPen { pen with flags := underline pen.flags style } := by
  have hwithout : PlainPen { pen with flags := pen.flags.without .UNDERLINES } := h.without (by decide)
  rw [TerminalScreen.underline]
  split
  · exact hwithout
  split
  · exact hwithout.union (by decide)
  split
  · exact hwithout.union (by decide)
  · exact hwithout.union (by decide)

/-- No code of the pen is the layout marker. -/
theorem PlainPen.sgrCode {pen : CellAttrs} (h : PlainPen pen) (csi : CsiAccumulator) (index : Nat) :
    PlainPen (sgrCode csi pen index).1 := by
  rw [TerminalScreen.sgrCode]
  refine .ite (show PlainPen .default from rfl) ?_
  refine .ite (h.union (by decide)) ?_
  refine .ite (h.union (by decide)) ?_
  refine .ite (h.union (by decide)) ?_
  refine .ite (.ite (h.underline _) (h.underline _)) ?_
  refine .ite (h.union (by decide)) ?_
  refine .ite (h.union (by decide)) ?_
  refine .ite (h.union (by decide)) ?_
  refine .ite (h.underline _) ?_
  refine .ite (h.without (by decide)) ?_
  refine .ite (h.without (by decide)) ?_
  refine .ite (h.without (by decide)) ?_
  refine .ite (h.without (by decide)) ?_
  refine .ite (h.without (by decide)) ?_
  refine .ite (h.without (by decide)) ?_
  -- the colours leave the flags alone
  exact .ite h (.ite h (.ite h (.ite h (.ite h (.ite h (.ite h (.ite h h)))))))

theorem PlainPen.sgrCodes {pen : CellAttrs} (h : PlainPen pen) (csi : CsiAccumulator) (rounds index : Nat) :
    PlainPen (sgrCodes csi rounds pen index) := by
  induction rounds generalizing pen index with
  | zero => exact h
  | succ rounds ih =>
    rw [TerminalScreen.sgrCodes]
    split
    · exact h
    · exact ih (h.sgrCode csi index) _

end TerminalScreen

/-! ## Rows -/

namespace RenderedRow

variable {cells cells' : List Cell}

/-- A cell without a glyph that is not wide. -/
structure Blank (cell : Cell) : Prop where
  ch : cell.ch = none
  narrow : cell.attrs.flags.contains .WIDE = false

theorem blank_erased (pen : CellAttrs) : Blank (.erased pen) :=
  ⟨rfl, show CellFlags.empty.contains .WIDE = false by decide⟩

theorem blank_empty : Blank .EMPTY := ⟨rfl, by decide⟩

theorem wholeRow_replicate (n : Nat) {cell : Cell} (h : Blank cell) : WholeRow (List.replicate n cell) := by
  intro col found hfound hwide
  rw [List.getElem?_replicate] at hfound
  split_ifs at hfound
  rw [← Option.some.inj hfound, h.narrow] at hwide
  cases hwide

/-- Blank cells in place of some others. -/
theorem WholeRow.blank (h : WholeRow cells) (hlength : cells'.length = cells.length)
    (hcells : ∀ (col : Nat) (cell : Cell), cells'[col]? = some cell → cells[col]? = some cell ∨ Blank cell) :
    WholeRow cells' := by
  intro col cell hcell hwide
  rcases hcells col cell hcell with hold | hblank
  · obtain ⟨tail, htail, hnone⟩ := h col cell hold hwide
    have hlt : col + 1 < cells'.length := by
      rw [hlength]
      exact (List.getElem?_eq_some_iff.mp htail).1
    refine ⟨_, List.getElem?_eq_getElem hlt, ?_⟩
    rcases hcells (col + 1) _ (List.getElem?_eq_getElem hlt) with hkept | hblank
    · rw [htail] at hkept
      rw [← Option.some.inj hkept, hnone]
    · exact hblank.ch
  · rw [hblank.narrow] at hwide
    cases hwide

/-- A cell is wide. -/
def wideAt (cells : List Cell) (col : Nat) : Bool :=
  (cells[col]?).elim false fun cell => cell.attrs.flags.contains .WIDE

/-- A cell has a glyph. -/
def glyphAt (cells : List Cell) (col : Nat) : Bool := (cells[col]?).elim false fun cell => cell.ch.isSome

theorem wideAt_eq_true {col : Nat} {cell : Cell} (hcell : cells[col]? = some cell)
    (hwide : cell.attrs.flags.contains .WIDE = true) : wideAt cells col = true := by
  rw [wideAt, hcell]
  exact hwide

/-- A narrow glyph that is not written over a tail. -/
theorem WholeRow.set (h : WholeRow cells) (col : Nat) {cell : Cell}
    (hnarrow : cell.attrs.flags.contains .WIDE = false)
    (hbefore : 0 < col → wideAt cells (col - 1) = false) : WholeRow (cells.set col cell) := by
  intro c found hfound hwide
  rw [List.getElem?_set] at hfound
  split_ifs at hfound with heq hlt
  · obtain rfl := Option.some.inj hfound
    rw [hnarrow] at hwide
    cases hwide
  · obtain ⟨tail, htail, hnone⟩ := h c found hfound hwide
    refine ⟨tail, ?_, hnone⟩
    rw [List.getElem?_set_ne, htail]
    rintro rfl
    have := hbefore (Nat.succ_pos c)
    rw [Nat.add_sub_cancel, wideAt_eq_true hfound hwide] at this
    cases this

/-- A wide glyph that is not written over a tail, with its own tail behind it. -/
theorem WholeRow.setWide (h : WholeRow cells) {col : Nat} (hroom : col + 1 < cells.length) {cell tail : Cell}
    (htail : Blank tail) (hbefore : 0 < col → wideAt cells (col - 1) = false) :
    WholeRow ((cells.set col cell).set (col + 1) tail) := by
  intro c found hfound hwide
  rw [List.getElem?_set] at hfound
  split_ifs at hfound with heq hlt
  · obtain rfl := Option.some.inj hfound
    rw [htail.narrow] at hwide
    cases hwide
  rw [List.getElem?_set] at hfound
  split_ifs at hfound with heq' hlt
  · subst heq'
    refine ⟨tail, ?_, htail.ch⟩
    rw [List.getElem?_set_self (by rw [List.length_set]; exact hroom)]
  · obtain ⟨next, hnext, hnone⟩ := h c found hfound hwide
    by_cases hover : c = col + 1
    · exact absurd hover.symm heq
    · refine ⟨next, ?_, hnone⟩
      rw [List.getElem?_set_ne (by omega), List.getElem?_set_ne, hnext]
      rintro rfl
      have := hbefore (Nat.succ_pos c)
      rw [Nat.add_sub_cancel, wideAt_eq_true hfound hwide] at this
      cases this

/-- Cells to the right by `count`, from a column on, with blank ones in between. -/
theorem WholeRow.insert (h : WholeRow cells) (col count : Nat) (hcount : 0 < count)
    (hlength : cells'.length = cells.length) (hleft : ∀ c < col, cells'[c]? = cells[c]?)
    (hblank : ∀ (c : Nat) (cell : Cell), col ≤ c → c < col + count → cells'[c]? = some cell → Blank cell)
    (hright : ∀ c, col + count ≤ c → c < cells.length → cells'[c]? = cells[c - count]?)
    (hedge : col + count < cells.length → wideAt cells (cells.length - 1 - count) = false) :
    WholeRow cells' := by
  intro c cell hcell hwide
  have hlt : c < cells.length := hlength ▸ (List.getElem?_eq_some_iff.mp hcell).1
  rcases lt_or_ge c col with hc | hc
  · rw [hleft c hc] at hcell
    obtain ⟨tail, htail, hnone⟩ := h c cell hcell hwide
    have hlt' : c + 1 < cells'.length := hlength.symm ▸ (List.getElem?_eq_some_iff.mp htail).1
    rcases lt_or_ge (c + 1) col with hc' | hc'
    · exact ⟨tail, by rw [hleft _ hc', htail], hnone⟩
    · refine ⟨_, List.getElem?_eq_getElem hlt', ?_⟩
      exact (hblank (c + 1) _ hc' (by omega) (List.getElem?_eq_getElem hlt')).ch
  · rcases lt_or_ge c (col + count) with hc' | hc'
    · rw [(hblank c cell hc hc' hcell).narrow] at hwide
      cases hwide
    · rw [hright c hc' hlt] at hcell
      obtain ⟨tail, htail, hnone⟩ := h _ cell hcell hwide
      have hedge := hedge (by omega)
      have hne : c ≠ cells.length - 1 := by
        rintro rfl
        rw [wideAt_eq_true hcell hwide] at hedge
        cases hedge
      refine ⟨tail, ?_, hnone⟩
      rw [hright (c + 1) (by omega) (by omega), ← htail]
      congr 1
      omega

/-- Cells to the left by `count`, from a column on, with blank ones at the end. -/
theorem WholeRow.delete (h : WholeRow cells) (col count : Nat)
    (hlength : cells'.length = cells.length) (hleft : ∀ c < col, cells'[c]? = cells[c]?)
    (hright : ∀ c, col ≤ c → c + count < cells.length → cells'[c]? = cells[c + count]?)
    (hblank : ∀ (c : Nat) (cell : Cell), col ≤ c → cells.length ≤ c + count → cells'[c]? = some cell →
      Blank cell)
    (hseam : 0 < col → wideAt cells (col - 1) = true → col + count < cells.length →
      glyphAt cells (col + count) = false) : WholeRow cells' := by
  intro c cell hcell hwide
  have hlt : c < cells.length := hlength ▸ (List.getElem?_eq_some_iff.mp hcell).1
  rcases lt_or_ge c col with hc | hc
  · rw [hleft c hc] at hcell
    obtain ⟨tail, htail, hnone⟩ := h c cell hcell hwide
    have hlt' : c + 1 < cells'.length := hlength.symm ▸ (List.getElem?_eq_some_iff.mp htail).1
    rcases lt_or_ge (c + 1) col with hc' | hc'
    · exact ⟨tail, by rw [hleft _ hc', htail], hnone⟩
    · refine ⟨_, List.getElem?_eq_getElem hlt', ?_⟩
      obtain rfl : col = c + 1 := by omega
      rcases lt_or_ge (c + 1 + count) cells.length with hin | hin
      · have hseam := hseam (Nat.succ_pos c) (wideAt_eq_true hcell hwide) hin
        have hkept := hright (c + 1) le_rfl hin
        rw [List.getElem?_eq_getElem hlt'] at hkept
        rw [glyphAt, ← hkept] at hseam
        exact Option.isNone_iff_eq_none.mp (Option.isSome_eq_false_iff.mp hseam)
      · exact (hblank (c + 1) _ le_rfl hin (List.getElem?_eq_getElem hlt')).ch
  · rcases lt_or_ge (c + count) cells.length with hin | hin
    · rw [hright c hc hin] at hcell
      obtain ⟨tail, htail, hnone⟩ := h _ cell hcell hwide
      have hlt' := (List.getElem?_eq_some_iff.mp htail).1
      refine ⟨tail, ?_, hnone⟩
      rw [hright (c + 1) (by omega) (by omega), ← htail]
      congr 1
      omega
    · rw [(hblank c cell hc hin hcell).narrow] at hwide
      cases hwide

/-- The first cells of a row, if no wide one is cut, and blank ones behind them. -/
theorem WholeRow.resize (h : WholeRow cells) (cols : Nat) (hlength : cells'.length = cols)
    (hleft : ∀ c < cols, c < cells.length → cells'[c]? = cells[c]?)
    (hblank : ∀ (c : Nat) (cell : Cell), cells.length ≤ c → cells'[c]? = some cell → Blank cell)
    (hedge : cols < cells.length → wideAt cells (cols - 1) = false) : WholeRow cells' := by
  intro c cell hcell hwide
  have hlt : c < cols := hlength ▸ (List.getElem?_eq_some_iff.mp hcell).1
  rcases lt_or_ge c cells.length with hin | hin
  · rw [hleft c hlt hin] at hcell
    obtain ⟨tail, htail, hnone⟩ := h c cell hcell hwide
    have hlt' := (List.getElem?_eq_some_iff.mp htail).1
    refine ⟨tail, ?_, hnone⟩
    rw [hleft (c + 1) ?_ hlt', htail]
    by_contra hcut
    obtain rfl : c = cols - 1 := by omega
    have hedge := hedge (by omega)
    rw [wideAt_eq_true hcell hwide] at hedge
    cases hedge
  · rw [(hblank c cell hin hcell).narrow] at hwide
    cases hwide

end RenderedRow

/-! ## The screen -/

namespace TerminalScreen

open RenderedRow

variable {s t : TerminalScreen}

/-- The pen is plain, and every wide cell of the screen has its tail. -/
structure Glyphs (s : TerminalScreen) : Prop where
  pen : PlainPen s.pen
  rows : ∀ r, WholeRow (s.rowCells r)
  parked : ∀ primary, s.parked = some primary → ∀ r, WholeRow (row s.size.cols primary r)

/-- What wide glyphs depend on. -/
structure SameGlyphs (s t : TerminalScreen) : Prop where
  cells : t.cells = s.cells
  size : t.size = s.size
  parked : t.parked = s.parked
  pen : t.pen = s.pen

theorem Glyphs.same (h : s.Glyphs) (hsame : SameGlyphs s t) : t.Glyphs := by
  refine ⟨?_, fun r => ?_, fun primary hprimary r => ?_⟩
  · rw [hsame.pen]
    exact h.pen
  · rw [rowCells, hsame.cells, hsame.size]
    exact h.rows r
  · rw [hsame.parked] at hprimary
    rw [hsame.size]
    exact h.parked primary hprimary r

/-- Other cells, with the same pen and the same primary screen. -/
theorem Glyphs.withRows (h : s.Glyphs) (hsize : t.size = s.size) (hparked : t.parked = s.parked)
    (hpen : t.pen = s.pen) (hrows : ∀ r, WholeRow (t.rowCells r)) : t.Glyphs := by
  refine ⟨?_, hrows, fun primary hprimary r => ?_⟩
  · rw [hpen]
    exact h.pen
  · rw [hparked] at hprimary
    rw [hsize]
    exact h.parked primary hprimary r

/-! ## Rows that move -/

theorem Step.parked (hstep : Step s t) : t.parked = s.parked := by
  cases hstep with
  | quiet hpicture => exact congrArg Picture.parked hpicture
  | paint => rfl
  | push row =>
    obtain ⟨_, _, _, heq⟩ := pushScrollback_eq s row
    rw [heq]
  | clear =>
    rw [clearScrollback]
    split <;> rfl

theorem Steps.parked (hsteps : Steps s t) : t.parked = s.parked := by
  induction hsteps with
  | refl => rfl
  | tail _ hstep ih => exact hstep.parked.trans ih

theorem Glyphs.scrolls (h : s.Glyphs) (hscrolls : s.Scrolls t) (hrows : ∀ r, WholeRow (t.rowCells r)) :
    t.Glyphs :=
  h.withRows hscrolls.size (Steps.parked hscrolls.steps) (congrArg Hand.pen hscrolls.hand) hrows

theorem Glyphs.scrollUp (h : s.Glyphs) (hs : s.Sound) (count : Nat) : (s.scrollUp count).Glyphs := by
  obtain ⟨hscrolls, hmoves, -⟩ := scrollUp_spec hs count
  refine h.scrolls hscrolls fun r => ?_
  rw [hmoves r]
  split
  · split
    · exact h.rows _
    · exact wholeRow_replicate _ (blank_erased _)
  · exact h.rows r

theorem Glyphs.scrollDown (h : s.Glyphs) (hs : s.Sound) (count : Nat) : (s.scrollDown count).Glyphs := by
  obtain ⟨hscrolls, hmoves⟩ := scrollDown_spec hs count
  refine h.scrolls hscrolls fun r => ?_
  rw [hmoves r]
  split
  · split
    · exact h.rows _
    · exact wholeRow_replicate _ (blank_erased _)
  · exact h.rows r

theorem Glyphs.scrollFromCursor (h : s.Glyphs) (hs : s.Sound) {scroll : TerminalScreen → TerminalScreen}
    (hscroll : ∀ u : TerminalScreen, u.Sound → u.Glyphs → (scroll u).Glyphs) :
    (s.scrollFromCursor scroll).Glyphs := by
  rw [TerminalScreen.scrollFromCursor]
  split
  · exact h
  · next hinside =>
    push Not at hinside
    have hmoved : Steps s { s with scrollTop := s.cursor.row } :=
      steps_quiet rfl ⟨hs.cursorRow, hs.cursorCol, hinside.2, hs.bottom, hs.params, hs.marks⟩
    have hscrolled := hscroll _ (hmoved.sound hs) (h.same ⟨rfl, rfl, rfl, rfl⟩)
    exact hscrolled.same ⟨rfl, rfl, rfl, rfl⟩

theorem Glyphs.advanceRow (h : s.Glyphs) (hs : s.Sound) : s.advanceRow.Glyphs := by
  rw [TerminalScreen.advanceRow]
  split
  · exact h.scrollUp hs 1
  split
  · exact h.same ⟨rfl, rfl, rfl, rfl⟩
  · exact h

theorem Glyphs.lineFeed (h : s.Glyphs) (hs : s.Sound) : s.lineFeed.Glyphs := by
  have hplain : Steps s { s with pendingWrap := false } :=
    steps_quiet rfl ⟨hs.cursorRow, hs.cursorCol, hs.region, hs.bottom, hs.params, hs.marks⟩
  exact Glyphs.advanceRow (h.same ⟨rfl, rfl, rfl, rfl⟩) (hplain.sound hs)

theorem Glyphs.reverseIndex (h : s.Glyphs) (hs : s.Sound) : s.reverseIndex.Glyphs := by
  have hmoved : Glyphs (if s.cursor.row = s.scrollTop then s.scrollDown 1
      else { s with cursor := { s.cursor with row := s.cursor.row - 1 } }) := by
    split
    · exact h.scrollDown hs 1
    · exact h.same ⟨rfl, rfl, rfl, rfl⟩
  exact hmoved.same ⟨rfl, rfl, rfl, rfl⟩

theorem Glyphs.wrapRow (h : s.Glyphs) (hs : s.Sound) : s.wrapRow.Glyphs := by
  have hmoved : Steps s { s with cursor := { s.cursor with col := 0 } } :=
    steps_quiet rfl ⟨hs.cursorRow, Nat.zero_lt_of_lt hs.cursorCol, hs.region, hs.bottom, hs.params, hs.marks⟩
  exact Glyphs.advanceRow (h.same ⟨rfl, rfl, rfl, rfl⟩) (hmoved.sound hs)

theorem Glyphs.deferredWrap (h : s.Glyphs) (hs : s.Sound) : s.deferredWrap.Glyphs := by
  have hplain : Steps s { s with pendingWrap := false } :=
    steps_quiet rfl ⟨hs.cursorRow, hs.cursorCol, hs.region, hs.bottom, hs.params, hs.marks⟩
  rw [TerminalScreen.deferredWrap]
  split
  · split
    · exact Glyphs.wrapRow (h.same ⟨rfl, rfl, rfl, rfl⟩) (hplain.sound hs)
    · exact h.same ⟨rfl, rfl, rfl, rfl⟩
  · exact h

theorem Glyphs.earlyWrap (h : s.Glyphs) (hs : s.Sound) (n : Nat) : (s.earlyWrap n).Glyphs := by
  rw [TerminalScreen.earlyWrap]
  split
  · exact h.wrapRow hs
  · exact h

/-! ## Cells that are written -/

/-- Cells of one row that are written one after another. -/
theorem writeCells_row (hs : s.cells.length = s.size.rows * s.size.cols) {target : Nat}
    (htarget : target < s.size.rows) (value : List Cell → Nat → Cell) {cols : List Nat} (hcols : ∀ col ∈ cols, col < s.size.cols)
    (hstable : cols.Pairwise fun a b => ∀ (cells : List Cell) (x : Cell),
      value (cells.set (target * s.size.cols + a) x) b = value cells b) (c : Nat) :
    ((s.writeCells target cols value).rowCells target)[c]? =
      if c ∈ cols then some (value s.cells c) else (s.rowCells target)[c]? := by
  have hend := row_end_le s.size.cols htarget
  rw [rowCells, rowCells, getElem?_row, getElem?_row]
  show (if c < s.size.cols then
    (cols.foldl (fun cells col => cells.set (target * s.size.cols + col) (value cells col)) s.cells)[
      target * s.size.cols + c]? else none) = _
  by_cases hc : c < s.size.cols
  · rw [if_pos hc, if_pos hc, getElem?_foldl_set _ value cols hstable s.cells (by rw [hs]; omega)]
  · rw [if_neg hc, if_neg hc, if_neg fun hmem => hc (hcols c hmem)]

/-- The row that is written decides. -/
theorem Glyphs.writeCells (h : s.Glyphs) {target : Nat} {cols : List Nat} {value : List Cell → Nat → Cell}
    (hcols : ∀ col ∈ cols, col < s.size.cols)
    (hrow : WholeRow ((s.writeCells target cols value).rowCells target)) :
    (s.writeCells target cols value).Glyphs := by
  refine h.withRows rfl rfl rfl fun r => ?_
  by_cases heq : r = target
  · subst heq
    exact hrow
  · have houtside := (writeCells_writesRow s target cols value hcols).outside r heq
    rw [show (s.writeCells target cols value).rowCells r = s.rowCells r from houtside]
    exact h.rows r

theorem length_writeCells (s : TerminalScreen) (target : Nat) (cols : List Nat) (value : List Cell → Nat → Cell)
    (hcols : ∀ col ∈ cols, col < s.size.cols) (r : Nat) :
    ((s.writeCells target cols value).rowCells r).length = (s.rowCells r).length := by
  have hlength := (writeCells_writesRow s target cols value hcols).length
  rw [rowCells, rowCells, row, row, List.length_take, List.length_take, List.length_drop, List.length_drop,
    hlength]
  rfl

theorem Glyphs.eraseCols (h : s.Glyphs) (hs : s.Sound) {target : Nat} (htarget : target < s.size.rows)
    (start : Nat) {stop : Nat} (hstop : stop ≤ s.size.cols) : (s.eraseCols target start stop).Glyphs := by
  have hcols : ∀ col ∈ List.range' start (stop - start), col < s.size.cols := by
    intro col hcol
    rw [List.mem_range'_1] at hcol
    omega
  refine h.writeCells hcols ((h.rows target).blank (length_writeCells s _ _ _ hcols _) fun col cell hcell => ?_)
  rw [writeCells_row hs.cells htarget _ hcols (List.pairwise_of_forall fun _ _ _ _ => rfl)] at hcell
  split_ifs at hcell
  · right
    rw [← Option.some.inj hcell]
    exact blank_erased _
  · exact .inl hcell

theorem Glyphs.eraseInLine (h : s.Glyphs) (hs : s.Sound) (selector : Nat) :
    (s.eraseInLine selector).Glyphs := by
  have herased := fun start stop : Nat =>
    h.eraseCols hs hs.cursorRow start (Nat.min_le_right stop s.size.cols)
  exact (herased _ _).same ⟨rfl, rfl, rfl, rfl⟩

theorem Glyphs.eraseCells (h : s.Glyphs) (hs : s.Sound) (count : Nat) : (s.eraseCells count).Glyphs :=
  (h.eraseCols hs hs.cursorRow _ (Nat.min_le_right _ _)).same ⟨rfl, rfl, rfl, rfl⟩

theorem Sound.withCells (hs : s.Sound) {cells : List Cell} (hlength : cells.length = s.cells.length) :
    (s.withCells cells).Sound :=
  ⟨⟨hs.cursorRow, hs.cursorCol, hs.region, hs.bottom, hs.params, hs.marks⟩, hlength.trans hs.cells,
    hs.scrollback, hs.parked, hs.damage, hs.unharmed⟩

theorem eraseDisplayRow_glyphs (h : s.Glyphs) (hs : s.Sound) (selector : Nat) {r : Nat}
    (hr : r < s.size.rows) :
    ∃ cells, eraseDisplayRow selector s r = s.withCells cells ∧ cells.length = s.cells.length ∧
      (s.withCells cells).Glyphs := by
  have herased : ∀ start stop, stop ≤ s.size.cols → ∃ cells, s.eraseCols r start stop = s.withCells cells ∧
      cells.length = s.cells.length ∧ (s.withCells cells).Glyphs :=
    fun start stop hstop =>
      ⟨_, rfl, (eraseCols_writesRow s r hstop).length, h.eraseCols hs hr start hstop⟩
  rw [eraseDisplayRow]
  split
  · exact herased _ _ le_rfl
  split
  · exact herased _ _ (Nat.min_le_right _ _)
  · exact herased _ _ le_rfl

theorem eraseDisplayRows_glyphs (h : s.Glyphs) (hs : s.Sound) (selector : Nat) (rows : List Nat)
    (hrows : ∀ r ∈ rows, r < s.size.rows) : (rows.foldl (eraseDisplayRow selector) s).Glyphs := by
  induction rows generalizing s with
  | nil => exact h
  | cons first rows ih =>
    obtain ⟨cells, heq, hlength, herased⟩ := eraseDisplayRow_glyphs h hs selector (hrows first List.mem_cons_self)
    rw [List.foldl_cons, heq]
    exact ih herased (hs.withCells hlength) fun r hr => hrows r (List.mem_cons_of_mem _ hr)

theorem Glyphs.eraseInDisplay (h : s.Glyphs) (hs : s.Sound) (selector : Nat) :
    (s.eraseInDisplay selector).Glyphs := by
  have hrows := hs.cursorRow
  rw [TerminalScreen.eraseInDisplay]
  split
  · rw [clearScrollback]
    split
    · exact h
    · exact h.same ⟨rfl, rfl, rfl, rfl⟩
  generalize (if selector = 1 then (0, s.cursor.row)
    else if selector = 2 then (0, s.size.rows - 1) else (s.cursor.row, s.size.rows - 1)) = range
  refine Glyphs.same (eraseDisplayRows_glyphs h hs selector
    (List.range' range.1 (min range.2 (s.size.rows - 1) + 1 - range.1)) ?_) ⟨rfl, rfl, rfl, rfl⟩
  intro r hr
  rw [List.mem_range'_1] at hr
  omega

/-- Inserting cells does not push the second half of a wide glyph over the right edge. -/
def InsertFits (s : TerminalScreen) (count : Nat) : Prop :=
  s.cursor.col + count < s.size.cols →
    wideAt (s.rowCells s.cursor.row) (s.size.cols - 1 - count) = false

theorem Glyphs.insertCells (h : s.Glyphs) (hs : s.Sound) {count : Nat} (hcount : 0 < count)
    (hfits : s.InsertFits count) : (s.insertCells count).Glyphs := by
  have hcursor := hs.cursorCol
  have hlength := length_row hs.cells hs.cursorRow
  have hcols : ∀ col ∈ (List.range' s.cursor.col (s.size.cols - s.cursor.col)).reverse, col < s.size.cols := by
    intro col hcol
    rw [List.mem_reverse, List.mem_range'_1] at hcol
    omega
  rw [TerminalScreen.insertCells]
  generalize hk : min count (s.size.cols - s.cursor.col) = k
  -- a cell is read before anything is written to the left of it
  have hrow := writeCells_row hs.cells hs.cursorRow
    (fun cells target => ((if k ≤ target ∧ s.cursor.col ≤ target - k then
      cells[s.cursor.row * s.size.cols + (target - k)]? else none)).getD (.erased s.pen)) hcols
    (by
      rw [List.pairwise_reverse]
      refine (List.pairwise_lt_range' 1).imp ?_
      intro a b hab cells x
      rw [List.getElem?_set_ne (by omega)])
  refine Glyphs.same (h.writeCells hcols ?_) ⟨rfl, rfl, rfl, rfl⟩
  refine (h.rows s.cursor.row).insert s.cursor.col k (by omega)
    (length_writeCells s _ _ _ hcols _) (fun c hc => ?_) (fun c cell hc hc' hcell => ?_) (fun c hc hc' => ?_)
    fun hin => ?_
  · rw [hrow, if_neg]
    rw [List.mem_reverse, List.mem_range'_1]
    omega
  · rw [hrow] at hcell
    split_ifs at hcell with hmem hsource
    · omega
    · rw [← Option.some.inj hcell]
      exact blank_erased _
    · rw [List.mem_reverse, List.mem_range'_1] at hmem
      have := (List.getElem?_eq_some_iff.mp hcell).1
      rw [show (s.rowCells s.cursor.row).length = s.size.cols from hlength] at this
      omega
  · rw [show (s.rowCells s.cursor.row).length = s.size.cols from hlength] at hc'
    have hend := row_end_le s.size.cols hs.cursorRow
    rw [hrow, if_pos, if_pos (by omega), rowCells, getElem?_row, if_pos (by omega),
      List.getElem?_eq_getElem (by rw [hs.cells]; omega)]
    · rfl
    · rw [List.mem_reverse, List.mem_range'_1]
      omega
  · rw [show (s.rowCells s.cursor.row).length = s.size.cols from hlength] at hin ⊢
    obtain rfl : k = count := by omega
    exact hfits hin

/-- Deleting cells does not bring a glyph behind the first half of another one. -/
def DeleteFits (s : TerminalScreen) (count : Nat) : Prop :=
  0 < s.cursor.col → wideAt (s.rowCells s.cursor.row) (s.cursor.col - 1) = true →
    s.cursor.col + count < s.size.cols → glyphAt (s.rowCells s.cursor.row) (s.cursor.col + count) = false

theorem Glyphs.deleteCells (h : s.Glyphs) (hs : s.Sound) {count : Nat} (hfits : s.DeleteFits count) : (s.deleteCells count).Glyphs := by
  have hcursor := hs.cursorCol
  have hlength := length_row hs.cells hs.cursorRow
  have hcols : ∀ col ∈ List.range' s.cursor.col (s.size.cols - s.cursor.col), col < s.size.cols := by
    intro col hcol
    rw [List.mem_range'_1] at hcol
    omega
  -- a cell is read before anything is written to the right of it
  have hrow := writeCells_row hs.cells hs.cursorRow
    (fun cells target => ((if target + count < s.size.cols then
      cells[s.cursor.row * s.size.cols + (target + count)]? else none)).getD (.erased s.pen)) hcols
    (by
      refine (List.pairwise_lt_range' 1).imp ?_
      intro a b hab cells x
      rw [List.getElem?_set_ne (by omega)])
  refine Glyphs.same (h.writeCells hcols ?_) ⟨rfl, rfl, rfl, rfl⟩
  refine (h.rows s.cursor.row).delete s.cursor.col count
    (length_writeCells s _ _ _ hcols _) (fun c hc => ?_) (fun c hc hc' => ?_) (fun c cell hc hc' hcell => ?_) ?_
  · rw [hrow, if_neg]
    rw [List.mem_range'_1]
    omega
  · rw [show (s.rowCells s.cursor.row).length = s.size.cols from hlength] at hc'
    have hend := row_end_le s.size.cols hs.cursorRow
    rw [hrow, if_pos, if_pos hc', rowCells, getElem?_row, if_pos hc',
      List.getElem?_eq_getElem (by rw [hs.cells]; omega)]
    · rfl
    · rw [List.mem_range'_1]
      omega
  · rw [show (s.rowCells s.cursor.row).length = s.size.cols from hlength] at hc'
    rw [hrow] at hcell
    split_ifs at hcell with hmem hin
    · omega
    · rw [← Option.some.inj hcell]
      exact blank_erased _
    · rw [List.mem_range'_1] at hmem
      have := (List.getElem?_eq_some_iff.mp hcell).1
      rw [show (s.rowCells s.cursor.row).length = s.size.cols from hlength] at this
      omega
  · rw [show (s.rowCells s.cursor.row).length = s.size.cols from hlength]
    exact hfits

/-! ## Glyphs that are written -/

/-- The column a glyph goes to: wraps are carried out before. -/
def glyphColumn (s : TerminalScreen) (columns : Nat) : Nat :=
  let col := if s.pendingWrap = true ∧ s.autowrap = true then 0 else s.cursor.col
  if columns = 2 ∧ s.size.cols < col + 2 ∧ s.autowrap = true then 0 else col

/-- There is room for both halves of a wide glyph, and no glyph is written over the second half of
another one. -/
def PutFits (s : TerminalScreen) (ch : Char) : Prop :=
  width ch ≠ 0 → (width ch = 2 → s.glyphColumn (width ch) + 2 ≤ s.size.cols) ∧
    (0 < s.glyphColumn (width ch) →
      wideAt (s.rowCells s.cursor.row) (s.glyphColumn (width ch) - 1) = false)

/-- Characters that are written one after another fit. -/
def PutsFit : List Char → TerminalScreen → Prop
  | [], _ => True
  | ch :: text, s => s.PutFits width ch ∧ PutsFit text (s.putChar width ch)

/-- What a new row leaves as it is. -/
structure KeepsColumn (s t : TerminalScreen) : Prop where
  size : t.size = s.size
  col : t.cursor.col = s.cursor.col
  autowrap : t.autowrap = s.autowrap

theorem advanceRow_keepsColumn (hs : s.Sound) : KeepsColumn s s.advanceRow := by
  rw [TerminalScreen.advanceRow]
  split
  · have hscrolls := (scrollUp_spec hs 1).1
    exact ⟨hscrolls.size, congrArg (fun hand => hand.cursor.col) hscrolls.hand,
      congrArg Hand.autowrap hscrolls.hand⟩
  split
  · exact ⟨rfl, rfl, rfl⟩
  · exact ⟨rfl, rfl, rfl⟩

theorem wrapRow_keepsColumn (hs : s.Sound) : KeepsColumn { s with cursor := { s.cursor with col := 0 } } s.wrapRow := by
  have hmoved : Steps s { s with cursor := { s.cursor with col := 0 } } :=
    steps_quiet rfl ⟨hs.cursorRow, Nat.zero_lt_of_lt hs.cursorCol, hs.region, hs.bottom, hs.params, hs.marks⟩
  exact advanceRow_keepsColumn (hmoved.sound hs)

/-- Where a glyph goes after the wraps. -/
structure WrappedTo (s t : TerminalScreen) (target : Nat) : Prop where
  size : t.size = s.size
  autowrap : t.autowrap = s.autowrap
  col : t.cursor.col = target
  row : 0 < target → t.rowCells t.cursor.row = s.rowCells s.cursor.row

theorem deferredWrap_wrappedTo (hs : s.Sound) : WrappedTo s s.deferredWrap
    (if s.pendingWrap = true ∧ s.autowrap = true then 0 else s.cursor.col) := by
  have hplain : Steps s { s with pendingWrap := false } :=
    steps_quiet rfl ⟨hs.cursorRow, hs.cursorCol, hs.region, hs.bottom, hs.params, hs.marks⟩
  rw [TerminalScreen.deferredWrap]
  split
  · next hpending =>
    split
    · next hauto =>
      have hwrapped := wrapRow_keepsColumn (hplain.sound hs)
      rw [if_pos ⟨hpending, hauto⟩]
      exact ⟨hwrapped.size, hwrapped.autowrap, hwrapped.col, fun hpos => absurd hpos (Nat.lt_irrefl 0)⟩
    · next hauto =>
      rw [if_neg fun hboth => hauto hboth.2]
      exact ⟨rfl, rfl, rfl, fun _ => rfl⟩
  · next hpending =>
    rw [if_neg fun hboth => hpending hboth.1]
    exact ⟨rfl, rfl, rfl, fun _ => rfl⟩

theorem wraps_wrappedTo (hs : s.Sound) (columns : Nat) :
    WrappedTo s (s.deferredWrap.earlyWrap columns) (s.glyphColumn columns) := by
  have hdeferred := deferredWrap_wrappedTo hs
  have hsound := (deferredWrap_steps hs).sound hs
  rw [TerminalScreen.earlyWrap, glyphColumn, hdeferred.size, hdeferred.autowrap, hdeferred.col]
  generalize (if s.pendingWrap = true ∧ s.autowrap = true then 0 else s.cursor.col) = col at hdeferred ⊢
  split
  · have hwrapped := wrapRow_keepsColumn hsound
    exact ⟨hwrapped.size.trans hdeferred.size, hwrapped.autowrap.trans hdeferred.autowrap, hwrapped.col,
      fun hpos => absurd hpos (Nat.lt_irrefl 0)⟩
  · exact hdeferred

theorem setCell_eq {r col : Nat} (hr : r < s.size.rows) (hcol : col < s.size.cols) (cell : Cell) :
    s.setCell r col cell = s.withCells (s.cells.set (r * s.size.cols + col) cell) := by
  rw [setCell, if_neg (by omega)]
  rfl

theorem Glyphs.putGlyph (h : s.Glyphs) (hs : s.Sound) (ch : Char) {columns : Nat}
    (hroom : columns = 2 → s.cursor.col + 2 ≤ s.size.cols)
    (hbefore : 0 < s.cursor.col → wideAt (s.rowCells s.cursor.row) (s.cursor.col - 1) = false) :
    (s.putGlyph ch columns).Glyphs := by
  have hcursor := hs.cursorCol
  have hlength := length_row hs.cells hs.cursorRow
  -- the cells after the glyph has been written
  have hwritten : ∀ attrs : CellAttrs, (columns ≠ 2 → PlainPen attrs) → ∃ cells,
      (if columns = 2 then
        (s.setCell s.cursor.row s.cursor.col ⟨some ch, attrs⟩).setCell s.cursor.row (s.cursor.col + 1)
          ⟨none, s.pen⟩
      else s.setCell s.cursor.row s.cursor.col ⟨some ch, attrs⟩) = s.withCells cells ∧
        ∀ r, WholeRow (row s.size.cols cells r) := by
    intro attrs hattrs
    rw [setCell_eq hs.cursorRow hcursor]
    split
    · next htwo =>
      have hroom := hroom htwo
      have hnext : s.cursor.col + 1 < s.size.cols := by omega
      refine ⟨_, setCell_eq (s := s.withCells (s.cells.set (s.cursor.row * s.size.cols + s.cursor.col)
        ⟨some ch, attrs⟩)) hs.cursorRow hnext _, fun r => ?_⟩
      show WholeRow (row s.size.cols
        ((s.cells.set _ _).set (s.cursor.row * s.size.cols + (s.cursor.col + 1)) _) r)
      rw [row_set hnext, row_set hcursor]
      split
      · next heq =>
        subst heq
        exact (h.rows s.cursor.row).setWide (by rw [show (s.rowCells s.cursor.row).length = _ from hlength]; exact hnext)
          ⟨rfl, h.pen⟩ hbefore
      · exact h.rows r
    · next hnarrow =>
      refine ⟨_, rfl, fun r => ?_⟩
      rw [row_set hcursor]
      split
      · next heq =>
        subst heq
        exact (h.rows s.cursor.row).set _ (hattrs hnarrow) hbefore
      · exact h.rows r
  obtain ⟨cells, hcells, hrows⟩ := hwritten
    (if columns = 2 then { s.pen with flags := s.pen.flags.union .WIDE } else s.pen) fun hne => by
      rw [if_neg hne]
      exact h.pen
  rw [TerminalScreen.putGlyph]
  dsimp only
  rw [hcells]
  split
  · exact h.withRows rfl rfl rfl hrows
  · exact h.withRows rfl rfl rfl hrows

theorem Glyphs.putChar (h : s.Glyphs) (hs : s.Sound) {ch : Char} (hfits : s.PutFits width ch) :
    (s.putChar width ch).Glyphs := by
  rw [TerminalScreen.putChar]
  split
  · exact h
  · next hzero =>
    obtain ⟨hroom, hbefore⟩ := hfits hzero
    have hdeferred := (deferredWrap_steps hs).sound hs
    have hwrapped := wraps_wrappedTo hs (width ch)
    refine ((h.deferredWrap hs).earlyWrap hdeferred _).putGlyph ((earlyWrap_steps hdeferred _).sound hdeferred) ch
      (fun htwo => ?_) fun hpos => ?_
    · rw [hwrapped.col, hwrapped.size]
      exact hroom htwo
    · rw [hwrapped.col] at hpos
      rw [hwrapped.row hpos, hwrapped.col]
      exact hbefore hpos

theorem Glyphs.putChars (h : s.Glyphs) (hs : s.Sound) {text : List Char} (hfits : PutsFit width text s) :
    (text.foldl (TerminalScreen.putChar width) s).Glyphs := by
  induction text generalizing s with
  | nil => exact h
  | cons ch text ih =>
    exact ih (h.putChar width hs hfits.1) ((putChar_steps width hs ch).sound hs) hfits.2

/-! ## Switches and sizes -/

theorem Glyphs.sgr (h : s.Glyphs) : s.sgr.Glyphs := by
  rw [TerminalScreen.sgr]
  split
  · exact ⟨show PlainPen .default from rfl, h.rows, h.parked⟩
  · exact ⟨h.pen.sgrCodes _ _ _, h.rows, h.parked⟩

theorem wholeRow_row_replicate (cols n r : Nat) : WholeRow (row cols (List.replicate n Cell.EMPTY) r) := by
  rw [row, List.drop_replicate, List.take_replicate]
  exact wholeRow_replicate _ blank_empty

theorem Glyphs.setAltscreen (h : s.Glyphs) (enable save : Bool) : (s.setAltscreen enable save).Glyphs := by
  rw [TerminalScreen.setAltscreen]
  split
  · exact h
  cases enable with
  | true =>
    refine ⟨h.pen, fun r => wholeRow_row_replicate _ _ r, fun primary hprimary => ?_⟩
    obtain rfl : s.cells = primary := Option.some.inj hprimary
    exact h.rows
  | false =>
    refine ⟨h.pen, fun r => ?_, fun primary hprimary => ?_⟩
    · show WholeRow (row s.size.cols (s.parked.getD s.cells) r)
      cases hparked : s.parked with
      | none => exact h.rows r
      | some primary => exact h.parked primary hparked r
    · cases hprimary

theorem Glyphs.setModeOf (h : s.Glyphs) (enable : Bool) (code : Nat) : (setModeOf enable s code).Glyphs := by
  rw [TerminalScreen.setModeOf]
  split
  · exact h.same ⟨rfl, rfl, rfl, rfl⟩
  split
  · exact h.same ⟨rfl, rfl, rfl, rfl⟩
  split
  · exact h.setAltscreen enable false
  split
  · exact h.setAltscreen enable true
  · exact h

theorem Glyphs.setMode (h : s.Glyphs) (enable : Bool) : (s.setMode enable).Glyphs := by
  have hall : ∀ (codes : List Nat) (u : TerminalScreen), u.Glyphs →
      (codes.foldl (TerminalScreen.setModeOf enable) u).Glyphs := by
    intro codes
    induction codes with
    | nil => exact fun _ hu => hu
    | cons code codes ih => exact fun u hu => ih _ (hu.setModeOf enable code)
  rw [TerminalScreen.setMode]
  split
  · exact h
  · exact hall _ s h

theorem reset_glyphs (s : TerminalScreen) : s.reset.Glyphs :=
  ⟨show PlainPen .default from rfl, fun r => wholeRow_row_replicate _ _ r, fun _ hprimary => by cases hprimary⟩

/-- A narrower screen does not cut a wide glyph. -/
def ResizeFits (s : TerminalScreen) (size : ScreenSize) : Prop :=
  let size := ScreenSize.new size.rows size.cols
  size.cols < s.size.cols →
    ∀ r < min size.rows s.size.rows, wideAt (s.rowCells r) (size.cols - 1) = false

/-- The cells of a row are copied one after another. -/
theorem resizedRow_eq (hs : s.Sound) (size : ScreenSize) (cells : List Cell) {r : Nat} (hr : r < s.size.rows) :
    s.resizedRow size cells r = (TerminalScreen.writeCells { s with size, cells } r
      (List.range (min size.cols s.size.cols)) fun _ col =>
        (s.cells[r * s.size.cols + col]?).getD .EMPTY).cells := by
  have hend := row_end_le s.size.cols hr
  rw [resizedRow, TerminalScreen.writeCells]
  refine List.foldl_ext _ _ _ fun cells col hcol => ?_
  have hlt := List.mem_range.mp hcol
  rw [List.getElem?_eq_getElem (by rw [hs.cells]; omega)]
  rfl

/-- As many rows as have been copied are whole, and the others are as they were. -/
structure Copied (size : ScreenSize) (n : Nat) (old new : List Cell) : Prop where
  length : new.length = size.rows * size.cols
  done : ∀ r < n, WholeRow (row size.cols new r)
  rest : ∀ r, n ≤ r → row size.cols new r = row size.cols old r

theorem resizedRows_copied (h : s.Glyphs) (hs : s.Sound) (size : ScreenSize)
    (hfits : size.cols < s.size.cols →
      ∀ r < min size.rows s.size.rows, wideAt (s.rowCells r) (size.cols - 1) = false)
    {n : Nat} (hn : n ≤ min size.rows s.size.rows) :
    Copied size n (List.replicate (size.rows * size.cols) .EMPTY)
      ((List.range n).foldl (s.resizedRow size) (List.replicate (size.rows * size.cols) .EMPTY)) := by
  induction n with
  | zero => exact ⟨List.length_replicate, by simp, fun _ _ => rfl⟩
  | succ n ih =>
    obtain ⟨hlength, hdone, hrest⟩ := ih (by omega)
    rw [List.range_succ, List.foldl_append, List.foldl_cons, List.foldl_nil,
      resizedRow_eq hs size _ (show n < s.size.rows by omega)]
    generalize (List.range n).foldl (s.resizedRow size) (List.replicate (size.rows * size.cols) .EMPTY) = cells
      at hlength hdone hrest ⊢
    have hcols : ∀ col ∈ List.range (min size.cols s.size.cols), col < size.cols := by
      intro col hcol
      have := List.mem_range.mp hcol
      omega
    have hwrites := writeCells_writesRow { s with size, cells } n (List.range (min size.cols s.size.cols))
      (fun _ col => (s.cells[n * s.size.cols + col]?).getD .EMPTY) hcols
    have hrow := writeCells_row (s := { s with size, cells }) hlength (show n < size.rows by omega)
      (fun _ col => (s.cells[n * s.size.cols + col]?).getD .EMPTY) hcols
      (List.pairwise_of_forall fun _ _ _ _ => rfl)
    have hold : (s.rowCells n).length = s.size.cols := length_row hs.cells (by omega)
    refine ⟨hwrites.length.trans hlength, fun r hr => ?_, fun r hr => ?_⟩
    · by_cases hlast : r = n
      · subst hlast
        refine (h.rows r).resize size.cols ?_ (fun c hc hin => ?_) (fun c cell hin hcell => ?_) ?_
        · exact length_row (hwrites.length.trans hlength) (by omega)
        · rw [hold] at hin
          have hend := row_end_le s.size.cols (show r < s.size.rows by omega)
          refine (hrow c).trans ?_
          rw [if_pos (List.mem_range.mpr (by omega)), rowCells, getElem?_row, if_pos hin,
            List.getElem?_eq_getElem (by rw [hs.cells]; omega)]
          rfl
        · rw [hold] at hin
          have hcell := (hrow c).symm.trans hcell
          rw [if_neg (fun hmem => by have := List.mem_range.mp hmem; omega)] at hcell
          have hempty : (row size.cols cells r)[c]? = some cell := hcell
          rw [hrest r le_rfl, row, List.drop_replicate, List.take_replicate, List.getElem?_replicate] at hempty
          split_ifs at hempty
          rw [← Option.some.inj hempty]
          exact blank_empty
        · rw [hold]
          intro hcut
          exact hfits hcut r (by omega)
      · exact (hwrites.outside r hlast) ▸ hdone r (by omega)
    · exact (hwrites.outside r (by omega)).trans (hrest r (by omega))

theorem Glyphs.resize (h : s.Glyphs) (hs : s.Sound) {size : ScreenSize} (hfits : s.ResizeFits size) :
    (s.resize size).Glyphs := by
  rw [ResizeFits] at hfits
  rw [TerminalScreen.resize]
  generalize ScreenSize.new size.rows size.cols = size at hfits ⊢
  dsimp only
  split
  · exact h
  · obtain ⟨-, hdone, hrest⟩ := resizedRows_copied h hs size hfits le_rfl
    have hrow : ∀ r, WholeRow (row size.cols ((List.range (min size.rows s.size.rows)).foldl
        (s.resizedRow size) (List.replicate (size.rows * size.cols) .EMPTY)) r) := by
      intro r
      rcases lt_or_ge r (min size.rows s.size.rows) with hr | hr
      · exact hdone r hr
      · rw [hrest r hr]
        exact wholeRow_row_replicate _ _ r
    exact ⟨h.pen, hrow, fun _ hprimary => by cases hprimary⟩

/-! ## The parser -/

/-- The characters a byte writes outside of sequences. -/
def groundText (byte : UInt8) : List Char :=
  if byte < 0x20 ∨ byte = 0x7f then []
  else if byte < 0x80 then [Char.ofNat byte.toNat]
  else if (Utf8.followers byte).isNone then ['\uFFFD']
  else []

/-- No wide glyph is cut by a byte. -/
def ByteFits (s : TerminalScreen) (byte : UInt8) : Prop :=
  match s.state with
  | .ground => PutsFit width (groundText byte) s
  | .utf8 =>
    if 0x80 ≤ byte ∧ byte ≤ 0xbf then
      let utf8 := accumulate s.utf8 byte
      utf8.need ≤ utf8.bytes.length →
        PutsFit width ((Utf8.decode? utf8.bytes).getD ['\uFFFD']) { s with utf8, state := .ground }
    else PutsFit width ('\uFFFD' :: groundText byte) { s with state := .ground }
  | .csi =>
    (0x7f < byte → PutsFit width (groundText byte) s) ∧
      (s.csi.intermediate = none →
        (byte = 0x40 → s.InsertFits (s.csi.count 0 1)) ∧ (byte = 0x50 → s.DeleteFits (s.csi.count 0 1)))
  | .esc | .stringSeq | .discard => True

theorem count_pos (csi : CsiAccumulator) (index : Nat) : 0 < csi.count index 1 := by
  rw [CsiAccumulator.count]
  split
  · exact Nat.one_pos
  · exact Nat.one_pos
  · next value hzero _ => exact Nat.pos_of_ne_zero fun h => hzero (by rw [h])

theorem Glyphs.tabs (h : s.Glyphs) (n : Nat) : (tab^[n] s).Glyphs := by
  induction n generalizing s with
  | zero => exact h
  | succ n ih =>
    rw [Function.iterate_succ_apply]
    exact ih (h.same ⟨rfl, rfl, rfl, rfl⟩)

theorem Glyphs.setScrollRegion (h : s.Glyphs) : s.setScrollRegion.Glyphs := by
  rw [TerminalScreen.setScrollRegion]
  split
  · exact h.same ⟨rfl, rfl, rfl, rfl⟩
  · exact h.same ⟨rfl, rfl, rfl, rfl⟩

theorem Glyphs.deviceStatus (h : s.Glyphs) : s.deviceStatus.Glyphs := by
  rw [TerminalScreen.deviceStatus]
  split
  · exact h.same ⟨rfl, rfl, rfl, rfl⟩
  split
  · exact h.same ⟨rfl, rfl, rfl, rfl⟩
  · exact h

theorem Glyphs.dispatchCsi (h : s.Glyphs) (hs : s.Sound) (finalByte : UInt8)
    (hfits : s.csi.intermediate = none → (finalByte = 0x40 → s.InsertFits (s.csi.count 0 1)) ∧
      (finalByte = 0x50 → s.DeleteFits (s.csi.count 0 1))) : (s.dispatchCsi finalByte).Glyphs := by
  rw [TerminalScreen.dispatchCsi]
  split
  · exact h
  next hplain =>
  obtain ⟨hinsert, hdelete⟩ := hfits (by simpa using hplain)
  have hmoved : ∀ row col, (s.moveTo row col).Glyphs := fun _ _ => h.same ⟨rfl, rfl, rfl, rfl⟩
  dsimp only
  split
  · exact h.insertCells hs (count_pos _ _) (hinsert rfl)
  · exact hmoved _ _
  · exact hmoved _ _
  · exact hmoved _ _
  · exact hmoved _ _
  · exact hmoved _ _
  · exact hmoved _ _
  · exact hmoved _ _
  · exact hmoved _ _
  · exact hmoved _ _
  · exact hmoved _ _
  · exact hmoved _ _
  · exact hmoved _ _
  · exact h.tabs _
  · exact hmoved _ _
  · exact h.eraseInDisplay hs _
  · exact h.eraseInLine hs _
  · exact h.scrollFromCursor hs fun _ hu hglyphs => hglyphs.scrollDown hu _
  · exact h.scrollFromCursor hs fun _ hu hglyphs => hglyphs.scrollUp hu _
  · exact h.deleteCells hs (hdelete rfl)
  · exact h.scrollUp hs _
  · exact h.scrollDown hs _
  · exact h.eraseCells hs _
  · exact hmoved _ _
  · split
    · exact h.same ⟨rfl, rfl, rfl, rfl⟩
    · exact h
  · exact h.setMode true
  · exact h.setMode false
  · exact h.sgr
  · exact h.deviceStatus
  · exact h.setScrollRegion
  · exact h.same ⟨rfl, rfl, rfl, rfl⟩
  · exact h.same ⟨rfl, rfl, rfl, rfl⟩
  · exact h

theorem Glyphs.ground (h : s.Glyphs) (hs : s.Sound) {byte : UInt8} (hfits : PutsFit width (groundText byte) s) :
    (s.ground width byte).Glyphs := by
  rw [TerminalScreen.ground]
  split
  · exact h.same ⟨rfl, rfl, rfl, rfl⟩
  split
  · exact h.same ⟨rfl, rfl, rfl, rfl⟩
  split
  · exact h.lineFeed hs
  split
  · exact h.same ⟨rfl, rfl, rfl, rfl⟩
  split
  · exact h.same ⟨rfl, rfl, rfl, rfl⟩
  rw [groundText] at hfits
  split
  · exact h
  next hcontrol =>
  rw [if_neg hcontrol] at hfits
  split
  · next hascii =>
    rw [if_pos hascii] at hfits
    exact h.putChar width hs hfits.1
  · next hascii =>
    rw [if_neg hascii] at hfits
    rw [utf8Begin]
    split
    · next hnone =>
      rw [hnone] at hfits
      exact h.putChar width hs hfits.1
    · exact h.same ⟨rfl, rfl, rfl, rfl⟩

theorem Glyphs.utf8Continue (h : s.Glyphs) (hs : s.Sound) {byte : UInt8} (hstate : s.state = .utf8)
    (hfits : s.ByteFits width byte) : (s.utf8Continue width byte).Glyphs := by
  rw [ByteFits, hstate] at hfits
  dsimp only at hfits
  rw [TerminalScreen.utf8Continue]
  split
  · next hstop =>
    rw [if_neg hstop] at hfits
    have hground := h.same (t := { s with state := .ground }) ⟨rfl, rfl, rfl, rfl⟩
    have hsound := (hs.parser .ground s.utf8 s.stringEsc).sound hs
    exact (hground.putChar width hsound hfits.1).ground width ((putChar_steps width hsound _).sound hsound) hfits.2
  · next hcontinue =>
    rw [if_pos (not_not.mp hcontinue)] at hfits
    dsimp only
    split
    · exact h.same ⟨rfl, rfl, rfl, rfl⟩
    · next hdone =>
      have hfits := hfits (not_lt.mp hdone)
      have hground := h.same (t := { s with utf8 := accumulate s.utf8 byte, state := .ground }) ⟨rfl, rfl, rfl, rfl⟩
      have hsound := (hs.parser .ground (accumulate s.utf8 byte) s.stringEsc).sound hs
      rw [utf8Finish]
      dsimp only
      split
      · next text hdecode =>
        rw [hdecode] at hfits
        exact hground.putChars width hsound hfits
      · next hdecode =>
        rw [hdecode] at hfits
        exact hground.putChar width hsound hfits.1

theorem Glyphs.escape (h : s.Glyphs) (hs : s.Sound) (byte : UInt8) : (s.escape byte).Glyphs := by
  have hground := h.same (t := { s with state := .ground }) ⟨rfl, rfl, rfl, rfl⟩
  have hsound := (hs.parser .ground s.utf8 s.stringEsc).sound hs
  rw [TerminalScreen.escape]
  generalize ({ s with state := .ground } : TerminalScreen) = u at hground hsound ⊢
  have hquiet : ∀ t : TerminalScreen, SameGlyphs u t → t.Glyphs := fun _ hsame => hground.same hsame
  unfold escapeWith
  split
  · exact hquiet _ ⟨rfl, rfl, rfl, rfl⟩
  · exact hquiet _ ⟨rfl, rfl, rfl, rfl⟩
  · exact hquiet _ ⟨rfl, rfl, rfl, rfl⟩
  · exact hquiet _ ⟨rfl, rfl, rfl, rfl⟩
  · exact hquiet _ ⟨rfl, rfl, rfl, rfl⟩
  · exact hquiet _ ⟨rfl, rfl, rfl, rfl⟩
  · exact hquiet _ ⟨rfl, rfl, rfl, rfl⟩
  · exact hquiet _ ⟨rfl, rfl, rfl, rfl⟩
  · exact hquiet _ ⟨rfl, rfl, rfl, rfl⟩
  · exact hquiet _ ⟨rfl, rfl, rfl, rfl⟩
  · exact hquiet _ ⟨rfl, rfl, rfl, rfl⟩
  · exact hquiet _ ⟨rfl, rfl, rfl, rfl⟩
  · exact hquiet _ ⟨rfl, rfl, rfl, rfl⟩
  · exact hquiet _ ⟨rfl, rfl, rfl, rfl⟩
  · exact hquiet _ ⟨rfl, rfl, rfl, rfl⟩
  -- the cursor, the reset, and moves between rows
  · exact hquiet _ ⟨rfl, rfl, rfl, rfl⟩
  · exact hquiet _ ⟨rfl, rfl, rfl, rfl⟩
  · exact reset_glyphs u
  · exact hground.lineFeed hsound
  · have hreturn := hground.same (t := u.carriageReturn) ⟨rfl, rfl, rfl, rfl⟩
    exact hreturn.advanceRow ((carriageReturn_steps hsound).sound hsound)
  · exact hground.reverseIndex hsound
  · exact hquiet _ ⟨rfl, rfl, rfl, rfl⟩
  · exact hground

theorem Glyphs.csiByte (h : s.Glyphs) (hs : s.Sound) {byte : UInt8} (hstate : s.state = .csi)
    (hfits : s.ByteFits width byte) : (s.csiByte width byte).Glyphs := by
  rw [ByteFits, hstate] at hfits
  obtain ⟨htext, hcells⟩ := hfits
  have hground := h.same (t := { s with state := .ground }) ⟨rfl, rfl, rfl, rfl⟩
  have hsound := (hs.parser .ground s.utf8 s.stringEsc).sound hs
  rw [TerminalScreen.csiByte]
  split
  · exact h.same ⟨rfl, rfl, rfl, rfl⟩
  split
  · exact h.same ⟨rfl, rfl, rfl, rfl⟩
  split
  · exact h.same ⟨rfl, rfl, rfl, rfl⟩
  split
  · exact h.same ⟨rfl, rfl, rfl, rfl⟩
  split
  · exact hground.dispatchCsi hsound byte hcells
  split
  · exact h.same ⟨rfl, rfl, rfl, rfl⟩
  · refine h.ground width hs ?_
    by_cases hhigh : 0x7f < byte
    · exact htext hhigh
    · rw [groundText, if_pos]
      · trivial
      · next hdigit hseparator hmarker hintermediate hfinal _ =>
        simp only [UInt8.le_iff_toNat_le, UInt8.lt_iff_toNat_lt, ← UInt8.toNat_inj] at *
        simp only [UInt8.reduceToNat] at *
        omega

theorem Glyphs.stringSeq (h : s.Glyphs) (byte : UInt8) : (s.stringSeq byte).Glyphs := by
  rw [TerminalScreen.stringSeq]
  split
  · split
    · exact h.same ⟨rfl, rfl, rfl, rfl⟩
    · exact h.same ⟨rfl, rfl, rfl, rfl⟩
  split
  · exact h.same ⟨rfl, rfl, rfl, rfl⟩
  split
  · exact h.same ⟨rfl, rfl, rfl, rfl⟩
  · exact h

theorem Glyphs.writeByte (h : s.Glyphs) (hs : s.Sound) {byte : UInt8} (hfits : s.ByteFits width byte) :
    (s.writeByte width byte).Glyphs := by
  rw [TerminalScreen.writeByte]
  split
  · next hstate =>
    rw [ByteFits, hstate] at hfits
    exact h.ground width hs hfits
  · next hstate => exact h.utf8Continue width hs hstate hfits
  · exact h.escape hs byte
  · next hstate => exact h.csiByte width hs hstate hfits
  · exact h.stringSeq byte
  · exact h.same ⟨rfl, rfl, rfl, rfl⟩

/-! ## Runs -/

/-- No wide glyph is cut by an event. -/
def Event.Fits (s : TerminalScreen) : Event → Prop
  | byte b => s.ByteFits width b
  | resize size => s.ResizeFits size
  | limit _ | takeDamage => True

/-- No wide glyph is cut by any event of a run. -/
def RunFits : List Event → TerminalScreen → Prop
  | [], _ => True
  | event :: events, s => event.Fits width s ∧ RunFits events (event.step width s)

theorem Glyphs.step (h : s.Glyphs) (hs : s.Sound) {event : Event} (hfits : event.Fits width s) :
    (event.step width s).Glyphs := by
  cases event with
  | byte b => exact h.writeByte width hs hfits
  | resize size => exact h.resize hs hfits
  | limit n => exact h.same ⟨rfl, rfl, rfl, rfl⟩
  | takeDamage => exact h.same ⟨rfl, rfl, rfl, rfl⟩

theorem Glyphs.run (h : s.Glyphs) (hs : s.Sound) {events : List Event} (hfits : RunFits width events s) :
    (run width events s).Glyphs := by
  induction events generalizing s with
  | nil => exact h
  | cons event events ih => exact ih (h.step width hs hfits.1) (step_sound width hs event) hfits.2

theorem new_glyphs (size : ScreenSize) : (new size).Glyphs :=
  ⟨show PlainPen .default from rfl, fun r => wholeRow_row_replicate _ _ r, fun _ hprimary => by cases hprimary⟩

theorem RunFits.before {before events : List Event} (hbefore : before <+: events)
    (hfits : RunFits width events s) : RunFits width before s := by
  induction before generalizing s events with
  | nil => trivial
  | cons event before ih =>
    obtain ⟨rest, rfl⟩ := hbefore
    exact ⟨hfits.1, ih ⟨rest, rfl⟩ hfits.2⟩

/-- **In a run that cuts no wide glyph, in every state that is reached, every wide cell has its
tail, every glyph is projected, and the spans are those of the cells with a pen of their own.** -/
theorem rowLaw_run (size : ScreenSize) (events : List Event) (hfits : RunFits width events (new size))
    {before : List Event} (hbefore : before <+: events) (r : Nat) :
    RowLaw ((TerminalScreen.run width before (new size)).rowCells r) :=
  (((new_glyphs size).run width (new_sound size) (hfits.before width hbefore)).rows r).law

/-! ### Decisions -/

instance (s : TerminalScreen) (count : Nat) : Decidable (s.InsertFits count) :=
  inferInstanceAs (Decidable (_ → _))

instance (s : TerminalScreen) (count : Nat) : Decidable (s.DeleteFits count) :=
  inferInstanceAs (Decidable (_ → _ → _ → _))

instance (s : TerminalScreen) (ch : Char) : Decidable (s.PutFits width ch) :=
  inferInstanceAs (Decidable (_ → _ ∧ _))

instance decidablePutsFit : ∀ (text : List Char) (s : TerminalScreen), Decidable (PutsFit width text s)
  | [], _ => .isTrue trivial
  | ch :: text, s =>
    have := decidablePutsFit text (s.putChar width ch)
    inferInstanceAs (Decidable (s.PutFits width ch ∧ PutsFit width text (s.putChar width ch)))

instance (s : TerminalScreen) (size : ScreenSize) : Decidable (s.ResizeFits size) :=
  inferInstanceAs (Decidable (_ → ∀ r < _, _))

instance (s : TerminalScreen) (byte : UInt8) : Decidable (s.ByteFits width byte) :=
  match hstate : s.state with
  | .ground => decidable_of_iff (PutsFit width (groundText byte) s) (by rw [ByteFits, hstate])
  | .utf8 =>
    decidable_of_iff (if 0x80 ≤ byte ∧ byte ≤ 0xbf then
        (accumulate s.utf8 byte).need ≤ (accumulate s.utf8 byte).bytes.length →
          PutsFit width ((Utf8.decode? (accumulate s.utf8 byte).bytes).getD ['\uFFFD'])
            { s with utf8 := accumulate s.utf8 byte, state := .ground }
      else PutsFit width ('\uFFFD' :: groundText byte) { s with state := .ground }) (by rw [ByteFits, hstate])
  | .csi =>
    decidable_of_iff ((0x7f < byte → PutsFit width (groundText byte) s) ∧
      (s.csi.intermediate = none → (byte = 0x40 → s.InsertFits (s.csi.count 0 1)) ∧
        (byte = 0x50 → s.DeleteFits (s.csi.count 0 1)))) (by rw [ByteFits, hstate])
  | .esc | .stringSeq | .discard => .isTrue (by rw [ByteFits, hstate]; trivial)

instance (s : TerminalScreen) (event : Event) : Decidable (event.Fits width s) :=
  match event with
  | .byte b => inferInstanceAs (Decidable (s.ByteFits width b))
  | .resize size => inferInstanceAs (Decidable (s.ResizeFits size))
  | .limit _ | .takeDamage => .isTrue trivial

instance decidableRunFits : ∀ (events : List Event) (s : TerminalScreen), Decidable (RunFits width events s)
  | [], _ => .isTrue trivial
  | event :: events, s =>
    have := decidableRunFits events (event.step width s)
    inferInstanceAs (Decidable (event.Fits width s ∧ RunFits width events (event.step width s)))

/-- A wide glyph, a letter behind it, a cell inserted between them, and a narrower screen. -/
theorem rowLaw_run_wide :
    RowLaw ((TerminalScreen.run (fun ch => if ch = 'あ' then 2 else 1)
      ([0xe3, 0x81, 0x82, 0x61, 0x08, 0x1b, 0x5b, 0x40].map .byte ++ [.resize ⟨1, 4⟩]) (new ⟨1, 6⟩)).rowCells 0) :=
  rowLaw_run _ ⟨1, 6⟩ _ (by decide +kernel) (List.prefix_refl _) 0

/-- A letter that is written over the second half of a wide glyph is not projected. -/
theorem not_rowLaw_overwritten :
    ¬∀ (width : Char → Nat) (size : ScreenSize) (events : List Event) (r : Nat),
      RowLaw ((TerminalScreen.run width events (new size)).rowCells r) := by
  intro h
  have hlaw := h (fun ch => if ch = 'あ' then 2 else 1) ⟨1, 4⟩
    ([0xe3, 0x81, 0x82, 0x08, 0x78].map .byte) 0
  have hemitted := hlaw.emits 1 ⟨some 'x', .default⟩ (by decide +kernel) rfl
  exact absurd hemitted (by decide +kernel)

end TerminalScreen

end Oxvim.Editor
