import Oxvim.Editor.TerminalParser

/-!
# What output does to the screen

Every control function is a sequence of a few kinds of steps: the cells and the scrollback stay, some rows
are painted and recorded as damage, a row goes into scrollback, or scrollback is cleared. What holds of each
step holds of every byte.
-/

namespace Oxvim.Editor

open Lib RowMajor

namespace TerminalScreen

variable {s t u : TerminalScreen}

/-! ## Invariant -/

/-- The cursor, the scroll region and the parameters are in order. -/
structure Steady (s : TerminalScreen) : Prop where
  cursorRow : s.cursor.row < s.size.rows
  cursorCol : s.cursor.col < s.size.cols
  region : s.scrollTop ≤ s.scrollBottom
  bottom : s.scrollBottom < s.size.rows
  params : s.csi.params.length ≤ MAX_CSI_PARAMS
  marks : s.csi.subparam.length = s.csi.params.length

/-- The screen is in order. -/
structure Sound (s : TerminalScreen) : Prop extends Steady s where
  cells : s.cells.length = s.size.rows * s.size.cols
  scrollback : s.scrollback.length ≤ s.scrollbackLimit
  parked : ∀ primary, s.parked = some primary →
    primary.length = s.size.rows * s.size.cols ∧ s.inAltscreen = true
  damage : s.damageEnd ≤ s.size.rows
  unharmed : s.panicked = false

/-- What is shown and reported: everything but the cursor, the pen, the parser and the scroll region. -/
structure Picture where
  size : ScreenSize
  cells : List Cell
  parked : Option (List Cell)
  inAltscreen : Bool
  scrollback : List (List Cell)
  scrollbackLimit : Nat
  damageStart : Nat
  damageEnd : Nat
  scrollbackPushed : Nat
  scrollbackDeleted : Nat
  resync : Bool
  panicked : Bool

def picture (s : TerminalScreen) : Picture where
  size := s.size
  cells := s.cells
  parked := s.parked
  inAltscreen := s.inAltscreen
  scrollback := s.scrollback
  scrollbackLimit := s.scrollbackLimit
  damageStart := s.damageStart
  damageEnd := s.damageEnd
  scrollbackPushed := s.scrollbackPushed
  scrollbackDeleted := s.scrollbackDeleted
  resync := s.resync
  panicked := s.panicked

/-! ## Steps -/

/-- The rows outside of `first` to `stop` are the same. -/
structure PaintsOnly (s : TerminalScreen) (cells : List Cell) (first stop : Nat) : Prop where
  nonempty : first < stop
  inside : stop ≤ s.size.rows
  length : cells.length = s.cells.length
  outside : ∀ r, r < first ∨ stop ≤ r → row s.size.cols cells r = s.rowCells r

/-- One step of a control function. -/
inductive Step : TerminalScreen → TerminalScreen → Prop where
  | quiet {s t : TerminalScreen} : t.picture = s.picture → t.Steady → Step s t
  | paint {s : TerminalScreen} {cells : List Cell} {first stop : Nat} : s.PaintsOnly cells first stop →
      Step s (touch { s with cells } first stop)
  | push {s : TerminalScreen} (row : Nat) : s.inAltscreen = false → Step s (s.pushScrollback row)
  | clear (s : TerminalScreen) : Step s s.clearScrollback

/-- Steps one after another. -/
abbrev Steps : TerminalScreen → TerminalScreen → Prop := Relation.ReflTransGen Step

theorem pushScrollback_length (h : s.scrollback.length ≤ s.scrollbackLimit) (row : Nat) :
    (s.pushScrollback row).scrollback.length ≤ (s.pushScrollback row).scrollbackLimit := by
  rw [pushScrollback]
  split
  · exact h
  split
  · exact h
  · next hlimit _ =>
    show (List.length (_ ++ [_])) ≤ s.scrollbackLimit
    rw [List.length_append, List.length_singleton]
    split
    · next hfull =>
      have hpos := List.length_pos_of_ne_nil hfull.2
      rw [List.length_tail]
      omega
    · next hroom =>
      by_cases hempty : s.scrollback = []
      · rw [hempty, List.length_nil]
        omega
      · have hlt := not_le.mp fun hle => hroom ⟨hle, hempty⟩
        omega

/-- A row that goes into scrollback changes nothing else. -/
theorem pushScrollback_eq (s : TerminalScreen) (row : Nat) : ∃ scrollback pushed deleted,
    s.pushScrollback row = { s with
      scrollback, scrollbackPushed := pushed, scrollbackDeleted := deleted } := by
  rw [pushScrollback]
  split
  · exact ⟨_, _, _, rfl⟩
  split
  · exact ⟨_, _, _, rfl⟩
  · exact ⟨_, _, _, rfl⟩

theorem Step.sound (h : s.Sound) (hstep : Step s t) : t.Sound := by
  cases hstep with
  | quiet hpicture hsteady =>
    have hsize := congrArg Picture.size hpicture
    have hcells := congrArg Picture.cells hpicture
    have hscrollback := congrArg Picture.scrollback hpicture
    have hlimit := congrArg Picture.scrollbackLimit hpicture
    have hparked := congrArg Picture.parked hpicture
    have halt := congrArg Picture.inAltscreen hpicture
    have hdamage := congrArg Picture.damageEnd hpicture
    have hpanic := congrArg Picture.panicked hpicture
    simp only [picture] at hsize hcells hscrollback hlimit hparked halt hdamage hpanic
    refine ⟨hsteady, ?_, ?_, ?_, ?_, ?_⟩
    · rw [hcells, hsize]
      exact h.cells
    · rw [hscrollback, hlimit]
      exact h.scrollback
    · rw [hparked, hsize, halt]
      exact h.parked
    · rw [hdamage, hsize]
      exact h.damage
    · rw [hpanic]
      exact h.unharmed
  | paint hpaint =>
    refine ⟨⟨h.cursorRow, h.cursorCol, h.region, h.bottom, h.params, h.marks⟩,
      hpaint.length.trans h.cells, h.scrollback, h.parked, ?_, h.unharmed⟩
    exact Nat.max_le.mpr ⟨h.damage, Nat.min_le_right _ _⟩
  | push row halt =>
    have hlength := pushScrollback_length h.scrollback row
    obtain ⟨scrollback, pushed, deleted, heq⟩ := pushScrollback_eq s row
    rw [heq] at hlength ⊢
    exact ⟨⟨h.cursorRow, h.cursorCol, h.region, h.bottom, h.params, h.marks⟩, h.cells, hlength, h.parked,
      h.damage, h.unharmed⟩
  | clear =>
    rw [clearScrollback]
    split
    · exact h
    · exact ⟨⟨h.cursorRow, h.cursorCol, h.region, h.bottom, h.params, h.marks⟩, h.cells, Nat.zero_le _,
        h.parked, le_rfl, h.unharmed⟩

theorem Steps.sound (h : s.Sound) (hsteps : Steps s t) : t.Sound := by
  induction hsteps with
  | refl => exact h
  | tail _ hstep ih => exact hstep.sound ih

/-- Moves of the cursor and the like. -/
theorem steps_quiet (hpicture : t.picture = s.picture) (hsteady : t.Steady) : Steps s t :=
  .single (.quiet hpicture hsteady)

theorem steps_moveTo (h : s.Sound) {row col : Nat} (hrow : row < s.size.rows) (hcol : col < s.size.cols) :
    Steps s (s.moveTo row col) :=
  steps_quiet rfl ⟨hrow, hcol, h.region, h.bottom, h.params, h.marks⟩

/-! ## Rows -/

/-- The cells `cells` in place of those of the screen. -/
def withCells (s : TerminalScreen) (cells : List Cell) : TerminalScreen := { s with cells }

theorem copyRow_eq (h : s.cells.length = s.size.rows * s.size.cols) {source target : Nat}
    (hsource : source < s.size.rows) (htarget : target < s.size.rows) :
    s.copyRow source target =
      s.withCells (overwrite s.cells (target * s.size.cols) (s.rowCells source)) := by
  rw [copyRow, if_pos]
  · rfl
  · rw [h]
    exact ⟨row_end_le _ hsource, row_end_le _ htarget⟩

theorem fillRow_eq (h : s.cells.length = s.size.rows * s.size.cols) {target : Nat}
    (htarget : target < s.size.rows) (cell : Cell) :
    s.fillRow target cell =
      s.withCells (overwrite s.cells (target * s.size.cols) (List.replicate s.size.cols cell)) := by
  rw [fillRow, if_pos]
  · rfl
  · rw [h]
    exact row_end_le _ htarget

/-- The screen differs in one row. -/
structure SetsRow (s : TerminalScreen) (target : Nat) (new : List Cell) (cells : List Cell) : Prop where
  length : cells.length = s.size.rows * s.size.cols
  rows : ∀ r, row s.size.cols cells r = if r = target then new else s.rowCells r

theorem setsRow_overwrite (h : s.cells.length = s.size.rows * s.size.cols) {target : Nat}
    (htarget : target < s.size.rows) {new : List Cell} (hnew : new.length = s.size.cols) :
    s.SetsRow target new (overwrite s.cells (target * s.size.cols) new) := by
  refine ⟨?_, row_overwrite h hnew htarget⟩
  rw [length_overwrite]
  · exact h
  · rw [hnew, h]
    exact row_end_le _ htarget

/-- What a row of the scroll region takes when it scrolls up. -/
def scrolledUp (s : TerminalScreen) (count r : Nat) : List Cell :=
  if r + count ≤ s.scrollBottom then s.rowCells (r + count)
  else List.replicate s.size.cols (.erased s.pen)

/-- What a row of the scroll region takes when it scrolls down. -/
def scrolledDown (s : TerminalScreen) (count r : Nat) : List Cell :=
  if count ≤ r ∧ s.scrollTop ≤ r - count then s.rowCells (r - count)
  else List.replicate s.size.cols (.erased s.pen)

theorem scrollRowUp_eq (h : s.cells.length = s.size.rows * s.size.cols) (hbottom : s.scrollBottom < s.size.rows)
    (count : Nat) {r : Nat} (hr : r < s.size.rows) :
    ∃ cells, scrollRowUp count s r = s.withCells cells ∧ s.SetsRow r (s.scrolledUp count r) cells := by
  rw [scrollRowUp, scrolledUp]
  split
  · next hsource =>
    have hinside : r + count < s.size.rows := by omega
    exact ⟨_, copyRow_eq h hinside hr, setsRow_overwrite h hr (length_row h hinside)⟩
  · exact ⟨_, fillRow_eq h hr _, setsRow_overwrite h hr List.length_replicate⟩

theorem scrollRowDown_eq (h : s.cells.length = s.size.rows * s.size.cols)
    (count : Nat) {r : Nat} (hr : r < s.size.rows) :
    ∃ cells, scrollRowDown count s r = s.withCells cells ∧ s.SetsRow r (s.scrolledDown count r) cells := by
  rw [scrollRowDown, scrolledDown]
  split
  · have hinside : r - count < s.size.rows := by omega
    exact ⟨_, copyRow_eq h hinside hr, setsRow_overwrite h hr (length_row h hinside)⟩
  · exact ⟨_, fillRow_eq h hr _, setsRow_overwrite h hr List.length_replicate⟩

/-- The rows from `first` on, so many, are replaced. -/
structure SetsRows (s : TerminalScreen) (first n : Nat) (new : Nat → List Cell) (cells : List Cell) :
    Prop where
  length : cells.length = s.size.rows * s.size.cols
  rows : ∀ r, row s.size.cols cells r = if first ≤ r ∧ r < first + n then new r else s.rowCells r

/-- Scrolling up goes from the top, so that a row is read before it is written. -/
theorem scrollRowsUp_eq (h : s.cells.length = s.size.rows * s.size.cols)
    (hbottom : s.scrollBottom < s.size.rows) {count : Nat} (hcount : 0 < count) (n first : Nat)
    (hn : first + n ≤ s.size.rows) :
    ∃ cells, (List.range' first n).foldl (scrollRowUp count) s = s.withCells cells ∧
      s.SetsRows first n (s.scrolledUp count) cells := by
  induction n generalizing s first with
  | zero =>
    refine ⟨s.cells, rfl, h, ?_⟩
    intro r
    rw [if_neg (by omega)]
    rfl
  | succ n ih =>
    obtain ⟨cells₁, hfirst, hset⟩ := scrollRowUp_eq h hbottom count (show first < s.size.rows by omega)
    obtain ⟨cells₂, hrest, hsets⟩ := ih (s := s.withCells cells₁) hset.length hbottom (first + 1)
      (show first + 1 + n ≤ s.size.rows by omega)
    refine ⟨cells₂, ?_, hsets.length, ?_⟩
    · rw [List.range'_succ, List.foldl_cons, hfirst]
      exact hrest
    · intro r
      rw [show row s.size.cols cells₂ r = _ from hsets.rows r]
      by_cases hin : first + 1 ≤ r ∧ r < first + 1 + n
      · rw [if_pos hin, if_pos (by omega), scrolledUp, scrolledUp]
        split
        · next hsource =>
          rw [if_pos (show r + count ≤ s.scrollBottom from hsource), show (s.withCells cells₁).rowCells (r + count) = _ from hset.rows _,
            if_neg (by omega)]
        · next hsource =>
          rw [if_neg (show ¬r + count ≤ s.scrollBottom from hsource)]
          rfl
      · rw [if_neg hin, show (s.withCells cells₁).rowCells r = _ from hset.rows r]
        by_cases hfirst : r = first
        · subst hfirst
          rw [if_pos rfl, if_pos (by omega)]
        · rw [if_neg hfirst, if_neg (by omega)]

/-- Scrolling down goes from the bottom. -/
theorem scrollRowsDown_eq (h : s.cells.length = s.size.rows * s.size.cols) {count : Nat}
    (hcount : 0 < count) (n first : Nat) (hn : first + n ≤ s.size.rows) :
    ∃ cells, (List.range' first n).reverse.foldl (scrollRowDown count) s = s.withCells cells ∧
      s.SetsRows first n (s.scrolledDown count) cells := by
  induction n generalizing s with
  | zero =>
    refine ⟨s.cells, rfl, h, ?_⟩
    intro r
    rw [if_neg (by omega)]
    rfl
  | succ n ih =>
    obtain ⟨cells₁, hlast, hset⟩ := scrollRowDown_eq h count (show first + n < s.size.rows by omega)
    obtain ⟨cells₂, hrest, hsets⟩ := ih (s := s.withCells cells₁) hset.length
      (show first + n ≤ s.size.rows by omega)
    refine ⟨cells₂, ?_, hsets.length, ?_⟩
    · rw [List.range'_1_concat, List.reverse_append, List.reverse_singleton, List.singleton_append,
        List.foldl_cons, hlast]
      exact hrest
    · intro r
      rw [show row s.size.cols cells₂ r = _ from hsets.rows r]
      by_cases hin : first ≤ r ∧ r < first + n
      · rw [if_pos hin, if_pos (by omega), scrolledDown, scrolledDown]
        split
        · next hsource =>
          rw [if_pos (show count ≤ r ∧ s.scrollTop ≤ r - count from hsource), show (s.withCells cells₁).rowCells (r - count) = _ from hset.rows _,
            if_neg (by omega)]
        · next hsource =>
          rw [if_neg (show ¬(count ≤ r ∧ s.scrollTop ≤ r - count) from hsource)]
          rfl
      · rw [if_neg hin, show (s.withCells cells₁).rowCells r = _ from hset.rows r]
        by_cases hlast : r = first + n
        · subst hlast
          rw [if_pos rfl, if_pos (by omega)]
        · rw [if_neg hlast, if_neg (by omega)]

/-! ## Scrolling -/

/-- The rows of `first` to `stop` as they are replaced are painted. -/
theorem SetsRows.paints {first n : Nat} {new : Nat → List Cell} {cells : List Cell}
    (hsets : s.SetsRows first n new cells) (h : s.cells.length = s.size.rows * s.size.cols) (hpos : 0 < n)
    (hinside : first + n ≤ s.size.rows) : s.PaintsOnly cells first (first + n) := by
  refine ⟨by omega, hinside, hsets.length.trans h.symm, ?_⟩
  intro r hr
  rw [hsets.rows, if_neg (by omega)]

/-- Rows that go into scrollback. -/
theorem steps_pushes (halt : s.inAltscreen = false) (rows : List Nat) :
    Steps s (rows.foldl pushScrollback s) ∧ ∃ scrollback pushed deleted,
      rows.foldl pushScrollback s = { s with
        scrollback, scrollbackPushed := pushed, scrollbackDeleted := deleted } := by
  induction rows generalizing s with
  | nil => exact ⟨.refl, _, _, _, rfl⟩
  | cons row rows ih =>
    obtain ⟨scrollback, pushed, deleted, heq⟩ := pushScrollback_eq s row
    have halt' : (s.pushScrollback row).inAltscreen = false := by
      rw [heq]
      exact halt
    obtain ⟨hsteps, scrollback', pushed', deleted', heq'⟩ := ih halt'
    refine ⟨.head (.push row halt) hsteps, scrollback', pushed', deleted', ?_⟩
    rw [List.foldl_cons, heq', heq]

/-- What a row of a region takes when the region moves up. -/
def MovesUp (s t : TerminalScreen) (top count : Nat) : Prop :=
  ∀ r, t.rowCells r =
    if top ≤ r ∧ r ≤ s.scrollBottom then
      if r + count ≤ s.scrollBottom then s.rowCells (r + count)
      else List.replicate s.size.cols (.erased s.pen)
    else s.rowCells r

/-- What a row of a region takes when the region moves down. -/
def MovesDown (s t : TerminalScreen) (top count : Nat) : Prop :=
  ∀ r, t.rowCells r =
    if top ≤ r ∧ r ≤ s.scrollBottom then
      if top + count ≤ r then s.rowCells (r - count)
      else List.replicate s.size.cols (.erased s.pen)
    else s.rowCells r

/-- Everything but the picture: the cursor, the pen, the parser and the scroll region. -/
structure Hand where
  cursor : TerminalCursor
  savedCursor : TerminalCursor
  pen : CellAttrs
  state : ParseState
  csi : CsiAccumulator
  scrollTop : Nat
  scrollBottom : Nat
  pendingWrap : Bool
  autowrap : Bool

def hand (s : TerminalScreen) : Hand where
  cursor := s.cursor
  savedCursor := s.savedCursor
  pen := s.pen
  state := s.state
  csi := s.csi
  scrollTop := s.scrollTop
  scrollBottom := s.scrollBottom
  pendingWrap := s.pendingWrap
  autowrap := s.autowrap

/-- What scrolling does: the steps, what stays, and the geometry. -/
structure Scrolls (s t : TerminalScreen) : Prop where
  steps : Steps s t
  hand : t.hand = s.hand
  size : t.size = s.size
  limit : t.scrollbackLimit = s.scrollbackLimit

theorem feedScrollback_spec (s : TerminalScreen) (count : Nat) :
    Steps s (s.feedScrollback count) ∧ ∃ scrollback pushed deleted,
      s.feedScrollback count = { s with
        scrollback, scrollbackPushed := pushed, scrollbackDeleted := deleted } := by
  rw [feedScrollback]
  split
  · next hfull => exact steps_pushes hfull.2 _
  · exact ⟨.refl, _, _, _, rfl⟩

theorem scrollUp_spec (h : s.Sound) (count : Nat) :
    s.Scrolls (s.scrollUp count) ∧
      s.MovesUp (s.scrollUp count) s.scrollTop (min count s.regionHeight) ∧
      (s.scrollUp count).scrollback = (s.feedScrollback (min count s.regionHeight)).scrollback := by
  rw [scrollUp]
  by_cases hzero : min count s.regionHeight = 0
  · rw [if_pos hzero, hzero]
    refine ⟨⟨.refl, rfl, rfl, rfl⟩, ?_, ?_⟩
    · intro r
      rw [Nat.add_zero]
      split
      · next hin => rw [if_pos hin.2]
      · rfl
    · rw [feedScrollback]
      split <;> rfl
  rw [if_neg hzero]
  generalize min count s.regionHeight = k at hzero ⊢
  -- the rows that go into scrollback leave the cells as they are
  obtain ⟨hsteps, scrollback, added, deleted, heq⟩ := feedScrollback_spec s k
  rw [heq] at hsteps ⊢
  have hregion := h.region
  have hbottom := h.bottom
  obtain ⟨cells, hscrolled, hsets⟩ := scrollRowsUp_eq (s := { s with
      scrollback, scrollbackPushed := added, scrollbackDeleted := deleted })
    h.cells h.bottom (Nat.pos_of_ne_zero hzero) (s.scrollBottom + 1 - s.scrollTop) s.scrollTop
    (show s.scrollTop + (s.scrollBottom + 1 - s.scrollTop) ≤ s.size.rows by omega)
  dsimp only
  rw [hscrolled]
  have hpaint := hsets.paints h.cells (by omega)
    (show s.scrollTop + (s.scrollBottom + 1 - s.scrollTop) ≤ s.size.rows by omega)
  have hstop : s.scrollTop + (s.scrollBottom + 1 - s.scrollTop) = s.scrollBottom + 1 := by omega
  rw [hstop] at hpaint
  refine ⟨⟨hsteps.tail (.paint hpaint), rfl, rfl, rfl⟩, ?_, rfl⟩
  intro r
  refine (hsets.rows r).trans ?_
  rw [hstop]
  by_cases hin : s.scrollTop ≤ r ∧ r ≤ s.scrollBottom
  · rw [if_pos hin, if_pos (by omega)]
    rfl
  · rw [if_neg hin, if_neg (by omega)]
    rfl

theorem scrollDown_spec (h : s.Sound) (count : Nat) :
    s.Scrolls (s.scrollDown count) ∧
      s.MovesDown (s.scrollDown count) s.scrollTop (min count s.regionHeight) := by
  rw [scrollDown]
  by_cases hzero : min count s.regionHeight = 0
  · rw [if_pos hzero, hzero]
    refine ⟨⟨.refl, rfl, rfl, rfl⟩, ?_⟩
    intro r
    rw [Nat.add_zero]
    split
    · next hin => rw [if_pos hin.1, Nat.sub_zero]
    · rfl
  rw [if_neg hzero]
  generalize min count s.regionHeight = k at hzero ⊢
  have hregion := h.region
  have hbottom := h.bottom
  obtain ⟨cells, hscrolled, hsets⟩ := scrollRowsDown_eq
    h.cells (Nat.pos_of_ne_zero hzero) (s.scrollBottom + 1 - s.scrollTop) s.scrollTop (by omega)
  dsimp only
  rw [hscrolled]
  have hpaint := hsets.paints h.cells (by omega) (by omega)
  have hstop : s.scrollTop + (s.scrollBottom + 1 - s.scrollTop) = s.scrollBottom + 1 := by omega
  rw [hstop] at hpaint
  refine ⟨⟨.single (.paint hpaint), rfl, rfl, rfl⟩, ?_⟩
  intro r
  refine (hsets.rows r).trans ?_
  rw [hstop]
  by_cases hin : s.scrollTop ≤ r ∧ r ≤ s.scrollBottom
  · rw [if_pos hin, if_pos (by omega), scrolledDown]
    by_cases hsource : s.scrollTop + k ≤ r
    · rw [if_pos (by omega), if_pos hsource]
    · rw [if_neg (by omega), if_neg hsource]
  · rw [if_neg hin, if_neg (by omega)]

theorem insertLines_outside (h : s.cursor.row < s.scrollTop ∨ s.scrollBottom < s.cursor.row) (count : Nat) :
    (s.insertLines count).cells = s.cells := by
  rw [insertLines, scrollFromCursor, if_pos h]

theorem deleteLines_outside (h : s.cursor.row < s.scrollTop ∨ s.scrollBottom < s.cursor.row) (count : Nat) :
    (s.deleteLines count).cells = s.cells := by
  rw [deleteLines, scrollFromCursor, if_pos h]

/-- Scrolling from the cursor row on, with the region's top moved there meanwhile. -/
theorem scrollFromCursor_steps (h : s.Sound) {scroll : TerminalScreen → TerminalScreen}
    (hscroll : ∀ u : TerminalScreen, u.Sound → u.Scrolls (scroll u)) :
    Steps s (s.scrollFromCursor scroll) := by
  rw [scrollFromCursor]
  split
  · exact .refl
  · next hinside =>
    push Not at hinside
    have hmoved : Steps s { s with scrollTop := s.cursor.row } :=
      steps_quiet rfl ⟨h.cursorRow, h.cursorCol, hinside.2, h.bottom, h.params, h.marks⟩
    have hscrolls := hscroll _ (hmoved.sound h)
    have hscrolled := hscrolls.steps.sound (hmoved.sound h)
    have hbottom := congrArg Hand.scrollBottom hscrolls.hand
    refine (hmoved.trans hscrolls.steps).trans (steps_quiet rfl ?_)
    exact ⟨hscrolled.cursorRow, Nat.zero_lt_of_lt hscrolled.cursorCol, h.region.trans_eq hbottom.symm,
      hscrolled.bottom, hscrolled.params, hscrolled.marks⟩

theorem insertLines_steps (h : s.Sound) (count : Nat) : Steps s (s.insertLines count) :=
  scrollFromCursor_steps h fun _ hu => (scrollDown_spec hu count).1

theorem deleteLines_steps (h : s.Sound) (count : Nat) : Steps s (s.deleteLines count) :=
  scrollFromCursor_steps h fun _ hu => (scrollUp_spec hu count).1

/-- The rows between the cursor and the bottom of the region move down. -/
theorem insertLines_moves (h : s.Sound) (count : Nat) (hin : s.scrollTop ≤ s.cursor.row)
    (hbottom : s.cursor.row ≤ s.scrollBottom) :
    s.MovesDown (s.insertLines count) s.cursor.row (min count (s.scrollBottom - s.cursor.row + 1)) := by
  have hmoved : Steps s { s with scrollTop := s.cursor.row } :=
    steps_quiet rfl ⟨h.cursorRow, h.cursorCol, hbottom, h.bottom, h.params, h.marks⟩
  obtain ⟨-, hmoves⟩ := scrollDown_spec (hmoved.sound h) count
  intro r
  rw [insertLines, scrollFromCursor, if_neg (by omega)]
  refine Eq.trans ?_ (hmoves r)
  rfl

/-- The rows between the cursor and the bottom of the region move up. -/
theorem deleteLines_moves (h : s.Sound) (count : Nat) (hin : s.scrollTop ≤ s.cursor.row)
    (hbottom : s.cursor.row ≤ s.scrollBottom) :
    s.MovesUp (s.deleteLines count) s.cursor.row (min count (s.scrollBottom - s.cursor.row + 1)) := by
  have hmoved : Steps s { s with scrollTop := s.cursor.row } :=
    steps_quiet rfl ⟨h.cursorRow, h.cursorCol, hbottom, h.bottom, h.params, h.marks⟩
  obtain ⟨-, hmoves, -⟩ := scrollUp_spec (hmoved.sound h) count
  intro r
  rw [deleteLines, scrollFromCursor, if_neg (by omega)]
  refine Eq.trans ?_ (hmoves r)
  rfl

/-! ## Rows that are written -/

/-- Cells in which one row is written, and nothing else. -/
structure WritesRow (s : TerminalScreen) (target : Nat) (cells : List Cell) : Prop where
  length : cells.length = s.cells.length
  outside : ∀ r, r ≠ target → row s.size.cols cells r = s.rowCells r

theorem WritesRow.paints {target : Nat} {cells : List Cell} (h : s.WritesRow target cells)
    (htarget : target < s.size.rows) : s.PaintsOnly cells target (target + 1) :=
  ⟨Nat.lt_succ_self _, htarget, h.length, fun r hr => h.outside r (by omega)⟩

theorem writesRow_refl (s : TerminalScreen) (target : Nat) : s.WritesRow target s.cells :=
  ⟨rfl, fun _ _ => rfl⟩

theorem WritesRow.set {target col : Nat} {cells : List Cell} (h : s.WritesRow target cells)
    (hcol : col < s.size.cols) (cell : Cell) :
    s.WritesRow target (cells.set (target * s.size.cols + col) cell) := by
  refine ⟨List.length_set.trans h.length, ?_⟩
  intro r hr
  rw [row_set hcol, if_neg hr]
  exact h.outside r hr

theorem writeCells_writesRow (s : TerminalScreen) (target : Nat) (cols : List Nat)
    (value : List Cell → Nat → Cell) (hcols : ∀ col ∈ cols, col < s.size.cols) :
    s.WritesRow target (s.writeCells target cols value).cells := by
  have hall : ∀ (cols : List Nat) (cells : List Cell), (∀ col ∈ cols, col < s.size.cols) →
      s.WritesRow target cells → s.WritesRow target
        (cols.foldl (fun cells col => cells.set (target * s.size.cols + col) (value cells col)) cells) := by
    intro cols
    induction cols with
    | nil =>
      intro cells _ h
      exact h
    | cons col cols ih =>
      intro cells hcols h
      exact ih _ (fun c hc => hcols c (List.mem_cons_of_mem _ hc)) (h.set (hcols col List.mem_cons_self) _)
  exact hall cols s.cells hcols (writesRow_refl s target)

theorem eraseCols_writesRow (s : TerminalScreen) (target : Nat) {start stop : Nat}
    (hstop : stop ≤ s.size.cols) : s.WritesRow target (s.eraseCols target start stop).cells := by
  apply writeCells_writesRow
  intro col hcol
  rw [List.mem_range'_1] at hcol
  omega

theorem setCell_writesRow {target : Nat} {cells : List Cell} (h : s.WritesRow target cells) (col : Nat)
    (cell : Cell) : ∃ cells', (s.withCells cells).setCell target col cell = s.withCells cells' ∧
      s.WritesRow target cells' := by
  rw [setCell]
  split
  · exact ⟨cells, rfl, h⟩
  · next hinside =>
    push Not at hinside
    exact ⟨_, rfl, h.set hinside.1 cell⟩

/-- Painting, and moves of the cursor with it. -/
theorem steps_paint {cells : List Cell} {first stop : Nat} (hpaint : s.PaintsOnly cells first stop)
    (hpicture : t.picture = (touch (s.withCells cells) first stop).picture) (hsteady : t.Steady) :
    Steps s t :=
  (Relation.ReflTransGen.single (.paint hpaint)).tail (.quiet hpicture hsteady)

theorem eraseInLine_steps (h : s.Sound) (selector : Nat) : Steps s (s.eraseInLine selector) := by
  have hsteady : ∀ cells first stop, Steady (touch { s.withCells cells with pendingWrap := false } first stop) :=
    fun _ _ _ => ⟨h.cursorRow, h.cursorCol, h.region, h.bottom, h.params, h.marks⟩
  rw [eraseInLine]
  refine steps_paint ((eraseCols_writesRow s s.cursor.row (Nat.min_le_right _ _)).paints h.cursorRow) rfl ?_
  exact hsteady _ _ _

theorem eraseCells_steps (h : s.Sound) (count : Nat) : Steps s (s.eraseCells count) :=
  .single (.paint ((eraseCols_writesRow s s.cursor.row (Nat.min_le_right _ _)).paints h.cursorRow))

theorem insertCells_steps (h : s.Sound) (count : Nat) : Steps s (s.insertCells count) := by
  refine .single (.paint ((writeCells_writesRow s s.cursor.row _ _ ?_).paints h.cursorRow))
  intro col hcol
  rw [List.mem_reverse, List.mem_range'_1] at hcol
  omega

theorem deleteCells_steps (h : s.Sound) (count : Nat) : Steps s (s.deleteCells count) := by
  refine .single (.paint ((writeCells_writesRow s s.cursor.row _ _ ?_).paints h.cursorRow))
  intro col hcol
  rw [List.mem_range'_1] at hcol
  omega

end TerminalScreen

end Oxvim.Editor
