import Oxvim.Editor.TerminalSteps

/-!
# Every byte as steps

A byte of output is a sequence of steps of the screen, a switch between the primary and the alternate screen,
or a full reset.
-/

namespace Oxvim.Editor

open Lib RowMajor

namespace TerminalScreen

variable {s t u : TerminalScreen}

/-! ## Erasing the display -/

/-- Erasing some rows leaves the others. -/
theorem eraseDisplayRows_eq (selector : Nat) (rows : List Nat) (s : TerminalScreen)
    (hcursor : s.cursor.col < s.size.cols) :
    ∃ cells, rows.foldl (eraseDisplayRow selector) s = s.withCells cells ∧
      cells.length = s.cells.length ∧ ∀ r, r ∉ rows → row s.size.cols cells r = s.rowCells r := by
  induction rows generalizing s with
  | nil => exact ⟨s.cells, rfl, rfl, fun _ _ => rfl⟩
  | cons first rows ih =>
    obtain ⟨cells₁, hfirst, hwrites⟩ : ∃ cells, eraseDisplayRow selector s first = s.withCells cells ∧
        s.WritesRow first cells := by
      rw [eraseDisplayRow]
      split
      · exact ⟨_, rfl, eraseCols_writesRow s first le_rfl⟩
      split
      · exact ⟨_, rfl, eraseCols_writesRow s first (Nat.min_le_right _ _)⟩
      · exact ⟨_, rfl, eraseCols_writesRow s first le_rfl⟩
    obtain ⟨cells₂, hrest, hlength, houtside⟩ := ih (s.withCells cells₁) hcursor
    refine ⟨cells₂, ?_, hlength.trans hwrites.length, ?_⟩
    · rw [List.foldl_cons, hfirst]
      exact hrest
    · intro r hr
      rw [List.mem_cons, not_or] at hr
      exact (houtside r hr.2).trans (hwrites.outside r hr.1)

theorem eraseInDisplay_steps (h : s.Sound) (selector : Nat) : Steps s (s.eraseInDisplay selector) := by
  rw [eraseInDisplay]
  split
  · exact .single (.clear s)
  have hrows := h.cursorRow
  obtain ⟨first, last, hpair, hle, hlast⟩ : ∃ first last,
      (if selector = 1 then (0, s.cursor.row)
        else if selector = 2 then (0, s.size.rows - 1)
        else (s.cursor.row, s.size.rows - 1)) = (first, last) ∧ first ≤ last ∧ last < s.size.rows := by
    split
    · exact ⟨_, _, rfl, Nat.zero_le _, hrows⟩
    split
    · exact ⟨_, _, rfl, Nat.zero_le _, by omega⟩
    · exact ⟨_, _, rfl, by omega, by omega⟩
  rw [hpair]
  dsimp only
  have hstop : min last (s.size.rows - 1) + 1 = last + 1 := by omega
  rw [hstop]
  obtain ⟨cells, herased, hlength, houtside⟩ :=
    eraseDisplayRows_eq selector (List.range' first (last + 1 - first)) s h.cursorCol
  rw [herased]
  have hpaint : s.PaintsOnly cells first (last + 1) := by
    refine ⟨by omega, hlast, hlength, ?_⟩
    intro r hr
    apply houtside
    rw [List.mem_range'_1]
    omega
  exact steps_paint hpaint rfl ⟨h.cursorRow, h.cursorCol, h.region, h.bottom, h.params, h.marks⟩

/-! ## Characters -/

theorem advanceRow_steps (h : s.Sound) : Steps s s.advanceRow := by
  rw [advanceRow]
  split
  · exact (scrollUp_spec h 1).1.steps
  split
  · next hroom => exact steps_quiet rfl ⟨hroom, h.cursorCol, h.region, h.bottom, h.params, h.marks⟩
  · exact .refl

/-- A change that is none to the picture, and then some more steps. -/
theorem steps_quiet_then (h : s.Sound) (hpicture : t.picture = s.picture) (hsteady : t.Steady)
    (hsteps : t.Sound → Steps t u) : Steps s u :=
  have hquiet := steps_quiet hpicture hsteady
  hquiet.trans (hsteps (hquiet.sound h))

theorem lineFeed_steps (h : s.Sound) : Steps s s.lineFeed :=
  steps_quiet_then (t := { s with pendingWrap := false }) h rfl
    ⟨h.cursorRow, h.cursorCol, h.region, h.bottom, h.params, h.marks⟩ advanceRow_steps

theorem carriageReturn_steps (h : s.Sound) : Steps s s.carriageReturn :=
  steps_moveTo h h.cursorRow (Nat.zero_lt_of_lt h.cursorCol)

theorem backspace_steps (h : s.Sound) : Steps s s.backspace :=
  steps_moveTo h h.cursorRow (Nat.lt_of_le_of_lt (Nat.sub_le _ _) h.cursorCol)

theorem tab_steps (h : s.Sound) : Steps s s.tab := by
  have hcol := h.cursorCol
  exact steps_moveTo h h.cursorRow (by omega)

theorem reverseIndex_steps (h : s.Sound) : Steps s s.reverseIndex := by
  have hmoved : Steps s (if s.cursor.row = s.scrollTop then s.scrollDown 1
      else { s with cursor := { s.cursor with row := s.cursor.row - 1 } }) := by
    split
    · exact (scrollDown_spec h 1).1.steps
    · exact steps_quiet rfl ⟨Nat.lt_of_le_of_lt (Nat.sub_le _ _) h.cursorRow, h.cursorCol, h.region,
        h.bottom, h.params, h.marks⟩
  have hsound := hmoved.sound h
  exact hmoved.trans (steps_quiet rfl ⟨hsound.cursorRow, hsound.cursorCol, hsound.region, hsound.bottom,
    hsound.params, hsound.marks⟩)

theorem wrapRow_steps (h : s.Sound) : Steps s s.wrapRow :=
  steps_quiet_then (t := { s with cursor := { s.cursor with col := 0 } }) h rfl
    ⟨h.cursorRow, Nat.zero_lt_of_lt h.cursorCol, h.region, h.bottom, h.params, h.marks⟩ advanceRow_steps

theorem deferredWrap_steps (h : s.Sound) : Steps s s.deferredWrap := by
  rw [deferredWrap]
  split
  · have hplain : Steps s { s with pendingWrap := false } :=
      steps_quiet rfl ⟨h.cursorRow, h.cursorCol, h.region, h.bottom, h.params, h.marks⟩
    split
    · exact hplain.trans (wrapRow_steps (hplain.sound h))
    · exact hplain
  · exact .refl

theorem earlyWrap_steps (h : s.Sound) (width : Nat) : Steps s (s.earlyWrap width) := by
  rw [earlyWrap]
  split
  · exact wrapRow_steps h
  · exact .refl

theorem putGlyph_steps (h : s.Sound) (ch : Char) (width : Nat) : Steps s (s.putGlyph ch width) := by
  have hcol := h.cursorCol
  rw [putGlyph]
  obtain ⟨cells₁, hfirst, hwrites₁⟩ := setCell_writesRow (writesRow_refl s s.cursor.row) s.cursor.col
    ⟨some ch, if width = 2 then { s.pen with flags := s.pen.flags.union .WIDE } else s.pen⟩
  obtain ⟨cells₂, hsecond, hwrites₂⟩ := setCell_writesRow hwrites₁ (s.cursor.col + 1) ⟨none, s.pen⟩
  have hwritten : ∃ cells, (if width = 2 then (s.withCells cells₁).setCell s.cursor.row (s.cursor.col + 1)
      ⟨none, s.pen⟩ else s.withCells cells₁) = s.withCells cells ∧ s.WritesRow s.cursor.row cells := by
    split
    · exact ⟨cells₂, hsecond, hwrites₂⟩
    · exact ⟨cells₁, rfl, hwrites₁⟩
  obtain ⟨cells, hcells, hwrites⟩ := hwritten
  have hself : s.withCells s.cells = s := rfl
  rw [hself] at hfirst
  dsimp only
  rw [hfirst, hcells]
  have hpaint := hwrites.paints h.cursorRow
  split
  · exact steps_paint hpaint rfl ⟨h.cursorRow, show s.size.cols - 1 < s.size.cols by omega, h.region,
      h.bottom, h.params, h.marks⟩
  · next hroom =>
    exact steps_paint hpaint rfl ⟨h.cursorRow, not_le.mp hroom, h.region, h.bottom, h.params, h.marks⟩

theorem putChar_steps (width : Char → Nat) (h : s.Sound) (ch : Char) : Steps s (s.putChar width ch) := by
  rw [putChar]
  split
  · exact .refl
  · have hdeferred := deferredWrap_steps h
    have hwrap : Steps s (s.deferredWrap.earlyWrap (width ch)) :=
      hdeferred.trans (earlyWrap_steps (hdeferred.sound h) (width ch))
    exact hwrap.trans (putGlyph_steps (hwrap.sound h) ch (width ch))

theorem putChars_steps (width : Char → Nat) (h : s.Sound) (text : List Char) :
    Steps s (text.foldl (putChar width) s) := by
  induction text generalizing s with
  | nil => exact .refl
  | cons ch text ih =>
    have hfirst := putChar_steps width h ch
    exact hfirst.trans (ih (hfirst.sound h))

/-! ## Control sequences -/

theorem sgr_steps (h : s.Sound) : Steps s s.sgr := by
  rw [sgr]
  split
  · exact steps_quiet rfl ⟨h.cursorRow, h.cursorCol, h.region, h.bottom, h.params, h.marks⟩
  · exact steps_quiet rfl ⟨h.cursorRow, h.cursorCol, h.region, h.bottom, h.params, h.marks⟩

theorem deviceStatus_steps (h : s.Sound) : Steps s s.deviceStatus := by
  rw [deviceStatus]
  split
  · exact steps_quiet rfl ⟨h.cursorRow, h.cursorCol, h.region, h.bottom, h.params, h.marks⟩
  split
  · exact steps_quiet rfl ⟨h.cursorRow, h.cursorCol, h.region, h.bottom, h.params, h.marks⟩
  · exact .refl

theorem restoreCursor_steps (h : s.Sound) : Steps s s.restoreCursor := by
  have hrow := h.cursorRow
  have hcol := h.cursorCol
  refine steps_quiet rfl ⟨?_, ?_, h.region, h.bottom, h.params, h.marks⟩
  · show min s.savedCursor.row (s.size.rows - 1) < s.size.rows
    omega
  · show min s.savedCursor.col (s.size.cols - 1) < s.size.cols
    omega

theorem setScrollRegion_steps (h : s.Sound) : Steps s s.setScrollRegion := by
  have hrow := h.cursorRow
  have hcol := Nat.zero_lt_of_lt h.cursorCol
  rw [setScrollRegion]
  generalize hbottom : min (s.csi.count 1 s.size.rows - 1) (s.size.rows - 1) = bottom
  generalize min (s.csi.count 0 1 - 1) (s.size.rows - 1) = top
  have hlast : bottom < s.size.rows := by omega
  split
  · next hproper => exact steps_quiet rfl ⟨hproper.trans hlast, hcol, hproper.le, hlast, h.params, h.marks⟩
  · exact steps_quiet rfl ⟨Nat.zero_lt_of_lt hrow, hcol, Nat.zero_le _,
      show s.size.rows - 1 < s.size.rows by omega, h.params, h.marks⟩

theorem tabs_steps (h : s.Sound) (n : Nat) : Steps s (tab^[n] s) := by
  induction n generalizing s with
  | zero => exact .refl
  | succ n ih =>
    rw [Function.iterate_succ_apply]
    have hfirst := tab_steps h
    exact hfirst.trans (ih (hfirst.sound h))

/-- Going back to a tab stop does not go to the right. -/
theorem backTab_le (n col : Nat) : (fun col : Nat => (col - 1) / TAB_WIDTH * TAB_WIDTH)^[n] col ≤ col := by
  induction n generalizing col with
  | zero => exact le_rfl
  | succ n ih =>
    rw [Function.iterate_succ_apply]
    refine (ih _).trans ?_
    have hback := Nat.div_mul_le_self (col - 1) TAB_WIDTH
    show (col - 1) / TAB_WIDTH * TAB_WIDTH ≤ col
    omega

theorem backTab_steps (h : s.Sound) (n : Nat) : Steps s (s.backTab n) :=
  steps_moveTo h h.cursorRow (Nat.lt_of_le_of_lt (backTab_le n s.cursor.col) h.cursorCol)

/-- A control sequence is steps, or sets modes. -/
theorem dispatchCsi_cases (h : s.Sound) (finalByte : UInt8) :
    Steps s (s.dispatchCsi finalByte) ∨ ∃ enable, s.dispatchCsi finalByte = s.setMode enable := by
  have hrow := h.cursorRow
  have hcol := h.cursorCol
  rw [dispatchCsi]
  split
  · exact .inl .refl
  dsimp only
  split
  · exact .inl (insertCells_steps h _)
  · exact .inl (steps_moveTo h (by omega) (by omega))
  · exact .inl (steps_moveTo h (by omega) (by omega))
  · exact .inl (steps_moveTo h (by omega) (by omega))
  · exact .inl (steps_moveTo h (by omega) (by omega))
  · exact .inl (steps_moveTo h (by omega) (by omega))
  · exact .inl (steps_moveTo h (by omega) (by omega))
  · exact .inl (steps_moveTo h (by omega) (by omega))
  · exact .inl (steps_moveTo h (by omega) (by omega))
  · exact .inl (steps_moveTo h (by omega) (by omega))
  · exact .inl (steps_moveTo h (by omega) (by omega))
  · exact .inl (steps_moveTo h (by omega) (by omega))
  · exact .inl (steps_moveTo h (by omega) (by omega))
  · exact .inl (tabs_steps h _)
  · exact .inl (backTab_steps h _)
  · exact .inl (eraseInDisplay_steps h _)
  · exact .inl (eraseInLine_steps h _)
  · exact .inl (insertLines_steps h _)
  · exact .inl (deleteLines_steps h _)
  · exact .inl (deleteCells_steps h _)
  · exact .inl (scrollUp_spec h _).1.steps
  · exact .inl (scrollDown_spec h _).1.steps
  · exact .inl (eraseCells_steps h _)
  · exact .inl (steps_moveTo h (by omega) (by omega))
  · split
    · exact .inl (steps_quiet rfl ⟨h.cursorRow, h.cursorCol, h.region, h.bottom, h.params, h.marks⟩)
    · exact .inl .refl
  · exact .inr ⟨true, rfl⟩
  · exact .inr ⟨false, rfl⟩
  · exact .inl (sgr_steps h)
  · exact .inl (deviceStatus_steps h)
  · exact .inl (setScrollRegion_steps h)
  · exact .inl (steps_quiet rfl ⟨h.cursorRow, h.cursorCol, h.region, h.bottom, h.params, h.marks⟩)
  · exact .inl (restoreCursor_steps h)
  · exact .inl .refl

/-! ## The parser -/

variable (width : Char → Nat)

/-- Another parser state. -/
theorem Sound.parser (h : s.Sound) (state : ParseState) (utf8 : Utf8Accumulator) (stringEsc : Bool) :
    Steps s { s with state, utf8, stringEsc } :=
  steps_quiet rfl ⟨h.cursorRow, h.cursorCol, h.region, h.bottom, h.params, h.marks⟩

theorem utf8Begin_steps (h : s.Sound) (byte : UInt8) : Steps s (s.utf8Begin width byte) := by
  rw [utf8Begin]
  split
  · exact putChar_steps width h _
  · exact h.parser _ _ _

theorem ground_steps (h : s.Sound) (byte : UInt8) : Steps s (s.ground width byte) := by
  rw [ground]
  split
  · exact backspace_steps h
  split
  · exact tab_steps h
  split
  · exact lineFeed_steps h
  split
  · exact carriageReturn_steps h
  split
  · exact h.parser _ _ _
  split
  · exact .refl
  split
  · exact putChar_steps width h _
  · exact utf8Begin_steps width h byte

theorem utf8Finish_steps (h : s.Sound) : Steps s (s.utf8Finish width) := by
  rw [utf8Finish]
  split
  · exact putChars_steps width h _
  · exact putChar_steps width h _

theorem utf8Continue_steps (h : s.Sound) (byte : UInt8) : Steps s (s.utf8Continue width byte) := by
  rw [utf8Continue]
  split
  · have hground := h.parser .ground s.utf8 s.stringEsc
    have hreplaced : Steps s (putChar width { s with state := .ground } '\uFFFD') :=
      hground.trans (putChar_steps width (hground.sound h) _)
    exact hreplaced.trans (ground_steps width (hreplaced.sound h) byte)
  · dsimp only
    split
    · exact h.parser _ _ _
    · have hground := h.parser .ground (accumulate s.utf8 byte) s.stringEsc
      exact hground.trans (utf8Finish_steps width (hground.sound h))

theorem stringSeq_steps (h : s.Sound) (byte : UInt8) : Steps s (s.stringSeq byte) := by
  rw [stringSeq]
  split
  · split
    · exact h.parser _ _ _
    · exact h.parser _ _ _
  split
  · exact h.parser _ _ _
  split
  · exact h.parser _ _ _
  · exact .refl

/-- An escape is steps, or the full reset. -/
theorem escapeWith_cases (h : s.Sound) (byte : UInt8) :
    Steps s (s.escapeWith byte) ∨ byte = 0x63 ∧ s.escapeWith byte = s.reset := by
  unfold escapeWith
  split
  · exact .inl (steps_quiet rfl ⟨h.cursorRow, h.cursorCol, h.region, h.bottom, Nat.zero_le _, rfl⟩)
  -- strings
  · exact .inl (h.parser _ _ _)
  · exact .inl (h.parser _ _ _)
  · exact .inl (h.parser _ _ _)
  · exact .inl (h.parser _ _ _)
  -- designators
  · exact .inl (h.parser _ _ _)
  · exact .inl (h.parser _ _ _)
  · exact .inl (h.parser _ _ _)
  · exact .inl (h.parser _ _ _)
  · exact .inl (h.parser _ _ _)
  · exact .inl (h.parser _ _ _)
  · exact .inl (h.parser _ _ _)
  · exact .inl (h.parser _ _ _)
  · exact .inl (h.parser _ _ _)
  · exact .inl (h.parser _ _ _)
  -- the cursor, the reset, and moves between rows
  · exact .inl (steps_quiet rfl ⟨h.cursorRow, h.cursorCol, h.region, h.bottom, h.params, h.marks⟩)
  · exact .inl (restoreCursor_steps h)
  · exact .inr ⟨rfl, rfl⟩
  · exact .inl (lineFeed_steps h)
  · have hreturn := carriageReturn_steps h
    exact .inl (hreturn.trans (advanceRow_steps (hreturn.sound h)))
  · exact .inl (reverseIndex_steps h)
  · exact .inl (h.parser _ _ _)
  · exact .inl .refl

theorem escape_cases (h : s.Sound) (byte : UInt8) :
    Steps s (s.escape byte) ∨ byte = 0x63 ∧ s.escape byte = reset { s with state := .ground } := by
  have hground := h.parser .ground s.utf8 s.stringEsc
  rcases escapeWith_cases (hground.sound h) byte with hsteps | hreset
  · exact .inl (hground.trans hsteps)
  · exact .inr hreset

theorem digit_sound (csi : CsiAccumulator) (digit : Nat) (hparams : csi.params.length ≤ MAX_CSI_PARAMS)
    (hmarks : csi.subparam.length = csi.params.length) :
    (CsiAccumulator.digit csi digit).params.length ≤ MAX_CSI_PARAMS ∧
      (CsiAccumulator.digit csi digit).subparam.length = (CsiAccumulator.digit csi digit).params.length := by
  rw [CsiAccumulator.digit]
  dsimp only
  rw [List.length_modify]
  split
  · next hempty =>
    rw [hempty] at hmarks
    exact ⟨show 1 ≤ 32 by decide, by rw [List.length_append, hmarks]; rfl⟩
  · exact ⟨hparams, hmarks⟩

theorem separate_sound (csi : CsiAccumulator) (sub : Bool) (hparams : csi.params.length ≤ MAX_CSI_PARAMS)
    (hmarks : csi.subparam.length = csi.params.length) :
    (CsiAccumulator.separate csi sub).params.length ≤ MAX_CSI_PARAMS ∧
      (CsiAccumulator.separate csi sub).subparam.length = (CsiAccumulator.separate csi sub).params.length := by
  rw [CsiAccumulator.separate]
  split
  · next hroom =>
    refine ⟨?_, ?_⟩
    · rw [List.length_append]
      exact hroom
    · rw [List.length_append, List.length_append, hmarks]
      rfl
  · exact ⟨hparams, hmarks⟩

/-- A byte of a control sequence is steps, or sets modes. -/
theorem csiByte_cases (h : s.Sound) (byte : UInt8) :
    Steps s (s.csiByte width byte) ∨
      ∃ enable, s.csiByte width byte = setMode { s with state := .ground } enable := by
  have hground := h.parser .ground s.utf8 s.stringEsc
  rw [csiByte]
  split
  · obtain ⟨hparams, hmarks⟩ := digit_sound s.csi (byte.toNat - 0x30) h.params h.marks
    exact .inl (steps_quiet rfl ⟨h.cursorRow, h.cursorCol, h.region, h.bottom, hparams, hmarks⟩)
  split
  · obtain ⟨hparams, hmarks⟩ := separate_sound s.csi (decide (byte = 0x3a)) h.params h.marks
    exact .inl (steps_quiet rfl ⟨h.cursorRow, h.cursorCol, h.region, h.bottom, hparams, hmarks⟩)
  split
  · exact .inl (steps_quiet rfl ⟨h.cursorRow, h.cursorCol, h.region, h.bottom, h.params, h.marks⟩)
  split
  · exact .inl (steps_quiet rfl ⟨h.cursorRow, h.cursorCol, h.region, h.bottom, h.params, h.marks⟩)
  split
  · rcases dispatchCsi_cases (hground.sound h) byte with hsteps | hmode
    · exact .inl (hground.trans hsteps)
    · exact .inr hmode
  split
  · exact .inl (h.parser _ _ _)
  · exact .inl (ground_steps width h byte)

/-- Setting a mode is steps, or a switch between the screens. -/
theorem setModeOf_cases (h : s.Sound) (enable : Bool) (code : Nat) :
    Steps s (setModeOf enable s code) ∨ ∃ save, setModeOf enable s code = s.setAltscreen enable save := by
  rw [setModeOf]
  split
  · exact .inl (steps_quiet rfl ⟨h.cursorRow, h.cursorCol, h.region, h.bottom, h.params, h.marks⟩)
  split
  · have hcursor : Steps s { s with cursor := { s.cursor with visible := enable } } :=
      steps_quiet rfl ⟨h.cursorRow, h.cursorCol, h.region, h.bottom, h.params, h.marks⟩
    exact .inl (hcursor.tail (.paint ((writesRow_refl _ s.cursor.row).paints h.cursorRow)))
  split
  · exact .inr ⟨false, rfl⟩
  split
  · exact .inr ⟨true, rfl⟩
  · exact .inl .refl

/-- What a byte can do. -/
inductive ByteEffect (s : TerminalScreen) (byte : UInt8) (t : TerminalScreen) : Prop where
  | steps : Steps s t → ByteEffect s byte t
  | modes (enable : Bool) (codes : List Nat) :
      t = codes.foldl (setModeOf enable) { s with state := .ground } → ByteEffect s byte t
  | reset : s.state = .esc → byte = 0x63 → t = reset { s with state := .ground } → ByteEffect s byte t

/-- **A byte is steps, mode settings, or the full reset.** -/
theorem writeByte_effect (h : s.Sound) (byte : UInt8) : ByteEffect s byte (s.writeByte width byte) := by
  rw [writeByte]
  split
  · exact .steps (ground_steps width h byte)
  · exact .steps (utf8Continue_steps width h byte)
  · next hstate =>
    rcases escape_cases h byte with hsteps | ⟨hbyte, hreset⟩
    · exact .steps hsteps
    · exact .reset hstate hbyte hreset
  · rcases csiByte_cases width h byte with hsteps | ⟨enable, hmode⟩
    · exact .steps hsteps
    · rw [setMode] at hmode
      split at hmode
      · exact .modes enable [] hmode
      · exact .modes enable _ hmode
  · exact .steps (stringSeq_steps h byte)
  · exact .steps (h.parser _ _ _)

end TerminalScreen

end Oxvim.Editor
