import Oxvim.Editor.TerminalControls

/-!
# Runs of the terminal screen

Output, resizes, scrollback limits and refreshes in any order: the screen stays in order, what is reported as
damage covers what has changed, and the alternate screen gives the primary one back.
-/

namespace Oxvim.Editor

open Lib RowMajor

namespace TerminalScreen

variable {s t u : TerminalScreen} (width : Char → Nat)

/-! ## Switches, resets and sizes -/

theorem clampCursor_row (h : 0 < s.size.rows) : s.clampCursor.cursor.row < s.clampCursor.size.rows := by
  show min s.cursor.row (s.size.rows - 1) < s.size.rows
  omega

theorem clampCursor_col (h : 0 < s.size.cols) : s.clampCursor.cursor.col < s.clampCursor.size.cols := by
  show min s.cursor.col (s.size.cols - 1) < s.size.cols
  omega

theorem setAltscreen_sound (h : s.Sound) (enable save : Bool) : (s.setAltscreen enable save).Sound := by
  have hrows := Nat.zero_lt_of_lt h.cursorRow
  have hcols := Nat.zero_lt_of_lt h.cursorCol
  rw [setAltscreen]
  split
  · exact h
  cases enable with
  | true =>
    refine ⟨⟨clampCursor_row hrows, clampCursor_col hcols, h.region, h.bottom, h.params, h.marks⟩,
      List.length_replicate, h.scrollback, ?_, le_rfl, h.unharmed⟩
    rintro primary ⟨⟩
    exact ⟨h.cells, rfl⟩
  | false =>
    refine ⟨⟨clampCursor_row hrows, clampCursor_col hcols, h.region, h.bottom, h.params, h.marks⟩,
      ?_, h.scrollback, ?_, le_rfl, h.unharmed⟩
    · show (s.parked.getD s.cells).length = s.size.rows * s.size.cols
      cases hparked : s.parked with
      | none => exact h.cells
      | some primary => exact (h.parked primary hparked).1
    · rintro primary ⟨⟩

theorem reset_sound (h : s.Sound) : s.reset.Sound := by
  have hrows := Nat.zero_lt_of_lt h.cursorRow
  refine ⟨⟨hrows, Nat.zero_lt_of_lt h.cursorCol, Nat.zero_le _, ?_, h.params, h.marks⟩, ?_, h.scrollback, ?_,
    le_rfl, h.unharmed⟩
  · show s.size.rows - 1 < s.size.rows
    omega
  · exact List.length_replicate.trans h.cells
  · rintro primary ⟨⟩

theorem setModes_sound (h : s.Sound) (enable : Bool) (codes : List Nat) :
    (codes.foldl (setModeOf enable) s).Sound := by
  induction codes generalizing s with
  | nil => exact h
  | cons code codes ih =>
    apply ih
    rcases setModeOf_cases h enable code with hsteps | ⟨save, hswitch⟩
    · exact hsteps.sound h
    · rw [hswitch]
      exact setAltscreen_sound h enable save

theorem writeByte_sound (h : s.Sound) (byte : UInt8) : (s.writeByte width byte).Sound := by
  have hground := (h.parser .ground s.utf8 s.stringEsc).sound h
  cases writeByte_effect width h byte with
  | steps hsteps => exact hsteps.sound h
  | modes enable codes heq =>
    rw [heq]
    exact setModes_sound hground enable codes
  | reset _ _ heq =>
    rw [heq]
    exact reset_sound hground

theorem ScreenSize.new_pos (rows cols : Nat) :
    0 < (ScreenSize.new rows cols).rows ∧ 0 < (ScreenSize.new rows cols).cols := by
  constructor
  · show 0 < if rows = 0 then 1 else rows
    split <;> omega
  · show 0 < if cols = 0 then 1 else cols
    split <;> omega

theorem new_sound (size : ScreenSize) : (new size).Sound := by
  obtain ⟨hrows, hcols⟩ := ScreenSize.new_pos size.rows size.cols
  refine ⟨⟨hrows, hcols, Nat.zero_le _, ?_, Nat.zero_le _, rfl⟩, List.length_replicate, Nat.zero_le _, ?_,
    le_rfl, rfl⟩
  · show (ScreenSize.new size.rows size.cols).rows - 1 < (ScreenSize.new size.rows size.cols).rows
    omega
  · rintro primary ⟨⟩

theorem length_resizedRow (s : TerminalScreen) (size : ScreenSize) (cells : List Cell) (r : Nat) :
    (s.resizedRow size cells r).length = cells.length := by
  rw [resizedRow]
  generalize List.range (min size.cols s.size.cols) = cols
  induction cols generalizing cells with
  | nil => rfl
  | cons col cols ih =>
    rw [List.foldl_cons, ih]
    split
    · exact List.length_set
    · rfl

theorem length_resizedRows (s : TerminalScreen) (size : ScreenSize) (rows : List Nat) (cells : List Cell) :
    (rows.foldl (s.resizedRow size) cells).length = cells.length := by
  induction rows generalizing cells with
  | nil => rfl
  | cons r rows ih => rw [List.foldl_cons, ih, length_resizedRow]

theorem resize_sound (h : s.Sound) (size : ScreenSize) : (s.resize size).Sound := by
  obtain ⟨hrows, hcols⟩ := ScreenSize.new_pos size.rows size.cols
  rw [resize]
  dsimp only
  split
  · exact h
  · refine ⟨⟨clampCursor_row hrows, clampCursor_col hcols, Nat.zero_le _, ?_, h.params, h.marks⟩, ?_,
      h.scrollback, ?_, le_rfl, h.unharmed⟩
    · show (ScreenSize.new size.rows size.cols).rows - 1 < (ScreenSize.new size.rows size.cols).rows
      omega
    · exact (length_resizedRows s _ _ _).trans List.length_replicate
    · rintro primary ⟨⟩

theorem setScrollbackLimit_sound (h : s.Sound) (limit : Nat) : (s.setScrollbackLimit limit).Sound := by
  refine ⟨⟨h.cursorRow, h.cursorCol, h.region, h.bottom, h.params, h.marks⟩, h.cells, ?_, h.parked, h.damage,
    h.unharmed⟩
  show (s.scrollback.drop (s.scrollback.length - limit)).length ≤ limit
  rw [List.length_drop]
  omega

theorem takeDamage_sound (h : s.Sound) : s.takeDamage.1.Sound :=
  ⟨⟨h.cursorRow, h.cursorCol, h.region, h.bottom, h.params, h.marks⟩, h.cells, h.scrollback, h.parked,
    Nat.zero_le _, h.unharmed⟩

/-! ## Runs -/

/-- What happens to a screen. A string of output is one byte after another. -/
inductive Event where
  | byte (byte : UInt8)
  | resize (size : ScreenSize)
  | limit (limit : Nat)
  | takeDamage

/-- The screen after an event. -/
def Event.step (s : TerminalScreen) : Event → TerminalScreen
  | byte b => s.writeByte width b
  | resize size => s.resize size
  | limit n => s.setScrollbackLimit n
  | takeDamage => s.takeDamage.1

/-- The screen after a sequence of events. -/
def run (events : List Event) (s : TerminalScreen) : TerminalScreen := events.foldl (Event.step width) s

theorem step_sound (h : s.Sound) (event : Event) : (event.step width s).Sound := by
  cases event with
  | byte b => exact writeByte_sound width h b
  | resize size => exact resize_sound h size
  | limit n => exact setScrollbackLimit_sound h n
  | takeDamage => exact takeDamage_sound h

theorem run_sound (events : List Event) (h : s.Sound) : (run width events s).Sound := by
  induction events generalizing s with
  | nil => exact h
  | cons event events ih => exact ih (step_sound width h event)

/-! ## Damage -/

/-- What was shown when the damage was taken is what is shown now, but for what is recorded since. -/
structure Covered (s t : TerminalScreen) : Prop where
  size : t.size = s.size
  scrollback : ∃ pushed : List (List Cell), pushed.length = t.scrollbackPushed ∧
    t.scrollbackDeleted ≤ s.scrollback.length + pushed.length ∧
    t.scrollback = (s.scrollback ++ pushed).drop t.scrollbackDeleted
  rows : ∀ r < s.size.rows, r < t.damageStart ∨ t.damageEnd ≤ r → t.rowCells r = s.rowCells r

/-- A consumer is told of everything, or told to start afresh. -/
def Told (s t : TerminalScreen) : Prop := t.resync = true ∨ Covered s t

theorem Covered.push (h : Covered s t) (row : Nat) : Covered s (t.pushScrollback row) := by
  obtain ⟨pushed, hpushed, hdeleted, hscrollback⟩ := h.scrollback
  rw [pushScrollback]
  split
  · exact h
  split
  · exact h
  refine ⟨h.size, ⟨pushed ++ [t.rowCells row], ?_, ?_, ?_⟩, h.rows⟩
  · rw [List.length_append, hpushed]
    rfl
  · have hlength := congrArg List.length hscrollback
    rw [List.length_drop, List.length_append] at hlength
    dsimp only
    rw [List.length_append, List.length_singleton]
    split
    · next hfull =>
      have hpos := List.length_pos_of_ne_nil hfull.2
      omega
    · omega
  · have hlength := congrArg List.length hscrollback
    rw [List.length_drop, List.length_append] at hlength
    dsimp only
    split
    · next hfull =>
      have hpos := List.length_pos_of_ne_nil hfull.2
      rw [← List.append_assoc, List.drop_append_of_le_length (by rw [List.length_append]; omega),
        hscrollback, List.tail_drop]
    · rw [← List.append_assoc, List.drop_append_of_le_length (by rw [List.length_append]; omega),
        hscrollback]

theorem Covered.picture (h : Covered s t) (hpicture : u.picture = t.picture) : Covered s u := by
  have hsize : u.size = t.size := congrArg Picture.size hpicture
  have hcells : u.cells = t.cells := congrArg Picture.cells hpicture
  have hscrollback : u.scrollback = t.scrollback := congrArg Picture.scrollback hpicture
  have hpushed : u.scrollbackPushed = t.scrollbackPushed := congrArg Picture.scrollbackPushed hpicture
  have hdeleted : u.scrollbackDeleted = t.scrollbackDeleted := congrArg Picture.scrollbackDeleted hpicture
  have hstart : u.damageStart = t.damageStart := congrArg Picture.damageStart hpicture
  have hend : u.damageEnd = t.damageEnd := congrArg Picture.damageEnd hpicture
  refine ⟨hsize.trans h.size, ?_, ?_⟩
  · rw [hscrollback, hpushed, hdeleted]
    exact h.scrollback
  · rw [hstart, hend]
    intro r hr hout
    rw [rowCells, hsize, hcells]
    exact h.rows r hr hout

theorem Covered.paint (h : Covered s t) {cells : List Cell} {first stop : Nat}
    (hpaint : t.PaintsOnly cells first stop) : Covered s (touch { t with cells } first stop) := by
  refine ⟨h.size, h.scrollback, ?_⟩
  intro r hr hout
  have hinside := hpaint.inside
  have hout' : r < min t.damageStart first ∨ max t.damageEnd (min stop t.size.rows) ≤ r := hout
  exact (hpaint.outside r (by omega)).trans (h.rows r hr (by omega))

/-- Where every row is damaged, nothing is to be said of the rows. -/
theorem Covered.touchAll (h : Covered s t) (hsize : u.size = t.size) (hscrollback : u.scrollback = t.scrollback)
    (hpushed : u.scrollbackPushed = t.scrollbackPushed)
    (hdeleted : u.scrollbackDeleted = t.scrollbackDeleted) : Covered s u.touchAll := by
  refine ⟨hsize.trans h.size, ?_, ?_⟩
  · show ∃ pushed, _ = u.scrollbackPushed ∧ u.scrollbackDeleted ≤ _ ∧ u.scrollback = List.drop u.scrollbackDeleted _
    rw [hscrollback, hpushed, hdeleted]
    exact h.scrollback
  · rintro r hr (hout | hout)
    · cases hout
    · have hrows : u.touchAll.damageEnd = s.size.rows := congrArg ScreenSize.rows (hsize.trans h.size)
      omega

theorem Told.step (h : Told s t) (hstep : Step t u) : Told s u := by
  cases hstep with
  | quiet hpicture =>
    rcases h with h | h
    · exact .inl ((congrArg Picture.resync hpicture).trans h)
    · exact .inr (h.picture hpicture)
  | paint hpaint =>
    rcases h with h | h
    · exact .inl h
    · exact .inr (h.paint hpaint)
  | push row =>
    rcases h with h | h
    · obtain ⟨_, _, _, heq⟩ := pushScrollback_eq t row
      rw [heq]
      exact .inl h
    · exact .inr (h.push row)
  | clear =>
    rw [clearScrollback]
    split
    · exact h
    · exact .inl rfl

theorem Told.steps (h : Told s t) (hsteps : Steps t u) : Told s u := by
  induction hsteps with
  | refl => exact h
  | tail _ hstep ih => exact ih.step hstep

theorem Told.setAltscreen (h : Told s t) (enable save : Bool) : Told s (t.setAltscreen enable save) := by
  rw [TerminalScreen.setAltscreen]
  split
  · exact h
  rcases h with h | h
  · left
    cases enable <;> exact h
  · right
    cases enable <;> exact h.touchAll rfl rfl rfl rfl

theorem Told.reset (h : Told s t) : Told s t.reset := by
  rcases h with h | h
  · exact .inl h
  · exact .inr (h.touchAll rfl rfl rfl rfl)

theorem Told.setModes (ht : t.Sound) (h : Told s t) (enable : Bool) (codes : List Nat) :
    Told s (codes.foldl (setModeOf enable) t) := by
  induction codes generalizing t with
  | nil => exact h
  | cons code codes ih =>
    rcases setModeOf_cases ht enable code with hsteps | ⟨save, hswitch⟩
    · exact ih (hsteps.sound ht) (h.steps hsteps)
    · rw [List.foldl_cons, hswitch]
      exact ih (setAltscreen_sound ht enable save) (h.setAltscreen enable save)

theorem Told.writeByte (ht : t.Sound) (h : Told s t) (byte : UInt8) : Told s (t.writeByte width byte) := by
  have hground := ht.parser .ground t.utf8 t.stringEsc
  cases writeByte_effect width ht byte with
  | steps hsteps => exact h.steps hsteps
  | modes enable codes heq =>
    rw [heq]
    exact (h.steps hground).setModes (hground.sound ht) enable codes
  | reset _ _ heq =>
    rw [heq]
    exact (h.steps hground).reset

theorem Told.resize (h : Told s t) (size : ScreenSize) : Told s (t.resize size) := by
  rw [TerminalScreen.resize]
  dsimp only
  split
  · exact h
  · exact .inl rfl

theorem Told.setScrollbackLimit (h : Told s t) (limit : Nat) : Told s (t.setScrollbackLimit limit) := by
  rcases h with h | h
  · left
    show (t.resync || _) = true
    rw [h, Bool.true_or]
  by_cases htrimmed : limit < t.scrollback.length
  · left
    show (t.resync || decide (limit < t.scrollback.length)) = true
    rw [decide_eq_true htrimmed, Bool.or_true]
  · right
    have hkept : (t.setScrollbackLimit limit).scrollback = t.scrollback := by
      show t.scrollback.drop (t.scrollback.length - limit) = t.scrollback
      rw [Nat.sub_eq_zero_of_le (not_lt.mp htrimmed), List.drop_zero]
    refine ⟨h.size, ?_, h.rows⟩
    rw [hkept]
    exact h.scrollback

/-- A refresh is not among what happens between two refreshes. -/
def Event.IsRefresh : Event → Prop
  | takeDamage => True
  | byte _ | resize _ | limit _ => False

theorem Told.run (ht : t.Sound) (h : Told s t) (events : List Event) (hevents : ∀ e ∈ events, ¬e.IsRefresh) :
    Told s (run width events t) := by
  induction events generalizing t with
  | nil => exact h
  | cons event events ih =>
    refine ih (step_sound width ht event) ?_ fun e he => hevents e (List.mem_cons_of_mem _ he)
    cases event with
    | byte b => exact h.writeByte width ht b
    | resize size => exact h.resize size
    | limit n => exact h.setScrollbackLimit n
    | takeDamage => exact absurd trivial (hevents _ List.mem_cons_self)

theorem told_takeDamage (s : TerminalScreen) : Told s.takeDamage.1 s.takeDamage.1 :=
  .inr ⟨rfl, ⟨[], rfl, Nat.zero_le _, (List.append_nil _).symm⟩, fun _ _ _ => rfl⟩

/-- What the refresh `damage` says about what is shown in `t`, where `s` was shown before. -/
structure Reports (s t : TerminalScreen) (damage : Damage) : Prop where
  size : t.size = s.size
  range : damage.start ≤ damage.stop ∧ damage.stop ≤ t.size.rows
  scrollback : ∃ pushed : List (List Cell), pushed.length = damage.scrollbackPushed ∧
    t.scrollback = (s.scrollback ++ pushed).drop damage.scrollbackDeleted
  rows : ∀ r < t.size.rows, r < damage.start ∨ damage.stop ≤ r → t.renderRow r = s.renderRow r

/-- Nothing that is shown has changed. -/
structure Unchanged (s t : TerminalScreen) : Prop where
  size : t.size = s.size
  rows : ∀ r, t.renderRow r = s.renderRow r
  length : t.scrollback.length = s.scrollback.length
  scrollback : ∀ i, t.renderScrollback i = s.renderScrollback i

theorem damagedRows_spec (h : t.damageEnd ≤ t.size.rows) :
    (t.damagedRows.1 ≤ t.damagedRows.2 ∧ t.damagedRows.2 ≤ t.size.rows) ∧
      ∀ r, r < t.damagedRows.1 ∨ t.damagedRows.2 ≤ r → r < t.damageStart ∨ t.damageEnd ≤ r := by
  rw [damagedRows]
  split
  · refine ⟨⟨by dsimp only; omega, Nat.min_le_right _ _⟩, ?_⟩
    intro r hr
    dsimp only at hr
    omega
  · refine ⟨⟨le_rfl, Nat.zero_le _⟩, ?_⟩
    intro r _
    omega

theorem Covered.reports (ht : t.Sound) (h : Covered s t) {damage : Damage} (hdamage : t.damage = some damage) :
    Reports s t damage := by
  have hrowsEq := congrArg ScreenSize.rows h.size
  obtain ⟨hrange, hout⟩ := damagedRows_spec ht.damage
  rw [TerminalScreen.damage] at hdamage
  split at hdamage
  · cases hdamage
  cases hdamage
  obtain ⟨pushed, hpushed, -, hscrollback⟩ := h.scrollback
  refine ⟨h.size, hrange, ⟨pushed, hpushed, hscrollback⟩, ?_⟩
  intro r hr hr'
  exact congrArg RenderedRow.render (h.rows r (by omega) (hout r hr'))

theorem Told.unchanged (hs : s.Sound) (ht : t.Sound) (h : Told s t) (hdamage : t.damage = none) :
    Unchanged s t := by
  obtain ⟨-, hout⟩ := damagedRows_spec ht.damage
  rw [TerminalScreen.damage] at hdamage
  split at hdamage
  · next hnone =>
    obtain ⟨hempty, hpushed, hdeleted, hresync⟩ := hnone
    have h : Covered s t := h.resolve_left (by rw [hresync]; exact Bool.false_ne_true)
    have hscrollback : t.scrollback = s.scrollback := by
      obtain ⟨pushed, hlength, -, heq⟩ := h.scrollback
      rw [hpushed, List.length_eq_zero_iff] at hlength
      rw [heq, hlength, hdeleted, List.append_nil, List.drop_zero]
    refine ⟨h.size, ?_, congrArg List.length hscrollback, ?_⟩
    · intro r
      apply congrArg RenderedRow.render
      by_cases hr : r < s.size.rows
      · exact h.rows r hr (hout r (by omega))
      · rw [rowCells, rowCells, row_eq_nil hs.cells (not_lt.mp hr), row_eq_nil ht.cells]
        rw [h.size]
        exact not_lt.mp hr
    · intro i
      rw [renderScrollback, renderScrollback, hscrollback]
  · cases hdamage

/-- **Damage is reported completely: between two refreshes, in any state that is reached, no report means
that nothing has changed, and a report that does not ask to start afresh tells which rows went into
scrollback and which rows of the screen are not the ones that were shown.** -/
theorem takeDamage_complete (size : ScreenSize) (before between : List Event)
    (hbetween : ∀ e ∈ between, ¬e.IsRefresh) :
    let s := (run width before (new size)).takeDamage.1
    let t := run width between s
    (t.takeDamage.2 = none → Unchanged s t) ∧
      ∀ damage, t.takeDamage.2 = some damage → damage.resync = false → Reports s t damage := by
  intro s t
  have hs : s.Sound := takeDamage_sound (run_sound width before (new_sound size))
  have ht : t.Sound := run_sound width between hs
  have h : Told s t := (told_takeDamage _).run width hs between hbetween
  refine ⟨h.unchanged hs ht, ?_⟩
  intro damage hdamage hresync
  have hkept : t.resync = damage.resync := by
    have hdamage' : t.damage = some damage := hdamage
    rw [TerminalScreen.damage] at hdamage'
    split at hdamage'
    · cases hdamage'
    · cases hdamage'
      rfl
  exact (h.resolve_left (by rw [hkept, hresync]; exact Bool.false_ne_true)).reports ht hdamage

/-- A letter is written on a screen of two rows. -/
theorem takeDamage_complete_letter :
    ∃ damage, (run (fun _ => 1) [.byte 97] (new ⟨2, 2⟩).takeDamage.1).takeDamage.2 = some damage ∧
      Reports (new ⟨2, 2⟩).takeDamage.1 (run (fun _ => 1) [.byte 97] (new ⟨2, 2⟩).takeDamage.1) damage :=
  ⟨⟨0, 1, 0, 0, false⟩, by decide +kernel, (takeDamage_complete (fun _ => 1) ⟨2, 2⟩ [] [.byte 97]
    (by rintro e he; rw [List.mem_singleton.mp he]; exact id)).2 _ (by decide +kernel) rfl⟩

/-! ## Rows that control sequences move -/

/-- The final byte of a control sequence carries it out. -/
theorem writeByte_csi {byte : UInt8} (hstate : s.state = .csi)
    (hbyte : 0x40 ≤ byte ∧ byte ≤ 0x7e) :
    s.writeByte width byte = dispatchCsi { s with state := .ground } byte := by
  have hlow : ∀ {low high : UInt8}, high < 0x40 → ¬(low ≤ byte ∧ byte ≤ high) := by
    intro low high hhigh hin
    exact absurd (UInt8.lt_of_le_of_lt hin.2 (UInt8.lt_of_lt_of_le hhigh hbyte.1)) (UInt8.lt_irrefl _)
  rw [writeByte, hstate]
  show s.csiByte width byte = _
  rw [csiByte, if_neg (hlow (by decide)), if_neg, if_neg (hlow (by decide)), if_neg (hlow (by decide)),
    if_pos hbyte]
  rintro (rfl | rfl)
  · exact absurd hbyte.1 (by decide)
  · exact absurd hbyte.1 (by decide)

/-- **No output breaks the screen: after every sequence of output, resizes, limits and refreshes it is in
order, no copy has left the cells, and the control sequences that move rows move exactly those of the scroll
region, by a count that is clamped to it.** -/
theorem terminal_sound (size : ScreenSize) (events : List Event) :
    let s := run width events (new size)
    s.Sound ∧ (s.state = .csi → s.csi.intermediate = none →
      s.MovesUp (s.writeByte width 0x53) s.scrollTop (min (s.csi.count 0 1) s.regionHeight) ∧
      s.MovesDown (s.writeByte width 0x54) s.scrollTop (min (s.csi.count 0 1) s.regionHeight) ∧
      (s.scrollTop ≤ s.cursor.row → s.cursor.row ≤ s.scrollBottom →
        s.MovesDown (s.writeByte width 0x4c) s.cursor.row
            (min (s.csi.count 0 1) (s.scrollBottom - s.cursor.row + 1)) ∧
          s.MovesUp (s.writeByte width 0x4d) s.cursor.row
            (min (s.csi.count 0 1) (s.scrollBottom - s.cursor.row + 1))) ∧
      (s.cursor.row < s.scrollTop ∨ s.scrollBottom < s.cursor.row →
        (s.writeByte width 0x4c).cells = s.cells ∧ (s.writeByte width 0x4d).cells = s.cells)) := by
  intro s
  have h : s.Sound := run_sound width events (new_sound size)
  refine ⟨h, ?_⟩
  intro hstate hintermediate
  have hground := (h.parser .ground s.utf8 s.stringEsc).sound h
  have hdispatch : ∀ byte, 0x40 ≤ byte ∧ byte ≤ 0x7e →
      s.writeByte width byte = dispatchCsi { s with state := .ground } byte :=
    fun _ => writeByte_csi width hstate
  have hplain : ¬s.csi.intermediate.isSome = true := by
    rw [hintermediate]
    exact Bool.false_ne_true
  rw [hdispatch 0x53 (by decide), hdispatch 0x54 (by decide), hdispatch 0x4c (by decide),
    hdispatch 0x4d (by decide), dispatchCsi, dispatchCsi, dispatchCsi, dispatchCsi, if_neg hplain,
    if_neg hplain, if_neg hplain, if_neg hplain]
  refine ⟨(scrollUp_spec hground _).2.1, (scrollDown_spec hground _).2, ?_, ?_⟩
  · intro htop hbottom
    exact ⟨insertLines_moves hground _ htop hbottom, deleteLines_moves hground _ htop hbottom⟩
  · intro houtside
    exact ⟨insertLines_outside (s := { s with state := .ground }) houtside (s.csi.count 0 1),
      deleteLines_outside (s := { s with state := .ground }) houtside (s.csi.count 0 1)⟩

/-! ## The alternate screen -/

/-- The cells of the primary screen, wherever they are. -/
def primary? (s : TerminalScreen) : Option (List Cell) :=
  if s.inAltscreen then s.parked else some s.cells

/-- The primary screen is kept. -/
structure Keeps (s t : TerminalScreen) : Prop where
  primary : t.primary? = s.primary?
  scrollback : t.scrollback = s.scrollback
  size : t.size = s.size

theorem Keeps.refl (s : TerminalScreen) : Keeps s s := ⟨rfl, rfl, rfl⟩

theorem Keeps.trans (h : Keeps s t) (h' : Keeps t u) : Keeps s u :=
  ⟨h'.primary.trans h.primary, h'.scrollback.trans h.scrollback, h'.size.trans h.size⟩

/-- A step does not switch screens. -/
theorem Step.inAltscreen (hstep : Step s t) : t.inAltscreen = s.inAltscreen := by
  cases hstep with
  | quiet hpicture => exact congrArg Picture.inAltscreen hpicture
  | paint => rfl
  | push row =>
    obtain ⟨_, _, _, heq⟩ := pushScrollback_eq s row
    rw [heq]
  | clear =>
    rw [clearScrollback]
    split <;> rfl

/-- A step on the alternate screen keeps the primary one. -/
theorem Step.keeps (hstep : Step s t) (halt : s.inAltscreen = true) : Keeps s t := by
  have halt' := hstep.inAltscreen.trans halt
  cases hstep with
  | quiet hpicture =>
    refine ⟨?_, congrArg Picture.scrollback hpicture, congrArg Picture.size hpicture⟩
    rw [primary?, primary?, if_pos halt, if_pos halt']
    exact congrArg Picture.parked hpicture
  | paint =>
    refine ⟨?_, rfl, rfl⟩
    rw [primary?, primary?, if_pos halt, if_pos halt']
    rfl
  | push row hprimary => exact absurd (hprimary.symm.trans halt) Bool.false_ne_true
  | clear =>
    rw [clearScrollback, if_pos (.inl halt)]
    exact .refl s

theorem Steps.inAltscreen (hsteps : Steps s t) : t.inAltscreen = s.inAltscreen := by
  induction hsteps with
  | refl => rfl
  | tail _ hstep ih => exact hstep.inAltscreen.trans ih

theorem Steps.keeps (hsteps : Steps s t) (halt : s.inAltscreen = true) : Keeps s t := by
  induction hsteps with
  | refl => exact .refl s
  | tail hbefore hstep ih => exact ih.trans (hstep.keeps ((Steps.inAltscreen hbefore).trans halt))

/-- A switch takes the primary cells with it. -/
theorem setAltscreen_keeps (s : TerminalScreen) (enable save : Bool) {cells : List Cell}
    (hprimary : s.primary? = some cells) : Keeps s (s.setAltscreen enable save) := by
  rw [setAltscreen]
  split
  · exact .refl s
  next hswitch =>
  refine ⟨?_, ?_, ?_⟩
  · cases enable with
    | true =>
      have hlow : s.inAltscreen = false := by
        cases halt : s.inAltscreen with
        | true => exact absurd halt.symm hswitch
        | false => rfl
      rw [primary?, primary?, hlow]
      rfl
    | false =>
      have hup : s.inAltscreen = true := by
        cases halt : s.inAltscreen with
        | false => exact absurd halt.symm hswitch
        | true => rfl
      rw [primary?, if_pos hup] at hprimary
      rw [primary?, primary?, if_pos hup, hprimary]
      rfl
  · cases enable <;> rfl
  · cases enable <;> rfl

theorem setModeOf_keeps (s : TerminalScreen) (enable : Bool) (code : Nat) {cells : List Cell}
    (hprimary : s.primary? = some cells) : Keeps s (setModeOf enable s code) := by
  rw [setModeOf]
  split
  · exact ⟨rfl, rfl, rfl⟩
  split
  · exact ⟨rfl, rfl, rfl⟩
  split
  · exact setAltscreen_keeps s enable false hprimary
  split
  · exact setAltscreen_keeps s enable true hprimary
  · exact .refl s

theorem setModes_keeps (codes : List Nat) (s : TerminalScreen) (enable : Bool) {cells : List Cell}
    (hprimary : s.primary? = some cells) : Keeps s (codes.foldl (setModeOf enable) s) := by
  induction codes generalizing s with
  | nil => exact .refl s
  | cons code codes ih =>
    have hfirst := setModeOf_keeps s enable code hprimary
    exact hfirst.trans (ih _ (hfirst.primary.trans hprimary))

/-- A byte that switches screens, without a reset, keeps the primary one. -/
theorem writeByte_switches (h : s.Sound) {byte : UInt8} {cells : List Cell}
    (hprimary : s.primary? = some cells)
    (hswitch : (s.writeByte width byte).inAltscreen ≠ s.inAltscreen)
    (hreset : ¬(s.state = .esc ∧ byte = 0x63)) : Keeps s (s.writeByte width byte) := by
  cases writeByte_effect width h byte with
  | steps hsteps => exact absurd hsteps.inAltscreen hswitch
  | modes enable codes heq =>
    have hground : Keeps s { s with state := .ground } := ⟨rfl, rfl, rfl⟩
    rw [heq]
    exact hground.trans (setModes_keeps codes _ enable hprimary)
  | reset hstate hbyte _ => exact absurd ⟨hstate, hbyte⟩ hreset

/-- Output, or a resize. -/
def Event.IsOutput : Event → Prop
  | byte _ | resize _ => True
  | limit _ | takeDamage => False

/-- The alternate screen is up after every event. -/
def StaysUp : List Event → TerminalScreen → Prop
  | [], _ => True
  | event :: events, s => (event.step width s).inAltscreen = true ∧ StaysUp events (event.step width s)

instance (event : Event) : Decidable event.IsOutput :=
  match event with
  | .byte _ | .resize _ => .isTrue trivial
  | .limit _ | .takeDamage => .isFalse id

instance decidableStaysUp : ∀ (events : List Event) (s : TerminalScreen), Decidable (StaysUp width events s)
  | [], _ => .isTrue trivial
  | event :: events, s =>
    have := decidableStaysUp events (event.step width s)
    inferInstanceAs (Decidable ((event.step width s).inAltscreen = true ∧ StaysUp width events _))

/-- The cells in another geometry, clipped or padded with empty cells. -/
def fitted (old new : ScreenSize) (cells : List Cell) : List Cell :=
  (List.range new.rows).flatMap fun r =>
    if r < old.rows then (row old.cols cells r).take new.cols ++ List.replicate (new.cols - old.cols) .EMPTY
    else List.replicate new.cols .EMPTY

/-- The primary screen and the scrollback are as they were, in the current size. -/
def Restores (s t : TerminalScreen) : Prop :=
  t.cells = fitted s.size t.size s.cells ∧ t.scrollback = s.scrollback

theorem fitted_self {size : ScreenSize} {cells : List Cell} (h : cells.length = size.rows * size.cols) :
    fitted size size cells = cells := by
  have hrow : ∀ r ∈ List.range size.rows,
      (if r < size.rows then (row size.cols cells r).take size.cols ++
          List.replicate (size.cols - size.cols) .EMPTY
        else List.replicate size.cols .EMPTY) = row size.cols cells r := by
    intro r hr
    have hr := List.mem_range.mp hr
    rw [if_pos hr, Nat.sub_self, List.replicate_zero, List.append_nil,
      List.take_of_length_le (length_row h hr).le]
  rw [fitted, List.flatMap_congr hrow, flatMap_row, ← h, List.take_length]

/-- A byte while the alternate screen stays up keeps the primary one. -/
theorem writeByte_keeps (h : s.Sound) {byte : UInt8} {cells : List Cell} (hprimary : s.primary? = some cells)
    (hbefore : s.inAltscreen = true) (hafter : (s.writeByte width byte).inAltscreen = true) :
    Keeps s (s.writeByte width byte) := by
  cases writeByte_effect width h byte with
  | steps hsteps => exact hsteps.keeps hbefore
  | modes enable codes heq =>
    have hground : Keeps s { s with state := .ground } := ⟨rfl, rfl, rfl⟩
    rw [heq]
    exact hground.trans (setModes_keeps codes _ enable hprimary)
  | reset _ _ heq =>
    rw [heq] at hafter
    cases hafter

/-- Output between two bytes that switch screens: a byte that enters the alternate screen, output and
resizes on it, and a byte that leaves it, other than by the full reset. -/
structure Visit (s : TerminalScreen) (enter : UInt8) (between : List Event) (leave : UInt8) : Prop where
  primary : s.inAltscreen = false
  enters : (s.writeByte width enter).inAltscreen = true
  output : ∀ e ∈ between, e.IsOutput
  up : StaysUp width between (s.writeByte width enter)
  leaves : ((run width between (s.writeByte width enter)).writeByte width leave).inAltscreen = false
  noReset : ¬((run width between (s.writeByte width enter)).state = .esc ∧ leave = 0x63)

theorem keeps_between {between : List Event} (h : s.Sound) {cells : List Cell}
    (hprimary : s.primary? = some cells) (halt : s.inAltscreen = true) (houtput : ∀ e ∈ between, e.IsOutput)
    (hup : StaysUp width between s)
    (hsize : ∀ z, .resize z ∈ between → ScreenSize.new z.rows z.cols = s.size) :
    Keeps s (run width between s) ∧ (run width between s).inAltscreen = true := by
  induction between generalizing s with
  | nil => exact ⟨.refl s, halt⟩
  | cons event between ih =>
    have hfirst : Keeps s (event.step width s) := by
      cases event with
      | byte b => exact writeByte_keeps width h hprimary halt hup.1
      | resize z =>
        have heq : s.resize z = s := if_pos (hsize z List.mem_cons_self)
        rw [Event.step, heq]
        exact .refl s
      | limit n => exact absurd (houtput _ List.mem_cons_self) id
      | takeDamage => exact absurd (houtput _ List.mem_cons_self) id
    obtain ⟨hrest, halt'⟩ := ih (step_sound width h event) (hfirst.primary.trans hprimary) hup.1
      (fun e he => houtput e (List.mem_cons_of_mem _ he)) hup.2
      (fun z hz => (hsize z (List.mem_cons_of_mem _ hz)).trans hfirst.size.symm)
    exact ⟨hfirst.trans hrest, halt'⟩

/-- **Without a change of the size in between, the alternate screen gives the primary one back.** -/
theorem altscreen_restores (size : ScreenSize) (before : List Event) (enter leave : UInt8)
    (between : List Event) (hvisit : Visit width (run width before (new size)) enter between leave)
    (hsize : ∀ z, .resize z ∈ between →
      ScreenSize.new z.rows z.cols = (run width before (new size)).size) :
    Restores (run width before (new size))
      ((run width between ((run width before (new size)).writeByte width enter)).writeByte width leave) := by
  have hs := run_sound width before (new_sound size)
  generalize run width before (new size) = s at hs hvisit hsize ⊢
  have hprimary : s.primary? = some s.cells := by
    rw [primary?, hvisit.primary]
    rfl
  -- the byte that enters
  have hgroundState : ¬(s.state = .esc ∧ enter = 0x63) := by
    rintro ⟨hstate, rfl⟩
    have henters := hvisit.enters
    rw [writeByte, hstate] at henters
    cases henters
  have henter := writeByte_switches width hs hprimary
    (by rw [hvisit.enters, hvisit.primary]; exact Bool.false_ne_true.symm) hgroundState
  have hentered := writeByte_sound width hs enter
  obtain ⟨hbetween, halt⟩ := keeps_between width hentered (henter.primary.trans hprimary) hvisit.enters
    hvisit.output hvisit.up fun z hz => (hsize z hz).trans henter.size.symm
  have hkept := henter.trans hbetween
  -- the byte that leaves
  have hleave := writeByte_switches width (run_sound width between hentered)
    (hkept.primary.trans hprimary) (by rw [hvisit.leaves, halt]; exact Bool.false_ne_true) hvisit.noReset
  have hall := hkept.trans hleave
  refine ⟨?_, hall.scrollback⟩
  rw [hall.size, fitted_self hs.cells]
  have hcells := hall.primary.trans hprimary
  rw [primary?, hvisit.leaves] at hcells
  exact Option.some.inj hcells

/-- `ESC [ ? 1049`, to which `h` or `l` is to be added. -/
def altscreenSequence : List Event := [.byte 0x1b, .byte 0x5b, .byte 0x3f, .byte 0x31, .byte 0x30, .byte 0x34, .byte 0x39]

/-- A letter is kept while another one is written on the alternate screen. -/
theorem altscreen_restores_letter :
    Restores (run (fun _ => 1) (.byte 97 :: altscreenSequence) (new ⟨1, 2⟩))
      ((run (fun _ => 1) (.byte 98 :: altscreenSequence) ((run (fun _ => 1) (.byte 97 :: altscreenSequence)
        (new ⟨1, 2⟩)).writeByte (fun _ => 1) 0x68)).writeByte (fun _ => 1) 0x6c) :=
  altscreen_restores (fun _ => 1) ⟨1, 2⟩ (.byte 97 :: altscreenSequence) 0x68 0x6c
    (.byte 98 :: altscreenSequence)
    ⟨by decide +kernel, by decide +kernel, by decide, by decide +kernel, by decide +kernel, by decide +kernel⟩
    (by intro z hz; simp [altscreenSequence] at hz)

/-- The parked cells are dropped by a resize: a letter of the primary screen is lost, the one written on the
alternate screen is left. -/
theorem not_altscreen_restores :
    ¬∀ (width : Char → Nat) (size : ScreenSize) (before : List Event) (enter leave : UInt8)
      (between : List Event), Visit width (run width before (new size)) enter between leave →
      Restores (run width before (new size))
        ((run width between ((run width before (new size)).writeByte width enter)).writeByte width leave) := by
  intro h
  have hfirst := (h (fun _ => 1) ⟨1, 2⟩ (.byte 97 :: altscreenSequence) 0x68 0x6c
    (.byte 98 :: .resize ⟨1, 3⟩ :: altscreenSequence)
    ⟨by decide +kernel, by decide +kernel, by decide, by decide +kernel, by decide +kernel, by decide +kernel⟩).1
  exact absurd hfirst (by decide +kernel)

end TerminalScreen

end Oxvim.Editor
