import Oxvim.Editor.ExtmarkIndex

/-!
# Where a splice leaves an endpoint

A splice keeps an endpoint before its start, sends one inside the replaced span to an end of the
replacement, chosen by gravity, and shifts one behind the span to behind the replacement. These
three facts, and that the reverse splice takes a shift back, are all that undo needs to know about
`transformPosition`. They hold where no sum of coordinates is cut off (`TextSplice.Fits`).

The last section reads off them which marks the reverse of a splice disturbs.
-/

namespace Oxvim.Editor

open Lib

namespace TextSplice

variable {sp : TextSplice} {p q : ExtmarkPosition} {g : ExtmarkGravity}

/-- No sum that the splice forms for an endpoint exceeds the largest coordinate. -/
structure Fits (sp : TextSplice) (p : ExtmarkPosition) : Prop where
  oldRow : sp.start.row + sp.oldExtent.rows ≤ usizeMax
  oldColumn : sp.start.column + sp.oldExtent.columns ≤ usizeMax
  newRow : sp.start.row + sp.newExtent.rows ≤ usizeMax
  newColumn : sp.start.column + sp.newExtent.columns ≤ usizeMax
  rowOld : p.row + sp.oldExtent.rows ≤ usizeMax
  columnOld : p.column + sp.start.column + sp.oldExtent.columns ≤ usizeMax
  rowNew : p.row + sp.newExtent.rows ≤ usizeMax
  columnNew : p.column + sp.start.column + sp.newExtent.columns ≤ usizeMax

@[simp] theorem start_inverse (sp : TextSplice) : sp.inverse.start = sp.start := rfl

@[simp] theorem oldEnd_inverse (sp : TextSplice) : sp.inverse.oldEnd = sp.newEnd := rfl

@[simp] theorem newEnd_inverse (sp : TextSplice) : sp.inverse.newEnd = sp.oldEnd := rfl

@[simp] theorem inverse_inverse (sp : TextSplice) : sp.inverse.inverse = sp := rfl

/-- Where an endpoint behind the replaced span goes. -/
def shift (sp : TextSplice) (p : ExtmarkPosition) : ExtmarkPosition :=
  if p.row = sp.oldEnd.row then
    ⟨sp.newEnd.row, sp.newEnd.column + (p.column - sp.oldEnd.column)⟩
  else ⟨sp.newEnd.row + (p.row - sp.oldEnd.row), p.column⟩

/-- The end of the replacement that owns an endpoint inside the replaced span. -/
def side (sp : TextSplice) : ExtmarkGravity → ExtmarkPosition
  | .left => sp.start
  | .right => sp.newEnd

/-! ## Extents -/

theorem extentEnd_eq {s : ExtmarkPosition} {e : TextExtent} (hrow : s.row + e.rows ≤ usizeMax)
    (hcol : s.column + e.columns ≤ usizeMax) :
    extentEnd s e = if e.rows = 0 then ⟨s.row, s.column + e.columns⟩
      else ⟨s.row + e.rows, e.columns⟩ := by
  rw [extentEnd, satAdd_eq hrow, satAdd_eq hcol]

theorem le_extentEnd {s : ExtmarkPosition} {e : TextExtent} (hrow : s.row + e.rows ≤ usizeMax)
    (hcol : s.column + e.columns ≤ usizeMax) : s ≤ extentEnd s e := by
  rw [extentEnd_eq hrow hcol, RowCol.le_iff]
  split
  · exact .inr ⟨rfl, Nat.le_add_right _ _⟩
  · next hrows => exact .inl (by show s.row < s.row + e.rows; omega)

/-- Only the empty extent ends where it starts. -/
theorem extentEnd_eq_start {s : ExtmarkPosition} {e : TextExtent}
    (hrow : s.row + e.rows ≤ usizeMax) (hcol : s.column + e.columns ≤ usizeMax) :
    extentEnd s e = s ↔ e = TextExtent.EMPTY := by
  obtain ⟨rows, columns⟩ := e
  rw [extentEnd_eq hrow hcol, TextExtent.EMPTY, TextExtent.mk.injEq, RowCol.ext_iff]
  by_cases hrows : rows = 0
  · simp [hrows]
  · simp [hrows]

namespace Fits

theorem inverse (h : sp.Fits p) : sp.inverse.Fits p :=
  ⟨h.newRow, h.newColumn, h.oldRow, h.oldColumn, h.rowNew, h.columnNew, h.rowOld, h.columnOld⟩

theorem start_le_oldEnd (h : sp.Fits p) : sp.start ≤ sp.oldEnd :=
  le_extentEnd h.oldRow h.oldColumn

theorem start_le_newEnd (h : sp.Fits p) : sp.start ≤ sp.newEnd :=
  le_extentEnd h.newRow h.newColumn

theorem oldEnd_eq_start (h : sp.Fits p) : sp.oldEnd = sp.start ↔ sp.oldExtent = TextExtent.EMPTY :=
  extentEnd_eq_start h.oldRow h.oldColumn

theorem newEnd_eq_start (h : sp.Fits p) : sp.newEnd = sp.start ↔ sp.newExtent = TextExtent.EMPTY :=
  extentEnd_eq_start h.newRow h.newColumn

/-- A replacement without line breaks ends on the row it starts on. -/
theorem newEnd_row (h : sp.Fits p) : sp.newEnd.row = sp.start.row + sp.newExtent.rows := by
  rw [newEnd, extentEnd_eq h.newRow h.newColumn]
  split
  · next hrows => rw [hrows]; rfl
  · rfl

theorem oldEnd_row (h : sp.Fits p) : sp.oldEnd.row = sp.start.row + sp.oldExtent.rows := by
  rw [oldEnd, extentEnd_eq h.oldRow h.oldColumn]
  split
  · next hrows => rw [hrows]; rfl
  · rfl

end Fits

/-! ## Endpoints -/

/-- The four cases of `transformPosition`. -/
theorem transform_eq (sp : TextSplice) (g : ExtmarkGravity) (p : ExtmarkPosition) :
    sp.transform g p = if p < sp.start then p
      else if sp.oldExtent = TextExtent.EMPTY ∧ p = sp.start then sp.side g
      else if sp.oldExtent ≠ TextExtent.EMPTY ∧ p ≤ sp.oldEnd then sp.side g
      else if p.row = sp.oldEnd.row then
        ⟨sp.newEnd.row, satAdd sp.newEnd.column (p.column - sp.oldEnd.column)⟩
      else ⟨satAdd sp.newEnd.row (p.row - sp.oldEnd.row), p.column⟩ := by
  unfold transform transformPosition
  simp only [Bool.and_eq_true, Bool.not_eq_true', decide_eq_true_eq, decide_eq_false_iff_not]
  rfl

theorem transform_before (h : p < sp.start) : sp.transform g p = p := by
  rw [transform_eq, if_pos h]

theorem transform_inside (hfit : sp.Fits p) (hs : sp.start ≤ p) (ho : p ≤ sp.oldEnd) :
    sp.transform g p = sp.side g := by
  rw [transform_eq, if_neg (not_lt.mpr hs)]
  by_cases hempty : sp.oldExtent = TextExtent.EMPTY
  · have hp : p = sp.start := le_antisymm (hfit.oldEnd_eq_start.mpr hempty ▸ ho) hs
    rw [if_pos ⟨hempty, hp⟩]
  · rw [if_neg fun h => hempty h.1, if_pos ⟨hempty, ho⟩]

theorem transform_behind (hfit : sp.Fits p) (ho : sp.oldEnd < p) :
    sp.transform g p = sp.shift p := by
  have hs := hfit.start_le_oldEnd.trans_lt ho
  rw [transform_eq, if_neg (not_lt.mpr hs.le), if_neg fun h => hs.ne' h.2,
    if_neg fun h => not_le.mpr ho h.2, shift]
  have hnew := hfit.newEnd_row
  have hold := hfit.oldEnd_row
  have hlt := RowCol.lt_iff.mp ho
  have hcol : sp.newEnd.column ≤ sp.start.column + sp.newExtent.columns := by
    rw [newEnd, extentEnd_eq hfit.newRow hfit.newColumn]
    split
    · exact le_refl _
    · exact Nat.le_add_left _ _
  have hrowFits := hfit.rowNew
  have hcolFits := hfit.columnNew
  by_cases hrow : p.row = sp.oldEnd.row
  · rw [if_pos hrow, if_pos hrow, satAdd_eq (by omega)]
  · rw [if_neg hrow, if_neg hrow, satAdd_eq (by omega)]

theorem newEnd_lt_shift (ho : sp.oldEnd < p) : sp.newEnd < sp.shift p := by
  have hlt := RowCol.lt_iff.mp ho
  rw [shift, RowCol.lt_iff]
  split
  · exact .inr ⟨rfl, by show _ < _ + _; omega⟩
  · exact .inl (by show _ < _ + _; omega)

theorem shift_lt_shift (ho : sp.oldEnd < p) (hpq : p < q) : sp.shift p < sp.shift q := by
  have hlt := RowCol.lt_iff.mp ho
  have hpq := RowCol.lt_iff.mp hpq
  rw [shift, shift, RowCol.lt_iff]
  by_cases hp : p.row = sp.oldEnd.row <;> by_cases hq : q.row = sp.oldEnd.row
  · rw [if_pos hp, if_pos hq]
    exact .inr ⟨rfl, by show _ + _ < _ + _; omega⟩
  · simp only [if_pos hp, if_neg hq]
    omega
  · omega
  · simp only [if_neg hp, if_neg hq]
    omega

/-- The reverse splice takes a shift back. -/
theorem shift_inverse_shift (ho : sp.oldEnd < p) : sp.inverse.shift (sp.shift p) = p := by
  have hlt := RowCol.lt_iff.mp ho
  rw [shift, oldEnd_inverse, newEnd_inverse, RowCol.ext_iff]
  by_cases hrow : p.row = sp.oldEnd.row
  · rw [shift, if_pos hrow, if_pos rfl]
    simp only
    omega
  · rw [shift, if_neg hrow, if_neg (by simp only; omega)]
    exact ⟨by show _ + (_ + _ - _) = _; omega, rfl⟩

/-- An endpoint that a splice neither moves nor touches is not moved by the reverse splice. -/
theorem transform_inverse (hfit : sp.Fits p) (hstay : sp.transform g p = p)
    (huntouched : ¬(sp.start ≤ p ∧ p < sp.oldEnd)) : sp.inverse.transform g p = p := by
  have hfit' := hfit.inverse
  rcases lt_or_ge p sp.start with hs | hs
  · exact transform_before hs
  rcases lt_or_ge sp.oldEnd p with ho | ho
  · rw [transform_behind hfit ho] at hstay
    have hn : sp.inverse.oldEnd < p := hstay ▸ newEnd_lt_shift ho
    rw [transform_behind hfit' hn, ← hstay, shift_inverse_shift ho, hstay]
  · -- an untouched endpoint of the replaced span is its end
    have hp : p = sp.oldEnd := le_antisymm ho (not_lt.mp fun h => huntouched ⟨hs, h⟩)
    rw [transform_inside hfit hs ho] at hstay
    cases g with
    | left =>
      have hstart : p ≤ sp.inverse.oldEnd := hstay ▸ hfit.start_le_newEnd
      rw [transform_inside hfit' hs hstart]
      exact hstay
    | right =>
      have hend : p ≤ sp.inverse.oldEnd := le_of_eq hstay.symm
      rw [transform_inside hfit' hs hend]
      exact hp.symm

end TextSplice

/-! ## Marks that the reverse splice disturbs -/

namespace Extmark

variable {mark : Extmark} {sp : TextSplice}

/-- The splice fits for both endpoints. -/
def Fits (mark : Extmark) (sp : TextSplice) : Prop :=
  sp.Fits mark.position ∧ ∀ stop, mark.stop = some stop → sp.Fits stop

/-- A visible mark that asks to be invalidated ends up inside the replacement: a range that sits on
the point of an insertion, or a point with left gravity in a replaced span that is not taken for
deleted, where the replacement has a line break. -/
def CaughtBy (mark : Extmark) (sp : TextSplice) : Prop :=
  sp.newExtent ≠ TextExtent.EMPTY ∧ mark.invalid = false ∧
    mark.hasFlag ExtmarkFlags.INVALIDATE = true ∧
    match mark.stop with
    | some stop => sp.oldExtent = TextExtent.EMPTY ∧ mark.position = sp.start ∧ stop = sp.start
    | none => 0 < sp.newExtent.rows ∧ mark.placement.gravity = .left ∧ sp.start ≤ mark.position ∧
        mark.position ≤ sp.oldEnd ∧ ¬(0 < sp.oldExtent.rows ∧ mark.position.row < sp.oldEnd.row)

/-- An insertion at the mark leaves it where it is. -/
def StaysBefore (mark : Extmark) (sp : TextSplice) : Prop :=
  sp.oldExtent = TextExtent.EMPTY ∧ mark.placement.gravity = .left ∧
    ∀ stop, mark.placement.stop = some stop → stop.gravity = .left

/-- The mark is caught, and either undo must not restore it or there is no record of it. -/
def LostBy (mark : Extmark) (sp : TextSplice) : Prop :=
  mark.CaughtBy sp ∧ (mark.hasFlag ExtmarkFlags.UNDO_RESTORE = false ∨ mark.StaysBefore sp)

/-- The reverse splice removes the mark, or moves or hides it while there is no record of it. -/
def DisturbedBy (mark : Extmark) (sp : TextSplice) : Prop :=
  (mark.spliced sp).removedBy sp.inverse = true ∨
    mark.undoEntry sp = none ∧
      (((mark.spliced sp).spliced sp.inverse).movedFrom mark = true ∨
        ((mark.spliced sp).spliced sp.inverse).invalid ≠ mark.invalid)

/-- A mark that undo gets wrong: a lost one, where all sums of coordinates fit. Beyond that it is a
matter of which sums are cut off, and only the two splices themselves tell. -/
def SpoiledBy (mark : Extmark) (sp : TextSplice) : Prop :=
  mark.Fits sp ∧ mark.LostBy sp ∨ ¬mark.Fits sp ∧ mark.DisturbedBy sp

theorem undoEntry_eq_none : mark.undoEntry sp = none ↔
    (mark.spliced sp).position = mark.position ∧ (mark.spliced sp).stop = mark.stop ∧
      (mark.spliced sp).invalid = mark.invalid ∧ mark.touchedBy sp = false := by
  unfold undoEntry movedFrom
  simp only [ne_eq, ite_eq_right_iff, reduceCtorEq, imp_false, Bool.or_eq_true, not_or,
    decide_eq_true_eq, not_not, Bool.not_eq_true, and_assoc]

/-- The start of a point lies on the rows of the replacement before its last exactly when left
gravity keeps it at the start of the splice. -/
theorem row_transform_lt {p : ExtmarkPosition} (hfit : sp.Fits p) {g : ExtmarkGravity}
    (hrows : 0 < sp.newExtent.rows) :
    (sp.start ≤ sp.transform g p ∧ (sp.transform g p).row < sp.newEnd.row) ↔
      g = .left ∧ sp.start ≤ p ∧ p ≤ sp.oldEnd := by
  have hn := hfit.newEnd_row
  rcases lt_or_ge p sp.start with hs | hs
  · rw [TextSplice.transform_before hs]
    exact ⟨fun h => absurd h.1 (not_le.mpr hs), fun h => absurd h.2.1 (not_le.mpr hs)⟩
  rcases lt_or_ge sp.oldEnd p with ho | ho
  · rw [TextSplice.transform_behind hfit ho]
    have hlt := RowCol.lt_iff.mp (TextSplice.newEnd_lt_shift ho)
    exact ⟨fun h => absurd h.2 (by omega), fun h => absurd h.2.2 (not_le.mpr ho)⟩
  · rw [TextSplice.transform_inside hfit hs ho]
    cases g with
    | left =>
      have hrow : sp.start.row < sp.newEnd.row := by omega
      exact ⟨fun _ => ⟨rfl, hs, ho⟩, fun _ => ⟨le_refl _, hrow⟩⟩
    | right => exact ⟨fun h => absurd h.2 (lt_irrefl _), fun h => nomatch h.1⟩

/-- The endpoints of a range lie inside the replacement exactly when they did inside the span. -/
theorem transform_within {p e : ExtmarkPosition} (hp : sp.Fits p) (he : sp.Fits e) (hpe : p ≤ e)
    {g g' : ExtmarkGravity} :
    (sp.start ≤ min (sp.transform g p) (sp.transform g' e) ∧
      max (sp.transform g p) (sp.transform g' e) ≤ sp.newEnd) ↔ sp.start ≤ p ∧ e ≤ sp.oldEnd := by
  rw [le_min_iff, max_le_iff]
  have hside : ∀ g, sp.start ≤ sp.side g ∧ sp.side g ≤ sp.newEnd := fun g => by
    cases g
    · exact ⟨le_refl _, hp.start_le_newEnd⟩
    · exact ⟨hp.start_le_newEnd, le_refl _⟩
  constructor
  · rintro ⟨⟨hsp, -⟩, -, hen⟩
    refine ⟨?_, ?_⟩
    · by_contra hs
      rw [TextSplice.transform_before (not_le.mp hs)] at hsp
      exact hs hsp
    · by_contra ho
      rw [TextSplice.transform_behind he (not_le.mp ho)] at hen
      exact absurd hen (not_le.mpr (TextSplice.newEnd_lt_shift (not_le.mp ho)))
  · rintro ⟨hs, ho⟩
    rw [TextSplice.transform_inside hp hs (hpe.trans ho),
      TextSplice.transform_inside he (hs.trans hpe) ho]
    exact ⟨⟨(hside g).1, (hside g').1⟩, (hside g).2, (hside g').2⟩

theorem consumedBy_eq_true : mark.consumedBy sp = true ↔
    sp.oldExtent ≠ TextExtent.EMPTY ∧ mark.invalid = false ∧
      mark.hasFlag ExtmarkFlags.INVALIDATE = true ∧
      match mark.stop with
      | some stop => sp.start ≤ mark.position ∧ stop ≤ sp.oldEnd
      | none => 0 < sp.oldExtent.rows ∧ sp.start ≤ mark.position ∧
          mark.position.row < sp.oldEnd.row := by
  unfold consumedBy
  cases mark.stop <;>
    simp only [ne_eq, decide_not, Bool.and_eq_true, Bool.not_eq_true', decide_eq_false_iff_not,
      decide_eq_true_eq, and_assoc]

/-- A splice changes the endpoints of a mark and whether it is hidden, and nothing else. -/
theorem placement_spliced (mark : Extmark) (sp : TextSplice) :
    (mark.spliced sp).placement.gravity = mark.placement.gravity ∧
      (mark.spliced sp).placement.attributes = mark.placement.attributes ∧
      (mark.spliced sp).placement.stop.map (·.gravity) = mark.placement.stop.map (·.gravity) := by
  have hplace : (mark.spliced sp).placement = mark.moveBy sp := rfl
  rw [hplace, moveBy]
  cases hstop : mark.placement.stop with
  | none => exact ⟨rfl, rfl, by simp [hstop]⟩
  | some e =>
    simp only
    split <;> exact ⟨rfl, rfl, rfl⟩

theorem hasFlag_spliced (mark : Extmark) (sp : TextSplice) (flag : ExtmarkFlags) :
    (mark.spliced sp).hasFlag flag = mark.hasFlag flag := by
  rw [hasFlag, hasFlag, (placement_spliced mark sp).2.1]

/-- The reverse splice takes the text under a mark for deleted where the mark is caught. -/
theorem consumedBy_inverse (hord : mark.Ordered) (hfit : mark.Fits sp) :
    (mark.spliced sp).consumedBy sp.inverse = true ↔ mark.CaughtBy sp := by
  have hinvalid : (mark.spliced sp).invalid = false ↔
      mark.invalid = false ∧ ¬mark.consumedBy sp = true := by
    simp [spliced]
  rw [consumedBy_eq_true, hinvalid, hasFlag_spliced, CaughtBy]
  refine and_congr_right fun hnew => ?_
  rw [and_assoc]
  refine and_congr_right fun hvisible => ?_
  rw [← and_assoc, and_comm (a := ¬_), and_assoc]
  refine and_congr_right fun hinv => ?_
  rw [consumedBy_eq_true, hvisible, hinv]
  cases hstop : mark.placement.stop with
  | none =>
    obtain ⟨hpos, hnone⟩ := spliced_of_point hstop sp
    have hstop' : mark.stop = none := by rw [stop, hstop]; rfl
    rw [hnone, hstop', hpos]
    simp only [true_and]
    have hempty : 0 < sp.oldExtent.rows → sp.oldExtent ≠ TextExtent.EMPTY := fun h heq => by
      rw [heq] at h
      exact absurd h (lt_irrefl 0)
    constructor
    · rintro ⟨hnot, hrows, hinside⟩
      obtain ⟨hleft, hs, ho⟩ := (row_transform_lt hfit.1 hrows).mp hinside
      exact ⟨hrows, hleft, hs, ho, fun h => hnot ⟨hempty h.1, h.1, hs, h.2⟩⟩
    · rintro ⟨hrows, hleft, hs, ho, hnot⟩
      exact ⟨fun h => hnot ⟨h.2.1, h.2.2.2⟩, hrows,
        (row_transform_lt hfit.1 hrows).mpr ⟨hleft, hs, ho⟩⟩
  | some e =>
    obtain ⟨hpos, hsome⟩ := spliced_of_range hstop sp
    have hstop' : mark.stop = some e.position := by rw [stop, hstop]; rfl
    rw [hsome, hstop', hpos]
    simp only [true_and, TextSplice.start_inverse, TextSplice.oldEnd_inverse]
    rw [transform_within hfit.1 (hfit.2 _ hstop') (hord _ hstop')]
    have hend := hfit.1.oldEnd_eq_start
    have hle := hord _ hstop'
    constructor
    · rintro ⟨hnot, hs, ho⟩
      have hempty : sp.oldExtent = TextExtent.EMPTY := not_not.mp fun h => hnot ⟨h, hs, ho⟩
      rw [hend.mpr hempty] at ho
      exact ⟨hempty, le_antisymm (hle.trans ho) hs, le_antisymm ho (hs.trans hle)⟩
    · rintro ⟨hempty, hp, he⟩
      exact ⟨fun h => h.1 hempty, le_of_eq hp.symm, by rw [hend.mpr hempty, he]⟩

theorem not_consumedBy_of_insertion (h : sp.oldExtent = TextExtent.EMPTY) :
    mark.consumedBy sp = false := by
  rw [consumedBy, h]
  rfl

theorem not_touchedBy_of_insertion (h : sp.oldExtent = TextExtent.EMPTY) :
    mark.touchedBy sp = false := by
  rw [touchedBy, h]
  rfl

/-- No endpoint of an untouched mark lies in the replaced span. -/
theorem untouched (hfit : mark.Fits sp) (h : mark.touchedBy sp = false) :
    ¬(sp.start ≤ mark.position ∧ mark.position < sp.oldEnd) ∧
      ∀ stop, mark.stop = some stop → ¬(sp.start ≤ stop ∧ stop < sp.oldEnd) := by
  by_cases hempty : sp.oldExtent = TextExtent.EMPTY
  · rw [hfit.1.oldEnd_eq_start.mpr hempty]
    exact ⟨fun h => absurd h.1 (not_le.mpr h.2), fun _ _ h => absurd h.1 (not_le.mpr h.2)⟩
  · simp only [touchedBy, ne_eq, hempty, not_false_eq_true, decide_true, Bool.true_and,
      Bool.or_eq_false_iff, decide_eq_false_iff_not] at h
    refine ⟨h.1, fun stop hstop hin => ?_⟩
    rw [hstop, Option.any_some, decide_eq_false_iff_not] at h
    exact h.2 hin

/-- Where the endpoints of an untouched range stay, each of them stays: they do not change places. -/
theorem transform_range {p e : ExtmarkPosition} (hp : sp.Fits p) (he : sp.Fits e) (hpe : p ≤ e)
    {g g' : ExtmarkGravity} (hmin : min (sp.transform g p) (sp.transform g' e) = p)
    (hmax : max (sp.transform g p) (sp.transform g' e) = e)
    (huntouched : ¬(sp.start ≤ p ∧ p < sp.oldEnd)) :
    sp.transform g p = p ∧ sp.transform g' e = e := by
  rcases le_or_gt (sp.transform g p) (sp.transform g' e) with hle | hgt
  · rw [min_eq_left hle] at hmin
    rw [max_eq_right hle] at hmax
    exact ⟨hmin, hmax⟩
  · rw [min_eq_right hgt.le] at hmin
    rw [max_eq_left hgt.le] at hmax
    -- the endpoints would have crossed: the start went to the end, and the end to the start
    rcases hpe.lt_or_eq with hlt | rfl
    · exfalso
      rcases lt_or_ge p sp.start with hs | hs
      · rw [TextSplice.transform_before hs] at hmax
        exact hlt.ne hmax
      rcases lt_or_ge sp.oldEnd e with ho | ho
      · rw [TextSplice.transform_behind he ho] at hmin hgt
        have hn : sp.newEnd < p := hmin ▸ TextSplice.newEnd_lt_shift ho
        rcases lt_or_ge sp.oldEnd p with ho' | ho'
        · rw [TextSplice.transform_behind hp ho'] at hgt
          exact absurd (TextSplice.shift_lt_shift ho' hlt) hgt.asymm
        · rw [TextSplice.transform_inside hp hs ho'] at hmax
          have hside : sp.side g ≤ sp.newEnd := by
            cases g
            · exact hp.start_le_newEnd
            · exact le_refl _
          exact absurd (hmax ▸ hside) (not_le.mpr (hn.trans hlt))
      · exact huntouched ⟨hs, hlt.trans_le ho⟩
    · exact ⟨hmax, hmin⟩

/-- The reverse splice moves no mark without a record. -/
theorem spliced_inverse (hord : mark.Ordered) (hfit : mark.Fits sp)
    (hnone : mark.undoEntry sp = none) :
    ((mark.spliced sp).spliced sp.inverse).position = mark.position ∧
      ((mark.spliced sp).spliced sp.inverse).stop = mark.stop := by
  obtain ⟨hpos, hstop, -, htouched⟩ := undoEntry_eq_none.mp hnone
  obtain ⟨hfree, hfree'⟩ := untouched hfit htouched
  obtain ⟨hgravity, -, hgravities⟩ := placement_spliced mark sp
  cases hend : mark.placement.stop with
  | none =>
    rw [hend] at hgravities
    have hend' : (mark.spliced sp).placement.stop = none := Option.map_eq_none_iff.mp hgravities
    obtain ⟨hback, hbackStop⟩ := spliced_of_point hend' sp.inverse
    rw [hback, hbackStop, hgravity, hpos]
    rw [(spliced_of_point hend sp).1] at hpos
    exact ⟨TextSplice.transform_inverse hfit.1 hpos hfree, by rw [stop, hend]; rfl⟩
  | some e =>
    have he : mark.stop = some e.position := by rw [stop, hend]; rfl
    obtain ⟨e', hend'⟩ : ∃ e', (mark.spliced sp).placement.stop = some e' := by
      rw [← Option.isSome_iff_exists, ← Option.isSome_map, hgravities, hend]
      rfl
    have hge : e'.gravity = e.gravity := by
      rw [hend', hend] at hgravities
      exact Option.some.inj hgravities
    have hpe : e'.position = e.position := by
      rw [stop, hend', he] at hstop
      exact Option.some.inj hstop
    obtain ⟨hback, hbackStop⟩ := spliced_of_range hend' sp.inverse
    obtain ⟨hmin, hmax⟩ := spliced_of_range hend sp
    rw [hpos] at hmin
    rw [hstop, he, Option.some.injEq] at hmax
    have hfits := hfit.2 _ he
    obtain ⟨hp, he'⟩ := transform_range hfit.1 hfits (hord _ he) hmin.symm hmax.symm hfree
    rw [hback, hbackStop, hgravity, hpos, hge, hpe, he,
      TextSplice.transform_inverse hfit.1 hp hfree,
      TextSplice.transform_inverse hfits he' (hfree' _ he)]
    exact ⟨min_eq_left (hord _ he), by rw [max_eq_right (hord _ he)]⟩

/-- A caught mark has no record only where an insertion leaves it in place. -/
theorem CaughtBy.undoEntry (h : mark.CaughtBy sp) (hfit : mark.Fits sp) :
    mark.undoEntry sp = none ↔ mark.StaysBefore sp := by
  obtain ⟨hnew, hvisible, -, hcase⟩ := h
  have hspliced : sp.oldExtent = TextExtent.EMPTY → (mark.spliced sp).invalid = mark.invalid := by
    intro hempty
    show (mark.invalid || mark.consumedBy sp) = mark.invalid
    rw [not_consumedBy_of_insertion hempty, Bool.or_false]
  rw [undoEntry_eq_none, StaysBefore]
  cases hend : mark.placement.stop with
  | none =>
    have hstop : mark.stop = none := by rw [stop, hend]; rfl
    rw [hstop] at hcase
    obtain ⟨-, hleft, hs, ho, -⟩ := hcase
    obtain ⟨hpos, hnone⟩ := spliced_of_point hend sp
    rw [hpos, hnone, hleft, TextSplice.transform_inside hfit.1 hs ho, hstop]
    constructor
    · rintro ⟨hstart, -, -, htouched⟩
      have hfree := (untouched hfit htouched).1
      have hstart : sp.start = mark.position := hstart
      have hend : sp.oldEnd = sp.start :=
        le_antisymm (hstart ▸ not_lt.mp fun hlt => hfree ⟨hs, hlt⟩) (hs.trans ho)
      exact ⟨hfit.1.oldEnd_eq_start.mp hend, rfl, by simp⟩
    · rintro ⟨hempty, -, -⟩
      rw [hfit.1.oldEnd_eq_start.mpr hempty] at ho
      exact ⟨le_antisymm hs ho, rfl, hspliced hempty, not_touchedBy_of_insertion hempty⟩
  | some e =>
    have hstop : mark.stop = some e.position := by rw [stop, hend]; rfl
    rw [hstop] at hcase
    obtain ⟨hempty, hp, he⟩ := hcase
    obtain ⟨hmin, hmax⟩ := spliced_of_range hend sp
    have hfits := hfit.2 _ hstop
    have hse : sp.start ≤ sp.oldEnd := hfit.1.start_le_oldEnd
    rw [hmin, hmax, hstop, TextSplice.transform_inside hfit.1 (le_of_eq hp.symm) (hp ▸ hse),
      TextSplice.transform_inside hfits (le_of_eq he.symm) (he ▸ hse), hp, he]
    have hn : sp.newEnd ≠ sp.start := fun h => hnew (hfit.1.newEnd_eq_start.mp h)
    have hle := hfit.1.start_le_newEnd
    constructor
    · rintro ⟨-, hmax, -, -⟩
      have hmax := Option.some.inj hmax
      refine ⟨hempty, ?_, fun e' he' => ?_⟩
      · cases hg : mark.placement.gravity with
        | left => rfl
        | right =>
          rw [hg] at hmax
          exact absurd (le_antisymm ((le_max_left _ _).trans (le_of_eq hmax)) hle) hn
      · cases he'
        cases hg : e.gravity with
        | left => rfl
        | right =>
          rw [hg] at hmax
          exact absurd (le_antisymm ((le_max_right _ _).trans (le_of_eq hmax)) hle) hn
    · rintro ⟨-, hleft, hleft'⟩
      rw [hleft, hleft' e rfl]
      exact ⟨min_self _, congrArg some (max_self _), hspliced hempty,
        not_touchedBy_of_insertion hempty⟩

/-- Where all sums fit, the marks that the reverse splice disturbs are the lost ones. -/
theorem disturbedBy_iff (hord : mark.Ordered) (hfit : mark.Fits sp) :
    mark.DisturbedBy sp ↔ mark.LostBy sp := by
  have hcaught := consumedBy_inverse hord hfit
  have hremoved : (mark.spliced sp).removedBy sp.inverse = true ↔
      mark.CaughtBy sp ∧ mark.hasFlag ExtmarkFlags.UNDO_RESTORE = false := by
    rw [removedBy, Bool.and_eq_true, hcaught, hasFlag_spliced, Bool.not_eq_true']
  have hinvalid : ((mark.spliced sp).spliced sp.inverse).invalid
      = ((mark.spliced sp).invalid || (mark.spliced sp).consumedBy sp.inverse) := rfl
  rw [DisturbedBy, LostBy, hremoved, and_or_left (a := mark.CaughtBy sp)]
  refine or_congr_right ?_
  constructor
  · rintro ⟨hnone, hchanged⟩
    obtain ⟨hpos, hstop⟩ := spliced_inverse hord hfit hnone
    have hsame := (undoEntry_eq_none.mp hnone).2.2.1
    rw [movedFrom, hpos, hstop, hinvalid, hsame] at hchanged
    have hconsumed : (mark.spliced sp).consumedBy sp.inverse = true := by
      rcases hchanged with hmoved | hhidden
      · simp at hmoved
      · by_contra hnot
        rw [Bool.not_eq_true] at hnot
        rw [hnot, Bool.or_false] at hhidden
        exact hhidden rfl
    have hcaught := hcaught.mp hconsumed
    exact ⟨hcaught, (hcaught.undoEntry hfit).mp hnone⟩
  · rintro ⟨hmark, hstays⟩
    refine ⟨(hmark.undoEntry hfit).mpr hstays, .inr ?_⟩
    rw [hinvalid, hcaught.mpr hmark, hmark.2.1, Bool.or_true]
    decide

theorem spoiledBy_iff (hord : mark.Ordered) : mark.SpoiledBy sp ↔ mark.DisturbedBy sp := by
  rw [SpoiledBy]
  by_cases hfit : mark.Fits sp
  · simp only [hfit, true_and, not_true_eq_false, false_and, or_false]
    exact (disturbedBy_iff hord hfit).symm
  · simp only [hfit, false_and, not_false_eq_true, true_and, false_or]

end Extmark

end Oxvim.Editor
