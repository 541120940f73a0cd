import Oxvim.Editor.FoldMethods
import Oxvim.Editor.FoldNesting
import Oxvim.Lib.Stretches

/-!
# Folds of a level array

The ranges computed for a depth are the stretches of rows of at least that depth. They are counted
per row (`rangesFromLevels_ok`): a row is covered once for each depth up to its level. A stretch of
a deeper level lies inside one of a lower level, so the ranges never cross, and normalizing them
only sorts them and sets their depths (`normalizeFolds_nested`).
-/

namespace Oxvim.Editor

open Lib EState

/-! ## Normalized folds -/

/-- Folds with the outer ones first, none of them crossing another, whose depths count the folds
that contain them. -/
structure ProperlyNested (folds : List Fold) : Prop where
  outerFirst : folds.Pairwise fun a b => a.range.OuterFirst b.range
  uncrossed : Uncrossed folds
  depths : ∀ before fold after, folds = before ++ fold :: after →
    fold.depth = before.countP (fun outer => outer.range.Contains fold.range) + 1

/-- The loop changes no range. -/
theorem assignDepths_ranges (stack : List FoldRange) (folds : List Fold) :
    (assignDepths stack folds).2.map (·.range) = folds.map (·.range) := by
  induction folds generalizing stack with
  | nil => rfl
  | cons fold folds ih =>
    rw [assignDepths]
    cases popStack fold.range stack with
    | error e => rfl
    | ok kept => exact congrArg (fold.range :: ·) (ih (fold.range :: kept))

/-- The depth of a fold counts what contains it: of the ranges before the loop, of which the stack
has all that matter, and of the folds before it. -/
theorem assignDepths_depth {folds : List Fold}
    (hsorted : folds.Pairwise fun a b => a.range.OuterFirst b.range)
    (hinhabited : ∀ fold ∈ folds, fold.range.Inhabited) (huncrossed : Uncrossed folds)
    {stack : List FoldRange} (hstack : Stacked stack folds)
    (hfree : ∀ range ∈ stack, ∀ fold ∈ folds, ¬range.Crosses fold.range)
    {before after : List Fold} {fold : Fold}
    (hsplit : (assignDepths stack folds).2 = before ++ fold :: after) :
    fold.depth = stack.countP (fun outer => outer.Contains fold.range)
      + before.countP (fun outer => outer.range.Contains fold.range) + 1 := by
  induction folds generalizing stack before with
  | nil => simp [assignDepths] at hsplit
  | cons first folds ih =>
    obtain ⟨hfirst, hsorted⟩ := List.pairwise_cons.mp hsorted
    obtain ⟨hcross, huncrossed⟩ := uncrossed_cons.mp huncrossed
    obtain ⟨gone, kept, rfl, hrun, hgone, hkept⟩ :=
      popStack_ok (hinhabited first (by simp)) hstack.chain
        (fun range hr => hstack.before range hr first (by simp))
        fun range hr => hfree range hr first (by simp)
    -- what has gone contains nothing that is still to come
    have hpast : ∀ f : Fold, first.range.start ≤ f.range.start → f.range.Inhabited →
        gone.countP (fun outer => outer.Contains f.range) = 0 := by
      intro f hstart hf
      rw [List.countP_eq_zero]
      intro range hr hcontains
      have hcontains := of_decide_eq_true hcontains
      exact absurd (hf.trans_le hcontains.2) (not_lt.mpr ((hgone range hr).trans hstart))
    rw [assignDepths, hrun] at hsplit
    cases before with
    | nil =>
      obtain ⟨rfl, -⟩ := List.cons.inj hsplit
      have hall : kept.countP (fun outer => outer.Contains first.range) = kept.length :=
        List.countP_eq_length.mpr fun range hr => decide_eq_true (hkept range hr)
      simp [List.countP_append, hall, hpast first le_rfl (hinhabited first (by simp))]
    | cons head before =>
      obtain ⟨hhead, htail⟩ := List.cons.inj hsplit
      have hnext : Stacked (first.range :: kept) folds := by
        refine ⟨List.pairwise_cons.mpr ⟨hkept, (List.pairwise_append.mp hstack.chain).2.1⟩, ?_⟩
        intro range hr f hf
        rcases List.mem_cons.mp hr with rfl | hr
        · exact hfirst f hf
        · exact hstack.before range (by simp [hr]) f (by simp [hf])
      have hnextFree : ∀ range ∈ first.range :: kept, ∀ f ∈ folds, ¬range.Crosses f.range := by
        intro range hr f hf
        rcases List.mem_cons.mp hr with rfl | hr
        · exact hcross f hf
        · exact hfree range (by simp [hr]) f (by simp [hf])
      have hdepth := ih hsorted (fun f hf => hinhabited f (by simp [hf])) huncrossed hnext
        hnextFree htail
      -- the fold has the range of one of those still to come
      obtain ⟨f, hf, hrange⟩ : ∃ f ∈ folds, f.range = fold.range := by
        have hmem : fold.range ∈ folds.map (·.range) := by
          rw [← assignDepths_ranges (first.range :: kept) folds, htail]
          simp
        exact List.mem_map.mp hmem
      have hzero := hpast f (hfirst f hf).start_le (hinhabited f (by simp [hf]))
      rw [hrange] at hzero
      rw [hdepth, ← hhead]
      simp only [List.countP_append, List.countP_cons, hzero]
      omega

/-- **Folds that do not cross are normalized to properly nested folds of the same ranges.** -/
theorem normalizeFolds_nested {folds : List Fold} (h : ∀ fold ∈ folds, fold.range.Inhabited)
    (huncrossed : Uncrossed folds) :
    ∃ folds', normalizeFolds folds = .ok () folds' ∧ ProperlyNested folds' ∧
      (folds'.map (·.range)).Perm (folds.map (·.range)) := by
  let sorted := folds.insertionSort fun left right => left.range.OuterFirst right.range
  have hperm : sorted.Perm folds := List.perm_insertionSort _ _
  have hsorted := outerFirst_sorted folds
  have hinhabited : ∀ fold ∈ sorted, fold.range.Inhabited :=
    fun fold hf => h fold (hperm.mem_iff.mp hf)
  have hfree : Uncrossed sorted := (hperm.pairwise_iff fun hab hba => hab hba.symm).mpr huncrossed
  have hempty : Stacked [] sorted := ⟨by simp, by simp⟩
  have hresult : (assignDepths [] sorted).1 = .ok () :=
    (assignDepths_ok_iff hsorted hinhabited hempty).mpr ⟨hfree, by simp⟩
  have hranges := assignDepths_ranges [] sorted
  refine ⟨(assignDepths [] sorted).2, ?_, ⟨?_, ?_, ?_⟩, ?_⟩
  · show (do set (assignDepths [] sorted).2; MonadExcept.ofExcept (assignDepths [] sorted).1 :
      EStateM FoldError (List Fold) Unit) folds = _
    rw [bind_ok (set_run _ _), hresult]
    rfl
  · rw [← List.pairwise_map (R := fun a b => Span.OuterFirst a b), hranges]
    exact List.pairwise_map.mpr hsorted
  · rw [Uncrossed, ← List.pairwise_map (R := fun a b => ¬Span.Crosses a b), hranges]
    exact List.pairwise_map.mpr hfree
  · intro before fold after hsplit
    have hdepth := assignDepths_depth hsorted hinhabited hfree hempty (by simp) hsplit
    simpa using hdepth
  · rw [hranges]
    exact hperm.map _

/-! ## Ranges of a depth -/

/-- The range of whole rows. -/
def lineRange (rows : Span Nat) : FoldRange := ⟨⟨rows.start, 0⟩, ⟨rows.stop, 0⟩⟩

@[simp] theorem lineRange_crosses {a b : Span Nat} :
    (lineRange a).Crosses (lineRange b) ↔ a.Crosses b := by
  simp [Span.Crosses, Span.Overlaps, Span.Contains, lineRange, RowCol.lt_iff, RowCol.le_iff,
    Nat.le_iff_lt_or_eq]

@[simp] theorem lineRange_inhabited {a : Span Nat} : (lineRange a).Inhabited ↔ a.Inhabited := by
  simp [Span.Inhabited, lineRange, RowCol.lt_iff]

theorem lineRange_coversRow {a : Span Nat} {row : Nat} :
    FoldRange.CoversRow (lineRange a) row ↔ a.start ≤ row ∧ row < a.stop := by
  simp [FoldRange.CoversRow, lineRange]

theorem countP_lineRange (spans : List (Span Nat)) (row : Nat) :
    (spans.map lineRange).countP (fun range => FoldRange.CoversRow range row)
      = covering spans row := by
  rw [List.countP_map, covering]
  congr 1
  funext a
  exact decide_eq_decide.mpr lineRange_coversRow

theorem lines_ok {a : Span Nat} (h : a.Inhabited) :
    FoldRange.lines a.start a.stop = .ok (lineRange a) := by
  have hlt : a.start < a.stop := h
  have hle : (⟨a.start, 0⟩ : FoldPosition) ≤ ⟨a.stop, 0⟩ := RowCol.le_iff.mpr (.inl hlt)
  have hne : (⟨a.start, 0⟩ : FoldPosition) ≠ ⟨a.stop, 0⟩ := by simp [hlt.ne]
  rw [FoldRange.lines, FoldRange.normalized, if_pos hle, if_neg hne]
  rfl

/-- The row has at least the level. -/
def AtLeast (levels : List Nat) (depth row : Nat) : Prop := depth ≤ levels.getD row 0

instance (levels : List Nat) (depth : Nat) : DecidablePred (AtLeast levels depth) :=
  fun _ => inferInstanceAs (Decidable (_ ≤ _))

variable {levels : List Nat} {depth : Nat}

theorem folded_eq (hdepth : 0 < depth) (row : Nat) :
    levels[row]?.any (depth ≤ ·) = decide (AtLeast levels depth row) := by
  show _ = decide (depth ≤ levels.getD row 0)
  rw [List.getD_eq_getElem?_getD]
  cases levels[row]? with
  | none => simp [Nat.not_le.mpr hdepth]
  | some level => rfl

/-- One row of the scan keeps its invariant. -/
theorem scanRow_scanned (hdepth : 0 < depth) (ranges : List FoldRange) {row : Nat}
    {pending : Option Nat} {spans : List (Span Nat)}
    (h : Scanned (AtLeast levels depth) row pending spans) :
    ∃ pending' spans', scanRow levels depth (pending, ranges ++ spans.map lineRange) row
        = .ok (pending', ranges ++ spans'.map lineRange) ∧
      Scanned (AtLeast levels depth) (row + 1) pending' spans' := by
  unfold scanRow
  rw [folded_eq hdepth]
  by_cases hp : AtLeast levels depth row
  · rw [decide_eq_true hp]
    cases pending with
    | none => exact ⟨some row, spans, rfl, h.begin hp⟩
    | some s => exact ⟨some s, spans, rfl, h.extend hp⟩
  · rw [decide_eq_false hp]
    cases pending with
    | none => exact ⟨none, spans, rfl, h.skip hp⟩
    | some s =>
      refine ⟨none, spans ++ [⟨s, row⟩], ?_, h.finish hp⟩
      have hlt : s < row := (h.opened s rfl).1
      show (do
        let range ← FoldRange.lines s row
        return (none, ranges ++ spans.map lineRange ++ [range])) = _
      rw [lines_ok (a := ⟨s, row⟩) hlt, List.map_append, ← List.append_assoc]
      rfl

theorem scanRows_scanned (hdepth : 0 < depth) (ranges : List FoldRange) (n : Nat) :
    ∃ pending spans, (List.range n).foldlM (scanRow levels depth) (none, ranges)
        = .ok (pending, ranges ++ spans.map lineRange) ∧
      Scanned (AtLeast levels depth) n pending spans := by
  induction n with
  | zero => exact ⟨none, [], by simp; rfl, .nil⟩
  | succ n ih =>
    obtain ⟨pending, spans, hrun, hscanned⟩ := ih
    obtain ⟨pending', spans', hstep, hscanned'⟩ := scanRow_scanned hdepth ranges hscanned
    refine ⟨pending', spans', ?_, hscanned'⟩
    rw [List.range_succ, List.foldlM_append, hrun]
    show ([n].foldlM (scanRow levels depth) (pending, ranges ++ spans.map lineRange)) = _
    rw [List.foldlM_cons, hstep]
    rfl

/-- The ranges of a depth are stretches, and they cover each row of at least that depth once. -/
theorem scanDepth_ok (hdepth : 0 < depth) (ranges : List FoldRange) :
    ∃ spans, scanDepth levels ranges depth = .ok (ranges ++ spans.map lineRange) ∧
      (∀ a ∈ spans, Stretch (AtLeast levels depth) a) ∧
      ∀ row, covering spans row = if AtLeast levels depth row then 1 else 0 := by
  obtain ⟨pending, spans, hrun, hscanned⟩ :=
    scanRows_scanned hdepth ranges (levels.length + 1)
  have hout : ∀ row, levels.length ≤ row → ¬AtLeast levels depth row := by
    intro row hrow
    rw [AtLeast, List.getD_eq_default _ _ hrow]
    omega
  refine ⟨spans, ?_, hscanned.stretches, ?_⟩
  · rw [scanDepth, hrun]
    rfl
  · intro row
    rw [hscanned.covered row]
    -- no stretch is pending behind the row past the last one
    have hpending : pending = none := by
      cases pending with
      | none => rfl
      | some s =>
        obtain ⟨hlt, hinside, -⟩ := hscanned.opened s rfl
        exact absurd (hinside levels.length (by omega) (by omega)) (hout _ le_rfl)
    rw [hpending, Option.getD_none]
    by_cases hrow : row < levels.length + 1
    · simp [hrow]
    · simp [hrow, hout row (by omega)]

/-- The ranges up to a depth: stretches, which cover a row once for each depth up to its level. -/
theorem scanDepths_ok (k : Nat) :
    ∃ spans, (List.range' 1 k).foldlM (scanDepth levels) [] = .ok (spans.map lineRange) ∧
      (∀ a ∈ spans, ∃ depth, 0 < depth ∧ Stretch (AtLeast levels depth) a) ∧
      ∀ row, covering spans row = min (levels.getD row 0) k := by
  induction k with
  | zero => exact ⟨[], rfl, by simp, by simp⟩
  | succ k ih =>
    obtain ⟨spans, hrun, hstretches, hcovering⟩ := ih
    obtain ⟨deeper, hstep, hdeeper, honce⟩ :=
      scanDepth_ok (by omega : 0 < 1 + k) (spans.map lineRange)
    refine ⟨spans ++ deeper, ?_, ?_, ?_⟩
    · rw [← List.range'_append_1, List.foldlM_append, hrun]
      show ([1 + k].foldlM (scanDepth levels) (spans.map lineRange)) = _
      rw [List.foldlM_cons, hstep, List.map_append]
      rfl
    · intro a ha
      rcases List.mem_append.mp ha with ha | ha
      · exact hstretches a ha
      · exact ⟨1 + k, by omega, hdeeper a ha⟩
    · intro row
      rw [covering_append, hcovering, honce]
      by_cases hle : AtLeast levels (1 + k) row
      · have hlevel : 1 + k ≤ levels.getD row 0 := hle
        rw [if_pos hle]
        omega
      · have hlevel : ¬1 + k ≤ levels.getD row 0 := hle
        rw [if_neg hle]
        omega

/-- **The ranges of a level array cover a row as often as its level says, and do not cross.** -/
theorem rangesFromLevels_ok (hmax : ∀ level ∈ levels, level ≤ maxFoldDepth) :
    ∃ spans, rangesFromLevels levels = .ok (spans.map lineRange) ∧
      (∀ a ∈ spans, a.Inhabited) ∧ (∀ a ∈ spans, ∀ b ∈ spans, ¬a.Crosses b) ∧
      ∀ row, covering spans row = levels.getD row 0 := by
  obtain ⟨spans, hrun, hstretches, hcovering⟩ :=
    scanDepths_ok (min (levels.max?.getD 0) maxFoldDepth)
  refine ⟨spans, hrun, ?_, ?_, ?_⟩
  · intro a ha
    obtain ⟨depth, hdepth, h⟩ := hstretches a ha
    exact h.inhabited
  · intro a ha b hb
    obtain ⟨d, hd, h⟩ := hstretches a ha
    obtain ⟨d', hd', h'⟩ := hstretches b hb
    -- the deeper one lies inside
    rcases le_total d d' with hle | hle
    · exact h.not_crosses h' fun i hi => hle.trans hi
    · exact fun hcross => h'.not_crosses h (fun i hi => hle.trans hi) hcross.symm
  · intro row
    rw [hcovering row]
    by_cases hrow : row < levels.length
    · have hmem : levels.getD row 0 ∈ levels := by
        rw [List.getD_eq_getElem _ _ hrow]
        exact List.getElem_mem hrow
      have hle : levels.getD row 0 ≤ levels.max?.getD 0 := by
        cases hmaximum : levels.max? with
        | none => simp [List.max?_eq_none_iff.mp hmaximum] at hrow
        | some m => exact (List.max?_eq_some_iff.mp hmaximum).2 _ hmem
      have hdepth := hmax _ hmem
      omega
    · rw [List.getD_eq_default _ _ (Nat.le_of_not_lt hrow)]
      omega

end Oxvim.Editor
