import Oxvim.Editor.FoldLevels

/-!
# Computed folds reproduce the levels

The folds of the indent and the marker method are computed when the text or a setting has changed,
and kept otherwise. `Current` is what every operation keeps: folds that count as current are those
of the text of their changedtick. So a refresh answers with folds that cover each row as often as
its level says, whether it computes them or not.
-/

namespace Oxvim.Editor

open Lib EState

/-! ## Indent levels -/

variable {shiftWidth : Nat} {lines : List (List UInt8)}

/-- The level of the nearest line above a row that is not blank, 0 above the first one. -/
def levelAbove (shiftWidth : Nat) (lines : List (List UInt8)) (row : Nat) : Nat :=
  ((lines.take row).filterMap (rawIndent shiftWidth)).getLast?.getD 0

/-- The level of the nearest line below a row that is not blank, 0 below the last one. -/
def levelBelow (shiftWidth : Nat) (lines : List (List UInt8)) (row : Nat) : Nat :=
  ((lines.drop (row + 1)).filterMap (rawIndent shiftWidth)).head?.getD 0

/-- The forward pass gives a blank line the nearest level above, and the backward pass takes it to
the nearest level below where that is lower. -/
theorem takeLower_seedAbove (previous : Nat) (raw : List (Option Nat)) :
    (takeLower raw (seedAbove previous raw)).1 = (raw.filterMap id).head?.getD 0 ∧
      ∀ i : Nat, (takeLower raw (seedAbove previous raw)).2[i]? = raw[i]?.map fun level =>
        level.getD (min (((raw.take i).filterMap id).getLast?.getD previous)
          (((raw.drop (i + 1)).filterMap id).head?.getD 0)) := by
  induction raw generalizing previous with
  | nil => simp [takeLower]
  | cons level raw ih =>
    cases level with
    | none =>
      obtain ⟨hnext, hrest⟩ := ih previous
      refine ⟨by simp [seedAbove, takeLower, hnext], fun i => ?_⟩
      cases i with
      | zero => simp [seedAbove, takeLower, hnext]
      | succ i => simp [seedAbove, takeLower, hrest]
    | some level =>
      obtain ⟨hnext, hrest⟩ := ih level
      refine ⟨by simp [seedAbove, takeLower], fun i => ?_⟩
      cases i with
      | zero => simp [seedAbove, takeLower]
      | succ i => simp [seedAbove, takeLower, hrest, List.getLast?_cons]

/-- **A blank line has the lower of the nearest levels above and below.** -/
theorem indentLevels_spec (hshift : shiftWidth ≠ 0) (lines : List (List UInt8)) :
    ∃ levels, indentLevels lines shiftWidth = .ok levels ∧ levels.length = lines.length ∧
      ∀ row : Nat, levels[row]? = lines[row]?.map fun line => (rawIndent shiftWidth line).getD
        (min (levelAbove shiftWidth lines row) (levelBelow shiftWidth lines row)) := by
  have hspec := (takeLower_seedAbove 0 (lines.map (rawIndent shiftWidth))).2
  have hrows : ∀ row : Nat, (takeLower (lines.map (rawIndent shiftWidth))
      (seedAbove 0 (lines.map (rawIndent shiftWidth)))).2[row]?
        = lines[row]?.map fun line => (rawIndent shiftWidth line).getD
          (min (levelAbove shiftWidth lines row) (levelBelow shiftWidth lines row)) := by
    intro row
    rw [hspec row, List.getElem?_map, Option.map_map, ← List.map_take, ← List.map_drop,
      List.filterMap_map, List.filterMap_map]
    rfl
  refine ⟨_, if_neg hshift, ?_, hrows⟩
  -- a list is as long as it has rows
  refine Nat.le_antisymm ?_ ?_
  · rw [← List.getElem?_eq_none_iff, hrows, List.getElem?_eq_none le_rfl, Option.map_none]
  · have hnone := List.getElem?_eq_none (Nat.le_refl (takeLower (lines.map (rawIndent shiftWidth))
      (seedAbove 0 (lines.map (rawIndent shiftWidth)))).2.length)
    rw [hrows, Option.map_eq_none_iff, List.getElem?_eq_none_iff] at hnone
    exact hnone

theorem rawIndent_le {line : List UInt8} {level : Nat}
    (h : rawIndent shiftWidth line = some level) :
    level ≤ maxFoldDepth := by
  unfold rawIndent at h
  simp only at h
  split at h
  · cases h
  · exact (Option.some.inj h) ▸ Nat.min_le_right ..

/-- The nearest level above is one of a line. -/
theorem levelAbove_le (lines : List (List UInt8)) (row : Nat) :
    levelAbove shiftWidth lines row ≤ maxFoldDepth := by
  rw [levelAbove]
  cases hlast : ((lines.take row).filterMap (rawIndent shiftWidth)).getLast? with
  | none => exact Nat.zero_le _
  | some level =>
    obtain ⟨line, -, hline⟩ := List.mem_filterMap.mp (List.mem_of_getLast? hlast)
    exact rawIndent_le hline

theorem indentLevels_le (hshift : shiftWidth ≠ 0) {levels : List Nat}
    (h : indentLevels lines shiftWidth = .ok levels) : ∀ level ∈ levels, level ≤ maxFoldDepth := by
  obtain ⟨levels', h', -, hrows⟩ := indentLevels_spec hshift lines
  obtain rfl : levels' = levels := Except.ok.inj (h'.symm.trans h)
  intro level hlevel
  obtain ⟨row, hrow⟩ := List.mem_iff_getElem?.mp hlevel
  rw [hrows row, Option.map_eq_some_iff] at hrow
  obtain ⟨line, -, rfl⟩ := hrow
  cases hraw : rawIndent shiftWidth line with
  | none => exact (Nat.min_le_left ..).trans (levelAbove_le lines row)
  | some level => exact rawIndent_le hraw

/-! ## Marker levels -/

theorem length_markerLevelsFrom (start stop : List UInt8) (level : Nat)
    (lines : List (List UInt8)) :
    (markerLevelsFrom start stop level lines).length = lines.length := by
  induction lines generalizing level with
  | nil => rfl
  | cons line lines ih => simp [markerLevelsFrom, ih]

theorem markerLevelsFrom_le (start stop : List UInt8) (level : Nat) (lines : List (List UInt8)) :
    ∀ l ∈ markerLevelsFrom start stop level lines, l ≤ maxFoldDepth := by
  induction lines generalizing level with
  | nil => simp [markerLevelsFrom]
  | cons line lines ih =>
    intro l hl
    rcases List.mem_cons.mp hl with rfl | hl
    · exact Nat.min_le_right ..
    · exact ih _ l hl

/-! ## Folds that show levels -/

/-- The part of a fold that its display state does not touch. -/
def Fold.place (self : Fold) : FoldRange × Nat := (self.range, self.depth)

theorem ProperlyNested.of_places {folds folds' : List Fold} (h : ProperlyNested folds)
    (hplaces : folds'.map Fold.place = folds.map Fold.place) : ProperlyNested folds' := by
  have hpairs : ∀ {R : FoldRange → FoldRange → Prop},
      folds.Pairwise (fun a b => R a.range b.range) →
      folds'.Pairwise (fun a b => R a.range b.range) := by
    intro R hR
    have hmap : (folds'.map Fold.place).Pairwise fun a b => R a.1 b.1 := by
      rw [hplaces]
      exact List.pairwise_map.mpr hR
    exact (List.pairwise_map (R := fun a b : FoldRange × Nat => R a.1 b.1)).mp hmap
  refine ⟨hpairs h.outerFirst, hpairs (R := fun a b => ¬a.Crosses b) h.uncrossed, ?_⟩
  intro before' fold' after' hsplit
  rw [hsplit, List.map_append, List.map_cons] at hplaces
  -- the fold of the same place in the other list
  obtain ⟨before, rest, rfl, hbefore, hrest⟩ := List.map_eq_append_iff.mp hplaces.symm
  obtain ⟨fold, after, rfl, hfold, -⟩ := List.map_eq_cons_iff.mp hrest
  have hdepth := h.depths before fold after rfl
  have hrange : fold.range = fold'.range := congrArg Prod.fst hfold
  have hcount : ∀ folds : List Fold, folds.countP (fun outer => outer.range.Contains fold'.range)
      = (folds.map Fold.place).countP fun place => Span.Contains place.1 fold'.range := by
    intro folds
    rw [List.countP_map]
    rfl
  rw [hcount, ← hbefore, ← hcount, ← hrange, ← hdepth]
  exact (congrArg Prod.snd hfold).symm

/-- The folds are properly nested and cover each row as often as its level says. -/
structure Shows (levels : List Nat) (folds : List Fold) : Prop where
  nested : ProperlyNested folds
  covered : ∀ row, folds.countP (fun fold => fold.range.CoversRow row) = levels.getD row 0

theorem Shows.of_places {levels : List Nat} {folds folds' : List Fold} (h : Shows levels folds)
    (hplaces : folds'.map Fold.place = folds.map Fold.place) : Shows levels folds' := by
  refine ⟨h.nested.of_places hplaces, fun row => ?_⟩
  have hcount : ∀ folds : List Fold, folds.countP (fun fold => fold.range.CoversRow row)
      = (folds.map Fold.place).countP fun place => FoldRange.CoversRow place.1 row := by
    intro folds
    rw [List.countP_map]
    rfl
  rw [hcount, hplaces, ← hcount, h.covered row]

namespace Folds

/-- Replacing the computed folds by ranges of whole rows that do not cross succeeds. -/
theorem replaceComputed_ok {spans : List (Span Nat)} (hinhabited : ∀ a ∈ spans, a.Inhabited)
    (huncrossed : ∀ a ∈ spans, ∀ b ∈ spans, ¬a.Crosses b) (self : Folds) :
    ∃ computed, replaceComputed (spans.map lineRange) self = .ok () { self with computed } ∧
      ProperlyNested computed ∧
      ∀ row, computed.countP (fun fold => fold.range.CoversRow row) = covering spans row := by
  let folds := (spans.map lineRange).map fun range =>
    ({ range, depth := 1, state := .closed } : Fold)
  have hranges : folds.map (·.range) = spans.map lineRange := by
    simp [folds, Function.comp_def]
  have hmem : ∀ fold ∈ folds, ∃ a ∈ spans, lineRange a = fold.range := by
    intro fold hf
    have hrange : fold.range ∈ spans.map lineRange := hranges ▸ List.mem_map_of_mem hf
    exact List.mem_map.mp hrange
  obtain ⟨normal, hnormal, hnested, hperm⟩ := normalizeFolds_nested
    (by
      intro fold hf
      obtain ⟨a, ha, hrange⟩ := hmem fold hf
      exact hrange ▸ lineRange_inhabited.mpr (hinhabited a ha))
    (by
      refine List.pairwise_of_forall_mem_list fun f hf g hg => ?_
      obtain ⟨a, ha, hrange⟩ := hmem f hf
      obtain ⟨b, hb, hrange'⟩ := hmem g hg
      rw [← hrange, ← hrange', lineRange_crosses]
      exact huncrossed a ha b hb)
  have hplaces : (normal.map fun fold => { fold with state := self.stateOf fold }).map Fold.place
      = normal.map Fold.place := by
    rw [List.map_map]
    rfl
  refine ⟨normal.map fun fold => { fold with state := self.stateOf fold }, ?_,
    hnested.of_places hplaces, fun row => ?_⟩
  · rw [replaceComputed, bind_ok (get_run self)]
    dsimp only
    rw [hnormal]
    rfl
  · have hcount : ∀ folds : List Fold, folds.countP (fun fold => fold.range.CoversRow row)
        = (folds.map (·.range)).countP fun range => FoldRange.CoversRow range row := by
      intro folds
      rw [List.countP_map]
      rfl
    rw [hcount, List.map_map, ← countP_lineRange, ← hranges, ← hperm.countP_eq]
    rfl

/-- Computing folds of levels succeeds, and the folds show the levels. -/
theorem recompute_ok {levels : List Nat} (hmax : ∀ level ∈ levels, level ≤ maxFoldDepth)
    (tick : UInt64) (self : Folds) :
    ∃ computed, recompute tick (.ok levels) self
        = .ok () { self with computed, changedtick := some tick, dirty := false } ∧
      Shows levels computed := by
  obtain ⟨spans, hranges, hinhabited, huncrossed, hcovering⟩ := rangesFromLevels_ok hmax
  obtain ⟨computed, hrun, hnested, hcovered⟩ := replaceComputed_ok hinhabited huncrossed self
  refine ⟨computed, ?_, hnested, fun row => (hcovered row).trans (hcovering row)⟩
  rw [recompute, bind_ok (ofExcept_ok_run levels self), hranges,
    bind_ok (ofExcept_ok_run _ self), bind_ok hrun]
  rfl

/-- The levels that a method which needs no host assigns. -/
def localLevels (self : Folds) (lines : List (List UInt8)) : Option (List Nat) :=
  match self.method with
  | .indent => (indentLevels lines self.shiftWidth).toOption
  | .marker => some (markerLevels lines self.markerStart self.markerEnd)
  | _ => none

/-- What every operation keeps: the settings can be used, and folds that count as current show the
levels of the text of their changedtick. -/
structure Current (text : UInt64 → List (List UInt8)) (folds : Folds) : Prop where
  shiftWidth : folds.shiftWidth ≠ 0
  markerStart : folds.markerStart ≠ []
  markerEnd : folds.markerEnd ≠ []
  fresh : folds.dirty = false → ∀ tick, folds.changedtick = some tick → ∀ levels,
    folds.localLevels (text tick) = some levels → Shows levels folds.computed

variable {text : UInt64 → List (List UInt8)} {self : Folds}

namespace Current

/-- The manual folds do not matter. -/
theorem manual (h : self.Current text) (manual : List Fold) :
    ({ self with manual } : Folds).Current text :=
  ⟨h.shiftWidth, h.markerStart, h.markerEnd, h.fresh⟩

/-- The display states do not matter. -/
theorem setActive (h : self.Current text) {folds : List Fold}
    (hplaces : folds.map Fold.place = self.active.map Fold.place) :
    (self.setActive folds).Current text := by
  unfold Folds.setActive
  unfold active at hplaces
  by_cases hmethod : self.method = .manual
  · rw [if_pos hmethod]
    exact h.manual folds
  · rw [if_neg hmethod]
    rw [if_neg hmethod] at hplaces
    exact ⟨h.shiftWidth, h.markerStart, h.markerEnd, fun hdirty tick htick levels hlevels =>
      (h.fresh hdirty tick htick levels hlevels).of_places hplaces⟩

/-- Stale folds are not looked at. -/
theorem stale (h : self.Current text) (changedtick requestedTick : Option UInt64)
    (method : FoldMethod) (computed : List Fold) :
    ({ self with method, computed, changedtick, requestedTick, dirty := true } : Folds).Current
      text :=
  ⟨h.shiftWidth, h.markerStart, h.markerEnd, fun hdirty => absurd hdirty (by simp)⟩

/-- The levels of a method that needs no host can be computed. -/
theorem levels_ok (h : self.Current text) (lines : List (List UInt8)) {levels : List Nat}
    (hlevels : self.localLevels lines = some levels) :
    (∀ level ∈ levels, level ≤ maxFoldDepth) ∧ levels.length = lines.length := by
  unfold localLevels at hlevels
  split at hlevels
  · obtain ⟨levels', hrun, hlength, -⟩ := indentLevels_spec h.shiftWidth lines
    rw [hrun] at hlevels
    obtain rfl : levels' = levels := Option.some.inj hlevels
    exact ⟨indentLevels_le h.shiftWidth hrun, hlength⟩
  · obtain rfl := Option.some.inj hlevels
    exact ⟨markerLevelsFrom_le _ _ _ lines, length_markerLevelsFrom _ _ _ lines⟩
  · cases hlevels

end Current

theorem preserves_requireManual {P : Folds → Prop} : Preserves P requireManual := by
  refine preserves_get_bind fun self hself => ?_
  split
  · exact preserves_pure ()
  · exact preserves_throw _

theorem preserves_normalizeManual : Preserves (Current text) normalizeManual := by
  intro self h
  unfold normalizeManual zoom
  cases normalizeFolds self.manual with
  | ok u manual => exact h.manual manual
  | error e manual => exact h.manual manual

/-- The display states of the folds do not matter to the property. -/
def IgnoresDisplay (P : Folds → Prop) : Prop :=
  ∀ {self : Folds} {folds : List Fold}, P self →
    folds.map Fold.place = self.active.map Fold.place → P (self.setActive folds)

theorem ignoresDisplay_current : IgnoresDisplay (Current text) := fun h hplaces =>
  h.setActive hplaces

theorem preserves_setActive {P : Folds → Prop} (hP : IgnoresDisplay P) (h : P self)
    {folds : List Fold} (hplaces : folds.map Fold.place = self.active.map Fold.place) :
    Preserves P (set (self.setActive folds) : EStateM FoldError Folds PUnit) :=
  preserves_set (hP h hplaces)

theorem restate_places (state : FoldState) (index : Nat) (folds : List Fold) :
    (restate state index folds).map Fold.place = folds.map Fold.place := by
  refine List.ext_getElem? fun i => ?_
  rw [List.getElem?_map, List.getElem?_map, restate, List.getElem?_modify]
  split <;> cases folds[i]? <;> rfl

/-! ## The operations -/

/-- An operation on the folds. A refresh is given the text of its changedtick. -/
inductive Call where
  | setMethod (method : FoldMethod)
  | setShiftWidth (shiftWidth : Nat)
  | setMarkers (start stop : List UInt8)
  | invalidate (changedtick : UInt64)
  | spliceRows (start oldRows newRows : Nat)
  | refresh (changedtick : UInt64)
  | applyHostResult (result : FoldComputeResult)
  | createManual (start stop : FoldPosition)
  | deleteManual (range : FoldRange)
  | deleteManualAt (position : FoldPosition) (recursive : Bool)
  | clearManual
  | openAt (position : FoldPosition)
  | closeAt (position : FoldPosition)
  | toggle (position : FoldPosition)
  | openRecursive (position : FoldPosition)
  | closeRecursive (position : FoldPosition)
  | setAll (state : FoldState)

/-- The folds after an operation, also after one that fails. -/
def Call.run (text : UInt64 → List (List UInt8)) (self : Folds) : Call → Folds
  | .setMethod method => self.setMethod method
  | .setShiftWidth shiftWidth => final (Folds.setShiftWidth shiftWidth self)
  | .setMarkers start stop => final (Folds.setMarkers start stop self)
  | .invalidate changedtick => self.invalidate changedtick
  | .spliceRows start oldRows newRows => final (Folds.spliceRows start oldRows newRows self)
  | .refresh changedtick => final (Folds.refresh changedtick (text changedtick) self)
  | .applyHostResult result => final (Folds.applyHostResult result self)
  | .createManual start stop => final (Folds.createManual start stop self)
  | .deleteManual range => final (Folds.deleteManual range self)
  | .deleteManualAt position recursive => final (Folds.deleteManualAt position recursive self)
  | .clearManual => final (Folds.clearManual self)
  | .openAt position => final (Folds.openAt position self)
  | .closeAt position => final (Folds.closeAt position self)
  | .toggle position => final (Folds.toggle position self)
  | .openRecursive position => final (Folds.openRecursive position self)
  | .closeRecursive position => final (Folds.closeRecursive position self)
  | .setAll state => final (Folds.setAll state self)

/-- The folds of a new buffer after operations. -/
def after (text : UInt64 → List (List UInt8)) (calls : List Call) : Folds :=
  calls.foldl (Call.run text) {}

theorem preserves_spliceRows (start oldRows newRows : Nat) :
    Preserves (Current text) (spliceRows start oldRows newRows) := by
  refine preserves_get_bind fun self hself => ?_
  split
  · exact preserves_pure ()
  · exact (preserves_modify fun self h => h.manual _).bind fun _ => preserves_normalizeManual

theorem preserves_createManual (start stop : FoldPosition) :
    Preserves (Current text) (createManual start stop) := by
  refine preserves_requireManual.bind fun _ => (preserves_ofExcept _).bind fun range => ?_
  refine preserves_get_bind fun self hself => (preserves_ofExcept _).bind fun range => ?_
  split
  · exact preserves_throw _
  · exact (preserves_set (hself.manual _)).bind fun _ =>
      preserves_normalizeManual.bind fun _ => preserves_pure range

theorem preserves_deleteManual (range : FoldRange) :
    Preserves (Current text) (deleteManual range) := by
  refine preserves_requireManual.bind fun _ => preserves_get_bind fun self hself => ?_
  split
  · exact (preserves_set (hself.manual _)).bind fun _ =>
      preserves_normalizeManual.bind fun _ => preserves_pure _
  · exact preserves_throw _

theorem preserves_deleteManualAt (position : FoldPosition) (recursive : Bool) :
    Preserves (Current text) (deleteManualAt position recursive) := by
  refine preserves_requireManual.bind fun _ => preserves_get_bind fun self hself => ?_
  split
  · exact preserves_throw _
  · exact (preserves_set (hself.manual _)).bind fun _ =>
      preserves_normalizeManual.bind fun _ => preserves_pure _

theorem preserves_clearManual : Preserves (Current text) clearManual :=
  preserves_requireManual.bind fun _ => preserves_get_bind fun _ hself =>
    (preserves_set (hself.manual [])).bind fun _ => preserves_pure _

variable {P : Folds → Prop}

theorem preserves_openAt (hP : IgnoresDisplay P) (position : FoldPosition) :
    Preserves P (openAt position) := by
  refine preserves_get_bind fun self hself => ?_
  split
  · exact (preserves_setActive hP hself (restate_places ..)).bind fun _ => preserves_pure true
  · split
    · exact preserves_pure false
    · exact preserves_throw _

theorem preserves_closeAt (hP : IgnoresDisplay P) (position : FoldPosition) :
    Preserves P (closeAt position) := by
  refine preserves_get_bind fun self hself => ?_
  split
  · exact (preserves_setActive hP hself (restate_places ..)).bind fun _ => preserves_pure true
  · split
    · exact preserves_pure false
    · exact preserves_throw _

theorem preserves_toggle (hP : IgnoresDisplay P) (position : FoldPosition) :
    Preserves P (toggle position) := by
  refine preserves_get_bind fun self hself => ?_
  split
  · exact (preserves_setActive hP hself (restate_places ..)).bind fun _ => preserves_pure true
  · exact (preserves_setActive hP hself (restate_places ..)).bind fun _ => preserves_pure true
  · exact preserves_throw _

theorem preserves_openRecursive (hP : IgnoresDisplay P) (position : FoldPosition) :
    Preserves P (openRecursive position) := by
  refine preserves_get_bind fun self hself => ?_
  dsimp only
  split
  · exact preserves_throw _
  · refine (preserves_setActive hP hself ?_).bind fun _ => preserves_pure _
    have hdrop : ∀ (p : Fold → Bool) (folds : List Fold),
        (folds.map fun fold =>
          if p fold then { fold with state := .opened } else fold).map Fold.place
          = folds.map Fold.place := by
      intro p folds
      rw [List.map_map]
      refine List.map_congr_left fun fold _ => ?_
      rw [Function.comp_apply]
      split <;> rfl
    rw [List.map_append, hdrop, ← List.map_append, List.take_append_drop]

theorem preserves_closeRecursive (hP : IgnoresDisplay P) (position : FoldPosition) :
    Preserves P (closeRecursive position) := by
  refine preserves_get_bind fun self hself => ?_
  split
  · exact preserves_throw _
  · split
    · exact preserves_pure 0
    · exact (preserves_setActive hP hself (restate_places ..)).bind fun _ => preserves_pure 1

theorem preserves_setAll (hP : IgnoresDisplay P) (state : FoldState) :
    Preserves P (setAll state) := by
  refine preserves_get_bind fun self hself => ?_
  refine (preserves_setActive hP hself ?_).bind fun _ => preserves_pure _
  rw [List.map_map]
  rfl

/-- The method is the manual one or one that the host computes. -/
def Foreign (self : Folds) : Prop := self.method ≠ .indent ∧ self.method ≠ .marker

theorem Foreign.localLevels (h : self.Foreign) (lines : List (List UInt8)) :
    self.localLevels lines = none := by
  unfold Folds.localLevels
  split
  · next hindent => exact absurd hindent h.1
  · next hmarker => exact absurd hmarker h.2
  · rfl

/-- The computed folds of another method are not looked at. -/
theorem Current.of_foreign (h : self.Current text) {folds : Folds} (hforeign : folds.Foreign)
    (hshift : folds.shiftWidth = self.shiftWidth) (hstart : folds.markerStart = self.markerStart)
    (hstop : folds.markerEnd = self.markerEnd) : folds.Current text := by
  refine ⟨hshift ▸ h.shiftWidth, hstart ▸ h.markerStart, hstop ▸ h.markerEnd, ?_⟩
  intro _ tick _ levels hlevels
  rw [hforeign.localLevels] at hlevels
  cases hlevels

theorem preserves_applyHostResult (result : FoldComputeResult) :
    Preserves (Current text) (applyHostResult result) := by
  intro self h
  unfold applyHostResult
  rw [bind_ok (get_run self)]
  split
  · exact h
  · next hkind =>
    split
    · exact h
    · have hforeign : self.Foreign := by
        constructor
        all_goals
          intro hmethod
          simp [hmethod, FoldMethod.hostKind] at hkind
      unfold replaceComputed
      rw [bind_run, bind_ok (get_run self)]
      dsimp only
      cases normalizeFolds (result.ranges.map fun range =>
          ({ range, depth := 1, state := .closed } : Fold)) with
      | error e folds => exact h
      | ok u folds => exact h.of_foreign hforeign rfl rfl rfl

theorem preserves_setShiftWidth (shiftWidth : Nat) :
    Preserves (Current text) (setShiftWidth shiftWidth) := by
  refine preserves_get_bind fun self h => ?_
  split
  · exact preserves_throw _
  · next hzero =>
    split
    · refine preserves_set ⟨hzero, h.markerStart, h.markerEnd, ?_⟩
      intro hdirty tick htick levels hlevels
      -- the folds were current before, and not of the indent method
      obtain ⟨hdirty, hmethod⟩ := Bool.or_eq_false_iff.mp hdirty
      refine h.fresh hdirty tick htick levels ?_
      unfold localLevels at hlevels ⊢
      dsimp only at hlevels
      split at hlevels
      · next hindent => exact absurd hindent (of_decide_eq_false hmethod)
      · exact hlevels
      · cases hlevels
    · exact preserves_pure ()

theorem preserves_setMarkers (start stop : List UInt8) :
    Preserves (Current text) (setMarkers start stop) := by
  refine preserves_get_bind fun self h => ?_
  split
  · exact preserves_throw _
  · next hempty =>
    split
    · refine preserves_set ⟨h.shiftWidth, fun hnil => hempty (.inl hnil),
        fun hnil => hempty (.inr hnil), ?_⟩
      intro hdirty tick htick levels hlevels
      -- the folds were current before, and not of the marker method
      obtain ⟨hdirty, hmethod⟩ := Bool.or_eq_false_iff.mp hdirty
      refine h.fresh hdirty tick htick levels ?_
      unfold localLevels at hlevels ⊢
      dsimp only at hlevels
      split at hlevels
      · exact hlevels
      · next hmarker => exact absurd hmarker (of_decide_eq_false hmethod)
      · cases hlevels
    · exact preserves_pure ()

/-- A refresh under a method that needs no host succeeds and leaves folds that show the levels. -/
theorem Current.refresh_ok (h : self.Current text) (tick : UInt64) {levels : List Nat}
    (hlevels : self.localLevels (text tick) = some levels) :
    ∃ r folds, refresh tick (text tick) self = .ok r folds ∧ folds.method = self.method ∧
      Shows levels folds.computed ∧ folds.Current text := by
  obtain ⟨hmax, -⟩ := h.levels_ok (text tick) hlevels
  -- the folds once the request is noted
  obtain ⟨asked, hasked⟩ : ∃ asked : Folds, asked = { self with requestedTick := some tick } :=
    ⟨_, rfl⟩
  have hcurrent : asked.Current text :=
    hasked ▸ ⟨h.shiftWidth, h.markerStart, h.markerEnd, h.fresh⟩
  have hlevels : asked.localLevels (text tick) = some levels := hasked ▸ hlevels
  have hmethod : asked.method = self.method := hasked ▸ rfl
  unfold refresh
  rw [bind_ok (modify_run _ self), bind_ok (get_run _), ← hasked, ← hmethod]
  split
  · next hcached =>
    -- the folds are kept
    obtain ⟨hdirty, htick⟩ := hcached
    have hdirty : asked.dirty = false := by simpa using hdirty
    exact ⟨_, asked, rfl, rfl, hcurrent.fresh hdirty tick htick levels hlevels, hcurrent⟩
  · -- they are computed
    obtain ⟨computed, hrun, hshows⟩ := recompute_ok hmax tick asked
    obtain ⟨kept, hkept⟩ : ∃ kept : Folds, kept =
        { asked with computed, changedtick := some tick, dirty := false } := ⟨_, rfl⟩
    rw [← hkept] at hrun
    have hnext : kept.Current text := by
      rw [hkept]
      refine ⟨hcurrent.shiftWidth, hcurrent.markerStart, hcurrent.markerEnd, ?_⟩
      intro _ tick' htick' levels' hlevels'
      obtain rfl : tick = tick' := Option.some.inj htick'
      obtain rfl : levels = levels' := Option.some.inj (hlevels.symm.trans hlevels')
      exact hshows
    refine ⟨.ready tick kept.active.length, kept, ?_, hkept ▸ rfl, hkept ▸ hshows, hnext⟩
    unfold localLevels at hlevels
    split at hlevels
    · next hindent =>
      obtain ⟨levels', hindentLevels, -, -⟩ := indentLevels_spec hcurrent.shiftWidth (text tick)
      rw [hindentLevels] at hlevels
      obtain rfl : levels' = levels := Option.some.inj hlevels
      simp only [hindent, hindentLevels]
      exact bind_ok hrun
    · next hmarker =>
      simp only [hmarker, Option.some.inj hlevels]
      exact bind_ok hrun
    · cases hlevels

theorem preserves_refresh (tick : UInt64) :
    Preserves (Current text) (refresh tick (text tick)) := by
  intro self h
  cases hlevels : self.localLevels (text tick) with
  | some levels =>
    obtain ⟨r, folds, hrun, -, -, hcurrent⟩ := h.refresh_ok tick hlevels
    rw [hrun]
    exact hcurrent
  | none =>
    have hforeign : self.Foreign := by
      constructor
      · intro hmethod
        obtain ⟨levels, hindentLevels, -, -⟩ := indentLevels_spec h.shiftWidth (text tick)
        simp [localLevels, hmethod, hindentLevels, Except.toOption] at hlevels
      · intro hmethod
        simp [localLevels, hmethod] at hlevels
    obtain ⟨asked, hasked⟩ : ∃ asked : Folds, asked = { self with requestedTick := some tick } :=
      ⟨_, rfl⟩
    have hforeign : asked.Foreign := hasked ▸ hforeign
    have hcurrent : asked.Current text :=
      hasked ▸ ⟨h.shiftWidth, h.markerStart, h.markerEnd, h.fresh⟩
    unfold refresh
    rw [bind_ok (modify_run _ self), bind_ok (get_run _), ← hasked]
    split
    · exact hcurrent
    · cases hmethod : asked.method with
      | manual => exact hcurrent.of_foreign hforeign rfl rfl rfl
      | indent => exact absurd hmethod hforeign.1
      | marker => exact absurd hmethod hforeign.2
      | expr => exact hcurrent
      | syn => exact hcurrent
      | diff => exact hcurrent

/-- Every operation keeps what counts as current. -/
theorem Call.run_current (h : self.Current text) (call : Call) :
    (call.run text self).Current text := by
  cases call with
  | setMethod method =>
    show (self.setMethod method).Current text
    unfold Folds.setMethod
    split
    · exact h
    · exact h.stale none none method []
  | setShiftWidth shiftWidth => exact preserves_setShiftWidth shiftWidth self h
  | setMarkers start stop => exact preserves_setMarkers start stop self h
  | invalidate tick => exact h.stale self.changedtick (some tick) self.method self.computed
  | spliceRows start oldRows newRows => exact preserves_spliceRows start oldRows newRows self h
  | refresh tick => exact preserves_refresh tick self h
  | applyHostResult result => exact preserves_applyHostResult result self h
  | createManual start stop => exact preserves_createManual start stop self h
  | deleteManual range => exact preserves_deleteManual range self h
  | deleteManualAt position recursive => exact preserves_deleteManualAt position recursive self h
  | clearManual => exact preserves_clearManual self h
  | openAt position => exact preserves_openAt ignoresDisplay_current position self h
  | closeAt position => exact preserves_closeAt ignoresDisplay_current position self h
  | toggle position => exact preserves_toggle ignoresDisplay_current position self h
  | openRecursive position => exact preserves_openRecursive ignoresDisplay_current position self h
  | closeRecursive position => exact preserves_closeRecursive ignoresDisplay_current position self h
  | setAll state => exact preserves_setAll ignoresDisplay_current state self h

/-- The folds of a new buffer are stale, and its settings can be used. -/
theorem current_new : Current text {} :=
  ⟨by decide, by decide +kernel, by decide +kernel, fun hdirty => absurd hdirty (by decide)⟩

theorem after_current (text : UInt64 → List (List UInt8)) (calls : List Call) :
    (after text calls).Current text := by
  suffices ∀ self : Folds, self.Current text → (calls.foldl (Call.run text) self).Current text from
    this {} current_new
  induction calls with
  | nil => exact fun _ h => h
  | cons call calls ih => exact fun self h => ih _ (call.run_current h)

/-- The active folds reproduce the levels of the lines: they are properly nested, and each row has
the level assigned to it, at most the maximum. -/
structure Reproduces (lines : List (List UInt8)) (levels : List Nat) (folds : Folds) : Prop where
  nested : ProperlyNested folds.active
  rows : levels.length = lines.length
  level : ∀ row level, levels[row]? = some level →
    folds.levelAtRow row = level ∧ level ≤ maxFoldDepth

theorem Current.reproduces (h : self.Current text) (tick : UInt64) {levels : List Nat}
    (hlevels : self.localLevels (text tick) = some levels) :
    ∃ r folds, refresh tick (text tick) self = .ok r folds ∧
      Reproduces (text tick) levels folds := by
  obtain ⟨r, folds, hrun, hmethod, hshows, -⟩ := h.refresh_ok tick hlevels
  obtain ⟨hmax, hlength⟩ := h.levels_ok (text tick) hlevels
  have hmanual : folds.method ≠ .manual := by
    intro hmanual
    simp [localLevels, ← hmethod, hmanual] at hlevels
  have hactive : folds.active = folds.computed := if_neg hmanual
  refine ⟨r, folds, hrun, hactive ▸ hshows.nested, hlength, fun row level hrow => ?_⟩
  have hlevel : folds.levelAtRow row = levels.getD row 0 := by
    rw [levelAtRow, hactive]
    exact hshows.covered row
  rw [hlevel, List.getD_eq_getElem?_getD, hrow]
  exact ⟨rfl, hmax level (List.mem_of_getElem? hrow)⟩

/-- **Computed folds reproduce the level array.** After any operations on the folds of a new buffer
a refresh under the indent or the marker method succeeds with properly nested folds, of which as
many cover a row as the level that the method assigns to it. A blank line has the lower of the
nearest levels above and below. -/
theorem refresh_reproduces (text : UInt64 → List (List UInt8)) (calls : List Call) (tick : UInt64) :
    ((after text calls).method = .indent →
      ∃ levels r folds, indentLevels (text tick) (after text calls).shiftWidth = .ok levels ∧
        refresh tick (text tick) (after text calls) = .ok r folds ∧
        Reproduces (text tick) levels folds ∧
        ∀ (row : Nat) line, (text tick)[row]? = some line →
          rawIndent (after text calls).shiftWidth line = none →
          levels[row]? = some (min (levelAbove (after text calls).shiftWidth (text tick) row)
            (levelBelow (after text calls).shiftWidth (text tick) row))) ∧
    ((after text calls).method = .marker →
      ∃ r folds, refresh tick (text tick) (after text calls) = .ok r folds ∧
        Reproduces (text tick) (markerLevels (text tick) (after text calls).markerStart
          (after text calls).markerEnd) folds) := by
  have h := after_current text calls
  constructor
  · intro hmethod
    obtain ⟨levels, hlevels, -, hrows⟩ := indentLevels_spec h.shiftWidth (text tick)
    have hlocal : (after text calls).localLevels (text tick) = some levels := by
      rw [localLevels, hmethod]
      exact congrArg Except.toOption hlevels
    obtain ⟨r, folds, hrun, hreproduces⟩ := h.reproduces tick hlocal
    refine ⟨levels, r, folds, hlevels, hrun, hreproduces, ?_⟩
    intro row line hline hblank
    rw [hrows row, hline, Option.map_some, hblank, Option.getD_none]
  · intro hmethod
    refine h.reproduces tick ?_
    rw [localLevels, hmethod]

/-- A blank line between two indented ones is in their fold. -/
theorem refresh_reproduces_blank :
    ∃ r folds, refresh 7 [[0x61], [0x09, 0x61], [], [0x09, 0x61]]
        (after (fun _ => [[0x61], [0x09, 0x61], [], [0x09, 0x61]]) [.setMethod .indent])
        = .ok r folds ∧ folds.levelAtRow 0 = 0 ∧ folds.levelAtRow 2 = 1 := by
  obtain ⟨levels, r, folds, hlevels, hrun, hreproduces, -⟩ := (refresh_reproduces
    (fun _ => [[0x61], [0x09, 0x61], [], [0x09, 0x61]]) [.setMethod .indent] 7).1 rfl
  have hvalue : levels = [0, 1, 1, 1] := Except.ok.inj (hlevels.symm.trans (by decide +kernel))
  exact ⟨r, folds, hrun, (hreproduces.level 0 0 (by rw [hvalue]; rfl)).1,
    (hreproduces.level 2 1 (by rw [hvalue]; rfl)).1⟩

end Folds

end Oxvim.Editor
