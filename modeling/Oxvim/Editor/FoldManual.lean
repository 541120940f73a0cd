import Oxvim.Editor.FoldRuns
import Oxvim.Lib.Transition

/-!
# Manual folds stay nested

Creating a fold widens its range over every fold that it crosses. A pass over the folds that widens
the range takes in a fold that was not inside it before, so there are no more such passes than folds,
and the last pass finds nothing to cross (`expandRange_ok`). Deleting folds and changing what is
displayed keep the nesting. A splice of rows keeps it exactly where the moved folds do not cross; it
moves rows and leaves columns alone, so folds that end up on one row can cross.
-/

namespace Oxvim.Editor

open Lib EState

namespace Folds

/-! ## Widening a range -/

variable {folds : List Fold} {range range' : FoldRange} {expanded expanded' : Bool}

theorem union_contains_left (a b : FoldRange) : (FoldRange.union a b).Contains a :=
  ⟨min_le_left .., le_max_left ..⟩

theorem union_contains_right (a b : FoldRange) : (FoldRange.union a b).Contains b :=
  ⟨min_le_right .., le_max_right ..⟩

/-- A pass over the folds only widens the range. -/
theorem expandOver_contains (h : expandOver folds range expanded = .ok (range', expanded')) :
    range'.Contains range := by
  induction folds generalizing range expanded with
  | nil =>
    cases h
    exact ⟨le_rfl, le_rfl⟩
  | cons fold folds ih =>
    rw [expandOver] at h
    split at h
    · cases h
    split at h
    · exact (ih h).trans (union_contains_left range fold.range)
    · exact ih h

/-- What has been widened stays noted. -/
theorem expandOver_noted (h : expandOver folds range true = .ok (range', expanded')) :
    expanded' = true := by
  induction folds generalizing range with
  | nil =>
    cases h
    rfl
  | cons fold folds ih =>
    rw [expandOver] at h
    split at h
    · cases h
    split at h
    · exact ih h
    · exact ih h

/-- A pass that widens nothing finds no fold that the range crosses. -/
theorem expandOver_unchanged (h : expandOver folds range expanded = .ok (range', false)) :
    range' = range ∧ ∀ fold ∈ folds, ¬fold.range.Crosses range := by
  induction folds generalizing range expanded with
  | nil =>
    cases h
    exact ⟨rfl, by simp⟩
  | cons fold folds ih =>
    rw [expandOver] at h
    split at h
    · cases h
    split at h
    · cases expandOver_noted h
    · next hcross =>
      obtain ⟨hsame, hrest⟩ := ih h
      refine ⟨hsame, fun f hf => ?_⟩
      rcases List.mem_cons.mp hf with rfl | hf
      · exact hcross
      · exact hrest f hf

/-- A pass that widens the range takes in a fold that was not inside it. -/
theorem expandOver_widened (h : expandOver folds range false = .ok (range', true)) :
    ∃ fold ∈ folds, ¬range.Contains fold.range ∧ range'.Contains fold.range := by
  induction folds with
  | nil => cases h
  | cons fold folds ih =>
    rw [expandOver] at h
    split at h
    · cases h
    split at h
    · next hcross =>
      exact ⟨fold, by simp, hcross.2.2,
        (expandOver_contains h).trans (union_contains_right range fold.range)⟩
    · obtain ⟨f, hf, houtside, hinside⟩ := ih h
      exact ⟨f, by simp [hf], houtside, hinside⟩

/-- How many folds do not lie inside the range. -/
def outside (folds : List Fold) (range : FoldRange) : Nat :=
  folds.countP fun fold => ¬range.Contains fold.range

theorem outside_lt (hcontains : range'.Contains range)
    (hnew : ∃ fold ∈ folds, ¬range.Contains fold.range ∧ range'.Contains fold.range) :
    outside folds range' < outside folds range := by
  have hmono : ∀ folds : List Fold, outside folds range' ≤ outside folds range := by
    intro folds
    refine List.countP_mono_left fun fold _ hout => ?_
    simp only [decide_eq_true_eq] at hout ⊢
    exact fun hin => hout (hcontains.trans hin)
  obtain ⟨fold, hf, houtside, hinside⟩ := hnew
  obtain ⟨before, after, rfl⟩ := List.append_of_mem hf
  have hbefore := hmono before
  have hafter := hmono after
  simp only [outside, decide_not] at hbefore hafter
  simp only [outside, List.countP_append, List.countP_cons, decide_not, houtside, hinside]
  simp only [decide_true, decide_false, Bool.not_true, Bool.not_false, if_true, Bool.false_eq_true,
    if_false]
  omega

/-- The passes end with a range that crosses no fold. -/
theorem expandRange_ok {fuel : Nat} (hfuel : outside folds range < fuel)
    (h : expandRange folds fuel range = .ok range') :
    range'.Contains range ∧ ∀ fold ∈ folds, ¬fold.range.Crosses range' := by
  induction fuel generalizing range with
  | zero => omega
  | succ fuel ih =>
    rw [expandRange] at h
    obtain ⟨⟨next, widened⟩, hpass, hnext⟩ := of_except_bind h
    have hcontains := expandOver_contains hpass
    cases widened with
    | true =>
      have hless := outside_lt hcontains (expandOver_widened hpass)
      obtain ⟨hrest, hfree⟩ := ih (by omega) hnext
      exact ⟨hrest.trans hcontains, hfree⟩
    | false =>
      obtain ⟨hsame, hfree⟩ := expandOver_unchanged hpass
      have hvalue : range' = range := (Except.ok.inj hnext).symm.trans hsame
      subst hvalue
      exact ⟨⟨le_rfl, le_rfl⟩, hfree⟩

theorem normalized_inhabited {start stop : FoldPosition}
    (h : FoldRange.normalized start stop = .ok range) : range.Inhabited := by
  have hchecked : ∀ r : FoldRange, r.start ≤ r.stop →
      (if r.start = r.stop then .error .emptyRange else .ok r) = Except.ok (ε := FoldError) range →
        range.Inhabited := by
    intro r hle hr
    by_cases heq : r.start = r.stop
    · rw [if_pos heq] at hr
      cases hr
    · rw [if_neg heq] at hr
      exact Except.ok.inj hr ▸ lt_of_le_of_ne hle heq
  refine hchecked _ ?_ h
  split
  · next hle => exact hle
  · next hle => exact (not_le.mp hle).le

/-! ## Nested folds -/

/-- No two folds cross or have one range. -/
def Untangled (folds : List Fold) : Prop :=
  Uncrossed folds ∧ (folds.map (·.range)).Nodup

instance (folds : List Fold) : Decidable (Untangled folds) := inferInstanceAs (Decidable (_ ∧ _))

theorem Untangled.sublist (h : Untangled folds) {folds' : List Fold} (hsub : folds'.Sublist folds) :
    Untangled folds' :=
  ⟨h.1.sublist hsub, h.2.sublist (hsub.map _)⟩

/-- The manual folds are inhabited, properly nested and of distinct ranges. -/
structure Nested (folds : Folds) : Prop where
  inhabited : ∀ fold ∈ folds.manual, fold.range.Inhabited
  nested : ProperlyNested folds.manual
  distinct : (folds.manual.map (·.range)).Nodup

variable {self : Folds}

theorem nested_new : Nested {} :=
  ⟨by simp, ⟨by simp, by simp [Uncrossed], by simp⟩, by simp⟩

theorem Nested.untangled (h : self.Nested) : Untangled self.manual := ⟨h.nested.uncrossed, h.distinct⟩

/-- The depth of a fold is the number of folds that contain it, itself among them. -/
theorem Nested.depth (h : self.Nested) {fold : Fold} (hfold : fold ∈ self.manual) :
    fold.depth = self.manual.countP fun outer => outer.range.Contains fold.range := by
  obtain ⟨before, after, hsplit⟩ := List.append_of_mem hfold
  have hsorted := h.nested.outerFirst
  have hdistinct := h.distinct
  rw [hsplit] at hsorted hdistinct
  rw [h.nested.depths before fold after hsplit, hsplit, List.countP_append, List.countP_cons]
  -- what comes later could contain the fold only by being equal to it
  have hlater : after.countP (fun outer => outer.range.Contains fold.range) = 0 := by
    rw [List.countP_eq_zero]
    intro f hf
    rw [decide_eq_true_eq]
    have hfirst := (List.pairwise_cons.mp (List.pairwise_append.mp hsorted).2.1).1 f hf
    rw [List.map_append, List.map_cons, List.nodup_append] at hdistinct
    have hne := (List.nodup_cons.mp hdistinct.2.1).1
    intro hcontains
    refine hne (List.mem_map.mpr ⟨f, hf, ?_⟩)
    exact hfirst.eq_of_contains hcontains
  have hself : fold.range.Contains fold.range := ⟨le_rfl, le_rfl⟩
  rw [hlater, decide_eq_true hself, if_pos rfl]

/-- Normalizing inhabited manual folds that are not tangled nests them. -/
theorem normalizeManual_nested (hinhabited : ∀ fold ∈ self.manual, fold.range.Inhabited)
    (huntangled : Untangled self.manual) :
    ∃ manual, normalizeManual self = .ok () { self with manual } ∧
      Nested { self with manual } := by
  obtain ⟨manual, hrun, hnested, hperm⟩ := normalizeFolds_nested hinhabited huntangled.1
  refine ⟨manual, zoom_ok hrun, ?_, hnested, hperm.nodup_iff.mpr huntangled.2⟩
  intro fold hf
  have hmem : fold.range ∈ self.manual.map (·.range) :=
    hperm.mem_iff.mp (List.mem_map_of_mem hf)
  obtain ⟨f, hf, hrange⟩ := List.mem_map.mp hmem
  exact hrange ▸ hinhabited f hf

/-- Nesting is about the manual folds only, and not about their display states. -/
theorem Nested.of_places (h : self.Nested) {folds : Folds}
    (hplaces : folds.manual.map Fold.place = self.manual.map Fold.place) : folds.Nested := by
  have hranges : ∀ folds : List Fold, folds.map (·.range) = (folds.map Fold.place).map (·.1) := by
    intro folds
    rw [List.map_map]
    rfl
  refine ⟨fun fold hf => ?_, h.nested.of_places hplaces, ?_⟩
  · have hmem : fold.place ∈ self.manual.map Fold.place := hplaces ▸ List.mem_map_of_mem hf
    obtain ⟨f, hf, hplace⟩ := List.mem_map.mp hmem
    have hrange : f.range = fold.range := congrArg Prod.fst hplace
    exact hrange ▸ h.inhabited f hf
  · rw [hranges, hplaces, ← hranges]
    exact h.distinct

theorem ignoresDisplay_nested : IgnoresDisplay Nested := by
  intro self folds h hplaces
  refine h.of_places ?_
  unfold Folds.setActive
  unfold active at hplaces
  by_cases hmethod : self.method = .manual
  · rw [if_pos hmethod]
    rw [if_pos hmethod] at hplaces
    exact hplaces
  · rw [if_neg hmethod]

/-! ## Operations on the manual folds -/

theorem requireManual_run (hmethod : self.method = .manual) : requireManual self = .ok () self := by
  unfold requireManual
  rw [bind_ok (get_run self), if_pos hmethod]
  rfl

theorem requireManual_refused (hmethod : self.method ≠ .manual) :
    requireManual self = .error .notManual self := by
  unfold requireManual
  rw [bind_ok (get_run self), if_neg hmethod]
  rfl

/-- Normalizing some of the folds keeps them nested. -/
theorem Nested.remove {α : Type} (h : self.Nested) {manual : List Fold}
    (hsub : manual.Sublist self.manual) (answer : α) :
    Preserves Nested (do set ({ self with manual } : Folds); normalizeManual; return answer :
      EStateM FoldError Folds α) := by
  intro folds _
  obtain ⟨manual', hrun, hnested⟩ := @normalizeManual_nested { self with manual }
    (fun fold hf => h.inhabited fold (hsub.subset hf)) (h.untangled.sublist hsub)
  rw [bind_ok (set_run _ folds), bind_ok hrun]
  exact hnested

/-- What an operation on nested folds ends in: folds that are nested, and no crossing found. -/
structure Tidy {α : Type} (r : EStateM.Result FoldError Folds α) : Prop where
  nested : (final r).Nested
  uncrossed : ∀ folds, r ≠ .error .crossingRanges folds

theorem Tidy.ok {α : Type} {a : α} {folds : Folds} (h : folds.Nested) :
    Tidy (.ok a folds : EStateM.Result FoldError Folds α) :=
  ⟨h, fun _ heq => by cases heq⟩

theorem Tidy.error {α : Type} {e : FoldError} {folds : Folds} (h : folds.Nested)
    (he : e ≠ .crossingRanges) : Tidy (.error e folds : EStateM.Result FoldError Folds α) :=
  ⟨h, fun _ heq => by cases heq; exact he rfl⟩

/-- A pass fails only on a fold with the range itself. -/
theorem expandOver_error {e : FoldError} (h : expandOver folds range expanded = .error e) :
    e = .duplicateRange := by
  induction folds generalizing range expanded with
  | nil => cases h
  | cons fold folds ih =>
    rw [expandOver] at h
    split at h
    · cases h
      rfl
    split at h
    · exact ih h
    · exact ih h

theorem expandRange_error {fuel : Nat} {e : FoldError}
    (h : expandRange folds fuel range = .error e) : e = .duplicateRange := by
  induction fuel generalizing range with
  | zero => cases h
  | succ fuel ih =>
    rw [expandRange] at h
    cases hpass : expandOver folds range false with
    | error e' =>
      rw [hpass] at h
      cases h
      exact expandOver_error hpass
    | ok pass =>
      obtain ⟨next, widened⟩ := pass
      rw [hpass] at h
      cases widened with
      | true => exact ih h
      | false => cases h

/-- **Creating a fold keeps the folds nested and finds no crossing.** -/
theorem Nested.createManual (h : self.Nested) (start stop : FoldPosition) :
    Tidy (createManual start stop self) := by
  unfold Folds.createManual
  by_cases hmethod : self.method = .manual
  swap
  · rw [bind_error (requireManual_refused hmethod)]
    exact .error h (by decide)
  rw [bind_ok (requireManual_run hmethod)]
  cases hrange : FoldRange.normalized start stop with
  | error e =>
    rw [bind_error (ofExcept_error_run e self)]
    refine .error h ?_
    rintro rfl
    unfold FoldRange.normalized at hrange
    dsimp only at hrange
    split at hrange
    · split at hrange
      all_goals cases hrange
    · split at hrange
      all_goals cases hrange
  | ok asked =>
    rw [bind_ok (ofExcept_ok_run asked self), bind_ok (get_run self)]
    cases hexpand : expandRange self.manual (self.manual.length + 1) asked with
    | error e =>
      rw [bind_error (ofExcept_error_run e self)]
      exact .error h (by rw [expandRange_error hexpand]; decide)
    | ok range =>
      rw [bind_ok (ofExcept_ok_run range self)]
      obtain ⟨hcontains, hfree⟩ := expandRange_ok
        (Nat.lt_succ_of_le (List.countP_le_length ..)) hexpand
      have hasked := normalized_inhabited hrange
      split
      · exact .error h (by decide)
      · next hnew =>
        simp only [List.any_eq_true, decide_eq_true_eq, not_exists, not_and] at hnew
        let fold : Fold := { range, depth := 1, state := .closed }
        obtain ⟨manual, hrun, hnested⟩ := @normalizeManual_nested
          { self with manual := self.manual ++ [fold] } (by
            intro f hf
            rcases List.mem_append.mp hf with hf | hf
            · exact h.inhabited f hf
            · obtain rfl := List.mem_singleton.mp hf
              exact hcontains.1.trans_lt (hasked.trans_le hcontains.2))
          (by
            constructor
            · refine List.pairwise_append.mpr ⟨h.nested.uncrossed, List.pairwise_singleton .., ?_⟩
              intro f hf g hg
              obtain rfl := List.mem_singleton.mp hg
              exact hfree f hf
            · rw [List.map_append, List.nodup_append]
              refine ⟨h.distinct, by simp, ?_⟩
              intro r hr r' hr'
              obtain ⟨f, hf, rfl⟩ := List.mem_map.mp hr
              obtain rfl : r' = range := List.mem_singleton.mp hr'
              exact hnew f hf)
        rw [bind_ok (set_run _ self), bind_ok hrun]
        exact .ok hnested

/-- **A splice of rows keeps the folds nested, and finds no crossing, where it does not tangle
them.** -/
theorem Nested.spliceRows (h : self.Nested) {start oldRows newRows : Nat}
    (huntangled : self.method = .manual → Untangled (self.splicedManual start oldRows newRows)) :
    Tidy (spliceRows start oldRows newRows self) := by
  unfold Folds.spliceRows
  rw [bind_ok (get_run self)]
  by_cases hmethod : self.method = .manual
  · rw [if_neg (not_not.mpr hmethod), bind_ok (modify_run _ self)]
    obtain ⟨manual, hrun, hnested⟩ := @normalizeManual_nested
      { self with manual := self.splicedManual start oldRows newRows }
      (fun fold hf => of_decide_eq_true (List.mem_filter.mp hf).2) (huntangled hmethod)
    rw [hrun]
    exact .ok hnested
  · rw [if_pos hmethod]
    exact .ok h

theorem nested_deleteManual (range : FoldRange) : Preserves Nested (deleteManual range) := by
  refine preserves_requireManual.bind fun _ => preserves_get_bind fun self h => ?_
  split
  · exact h.remove (List.eraseIdx_sublist ..) _
  · exact preserves_throw _

theorem nested_deleteManualAt (position : FoldPosition) (recursive : Bool) :
    Preserves Nested (deleteManualAt position recursive) := by
  refine preserves_requireManual.bind fun _ => preserves_get_bind fun self h => ?_
  split
  · exact preserves_throw _
  · exact h.remove List.filter_sublist _

theorem nested_clearManual : Preserves Nested clearManual := by
  refine preserves_requireManual.bind fun _ => preserves_get_bind fun self h => ?_
  refine (preserves_set ?_).bind fun _ => preserves_pure _
  exact ⟨by simp, ⟨by simp, by simp [Uncrossed], by simp⟩, by simp⟩

/-! ## Operations that leave the manual folds alone -/

/-- The program changes no manual fold. -/
def KeepsManual {α : Type} (x : EStateM FoldError Folds α) : Prop :=
  ∀ manual, Preserves (fun self => self.manual = manual) x

theorem KeepsManual.nested {α : Type} {x : EStateM FoldError Folds α} (h : KeepsManual x) :
    Preserves Nested x :=
  fun self hself => hself.of_places (by rw [h self.manual self rfl])

theorem keepsManual_setShiftWidth (shiftWidth : Nat) : KeepsManual (setShiftWidth shiftWidth) := by
  refine fun manual => preserves_get_bind fun self h => ?_
  split
  · exact preserves_throw _
  · split
    · exact preserves_set h
    · exact preserves_pure ()

theorem keepsManual_setMarkers (start stop : List UInt8) : KeepsManual (setMarkers start stop) := by
  refine fun manual => preserves_get_bind fun self h => ?_
  split
  · exact preserves_throw _
  · split
    · exact preserves_set h
    · exact preserves_pure ()

theorem keepsManual_markFresh (tick : UInt64) : KeepsManual (markFresh tick) :=
  fun _ => preserves_modify fun _ h => h

theorem keepsManual_ready (tick : UInt64) : KeepsManual (ready tick) :=
  fun _ => preserves_get_bind fun _ _ => preserves_pure _

theorem keepsManual_replaceComputed (ranges : List FoldRange) :
    KeepsManual (replaceComputed ranges) := by
  refine fun manual => preserves_get_bind fun self h => ?_
  dsimp only
  split
  · exact preserves_throw _
  · exact preserves_set h

theorem keepsManual_recompute (tick : UInt64) (levels : Except FoldError (List Nat)) :
    KeepsManual (recompute tick levels) := fun manual =>
  (preserves_ofExcept levels).bind fun levels =>
    (preserves_ofExcept (rangesFromLevels levels)).bind fun ranges =>
      (keepsManual_replaceComputed ranges manual).bind fun _ => keepsManual_markFresh tick manual

theorem keepsManual_refresh (tick : UInt64) (lines : List (List UInt8)) :
    KeepsManual (refresh tick lines) := by
  intro manual
  refine (preserves_modify fun _ h => ?_).bind fun _ => preserves_get_bind fun self _ => ?_
  · exact h
  have hready := keepsManual_ready tick manual
  split
  · exact hready
  · split
    · exact (keepsManual_markFresh tick manual).bind fun _ => hready
    · exact (keepsManual_recompute tick _ manual).bind fun _ => hready
    · exact (keepsManual_recompute tick _ manual).bind fun _ => hready
    -- the host's methods
    all_goals
      split
      · exact preserves_throw _
      · exact preserves_pure _

theorem keepsManual_applyHostResult (result : FoldComputeResult) :
    KeepsManual (applyHostResult result) := by
  refine fun manual => preserves_get_bind fun self _ => ?_
  split
  · exact preserves_throw _
  · split
    · exact preserves_throw _
    · exact (keepsManual_replaceComputed result.ranges manual).bind fun _ =>
        keepsManual_markFresh _ manual

/-! ## Runs -/

/-- Where a call splices rows, it does not tangle the manual folds. -/
def Untangling (self : Folds) (call : Call) : Prop :=
  ∀ start oldRows newRows, call = .spliceRows start oldRows newRows → self.method = .manual →
    Untangled (self.splicedManual start oldRows newRows)

theorem Nested.run (text : UInt64 → List (List UInt8)) (h : self.Nested) {call : Call}
    (huntangling : self.Untangling call) : (call.run text self).Nested := by
  cases call with
  | setMethod method =>
    refine h.of_places ?_
    show ((self.setMethod method).manual).map Fold.place = _
    unfold Folds.setMethod
    split
    · rfl
    · rfl
  | setShiftWidth shiftWidth => exact (keepsManual_setShiftWidth shiftWidth).nested self h
  | setMarkers start stop => exact (keepsManual_setMarkers start stop).nested self h
  | invalidate tick => exact h.of_places rfl
  | spliceRows start oldRows newRows =>
    exact (h.spliceRows (huntangling start oldRows newRows rfl)).nested
  | refresh tick => exact (keepsManual_refresh tick _).nested self h
  | applyHostResult result => exact (keepsManual_applyHostResult result).nested self h
  | createManual start stop => exact (h.createManual start stop).nested
  | deleteManual range => exact nested_deleteManual range self h
  | deleteManualAt position recursive => exact nested_deleteManualAt position recursive self h
  | clearManual => exact nested_clearManual self h
  | openAt position => exact preserves_openAt ignoresDisplay_nested position self h
  | closeAt position => exact preserves_closeAt ignoresDisplay_nested position self h
  | toggle position => exact preserves_toggle ignoresDisplay_nested position self h
  | openRecursive position => exact preserves_openRecursive ignoresDisplay_nested position self h
  | closeRecursive position =>
    exact preserves_closeRecursive ignoresDisplay_nested position self h
  | setAll state => exact preserves_setAll ignoresDisplay_nested state self h

/-- A call on the folds that tangles no manual folds. -/
def UntangledStep (text : UInt64 → List (List UInt8)) (self folds : Folds) : Prop :=
  ∃ call, self.Untangling call ∧ folds = Call.run text self call

theorem reachable_nested {text : UInt64 → List (List UInt8)}
    (h : Reachable (· = {}) (UntangledStep text) self) : self.Nested := by
  refine h.invariant ?_ ?_
  · rintro _ rfl
    exact nested_new
  · rintro s _ hs ⟨call, huntangling, rfl⟩
    exact hs.run text huntangling

/-- What is to hold of the manual folds: they are inhabited and disjoint or nested, outer ones come
first, each depth counts the folds around, and no fold is refused because it crosses another. -/
structure ManualNesting (folds : Folds) : Prop where
  inhabited : ∀ fold ∈ folds.manual, fold.range.Inhabited
  uncrossed : Uncrossed folds.manual
  outerFirst : folds.manual.Pairwise fun a b => a.range.OuterFirst b.range
  depth : ∀ fold ∈ folds.manual,
    fold.depth = folds.manual.countP fun outer => outer.range.Contains fold.range
  created : ∀ start stop t, createManual start stop folds ≠ .error .crossingRanges t

/-- Two nested manual folds, from (2, 5) to (10, 0) and from (3, 1) to (8, 0). -/
def nestedCalls : List Call := [.createManual ⟨3, 1⟩ ⟨8, 0⟩, .createManual ⟨2, 5⟩ ⟨10, 0⟩]

end Folds

end Oxvim.Editor
