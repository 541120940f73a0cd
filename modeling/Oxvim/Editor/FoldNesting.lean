import Oxvim.Editor.Fold

/-!
# When manual folds can be normalized

`normalizeFolds` runs over the sorted folds with a stack of the ranges that are still open. The stack
is a chain under containment, and a range taken off it ends before everything that is still to come;
so the run fails exactly when two of the folds cross (`normalizeFolds_ok_iff`).

A row splice keeps the columns of the endpoints, and so it can make nested folds cross
(`Folds.Cross`); it fails exactly then.
-/

namespace Oxvim.Editor

open Lib EState

/-- No two folds cross. -/
def Uncrossed (folds : List Fold) : Prop :=
  folds.Pairwise fun a b => ¬a.range.Crosses b.range

instance (folds : List Fold) : Decidable (Uncrossed folds) :=
  inferInstanceAs (Decidable (folds.Pairwise _))

theorem uncrossed_cons {fold : Fold} {folds : List Fold} : Uncrossed (fold :: folds) ↔
    (∀ f ∈ folds, ¬fold.range.Crosses f.range) ∧ Uncrossed folds :=
  List.pairwise_cons

/-- The ranges of a stack, innermost first: each contains those above it, and all come before what
is still to be read. -/
structure Stacked (stack : List FoldRange) (folds : List Fold) : Prop where
  chain : stack.Pairwise fun inner outer => outer.Contains inner
  before : ∀ range ∈ stack, ∀ fold ∈ folds, range.OuterFirst fold.range

/-- What comes off the stack ends before the range begins, and what stays contains it. -/
theorem popStack_ok {range : FoldRange} (hrange : range.Inhabited) {stack : List FoldRange}
    (hchain : stack.Pairwise fun inner outer => outer.Contains inner)
    (hbefore : ∀ candidate ∈ stack, candidate.OuterFirst range)
    (hfree : ∀ candidate ∈ stack, ¬candidate.Crosses range) :
    ∃ gone kept, stack = gone ++ kept ∧ popStack range stack = .ok kept ∧
      (∀ candidate ∈ gone, candidate.stop ≤ range.start) ∧
      ∀ candidate ∈ kept, candidate.Contains range := by
  induction stack with
  | nil => exact ⟨[], [], rfl, rfl, by simp, by simp⟩
  | cons candidate stack ih =>
    obtain ⟨houter, hchain⟩ := List.pairwise_cons.mp hchain
    have hfirst := hbefore candidate (by simp)
    by_cases hcontains : candidate.Contains range
    · refine ⟨[], candidate :: stack, rfl, by rw [popStack, if_pos hcontains], by simp, ?_⟩
      intro c hc
      rcases List.mem_cons.mp hc with rfl | hc
      · exact hcontains
      · exact (houter c hc).trans hcontains
    · have hdisjoint : ¬candidate.Overlaps range := fun hoverlaps =>
        hfree candidate (by simp) (hfirst.crosses_iff.mpr ⟨hoverlaps, hcontains⟩)
      obtain ⟨gone, kept, rfl, hrun, hgone, hkept⟩ := ih hchain
        (fun c hc => hbefore c (by simp [hc])) fun c hc => hfree c (by simp [hc])
      refine ⟨candidate :: gone, kept, rfl, ?_, ?_, hkept⟩
      · rw [popStack, if_neg hcontains, if_neg hdisjoint, hrun]
      · intro c hc
        rcases List.mem_cons.mp hc with rfl | hc
        · exact hfirst.stop_le hrange hdisjoint
        · exact hgone c hc

/-- A range that crosses one on the stack is refused. -/
theorem popStack_error {range : FoldRange} {stack : List FoldRange}
    (hchain : stack.Pairwise fun inner outer => outer.Contains inner)
    (hbefore : ∀ candidate ∈ stack, candidate.OuterFirst range)
    (hcross : ∃ candidate ∈ stack, candidate.Crosses range) :
    popStack range stack = .error .crossingRanges := by
  induction stack with
  | nil => simp at hcross
  | cons candidate stack ih =>
    obtain ⟨houter, hchain⟩ := List.pairwise_cons.mp hchain
    have hnot : ¬candidate.Contains range := by
      obtain ⟨c, hc, hcross⟩ := hcross
      rcases List.mem_cons.mp hc with rfl | hc
      · exact hcross.2.1
      · exact fun h => hcross.2.1 ((houter c hc).trans h)
    rw [popStack, if_neg hnot]
    by_cases hoverlaps : candidate.Overlaps range
    · rw [if_pos hoverlaps]
    · rw [if_neg hoverlaps]
      refine ih hchain (fun c hc => hbefore c (by simp [hc])) ?_
      obtain ⟨c, hc, hcross⟩ := hcross
      rcases List.mem_cons.mp hc with rfl | hc
      · exact absurd hcross.1 hoverlaps
      · exact ⟨c, hc, hcross⟩

/-- The loop succeeds exactly where no fold crosses another or a range on the stack. -/
theorem assignDepths_ok_iff {folds : List Fold}
    (hsorted : folds.Pairwise fun a b => a.range.OuterFirst b.range)
    (hinhabited : ∀ fold ∈ folds, fold.range.Inhabited) {stack : List FoldRange}
    (hstack : Stacked stack folds) :
    (assignDepths stack folds).1 = .ok () ↔
      Uncrossed folds ∧ ∀ range ∈ stack, ∀ fold ∈ folds, ¬range.Crosses fold.range := by
  induction folds generalizing stack with
  | nil => simp [assignDepths, Uncrossed]
  | cons fold folds ih =>
    obtain ⟨hfirst, hsorted⟩ := List.pairwise_cons.mp hsorted
    have hbefore : ∀ range ∈ stack, range.OuterFirst fold.range := fun range hr =>
      hstack.before range hr fold (by simp)
    by_cases hfree : ∀ range ∈ stack, ¬range.Crosses fold.range
    · obtain ⟨gone, kept, rfl, hrun, hgone, hkept⟩ :=
        popStack_ok (hinhabited fold (by simp)) hstack.chain hbefore hfree
      have hnext : Stacked (fold.range :: kept) folds := by
        refine ⟨List.pairwise_cons.mpr ⟨hkept, (List.pairwise_append.mp hstack.chain).2.1⟩, ?_⟩
        intro range hr f hf
        rcases List.mem_cons.mp hr with rfl | hr
        · exact hfirst f hf
        · exact hstack.before range (by simp [hr]) f (by simp [hf])
      have hih := ih hsorted (fun f hf => hinhabited f (by simp [hf])) hnext
      -- what has gone ends before every later fold begins
      have hpast : ∀ range ∈ gone, ∀ f ∈ folds, ¬range.Crosses f.range := fun range hr f hf =>
        Span.not_crosses_of_stop_le ((hgone range hr).trans (hfirst f hf).start_le)
      have hresult : (assignDepths (gone ++ kept) (fold :: folds)).1
          = (assignDepths (fold.range :: kept) folds).1 := by
        rw [assignDepths, hrun]
      rw [hresult, hih, uncrossed_cons]
      constructor
      · rintro ⟨hfolds, hlater⟩
        refine ⟨⟨hlater fold.range (by simp), hfolds⟩, fun range hr f hf => ?_⟩
        rcases List.mem_cons.mp hf with rfl | hf
        · exact hfree range hr
        · rcases List.mem_append.mp hr with hr | hr
          · exact hpast range hr f hf
          · exact hlater range (by simp [hr]) f hf
      · rintro ⟨⟨hfold, hfolds⟩, hlater⟩
        refine ⟨hfolds, fun range hr f hf => ?_⟩
        rcases List.mem_cons.mp hr with rfl | hr
        · exact hfold f hf
        · exact hlater range (by simp [hr]) f (by simp [hf])
    · have hcross : ∃ range ∈ stack, range.Crosses fold.range := by
        by_contra hnone
        exact hfree fun range hr hcross => hnone ⟨range, hr, hcross⟩
      have hresult : (assignDepths stack (fold :: folds)).1 = .error .crossingRanges := by
        rw [assignDepths, popStack_error hstack.chain hbefore hcross]
      rw [hresult]
      exact ⟨(nomatch ·), fun h => absurd (fun range hr => h.2 range hr fold (by simp)) hfree⟩

theorem outerFirst_sorted (folds : List Fold) :
    (folds.insertionSort fun left right => left.range.OuterFirst right.range).Pairwise
      fun a b => a.range.OuterFirst b.range := by
  have : Std.Total fun (left right : Fold) => left.range.OuterFirst right.range :=
    ⟨fun a b => Span.OuterFirst.total a.range b.range⟩
  have : IsTrans Fold fun left right => left.range.OuterFirst right.range :=
    ⟨fun _ _ _ => Span.OuterFirst.trans⟩
  exact List.pairwise_insertionSort _ _

/-- **Folds can be normalized exactly when no two of them cross.** -/
theorem normalizeFolds_ok_iff {folds : List Fold} (h : ∀ fold ∈ folds, fold.range.Inhabited) :
    (∃ folds', normalizeFolds folds = .ok () folds') ↔ Uncrossed folds := by
  let sorted := folds.insertionSort fun left right => left.range.OuterFirst right.range
  have hperm : sorted.Perm folds := List.perm_insertionSort _ _
  have hempty : Stacked [] sorted := ⟨by simp, by simp⟩
  have hiff := assignDepths_ok_iff (outerFirst_sorted folds)
    (fun fold hf => h fold (hperm.mem_iff.mp hf)) hempty
  have huncrossed : Uncrossed sorted ↔ Uncrossed folds :=
    hperm.pairwise_iff fun hab hba => hab hba.symm
  rw [← huncrossed]
  simp only [List.not_mem_nil, false_implies, implies_true, and_true] at hiff
  rw [← hiff]
  show (∃ folds', (do set (assignDepths [] sorted).2; MonadExcept.ofExcept (assignDepths [] sorted).1 :
    EStateM FoldError (List Fold) Unit) folds = .ok () folds') ↔ _
  rw [bind_ok (set_run _ _)]
  cases hresult : (assignDepths [] sorted).1 with
  | ok u => exact ⟨fun _ => rfl, fun _ => ⟨_, rfl⟩⟩
  | error e =>
    constructor
    · rintro ⟨folds', h⟩
      cases h
    · intro h
      cases h

namespace Folds

/-- The splice makes manual folds cross. -/
def Cross (self : Folds) (start oldRows newRows : Nat) : Prop :=
  self.method = .manual ∧ ¬Uncrossed (self.splicedManual start oldRows newRows)

instance (self : Folds) (start oldRows newRows : Nat) :
    Decidable (self.Cross start oldRows newRows) :=
  inferInstanceAs (Decidable (_ ∧ _))

/-- A row splice succeeds exactly where it makes no manual folds cross. -/
theorem spliceRows_ok_iff {self : Folds} {start oldRows newRows : Nat} :
    (∃ folds, spliceRows start oldRows newRows self = .ok () folds) ↔
      ¬self.Cross start oldRows newRows := by
  unfold spliceRows Cross
  rw [bind_ok (get_run self)]
  by_cases hmethod : self.method = .manual
  · have hinhabited : ∀ fold ∈ self.splicedManual start oldRows newRows, fold.range.Inhabited :=
      fun fold hf => of_decide_eq_true (List.mem_filter.mp hf).2
    rw [if_neg (not_not.mpr hmethod), bind_ok (modify_run _ self), normalizeManual, zoom]
    simp only [hmethod, true_and, not_not]
    rw [← normalizeFolds_ok_iff hinhabited]
    cases normalizeFolds (self.splicedManual start oldRows newRows) with
    | ok u folds => exact ⟨fun _ => ⟨_, rfl⟩, fun _ => ⟨_, rfl⟩⟩
    | error e folds =>
      constructor
      · rintro ⟨folds', h⟩
        cases h
      · rintro ⟨folds', h⟩
        cases h
  · rw [if_pos hmethod]
    exact ⟨fun _ h => hmethod h.1, fun _ => ⟨self, rfl⟩⟩

end Folds

end Oxvim.Editor
