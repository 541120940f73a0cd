import Oxvim.Editor.BufferState
import Oxvim.Editor.FoldNesting
import Oxvim.Lib.Replay
import Oxvim.Text.BufferLines
import Oxvim.Text.UndoInvariant

/-!
# What one edit of a buffer does

Every text change of a buffer is an `Edit` of its lines, whether it is recorded, replayed, or a
prompt update. One theorem for each of the programs says when it goes through and what it leaves:

* `writePreparedLines` and `replayText` go through where the edit is within the lines and puts in
  clean ones (`Writable`), and then carry it out (`Wrote`);
* `commitRecordedSplice` then queues one event, and fails exactly where the row splice makes manual
  folds cross. At that point text and event are there, and the undo tree does not know of them;
* `replayEdit` likewise.
-/

namespace Oxvim.Text

/-- The edit of the lines that a recorded line edit stands for. -/
def LineEdit.edit (self : LineEdit) : Lib.Edit Line :=
  { start := self.start - 1, before := self.before, after := self.after }

end Oxvim.Text

namespace Oxvim.Editor

open Lib EState Text

/-! ## Row splices on folds -/

namespace Folds

/-- The folds that a row splice leaves, whether it succeeds or fails. -/
def spliced (self : Folds) (start oldRows newRows : Nat) : Folds :=
  final (spliceRows start oldRows newRows self)

/-- The row splices of a list of edits make no folds cross. -/
def Follows : Folds → List (Edit Line) → Prop
  | _, [] => True
  | self, e :: es => ¬self.Cross e.start e.before.length e.after.length ∧
    (self.spliced e.start e.before.length e.after.length).Follows es

instance decidableFollows : (es : List (Edit Line)) → (self : Folds) → Decidable (self.Follows es)
  | [], _ => inferInstanceAs (Decidable True)
  | e :: es, self =>
    have := decidableFollows es (self.spliced e.start e.before.length e.after.length)
    inferInstanceAs (Decidable (_ ∧ _))

end Folds

/-! ## Edits of lines -/

/-- The edit of the lines that a prepared edit stands for. -/
def PreparedBufferTextEdit.edit (self : PreparedBufferTextEdit) : Edit Line :=
  { start := self.startLine - 1, before := self.before, after := self.after }

/-- What the undo tree gets to know of a prepared edit. -/
def PreparedBufferTextEdit.lineEdit (self : PreparedBufferTextEdit)
    (cursorBefore cursorAfter : Position) : LineEdit :=
  { start := self.startLine
    before := self.before
    after := self.after
    cursorBefore := ⟨cursorBefore.lnum, cursorBefore.col⟩
    cursorAfter := ⟨cursorAfter.lnum, cursorAfter.col⟩ }

/-- The edit is within the lines and puts in clean ones. -/
structure Writable (e : Edit Line) (lines : List Line) : Prop where
  bound : e.start + e.before.length ≤ lines.length
  clean : ∀ l ∈ e.after, CleanLine l

instance (e : Edit Line) (lines : List Line) : Decidable (Writable e lines) :=
  decidable_of_iff (e.start + e.before.length ≤ lines.length ∧ ∀ l ∈ e.after, CleanLine l)
    ⟨fun h => ⟨h.1, h.2⟩, fun h => ⟨h.bound, h.clean⟩⟩

/-- The text after an edit of its lines. A text whose lines are all gone has no end-of-line state. -/
structure Wrote (e : Edit Line) (b b' : Buffer) : Prop where
  wellFormed : b'.WellFormed
  lines : b'.lines = e.apply [] b.lines
  hasEol : b'.hasEol = (b.hasEol && !(e.spliced b.lines).isEmpty)

/-- An edit that can be written: its rows are the rows of its splice. -/
structure Committable (edit : PreparedBufferTextEdit) (lines : List Line) : Prop where
  start : 1 ≤ edit.startLine
  aligned : edit.splice.start.row = edit.startLine - 1
  writable : Writable edit.edit lines

/-- The event that says what an edit did to the lines. -/
structure Reports (event : BufferBytesEvent) (e : Edit Line) : Prop where
  startRow : event.startRow = e.start
  update : event.update = .mutation e.before.length (linewiseDeletedSizes e.before).1
    (linewiseDeletedSizes e.before).2.1 (linewiseDeletedSizes e.before).2.2 e.after

namespace BufferState

variable {self : BufferState}

/-- Runs of a text operation. -/
theorem onText_ok {α : Type} {x : EStateM BufferError Buffer α} {a : α} {b : Buffer}
    (h : x self.text = .ok a b) : onText x self = .ok a { self with text := b } :=
  zoom_ok h

theorem onText_error {α : Type} {x : EStateM BufferError Buffer α} {e : BufferError}
    (h : x self.text = .error e self.text) : onText x self = .error (.text e) self :=
  zoom_error h

/-- The two ways to write an edit: an insertion, or the replacement of lines. -/
theorem write_ok (h : self.text.WellFormed) {start : Nat} {before after : List Line}
    (hstart : 1 ≤ start) (hw : Writable ⟨start - 1, before, after⟩ self.text.lines) :
    ∃ b, (if before.isEmpty then onText (Buffer.appendLines (start - 1) after)
        else onText (Buffer.replaceLines start (start + before.length - 1) after)) self
        = .ok () { self with text := b } ∧ Wrote ⟨start - 1, before, after⟩ self.text b := by
  have hbound : start - 1 + before.length ≤ self.text.lines.length := hw.bound
  cases before with
  | nil =>
    obtain ⟨b, hrun, hwf, hlines, heol⟩ := h.appendLines hbound hw.clean
    exact ⟨b, onText_ok hrun, hwf, hlines, heol⟩
  | cons l before =>
    have hlen : start + (l :: before).length - 1 + 1 - start = (l :: before).length := by omega
    have hlast : start + (l :: before).length - 1 ≤ self.text.lines.length := by omega
    have hle : start ≤ start + (l :: before).length - 1 := by
      rw [List.length_cons]
      omega
    obtain ⟨b, hrun, hwf, hlines, heol⟩ := h.replaceLines hstart hle hlast hw.clean
    rw [hlen] at hlines heol
    exact ⟨b, onText_ok hrun, hwf, hlines, heol⟩

theorem write_error (h : self.text.WellFormed) {start : Nat} {before after : List Line}
    (hstart : 1 ≤ start) (hw : ¬Writable ⟨start - 1, before, after⟩ self.text.lines) :
    ∃ e, (if before.isEmpty then onText (Buffer.appendLines (start - 1) after)
        else onText (Buffer.replaceLines start (start + before.length - 1) after)) self
        = .error (.text e) self := by
  cases before with
  | nil =>
    obtain ⟨e, hrun⟩ := h.appendLines_error fun hok : start - 1 ≤ _ ∧ _ => hw ⟨hok.1, hok.2⟩
    exact ⟨e, onText_error hrun⟩
  | cons l before =>
    obtain ⟨e, hrun⟩ := h.replaceLines_error start (start + (l :: before).length - 1) after
      fun hok => hw ⟨by
        have hlast := hok.2.2.1
        show start - 1 + (l :: before).length ≤ _
        omega, hok.2.2.2⟩
    exact ⟨e, onText_error hrun⟩

theorem replayText_ok (h : self.text.WellFormed) {start : Nat} {remove apply : List Line}
    (hstart : 1 ≤ start) (hw : Writable ⟨start - 1, remove, apply⟩ self.text.lines) :
    ∃ b, replayText start remove apply self = .ok () { self with text := b } ∧
      Wrote ⟨start - 1, remove, apply⟩ self.text b := by
  by_cases hnothing : remove = [] ∧ apply = []
  · obtain ⟨rfl, rfl⟩ := hnothing
    have hspliced : splice self.text.lines (start - 1) 0 [] = self.text.lines := splice_zero_nil ..
    refine ⟨self.text, rfl, h, ?_, ?_⟩
    · show _ = settle [] (splice self.text.lines (start - 1) 0 [])
      rw [hspliced, settle_of_ne_nil h.lines_ne_nil]
    · show _ = (self.text.hasEol && !(splice self.text.lines (start - 1) 0 []).isEmpty)
      simp [hspliced, h.lines_ne_nil]
  · obtain ⟨b, hrun, hwrote⟩ := write_ok h hstart hw
    refine ⟨b, ?_, hwrote⟩
    rw [← hrun, replayText]
    cases remove with
    | nil =>
      have hne : apply.isEmpty = false := by simpa using hnothing
      simp [hne]
    | cons l remove => rfl

theorem replayText_error (h : self.text.WellFormed) {start : Nat} {remove apply : List Line}
    (hstart : 1 ≤ start) (hbound : start - 1 ≤ self.text.lines.length)
    (hw : ¬Writable ⟨start - 1, remove, apply⟩ self.text.lines) :
    ∃ e, replayText start remove apply self = .error (.text e) self := by
  obtain ⟨e, hrun⟩ := write_error h hstart hw
  refine ⟨e, ?_⟩
  rw [← hrun, replayText]
  cases remove with
  | nil =>
    cases apply with
    | nil => exact absurd ⟨hbound, by simp⟩ hw
    | cons l apply => rfl
  | cons l remove => rfl

/-! ## Folds and the other followers -/

theorem spliceFolds_ok {start oldRows newRows : Nat}
    (h : ¬self.folds.Cross (start - 1) oldRows newRows) :
    spliceFolds start oldRows newRows self = .ok () { self with
      folds := (self.folds.spliced (start - 1) oldRows newRows).invalidate self.changedtick } := by
  obtain ⟨folds, hrun⟩ := Folds.spliceRows_ok_iff.mpr h
  have hfinal : self.folds.spliced (start - 1) oldRows newRows = folds := by
    rw [Folds.spliced, hrun]
    rfl
  unfold spliceFolds
  rw [bind_ok (zoom_ok hrun), modify_run, hfinal]

theorem spliceFolds_error {start oldRows newRows : Nat}
    (h : self.folds.Cross (start - 1) oldRows newRows) :
    ∃ e, spliceFolds start oldRows newRows self = .error (.fold e) { self with
      folds := self.folds.spliced (start - 1) oldRows newRows } := by
  cases hrun : Folds.spliceRows (start - 1) oldRows newRows self.folds with
  | ok u folds => exact absurd h (Folds.spliceRows_ok_iff.mp ⟨folds, hrun⟩)
  | error e folds =>
    have hfinal : self.folds.spliced (start - 1) oldRows newRows = folds := by
      rw [Folds.spliced, hrun]
      rfl
    refine ⟨e, ?_⟩
    unfold spliceFolds
    rw [bind_error (zoom_error hrun), hfinal]

/-- A state without its marks, extmarks and prompt row. -/
def core (self : BufferState) : BufferState :=
  { self with marks := {}, extmarks := {}, extmarkUndo := ∅, promptStart := 1 }

theorem recordCommittedSplice_ok {edit : PreparedBufferTextEdit} {cursorBefore cursorAfter : Position}
    {timestamp : Int}
    (h : ¬self.folds.Cross (edit.startLine - 1) edit.before.length edit.after.length) :
    ∃ self', recordCommittedSplice edit cursorBefore cursorAfter timestamp self
        = .ok (self.undoTree.record (edit.lineEdit cursorBefore cursorAfter) timestamp).1 self' ∧
      self'.core = { self with
        undoTree := (self.undoTree.record (edit.lineEdit cursorBefore cursorAfter) timestamp).2
        folds := (self.folds.spliced (edit.startLine - 1) edit.before.length
          edit.after.length).invalidate self.changedtick }.core := by
  unfold recordCommittedSplice
  rw [bind_ok (modify_run _ self), bind_ok (get_run _)]
  generalize Extmarks.spliceRecording _ edit.splice = r
  obtain ⟨⟨_, extmarkUndo⟩, extmarks⟩ := r
  dsimp only
  have hrun := @spliceFolds_ok { self.spliceMarks edit.startLine
    edit.before.length edit.after.length with extmarks } _ _ _ h
  rw [bind_ok (modify_run _ _), bind_ok hrun, bind_ok (modify_run _ _), bind_ok (get_run _)]
  exact ⟨_, rfl, rfl⟩

theorem recordCommittedSplice_error {edit : PreparedBufferTextEdit}
    {cursorBefore cursorAfter : Position} {timestamp : Int}
    (h : self.folds.Cross (edit.startLine - 1) edit.before.length edit.after.length) :
    ∃ e self', recordCommittedSplice edit cursorBefore cursorAfter timestamp self
        = .error (.fold e) self' ∧
      self'.core = { self with
        folds := self.folds.spliced (edit.startLine - 1) edit.before.length edit.after.length }.core := by
  unfold recordCommittedSplice
  rw [bind_ok (modify_run _ self), bind_ok (get_run _)]
  generalize Extmarks.spliceRecording _ edit.splice = r
  obtain ⟨⟨_, extmarkUndo⟩, extmarks⟩ := r
  dsimp only
  rw [bind_ok (modify_run _ _)]
  obtain ⟨e, hrun⟩ := @spliceFolds_error { self.spliceMarks edit.startLine
    edit.before.length edit.after.length with extmarks } _ _ _ h
  rw [bind_error hrun]
  exact ⟨e, _, rfl, rfl⟩

/-! ## Events -/

/-- A committed edit is reported from the text it has left. -/
theorem bytesEvent_ok (h : self.text.WellFormed) {edit : PreparedBufferTextEdit}
    (halign : edit.splice.start.row = edit.startLine - 1)
    (hrow : edit.startLine - 1 ≤ self.text.lines.length) :
    ∃ event, self.bytesEvent edit = .ok event ∧ Reports event edit.edit := by
  have hbyte := h.byteOfLine_eq (halign ▸ hrow)
  unfold bytesEvent
  dsimp only
  rw [hbyte]
  exact ⟨_, rfl, halign, rfl⟩

/-- A replayed edit is reported from the text it is about to change. -/
theorem replayEvent_ok (h : self.text.WellFormed) {start : Nat} {remove apply : List Line}
    (hstart : 1 ≤ start) (hrow : start - 1 ≤ self.text.lines.length) :
    ∃ event, self.replayEvent start remove apply = .ok event ∧
      Reports event ⟨start - 1, remove, apply⟩ := by
  have hbyte := h.byteOfLine_eq hrow
  rw [Nat.sub_add_cancel hstart] at hbyte
  unfold replayEvent
  rw [hbyte]
  exact ⟨_, rfl, rfl, rfl⟩

theorem replayEvent_error (h : self.text.WellFormed) {start : Nat} {remove apply : List Line}
    (hbad : start = 0 ∨ self.text.lines.length + 1 < start) :
    ∃ e, self.replayEvent start remove apply = .error e := by
  unfold replayEvent
  rw [h.byteOfLine_error hbad]
  exact ⟨_, rfl⟩

/-- An edit leaves at least the lines before it. -/
theorem start_le_of_wrote {e : Edit Line} {b b' : Buffer} (hw : Writable e b.lines)
    (h : Wrote e b b') : e.start ≤ b'.lines.length := by
  have hlen := length_splice (r := e.after) hw.bound
  have hbound := hw.bound
  rw [h.lines, Edit.apply, Edit.spliced]
  by_cases hnil : splice b.lines e.start e.before.length e.after = []
  · rw [hnil, List.length_nil] at hlen
    omega
  · rw [settle_of_ne_nil hnil, hlen]
    omega

/-! ## Committing an edit -/

/-- The state in which an edit has been written and reported, and nothing else. -/
def written (self : BufferState) (b : Buffer) (event : BufferBytesEvent) : BufferState :=
  ({ self with text := b }.bumpChangedtick).pushEvent event

section Commit

variable {edit : PreparedBufferTextEdit} {cursorBefore cursorAfter : Position} {timestamp : Int}

/-- A commit writes and reports first. -/
theorem commitRecordedSplice_run (h : self.text.WellFormed) (hc : Committable edit self.text.lines) :
    ∃ b event, Wrote edit.edit self.text b ∧ Reports event edit.edit ∧
      ({ self with text := b }.bumpChangedtick).bytesEvent edit = .ok event ∧
      commitRecordedSplice edit cursorBefore cursorAfter timestamp self = (do
        let seq ← recordCommittedSplice edit cursorBefore cursorAfter timestamp
        modify refreshModified
        modify bumpDerivedTicks
        return seq) (self.written b event) := by
  obtain ⟨b, hwrite, hwrote⟩ := write_ok h hc.start hc.writable
  obtain ⟨event, hevent, hreports⟩ := @bytesEvent_ok
    ({ self with text := b } : BufferState).bumpChangedtick hwrote.wellFormed edit hc.aligned
    (start_le_of_wrote (e := edit.edit) hc.writable hwrote)
  refine ⟨b, event, hwrote, hreports, hevent, ?_⟩
  unfold commitRecordedSplice
  have hwrite' : writePreparedLines edit self = .ok () { self with text := b } := hwrite
  have hofText : ofText ((({ self with text := b } : BufferState).bumpChangedtick).bytesEvent edit)
      ({ self with text := b } : BufferState).bumpChangedtick
      = .ok event ({ self with text := b } : BufferState).bumpChangedtick := by
    rw [hevent]
    rfl
  rw [bind_ok hwrite', bind_ok (modify_run _ _), bind_ok (get_run _), bind_ok hofText]
  rfl

theorem commitRecordedSplice_ok (h : self.text.WellFormed) (hc : Committable edit self.text.lines)
    (hfolds : ¬self.folds.Cross (edit.startLine - 1) edit.before.length edit.after.length) :
    ∃ b event self', Wrote edit.edit self.text b ∧ Reports event edit.edit ∧
      commitRecordedSplice edit cursorBefore cursorAfter timestamp self
        = .ok (self.undoTree.record (edit.lineEdit cursorBefore cursorAfter) timestamp).1 self' ∧
      self'.core = { self.written b event with
        undoTree := (self.undoTree.record (edit.lineEdit cursorBefore cursorAfter) timestamp).2
        folds := (self.folds.spliced (edit.startLine - 1) edit.before.length
          edit.after.length).invalidate (self.changedtick + 1)
      }.refreshModified.bumpDerivedTicks.core := by
  obtain ⟨b, event, hwrote, hreports, -, hrun⟩ := commitRecordedSplice_run h hc
  obtain ⟨self', hrecord, hcore⟩ := @recordCommittedSplice_ok (self.written b event)
    _ _ _ _ hfolds
  refine ⟨b, event, self'.refreshModified.bumpDerivedTicks, hwrote, hreports, ?_, ?_⟩
  · rw [hrun, bind_ok hrecord, bind_ok (modify_run _ _), bind_ok (modify_run _ _), pure_run]
    rfl
  · exact congrArg (fun s : BufferState => s.refreshModified.bumpDerivedTicks) hcore

/-- The second defect: text and event are there, the rest is not. -/
theorem commitRecordedSplice_cross (h : self.text.WellFormed)
    (hc : Committable edit self.text.lines)
    (hfolds : self.folds.Cross (edit.startLine - 1) edit.before.length edit.after.length) :
    ∃ b event e self', Wrote edit.edit self.text b ∧ Reports event edit.edit ∧
      commitRecordedSplice edit cursorBefore cursorAfter timestamp self = .error (.fold e) self' ∧
      self'.core = { self.written b event with
        folds := self.folds.spliced (edit.startLine - 1) edit.before.length edit.after.length }.core := by
  obtain ⟨b, event, hwrote, hreports, -, hrun⟩ := commitRecordedSplice_run h hc
  obtain ⟨e, self', hrecord, hcore⟩ := @recordCommittedSplice_error
    (self.written b event) _ _ _ _ hfolds
  exact ⟨b, event, e, self', hwrote, hreports, by rw [hrun, bind_error hrecord], hcore⟩

/-- What cannot be written is refused without effect. -/
theorem commitRecordedSplice_error (h : self.text.WellFormed) (hstart : 1 ≤ edit.startLine)
    (hw : ¬Writable edit.edit self.text.lines) :
    ∃ e, commitRecordedSplice edit cursorBefore cursorAfter timestamp self
      = .error (.text e) self := by
  obtain ⟨e, hwrite⟩ := write_error h hstart hw
  have hwrite' : writePreparedLines edit self = .error (.text e) self := hwrite
  exact ⟨e, by rw [commitRecordedSplice, bind_error hwrite']⟩

end Commit

/-! ## Replaying an edit -/

/-- The edit of the lines that a replay carries out. -/
def replayed (undoing : Bool) (edit : LineEdit) : Edit Line :=
  if undoing then edit.edit.inverse else edit.edit

section Replay

variable {entry : UndoEntry} {undoing : Bool} {edit : LineEdit} {index : Nat}

theorem replayed_eq : replayed undoing edit
    = ⟨edit.start - 1, replayRemove undoing edit, replayApply undoing edit⟩ := by
  cases undoing <;> rfl

theorem core_replayExtmarks {seq : Nat} :
    (self.replayExtmarks seq index undoing).core = self.core := by
  unfold replayExtmarks
  split <;> rfl

/-- A replay writes and reports, and then lets the folds follow. -/
theorem replayEdit_run (h : self.text.WellFormed) (hstart : 1 ≤ edit.start)
    (hw : Writable (replayed undoing edit) self.text.lines) :
    ∃ b event followed, Wrote (replayed undoing edit) self.text b ∧
      Reports event (replayed undoing edit) ∧
      self.replayEvent edit.start (replayRemove undoing edit) (replayApply undoing edit)
        = .ok event ∧
      followed.core = ({ self with text := b }.pushEvent event).core ∧
      replayEdit entry undoing edit index self = (do
        spliceFolds edit.start (replayRemove undoing edit).length
          (replayApply undoing edit).length
        return replayReport entry undoing edit) followed := by
  rw [replayed_eq] at hw ⊢
  have hrow : edit.start - 1 ≤ self.text.lines.length := Nat.le_trans (Nat.le_add_right _ _) hw.bound
  obtain ⟨event, hevent, hreports⟩ := replayEvent_ok h hstart hrow
  obtain ⟨b, hwrite, hwrote⟩ := replayText_ok h hstart hw
  have hofText : ofText (self.replayEvent edit.start (replayRemove undoing edit)
      (replayApply undoing edit)) self = .ok event self := by
    rw [hevent]
    rfl
  let followed : BufferState := ((({ self with text := b } : BufferState).pushEvent event).spliceMarks
    edit.start (replayRemove undoing edit).length
    (replayApply undoing edit).length).replayExtmarks entry.seq index undoing
  have hcore : followed.core = (({ self with text := b } : BufferState).pushEvent event).core :=
    core_replayExtmarks
  refine ⟨b, event, followed, hwrote, hreports, hevent, hcore, ?_⟩
  unfold replayEdit
  rw [bind_ok (get_run self), bind_ok hofText, bind_ok hwrite, bind_ok (modify_run _ _),
    bind_ok (modify_run _ _), bind_ok (modify_run _ _)]

theorem replayEdit_ok (h : self.text.WellFormed) (hstart : 1 ≤ edit.start)
    (hw : Writable (replayed undoing edit) self.text.lines)
    (hfolds : ¬self.folds.Cross (replayed undoing edit).start (replayed undoing edit).before.length
      (replayed undoing edit).after.length) :
    ∃ b event self', Wrote (replayed undoing edit) self.text b ∧
      Reports event (replayed undoing edit) ∧
      replayEdit entry undoing edit index self = .ok (replayReport entry undoing edit) self' ∧
      self'.core = { self.pushEvent event with
        text := b
        folds := (self.folds.spliced (replayed undoing edit).start
          (replayed undoing edit).before.length (replayed undoing edit).after.length).invalidate
            self.changedtick }.core := by
  obtain ⟨b, event, followed, hwrote, hreports, -, hcore, hrun⟩ :=
    replayEdit_run h hstart hw
  have hsame : followed.folds = self.folds := (congrArg BufferState.folds hcore :)
  have htick : followed.changedtick = self.changedtick :=
    (congrArg BufferState.changedtick hcore :)
  rw [replayed_eq] at hfolds
  have hfollow : spliceFolds edit.start (replayRemove undoing edit).length
      (replayApply undoing edit).length followed = .ok () { followed with
        folds := (self.folds.spliced (edit.start - 1) (replayRemove undoing edit).length
          (replayApply undoing edit).length).invalidate self.changedtick } := by
    rw [← hsame, ← htick]
    exact spliceFolds_ok (hsame ▸ hfolds)
  refine ⟨b, event, _, hwrote, hreports, by rw [hrun, bind_ok hfollow, pure_run], ?_⟩
  rw [replayed_eq]
  exact congrArg (fun s : BufferState => { s with
    folds := (self.folds.spliced (edit.start - 1) (replayRemove undoing edit).length
      (replayApply undoing edit).length).invalidate self.changedtick }) hcore

theorem replayEdit_cross (h : self.text.WellFormed) (hstart : 1 ≤ edit.start)
    (hw : Writable (replayed undoing edit) self.text.lines)
    (hfolds : self.folds.Cross (replayed undoing edit).start (replayed undoing edit).before.length
      (replayed undoing edit).after.length) :
    ∃ b event e self', Wrote (replayed undoing edit) self.text b ∧
      Reports event (replayed undoing edit) ∧
      replayEdit entry undoing edit index self = .error e self' ∧
      self'.core = { self.pushEvent event with
        text := b
        folds := self'.folds }.core := by
  obtain ⟨b, event, followed, hwrote, hreports, -, hcore, hrun⟩ :=
    replayEdit_run h hstart hw
  have hsame : followed.folds = self.folds := (congrArg BufferState.folds hcore :)
  rw [replayed_eq] at hfolds
  obtain ⟨e, hfail⟩ := spliceFolds_error (hsame ▸ hfolds)
  refine ⟨b, event, _, _, hwrote, hreports, by rw [hrun, bind_error hfail], ?_⟩
  exact congrArg (fun s : BufferState => { s with
    folds := (followed.folds.spliced (edit.start - 1) (replayRemove undoing edit).length
      (replayApply undoing edit).length) }) hcore

/-- What cannot be written is refused without effect. -/
theorem replayEdit_error (h : self.text.WellFormed)
    (hw : ¬(1 ≤ edit.start ∧ Writable (replayed undoing edit) self.text.lines)) :
    ∃ e, replayEdit entry undoing edit index self = .error e self := by
  unfold replayEdit
  rw [bind_ok (get_run self)]
  by_cases hrow : edit.start = 0 ∨ self.text.lines.length + 1 < edit.start
  · obtain ⟨e, hevent⟩ := replayEvent_error h hrow
    have hofText : ofText (self.replayEvent edit.start (replayRemove undoing edit)
        (replayApply undoing edit)) self = .error (.text e) self := by
      rw [hevent]
      rfl
    exact ⟨_, by rw [bind_error hofText]⟩
  · have hstart : 1 ≤ edit.start := by omega
    rw [replayed_eq] at hw
    obtain ⟨event, hevent, -⟩ := replayEvent_ok h hstart (by omega)
    have hofText : ofText (self.replayEvent edit.start (replayRemove undoing edit)
        (replayApply undoing edit)) self = .ok event self := by
      rw [hevent]
      rfl
    obtain ⟨e, hwrite⟩ := replayText_error h hstart (by omega) fun hok => hw ⟨hstart, hok⟩
    exact ⟨_, by rw [bind_ok hofText, bind_error hwrite]⟩

end Replay

end BufferState

end Oxvim.Editor
