import Oxvim.Editor.BufferOps

/-!
# Runs of buffer operations

Batches, prompt updates and undo navigation as lists of edits, and with them every public operation
that changes text, the undo position or the saved state of a buffer (`BufferOp`).

`BufferOp.edits` reads off a state which edits an operation is about to make. A navigation can fail
on the way; it then has made the first ones of them (`Replays`). Over any run of operations the events
tell all edits that were made, so that who follows them has the lines (`BufferOp.lines_followed`).
-/

namespace Oxvim.Editor

open Lib EState Text

/-! ## Recorded edits -/

theorem RecordedOp.edited {s : BufferState} (h : s.text.WellFormed) (op : RecordedOp) :
    Edited s (op.edits s) (final (op.run s)) := by
  obtain ⟨hedits, e, hrun⟩ | ⟨edit, hedits, hc, -, -, hrun⟩ := op.run_cases h
  · rw [hedits, hrun]
    exact .refl h
  · rw [hedits, hrun]
    by_cases hfolds : s.folds.Cross (edit.startLine - 1) edit.before.length edit.after.length
    · obtain ⟨b, event, e, s', hwrote, hreports, hrun, hcore⟩ :=
        BufferState.commitRecordedSplice_cross h hc hfolds
      rw [hrun]
      exact .of_wrote hwrote hreports (congrArg BufferState.text hcore :)
        (congrArg BufferState.pendingBytes hcore :)
    · obtain ⟨b, event, s', hwrote, hreports, hrun, hcore⟩ :=
        BufferState.commitRecordedSplice_ok h hc hfolds
      rw [hrun]
      exact .of_wrote hwrote hreports (congrArg BufferState.text hcore :)
        (congrArg BufferState.pendingBytes hcore :)

/-! ## Batches -/

/-- The row replacement of an edit in a batch. -/
def lineSplice (e : Edit Line) : LineSplice :=
  { start := e.start + 1, stop := e.start + e.before.length, lines := e.after }

theorem lt_start_of_batchValid {count pos : Nat} {ss : List LineSplice}
    (h : BatchValid count pos ss) : ∀ s ∈ ss, pos < s.start := by
  induction ss generalizing pos with
  | nil => simp
  | cons s ss ih =>
    obtain ⟨hlt, hle, -, -, hss⟩ := h
    intro t ht
    rcases List.mem_cons.mp ht with rfl | ht
    · exact hlt
    · exact Nat.lt_of_lt_of_le (Nat.lt_of_lt_of_le hlt hle) (Nat.le_of_lt (ih hss t ht))

/-- Edits of disjoint rows that keep the line count: doing them at once or one after the other is the
same. `front` is what stands before the rows still to be edited. -/
theorem batchLines_eq_applyEdits {es : List (Edit Line)} (front rest : List Line)
    (hvalid : BatchValid (front ++ rest).length front.length (es.map lineSplice))
    (hfits : ∀ e ∈ es, e.Fits (front ++ rest) ∧ e.after.length = e.before.length) :
    front ++ batchLines front.length rest (es.map lineSplice)
        = applyEdits [] es (front ++ rest) ∧
      InPlace [] (front ++ rest) es := by
  induction es generalizing front rest with
  | nil => exact ⟨rfl, trivial⟩
  | cons e es ih =>
    obtain ⟨hfirst, hlen⟩ := hfits e (by simp)
    obtain ⟨hpos, hle, hstop, hclean, hrest⟩ := hvalid
    have hpos' : front.length ≤ e.start := Nat.le_of_lt_succ hpos
    have hne : 0 < e.before.length := by
      have : e.start + 1 ≤ e.start + e.before.length := hle
      omega
    -- the edit moves the boundary behind its own lines
    let front' := (front ++ rest).take e.start ++ e.after
    have hback : (front ++ rest).drop (e.start + e.before.length)
        = rest.drop (e.start + e.before.length - front.length) := by
      rw [List.drop_append, List.drop_eq_nil_of_le (by omega), List.nil_append]
    have hfront : front'.length = e.start + e.before.length := by
      have hbound := hfirst.bound
      simp only [front', List.length_append, List.length_take] at hbound ⊢
      omega
    have hstep : e.apply [] (front ++ rest)
        = front' ++ rest.drop (e.start + e.before.length - front.length) := by
      rw [Edit.apply, Edit.spliced, splice, hback, settle_of_ne_nil]
      intro hnil
      have := congrArg List.length hnil
      simp only [List.length_append, List.length_nil] at this
      omega
    have htotal : (front' ++ rest.drop (e.start + e.before.length - front.length)).length
        = (front ++ rest).length := by
      have hbound := hfirst.bound
      rw [List.length_append, hfront, List.length_drop]
      rw [List.length_append] at hbound ⊢
      omega
    have hih := ih front' (rest.drop (e.start + e.before.length - front.length))
      (by rw [htotal, hfront]; exact hrest) fun f hf => by
        obtain ⟨hf', hlen'⟩ := hfits f (by simp [hf])
        have hbehind : e.start + e.before.length < f.start + 1 :=
          lt_start_of_batchValid hrest (lineSplice f) (List.mem_map_of_mem hf)
        refine ⟨⟨by rw [htotal]; exact hf'.bound, ?_⟩, hlen'⟩
        have hdrop : (front' ++ (front ++ rest).drop (e.start + e.before.length)).drop f.start
            = (front ++ rest).drop f.start := by
          rw [List.drop_append, List.drop_eq_nil_of_le (by omega), List.nil_append, hfront,
            List.drop_drop, Nat.add_sub_cancel' (by omega)]
        rw [slice, ← hback, hdrop]
        exact hf'.slice
    rw [InPlace, applyEdits_cons, hstep]
    refine ⟨?_, hfirst, hih.2⟩
    rw [← hih.1, List.map_cons, batchLines, hfront]
    show front ++ (rest.take (e.start + 1 - 1 - front.length) ++ e.after ++ batchLines _ _ _)
      = (front ++ rest).take e.start ++ e.after ++ batchLines _ _ _
    rw [List.take_append, List.take_of_length_le hpos', Nat.add_sub_cancel]
    simp [lineSplice]

theorem Reports.stamp {event : BufferBytesEvent} {e : Edit Line} (h : Reports event e)
    (tick : UInt64) : Reports { event with tick } e :=
  ⟨h.startRow, h.update⟩

section Batch

variable {s : BufferState} {prepared : List PreparedBufferTextEdit}
  {cursorBefore cursorAfter : Position} {timestamp : Int} {seq : Nat}

/-- Recording leaves text and events alone. -/
theorem recordBatch_frame : let r := BufferState.recordBatch cursorBefore cursorAfter timestamp seq prepared s
    (final r).text = s.text ∧ (final r).pendingBytes = s.pendingBytes := by
  induction prepared generalizing s seq with
  | nil => exact ⟨rfl, rfl⟩
  | cons edit prepared ih =>
    dsimp only at ih ⊢
    unfold BufferState.recordBatch
    by_cases hfolds : s.folds.Cross (edit.startLine - 1) edit.before.length edit.after.length
    · obtain ⟨e, s₁, hrun, hcore⟩ := BufferState.recordCommittedSplice_error hfolds
      rw [bind_error hrun]
      exact ⟨(congrArg BufferState.text hcore :), (congrArg BufferState.pendingBytes hcore :)⟩
    · obtain ⟨s₁, hrun, hcore⟩ := BufferState.recordCommittedSplice_ok hfolds
      rw [bind_ok hrun]
      obtain ⟨htext, hevents⟩ := ih (s := s₁)
      exact ⟨htext.trans (congrArg BufferState.text hcore :),
        hevents.trans (congrArg BufferState.pendingBytes hcore :)⟩

/-- The edits of a batch: they fit the same lines and keep their number. -/
def BatchReady (prepared : List PreparedBufferTextEdit) (lines : List Line) : Prop :=
  ∀ edit ∈ prepared, Committable edit lines ∧ edit.edit.Fits lines ∧
    edit.after.length = edit.before.length

theorem exists_events (h : s.text.WellFormed) (hready : BatchReady prepared s.text.lines) :
    ∃ events, prepared.mapM s.bytesEvent = .ok events ∧
      List.Forall₂ Reports events (prepared.map (·.edit)) := by
  induction prepared with
  | nil => exact ⟨[], rfl, .nil⟩
  | cons edit prepared ih =>
    obtain ⟨hc, -, -⟩ := hready edit (by simp)
    obtain ⟨events, hrun, hreports⟩ := ih fun e he => hready e (by simp [he])
    have hrow := hc.writable.bound
    obtain ⟨event, hevent, hreport⟩ := BufferState.bytesEvent_ok h hc.aligned
      (Nat.le_trans (Nat.le_add_right _ _) hrow)
    exact ⟨event :: events, mapM_ok_iff.mpr (.cons hevent (mapM_ok_iff.mp hrun)),
      .cons hreport hreports⟩

/-- A batch is refused without effect, or writes and reports all its edits and then records them. -/
theorem commitBatch_cases (h : s.text.WellFormed) (hready : BatchReady prepared s.text.lines)
    (hne : prepared ≠ []) :
    (¬BatchValid s.text.lines.length 0 (prepared.map fun edit => lineSplice edit.edit) ∧
      ∃ e, BufferState.commitPreparedLinePreservingBatch prepared cursorBefore cursorAfter timestamp s
        = .error e s) ∨
    (BatchValid s.text.lines.length 0 (prepared.map fun edit => lineSplice edit.edit) ∧
      InPlace [] s.text.lines (prepared.map (·.edit)) ∧
      ∃ b events, Edited s (prepared.map (·.edit)) (({ s with text := b } :
          BufferState).bumpChangedtick.pushStamped events) ∧
        BufferState.commitPreparedLinePreservingBatch prepared cursorBefore cursorAfter timestamp s
          = (do
            let seq ← BufferState.recordBatch cursorBefore cursorAfter timestamp 0 prepared
            modify BufferState.refreshModified
            modify BufferState.bumpDerivedTicks
            return seq) (({ s with text := b } : BufferState).bumpChangedtick.pushStamped events)) := by
  obtain ⟨events, hevents, hreports⟩ := exists_events h hready
  have hempty : ¬prepared.isEmpty = true := by simpa using hne
  have hofText : BufferState.ofText (prepared.mapM s.bytesEvent) s = .ok events s := by
    rw [hevents]
    rfl
  have hsplices : (prepared.map fun edit : PreparedBufferTextEdit =>
      (⟨edit.startLine, edit.startLine + edit.before.length - 1, edit.after⟩ : LineSplice))
      = prepared.map fun edit => lineSplice edit.edit := by
    refine List.map_congr_left fun edit he => ?_
    have hstart := (hready edit he).1.start
    simp only [lineSplice, PreparedBufferTextEdit.edit, LineSplice.mk.injEq, and_true]
    omega
  by_cases hvalid : BatchValid s.text.lines.length 0
      (prepared.map fun edit => lineSplice edit.edit)
  · obtain ⟨b, hrun, hwf, hlines⟩ := h.replaceLinesDisjoint hvalid
    obtain ⟨hbatch, hplace⟩ := batchLines_eq_applyEdits [] s.text.lines
      (by rw [List.map_map]; exact hvalid) (by
        intro e he
        obtain ⟨edit, hedit, rfl⟩ := List.mem_map.mp he
        exact (hready edit hedit).2)
    refine .inr ⟨hvalid, hplace, b, events, ⟨hwf, ?_, ?_⟩, ?_⟩
    · rw [List.map_map, List.nil_append, List.nil_append] at hbatch
      show b.lines = _
      rw [hlines, ← settle_of_ne_nil (applyEdits_ne_nil h.lines_ne_nil), ← hbatch]
      rfl
    · refine ⟨_, rfl, ?_⟩
      rw [List.forall₂_map_left_iff]
      exact hreports.imp fun _ _ hr => hr.stamp _
    · unfold BufferState.commitPreparedLinePreservingBatch
      rw [if_neg hempty, bind_ok (get_run s), bind_ok hofText, hsplices,
        bind_ok (BufferState.onText_ok hrun), bind_ok (modify_run _ _), bind_ok (modify_run _ _)]
  · obtain ⟨e, hrun⟩ := h.replaceLinesDisjoint_error hvalid
    refine .inl ⟨hvalid, .text e, ?_⟩
    unfold BufferState.commitPreparedLinePreservingBatch
    rw [if_neg hempty, bind_ok (get_run s), bind_ok hofText, hsplices,
      bind_error (BufferState.onText_error hrun)]

end Batch

/-! ## Prompt updates -/

/-- The prompt splice of `Editor::replace_prompt_line`. -/
def promptSplice (lnum oldLen newLen : Nat) : TextSplice :=
  { start := ⟨lnum - 1, 0⟩, oldExtent := ⟨0, oldLen⟩, newExtent := ⟨0, newLen⟩ }

/-- The edit of a prompt update. -/
def promptEdit (s : BufferState) (lnum : Nat) (line : Line) : Edit Line :=
  { start := lnum - 1, before := [s.text.lines.getD (lnum - 1) []], after := [line] }

/-- A prompt update is within the lines and puts in a clean one. -/
def PromptReady (s : BufferState) (lnum : Nat) (line : Line) : Prop :=
  s.isLoaded = true ∧ 1 ≤ lnum ∧ lnum ≤ s.text.lines.length ∧ CleanLine line

instance (s : BufferState) (lnum : Nat) (line : Line) : Decidable (PromptReady s lnum line) :=
  inferInstanceAs (Decidable (_ ∧ _ ∧ _ ∧ _))

section Prompt

variable {s : BufferState} {lnum oldLen newLen : Nat} {line : Line}

theorem replacePromptLine_error (h : s.text.WellFormed) (hbad : ¬PromptReady s lnum line) :
    ∃ e, BufferState.replacePromptLine lnum line (promptSplice lnum oldLen newLen) s
      = .error e s := by
  unfold BufferState.replacePromptLine
  cases hloaded : s.isLoaded with
  | false =>
    have hrequire : BufferState.requireLoaded s = .error .unloaded s := by
      rw [RecordedOp.requireLoaded_run, hloaded]
      rfl
    exact ⟨_, bind_error hrequire⟩
  | true =>
    have hrequire : BufferState.requireLoaded s = .ok () s := by
      rw [RecordedOp.requireLoaded_run, hloaded]
      rfl
    rw [bind_ok hrequire, bind_ok (get_run s), h.line_eq]
    by_cases hrow : 1 ≤ lnum ∧ lnum ≤ s.text.lines.length
    · obtain ⟨e, hrun⟩ := h.replaceLines_error lnum lnum [line]
        fun hok => hbad ⟨hloaded, hrow.1, hrow.2, hok.2.2.2 line (by simp)⟩
      rw [if_pos hrow]
      refine ⟨.text e, ?_⟩
      show (BufferState.onText _ >>= _ : EStateM BufferStateError BufferState Unit) s = _
      exact bind_error (BufferState.onText_error hrun)
    · rw [if_neg hrow]
      exact ⟨_, rfl⟩

/-- A prompt update writes and reports, and then lets the folds follow. -/
theorem replacePromptLine_run (h : s.text.WellFormed) (hready : PromptReady s lnum line) :
    ∃ (b : Buffer) (event : BufferBytesEvent) (s₁ : BufferState),
      Wrote (promptEdit s lnum line) s.text b ∧
      Reports event (promptEdit s lnum line) ∧
      s₁.core = (s.written b event).core ∧
      BufferState.replacePromptLine lnum line (promptSplice lnum oldLen newLen) s = (do
        BufferState.spliceFolds lnum 1 1
        modify (BufferState.splicePromptStart · lnum 1 1)
        modify BufferState.bumpDerivedTicks) s₁ := by
  obtain ⟨hloaded, hlow, hhigh, hclean⟩ := hready
  have hw : Writable (promptEdit s lnum line) s.text.lines :=
    ⟨by show lnum - 1 + 1 ≤ _; omega, by simpa [promptEdit] using hclean⟩
  have hrequire : BufferState.requireLoaded s = .ok () s := by
    rw [RecordedOp.requireLoaded_run, hloaded]
    rfl
  have hbefore : BufferState.ofText (s.text.line lnum) s
      = .ok (s.text.lines.getD (lnum - 1) []) s := by
    rw [h.line_eq, if_pos ⟨hlow, hhigh⟩]
    rfl
  obtain ⟨b, hwrite, hwrote⟩ := BufferState.write_ok h hlow hw
  have hwrite' : BufferState.onText (Buffer.replaceLines lnum lnum [line]) s
      = .ok () { s with text := b } := hwrite
  have hlines : b.lines = splice s.text.lines (lnum - 1) 1 [line] := by
    rw [hwrote.lines]
    exact settle_of_ne_nil (by simp [Edit.spliced, splice])
  have hlen : b.lines.length = s.text.lines.length := by
    rw [hlines, length_splice (by omega), List.length_singleton]
    omega
  -- the line read back is the one put in
  have hget : b.lines.getD (lnum - 1) [] = line := by
    have htake : (s.text.lines.take (lnum - 1)).length = lnum - 1 := by
      rw [List.length_take]
      omega
    rw [hlines, splice, List.append_assoc, List.getD_eq_getElem?_getD,
      List.getElem?_append_right (Nat.le_of_eq htake), htake]
    simp
  let s₁ : BufferState := ({ s with text := b } : BufferState).bumpChangedtick
  have hafter : BufferState.ofText (s₁.text.line lnum) s₁ = .ok line s₁ := by
    show BufferState.ofText (b.line lnum) s₁ = _
    rw [hwrote.wellFormed.line_eq, if_pos (by omega), hget]
    rfl
  let edit : PreparedBufferTextEdit :=
    { startLine := lnum, before := [s.text.lines.getD (lnum - 1) []], after := [line]
      splice := promptSplice lnum oldLen newLen }
  obtain ⟨event, hevent, hreports⟩ := @BufferState.bytesEvent_ok s₁
    hwrote.wellFormed edit rfl (by show lnum - 1 ≤ b.lines.length; omega)
  have hofText : BufferState.ofText (s₁.bytesEvent edit) s₁ = .ok event s₁ := by
    rw [hevent]
    rfl
  let s₂ : BufferState := (s₁.pushEvent event).spliceMarks lnum 1 1
  refine ⟨b, event, { s₂ with extmarks := (s₂.extmarks.spliceRecording
    (promptSplice lnum oldLen newLen)).2 }, hwrote, hreports, rfl, ?_⟩
  unfold BufferState.replacePromptLine
  rw [bind_ok hrequire, bind_ok (get_run s), bind_ok hbefore, bind_ok hwrite',
    bind_ok (modify_run _ _), bind_ok (get_run _), bind_ok hafter, bind_ok (get_run _),
    bind_ok hofText, bind_ok (modify_run _ _), bind_ok (modify_run _ _), bind_ok (modify_run _ _)]

end Prompt

/-! ## Navigation -/

/-- The edits that an undo step replays, in order. -/
def stepEdits : UndoStep → List (Edit Line)
  | .undo entry => undoEdits (entry.edits.map LineEdit.edit)
  | .redo entry => entry.edits.map LineEdit.edit

/-- A run makes the first edits of a list, and all of them when it succeeds. -/
def Replays {α : Type} (s : BufferState) (edits : List (Edit Line))
    (r : EStateM.Result BufferStateError BufferState α) : Prop :=
  ∃ done, done <+: edits ∧ Edited s done (final r) ∧ ∀ a s', r = .ok a s' → done = edits

theorem Replays.bind {α β : Type} {s : BufferState} {es fs : List (Edit Line)}
    {x : EStateM BufferStateError BufferState α} {f : α → EStateM BufferStateError BufferState β}
    (hx : Replays s es (x s)) (hf : ∀ a s', x s = .ok a s' → Replays s' fs (f a s')) :
    Replays s (es ++ fs) ((x >>= f) s) := by
  obtain ⟨done, hprefix, hedited, hok⟩ := hx
  cases hrun : x s with
  | ok a s' =>
    rw [hrun] at hedited
    obtain ⟨done', hprefix', hedited', hok'⟩ := hf a s' hrun
    have hdone : done = es := hok a s' hrun
    rw [bind_ok hrun]
    subst hdone
    exact ⟨done ++ done', (List.prefix_append_right_inj done).mpr hprefix', hedited.trans hedited',
      fun b s'' h => by rw [hok' b s'' h]⟩
  | error e s' =>
    rw [hrun] at hedited
    rw [bind_error hrun]
    exact ⟨done, hprefix.trans (List.prefix_append _ _), hedited, fun b s'' h => nomatch h⟩

section Navigation

variable {s : BufferState} {entry : UndoEntry} {undoing : Bool}

theorem replayEdit_replays (h : s.text.WellFormed) {edit : LineEdit} {index : Nat} :
    Replays s [BufferState.replayed undoing edit]
      (BufferState.replayEdit entry undoing edit index s) := by
  by_cases hw : 1 ≤ edit.start ∧ Writable (BufferState.replayed undoing edit) s.text.lines
  · by_cases hfolds : s.folds.Cross (BufferState.replayed undoing edit).start
        (BufferState.replayed undoing edit).before.length
        (BufferState.replayed undoing edit).after.length
    · obtain ⟨b, event, e, s', hwrote, hreports, hrun, hcore⟩ :=
        BufferState.replayEdit_cross h hw.1 hw.2 hfolds
      rw [hrun]
      exact ⟨_, List.prefix_rfl, .of_wrote hwrote hreports (congrArg BufferState.text hcore :)
        (congrArg BufferState.pendingBytes hcore :), fun a s' h => nomatch h⟩
    · obtain ⟨b, event, s', hwrote, hreports, hrun, hcore⟩ :=
        BufferState.replayEdit_ok h hw.1 hw.2 hfolds
      rw [hrun]
      exact ⟨_, List.prefix_rfl, .of_wrote hwrote hreports (congrArg BufferState.text hcore :)
        (congrArg BufferState.pendingBytes hcore :), fun a s' h => rfl⟩
  · obtain ⟨e, hrun⟩ := BufferState.replayEdit_error h hw
    rw [hrun]
    exact ⟨[], List.nil_prefix, .refl h, fun a s' h => nomatch h⟩

theorem replayEdits_replays (h : s.text.WellFormed) (edits : List (LineEdit × Nat)) :
    Replays s (edits.map fun p => BufferState.replayed undoing p.1)
      (BufferState.replayEdits entry undoing edits s) := by
  induction edits generalizing s with
  | nil => exact ⟨[], List.prefix_rfl, .refl h, fun a s' h => rfl⟩
  | cons p edits ih =>
    obtain ⟨edit, index⟩ := p
    refine Replays.bind (replayEdit_replays h) ?_
    intro replayed s' hrun
    obtain ⟨done, -, hedited, hok⟩ := replayEdit_replays h
    rw [hrun] at hedited
    rw [← List.append_nil (edits.map _)]
    refine Replays.bind (ih (s := s') hedited.wellFormed) fun rest s'' hrun' => ?_
    obtain ⟨done', -, hedited', -⟩ := ih (s := s') hedited.wellFormed
    rw [hrun'] at hedited'
    exact ⟨[], List.prefix_rfl, .refl hedited'.wellFormed, fun a s' h => rfl⟩

theorem map_replayed (undoing : Bool) (edits : List LineEdit) :
    edits.zipIdx.map (fun p => BufferState.replayed undoing p.1)
      = edits.map (BufferState.replayed undoing) := by
  calc edits.zipIdx.map (fun p => BufferState.replayed undoing p.1)
      = (edits.zipIdx.map Prod.fst).map (BufferState.replayed undoing) := by
        rw [List.map_map]
        rfl
    _ = edits.map (BufferState.replayed undoing) := by rw [List.zipIdx_map_fst]

theorem map_replayed_undo (edits : List LineEdit) :
    edits.zipIdx.reverse.map (fun p => BufferState.replayed true p.1)
      = undoEdits (edits.map LineEdit.edit) := by
  rw [List.map_reverse, map_replayed, undoEdits, List.map_map]
  rfl

theorem map_replayed_redo (edits : List LineEdit) :
    edits.zipIdx.map (fun p => BufferState.replayed false p.1) = edits.map LineEdit.edit :=
  map_replayed false edits

theorem Replays.mono {α β : Type} {es : List (Edit Line)} {s₁ : BufferState}
    {r : EStateM.Result BufferStateError BufferState α}
    {r' : EStateM.Result BufferStateError BufferState β} (h : Replays s₁ es r)
    (htext : s.text = s₁.text) (hevents : s.pendingBytes = s₁.pendingBytes)
    (htext' : (final r').text = (final r).text)
    (hevents' : (final r').pendingBytes = (final r).pendingBytes)
    (hok : ∀ b s', r' = .ok b s' → ∃ a s'', r = .ok a s'') : Replays s es r' := by
  obtain ⟨done, hprefix, hedited, hall⟩ := h
  refine ⟨done, hprefix, (hedited.congr htext' hevents').congr_left htext hevents, ?_⟩
  intro b s' hr
  obtain ⟨a, s'', hr'⟩ := hok b s' hr
  exact hall a s'' hr'

/-- One undo step replays the edits of its header. -/
theorem applyUndoStep_replays (h : s.text.WellFormed) (step : UndoStep) :
    Replays s (stepEdits step) (BufferState.applyUndoStep step s) := by
  have hmove : ∀ (undoing : Bool) (entry : UndoEntry) (edits : List (LineEdit × Nat)),
      Replays s (edits.map fun p => BufferState.replayed undoing p.1) ((do
        modify BufferState.bumpChangedtick
        let replayed ← BufferState.replayEdits entry undoing edits
        modify BufferState.refreshModified
        modify BufferState.bumpDerivedTicks
        return replayed : EStateM BufferStateError BufferState (List ReplayedEdit)) s) := by
    intro undoing entry edits
    have hreplays := @replayEdits_replays s.bumpChangedtick entry undoing h edits
    rw [bind_ok (modify_run _ s)]
    cases hrun : BufferState.replayEdits entry undoing edits s.bumpChangedtick with
    | ok a s' =>
      rw [hrun] at hreplays
      rw [bind_ok hrun]
      exact hreplays.mono rfl rfl rfl rfl fun b s' _ => ⟨_, _, rfl⟩
    | error e s' =>
      rw [hrun] at hreplays
      rw [bind_error hrun]
      exact hreplays.mono rfl rfl rfl rfl fun b s' h => nomatch h
  cases step with
  | undo entry =>
    rw [stepEdits, ← map_replayed_undo]
    exact hmove true entry _
  | redo entry =>
    rw [stepEdits, ← map_replayed_redo]
    exact hmove false entry _

theorem applyUndoSteps_replays (h : s.text.WellFormed) (steps : List UndoStep) :
    Replays s (steps.flatMap stepEdits) (BufferState.applyUndoSteps steps s) := by
  induction steps generalizing s with
  | nil => exact ⟨[], List.prefix_rfl, .refl h, fun a s' h => rfl⟩
  | cons step steps ih =>
    refine Replays.bind (applyUndoStep_replays h step) ?_
    intro replayed s' hrun
    obtain ⟨done, -, hedited, -⟩ := applyUndoStep_replays h step
    rw [hrun] at hedited
    have hih := ih (s := s') hedited.wellFormed
    show Replays s' _ ((do
      let rest ← BufferState.applyUndoSteps steps
      return replayed :: rest : EStateM BufferStateError BufferState _) s')
    cases hrun' : BufferState.applyUndoSteps steps s' with
    | ok a s'' =>
      rw [hrun'] at hih
      rw [bind_ok hrun']
      exact hih.mono rfl rfl rfl rfl fun b s' _ => ⟨_, _, rfl⟩
    | error e s'' =>
      rw [hrun'] at hih
      rw [bind_error hrun']
      exact hih.mono rfl rfl rfl rfl fun b s' h => nomatch h

end Navigation

/-! ## Following events -/

/-- The lines of a client that has an event told. -/
def BufferBytesEvent.follow (event : BufferBytesEvent) (lines : List Line) : List Line :=
  match event.update with
  | .mutation oldLineCount _ _ _ newLines =>
    settle [] (splice lines event.startRow oldLineCount newLines)
  | _ => lines

theorem Reports.follow {event : BufferBytesEvent} {e : Edit Line} (h : Reports event e)
    (lines : List Line) : event.follow lines = e.apply [] lines := by
  simp only [BufferBytesEvent.follow, h.update, h.startRow, Edit.apply, Edit.spliced]

/-- Edits that were reported can be followed. -/
theorem Edited.followed {s s' : BufferState} {es : List (Edit Line)} (h : Edited s es s') :
    ∃ events, s'.pendingBytes = s.pendingBytes ++ events ∧
      s'.text.lines = events.foldl (fun lines event => event.follow lines) s.text.lines := by
  obtain ⟨events, hevents, hreports⟩ := h.events
  refine ⟨events, hevents, ?_⟩
  rw [h.lines]
  generalize s.text.lines = lines
  clear hevents h
  induction hreports generalizing lines with
  | nil => rfl
  | cons hreport _ ih =>
    rw [List.foldl_cons, applyEdits_cons, hreport.follow]
    exact ih _

/-! ## Operations -/

/-- The operations that change text, the undo position, the saved state or the folds of a resident
buffer. -/
inductive BufferOp where
  | record (op : RecordedOp)
  | batch (requests : List BufferTextEditRequest) (cursorBefore cursorAfter : Position)
      (timestamp : Int)
  | promptLine (lnum : Nat) (line : Line) (oldLen newLen : Nat)
  | syncUndo
  | undojoin
  | undo
  | redo
  | undoToSeq (seq : Nat)
  | markModified
  | markSaved
  | setEol (hasEol : Bool)
  | load (text : { b : Buffer // b.WellFormed })
  | setFolds (folds : Folds)

namespace BufferOp

/-- The state an operation leaves. The requests of a batch are prepared against one text, and all of
them keep the line count. -/
def run (s : BufferState) : BufferOp → BufferState
  | record op => final (op.run s)
  | batch requests cursorBefore cursorAfter timestamp =>
    match requests.mapM s.prepareBufferTextEdit with
    | .error _ => s
    | .ok prepared =>
      if prepared.all (·.preservesLineCount) then
        final (BufferState.commitPreparedLinePreservingBatch prepared cursorBefore cursorAfter
          timestamp s)
      else s
  | promptLine lnum line oldLen newLen =>
    final (BufferState.replacePromptLine lnum line (promptSplice lnum oldLen newLen) s)
  | syncUndo => s.syncUndo
  | undojoin => final (BufferState.undojoin s)
  | undo => final (BufferState.undo s)
  | redo => final (BufferState.redo s)
  | undoToSeq seq => final (BufferState.undoToSeq seq s)
  | markModified => s.markModified
  | markSaved => s.markSaved
  | setEol hasEol => final (BufferState.setEol hasEol s)
  | load text => s.load text
  | setFolds folds => { s with folds }

/-- The undo steps a navigation takes. -/
def steps (s : BufferState) : BufferOp → List UndoStep
  | undo => match UndoTree.undo s.undoTree with
    | .ok step _ => [step]
    | .error _ _ => []
  | redo => match UndoTree.redo s.undoTree with
    | .ok step _ => [step]
    | .error _ _ => []
  | undoToSeq seq => match UndoTree.undoToSeq seq s.undoTree with
    | .ok steps _ => steps
    | .error _ _ => []
  | _ => []

/-- The edits an operation is about to make. -/
def edits (s : BufferState) : BufferOp → List (Edit Line)
  | record op => op.edits s
  | batch requests _ _ _ =>
    match requests.mapM s.prepareBufferTextEdit with
    | .error _ => []
    | .ok prepared =>
      if prepared.all (·.preservesLineCount) ∧
          BatchValid s.text.lines.length 0 (prepared.map fun edit => lineSplice edit.edit) then
        prepared.map (·.edit)
      else []
  | promptLine lnum line _ _ => if PromptReady s lnum line then [promptEdit s lnum line] else []
  | op => (op.steps s).flatMap stepEdits

variable {s : BufferState}

theorem batchReady (h : s.text.WellFormed) {requests : List BufferTextEditRequest}
    {prepared : List PreparedBufferTextEdit}
    (hprepared : requests.mapM s.prepareBufferTextEdit = .ok prepared)
    (hkeep : prepared.all (·.preservesLineCount) = true) :
    BatchReady prepared s.text.lines := by
  intro edit hedit
  obtain ⟨i, hi, rfl⟩ := List.mem_iff_getElem.mp hedit
  have hall := mapM_ok_iff.mp hprepared
  have hok := hall.get (i := i) (hall.length_eq ▸ hi) hi
  obtain ⟨hc, hfits, -⟩ := (prepareBufferTextEdit_ok h hok).committable h.clean
  refine ⟨hc, hfits, ?_⟩
  have hlen := List.all_eq_true.mp hkeep _ hedit
  exact (of_decide_eq_true hlen).symm

/-- A batch is refused without effect, or commits edits that are in place. -/
theorem batch_cases (h : s.text.WellFormed) (requests : List BufferTextEditRequest)
    (cursorBefore cursorAfter : Position) (timestamp : Int) :
    ((batch requests cursorBefore cursorAfter timestamp).edits s = [] ∧
      (batch requests cursorBefore cursorAfter timestamp).run s = s) ∨
    ∃ prepared b events,
      (batch requests cursorBefore cursorAfter timestamp).edits s = prepared.map (·.edit) ∧
      BatchReady prepared s.text.lines ∧ InPlace [] s.text.lines (prepared.map (·.edit)) ∧
      Edited s (prepared.map (·.edit)) (({ s with text := b } :
        BufferState).bumpChangedtick.pushStamped events) ∧
      (batch requests cursorBefore cursorAfter timestamp).run s = final ((do
        let seq ← BufferState.recordBatch cursorBefore cursorAfter timestamp 0 prepared
        modify BufferState.refreshModified
        modify BufferState.bumpDerivedTicks
        return seq : EStateM BufferStateError BufferState Nat)
          (({ s with text := b } : BufferState).bumpChangedtick.pushStamped events)) := by
  cases hprepared : requests.mapM s.prepareBufferTextEdit with
  | error e => exact .inl ⟨by simp only [edits, hprepared], by simp only [run, hprepared]⟩
  | ok prepared =>
    cases hkeep : prepared.all (·.preservesLineCount) with
    | false =>
      exact .inl ⟨by simp [edits, hprepared, hkeep], by simp [run, hprepared, hkeep]⟩
    | true =>
      have hready := batchReady h hprepared hkeep
      have hedits : (batch requests cursorBefore cursorAfter timestamp).edits s
          = if BatchValid s.text.lines.length 0 (prepared.map fun edit => lineSplice edit.edit) then
            prepared.map (·.edit) else [] := by
        simp only [edits, hprepared, hkeep, true_and]
      have hrun : (batch requests cursorBefore cursorAfter timestamp).run s
          = final (BufferState.commitPreparedLinePreservingBatch prepared cursorBefore cursorAfter
            timestamp s) := by
        simp only [run, hprepared, hkeep, if_true]
      rw [hedits, hrun]
      by_cases hne : prepared = []
      · subst hne
        exact .inl ⟨by simp, rfl⟩
      · obtain ⟨hinvalid, e, hrun⟩ | ⟨hvalid, hplace, b, events, hedited, hrun⟩ := commitBatch_cases
          h hready hne
        · exact .inl ⟨if_neg hinvalid, by rw [hrun]; rfl⟩
        · exact .inr ⟨prepared, b, events, if_pos hvalid, hready, hplace, hedited, by rw [hrun]⟩

theorem onUndo_ok {α : Type} {x : EStateM UndoError UndoTree α} {a : α} {t : UndoTree}
    (h : x s.undoTree = .ok a t) : BufferState.onUndo x s = .ok a { s with undoTree := t } :=
  zoom_ok h

theorem onUndo_error {α : Type} {x : EStateM UndoError UndoTree α} {e : UndoError} {t : UndoTree}
    (h : x s.undoTree = .error e t) :
    BufferState.onUndo x s = .error (.undo e) { s with undoTree := t } :=
  zoom_error h

/-- `undojoin` changes the undo tree only. -/
theorem undojoin_run (s : BufferState) : final (BufferState.undojoin s) = if s.isLoaded then
    { s with undoTree := final (UndoTree.undojoin s.undoTree) } else s := by
  unfold BufferState.undojoin
  rw [bind_run, RecordedOp.requireLoaded_run]
  cases s.isLoaded with
  | false => rfl
  | true =>
    show final (BufferState.onUndo UndoTree.undojoin s) = _
    cases htree : UndoTree.undojoin s.undoTree with
    | ok u t =>
      rw [onUndo_ok htree]
      rfl
    | error e t =>
      rw [onUndo_error htree]
      rfl

/-- Operations after which the lines are the ones before, edited. -/
def Mirrored : BufferOp → Prop
  | setEol _ => False
  | load _ => False
  | _ => True

/-- **Every operation makes the edits it is about to make, or the first ones of them.** -/
theorem edited (h : s.text.WellFormed) {op : BufferOp} (hop : op.Mirrored) :
    ∃ done, done <+: op.edits s ∧ Edited s done (op.run s) := by
  have hnone : ∀ s', s'.text = s.text → s'.pendingBytes = s.pendingBytes →
      ∃ done, done <+: [] ∧ Edited s done s' := fun s' htext hevents =>
    ⟨[], List.prefix_rfl, (Edited.refl h).congr htext hevents⟩
  have hstep : ∀ step t, ∃ done, done <+: [step].flatMap stepEdits ∧ Edited s done (final ((do
      modify ({ · with undoTree := t })
      return some (← BufferState.applyUndoStep step) :
        EStateM BufferStateError BufferState (Option (List ReplayedEdit))) s)) := by
    intro step t
    rw [bind_ok (modify_run _ s), List.flatMap_singleton]
    obtain ⟨done, hprefix, hedited, -⟩ :=
      applyUndoStep_replays (s := { s with undoTree := t }) h step
    cases hrun : BufferState.applyUndoStep step { s with undoTree := t } with
    | ok replayed s' =>
      rw [hrun] at hedited
      rw [bind_ok hrun]
      exact ⟨done, hprefix, hedited.congr_left rfl rfl⟩
    | error e s' =>
      rw [hrun] at hedited
      rw [bind_error hrun]
      exact ⟨done, hprefix, hedited.congr_left rfl rfl⟩
  cases op with
  | record op => exact ⟨_, List.prefix_rfl, op.edited h⟩
  | batch requests cursorBefore cursorAfter timestamp =>
    obtain ⟨hedits, hrun⟩ | ⟨prepared, b, events, hedits, hready, -, hedited, hrun⟩ :=
      batch_cases h requests cursorBefore cursorAfter timestamp
    · rw [hedits, hrun]
      exact hnone s rfl rfl
    · rw [hedits, hrun]
      refine ⟨_, List.prefix_rfl, ?_⟩
      obtain ⟨htext, hevents⟩ := recordBatch_frame (s := ({ s with text := b } :
        BufferState).bumpChangedtick.pushStamped events)
      cases hrecord : BufferState.recordBatch cursorBefore cursorAfter timestamp 0 prepared
          (({ s with text := b } : BufferState).bumpChangedtick.pushStamped events) with
      | ok seq s' =>
        rw [hrecord] at htext hevents
        rw [bind_ok hrecord]
        exact hedited.congr htext hevents
      | error e s' =>
        rw [hrecord] at htext hevents
        rw [bind_error hrecord]
        exact hedited.congr htext hevents
  | promptLine lnum line oldLen newLen =>
    show ∃ done, done <+: (if PromptReady s lnum line then [promptEdit s lnum line] else []) ∧
      Edited s done (final (BufferState.replacePromptLine lnum line (promptSplice lnum oldLen newLen) s))
    by_cases hready : PromptReady s lnum line
    · obtain ⟨b, event, s₁, hwrote, hreports, hcore, hrun⟩ :=
        replacePromptLine_run h hready
      rw [if_pos hready, hrun]
      refine ⟨_, List.prefix_rfl, ?_⟩
      have hedited : Edited s [promptEdit s lnum line] s₁ :=
        .of_wrote hwrote hreports (congrArg BufferState.text hcore :)
          (congrArg BufferState.pendingBytes hcore :)
      by_cases hfolds : s₁.folds.Cross (lnum - 1) 1 1
      · obtain ⟨e, hfail⟩ := BufferState.spliceFolds_error hfolds
        rw [bind_error hfail]
        exact hedited.congr rfl rfl
      · rw [bind_ok (BufferState.spliceFolds_ok hfolds)]
        exact hedited.congr rfl rfl
    · obtain ⟨e, hrun⟩ := replacePromptLine_error h hready
      rw [if_neg hready, hrun]
      exact hnone s rfl rfl
  | syncUndo => exact hnone _ rfl rfl
  | undojoin =>
    show ∃ done, done <+: [] ∧ Edited s done (final (BufferState.undojoin s))
    rw [undojoin_run]
    split
    · exact hnone _ rfl rfl
    · exact hnone s rfl rfl
  | undo =>
    show ∃ done, done <+: (match UndoTree.undo s.undoTree with
      | .ok step _ => [step]
      | .error _ _ => []).flatMap stepEdits ∧ Edited s done (final (BufferState.undo s))
    unfold BufferState.undo
    rw [bind_ok (get_run s)]
    cases UndoTree.undo s.undoTree with
    | error e t => exact hnone _ rfl rfl
    | ok step t => exact hstep step t
  | redo =>
    show ∃ done, done <+: (match UndoTree.redo s.undoTree with
      | .ok step _ => [step]
      | .error _ _ => []).flatMap stepEdits ∧ Edited s done (final (BufferState.redo s))
    unfold BufferState.redo
    rw [bind_ok (get_run s)]
    cases UndoTree.redo s.undoTree with
    | error e t => exact hnone _ rfl rfl
    | ok step t => exact hstep step t
  | undoToSeq seq =>
    show ∃ done, done <+: (match UndoTree.undoToSeq seq s.undoTree with
      | .ok steps _ => steps
      | .error _ _ => []).flatMap stepEdits ∧ Edited s done (final (BufferState.undoToSeq seq s))
    unfold BufferState.undoToSeq
    cases htree : UndoTree.undoToSeq seq s.undoTree with
    | error e t =>
      rw [bind_error (onUndo_error htree)]
      exact hnone _ rfl rfl
    | ok steps t =>
      rw [bind_ok (onUndo_ok htree)]
      obtain ⟨done, hprefix, hedited, -⟩ :=
        applyUndoSteps_replays (s := { s with undoTree := t }) h steps
      exact ⟨done, hprefix, hedited.congr_left rfl rfl⟩
  | markModified => exact hnone _ rfl rfl
  | markSaved => exact hnone _ rfl rfl
  | setEol hasEol => exact hop.elim
  | load text => exact hop.elim
  | setFolds folds => exact hnone _ rfl rfl

/-! ### Runs -/

/-- **Who follows the events has the lines**, after any run of these operations. -/
theorem lines_followed (h : s.text.WellFormed) (ops : List BufferOp) (hops : ∀ op ∈ ops, op.Mirrored) :
    ∃ events, (ops.foldl run s).pendingBytes = s.pendingBytes ++ events ∧
      (ops.foldl run s).text.lines
        = events.foldl (fun lines event => event.follow lines) s.text.lines := by
  have hrun : ∃ edits, Edited s edits (ops.foldl run s) := by
    induction ops generalizing s with
    | nil => exact ⟨[], Edited.refl h⟩
    | cons op ops ih =>
      obtain ⟨hop, hrest⟩ := List.forall_mem_cons.mp hops
      obtain ⟨done, -, hedited⟩ := edited h hop
      obtain ⟨more, hmore⟩ := ih hedited.wellFormed hrest
      exact ⟨done ++ more, hedited.trans hmore⟩
  obtain ⟨edits, hedited⟩ := hrun
  exact hedited.followed

theorem lines_followed_undo :
    ∃ events, (([record (.replaceLines 1 1 [[97]] ⟨1, 0⟩ ⟨1, 0⟩ 0), undo].foldl run
        (BufferState.new .new true)).pendingBytes
          = (BufferState.new .new true).pendingBytes ++ events) ∧
      ([record (.replaceLines 1 1 [[97]] ⟨1, 0⟩ ⟨1, 0⟩ 0), undo].foldl run
        (BufferState.new .new true)).text.lines
          = events.foldl (fun lines event => event.follow lines)
              (BufferState.new .new true).text.lines :=
  lines_followed Buffer.wellFormed_new _ (by simp [Mirrored])

end BufferOp

end Oxvim.Editor
