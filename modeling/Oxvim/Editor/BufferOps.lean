import Oxvim.Editor.BufferEdits

/-!
# Operations on a buffer

The public operations that change text, the undo position or the saved state of a buffer, as one
type `BufferOp`. `BufferOp.run` carries one out; whatever it returns, the state it leaves counts.

`BufferOp.edits` reads off a state which edits of the lines an operation is about to make: the one it
prepares, or the ones it is going to replay. What happens is always a prefix of them (`Edited`).
-/

namespace Oxvim.Editor

open Lib EState Text

/-! ## Collecting lines -/

section Lines

variable {text : Buffer} {start stop : Nat}

theorem linesFrom_empty (h : stop < start) : BufferState.linesFrom text start stop = .ok [] := by
  have hcount : stop + 1 - start = 0 := by omega
  rw [BufferState.linesFrom, hcount]
  rfl

/-- The collected lines are the ones in the range. -/
theorem linesFrom_ok (h : text.WellFormed) (hstart : 1 ≤ start) (hle : start ≤ stop)
    (hstop : stop ≤ text.lines.length) : BufferState.linesFrom text start stop
      = .ok (slice text.lines (start - 1) (stop + 1 - start)) := by
  have hslice : slice text.lines (start - 1) (stop + 1 - start)
      = (List.range' start (stop + 1 - start)).map fun n => text.lines.getD (n - 1) [] := by
    refine List.ext_getElem ?_ fun i hi hi' => ?_
    · rw [length_slice (by omega), List.length_map, List.length_range']
    · rw [length_slice (by omega)] at hi
      have hlt : start - 1 + i < text.lines.length := by omega
      have hsub : start + i - 1 = start - 1 + i := by omega
      simp [slice, hlt, hsub]
  rw [BufferState.linesFrom, hslice, mapM_ok_iff, List.forall₂_map_right_iff, List.forall₂_same]
  intro n hn
  obtain ⟨hn, hn'⟩ := List.mem_range'_1.mp hn
  rw [h.line_eq, if_pos (by omega)]

theorem linesFrom_error (h : text.WellFormed) (hle : start ≤ stop)
    (hbad : ¬(1 ≤ start ∧ stop ≤ text.lines.length)) :
    ∃ e, BufferState.linesFrom text start stop = .error e := by
  cases hrun : BufferState.linesFrom text start stop with
  | error e => exact ⟨e, rfl⟩
  | ok ls =>
    -- both ends of the range are read
    have hread : ∀ n, start ≤ n → n ≤ stop → 1 ≤ n ∧ n ≤ text.lines.length := by
      intro n hn hn'
      have hall := mapM_ok_iff.mp hrun
      obtain ⟨i, hi, hget⟩ := List.mem_iff_getElem.mp
        (List.mem_range'_1.mpr ⟨hn, by omega⟩ : n ∈ List.range' start (stop + 1 - start))
      have hok := hall.get hi (hall.length_eq ▸ hi)
      rw [List.get_eq_getElem, hget, h.line_eq] at hok
      by_contra hout
      rw [if_neg hout] at hok
      cases hok
    exact absurd ⟨(hread start (Nat.le_refl _) hle).1, (hread stop hle (Nat.le_refl _)).2⟩ hbad

end Lines

/-! ## Preparing a byte edit -/

theorem isUtf8Boundary_iff {l : Line} {col : Nat} : isUtf8Boundary l col = true ↔
    ∀ b, l[col]? = some b → b &&& 0xC0 ≠ 0x80 := by
  unfold isUtf8Boundary
  cases l[col]? with
  | none => simp
  | some b => simp

/-- The lines a request puts in, at least one. -/
def BufferTextEditRequest.lines (self : BufferTextEditRequest) : List Line :=
  if self.replacement.isEmpty then [[]] else self.replacement

/-- What preparing a request has checked, and what it has prepared. -/
structure Prepared (request : BufferTextEditRequest) (lines : List Line)
    (edit : PreparedBufferTextEdit) : Prop where
  rows : request.start.row ≤ request.stop.row
  bound : request.stop.row < lines.length
  startColumn : request.start.column ≤ (lines.getD request.start.row []).length
  stopColumn : request.stop.column ≤ (lines.getD request.stop.row []).length
  columns : request.start.row = request.stop.row → request.start.column ≤ request.stop.column
  startCut : isUtf8Boundary (lines.getD request.start.row []) request.start.column = true
  stopCut : isUtf8Boundary (lines.getD request.stop.row []) request.stop.column = true
  clean : ∀ l ∈ request.lines, CleanLine l
  eq : edit =
    { startLine := request.start.row + 1
      before := slice lines request.start.row (request.stop.row + 1 - request.start.row)
      after := composeReplacementLines
        (slice lines request.start.row (request.stop.row + 1 - request.start.row))
        request.start.column request.stop.column request.lines
      splice := .fromByteEdit request.start request.stop request.lines }

theorem prepareBufferTextEdit_ok {self : BufferState} (h : self.text.WellFormed)
    {request : BufferTextEditRequest} {edit : PreparedBufferTextEdit}
    (hok : self.prepareBufferTextEdit request = .ok edit) :
    Prepared request self.text.lines edit := by
  unfold BufferState.prepareBufferTextEdit at hok
  rw [show (if request.replacement.isEmpty = true then [[]] else request.replacement)
    = request.lines from rfl, h.lineCount] at hok
  by_cases hloaded : (!self.isLoaded) = true
  · rw [if_pos hloaded] at hok
    cases hok
  by_cases hnewline : request.lines.any (·.contains LF) = true
  · rw [if_neg hloaded, if_pos hnewline] at hok
    cases hok
  by_cases hutf8 : (request.lines.any fun line => (Utf8.decode? line).isNone) = true
  · rw [if_neg hloaded, if_neg hnewline, if_pos hutf8] at hok
    cases hok
  by_cases hrows : request.stop.row < request.start.row
  · rw [if_neg hloaded, if_neg hnewline, if_neg hutf8, if_pos hrows] at hok
    cases hok
  by_cases hbound : self.text.lines.length ≤ request.start.row ∨
      self.text.lines.length ≤ request.stop.row
  · rw [if_neg hloaded, if_neg hnewline, if_neg hutf8, if_neg hrows, if_pos hbound] at hok
    cases hok
  rw [if_neg hloaded, if_neg hnewline, if_neg hutf8, if_neg hrows, if_neg hbound] at hok
  have hstartLine : self.text.line (request.start.row + 1)
      = .ok (self.text.lines.getD request.start.row []) := by
    rw [h.line_eq, if_pos (by omega), Nat.add_sub_cancel]
  have hstopLine : self.text.line (request.stop.row + 1)
      = .ok (self.text.lines.getD request.stop.row []) := by
    rw [h.line_eq, if_pos (by omega), Nat.add_sub_cancel]
  have hlines := @linesFrom_ok _ (request.start.row + 1) (request.stop.row + 1) h
    (by omega) (by omega) (by omega)
  rw [Nat.add_sub_cancel, Nat.add_sub_add_right] at hlines
  rw [hstartLine, hlines] at hok
  have hchecks : (if (self.text.lines.getD request.start.row []).length < request.start.column ∨
        (self.text.lines.getD request.stop.row []).length < request.stop.column then
      throw (.textEdit .outOfRange)
    else if request.start.row = request.stop.row ∧ request.stop.column < request.start.column then
      throw (.textEdit .reversedRange)
    else if !isUtf8Boundary (self.text.lines.getD request.start.row []) request.start.column then
      throw (.textEdit (.notCharBoundary request.start.column))
    else if !isUtf8Boundary (self.text.lines.getD request.stop.row []) request.stop.column then
      throw (.textEdit (.notCharBoundary request.stop.column))
    else .ok
      { startLine := request.start.row + 1
        before := slice self.text.lines request.start.row (request.stop.row + 1 - request.start.row)
        after := composeReplacementLines
          (slice self.text.lines request.start.row (request.stop.row + 1 - request.start.row))
          request.start.column request.stop.column request.lines
        splice := .fromByteEdit request.start request.stop request.lines }
      : Except BufferStateError PreparedBufferTextEdit) = .ok edit := by
    by_cases hsame : request.stop.row = request.start.row
    · simp only [if_pos hsame] at hok
      rw [hsame] at hok ⊢
      exact hok
    · simp only [if_neg hsame, hstopLine] at hok
      exact hok
  by_cases hcolumns : (self.text.lines.getD request.start.row []).length < request.start.column ∨
      (self.text.lines.getD request.stop.row []).length < request.stop.column
  · rw [if_pos hcolumns] at hchecks
    cases hchecks
  by_cases hreversed : request.start.row = request.stop.row ∧
      request.stop.column < request.start.column
  · rw [if_neg hcolumns, if_pos hreversed] at hchecks
    cases hchecks
  rw [if_neg hcolumns, if_neg hreversed] at hchecks
  cases hstartCut : isUtf8Boundary (self.text.lines.getD request.start.row [])
      request.start.column with
  | false =>
    rw [hstartCut] at hchecks
    cases hchecks
  | true =>
    cases hstopCut : isUtf8Boundary (self.text.lines.getD request.stop.row [])
        request.stop.column with
    | false =>
      rw [hstartCut, hstopCut] at hchecks
      cases hchecks
    | true =>
      rw [hstartCut, hstopCut] at hchecks
      refine ⟨by omega, by omega, by omega, by omega, by omega, hstartCut, hstopCut, ?_,
        (Except.ok.inj hchecks).symm⟩
      intro l hl
      have hl' : l.contains LF = false := by
        by_contra hc
        exact hnewline (List.any_eq_true.mpr ⟨l, hl, by simpa using hc⟩)
      refine ⟨by simpa using hl', ?_⟩
      by_contra hnone
      exact hutf8 (List.any_eq_true.mpr ⟨l, hl, by simpa using hnone⟩)

/-- The first and the last line of a slice. -/
theorem headD_slice {lines : List Line} {i n : Nat} (hn : 0 < n) (h : i + n ≤ lines.length) :
    (slice lines i n).headD [] = lines.getD i [] := by
  have hi : i < lines.length := by omega
  simp [slice, List.headD_eq_head?_getD, List.head?_take, Nat.pos_iff_ne_zero.mp hn, hi]

theorem getLastD_slice {lines : List Line} {i n : Nat} (hn : 0 < n) (h : i + n ≤ lines.length) :
    (slice lines i n).getLastD [] = lines.getD (i + n - 1) [] := by
  have hlen : (slice lines i n).length = n := length_slice h
  have hi : i + n - 1 < lines.length := by omega
  rw [List.getLastD_eq_getLast?, List.getLast?_eq_getElem?, hlen, slice,
    List.getElem?_take_of_lt (by omega), List.getElem?_drop, List.getD_eq_getElem?_getD]
  congr 2
  omega

theorem composeReplacementLines_ne_nil {before replacement : List Line} {startColumn endColumn : Nat}
    (h : replacement ≠ []) :
    composeReplacementLines before startColumn endColumn replacement ≠ [] := by
  unfold composeReplacementLines
  match replacement with
  | [] => exact absurd rfl h
  | [l] => simp
  | l :: m :: rest => simp

/-- Composed lines are clean when the pieces are. -/
theorem clean_compose {before replacement : List Line} {startColumn endColumn : Nat}
    (hfirst : CleanLine ((before.headD []).take startColumn))
    (hlast : CleanLine ((before.getLastD []).drop endColumn))
    (hclean : ∀ l ∈ replacement, CleanLine l) :
    ∀ l ∈ composeReplacementLines before startColumn endColumn replacement, CleanLine l := by
  unfold composeReplacementLines
  intro l hl
  match replacement with
  | [] => cases hl
  | [m] =>
    rw [List.mem_singleton.mp hl]
    exact (hfirst.append (hclean m (by simp))).append hlast
  | first :: m :: rest =>
    have hmem : ∀ x ∈ m :: rest, CleanLine x := fun x hx => hclean x (List.mem_cons_of_mem _ hx)
    rcases List.mem_cons.mp hl with rfl | hl
    · exact hfirst.append (hclean first (by simp))
    rcases List.mem_append.mp hl with hl | hl
    · exact hmem l ((List.dropLast_sublist _).subset hl)
    · rw [List.mem_singleton.mp hl]
      refine (hmem _ ?_).append hlast
      rw [List.getLastD_eq_getLast?, List.getLast?_eq_some_getLast (by simp)]
      exact List.getLast_mem _

/-- What preparing accepts can be written. -/
theorem Prepared.committable {request : BufferTextEditRequest} {lines : List Line}
    {edit : PreparedBufferTextEdit} (h : Prepared request lines edit)
    (hclean : ∀ l ∈ lines, CleanLine l) :
    Committable edit lines ∧ edit.edit.Fits lines ∧ edit.after ≠ [] := by
  have hrows := h.rows
  have hbound := h.bound
  have hget : ∀ row < lines.length, CleanLine (lines.getD row []) := by
    intro row hrow
    rw [List.getD_eq_getElem?_getD, List.getElem?_eq_getElem hrow]
    exact hclean _ (List.getElem_mem hrow)
  have hpos : 0 < request.stop.row + 1 - request.start.row := by omega
  have hle : request.start.row + (request.stop.row + 1 - request.start.row) ≤ lines.length := by omega
  have hlast : request.start.row + (request.stop.row + 1 - request.start.row) - 1
      = request.stop.row := by omega
  have hlen := length_slice hle
  have hlines : request.lines ≠ [] := by
    unfold BufferTextEditRequest.lines
    split <;> simp_all
  have hfirst := ((hget request.start.row (by omega)).cut (isUtf8Boundary_iff.mp h.startCut)).1
  have hend := ((hget request.stop.row hbound).cut (isUtf8Boundary_iff.mp h.stopCut)).2
  rw [← headD_slice hpos hle] at hfirst
  rw [← hlast, ← getLastD_slice hpos hle] at hend
  rw [h.eq]
  refine ⟨⟨by simp, rfl, ⟨?_, ?_⟩⟩, ⟨?_, ?_⟩, composeReplacementLines_ne_nil hlines⟩
  · show request.start.row + (slice _ _ _).length ≤ _
    rw [hlen]
    exact hle
  · exact clean_compose hfirst hend h.clean
  · show request.start.row + (slice _ _ _).length ≤ _
    rw [hlen]
    exact hle
  · show slice lines request.start.row (slice _ _ _).length = slice _ _ _
    rw [hlen]

/-! ## Recorded edits -/

/-- The operations that record one edit. -/
inductive RecordedOp where
  | replaceLines (start stop : Nat) (lines : List Line) (cursorBefore cursorAfter : Position)
      (timestamp : Int)
  | appendLines (lnum : Nat) (lines : List Line) (cursor : Position) (timestamp : Int)
  | deleteLines (start stop : Nat) (cursor : Position) (timestamp : Int)
  | replaceBufferText (request : BufferTextEditRequest) (cursorBefore cursorAfter : Position)
      (timestamp : Int)
  deriving DecidableEq, Repr

namespace RecordedOp

def run : RecordedOp → EStateM BufferStateError BufferState Nat
  | replaceLines start stop lines cursorBefore cursorAfter timestamp =>
    BufferState.replaceLines start stop lines cursorBefore cursorAfter timestamp
  | appendLines lnum lines cursor timestamp => BufferState.appendLines lnum lines cursor timestamp
  | deleteLines start stop cursor timestamp => BufferState.deleteLines start stop cursor timestamp
  | replaceBufferText request cursorBefore cursorAfter timestamp =>
    BufferState.replaceBufferText request cursorBefore cursorAfter timestamp

def cursorBefore : RecordedOp → Position
  | replaceLines _ _ _ cursorBefore _ _ => cursorBefore
  | appendLines _ _ cursor _ => cursor
  | deleteLines _ _ cursor _ => cursor
  | replaceBufferText _ cursorBefore _ _ => cursorBefore

def cursorAfter : RecordedOp → Position
  | replaceLines _ _ _ _ cursorAfter _ => cursorAfter
  | appendLines _ lines cursor _ => { lnum := satAdd cursor.lnum lines.length, col := cursor.col }
  | deleteLines _ _ cursor _ => cursor
  | replaceBufferText _ _ cursorAfter _ => cursorAfter

def timestamp : RecordedOp → Int
  | replaceLines _ _ _ _ _ timestamp => timestamp
  | appendLines _ _ _ timestamp => timestamp
  | deleteLines _ _ _ timestamp => timestamp
  | replaceBufferText _ _ _ timestamp => timestamp

/-- Collects the lines that a linewise replacement removes. -/
def prepareLines (self : BufferState) (start stop : Nat) (lines : List Line) :
    Except BufferStateError PreparedBufferTextEdit := do
  if !self.isLoaded then throw .unloaded else
  let before ← (BufferState.linesFrom self.text start stop).mapError .text
  return {
    startLine := start
    before
    after := lines
    splice := .lineAnchored (start - 1) before.length lines.length }

/-- The edit that an operation hands to the commit. -/
def prepared (self : BufferState) : RecordedOp → Except BufferStateError PreparedBufferTextEdit
  | replaceLines start stop lines _ _ _ => prepareLines self start stop lines
  | appendLines lnum lines _ _ =>
    if !self.isLoaded then .error .unloaded
    else .ok
      { startLine := lnum + 1, before := [], after := lines
        splice := .lineAnchored lnum 0 lines.length }
  | deleteLines start stop _ _ => prepareLines self start stop []
  | replaceBufferText request _ _ _ => self.prepareBufferTextEdit request

variable {self : BufferState} {op : RecordedOp} {edit : PreparedBufferTextEdit}

theorem requireLoaded_run : BufferState.requireLoaded self
    = if self.isLoaded then .ok () self else .error .unloaded self := by
  unfold BufferState.requireLoaded
  rw [bind_ok (get_run self)]
  split <;> rfl

theorem replaceLines_run (start stop : Nat) (lines : List Line)
    (cursorBefore cursorAfter : Position) (timestamp : Int) :
    BufferState.replaceLines start stop lines cursorBefore cursorAfter timestamp self
      = match prepareLines self start stop lines with
        | .error e => .error e self
        | .ok edit =>
          BufferState.commitRecordedSplice edit cursorBefore cursorAfter timestamp self := by
  unfold BufferState.replaceLines prepareLines
  cases hloaded : self.isLoaded with
  | false =>
    have hrequire : BufferState.requireLoaded self = .error .unloaded self := by
      rw [requireLoaded_run, hloaded]
      rfl
    rw [bind_error hrequire]
    rfl
  | true =>
    have hrequire : BufferState.requireLoaded self = .ok () self := by
      rw [requireLoaded_run, hloaded]
      rfl
    rw [bind_ok hrequire, bind_ok (get_run self)]
    cases BufferState.linesFrom self.text start stop <;> rfl

/-- An operation prepares an edit and commits it. -/
theorem run_eq (op : RecordedOp) (self : BufferState) : op.run self = match op.prepared self with
    | .error e => .error e self
    | .ok edit => BufferState.commitRecordedSplice edit op.cursorBefore op.cursorAfter op.timestamp
        self := by
  cases op with
  | replaceLines start stop lines cursorBefore cursorAfter timestamp =>
    exact replaceLines_run start stop lines cursorBefore cursorAfter timestamp
  | deleteLines start stop cursor timestamp =>
    exact replaceLines_run start stop [] cursor cursor timestamp
  | appendLines lnum lines cursor timestamp =>
    show BufferState.appendLines lnum lines cursor timestamp self = _
    unfold BufferState.appendLines prepared
    rw [bind_run, requireLoaded_run]
    cases self.isLoaded <;> rfl
  | replaceBufferText request cursorBefore cursorAfter timestamp =>
    show BufferState.replaceBufferText request cursorBefore cursorAfter timestamp self = _
    have hprepared : prepared self (.replaceBufferText request cursorBefore cursorAfter timestamp)
        = self.prepareBufferTextEdit request := rfl
    unfold BufferState.replaceBufferText
    rw [bind_ok (get_run self), hprepared]
    cases self.prepareBufferTextEdit request <;> rfl

/-- A prepared edit that is within the lines fits them. -/
theorem prepared_ok (h : self.text.WellFormed) (hok : op.prepared self = .ok edit) :
    1 ≤ edit.startLine ∧ edit.splice.start.row = edit.startLine - 1 ∧
      (Writable edit.edit self.text.lines → edit.edit.Fits self.text.lines) := by
  have hlinewise : ∀ start stop lines, prepareLines self start stop lines = .ok edit →
      1 ≤ edit.startLine ∧ edit.splice.start.row = edit.startLine - 1 ∧
        (Writable edit.edit self.text.lines → edit.edit.Fits self.text.lines) := by
    intro start stop lines hok
    unfold prepareLines at hok
    cases hloaded : self.isLoaded with
    | false =>
      rw [hloaded] at hok
      cases hok
    | true =>
      rw [hloaded] at hok
      by_cases hle : start ≤ stop
      · by_cases hrange : 1 ≤ start ∧ stop ≤ self.text.lines.length
        · rw [linesFrom_ok h hrange.1 hle hrange.2] at hok
          cases hok
          have hlen : start - 1 + (stop + 1 - start) ≤ self.text.lines.length := by omega
          refine ⟨hrange.1, rfl, fun hw => ⟨hw.bound, ?_⟩⟩
          show slice _ _ (slice _ _ _).length = slice _ _ _
          rw [length_slice hlen]
          rfl
        · obtain ⟨e, herror⟩ := linesFrom_error h hle hrange
          rw [herror] at hok
          cases hok
      · rw [linesFrom_empty (by omega)] at hok
        cases hok
        exact ⟨by show 1 ≤ start; omega, rfl, fun hw => ⟨hw.bound, rfl⟩⟩
  cases op with
  | replaceLines start stop lines _ _ _ => exact hlinewise start stop lines hok
  | deleteLines start stop _ _ => exact hlinewise start stop [] hok
  | appendLines lnum lines _ _ =>
    unfold prepared at hok
    cases hloaded : self.isLoaded with
    | false =>
      rw [hloaded] at hok
      cases hok
    | true =>
      rw [hloaded] at hok
      cases hok
      exact ⟨by simp, rfl, fun hw => ⟨hw.bound, rfl⟩⟩
  | replaceBufferText request _ _ _ =>
    obtain ⟨hc, hfits, -⟩ := (prepareBufferTextEdit_ok h hok).committable h.clean
    exact ⟨hc.start, hc.aligned, fun _ => hfits⟩

/-- The edit of the lines that an operation makes, none when it is refused. -/
def edits (op : RecordedOp) (self : BufferState) : List (Edit Line) :=
  match op.prepared self with
  | .ok edit => if Writable edit.edit self.text.lines then [edit.edit] else []
  | .error _ => []

/-- An operation is refused without effect, or commits an edit that fits. -/
theorem run_cases (h : self.text.WellFormed) (op : RecordedOp) :
    (op.edits self = [] ∧ ∃ e, op.run self = .error e self) ∨
      ∃ edit, op.edits self = [edit.edit] ∧ Committable edit self.text.lines ∧
        edit.edit.Fits self.text.lines ∧ op.prepared self = .ok edit ∧
        op.run self = BufferState.commitRecordedSplice edit op.cursorBefore op.cursorAfter
          op.timestamp self := by
  rw [run_eq]
  unfold edits
  cases hprepared : op.prepared self with
  | error e => exact .inl ⟨rfl, e, rfl⟩
  | ok edit =>
    obtain ⟨hstart, haligned, hfits⟩ := prepared_ok h hprepared
    by_cases hw : Writable edit.edit self.text.lines
    · exact .inr ⟨edit, if_pos hw, ⟨hstart, haligned, hw⟩, hfits hw, rfl, rfl⟩
    · obtain ⟨e, hrun⟩ := BufferState.commitRecordedSplice_error h hstart hw
      exact .inl ⟨if_neg hw, _, hrun⟩

end RecordedOp

/-! ## Edited states -/

/-- The edits have been made and reported, in this order. -/
structure Edited (s : BufferState) (edits : List (Edit Line)) (s' : BufferState) : Prop where
  wellFormed : s'.text.WellFormed
  lines : s'.text.lines = applyEdits [] edits s.text.lines
  events : ∃ events, s'.pendingBytes = s.pendingBytes ++ events ∧
    List.Forall₂ Reports events edits

namespace Edited

variable {s s' s'' : BufferState} {es fs : List (Edit Line)}

theorem refl (h : s.text.WellFormed) : Edited s [] s :=
  ⟨h, rfl, [], by simp, .nil⟩

theorem trans (h : Edited s es s') (h' : Edited s' fs s'') :
    Edited s (es ++ fs) s'' := by
  obtain ⟨evs, hevs, hreports⟩ := h.events
  obtain ⟨evs', hevs', hreports'⟩ := h'.events
  refine ⟨h'.wellFormed, ?_, evs ++ evs', ?_, List.rel_append hreports hreports'⟩
  · rw [h'.lines, h.lines, applyEdits_append]
  · rw [hevs', hevs, List.append_assoc]

/-- Only text and pending events matter. -/
theorem congr {s₁ : BufferState} (h : Edited s es s')
    (htext : s₁.text = s'.text) (hevents : s₁.pendingBytes = s'.pendingBytes) :
    Edited s es s₁ :=
  ⟨htext ▸ h.wellFormed, htext ▸ h.lines, hevents ▸ h.events⟩

theorem congr_left {s₁ : BufferState} (h : Edited s es s')
    (htext : s₁.text = s.text) (hevents : s₁.pendingBytes = s.pendingBytes) :
    Edited s₁ es s' :=
  ⟨h.wellFormed, htext ▸ h.lines, hevents ▸ h.events⟩

theorem of_wrote {e : Edit Line} {b : Buffer} {event : BufferBytesEvent}
    (hwrote : Wrote e s.text b) (hreports : Reports event e) (htext : s'.text = b)
    (hevents : s'.pendingBytes = s.pendingBytes ++ [event]) : Edited s [e] s' := by
  refine ⟨htext ▸ hwrote.wellFormed, ?_, [event], hevents, .cons hreports .nil⟩
  rw [htext, hwrote.lines]
  rfl

end Edited

end Oxvim.Editor
