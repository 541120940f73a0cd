import Oxvim.Editor.BufferOps
import Oxvim.Editor.ExtmarkGeometry
import Oxvim.Lib.LinePositions

/-!
# Marks follow the text through byte edits

A byte edit composes new lines, and a splice computes where positions go. Both are about the same
bytes: a position before the edit keeps its distance from the beginning of the text, one behind it
keeps its distance from the end.
-/

namespace Oxvim.Editor

open Lib Lines Text

/-! ## The composed lines -/

section

variable {before replacement : List Line} {startColumn endColumn : Nat}

/-- The first composed line begins with what was before the edit. -/
theorem compose_head (before : List Line) (startColumn endColumn : Nat) (h : replacement ≠ []) :
    ∃ rest lines, composeReplacementLines before startColumn endColumn replacement
      = ((before.headD []).take startColumn ++ rest) :: lines := by
  rcases replacement with _ | ⟨first, _ | ⟨second, others⟩⟩
  · exact absurd rfl h
  · exact ⟨first ++ (before.getLastD []).drop endColumn, [], by
      rw [composeReplacementLines, List.append_assoc]⟩
  · exact ⟨first, _, rfl⟩

/-- The column at which the replacement ends in the last composed line. -/
def endColumnOf (startColumn : Nat) : List Line → Nat
  | [line] => startColumn + line.length
  | replacement => (replacement.getLastD []).length

/-- The last composed line ends with what was behind the edit. -/
theorem compose_last (endColumn : Nat) (h : replacement ≠ [])
    (hcolumn : startColumn ≤ (before.headD []).length) :
    ∃ lines line, composeReplacementLines before startColumn endColumn replacement
        = lines ++ [line ++ (before.getLastD []).drop endColumn] ∧
      lines.length + 1 = replacement.length ∧
      line.length = endColumnOf startColumn replacement := by
  rcases replacement with _ | ⟨first, _ | ⟨second, others⟩⟩
  · exact absurd rfl h
  · refine ⟨[], (before.headD []).take startColumn ++ first, rfl, rfl, ?_⟩
    rw [List.length_append, List.length_take, Nat.min_eq_left hcolumn]
    rfl
  · refine ⟨((before.headD []).take startColumn ++ first) :: (second :: others).dropLast,
      (second :: others).getLastD [], rfl, ?_, rfl⟩
    simp

end

/-! ## The splice of a byte edit -/

namespace TextSplice

variable {start stop p : ExtmarkPosition} {replacement : List Line} {g : ExtmarkGravity}

theorem oldEnd_fromByteEdit (h : start ≤ stop) (hrow : stop.row ≤ usizeMax)
    (hcolumn : stop.column ≤ usizeMax) : (fromByteEdit start stop replacement).oldEnd = stop := by
  rw [RowCol.le_iff] at h
  show extentEnd start (if start.row = stop.row then ⟨0, stop.column - start.column⟩
    else ⟨stop.row - start.row, stop.column⟩) = stop
  by_cases hsame : start.row = stop.row
  · have hle : start.column ≤ stop.column := by omega
    rw [if_pos hsame, extentEnd, if_pos rfl, satAdd_eq (by dsimp only; omega)]
    dsimp only
    rw [Nat.add_sub_cancel' hle, hsame]
  · rw [if_neg hsame, extentEnd, if_neg (by dsimp only; omega),
      satAdd_eq (by dsimp only; omega)]
    dsimp only
    rw [Nat.add_sub_cancel' (by omega)]

theorem newEnd_fromByteEdit (h : replacement ≠ [])
    (hrow : start.row + (replacement.length - 1) ≤ usizeMax)
    (hcolumn : endColumnOf start.column replacement ≤ usizeMax) :
    (fromByteEdit start stop replacement).newEnd
      = ⟨start.row + (replacement.length - 1), endColumnOf start.column replacement⟩ := by
  rcases replacement with _ | ⟨first, _ | ⟨second, others⟩⟩
  · exact absurd rfl h
  · show extentEnd start ⟨0, first.length⟩ = _
    rw [extentEnd, if_pos rfl, satAdd_eq hcolumn]
    rfl
  · show extentEnd start
      ⟨others.length + 1, ((second :: others).getLast?.map (·.length)).getD 0⟩ = _
    have hrow' : start.row + (others.length + 1) ≤ usizeMax := hrow
    have hlast : endColumnOf start.column (first :: second :: others)
        = ((second :: others).getLast?.map (·.length)).getD 0 := by
      show ((first :: second :: others).getLastD []).length = _
      rw [List.getLastD_eq_getLast?, List.getLast?_cons_cons]
      cases (second :: others).getLast? <;> rfl
    rw [extentEnd, if_neg (Nat.succ_ne_zero _), satAdd_eq hrow', hlast]
    rfl

/-- A position behind the replaced bytes is shifted. -/
theorem transform_shift {sp : TextSplice} (hordered : sp.start ≤ sp.oldEnd) (h : sp.oldEnd < p)
    (hrow : sp.newEnd.row + (p.row - sp.oldEnd.row) ≤ usizeMax)
    (hcolumn : p.row = sp.oldEnd.row →
      sp.newEnd.column + (p.column - sp.oldEnd.column) ≤ usizeMax) :
    sp.transform g p =
      if p.row = sp.oldEnd.row then
        ⟨sp.newEnd.row, sp.newEnd.column + (p.column - sp.oldEnd.column)⟩
      else ⟨sp.newEnd.row + (p.row - sp.oldEnd.row), p.column⟩ := by
  have hstart := hordered.trans_lt h
  rw [transform_eq, if_neg (not_lt.mpr hstart.le), if_neg fun heq => hstart.ne' heq.2,
    if_neg fun hle => not_le.mpr h hle.2]
  by_cases hsame : p.row = sp.oldEnd.row
  · rw [if_pos hsame, if_pos hsame, satAdd_eq (hcolumn hsame)]
  · rw [if_neg hsame, if_neg hsame, satAdd_eq hrow]

end TextSplice

/-! ## Marks and bytes -/

/-- Lines whose number and lengths are machine sizes. -/
structure Addressable (lines : List Line) : Prop where
  rows : lines.length ≤ usizeMax
  columns : ∀ line ∈ lines, line.length ≤ usizeMax

variable {request : BufferTextEditRequest} {lines : List Line} {edit : PreparedBufferTextEdit}
  {p : ExtmarkPosition}

theorem BufferTextEditRequest.lines_ne_nil (request : BufferTextEditRequest) :
    request.lines ≠ [] := by
  rw [BufferTextEditRequest.lines]
  by_cases hempty : request.replacement.isEmpty = true
  · rw [if_pos hempty]
    exact List.cons_ne_nil _ _
  · rw [if_neg hempty]
    exact fun hnil => hempty (List.isEmpty_iff.mpr hnil)

theorem Prepared.start_le_stop (h : Prepared request lines edit) :
    request.start ≤ request.stop := by
  have hrows := h.rows
  have hcolumns := h.columns
  rw [RowCol.le_iff]
  omega

/-- The text around an edit: its rows are `lines.take start.row`, the composed lines, and the lines
behind the last replaced row. -/
theorem Prepared.spliced_eq (h : Prepared request lines edit) :
    edit.edit.spliced lines = lines.take request.start.row ++
      composeReplacementLines
        (slice lines request.start.row (request.stop.row + 1 - request.start.row))
        request.start.column request.stop.column request.lines ++
      lines.drop (request.stop.row + 1) := by
  have hrows := h.rows
  have hbound := h.bound
  have hlen : (slice lines request.start.row (request.stop.row + 1 - request.start.row)).length
      = request.stop.row + 1 - request.start.row := length_slice (by omega)
  have hrow : request.start.row + (request.stop.row + 1 - request.start.row)
      = request.stop.row + 1 := by omega
  rw [Edit.spliced, h.eq]
  show splice lines request.start.row (slice _ _ _).length _ = _
  rw [hlen, splice, hrow]
  rfl

theorem Prepared.first (h : Prepared request lines edit) :
    (slice lines request.start.row (request.stop.row + 1 - request.start.row)).headD []
      = lines.getD request.start.row [] := by
  have hrows := h.rows
  have hbound := h.bound
  exact headD_slice (by omega) (by omega)

theorem Prepared.last (h : Prepared request lines edit) :
    (slice lines request.start.row (request.stop.row + 1 - request.start.row)).getLastD []
      = lines.getD request.stop.row [] := by
  have hrows := h.rows
  have hbound := h.bound
  have hrow : request.start.row + (request.stop.row + 1 - request.start.row) - 1
      = request.stop.row := by omega
  rw [getLastD_slice (by omega) (by omega), hrow]

/-- A position before the edit stays where it is, and so do the bytes before it. -/
theorem Prepared.before_edit (h : Prepared request lines edit) (hp : Inside lines p)
    (hbefore : p < request.start) :
    Inside (edit.edit.spliced lines) p ∧ unitAt (edit.edit.spliced lines) p = unitAt lines p ∧
      unitsBefore (edit.edit.spliced lines) p = unitsBefore lines p := by
  have hbound : request.start.row < lines.length := Nat.lt_of_le_of_lt h.rows h.bound
  have hlen : (lines.take request.start.row).length = request.start.row :=
    List.length_take_of_le hbound.le
  obtain ⟨rest, others, hhead⟩ := compose_head
    (slice lines request.start.row (request.stop.row + 1 - request.start.row)) request.start.column
    request.stop.column request.lines_ne_nil
  rw [h.first] at hhead
  obtain ⟨line, hline, hcolumn⟩ := hp
  rw [RowCol.lt_iff] at hbefore
  rw [h.spliced_eq, hhead, List.append_assoc]
  have hoffset : unitsBefore (lines.take request.start.row ++
      (((lines.getD request.start.row []).take request.start.column ++ rest) :: others ++
        lines.drop (request.stop.row + 1))) p = unitsBefore lines p := by
    rw [unitsBefore_append_left (by omega), unitsBefore, unitsBefore, List.take_take,
      Nat.min_eq_left (by omega)]
  rcases hbefore with hrow | ⟨hrow, hcol⟩
  · -- the row is not replaced
    have hsame : (lines.take request.start.row ++
        (((lines.getD request.start.row []).take request.start.column ++ rest) :: others ++
          lines.drop (request.stop.row + 1)))[p.row]? = lines[p.row]? := by
      rw [List.getElem?_append_left (by omega), List.getElem?_take_of_lt hrow]
    exact ⟨⟨line, hsame.trans hline, hcolumn⟩, by rw [unitAt, hsame, unitAt], hoffset⟩
  · -- the row is the first one of the edit, which keeps its beginning
    have hfirst : lines.getD request.start.row [] = line := by
      rw [List.getD_eq_getElem?_getD, ← hrow, hline, Option.getD_some]
    have hnew : (lines.take request.start.row ++
        (((lines.getD request.start.row []).take request.start.column ++ rest) :: others ++
          lines.drop (request.stop.row + 1)))[p.row]?
        = some (line.take request.start.column ++ rest) := by
      rw [List.getElem?_append_right (by omega), hlen, hrow, Nat.sub_self, hfirst]
      rfl
    have hstart := h.startColumn
    rw [hfirst] at hstart
    have hlength : (line.take request.start.column).length = request.start.column :=
      List.length_take_of_le hstart
    refine ⟨⟨_, hnew, ?_⟩, ?_, hoffset⟩
    · rw [List.length_append]
      omega
    · rw [unitAt, hnew, unitAt, hline, Option.bind_some, Option.bind_some,
        List.getElem?_append_left (by omega), List.getElem?_take_of_lt hcol]

/-- A position behind the edit is shifted with the bytes from it on. -/
theorem Prepared.after_edit (h : Prepared request lines edit) (hp : Inside lines p)
    (hafter : request.stop < p) (hold : Addressable lines)
    (hnew : Addressable (edit.edit.spliced lines)) (g : ExtmarkGravity) :
    Inside (edit.edit.spliced lines) (edit.splice.transform g p) ∧
      unitAt (edit.edit.spliced lines) (edit.splice.transform g p) = unitAt lines p ∧
      size (edit.edit.spliced lines)
          - unitsBefore (edit.edit.spliced lines) (edit.splice.transform g p)
        = size lines - unitsBefore lines p := by
  have hrows := h.rows
  have hbound := h.bound
  have hlen : (lines.take request.start.row).length = request.start.row :=
    List.length_take_of_le (by omega)
  obtain ⟨leading, ending, hcompose, hcount, hending⟩ := compose_last request.stop.column
    request.lines_ne_nil (h.first.symm ▸ h.startColumn)
  rw [h.last] at hcompose
  obtain ⟨line, hline, hcolumn⟩ := hp
  have hsplit := h.spliced_eq
  rw [hcompose] at hsplit
  -- the rows up to the one the replacement ends in
  obtain ⟨upper, hupper⟩ : ∃ upper, upper = lines.take request.start.row ++ leading := ⟨_, rfl⟩
  have hupperLength : upper.length = request.start.row + (request.lines.length - 1) := by
    rw [hupper, List.length_append, hlen]
    omega
  have htext : edit.edit.spliced lines = upper ++
      (ending ++ (lines.getD request.stop.row []).drop request.stop.column) ::
        lines.drop (request.stop.row + 1) := by
    rw [hsplit, hupper, ← List.append_assoc, List.append_assoc _ [_]]
    rfl
  have hlast : ∀ l, lines[request.stop.row]? = some l → lines.getD request.stop.row [] = l := by
    intro l hl
    rw [List.getD_eq_getElem?_getD, hl, Option.getD_some]
  have hmem : ending ++ (lines.getD request.stop.row []).drop request.stop.column
      ∈ edit.edit.spliced lines := by
    rw [htext]
    exact List.mem_append_right _ (List.mem_cons_self ..)
  have hwidth := hnew.columns _ hmem
  have hheight := hnew.rows
  rw [htext, List.length_append, List.length_cons, List.length_drop] at hheight
  rw [List.length_append, List.length_drop] at hwidth
  have hprow : p.row < lines.length := (List.getElem?_eq_some_iff.mp hline).1
  have hstopColumn := h.stopColumn
  have hstopMem : lines.getD request.stop.row [] ∈ lines := by
    rw [List.getD_eq_getElem _ _ hbound]
    exact List.getElem_mem hbound
  have hstopFits := hold.columns _ hstopMem
  have hrowsFit := hold.rows
  -- the splice ends where the replacement does
  have holdEnd : edit.splice.oldEnd = request.stop := by
    rw [h.eq]
    exact TextSplice.oldEnd_fromByteEdit h.start_le_stop (by omega) (by omega)
  have hnewEnd : edit.splice.newEnd = ⟨upper.length, ending.length⟩ := by
    rw [h.eq, hupperLength, hending]
    exact TextSplice.newEnd_fromByteEdit request.lines_ne_nil (by omega) (by omega)
  have hordered : edit.splice.start ≤ edit.splice.oldEnd := by
    rw [holdEnd, h.eq]
    exact h.start_le_stop
  have hrowFits : edit.splice.newEnd.row + (p.row - edit.splice.oldEnd.row) ≤ usizeMax := by
    rw [hnewEnd, holdEnd]
    dsimp only
    omega
  have hcolumnFits : p.row = edit.splice.oldEnd.row →
      edit.splice.newEnd.column + (p.column - edit.splice.oldEnd.column) ≤ usizeMax := by
    intro hsame
    rw [holdEnd] at hsame
    have hthis := hlast line (hsame ▸ hline)
    rw [hthis] at hwidth hstopColumn
    rw [hnewEnd, holdEnd]
    dsimp only
    omega
  have htransform := TextSplice.transform_shift (g := g) hordered (holdEnd.symm ▸ hafter) hrowFits
    hcolumnFits
  rw [RowCol.lt_iff] at hafter
  rw [htransform, holdEnd, hnewEnd, size_sub_unitsBefore, size_sub_unitsBefore, htext]
  rcases hafter with hrow | ⟨hrow, hcol⟩
  · -- the row is behind the edit
    have hne : ¬p.row = request.stop.row := by omega
    rw [if_neg hne]
    dsimp only
    have hdrop : (upper ++ (ending ++ (lines.getD request.stop.row []).drop request.stop.column) ::
        lines.drop (request.stop.row + 1)).drop (upper.length + (p.row - request.stop.row))
        = lines.drop p.row := by
      have hback : p.row - request.stop.row = p.row - (request.stop.row + 1) + 1 := by omega
      have hforth : request.stop.row + 1 + (p.row - (request.stop.row + 1)) = p.row := by omega
      rw [List.drop_append, List.drop_eq_nil_of_le (Nat.le_add_right _ _), Nat.add_sub_cancel_left,
        List.nil_append, hback, List.drop_succ_cons, List.drop_drop, hforth]
    have hrowAt : (upper ++ (ending ++ (lines.getD request.stop.row []).drop request.stop.column) ::
        lines.drop (request.stop.row + 1))[upper.length + (p.row - request.stop.row)]?
        = lines[p.row]? := by
      have hhead := congrArg List.head? hdrop
      rwa [List.head?_drop, List.head?_drop] at hhead
    refine ⟨⟨line, hrowAt.trans hline, hcolumn⟩, ?_, by rw [hdrop]⟩
    rw [unitAt, unitAt, hrowAt]
  · -- the row is the last one of the edit, which keeps its end
    have hthis := hlast line (hrow ▸ hline)
    rw [if_pos hrow.symm, hthis]
    have hdrop : (upper ++ (ending ++ line.drop request.stop.column) ::
        lines.drop (request.stop.row + 1)).drop upper.length
        = (ending ++ line.drop request.stop.column) :: lines.drop (request.stop.row + 1) :=
      List.drop_append_length
    have hrowAt : (upper ++ (ending ++ line.drop request.stop.column) ::
        lines.drop (request.stop.row + 1))[upper.length]?
        = some (ending ++ line.drop request.stop.column) := by
      rw [List.getElem?_append_right (Nat.le_refl _), Nat.sub_self]
      rfl
    have hold : lines.drop p.row = line :: lines.drop (request.stop.row + 1) := by
      obtain ⟨hlt, hget⟩ := List.getElem?_eq_some_iff.mp hline
      rw [List.drop_eq_getElem_cons hlt, hget, hrow]
    refine ⟨⟨_, hrowAt, ?_⟩, ?_, ?_⟩
    · dsimp only
      rw [List.length_append, List.length_drop]
      omega
    · have hback : request.stop.column + (p.column - request.stop.column) = p.column := by omega
      rw [unitAt, unitAt, hrowAt, hline, Option.bind_some, Option.bind_some,
        List.getElem?_append_right (Nat.le_add_right _ _), Nat.add_sub_cancel_left,
        List.getElem?_drop, hback]
    · dsimp only
      rw [hdrop, hold, size_cons, size_cons, List.length_append, List.length_drop]
      omega

/-- A mark before a byte edit stays at its distance from the beginning of the text, and one behind
it at its distance from the end: it points at the same byte of the lines that the edit composes. -/
theorem marks_follow_text {s : BufferState} (hs : s.text.WellFormed)
    (hedit : s.prepareBufferTextEdit request = .ok edit) (hold : Addressable s.text.lines)
    (hnew : Addressable (edit.edit.spliced s.text.lines)) (hp : Inside s.text.lines p)
    (g : ExtmarkGravity) :
    (p < request.start →
      Inside (edit.edit.spliced s.text.lines) (edit.splice.transform g p) ∧
      unitAt (edit.edit.spliced s.text.lines) (edit.splice.transform g p)
        = unitAt s.text.lines p ∧
      unitsBefore (edit.edit.spliced s.text.lines) (edit.splice.transform g p)
        = unitsBefore s.text.lines p) ∧
    (request.stop < p →
      Inside (edit.edit.spliced s.text.lines) (edit.splice.transform g p) ∧
      unitAt (edit.edit.spliced s.text.lines) (edit.splice.transform g p)
        = unitAt s.text.lines p ∧
      size (edit.edit.spliced s.text.lines)
          - unitsBefore (edit.edit.spliced s.text.lines) (edit.splice.transform g p)
        = size s.text.lines - unitsBefore s.text.lines p) := by
  have hprepared := prepareBufferTextEdit_ok hs hedit
  constructor
  · intro hbefore
    have hkeep : edit.splice.transform g p = p := by
      refine TextSplice.transform_before ?_
      rw [hprepared.eq]
      exact hbefore
    rw [hkeep]
    exact hprepared.before_edit hp hbefore
  · intro hafter
    exact hprepared.after_edit hp hafter hold hnew g

/-- Two lines are joined, and a mark behind the join moves along. -/
theorem marks_follow_text_join :
    ∃ (s : BufferState) (edit : PreparedBufferTextEdit),
      s.prepareBufferTextEdit ⟨⟨0, 1⟩, ⟨1, 0⟩, [[120, 121]]⟩ = .ok edit ∧
      edit.splice.transform .left ⟨1, 1⟩ = ⟨0, 4⟩ ∧
      size (edit.edit.spliced s.text.lines) - unitsBefore (edit.edit.spliced s.text.lines) ⟨0, 4⟩
        = size s.text.lines - unitsBefore s.text.lines ⟨1, 1⟩ := by
  let text : Buffer := ⟨⟨['a', '\n', 'b']⟩, false, 0⟩
  let s := BufferState.new text true
  have hs : s.text.WellFormed := by
    obtain ⟨b, hb, hwell, -⟩ := @Buffer.exists_fromLines [[97], [98]] (by decide) false
    have htext : Buffer.fromLines [[97], [98]] false = .ok text := by decide
    rw [htext] at hb
    cases hb
    exact hwell
  have hlines : s.text.lines = [[97], [98]] := by decide
  let edit : PreparedBufferTextEdit :=
    { startLine := 1
      before := [[97], [98]]
      after := [[97, 120, 121, 98]]
      splice := .fromByteEdit ⟨0, 1⟩ ⟨1, 0⟩ [[120, 121]] }
  have hedit : s.prepareBufferTextEdit ⟨⟨0, 1⟩, ⟨1, 0⟩, [[120, 121]]⟩ = .ok edit := by rfl
  have hold : Addressable s.text.lines := by
    rw [hlines]
    exact ⟨by decide, by decide⟩
  have hnew : Addressable (edit.edit.spliced s.text.lines) := by
    rw [hlines]
    exact ⟨by decide, by decide⟩
  have hmoved : edit.splice.transform .left ⟨1, 1⟩ = ⟨0, 4⟩ := by decide
  have hinside : Inside s.text.lines ⟨1, 1⟩ := by
    rw [hlines]
    exact ⟨[98], rfl, by decide⟩
  obtain ⟨-, -, hdistance⟩ := (marks_follow_text hs hedit hold hnew hinside .left).2 (by decide)
  rw [hmoved] at hdistance
  exact ⟨s, edit, hedit, hmoved, hdistance⟩

end Oxvim.Editor
