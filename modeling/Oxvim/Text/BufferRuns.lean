import Oxvim.Text.BufferRefine

/-!
# Runs of buffer edits

Runs of edits on a buffer, beside the same run on the line model. `LineModel.apply` says what an
edit means for a list of lines, and that an invalid edit means nothing; `BufferOp.run` is the
buffer's own method.

The edits of a batch are given against the pre-edit line map but applied bottom-up; `batchLines`
says what a batch means, all splices at once.
-/

namespace Oxvim.Text

open Lib EState

/-! ## Batches -/

/-- Replaces the lines of every splice in `rest`, which begins behind line `pos`. -/
def batchLines (pos : Nat) (rest : List Line) : List LineSplice → List Line
  | [] => rest
  | s :: ss =>
    rest.take (s.start - 1 - pos) ++ s.lines ++ batchLines s.stop (rest.drop (s.stop - pos)) ss

/-- The splices are valid against `count` lines, ascend and do not touch; all start behind line
`pos`. -/
def BatchValid (count pos : Nat) : List LineSplice → Prop
  | [] => True
  | s :: ss =>
    pos < s.start ∧ s.start ≤ s.stop ∧ s.stop ≤ count ∧ (∀ l ∈ s.lines, CleanLine l) ∧
      BatchValid count s.stop ss

instance decidableBatchValid (count pos : Nat) :
    (ss : List LineSplice) → Decidable (BatchValid count pos ss)
  | [] => inferInstanceAs (Decidable True)
  | s :: ss =>
    have := decidableBatchValid count s.stop ss
    inferInstanceAs (Decidable (_ ∧ _ ∧ _ ∧ _ ∧ BatchValid count s.stop ss))

theorem mem_batchLines {count pos : Nat} {ss : List LineSplice} (h : BatchValid count pos ss)
    {rest : List Line} (hrest : ∀ l ∈ rest, CleanLine l) :
    ∀ l ∈ batchLines pos rest ss, CleanLine l := by
  induction ss generalizing pos rest with
  | nil => exact hrest
  | cons s ss ih =>
    obtain ⟨_, _, _, hlines, hss⟩ := h
    intro l hl
    rw [batchLines, List.mem_append, List.mem_append] at hl
    rcases hl with (hl | hl) | hl
    · exact hrest l (List.mem_of_mem_take hl)
    · exact hlines l hl
    · exact ih hss (fun l hl => hrest l (List.mem_of_mem_drop hl)) l hl

/-- The check of a batch accepts exactly the valid ones; `pos` is the end of the previous splice,
or zero for none. -/
theorem checkSplices_ok_iff {b : Buffer} {m : LineModel} (h : Represents b m) (prev : Option Nat)
    (ss : List LineSplice) :
    b.checkSplices prev ss = .ok () ↔ BatchValid m.lines.length (prev.getD 0) ss := by
  induction ss generalizing prev with
  | nil => simp [Buffer.checkSplices, BatchValid]
  | cons s ss ih =>
    unfold Buffer.checkSplices BatchValid
    rw [checkRange_eq h]
    by_cases hrange : 1 ≤ s.start ∧ s.start ≤ s.stop ∧ s.stop ≤ m.lines.length
    · rw [if_pos hrange]
      by_cases hclean : ∀ l ∈ s.lines, CleanLine l
      · rw [validateLines_ok_iff.mpr hclean]
        show (if (prev.any fun prev => decide (s.start ≤ prev)) = true then _ else _) = _ ↔ _
        cases prev with
        | none =>
          rw [Option.any_none, if_neg Bool.false_ne_true, ih]
          exact ⟨fun hss => ⟨hrange.1, hrange.2.1, hrange.2.2, hclean, hss⟩, fun h => h.2.2.2.2⟩
        | some p =>
          rw [Option.any_some]
          by_cases hp : s.start ≤ p
          · rw [if_pos (decide_eq_true hp)]
            exact ⟨nofun, fun hvalid => absurd hvalid.1 (Nat.not_lt.mpr hp)⟩
          · rw [if_neg (by simpa using hp), ih]
            exact ⟨fun hss => ⟨Nat.lt_of_not_le hp, hrange.2.1, hrange.2.2, hclean, hss⟩,
              fun h => h.2.2.2.2⟩
      · obtain ⟨e, he⟩ := validateLines_error hclean
        rw [he]
        exact ⟨nofun, fun hvalid => absurd hvalid.2.2.2.1 hclean⟩
    · rw [if_neg hrange]
      exact ⟨nofun, fun hvalid => absurd ⟨by omega, hvalid.2.1, hvalid.2.2.1⟩ hrange⟩

theorem spliceSpans_append (ss ts : List LineSplice) (b : Buffer) :
    Buffer.spliceSpans (ss ++ ts) b
      = (do Buffer.spliceSpans ss; Buffer.spliceSpans ts : EStateM BufferError Buffer Unit) b := by
  induction ss generalizing b with
  | nil => rfl
  | cons s ss ih =>
    simp only [List.cons_append, Buffer.spliceSpans, bind_run]
    cases Buffer.spliceSpan s.start s.stop s.lines b with
    | ok _ b' => exact ih b'
    | error _ _ => rfl

/-- Bottom-up, a batch turns the lines behind `pos` into `batchLines` and does not see the others.
The induction applies the splices behind the first one first, as the code does. -/
theorem spliceSpans_represents {b : Buffer} {m : LineModel} (h : Represents b m) {pos : Nat}
    {ss : List LineSplice} (hvalid : BatchValid m.lines.length pos ss) :
    ∃ b' hclean, Buffer.spliceSpans ss.reverse b = .ok () b' ∧
      Represents b' (m.withLines (m.lines.take pos ++ batchLines pos (m.lines.drop pos) ss)
        hclean) ∧
      b'.changedtick = b.changedtick := by
  induction ss generalizing pos with
  | nil =>
    have hlines : m.lines.take pos ++ batchLines pos (m.lines.drop pos) [] = m.lines :=
      List.take_append_drop ..
    refine ⟨b, by rw [hlines]; exact m.clean, rfl, ?_, rfl⟩
    rw [LineModel.withLines_congr m.clean hlines, LineModel.withLines_of_ne_nil _ m.nonempty]
    exact h
  | cons s ss ih =>
    obtain ⟨hpos, hle, hstop, hlines, hss⟩ := hvalid
    obtain ⟨b₁, hclean₁, hrun₁, hrep₁, htick₁⟩ := ih hss
    let below := batchLines s.stop (m.lines.drop s.stop) ss
    have hlen : (m.lines.take s.stop).length = s.stop := List.length_take_of_le hstop
    have hne : m.lines.take s.stop ++ below ≠ [] := by
      apply List.ne_nil_of_length_pos
      rw [List.length_append, hlen]
      omega
    rw [LineModel.withLines_of_ne_nil hclean₁ hne] at hrep₁
    obtain ⟨b₂, hrun₂, hrep₂, htick₂⟩ := spliceSpan_represents hrep₁ (by omega) hle
      (by simp only [List.length_append, hlen]; omega) hlines
    -- the first splice replaces lines that the others left in place
    have hspliced : Lib.splice (m.lines.take s.stop ++ below) (s.start - 1) (s.stop + 1 - s.start)
          s.lines
        = m.lines.take pos ++ batchLines pos (m.lines.drop pos) (s :: ss) := by
      have hcut : s.start - 1 + (s.stop + 1 - s.start) = s.stop := by omega
      have hfront : m.lines.take pos ++ (m.lines.drop pos).take (s.start - 1 - pos)
          = m.lines.take (s.start - 1) := by
        rw [← List.take_add, Nat.add_sub_cancel' (by omega)]
      have hback : (m.lines.drop pos).drop (s.stop - pos) = m.lines.drop s.stop := by
        rw [List.drop_drop, Nat.add_sub_cancel' (by omega)]
      rw [batchLines, hback, ← List.append_assoc, ← List.append_assoc, hfront, Lib.splice, hcut,
        List.take_append_of_le_length (by omega), List.take_take, Nat.min_eq_left (by omega),
        List.drop_left' hlen]
    have hclean₂ : ∀ l ∈ m.lines.take pos ++ batchLines pos (m.lines.drop pos) (s :: ss),
        CleanLine l := by
      rw [← hspliced]
      exact fun l hl => (mem_splice hl).elim (hclean₁ l) (hlines l)
    refine ⟨b₂, hclean₂, ?_, ?_, htick₂.trans htick₁⟩
    · rw [List.reverse_cons, spliceSpans_append, bind_ok hrun₁, Buffer.spliceSpans, bind_ok hrun₂]
      rfl
    · rw [LineModel.splice, LineModel.withLines_congr hclean₂ hspliced] at hrep₂
      exact hrep₂

/-- A valid `replace_lines_disjoint` replaces the lines of all its splices at once. -/
theorem replaceLinesDisjoint_represents {b : Buffer} {m : LineModel} (h : Represents b m)
    {splices : List LineSplice} (hvalid : BatchValid m.lines.length 0 splices) :
    ∃ b', Buffer.replaceLinesDisjoint splices b = .ok () b' ∧
      Represents b' (m.withLines (batchLines 0 m.lines splices) (mem_batchLines hvalid m.clean)) ∧
      b'.changedtick = if splices.isEmpty then b.changedtick else b.changedtick + 1 := by
  obtain ⟨b', hclean, hrun, hrep, htick⟩ := spliceSpans_represents h hvalid
  have hcheck := (checkSplices_ok_iff h none splices).mpr hvalid
  have hrun' : Buffer.replaceLinesDisjoint splices b = .ok () { b' with
      changedtick := if splices.isEmpty then b.changedtick else b.changedtick + 1 } := by
    unfold Buffer.replaceLinesDisjoint
    rw [bind_ok (get_run b), hcheck, bind_ok (ofExcept_ok_run _ b), bind_ok hrun, ← htick]
    cases splices.isEmpty <;> rfl
  exact ⟨_, hrun', hrep.withTick _, rfl⟩

/-- A rejected `replace_lines_disjoint` leaves the buffer as it was. -/
theorem replaceLinesDisjoint_error {b : Buffer} {m : LineModel} (h : Represents b m)
    {splices : List LineSplice} (hbad : ¬ BatchValid m.lines.length 0 splices) :
    ∃ e, Buffer.replaceLinesDisjoint splices b = .error e b := by
  cases hcheck : b.checkSplices none splices with
  | ok u => exact absurd ((checkSplices_ok_iff h none splices).mp hcheck) hbad
  | error e =>
    refine ⟨e, ?_⟩
    unfold Buffer.replaceLinesDisjoint
    rw [bind_ok (get_run b), hcheck]
    rfl

/-! ## Edits -/

/-- An edit of a buffer. -/
inductive BufferOp where
  | replaceLines (start stop : Nat) (lines : List Line)
  | replaceLinesDisjoint (splices : List LineSplice)
  | appendLines (lnum : Nat) (lines : List Line)
  | deleteLines (start stop : Nat)
  | setEol (hasEol : Bool)

namespace BufferOp

/-- The buffer's method. -/
def run : BufferOp → EStateM BufferError Buffer Unit
  | replaceLines start stop lines => Buffer.replaceLines start stop lines
  | replaceLinesDisjoint splices => Buffer.replaceLinesDisjoint splices
  | appendLines lnum lines => Buffer.appendLines lnum lines
  | deleteLines start stop => Buffer.deleteLines start stop
  | setEol hasEol => modify (·.setEol hasEol)

end BufferOp

namespace LineModel

/-- What an edit means: a splice of the list of lines, or a new end-of-line state. An invalid edit
has no meaning. -/
def apply (m : LineModel) : BufferOp → Option LineModel
  | .replaceLines start stop lines =>
    if h : 1 ≤ start ∧ start ≤ stop ∧ stop ≤ m.lines.length ∧ ∀ l ∈ lines, CleanLine l then
      some (m.splice (start - 1) (stop + 1 - start) lines h.2.2.2)
    else none
  | .replaceLinesDisjoint splices =>
    if h : BatchValid m.lines.length 0 splices then
      some (m.withLines (batchLines 0 m.lines splices) (mem_batchLines h m.clean))
    else none
  | .appendLines lnum lines =>
    if h : lnum ≤ m.lines.length ∧ ∀ l ∈ lines, CleanLine l then
      some (m.splice lnum 0 lines h.2)
    else none
  | .deleteLines start stop =>
    if 1 ≤ start ∧ start ≤ stop ∧ stop ≤ m.lines.length then
      some (m.splice (start - 1) (stop + 1 - start) [] (by simp))
    else none
  | .setEol hasEol => some (m.withEol hasEol)

end LineModel

/-- The model's edit is defined exactly when the buffer's method succeeds, and is what it does; a
method that fails leaves the buffer as it was. -/
theorem BufferOp.run_represents {b : Buffer} {m : LineModel} (h : Represents b m) (op : BufferOp) :
    match m.apply op with
    | some m' => ∃ b', op.run b = .ok () b' ∧ Represents b' m'
    | none => ∃ e, op.run b = .error e b := by
  cases op with
  | replaceLines start stop lines =>
    simp only [LineModel.apply]
    by_cases hvalid : 1 ≤ start ∧ start ≤ stop ∧ stop ≤ m.lines.length ∧ ∀ l ∈ lines, CleanLine l
    · rw [dif_pos hvalid]
      obtain ⟨b', hrun, hrep, -⟩ :=
        replaceLines_represents h hvalid.1 hvalid.2.1 hvalid.2.2.1 hvalid.2.2.2
      exact ⟨b', hrun, hrep⟩
    · rw [dif_neg hvalid]
      exact replaceLines_error h hvalid
  | replaceLinesDisjoint splices =>
    simp only [LineModel.apply]
    by_cases hvalid : BatchValid m.lines.length 0 splices
    · rw [dif_pos hvalid]
      obtain ⟨b', hrun, hrep, -⟩ := replaceLinesDisjoint_represents h hvalid
      exact ⟨b', hrun, hrep⟩
    · rw [dif_neg hvalid]
      exact replaceLinesDisjoint_error h hvalid
  | appendLines lnum lines =>
    simp only [LineModel.apply]
    by_cases hvalid : lnum ≤ m.lines.length ∧ ∀ l ∈ lines, CleanLine l
    · rw [dif_pos hvalid]
      obtain ⟨b', hrun, hrep, -⟩ := appendLines_represents h hvalid.1 hvalid.2
      exact ⟨b', hrun, hrep⟩
    · rw [dif_neg hvalid]
      exact appendLines_error h hvalid
  | deleteLines start stop =>
    simp only [LineModel.apply]
    by_cases hvalid : 1 ≤ start ∧ start ≤ stop ∧ stop ≤ m.lines.length
    · rw [if_pos hvalid]
      obtain ⟨b', hrun, hrep, -⟩ :=
        replaceLines_represents h hvalid.1 hvalid.2.1 hvalid.2.2
          (show ∀ l ∈ ([] : List Line), CleanLine l by simp)
      exact ⟨b', hrun, hrep⟩
    · rw [if_neg hvalid]
      exact replaceLines_error h fun hbad => hvalid ⟨hbad.1, hbad.2.1, hbad.2.2.1⟩
  | setEol hasEol => exact ⟨_, rfl, setEol_represents h hasEol⟩

/-! ## Runs -/

/-- A freshly loaded buffer, and the model it was loaded from. -/
inductive Loaded : Buffer × LineModel → Prop where
  | fromLines {b : Buffer} {m : LineModel} {lines : List Line}
      (hclean : ∀ l ∈ lines, CleanLine l) (hload : Buffer.fromLines lines m.hasEol = .ok b)
      (hlines : m.lines = settle [] lines) : Loaded (b, m)
  | fromBytes {b : Buffer} {m : LineModel} (hload : Buffer.fromBytes m.toBytes = .ok b)
      (heol : m.hasEol = (m.toBytes.getLast? == some LF)) : Loaded (b, m)

/-- One call on the buffer, whether it succeeds or not, beside the model's edit if it has one. -/
def BufferStep (s t : Buffer × LineModel) : Prop :=
  ∃ op : BufferOp, t = (final (op.run s.1), (s.2.apply op).getD s.2)

theorem represents_of_loaded {s : Buffer × LineModel} (h : Loaded s) : Represents s.1 s.2 := by
  cases h with
  | @fromLines b m lines hclean hload hlines =>
    obtain ⟨b', m', hload', hrep, hlines', heol'⟩ := fromLines_represents hclean m.hasEol
    obtain rfl : b' = b := by simpa using hload'.symm.trans hload
    obtain rfl : m' = m := LineModel.ext (hlines'.trans hlines.symm) heol'
    exact hrep
  | @fromBytes b m hload heol =>
    have hdecode : Utf8.decode? m.toBytes = some m.text :=
      Utf8.decode?_eq_some_iff.mpr m.toBytes_eq_encode.symm
    have hlast : (m.text.getLast? == some '\n') = m.hasEol := by
      rw [heol, m.toBytes_eq_encode, Bool.eq_iff_iff, beq_iff_eq, beq_iff_eq]
      exact Utf8.getLast?_encode_newline.symm
    rw [Buffer.fromBytes, hdecode] at hload
    cases hload
    exact .of_eq hlast rfl

theorem represents_step {s t : Buffer × LineModel} (h : Represents s.1 s.2) (hst : BufferStep s t) :
    Represents t.1 t.2 := by
  obtain ⟨op, rfl⟩ := hst
  have hop := op.run_represents h
  cases hm : s.2.apply op with
  | some m' =>
    rw [hm] at hop
    obtain ⟨b', hrun, hrep⟩ := hop
    simpa [hrun] using hrep
  | none =>
    rw [hm] at hop
    obtain ⟨e, hrun⟩ := hop
    simpa [hrun] using h

/-- Every run keeps buffer and model together. -/
theorem represents_of_reachable {s : Buffer × LineModel} (h : Reachable Loaded BufferStep s) :
    Represents s.1 s.2 :=
  h.invariant (I := fun s => Represents s.1 s.2) (fun _ => represents_of_loaded)
    (fun _ _ => represents_step)

/-- **The rope-backed buffer refines its line model.** After every run of calls, valid or not, the
buffer shows the model's lines, end-of-line state and bytes; a call succeeds exactly when the model
gives it a meaning, and a failing call changes nothing. -/
theorem buffer_refines_lines {b : Buffer} {m : LineModel}
    (h : Reachable Loaded BufferStep (b, m)) :
    b.lineCount = m.lines.length ∧
      (∀ n, b.line n = if hn : 1 ≤ n ∧ n ≤ m.lines.length then
        .ok (m.lines.get ⟨n - 1, pred_lt_of_range hn⟩) else .error (.lineRange n n m.lines.length)) ∧
      b.hasEol = m.hasEol ∧ b.toBytes = m.toBytes ∧
      (∀ op : BufferOp, (∃ b', op.run b = .ok () b') ↔ (m.apply op).isSome) ∧
      ∀ (op : BufferOp) e b', op.run b = .error e b' → b' = b := by
  have hrep : Represents b m := represents_of_reachable h
  refine ⟨hrep.lineCount, hrep.line, hrep.hasEol, hrep.toBytes, fun op => ?_, fun op e b' hrun => ?_⟩
  · have hop := op.run_represents hrep
    cases hm : m.apply op with
    | some m' =>
      rw [hm] at hop
      obtain ⟨b', hrun, -⟩ := hop
      simpa using ⟨b', hrun⟩
    | none =>
      rw [hm] at hop
      obtain ⟨e, hrun⟩ := hop
      simp [hrun]
  · have hop := op.run_represents hrep
    cases hm : m.apply op with
    | some m' =>
      rw [hm] at hop
      obtain ⟨b'', hrun', -⟩ := hop
      rw [hrun'] at hrun
      cases hrun
    | none =>
      rw [hm] at hop
      obtain ⟨e', hrun'⟩ := hop
      rw [hrun'] at hrun
      cases hrun
      rfl

/-- Of the two loaded lines, the last empty, the first is deleted and the end-of-line state
cleared. -/
theorem buffer_refines_lines_delete :
    ∃ (b : Buffer) (m : LineModel), m.lines = [[]] ∧ m.hasEol = false ∧
      b.lineCount = m.lines.length ∧ b.toBytes = m.toBytes := by
  have hclean : ∀ l ∈ [[97], ([] : Line)], CleanLine l := by decide
  have hfrom : Buffer.fromLines [[97], []] true = .ok ⟨⟨['a', '\n', '\n']⟩, true, 0⟩ := by decide
  have hload : Reachable Loaded BufferStep
      (⟨⟨['a', '\n', '\n']⟩, true, 0⟩, ⟨[[97], []], true, by simp, hclean⟩) :=
    .init (.fromLines hclean hfrom rfl)
  have hrun := (hload.step ⟨.deleteLines 1 1, rfl⟩).step ⟨.setEol false, rfl⟩
  have hrefines := buffer_refines_lines hrun
  exact ⟨_, _, rfl, rfl, hrefines.1, hrefines.2.2.2.1⟩

end Oxvim.Text
