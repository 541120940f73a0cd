import Oxvim.Text.BufferModel
import Oxvim.Lib.Transition

/-!
# The rope-backed buffer refines the line model

Every edit of `Buffer` is the model's edit: a successful call represents the spliced line list
again, a rejected one leaves the buffer exactly as it was. The work is in `spliceSpan`, where the
offsets of the removed characters and the terminators of the inserted text depend on what follows
the replaced lines; `spliceSpan_inner` and `spliceSpan_tail` are its two cases.

The edits of a batch are given against the pre-edit line map but applied bottom-up;
`batchLines` says what the batch means, all splices at once.
-/

namespace Oxvim.Text

open Lib EState

namespace Represents

variable {b : Buffer} {m : LineModel}

theorem of_eq {hasEol : Bool} {rope : Rope} {tick : UInt64} (heol : hasEol = m.hasEol)
    (hchars : rope.chars = m.text) : Represents ⟨rope, hasEol, tick⟩ m :=
  ⟨heol, hchars⟩

/-- Only the rope and the end-of-line state are represented. -/
theorem withTick (h : Represents b m) (tick : UInt64) :
    Represents { b with changedtick := tick } m :=
  ⟨h.hasEol, h.chars⟩

end Represents

/-! ## Construction -/

theorem represents_new : Represents .new ⟨[[]], false, by simp, by simp [cleanLine_nil]⟩ :=
  ⟨rfl, by simp [Buffer.new, Rope.empty, LineModel.text, render_false, chars_nil]⟩

/-- `from_lines` holds the given lines, one empty line for none. -/
theorem fromLines_represents {lines : List Line} (hclean : ∀ l ∈ lines, CleanLine l)
    (hasEol : Bool) :
    ∃ b m, Buffer.fromLines lines hasEol = .ok b ∧ Represents b m ∧
      m.lines = settle [] lines ∧ m.hasEol = hasEol := by
  let m : LineModel := ⟨settle [] lines, hasEol, settle_ne_nil _ _, fun l hl => by
    rcases mem_settle hl with rfl | hl
    · exact cleanLine_nil
    · exact hclean l hl⟩
  have hnorm : (if lines.isEmpty then [[]] else lines) = m.lines := by
    cases lines <;> rfl
  have hdecode : Utf8.decode? m.toBytes = some m.text :=
    Utf8.decode?_eq_some_iff.mpr m.toBytes_eq_encode.symm
  refine ⟨⟨⟨m.text⟩, hasEol, 0⟩, m, ?_, .of_eq rfl rfl, rfl, rfl⟩
  unfold Buffer.fromLines
  rw [hnorm]
  show (do let buffer ← Buffer.fromBytes m.toBytes; _) = _
  rw [Buffer.fromBytes, hdecode]
  rfl

/-! ## `spliceSpan` -/

/-- The lines of a replacement, each with the line feed that ends it. -/
theorem terminated_of_joinLines {lines : List Line} (hne : lines ≠ []) :
    joined '\n' (lines.map chars) ++ ['\n'] = terminated '\n' (lines.map chars) :=
  joined_append_sep _ _ (by simpa using hne)

/-- What `spliceSpan` does once the lines are known to be clean. -/
theorem spliceSpan_run {b : Buffer} {start stop : Nat} {lines : List Line}
    (hclean : ∀ l ∈ lines, CleanLine l) :
    Buffer.spliceSpan start stop lines b = .ok ()
      (let text := if !lines.isEmpty && (decide (stop < b.lineCount) || b.hasEol) then
          joined '\n' (lines.map chars) ++ ['\n'] else joined '\n' (lines.map chars)
       let rope := b.rope.remove (b.spliceRange start stop lines).1
          (b.spliceRange start stop lines).2
       { b with
          rope := if text.isEmpty then rope else rope.insert (b.spliceRange start stop lines).1 text
          hasEol := if lines.isEmpty && decide (stop = b.lineCount) && decide (start = 1) then false
            else b.hasEol }) := by
  unfold Buffer.spliceSpan
  rw [bind_ok (get_run b)]
  simp only [joinLines_clean hclean]
  rw [bind_ok (ofExcept_ok_run _ b)]
  rfl

theorem insert_remove {t : Rope} {a d r text : List Char} (h : t.chars = a ++ d ++ r) :
    (if text.isEmpty then t.remove a.length (a.length + d.length)
      else (t.remove a.length (a.length + d.length)).insert a.length text).chars
      = a ++ text ++ r := by
  have hrem : (t.remove a.length (a.length + d.length)).chars = a ++ r := by
    simp [Rope.remove, h]
  split
  · next hempty =>
    rw [hrem, List.isEmpty_iff.mp hempty, List.append_nil]
  · simp [Rope.insert, hrem]

section

variable {b : Buffer} {m : LineModel} {xs ds ys lines : List Line}

/-- Text or end-of-line state follows the replaced lines: the cut is at line starts. -/
theorem spliceSpan_inner (h : Represents b m) (hsplit : m.lines = xs ++ ds ++ ys) (hds : ds ≠ [])
    (hys : ys ≠ [] ∨ m.hasEol = true) (hclean : ∀ l ∈ lines, CleanLine l) :
    ∃ b', Buffer.spliceSpan (xs.length + 1) (xs.length + ds.length) lines b = .ok () b' ∧
      Represents b' (m.splice xs.length ds.length lines hclean) ∧
      b'.changedtick = b.changedtick := by
  have hdpos := List.length_pos_iff.mpr hds
  have hcount : b.lineCount = xs.length + ds.length + ys.length := by
    rw [h.lineCount, hsplit, List.length_append, List.length_append]
  have hstart := h.charOfLine (show m.lines = xs ++ (ds ++ ys) by simp [hsplit]) (.inl (by simp [hds]))
  have hstop := h.charOfLine hsplit hys
  rw [List.length_append, List.map_append, terminated_append, List.length_append] at hstop
  have hchars : b.rope.chars = terminated '\n' (xs.map chars) ++ terminated '\n' (ds.map chars)
      ++ render ys m.hasEol := by
    rw [h.chars, LineModel.text, hsplit, render_append _ hys, List.map_append, terminated_append]
  have hrange : b.spliceRange (xs.length + 1) (xs.length + ds.length) lines
      = ((terminated '\n' (xs.map chars)).length,
        (terminated '\n' (xs.map chars)).length + (terminated '\n' (ds.map chars)).length) := by
    unfold Buffer.spliceRange
    rw [hstart, hstop, if_neg]
    rw [hcount, h.hasEol]
    rcases hys with hys | heol
    · have := List.length_pos_iff.mpr hys
      simp only [Bool.and_eq_true, decide_eq_true_eq]
      omega
    · simp [heol]
  have hfollow : (decide (xs.length + ds.length < b.lineCount) || b.hasEol) = true := by
    rw [hcount, h.hasEol, Bool.or_eq_true, decide_eq_true_eq]
    rcases hys with hys | heol
    · have := List.length_pos_iff.mpr hys
      exact .inl (by omega)
    · exact .inr heol
  refine ⟨_, spliceSpan_run hclean, ?_, rfl⟩
  rw [hrange, hfollow, Bool.and_true, LineModel.splice]
  have hlines : Lib.splice m.lines xs.length ds.length lines = xs ++ lines ++ ys := by
    rw [hsplit, splice_append rfl rfl]
  simp only [hlines]
  refine .of_eq ?_ ?_
  · -- the end-of-line state is lost exactly when no line is left
    rw [hcount, h.hasEol]
    cases lines with
    | nil =>
      cases ys with
      | nil => cases xs <;> simp [LineModel.withLines]
      | cons y ys => simp [LineModel.withLines]
    | cons l ls => simp [LineModel.withLines]
  · rw [insert_remove hchars]
    cases lines with
    | nil =>
      rcases hys with hys | heol
      · rw [LineModel.withLines_of_ne_nil _ (by simp [hys])]
        simp [LineModel.text, render_append _ (.inl hys)]
      · rcases List.eq_nil_or_concat' (xs ++ ys) with hnil | ⟨zs, z, hzs⟩
        · obtain ⟨rfl, rfl⟩ := List.append_eq_nil_iff.mp hnil
          simp [LineModel.withLines, LineModel.text, render_false, chars_nil]
        · rw [LineModel.withLines_of_ne_nil _ (by simp [hzs])]
          simp [LineModel.text, heol, render_true]
    | cons l ls =>
      rw [LineModel.withLines_of_ne_nil _ (by simp)]
      simp only [List.isEmpty_cons, Bool.not_false, if_true,
        terminated_of_joinLines (List.cons_ne_nil l ls), LineModel.text, render_append _ hys,
        List.map_append, terminated_append]

/-- Nothing follows the replaced lines: the new last line is unterminated. -/
theorem spliceSpan_tail (h : Represents b m) (hsplit : m.lines = xs ++ ds) (hds : ds ≠ [])
    (heol : m.hasEol = false) (hclean : ∀ l ∈ lines, CleanLine l) :
    ∃ b', Buffer.spliceSpan (xs.length + 1) (xs.length + ds.length) lines b = .ok () b' ∧
      Represents b' (m.splice xs.length ds.length lines hclean) ∧
      b'.changedtick = b.changedtick := by
  have hcount : b.lineCount = xs.length + ds.length := by
    rw [h.lineCount, hsplit, List.length_append]
  have hstart := h.charOfLine hsplit (.inl hds)
  have hstop : b.charOfLine (xs.length + ds.length + 1) = b.rope.lenChars := by
    rw [← h.charOfLine_end, hsplit, List.length_append]
  have hchars : b.rope.chars = terminated '\n' (xs.map chars) ++ render ds false := by
    rw [h.chars, LineModel.text, hsplit, heol, render_append _ (.inl hds)]
  have hlen : b.rope.lenChars
      = (terminated '\n' (xs.map chars)).length + (render ds false).length := by
    rw [Rope.lenChars, hchars, List.length_append]
  have hlines : Lib.splice m.lines xs.length ds.length lines = xs ++ lines := by
    have := splice_append (c := []) (r := lines) (rfl : xs.length = _) (rfl : ds.length = _)
    simpa [hsplit] using this
  refine ⟨_, spliceSpan_run hclean, ?_, rfl⟩
  have hfollow : (decide (xs.length + ds.length < b.lineCount) || b.hasEol) = false := by
    simp [hcount, h.hasEol, heol]
  rw [hfollow, Bool.and_false, LineModel.splice]
  simp only [hlines]
  refine .of_eq ?_ ?_
  · rw [h.hasEol, heol]
    simp [LineModel.withLines, heol]
  · by_cases hcut : lines = [] ∧ xs ≠ []
    · -- the separator before the deleted lines goes with them
      obtain ⟨rfl, hxs⟩ := hcut
      have hrange : b.spliceRange (xs.length + 1) (xs.length + ds.length) []
          = ((terminated '\n' (xs.map chars)).length - 1,
            (terminated '\n' (xs.map chars)).length + (render ds false).length) := by
        unfold Buffer.spliceRange
        rw [hstart, hstop, hlen, if_pos]
        simp [hcount, h.hasEol, heol, hxs]
      rw [hrange, LineModel.withLines_of_ne_nil _ (by simpa using hxs)]
      simp [Rope.remove, hchars, LineModel.text, heol, render_false_eq_dropLast hxs,
        List.dropLast_eq_take, List.take_append_of_le_length]
    · have hrange : b.spliceRange (xs.length + 1) (xs.length + ds.length) lines
          = ((terminated '\n' (xs.map chars)).length,
            (terminated '\n' (xs.map chars)).length + (render ds false).length) := by
        unfold Buffer.spliceRange
        rw [hstart, hstop, hlen, if_neg]
        simpa [hcount, h.hasEol, heol] using hcut
      rw [hrange, insert_remove (r := []) (by simpa using hchars)]
      cases lines with
      | nil =>
        have hxs : xs = [] := by simpa using hcut
        simp [hxs, LineModel.withLines, LineModel.text, render_false, chars_nil]
      | cons l ls =>
        rw [LineModel.withLines_of_ne_nil _ (by simp), List.append_nil, LineModel.text, heol,
          render_append _ (.inl (List.cons_ne_nil l ls)), render_false, if_neg Bool.false_ne_true]

/-- What `splice_span` does to a valid range. -/
theorem spliceSpan_represents (h : Represents b m) {start stop : Nat} (hstart : 1 ≤ start)
    (hle : start ≤ stop) (hstop : stop ≤ m.lines.length) (hclean : ∀ l ∈ lines, CleanLine l) :
    ∃ b', Buffer.spliceSpan start stop lines b = .ok () b' ∧
      Represents b' (m.splice (start - 1) (stop + 1 - start) lines hclean) ∧
      b'.changedtick = b.changedtick := by
  have hrange : start - 1 + (stop + 1 - start) ≤ m.lines.length := by omega
  obtain ⟨xs, ds, ys, hsplit, hxs, hds⟩ := exists_split hrange
  have hne : ds ≠ [] := List.ne_nil_of_length_pos (by omega)
  have hstart' : start = xs.length + 1 := by omega
  have hstop' : stop = xs.length + ds.length := by omega
  rw [← hxs, ← hds, hstart', hstop']
  by_cases hys : ys ≠ [] ∨ m.hasEol = true
  · exact spliceSpan_inner h hsplit hne hys hclean
  · simp only [not_or, not_not, Bool.not_eq_true] at hys
    obtain ⟨rfl, heol⟩ := hys
    exact spliceSpan_tail h (by simpa using hsplit) hne heol hclean

end

/-- The removed range lies in the rope, and there is a separator to swallow where the deletion of
the last lines takes one. -/
theorem spliceRange_offsets {b : Buffer} {m : LineModel} (h : Represents b m) {start stop : Nat}
    {lines : List Line} (hstart : 1 ≤ start) (hle : start ≤ stop) (hstop : stop ≤ m.lines.length) :
    (b.spliceRange start stop lines).1 ≤ (b.spliceRange start stop lines).2 ∧
      (b.spliceRange start stop lines).2 ≤ b.rope.lenChars ∧
      (start ≠ 1 → 0 < b.charOfLine start) := by
  have hto : b.charOfLine (stop + 1) ≤ b.rope.lenChars := by
    unfold Buffer.charOfLine
    split
    · exact Nat.le_refl _
    · exact lineStart_le_length _ _
  obtain ⟨xs, ys, hsplit, hxs⟩ : ∃ xs ys, m.lines = xs ++ ys ∧ xs.length = start - 1 :=
    ⟨m.lines.take (start - 1), m.lines.drop (start - 1), (List.take_append_drop ..).symm,
      List.length_take_of_le (by omega)⟩
  have hys : ys ≠ [] := by
    rintro rfl
    rw [hsplit, List.append_nil] at hstop
    omega
  have hfrom : b.charOfLine start = (terminated '\n' (xs.map chars)).length := by
    rw [← h.charOfLine hsplit (.inl hys), hxs, Nat.sub_add_cancel hstart]
  have hmono : b.charOfLine start ≤ b.charOfLine (stop + 1) := by
    unfold Buffer.charOfLine Rope.lineToChar
    have hlines := h.lenLines
    rw [if_neg (by omega)]
    split
    · exact lineStart_le_length _ _
    · exact lineStart_mono _ (by omega)
  refine ⟨?_, ?_, fun hne => ?_⟩
  · unfold Buffer.spliceRange
    split
    · exact Nat.le_trans (Nat.sub_le _ _) hmono
    · exact hmono
  · unfold Buffer.spliceRange
    split <;> exact hto
  · rw [hfrom]
    have hne : xs ≠ [] := List.ne_nil_of_length_pos (by omega)
    exact List.length_pos_iff.mpr (by simpa using hne)

/-! ## The edits of one range -/

section

variable {b : Buffer} {m : LineModel} {lines : List Line}

theorem checkRange_eq (h : Represents b m) (start stop : Nat) :
    b.checkRange start stop = if 1 ≤ start ∧ start ≤ stop ∧ stop ≤ m.lines.length then .ok ()
      else .error (.lineRange start stop m.lines.length) := by
  rw [Buffer.checkRange, h.lineCount]
  split <;> split <;> first | rfl | omega

/-- A valid `replace_lines` splices the model's lines. -/
theorem replaceLines_represents (h : Represents b m) {start stop : Nat} (hstart : 1 ≤ start)
    (hle : start ≤ stop) (hstop : stop ≤ m.lines.length) (hclean : ∀ l ∈ lines, CleanLine l) :
    ∃ b', Buffer.replaceLines start stop lines b = .ok () b' ∧
      Represents b' (m.splice (start - 1) (stop + 1 - start) lines hclean) ∧
      b'.changedtick = b.changedtick + 1 := by
  obtain ⟨b', hrun, hrep, htick⟩ := spliceSpan_represents h hstart hle hstop hclean
  refine ⟨{ b' with changedtick := b'.changedtick + 1 }, ?_, hrep.withTick _, by simp [htick]⟩
  unfold Buffer.replaceLines
  rw [bind_ok (get_run b), checkRange_eq h, if_pos ⟨hstart, hle, hstop⟩,
    bind_ok (ofExcept_ok_run _ b), validateLines_ok_iff.mpr hclean,
    bind_ok (ofExcept_ok_run _ b), bind_ok hrun]
  rfl

/-- A rejected `replace_lines` leaves the buffer as it was. -/
theorem replaceLines_error (h : Represents b m) {start stop : Nat}
    (hbad : ¬ (1 ≤ start ∧ start ≤ stop ∧ stop ≤ m.lines.length ∧ ∀ l ∈ lines, CleanLine l)) :
    ∃ e, Buffer.replaceLines start stop lines b = .error e b := by
  unfold Buffer.replaceLines
  rw [bind_ok (get_run b), checkRange_eq h]
  by_cases hrange : 1 ≤ start ∧ start ≤ stop ∧ stop ≤ m.lines.length
  · obtain ⟨e, he⟩ := validateLines_error fun hclean => hbad ⟨hrange.1, hrange.2.1, hrange.2.2, hclean⟩
    rw [if_pos hrange, bind_ok (ofExcept_ok_run _ b), he]
    exact ⟨e, rfl⟩
  · rw [if_neg hrange]
    exact ⟨_, rfl⟩

/-- The text that `append_lines` inserts behind line `lnum`. -/
theorem appendLines_run (hle : lnum ≤ b.lineCount) (hclean : ∀ l ∈ lines, CleanLine l) :
    Buffer.appendLines lnum lines b = .ok () { b with
      rope := if lines = [] then b.rope else b.rope.insert (b.charOfLine (lnum + 1))
        (if lnum = b.lineCount ∧ b.hasEol = false then '\n' :: joined '\n' (lines.map chars)
          else terminated '\n' (lines.map chars))
      changedtick := b.changedtick + 1 } := by
  unfold Buffer.appendLines
  rw [bind_ok (get_run b)]
  simp only [if_neg (show ¬ b.lineCount < lnum by omega), validateLines_ok_iff.mpr hclean]
  cases lines with
  | nil => rfl
  | cons l ls =>
    have hjoin := terminated_of_joinLines (List.cons_ne_nil l ls)
    simp only [joinLines_clean hclean]
    by_cases hend : lnum = b.lineCount ∧ b.hasEol = false
    · simp only [hend.1, hend.2]
      rfl
    · have hterm : (decide (lnum = b.lineCount) && !b.hasEol) = false := by
        simpa using hend
      simp only [if_neg hend, hterm, ← hjoin]
      rfl

/-- A valid `append_lines` puts the lines behind line `lnum`. -/
theorem appendLines_represents (h : Represents b m) {lnum : Nat} (hle : lnum ≤ m.lines.length)
    (hclean : ∀ l ∈ lines, CleanLine l) :
    ∃ b', Buffer.appendLines lnum lines b = .ok () b' ∧
      Represents b' (m.splice lnum 0 lines hclean) ∧ b'.changedtick = b.changedtick + 1 := by
  refine ⟨_, appendLines_run (h.lineCount ▸ hle) hclean, ?_, rfl⟩
  obtain ⟨xs, ys, hsplit, hxs⟩ : ∃ xs ys, m.lines = xs ++ ys ∧ xs.length = lnum :=
    ⟨m.lines.take lnum, m.lines.drop lnum, (List.take_append_drop ..).symm,
      List.length_take_of_le hle⟩
  subst hxs
  have hlines : Lib.splice m.lines xs.length 0 lines = xs ++ lines ++ ys := by
    have := splice_append (b := []) (c := ys) (r := lines) (rfl : xs.length = _) rfl
    simpa [hsplit] using this
  have hne : xs ++ lines ++ ys ≠ [] := by
    have := m.nonempty
    rw [hsplit] at this
    simp only [ne_eq, List.append_eq_nil_iff, not_and] at this ⊢
    intro hnil
    exact this hnil.1
  rw [LineModel.splice]
  simp only [hlines, LineModel.withLines_of_ne_nil _ hne]
  refine .of_eq h.hasEol ?_
  show _ = render (xs ++ lines ++ ys) m.hasEol
  by_cases hnil : lines = []
  · subst hnil
    rw [if_pos rfl, h.chars, LineModel.text, hsplit, List.append_nil]
  · rw [if_neg hnil, h.lineCount, h.hasEol]
    by_cases hys : ys ≠ [] ∨ m.hasEol = true
    · -- a line or a final line feed follows: every new line ends with its own
      have hend : ¬ (xs.length = m.lines.length ∧ m.hasEol = false) := by
        rintro ⟨hlen, heol⟩
        rcases hys with hys | hys
        · have := List.length_pos_iff.mpr hys
          rw [hsplit, List.length_append] at hlen
          omega
        · simp [heol] at hys
      rw [if_neg hend, h.charOfLine hsplit hys, List.append_assoc, render_append _ (by simp [hnil]),
        render_append _ hys]
      simp [Rope.insert, h.chars, LineModel.text, hsplit, render_append _ hys]
    · -- the last line has no line feed: the block brings it along
      simp only [not_or, not_not, Bool.not_eq_true] at hys
      obtain ⟨rfl, heol⟩ := hys
      rw [List.append_nil] at hsplit
      have hxs : xs.map chars ≠ [] := by
        have := m.nonempty
        simpa [hsplit] using this
      rw [if_pos ⟨by rw [hsplit], heol⟩, ← hsplit, h.charOfLine_end, hsplit, List.append_nil, heol,
        render_append _ (.inl hnil), render_false, ← joined_append_sep _ _ hxs]
      simp [Rope.insert, Rope.lenChars, h.chars, LineModel.text, hsplit, heol, render_false]

/-- A rejected `append_lines` leaves the buffer as it was. -/
theorem appendLines_error (h : Represents b m) {lnum : Nat}
    (hbad : ¬ (lnum ≤ m.lines.length ∧ ∀ l ∈ lines, CleanLine l)) :
    ∃ e, Buffer.appendLines lnum lines b = .error e b := by
  unfold Buffer.appendLines
  rw [bind_ok (get_run b)]
  simp only [h.lineCount]
  by_cases hle : lnum ≤ m.lines.length
  · obtain ⟨e, he⟩ := validateLines_error fun hclean => hbad ⟨hle, hclean⟩
    simp only [if_neg (show ¬ m.lines.length < lnum by omega), he]
    exact ⟨e, rfl⟩
  · simp only [if_pos (show m.lines.length < lnum by omega)]
    exact ⟨_, rfl⟩

/-- `set_eol` changes the end-of-line state and keeps the lines. -/
theorem setEol_represents (h : Represents b m) (hasEol : Bool) :
    Represents (b.setEol hasEol) (m.withEol hasEol) := by
  have hsep := joined_append_sep '\n' (m.lines.map chars) (by simpa using m.nonempty)
  have hchars := h.chars
  refine .of_eq rfl ?_
  simp only [LineModel.withEol, LineModel.text, h.hasEol] at hchars ⊢
  cases heol : m.hasEol <;> cases hasEol <;>
    simp_all [Rope.insert, Rope.remove, Rope.lenChars, render_true, render_false, ← hsep]

end

end Oxvim.Text
