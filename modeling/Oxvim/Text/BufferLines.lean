import Oxvim.Text.BufferRuns

/-!
# The lines of a buffer

The line model of a buffer read off the buffer itself: `Buffer.lines` collects what `line` returns,
and a buffer is well formed when it represents some model, which is then the one of its lines. The
specifications of the edits are restated in these terms, so that what is built on a buffer speaks of
`lines` and `hasEol` only.

`Buffer.byteOfLine_eq` gives the byte offsets. They are those of the text with a line feed behind
every line, except at the very end of a text whose last line has none.
-/

namespace Oxvim.Text

open Lib EState

namespace Buffer

/-- The buffer holds the text of some line model. -/
def WellFormed (b : Buffer) : Prop := ∃ m, Represents b m

/-- The logical lines. -/
def lines (b : Buffer) : List Line :=
  (List.range' 1 b.lineCount).filterMap fun lnum => (b.line lnum).toOption

/-- Every line followed by a line feed. -/
def virtualBytes (ls : List Line) : List UInt8 := terminated LF ls

variable {b : Buffer} {m : LineModel}

theorem lines_of_represents (h : Represents b m) : b.lines = m.lines := by
  have hget : ∀ n ∈ List.range' 1 m.lines.length,
      (b.line n).toOption = some (m.lines.getD (n - 1) []) := by
    intro n hn
    obtain ⟨hle, hlt⟩ := List.mem_range'_1.mp hn
    rw [h.line, dif_pos (by omega), List.getD_eq_getElem?_getD, List.getElem?_eq_getElem (by omega)]
    rfl
  have hmap : b.lines = (List.range' 1 m.lines.length).map fun n => m.lines.getD (n - 1) [] := by
    rw [lines, h.lineCount, ← List.filterMap_eq_map]
    exact List.filterMap_congr hget
  rw [hmap]
  refine List.ext_getElem (by simp) fun i hi hi' => ?_
  simp [hi']

theorem WellFormed.model (h : b.WellFormed) :
    ∃ m, Represents b m ∧ m.lines = b.lines ∧ m.hasEol = b.hasEol := by
  obtain ⟨m, hm⟩ := h
  exact ⟨m, hm, (lines_of_represents hm).symm, hm.hasEol.symm⟩

theorem Represents.wellFormed (h : Represents b m) : b.WellFormed := ⟨m, h⟩

namespace WellFormed

variable {ls : List Line}

theorem lines_ne_nil (h : b.WellFormed) : b.lines ≠ [] := by
  obtain ⟨m, -, hlines, -⟩ := h.model
  exact hlines ▸ m.nonempty

theorem length_pos (h : b.WellFormed) : 0 < b.lines.length :=
  List.length_pos_iff.mpr h.lines_ne_nil

theorem clean (h : b.WellFormed) : ∀ l ∈ b.lines, CleanLine l := by
  obtain ⟨m, -, hlines, -⟩ := h.model
  exact hlines ▸ m.clean

theorem lineCount (h : b.WellFormed) : b.lineCount = b.lines.length := by
  obtain ⟨m, hm, hlines, -⟩ := h.model
  rw [hm.lineCount, hlines]

theorem line_eq (h : b.WellFormed) (n : Nat) :
    b.line n = if 1 ≤ n ∧ n ≤ b.lines.length then .ok (b.lines.getD (n - 1) [])
      else .error (.lineRange n n b.lines.length) := by
  obtain ⟨m, hm, hlines, -⟩ := h.model
  rw [hm.line, ← hlines]
  by_cases hn : 1 ≤ n ∧ n ≤ m.lines.length
  · rw [dif_pos hn, if_pos hn, List.getD_eq_getElem?_getD, List.getElem?_eq_getElem (by omega)]
    rfl
  · rw [dif_neg hn, if_neg hn]

theorem replaceLines (h : b.WellFormed) {start stop : Nat} (hstart : 1 ≤ start)
    (hle : start ≤ stop) (hstop : stop ≤ b.lines.length) (hclean : ∀ l ∈ ls, CleanLine l) :
    ∃ b', Buffer.replaceLines start stop ls b = .ok () b' ∧ b'.WellFormed ∧
      b'.lines = settle [] (splice b.lines (start - 1) (stop + 1 - start) ls) ∧
      b'.hasEol = (b.hasEol && !(splice b.lines (start - 1) (stop + 1 - start) ls).isEmpty) := by
  obtain ⟨m, hm, hlines, heol⟩ := h.model
  obtain ⟨b', hrun, hrep, -⟩ := replaceLines_represents hm hstart hle (hlines ▸ hstop) hclean
  refine ⟨b', hrun, ⟨_, hrep⟩, ?_, ?_⟩
  · rw [lines_of_represents hrep, ← hlines]
    rfl
  · rw [hrep.hasEol, ← hlines, ← heol]
    rfl

theorem replaceLines_error (h : b.WellFormed) (start stop : Nat) (ls : List Line)
    (hbad : ¬(1 ≤ start ∧ start ≤ stop ∧ stop ≤ b.lines.length ∧ ∀ l ∈ ls, CleanLine l)) :
    ∃ e, Buffer.replaceLines start stop ls b = .error e b := by
  obtain ⟨m, hm, hlines, -⟩ := h.model
  exact Text.replaceLines_error hm (hlines ▸ hbad)

theorem appendLines (h : b.WellFormed) {lnum : Nat} (hle : lnum ≤ b.lines.length)
    (hclean : ∀ l ∈ ls, CleanLine l) :
    ∃ b', Buffer.appendLines lnum ls b = .ok () b' ∧ b'.WellFormed ∧
      b'.lines = settle [] (splice b.lines lnum 0 ls) ∧
      b'.hasEol = (b.hasEol && !(splice b.lines lnum 0 ls).isEmpty) := by
  obtain ⟨m, hm, hlines, heol⟩ := h.model
  obtain ⟨b', hrun, hrep, -⟩ := appendLines_represents hm (hlines ▸ hle) hclean
  refine ⟨b', hrun, ⟨_, hrep⟩, ?_, ?_⟩
  · rw [lines_of_represents hrep, ← hlines]
    rfl
  · rw [hrep.hasEol, ← hlines, ← heol]
    rfl

theorem appendLines_error (h : b.WellFormed) {lnum : Nat}
    (hbad : ¬(lnum ≤ b.lines.length ∧ ∀ l ∈ ls, CleanLine l)) :
    ∃ e, Buffer.appendLines lnum ls b = .error e b := by
  obtain ⟨m, hm, hlines, -⟩ := h.model
  exact Text.appendLines_error hm (hlines ▸ hbad)

theorem replaceLinesDisjoint (h : b.WellFormed) {splices : List LineSplice}
    (hvalid : BatchValid b.lines.length 0 splices) :
    ∃ b', Buffer.replaceLinesDisjoint splices b = .ok () b' ∧ b'.WellFormed ∧
      b'.lines = settle [] (batchLines 0 b.lines splices) := by
  obtain ⟨m, hm, hlines, -⟩ := h.model
  obtain ⟨b', hrun, hrep, -⟩ := replaceLinesDisjoint_represents hm (hlines ▸ hvalid)
  refine ⟨b', hrun, ⟨_, hrep⟩, ?_⟩
  rw [lines_of_represents hrep]
  show settle [] (batchLines 0 m.lines splices) = _
  rw [hlines]

theorem replaceLinesDisjoint_error (h : b.WellFormed) {splices : List LineSplice}
    (hbad : ¬BatchValid b.lines.length 0 splices) :
    ∃ e, Buffer.replaceLinesDisjoint splices b = .error e b := by
  obtain ⟨m, hm, hlines, -⟩ := h.model
  exact Text.replaceLinesDisjoint_error hm (hlines ▸ hbad)

theorem setEol (h : b.WellFormed) (hasEol : Bool) :
    (b.setEol hasEol).WellFormed ∧ (b.setEol hasEol).lines = b.lines ∧
      (b.setEol hasEol).hasEol = hasEol := by
  obtain ⟨m, hm, hlines, -⟩ := h.model
  have hrep := setEol_represents hm hasEol
  exact ⟨⟨_, hrep⟩, by rw [lines_of_represents hrep, ← hlines]; rfl, rfl⟩

/-- Byte offsets of lines. The line behind the last one begins at the end of the text, which lacks
the last line feed when there is no end-of-line state. -/
theorem byteOfLine_eq (h : b.WellFormed) {k : Nat} (hk : k ≤ b.lines.length) :
    b.byteOfLine (k + 1) = .ok ((virtualBytes (b.lines.take k)).length -
      if k = b.lines.length ∧ b.hasEol = false then 1 else 0) := by
  obtain ⟨m, hm, hlines, heol⟩ := h.model
  rw [← hlines] at hk ⊢
  unfold Buffer.byteOfLine
  simp only [hm.lineCount]
  rw [if_neg (by omega)]
  by_cases hend : k = m.lines.length
  · subst hend
    rw [if_pos rfl, List.take_length]
    have hbytes : b.rope.lenBytes = m.toBytes.length := by
      rw [← hm.toBytes]
      rfl
    rw [hbytes, LineModel.toBytes, heol, virtualBytes, ← joined_append_sep _ _ m.nonempty]
    cases b.hasEol <;> simp
  · rw [if_neg (by omega), if_neg (fun h => hend h.1), Nat.sub_zero, Nat.add_sub_cancel]
    have hsplit : m.lines = m.lines.take k ++ m.lines.drop k := (List.take_append_drop k _).symm
    have hdrop : m.lines.drop k ≠ [] := by
      simp only [ne_eq, List.drop_eq_nil_iff]
      omega
    have hchar := hm.lineToChar hsplit (.inl hdrop)
    rw [List.length_take_of_le hk] at hchar
    have htake : b.rope.chars.take (b.rope.lineToChar k)
        = terminated '\n' ((m.lines.take k).map Text.chars) := by
      have htext : m.text = terminated '\n' ((m.lines.take k).map Text.chars)
          ++ render (m.lines.drop k) m.hasEol := by
        rw [LineModel.text, ← render_append _ (.inl hdrop), List.take_append_drop]
      rw [hchar, hm.chars, htext]
      exact List.take_left' rfl
    rw [Rope.lineToByte, htake, Utf8.encode_terminated,
      encode_map_chars fun l hl => m.clean l (List.mem_of_mem_take hl)]
    rfl

theorem byteOfLine_error (h : b.WellFormed) {n : Nat} (hbad : n = 0 ∨ b.lines.length + 1 < n) :
    b.byteOfLine n = .error (.lineRange n n b.lines.length) := by
  unfold Buffer.byteOfLine
  simp only [h.lineCount]
  rw [if_pos hbad]

end WellFormed

/-- A buffer over given lines. -/
theorem exists_fromLines {ls : List Line} (hclean : ∀ l ∈ ls, CleanLine l) (hasEol : Bool) :
    ∃ b, fromLines ls hasEol = .ok b ∧ b.WellFormed ∧ b.lines = settle [] ls ∧
      b.hasEol = hasEol := by
  obtain ⟨b, m, hok, hrep, hlines, heol⟩ := fromLines_represents hclean hasEol
  exact ⟨b, hok, ⟨m, hrep⟩, by rw [lines_of_represents hrep, hlines], hrep.hasEol.trans heol⟩

theorem wellFormed_new : Buffer.new.WellFormed := ⟨_, represents_new⟩

end Buffer

end Oxvim.Text
