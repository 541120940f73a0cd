import Oxvim.Text.Buffer

/-!
# The line model of a buffer

What a `Buffer` is for, without a rope: a non-empty list of lines and the final end-of-line state
(`LineModel`). A line of the model is a byte sequence that a buffer accepts (`CleanLine`), and the
model's edits keep a list non-empty by the rule of the editor: deleting every line leaves one empty
line without end-of-line state.

`Represents` ties a buffer to its model: the rope holds the model's text, nothing else. This file
shows what the read-only half of the buffer computes on a represented model; the edits follow in
`Oxvim.Text.BufferRefine`.
-/

namespace Oxvim.Text

open Lib

/-! ## Lines a buffer accepts -/

/-- Newline-free UTF-8. -/
def CleanLine (l : Line) : Prop := LF ∉ l ∧ (Utf8.decode? l).isSome

instance (l : Line) : Decidable (CleanLine l) := inferInstanceAs (Decidable (_ ∧ _))

/-- The characters of a line. -/
def chars (l : Line) : List Char := (Utf8.decode? l).getD []

theorem CleanLine.encode_chars {l : Line} (h : CleanLine l) : Utf8.encode (chars l) = l := by
  obtain ⟨cs, hcs⟩ := Option.isSome_iff_exists.mp h.2
  rw [chars, hcs, Option.getD_some]
  exact Utf8.decode?_eq_some_iff.mp hcs

theorem CleanLine.newline_not_mem {l : Line} (h : CleanLine l) : '\n' ∉ chars l := by
  intro hmem
  have := Utf8.newline_mem_encode.mpr hmem
  rw [h.encode_chars] at this
  exact h.1 this

theorem cleanLine_nil : CleanLine [] := by decide

theorem chars_nil : chars [] = [] := by decide

theorem fromUtf8_clean {l : Line} (h : CleanLine l) : fromUtf8 l = .ok (chars l) := by
  obtain ⟨cs, hcs⟩ := Option.isSome_iff_exists.mp h.2
  simp [fromUtf8, chars, hcs]

@[simp] theorem chars_encode (cs : List Char) : chars (Utf8.encode cs) = cs := by
  simp [chars]

theorem CleanLine.append {l m : Line} (hl : CleanLine l) (hm : CleanLine m) : CleanLine (l ++ m) :=
  ⟨by simp [hl.1, hm.1], Utf8.decode?_append hl.2 hm.2⟩

/-- A clean line can be cut where no continuation byte follows. -/
theorem CleanLine.cut {l : Line} (h : CleanLine l) {col : Nat}
    (hcol : ∀ b, l[col]? = some b → b &&& 0xC0 ≠ 0x80) :
    CleanLine (l.take col) ∧ CleanLine (l.drop col) := by
  have hcut := Utf8.decode?_cut h.2 hcol
  exact ⟨⟨fun hmem => h.1 (List.mem_of_mem_take hmem), hcut.1⟩,
    ⟨fun hmem => h.1 (List.mem_of_mem_drop hmem), hcut.2⟩⟩

theorem encode_map_chars {ls : List Line} (h : ∀ l ∈ ls, CleanLine l) :
    (ls.map chars).map Utf8.encode = ls := by
  rw [List.map_map]
  exact (List.map_congr_left fun l hl => (h l hl).encode_chars).trans (List.map_id ls)

theorem separated_map_chars {ls : List Line} (h : ∀ l ∈ ls, CleanLine l) :
    Separated '\n' (ls.map chars) := by
  intro cs hcs
  obtain ⟨l, hl, rfl⟩ := List.mem_map.mp hcs
  exact (h l hl).newline_not_mem

/-- `validate_lines` accepts exactly the lines a buffer can hold. -/
theorem validateLines_ok_iff {ls : List Line} :
    validateLines ls = .ok () ↔ ∀ l ∈ ls, CleanLine l := by
  unfold validateLines
  split
  · next h =>
    simp only [List.any_eq_true, List.contains_iff_mem] at h
    obtain ⟨l, hl, hmem⟩ := h
    simp only [reduceCtorEq, false_iff]
    exact fun hclean => (hclean l hl).1 hmem
  · next hnl =>
    split
    · next h =>
      simp only [List.any_eq_true, Option.isNone_iff_eq_none] at h
      obtain ⟨l, hl, hnone⟩ := h
      simp only [reduceCtorEq, false_iff]
      intro hclean
      have := (hclean l hl).2
      simp [hnone] at this
    · next hutf =>
      simp only [true_iff]
      intro l hl
      simp only [List.any_eq_true, List.contains_iff_mem, not_exists, not_and] at hnl
      simp only [List.any_eq_true, Option.isNone_iff_eq_none, not_exists, not_and] at hutf
      exact ⟨hnl l hl, Option.isSome_iff_ne_none.mpr (hutf l hl)⟩

theorem validateLines_error {ls : List Line} (h : ¬ ∀ l ∈ ls, CleanLine l) :
    ∃ e, validateLines ls = .error e := by
  cases hv : validateLines ls with
  | ok u => exact absurd (validateLines_ok_iff.mp hv) h
  | error e => exact ⟨e, rfl⟩

theorem joinLines_clean {ls : List Line} (h : ∀ l ∈ ls, CleanLine l) :
    joinLines ls = .ok (joined '\n' (ls.map chars)) := by
  have hmap : ls.mapM fromUtf8 = (.ok (ls.map chars) : Except BufferError _) := by
    induction ls with
    | nil => rfl
    | cons l ls ih =>
      have ih := ih fun l hl => h l (List.mem_cons_of_mem _ hl)
      rw [List.mapM_cons, fromUtf8_clean (h l (by simp)), ih]
      rfl
  rw [joinLines, hmap]
  rfl

/-! ## Rendered text -/

/-- The characters of a list of lines with or without a final line feed. -/
def render (ls : List Line) (eol : Bool) : List Char :=
  if eol then terminated '\n' (ls.map chars) else joined '\n' (ls.map chars)

theorem render_true (ls : List Line) : render ls true = terminated '\n' (ls.map chars) := rfl

theorem render_false (ls : List Line) : render ls false = joined '\n' (ls.map chars) := rfl

@[simp] theorem render_nil (eol : Bool) : render [] eol = [] := by
  cases eol <;> rfl

theorem render_append (xs : List Line) {ys : List Line} {eol : Bool} (h : ys ≠ [] ∨ eol = true) :
    render (xs ++ ys) eol = terminated '\n' (xs.map chars) ++ render ys eol := by
  cases eol with
  | true => simp [render_true]
  | false =>
    have hys : ys.map chars ≠ [] := by simpa using h
    rw [render_false, render_false, List.map_append, joined_append hys]

/-- Lines without a final line feed, and the last one drops its own. -/
theorem render_false_eq_dropLast {ls : List Line} (h : ls ≠ []) :
    render ls false = (terminated '\n' (ls.map chars)).dropLast := by
  rw [render_false, joined_eq_dropLast (by simpa using h)]

theorem count_render {ls : List Line} (eol : Bool) (h : ∀ l ∈ ls, CleanLine l) (hne : ls ≠ []) :
    (render ls eol).count '\n' + (if eol then 0 else 1) = ls.length := by
  have hcount : (terminated '\n' (ls.map chars)).count '\n' = ls.length := by
    rw [count_terminated (separated_map_chars h), List.length_map]
  cases eol with
  | true => simpa [render_true] using hcount
  | false =>
    have hsep := joined_append_sep '\n' (ls.map chars) (by simpa using hne)
    rw [← hsep] at hcount
    simpa [render_false] using hcount

/-! ## The model -/

/-- A non-empty list of lines a buffer accepts, and the final end-of-line state. -/
@[ext] structure LineModel where
  lines : List Line
  hasEol : Bool
  nonempty : lines ≠ []
  clean : ∀ l ∈ lines, CleanLine l

namespace LineModel

/-- The serialized form: the lines joined by a line feed, and one more iff `hasEol`. -/
def toBytes (m : LineModel) : List UInt8 :=
  joined LF m.lines ++ (if m.hasEol then [LF] else [])

/-- The text that the lines spell. -/
def text (m : LineModel) : List Char := render m.lines m.hasEol

theorem length_pos (m : LineModel) : 0 < m.lines.length :=
  List.length_pos_iff.mpr m.nonempty

/-- The lines after an edit: an empty list becomes one empty line without end-of-line state. -/
def withLines (m : LineModel) (ls : List Line) (h : ∀ l ∈ ls, CleanLine l) : LineModel where
  lines := settle [] ls
  hasEol := m.hasEol && !ls.isEmpty
  nonempty := settle_ne_nil _ _
  clean l hl := by
    rcases mem_settle hl with rfl | hl
    · exact cleanLine_nil
    · exact h l hl

/-- Replaces the `n` lines from index `i` on. -/
def splice (m : LineModel) (i n : Nat) (ls : List Line) (h : ∀ l ∈ ls, CleanLine l) : LineModel :=
  m.withLines (Lib.splice m.lines i n ls) fun l hl => (mem_splice hl).elim (m.clean l) (h l)

/-- Changes the end-of-line state. -/
def withEol (m : LineModel) (hasEol : Bool) : LineModel := { m with hasEol }

theorem withLines_of_ne_nil {m : LineModel} {ls : List Line} (h : ∀ l ∈ ls, CleanLine l)
    (hne : ls ≠ []) : m.withLines ls h = ⟨ls, m.hasEol, hne, h⟩ := by
  ext1
  · exact settle_of_ne_nil hne
  · simp [withLines, hne]

theorem withLines_congr {m : LineModel} {ls ls' : List Line} {h : ∀ l ∈ ls, CleanLine l}
    (h' : ∀ l ∈ ls', CleanLine l) (heq : ls = ls') : m.withLines ls h = m.withLines ls' h' := by
  subst heq
  rfl

theorem toBytes_eq_encode (m : LineModel) : m.toBytes = Utf8.encode m.text := by
  have hlines : (m.lines.map chars).map Utf8.encode = m.lines := encode_map_chars m.clean
  unfold toBytes text render
  cases m.hasEol with
  | true =>
    rw [if_pos rfl, if_pos rfl, Utf8.encode_terminated, hlines]
    exact joined_append_sep _ _ m.nonempty
  | false =>
    rw [if_neg (by simp), if_neg (by simp), Utf8.encode_joined, hlines, List.append_nil]
    rfl

end LineModel

/-! ## Representation -/

/-- The rope holds exactly the text of the model. -/
structure Represents (b : Buffer) (m : LineModel) : Prop where
  hasEol : b.hasEol = m.hasEol
  chars : b.rope.chars = m.text

theorem pred_lt_of_range {n count : Nat} (hn : 1 ≤ n ∧ n ≤ count) : n - 1 < count := by
  omega

namespace Represents

variable {b : Buffer} {m : LineModel}

theorem lineCount (h : Represents b m) : b.lineCount = m.lines.length := by
  have hcount := count_render m.hasEol m.clean m.nonempty
  have hlines : b.rope.lenLines = m.text.count '\n' + 1 := by rw [Rope.lenLines, h.chars]
  have hpos := m.length_pos
  unfold Buffer.lineCount
  rw [hlines, h.hasEol]
  unfold LineModel.text
  cases heol : m.hasEol with
  | true =>
    rw [heol, if_pos rfl] at hcount
    have hlt : decide (1 < (render m.lines true).count '\n' + 1) = true := decide_eq_true (by omega)
    simp only [Bool.true_and, hlt, if_true]
    omega
  | false =>
    rw [heol, if_neg (by simp)] at hcount
    simpa using hcount

theorem toBytes (h : Represents b m) : b.toBytes = m.toBytes := by
  rw [Buffer.toBytes, h.chars, m.toBytes_eq_encode]

/-- The offset of the line behind `a`, when there is such a line or a final line feed. -/
theorem lineToChar (h : Represents b m) {xs ys : List Line} (hsplit : m.lines = xs ++ ys)
    (hys : ys ≠ [] ∨ m.hasEol = true) :
    b.rope.lineToChar xs.length = (terminated '\n' (xs.map Text.chars)).length := by
  have hxs : ∀ l ∈ xs, CleanLine l := fun l hl => m.clean l (by simp [hsplit, hl])
  rw [Rope.lineToChar, h.chars, LineModel.text, hsplit, render_append _ hys,
    ← List.length_map (f := Text.chars)]
  exact lineStart_terminated (separated_map_chars hxs) _

theorem lenLines (h : Represents b m) :
    b.rope.lenLines = m.lines.length + (if m.hasEol then 1 else 0) := by
  have hcount := count_render m.hasEol m.clean m.nonempty
  rw [Rope.lenLines, h.chars, LineModel.text]
  split at hcount <;> split <;> simp_all

theorem charOfLine (h : Represents b m) {xs ys : List Line} (hsplit : m.lines = xs ++ ys)
    (hys : ys ≠ [] ∨ m.hasEol = true) :
    b.charOfLine (xs.length + 1) = (terminated '\n' (xs.map Text.chars)).length := by
  have hle : ¬ b.rope.lenLines < xs.length + 1 := by
    rw [h.lenLines, hsplit, List.length_append]
    rcases hys with hys | heol
    · have := List.length_pos_iff.mpr hys
      omega
    · rw [heol, if_pos rfl]
      omega
  rw [Buffer.charOfLine, if_neg hle, Nat.add_sub_cancel]
  exact h.lineToChar hsplit hys

/-- One past the last line is the end of the rope. -/
theorem charOfLine_end (h : Represents b m) :
    b.charOfLine (m.lines.length + 1) = b.rope.lenChars := by
  cases heol : m.hasEol with
  | true =>
    rw [h.charOfLine (List.append_nil _).symm (.inr heol), Rope.lenChars, h.chars, LineModel.text, heol,
      render_true]
  | false =>
    rw [Buffer.charOfLine, if_pos]
    rw [h.lenLines, heol, if_neg (by simp)]
    omega

/-- The characters of a line, with the line feed that ends it. -/
theorem rope_line (h : Represents b m) {xs ys : List Line} {l : Line}
    (hsplit : m.lines = xs ++ l :: ys) :
    b.rope.line xs.length
      = Text.chars l ++ (if ys ≠ [] ∨ m.hasEol = true then ['\n'] else []) := by
  have hl : CleanLine l := m.clean l (by simp [hsplit])
  have hfrom := h.lineToChar hsplit (.inl (by simp))
  have htext : b.rope.chars = terminated '\n' (xs.map Text.chars) ++ render (l :: ys) m.hasEol := by
    rw [h.chars, LineModel.text, hsplit, render_append _ (.inl (by simp))]
  by_cases hend : ys ≠ [] ∨ m.hasEol = true
  · have hto := h.lineToChar (show m.lines = (xs ++ [l]) ++ ys by simp [hsplit]) hend
    have hrest : render (l :: ys) m.hasEol = (Text.chars l ++ ['\n']) ++ render ys m.hasEol := by
      have happend := render_append [l] hend
      simpa using happend
    rw [List.length_append, List.length_singleton] at hto
    rw [Rope.line, hfrom, hto, htext, hrest, if_pos hend, ← List.append_assoc]
    exact slice_append rfl (by simp)
  · simp only [not_or, ne_eq, not_not, Bool.not_eq_true] at hend
    obtain ⟨rfl, heol⟩ := hend
    have hrest : render [l] m.hasEol = Text.chars l := by simp [heol, render_false]
    have hlen : b.rope.chars.length
        = (terminated '\n' (xs.map Text.chars)).length + (Text.chars l).length := by
      rw [htext, hrest, List.length_append]
    have hto : b.rope.lineToChar (xs.length + 1)
        = (terminated '\n' (xs.map Text.chars)).length + (Text.chars l).length := by
      have hxs : ∀ l ∈ xs, CleanLine l := fun l hl => m.clean l (by simp [hsplit, hl])
      rw [Rope.lineToChar, htext, hrest, ← List.length_map (f := Text.chars),
        lineStart_terminated_append (separated_map_chars hxs),
        lineStart_of_not_mem hl.newline_not_mem]
    rw [Rope.line, hfrom, hto, htext, hrest, heol, if_neg (by simp)]
    simp

theorem line_of_split (h : Represents b m) {xs ys : List Line} {l : Line}
    (hsplit : m.lines = xs ++ l :: ys) : b.line (xs.length + 1) = .ok l := by
  have hl : CleanLine l := m.clean l (by simp [hsplit])
  have hcheck : b.checkLine (xs.length + 1) = .ok () := by
    rw [Buffer.checkLine, h.lineCount, hsplit, if_neg]
    simp
  have hlast : l.getLast? ≠ some LF := fun hlast => hl.1 (List.mem_of_getLast? hlast)
  have hbytes : Utf8.encode (b.rope.line xs.length)
      = l ++ (if ys ≠ [] ∨ m.hasEol = true then [LF] else []) := by
    rw [h.rope_line hsplit, Utf8.encode_append, hl.encode_chars]
    split <;> simp [Utf8.encode_newline, LF]
  rw [Buffer.line, hcheck, Nat.add_sub_cancel, hbytes]
  show Except.ok _ = _
  congr 1
  split <;> simp_all

/-- `line` reads the model's list of lines, and rejects every other number. -/
theorem line (h : Represents b m) (n : Nat) :
    b.line n = if hn : 1 ≤ n ∧ n ≤ m.lines.length then
        .ok (m.lines.get ⟨n - 1, pred_lt_of_range hn⟩)
      else .error (.lineRange n n m.lines.length) := by
  split
  · next hn =>
    obtain ⟨k, rfl⟩ : ∃ k, n = k + 1 := ⟨n - 1, by omega⟩
    have hk : k < m.lines.length := by omega
    have hsplit : m.lines = m.lines.take k ++ m.lines[k] :: m.lines.drop (k + 1) := by
      rw [← List.drop_eq_getElem_cons hk, List.take_append_drop]
    have := h.line_of_split hsplit
    rw [List.length_take_of_le (by omega)] at this
    simpa using this
  · next hn =>
    have hcheck : b.checkLine n = .error (.lineRange n n m.lines.length) := by
      rw [Buffer.checkLine, h.lineCount, if_pos (by omega)]
    rw [Buffer.line, hcheck]
    rfl

end Represents

end Oxvim.Text
