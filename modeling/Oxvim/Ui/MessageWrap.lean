import Oxvim.Ui.GridWrite

/-!
# Wrapping message lines

A message line is a list of highlighted fragments. It is cut into screen lines character by
character: a screen line takes what still fits, and a character that is wider than the screen has a
line of its own. The loop ends because a pass either takes characters or starts a new line, which then
takes some.
-/

namespace Oxvim.Ui

/-- Text in one highlight. -/
structure Fragment where
  text : List Char
  hlId : UInt64
  deriving DecidableEq, Repr

/-- The columns of a character as the loop counts them; a control character has one. -/
def UnicodeWidth.cols (widths : UnicodeWidth) (character : Char) : Nat :=
  (widths.char character).getD 1

/-- How many characters of the text fit the remaining columns behind `w`, and the columns then. -/
def fitting (widths : UnicodeWidth) (remaining : Nat) : List Char → (w : Nat) → Nat × Nat
  | [], w => (0, w)
  | character :: text, w =>
    let cw := widths.cols character
    if w + cw > remaining then (0, w)
    else if w + cw = remaining then (1, w + cw)
    else
      let (count, w) := fitting widths remaining text (w + cw)
      (count + 1, w)

/-- The screen lines so far, and the line in progress with its columns. -/
structure Wrap where
  lines : List (List Fragment) := []
  current : List Fragment := []
  col : Nat := 0

namespace Wrap

/-- Ends the line in progress. -/
def flush (self : Wrap) : Wrap where
  lines := self.lines ++ [self.current]

/-- Appends a piece of `w` columns to the line in progress. -/
def push (self : Wrap) (piece : Fragment) (w : Nat) : Wrap :=
  { self with current := self.current ++ [piece], col := self.col + w }

end Wrap

/-- The loop over the text of one fragment. -/
def wrapText (widths : UnicodeWidth) (width : Nat) (hwidth : width ≠ 0) (hlId : UInt64)
    (state : Wrap) : List Char → Wrap
  | [] => state
  | first :: rest =>
    let remaining := width - state.col
    if remaining = 0 then wrapText widths width hwidth hlId state.flush (first :: rest)
    else
      let (count, w) := fitting widths remaining (first :: rest) 0
      if count = 0 then
        if state.current ≠ [] then wrapText widths width hwidth hlId state.flush (first :: rest)
        else wrapText widths width hwidth hlId (state.push ⟨[first], hlId⟩ (widths.cols first)) rest
      else
        wrapText widths width hwidth hlId (state.push ⟨(first :: rest).take count, hlId⟩ w)
          ((first :: rest).drop count)
termination_by text => (text.length, state.col + state.current.length)
decreasing_by
  · simp [Wrap.flush, Prod.lex_def]; omega
  · simp [Wrap.flush, Prod.lex_def, List.length_pos_iff]; grind
  · simp [Prod.lex_def]
  · simp [Prod.lex_def]; omega

/-- One fragment; an empty one is kept as it is. -/
def wrapFragment (widths : UnicodeWidth) (width : Nat) (hwidth : width ≠ 0) (state : Wrap)
    (fragment : Fragment) : Wrap :=
  if fragment.text = [] then state.push fragment 0
  else wrapText widths width hwidth fragment.hlId state fragment.text

/-- The screen lines of a message line. -/
def wrapFragments (widths : UnicodeWidth) (fragments : List Fragment) (width : Nat) :
    List (List Fragment) :=
  if hwidth : width = 0 then []
  else
    let state := fragments.foldl (wrapFragment widths width hwidth) {}
    if state.current ≠ [] then state.lines ++ [state.current] else state.lines

/-! ## Characters and columns -/

namespace Fragment

/-- The characters of a fragment with their highlights. -/
def chars (self : Fragment) : List (Char × UInt64) :=
  self.text.map fun character => (character, self.hlId)

/-- The characters of fragments one after another. -/
def charsOf (fragments : List Fragment) : List (Char × UInt64) :=
  fragments.flatMap chars

@[simp] theorem charsOf_nil : charsOf [] = [] := rfl

@[simp] theorem charsOf_append (a b : List Fragment) : charsOf (a ++ b) = charsOf a ++ charsOf b :=
  List.flatMap_append

@[simp] theorem charsOf_singleton (fragment : Fragment) : charsOf [fragment] = fragment.chars :=
  List.flatMap_singleton ..

end Fragment

open Fragment

/-- The columns of characters. -/
def UnicodeWidth.colsOf (widths : UnicodeWidth) (characters : List (Char × UInt64)) : Nat :=
  (characters.map fun character => widths.cols character.1).sum

variable {widths : UnicodeWidth} {width : Nat}

@[simp] theorem colsOf_nil : widths.colsOf [] = 0 := rfl

@[simp] theorem colsOf_append (a b : List (Char × UInt64)) :
    widths.colsOf (a ++ b) = widths.colsOf a + widths.colsOf b := by
  simp [UnicodeWidth.colsOf]

@[simp] theorem colsOf_cons (character : Char × UInt64) (rest : List (Char × UInt64)) :
    widths.colsOf (character :: rest) = widths.cols character.1 + widths.colsOf rest := by
  simp [UnicodeWidth.colsOf]

/-- A line fits the screen, or it is one character that is wider. -/
def FitsScreen (widths : UnicodeWidth) (width : Nat) (line : List Fragment) : Prop :=
  widths.colsOf (charsOf line) ≤ width ∨
    ∃ character, charsOf line = [character] ∧ width < widths.cols character.1

/-! ## The loop -/

/-- What fits are characters of the text with their columns. -/
theorem fitting_spec {remaining w : Nat} (hw : w ≤ remaining) (hlId : UInt64) (text : List Char) :
    (fitting widths remaining text w).2
        = w + widths.colsOf (chars ⟨text.take (fitting widths remaining text w).1, hlId⟩) ∧
      (fitting widths remaining text w).2 ≤ remaining := by
  induction text generalizing w with
  | nil => simp [fitting, chars, hw]
  | cons character text ih =>
    by_cases hover : w + widths.cols character > remaining
    · simp only [fitting, if_pos hover]
      exact ⟨by simp [chars], hw⟩
    · by_cases hfull : w + widths.cols character = remaining
      · simp only [fitting, if_neg hover, if_pos hfull]
        exact ⟨by simp [chars], by omega⟩
      · obtain ⟨hsum, hle⟩ := @ih (w + widths.cols character) (by omega)
        simp only [fitting, if_neg hover, if_neg hfull]
        refine ⟨?_, hle⟩
        rw [hsum]
        simp [chars]
        omega

namespace Wrap

/-- All characters so far. -/
def chars (self : Wrap) : List (Char × UInt64) :=
  self.lines.flatMap charsOf ++ charsOf self.current

/-- The lines fit, and the columns are those of the line in progress. -/
structure Good (widths : UnicodeWidth) (width : Nat) (state : Wrap) : Prop where
  lines : ∀ line ∈ state.lines, FitsScreen widths width line
  current : FitsScreen widths width state.current
  col : state.col = widths.colsOf (charsOf state.current)

variable {state : Wrap}

theorem good_new : Good widths width {} :=
  ⟨by simp, .inl (Nat.zero_le _), rfl⟩

@[simp] theorem chars_flush (state : Wrap) : state.flush.chars = state.chars := by
  simp [flush, chars]

@[simp] theorem chars_push (state : Wrap) (piece : Fragment) (w : Nat) :
    (state.push piece w).chars = state.chars ++ piece.chars := by
  simp [push, chars]

theorem Good.flush (h : state.Good widths width) : state.flush.Good widths width := by
  refine ⟨?_, .inl (Nat.zero_le _), rfl⟩
  intro line hline
  rcases List.mem_append.mp hline with hline | hline
  · exact h.lines line hline
  · exact List.mem_singleton.mp hline ▸ h.current

theorem Good.push (h : state.Good widths width) {piece : Fragment} {w : Nat}
    (hw : w = widths.colsOf piece.chars)
    (hfits : FitsScreen widths width (state.current ++ [piece])) :
    (state.push piece w).Good widths width := by
  refine ⟨h.lines, hfits, ?_⟩
  simp [Wrap.push, h.col, hw]

end Wrap

/-- **The loop appends the characters of the text, and keeps the lines within the screen.** -/
theorem wrapText_spec (hwidth : width ≠ 0) (hlId : UInt64) {state : Wrap}
    (h : state.Good widths width) (text : List Char) :
    (wrapText widths width hwidth hlId state text).chars = state.chars ++ Fragment.chars ⟨text, hlId⟩ ∧
      (wrapText widths width hwidth hlId state text).Good widths width := by
  fun_induction wrapText widths width hwidth hlId state text with
  | case1 state => exact ⟨by simp [Fragment.chars], h⟩
  | case2 state first rest remaining hzero ih =>
    -- the line is full
    rw [← state.chars_flush]
    exact ih h.flush
  | case3 state first rest remaining hzero w hcurrent hfit ih =>
    rw [← state.chars_flush]
    exact ih h.flush
  | case4 state first rest remaining hzero w hcurrent hfit ih =>
    -- a line of its own
    have hempty : state.current = [] := not_not.mp hcurrent
    obtain ⟨hchars, hgood⟩ := ih (h.push (by simp [Fragment.chars]) (by
      rw [hempty, List.nil_append]
      by_cases hwide : width < widths.cols first
      · exact .inr ⟨(first, hlId), rfl, hwide⟩
      · exact .inl (by simp [Fragment.chars]; omega)))
    exact ⟨by rw [hchars]; simp [Fragment.chars], hgood⟩
  | case5 state first rest remaining hzero count w hfit hcount ih =>
    -- a piece that fits
    obtain ⟨hsum, hle⟩ := fitting_spec (Nat.zero_le remaining) hlId
      (first :: rest)
    rw [hfit, Nat.zero_add] at hsum
    rw [hfit] at hle
    have hcol := h.col
    obtain ⟨hchars, hgood⟩ := ih (h.push hsum (.inl (by
      rw [charsOf_append, charsOf_singleton, colsOf_append, ← hsum]
      omega)))
    refine ⟨?_, hgood⟩
    rw [hchars, Wrap.chars_push, List.append_assoc]
    simp only [Fragment.chars, ← List.map_append, List.take_append_drop]

end Oxvim.Ui
