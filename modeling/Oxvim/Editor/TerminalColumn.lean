import Oxvim.Editor.TerminalRender

/-!
# The column of the terminal cursor

A buffer cursor is a byte of its line, while the screen counts columns of cells. The byte is summed up cell by
cell, where the projection steps over the tails of wide cells: behind a wide cell the sum is too large.
-/

namespace Oxvim.Editor

open Lib RowMajor

namespace TerminalScreen

/-- The byte of the cursor within the projected line. -/
def cursorByteColumn (self : TerminalScreen) : Nat :=
  let start := self.cursor.row * self.size.cols
  let stop := start + min self.cursor.col self.size.cols
  let cells := if stop ≤ self.cells.length then (self.cells.take stop).drop start else []
  let bytes := (cells.map fun cell => cell.ch.elim 1 Char.utf8Size).sum
  min bytes (self.renderRow self.cursor.row).text.length

end TerminalScreen

namespace RenderedRow

/-! ## The cells left of a column -/

theorem emitted_narrow (start : Nat) {cell : Cell} (hnarrow : ¬cell.attrs.flags.contains .WIDE = true)
    (cells : List Cell) : emitted start (cell :: cells) = (start, cell) :: emitted (start + 1) cells := by
  cases cells with
  | nil => rfl
  | cons next rest => rw [emitted, if_neg hnarrow]

theorem le_of_mem_emitted {start : Nat} {cells : List Cell} {found : Nat × Cell}
    (h : found ∈ emitted start cells) : start ≤ found.1 := by
  fun_induction emitted start cells with
  | case1 => simp at h
  | case2 start cell =>
    rw [List.mem_singleton] at h
    rw [h]
  | case3 start cell next rest hwide ih =>
    rcases List.mem_cons.mp h with hfirst | hrest
    · rw [hfirst]
    · exact le_trans (Nat.le_add_right _ _) (ih hrest)
  | case4 start cell next rest hnarrow ih =>
    rcases List.mem_cons.mp h with hfirst | hrest
    · rw [hfirst]
    · exact le_trans (Nat.le_add_right _ _) (ih hrest)

/-- The projection as far as a column it does not step over. -/
structure SplitsAt (start : Nat) (cells : List Cell) (k : Nat) (before after : List (Nat × Cell)) : Prop where
  split : emitted start cells = before ++ after
  left : ∀ found ∈ before, found.1 < start + k
  right : ∀ found ∈ after, start + k ≤ found.1
  /-- Every tail that is stepped over has a byte of its own in the sum. -/
  bytes : (bytesOf (before.map Prod.snd)).length ≤ (bytesOf (cells.take k)).length
  narrow : (bytesOf (before.map Prod.snd)).length = (bytesOf (cells.take k)).length ↔
    ∀ cell ∈ cells.take k, ¬cell.attrs.flags.contains .WIDE = true

theorem splitsAt_zero (start : Nat) (cells : List Cell) : SplitsAt start cells 0 [] (emitted start cells) where
  split := rfl
  left := by simp
  right := fun _ => le_of_mem_emitted
  bytes := Nat.zero_le _
  narrow := by simp

theorem exists_splitsAt {start : Nat} {cells : List Cell} {k : Nat} {cell : Cell}
    (h : (start + k, cell) ∈ emitted start cells) : ∃ before after, SplitsAt start cells k before after := by
  fun_induction emitted start cells generalizing k with
  | case1 => simp at h
  | case2 start only =>
    obtain rfl : k = 0 := by simpa using congrArg Prod.fst (List.mem_singleton.mp h)
    exact ⟨_, _, splitsAt_zero start [only]⟩
  | case3 start first next rest hwide ih =>
    rcases List.mem_cons.mp h with hfirst | hrest
    · obtain rfl : k = 0 := by simpa using congrArg Prod.fst hfirst
      exact ⟨_, _, splitsAt_zero start _⟩
    · have hle : start + 2 ≤ start + k := le_of_mem_emitted hrest
      obtain ⟨m, rfl⟩ : ∃ m, k = m + 2 := ⟨k - 2, by omega⟩
      rw [show start + (m + 2) = start + 2 + m by omega] at hrest
      obtain ⟨before, after, hsplits⟩ := ih hrest
      have hbytes := hsplits.bytes
      have hpos := next.bytes_pos
      refine ⟨(start, first) :: before, after, ?_, fun found hfound => ?_, fun found hfound => ?_, ?_, ?_⟩
      · rw [emitted, if_pos hwide, hsplits.split, List.cons_append]
      · rcases List.mem_cons.mp hfound with hhere | hbehind
        · rw [hhere]
          omega
        · have := hsplits.left found hbehind
          omega
      · have := hsplits.right found hfound
        omega
      · rw [List.take_succ_cons, List.take_succ_cons, List.map_cons, bytesOf_cons, bytesOf_cons,
          bytesOf_cons, List.length_append, List.length_append, List.length_append]
        dsimp only
        omega
      · refine iff_of_false ?_ fun hall => hall first (by simp) hwide
        rw [List.take_succ_cons, List.take_succ_cons, List.map_cons, bytesOf_cons, bytesOf_cons,
          bytesOf_cons, List.length_append, List.length_append, List.length_append]
        dsimp only
        omega
  | case4 start first next rest hnarrow ih =>
    rcases List.mem_cons.mp h with hfirst | hrest
    · obtain rfl : k = 0 := by simpa using congrArg Prod.fst hfirst
      exact ⟨_, _, splitsAt_zero start _⟩
    · have hle : start + 1 ≤ start + k := le_of_mem_emitted hrest
      obtain ⟨m, rfl⟩ : ∃ m, k = m + 1 := ⟨k - 1, by omega⟩
      rw [show start + (m + 1) = start + 1 + m by omega] at hrest
      obtain ⟨before, after, hsplits⟩ := ih hrest
      have hbytes := hsplits.bytes
      have hnarrow' := hsplits.narrow
      refine ⟨(start, first) :: before, after, ?_, fun found hfound => ?_, fun found hfound => ?_, ?_, ?_⟩
      · rw [emitted_narrow start hnarrow, hsplits.split, List.cons_append]
      · rcases List.mem_cons.mp hfound with hhere | hbehind
        · rw [hhere]
          omega
        · have := hsplits.left found hbehind
          omega
      · have := hsplits.right found hfound
        omega
      · rw [List.take_succ_cons, List.map_cons, bytesOf_cons, bytesOf_cons, List.length_append,
          List.length_append]
        dsimp only
        omega
      · rw [List.take_succ_cons, List.map_cons, bytesOf_cons, bytesOf_cons, List.length_append,
          List.length_append, Nat.add_left_cancel_iff, hnarrow', List.forall_mem_cons]
        exact (and_iff_right hnarrow).symm

/-- The text reaches behind some cells just when there is a glyph behind them. -/
theorem rdropWhile_length_le (before after : List Cell) :
    (bytesOf ((before ++ after).rdropWhile (·.ch.isNone))).length ≤ (bytesOf before).length ↔
      ∀ cell ∈ after, cell.ch = none := by
  induction after using List.reverseRecOn with
  | nil =>
    refine iff_of_true ?_ (by simp)
    obtain ⟨rest, hrest⟩ := List.rdropWhile_prefix (fun cell : Cell => cell.ch.isNone) (before ++ [])
    have hlength := congrArg (fun cells => (bytesOf cells).length) hrest
    simp only [bytesOf_append, List.length_append, List.append_nil] at hlength ⊢
    omega
  | append_singleton after cell ih =>
    rw [← List.append_assoc, List.rdropWhile_concat]
    have hpos := cell.bytes_pos
    cases hch : cell.ch with
    | none =>
      rw [Option.isNone_none, if_pos rfl, ih]
      constructor
      · intro hall x hx
        rcases List.mem_append.mp hx with hx | hx
        · exact hall x hx
        · rw [List.mem_singleton.mp hx, hch]
      · intro hall x hx
        exact hall x (List.mem_append_left _ hx)
    | some ch =>
      rw [Option.isNone_some, if_neg (by simp)]
      refine iff_of_false ?_ fun hall => ?_
      · simp only [bytesOf_append, List.length_append, bytesOf_cons, bytesOf_nil, List.append_nil]
        omega
      · have := hall cell (by simp)
        rw [hch] at this
        cases this

end RenderedRow

namespace TerminalScreen

open RenderedRow

variable {s : TerminalScreen}

/-! ## The cursor -/

/-- The cells the projection of the cursor's row goes through. -/
def cursorRow (s : TerminalScreen) : List (Nat × Cell) := emitted 0 (s.rowCells s.cursor.row)

/-- The cursor is not on a cell that is stepped over as the second half of a wide glyph. -/
def OffTail (s : TerminalScreen) : Prop := ∃ found ∈ s.cursorRow, found.1 = s.cursor.col

instance (s : TerminalScreen) : Decidable s.OffTail :=
  inferInstanceAs (Decidable (∃ found ∈ s.cursorRow, found.1 = s.cursor.col))

/-- How many bytes the projection has for the cells left of the cursor. -/
def bytesLeft (s : TerminalScreen) : Nat :=
  (bytesOf ((s.cursorRow.filter fun found => found.1 < s.cursor.col).map Prod.snd)).length

/-- The byte of the cursor is the one behind the cells left of it, or the end of the line, and on a character
boundary of it. -/
structure CursorLaw (s : TerminalScreen) : Prop where
  column : s.cursorByteColumn = min s.bytesLeft (s.renderRow s.cursor.row).text.length
  boundary : (Utf8.decode? ((s.renderRow s.cursor.row).text.take s.cursorByteColumn)).isSome

theorem cursorByteColumn_eq (h : s.Sound) : s.cursorByteColumn =
    min (bytesOf ((s.rowCells s.cursor.row).take s.cursor.col)).length
      (s.renderRow s.cursor.row).text.length := by
  have hend := row_end_le s.size.cols h.cursorRow
  have hcol := h.cursorCol
  have hbytes : ∀ cells : List Cell,
      (cells.map fun cell => cell.ch.elim 1 Char.utf8Size).sum = (bytesOf cells).length := by
    intro cells
    rw [bytesOf, List.length_flatMap]
    congr 1
    apply List.map_congr_left
    intro cell _
    unfold Cell.bytes
    cases cell.ch with
    | none => rfl
    | some ch => exact (String.length_utf8EncodeChar ch).symm
  have hcells : (s.cells.take (s.cursor.row * s.size.cols + s.cursor.col)).drop (s.cursor.row * s.size.cols) =
      (s.rowCells s.cursor.row).take s.cursor.col := by
    rw [rowCells, row, List.take_take, Nat.min_eq_left hcol.le, List.drop_take, Nat.add_sub_cancel_left]
  rw [cursorByteColumn, hbytes, Nat.min_eq_left hcol.le, if_pos (by rw [h.cells]; omega), hcells]

/-- Where the cells left of the cursor end is on a character boundary. -/
theorem decode?_take_min (before after : List Cell) :
    (Utf8.decode? ((bytesOf ((before ++ after).rdropWhile (·.ch.isNone))).take
      (min (bytesOf before).length (bytesOf ((before ++ after).rdropWhile (·.ch.isNone))).length))).isSome := by
  obtain ⟨rest, hrest⟩ := List.rdropWhile_prefix (fun cell : Cell => cell.ch.isNone) (before ++ after)
  generalize (before ++ after).rdropWhile (·.ch.isNone) = shown at hrest ⊢
  rcases le_total (bytesOf before).length (bytesOf shown).length with hle | hle
  · have htake : (bytesOf shown).take (bytesOf before).length = bytesOf before := by
      have hall := congrArg (fun cells => (bytesOf cells).take (bytesOf before).length) hrest
      simp only [bytesOf_append, List.take_left] at hall
      rwa [List.take_append_of_le_length hle] at hall
    rw [min_eq_left hle, htake]
    exact decode?_bytesOf before
  · rw [min_eq_right hle, List.take_length]
    exact decode?_bytesOf shown

/-- **The byte of the cursor agrees with the projection just when no wide glyph is left of the cursor, or no
glyph is at the cursor or behind it.** -/
theorem cursorLaw_iff (width : Char → Nat) (size : ScreenSize) (events : List Event) :
    let s := run width events (new size)
    (s.OffTail → s.CursorLaw) ↔
      (s.OffTail →
        (∀ cell ∈ (s.rowCells s.cursor.row).take s.cursor.col, ¬cell.attrs.flags.contains .WIDE = true) ∨
          ∀ found ∈ s.cursorRow, s.cursor.col ≤ found.1 → found.2.ch = none) := by
  intro s
  have h : s.Sound := run_sound width events (new_sound size)
  refine forall_congr' fun hoff => ?_
  obtain ⟨⟨col, cell⟩, hmem, rfl⟩ := hoff
  obtain ⟨before, after, hsplits⟩ := exists_splitsAt ((Nat.zero_add s.cursor.col).symm ▸ hmem)
  have hrow : s.cursorRow = before ++ after := hsplits.split
  have hleft : s.bytesLeft = (bytesOf (before.map Prod.snd)).length := by
    have hbefore : before.filter (fun found => found.1 < s.cursor.col) = before :=
      List.filter_eq_self.mpr fun found hfound => by simpa using hsplits.left found hfound
    have hafter : after.filter (fun found => found.1 < s.cursor.col) = [] :=
      List.filter_eq_nil_iff.mpr fun found hfound => by simpa using hsplits.right found hfound
    rw [bytesLeft, hrow, List.filter_append, hbefore, hafter, List.append_nil]
  have htext : (s.renderRow s.cursor.row).text =
      bytesOf ((before.map Prod.snd ++ after.map Prod.snd).rdropWhile (·.ch.isNone)) := by
    have hrender := render_text (s.rowCells s.cursor.row)
    rw [shownCells, hsplits.split, List.map_append] at hrender
    exact hrender
  have hshort := rdropWhile_length_le (before.map Prod.snd) (after.map Prod.snd)
  rw [← htext] at hshort
  have hbehind : (∀ cell ∈ after.map Prod.snd, cell.ch = none) ↔
      ∀ found ∈ s.cursorRow, s.cursor.col ≤ found.1 → found.2.ch = none := by
    rw [List.forall_mem_map, hrow]
    constructor
    · intro hall found hfound hle
      rcases List.mem_append.mp hfound with hfound | hfound
      · have := hsplits.left found hfound
        omega
      · exact hall found hfound
    · intro hall found hfound
      have := hsplits.right found hfound
      exact hall found (List.mem_append_right _ hfound) (by omega)
  have hbytes := hsplits.bytes
  have hcolumn := cursorByteColumn_eq h
  rw [← hbehind, ← hshort, ← hsplits.narrow, ← hleft]
  rw [← hleft] at hbytes
  constructor
  · rintro ⟨heq, -⟩
    rw [hcolumn] at heq
    omega
  · intro hcases
    have heq : s.cursorByteColumn = min s.bytesLeft (s.renderRow s.cursor.row).text.length := by
      rw [hcolumn]
      omega
    refine ⟨heq, ?_⟩
    rw [heq, hleft, htext]
    exact decode?_take_min _ _

/-- Between two wide glyphs the byte of the cursor is one too large, inside of the second one. -/
theorem not_cursorLaw_wide :
    ¬∀ (width : Char → Nat) (size : ScreenSize) (events : List Event),
      (run width events (new size)).OffTail → (run width events (new size)).CursorLaw := by
  intro h
  have hlaw := h (fun ch => if ch = 'あ' then 2 else 1) ⟨1, 5⟩
    ([0xe3, 0x81, 0x82, 0xe3, 0x81, 0x82, 0x08, 0x08].map .byte) (by decide +kernel)
  exact absurd hlaw.column (by decide +kernel)

end TerminalScreen

end Oxvim.Editor
