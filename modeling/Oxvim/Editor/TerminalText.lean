import Oxvim.Editor.TerminalRuns

/-!
# Text on the terminal screen

Lines that are written one after another stand in the scrollback and on the screen, each of them cut into
pieces that fit in a row.
-/

namespace Oxvim.Editor

open Lib RowMajor

variable (width : Char → Nat)

/-! ## Pieces of lines -/

/-- How many columns a piece of text takes. -/
def columns (piece : List Char) : Nat := (piece.map width).sum

/-- Cuts text greedily, behind a piece that has been begun. -/
def cutFrom (cols : Nat) : List Char → List Char → List (List Char)
  | piece, [] => [piece]
  | piece, ch :: rest =>
    if columns width piece + width ch ≤ cols then cutFrom cols (piece ++ [ch]) rest
    else piece :: cutFrom cols [ch] rest

/-- The pieces of a line; an empty line is one empty piece. -/
def cut (cols : Nat) (line : List Char) : List (List Char) := cutFrom width cols [] line

theorem cutFrom_length_pos (cols : Nat) (piece text : List Char) : 0 < (cutFrom width cols piece text).length := by
  induction text generalizing piece with
  | nil => exact one_pos
  | cons ch text ih =>
    rw [cutFrom]
    split
    · exact ih _
    · exact Nat.succ_pos _

theorem columns_concat (piece : List Char) (ch : Char) :
    columns width (piece ++ [ch]) = columns width piece + width ch := by
  rw [columns, List.map_append, List.sum_append]
  rfl

/-- The cells of a character; a wide one owns the cell behind it. -/
def glyphs (ch : Char) : List Cell :=
  if width ch = 2 then [⟨some ch, { CellAttrs.default with flags := .WIDE }⟩, .EMPTY]
  else [⟨some ch, .default⟩]

/-- The row of a piece of text. -/
def rowOf (cols : Nat) (piece : List Char) : List Cell :=
  piece.flatMap (glyphs width) ++ List.replicate (cols - columns width piece) .EMPTY

/-- Characters that take one column or two. -/
def Printable (text : List Char) : Prop := ∀ ch ∈ text, width ch = 1 ∨ width ch = 2

theorem length_glyphs {ch : Char} (h : width ch = 1 ∨ width ch = 2) :
    (glyphs width ch).length = width ch := by
  rw [glyphs]
  rcases h with h | h
  · rw [h, if_neg (by decide)]
    rfl
  · rw [h, if_pos rfl]
    rfl

theorem length_flatMap_glyphs {piece : List Char} (h : Printable width piece) :
    (piece.flatMap (glyphs width)).length = columns width piece := by
  induction piece with
  | nil => rfl
  | cons ch piece ih =>
    rw [List.flatMap_cons, List.length_append, length_glyphs width (h ch List.mem_cons_self),
      ih fun c hc => h c (List.mem_cons_of_mem _ hc)]
    rfl

/-! ## Rendering -/

namespace RenderedRow

theorem draft_narrow (cell : Cell) (hnarrow : cell.attrs.flags.contains .WIDE = false) (rest : List Cell)
    (acc : Draft) : draft (cell :: rest) acc = draft rest (acc.add cell) := by
  cases rest with
  | nil => rfl
  | cons next rest => rw [draft, if_neg (by rw [hnarrow]; exact Bool.false_ne_true)]

theorem draft_wide (cell next : Cell) (hwide : cell.attrs.flags.contains .WIDE = true) (rest : List Cell)
    (acc : Draft) : draft (cell :: next :: rest) acc = draft rest (acc.add cell) := by
  rw [draft, if_pos hwide]

theorem draft_empty (n : Nat) (acc : Draft) :
    draft (List.replicate n .EMPTY) acc =
      ⟨acc.text ++ List.replicate n 0x20, acc.spans, acc.written⟩ := by
  induction n generalizing acc with
  | zero => rw [List.replicate_zero, List.replicate_zero, List.append_nil]; rfl
  | succ n ih =>
    rw [List.replicate_succ, draft_narrow _ (by decide), ih]
    show (⟨acc.text ++ [0x20] ++ _, acc.spans, acc.written⟩ : Draft) = _
    rw [List.append_assoc]
    rfl

/-- The glyphs of text are its bytes, without highlights. -/
theorem draft_glyphs (piece : List Char) (cells : List Cell) (text : List UInt8) :
    draft (piece.flatMap (glyphs width) ++ cells) ⟨text, [], text.length⟩ =
      draft cells ⟨text ++ Utf8.encode piece, [], (text ++ Utf8.encode piece).length⟩ := by
  induction piece generalizing text with
  | nil => rw [List.flatMap_nil, List.nil_append, Utf8.encode_nil, List.append_nil]
  | cons ch piece ih =>
    have hadd : ∀ attrs : CellAttrs, attrs.isDefault = true →
        Draft.add ⟨text, [], text.length⟩ ⟨some ch, attrs⟩ =
          ⟨text ++ String.utf8EncodeChar ch, [], (text ++ String.utf8EncodeChar ch).length⟩ := by
      intro attrs hattrs
      rw [Draft.add, hattrs]
      rfl
    rw [List.flatMap_cons, List.append_assoc, glyphs, Utf8.encode_cons, ← List.append_assoc text]
    split
    · have hwide : CellFlags.WIDE.contains .WIDE = true := by decide
      rw [List.cons_append, List.cons_append, draft_wide _ _ hwide, hadd _ (by decide)]
      exact ih _
    · have hnarrow : CellFlags.empty.contains .WIDE = false := by decide
      rw [List.cons_append, draft_narrow _ hnarrow, hadd _ (by decide)]
      exact ih _

/-- The row of a piece is rendered as the bytes of the piece. -/
theorem render_rowOf (cols : Nat) (piece : List Char) :
    render (rowOf width cols piece) = ⟨Utf8.encode piece, []⟩ := by
  have hdraft : draft (rowOf width cols piece) ⟨[], [], 0⟩ =
      ⟨Utf8.encode piece ++ List.replicate (cols - columns width piece) 0x20, [],
        (Utf8.encode piece).length⟩ := by
    refine (draft_glyphs width piece _ []).trans ?_
    rw [draft_empty, List.nil_append]
  rw [render, hdraft]
  dsimp only
  rw [List.take_left]
  rfl

end RenderedRow

/-! ## Rows behind one another -/

namespace TerminalScreen

variable {s t : TerminalScreen}

/-- The scrollback, and the screen down to the cursor. -/
def virtualRows (s : TerminalScreen) : List (List Cell) :=
  s.scrollback ++ (List.range (s.cursor.row + 1)).map s.rowCells

/-- The state in which text is written: the primary screen scrolls as a whole, with the default pen. -/
structure Plain (s : TerminalScreen) : Prop extends Sound s where
  low : s.inAltscreen = false
  top : s.scrollTop = 0
  whole : s.scrollBottom + 1 = s.size.rows
  pen : s.pen = .default
  autowrap : s.autowrap = true
  ground : s.state = .ground
  twoCols : 2 ≤ s.size.cols

/-- The rows below the cursor are empty. -/
def BelowEmpty (s : TerminalScreen) : Prop :=
  ∀ r, s.cursor.row < r → r < s.size.rows → s.rowCells r = List.replicate s.size.cols .EMPTY

/-- A new row: what `advanceRow` does to the rows. -/
structure NewRow (s t : TerminalScreen) : Prop where
  rows : t.virtualRows = s.virtualRows ++ [List.replicate s.size.cols .EMPTY]
  below : t.BelowEmpty
  plain : t.Plain
  col : t.cursor.col = s.cursor.col
  pendingWrap : t.pendingWrap = s.pendingWrap
  size : t.size = s.size
  limit : t.scrollbackLimit = s.scrollbackLimit

/-- The rows of a screen that scrolls up by one. -/
theorem scrollUp_newRow (h : s.Plain) (hcursor : s.cursor.row = s.scrollBottom)
    (hroom : s.virtualRows.length + 1 ≤ s.size.rows + s.scrollbackLimit) : NewRow s (s.scrollUp 1) := by
  obtain ⟨hscrolls, hmoves, hscrollback⟩ := scrollUp_spec h.toSound 1
  have hone : min 1 s.regionHeight = 1 := Nat.min_eq_left (Nat.le_add_left 1 _)
  rw [hone] at hmoves hscrollback
  have hwhole := h.whole
  rw [virtualRows, List.length_append, List.length_map, List.length_range, hcursor, hwhole] at hroom
  have hpushed : (s.scrollUp 1).scrollback = s.scrollback ++ [s.rowCells 0] := by
    rw [hscrollback, feedScrollback, if_pos ⟨⟨h.top, hwhole⟩, h.low⟩, h.top]
    show (s.pushScrollback 0).scrollback = _
    have hcells := row_end_le s.size.cols (Nat.zero_lt_of_lt h.cursorRow)
    rw [pushScrollback, if_neg (by omega), if_neg (by rw [h.cells]; omega)]
    dsimp only
    rw [if_neg (by omega)]
  have hcursor' : (s.scrollUp 1).cursor = s.cursor := congrArg Hand.cursor hscrolls.hand
  have hbottom' : (s.scrollUp 1).scrollBottom = s.scrollBottom := congrArg Hand.scrollBottom hscrolls.hand
  refine ⟨?_, ?_, ?_, ?_, congrArg Hand.pendingWrap hscrolls.hand, hscrolls.size, hscrolls.limit⟩
  · have hlast : (s.scrollUp 1).rowCells s.scrollBottom = List.replicate s.size.cols .EMPTY := by
      rw [hmoves, if_pos ⟨h.region, le_rfl⟩, if_neg (by omega), h.pen]
      rfl
    have hmoved : (List.range s.scrollBottom).map (s.scrollUp 1).rowCells =
        (List.range s.scrollBottom).map fun r => s.rowCells (r + 1) := by
      apply List.map_congr_left
      intro r hr
      have hr := List.mem_range.mp hr
      rw [hmoves, h.top, if_pos ⟨Nat.zero_le _, hr.le⟩, if_pos (show r + 1 ≤ s.scrollBottom from hr)]
    rw [virtualRows, virtualRows, hpushed, hcursor', hcursor, List.range_succ, List.map_append,
      List.map_singleton, hlast, hmoved, ← List.range_succ, List.range_succ_eq_map, List.map_cons,
      List.map_map, List.append_assoc, List.append_assoc]
    rfl
  · intro r hlow hhigh
    rw [hcursor', hcursor] at hlow
    rw [congrArg ScreenSize.rows hscrolls.size] at hhigh
    omega
  · refine ⟨hscrolls.steps.sound h.toSound, (Steps.inAltscreen hscrolls.steps).trans h.low,
      (congrArg Hand.scrollTop hscrolls.hand).trans h.top, ?_,
      (congrArg Hand.pen hscrolls.hand).trans h.pen, (congrArg Hand.autowrap hscrolls.hand).trans h.autowrap,
      (congrArg Hand.state hscrolls.hand).trans h.ground, ?_⟩
    · rw [hbottom', hscrolls.size]
      exact hwhole
    · rw [hscrolls.size]
      exact h.twoCols
  · rw [hcursor']

theorem advanceRow_newRow (h : s.Plain) (hbelow : s.BelowEmpty)
    (hroom : s.virtualRows.length + 1 ≤ s.size.rows + s.scrollbackLimit) : NewRow s s.advanceRow := by
  rw [advanceRow]
  split
  · next hcursor => exact scrollUp_newRow h hcursor hroom
  next hinside =>
  have hrow := h.cursorRow
  have hwhole := h.whole
  have hnext : s.cursor.row + 1 < s.size.rows := by omega
  rw [if_pos hnext]
  refine ⟨?_, ?_, ⟨⟨⟨hnext, h.cursorCol, h.region, h.bottom, h.params, h.marks⟩, h.cells, h.scrollback,
    h.parked, h.damage, h.unharmed⟩, h.low, h.top, h.whole, h.pen, h.autowrap, h.ground, h.twoCols⟩, rfl, rfl,
    rfl, rfl⟩
  · have hempty := hbelow (s.cursor.row + 1) (Nat.lt_succ_self _) hnext
    show s.scrollback ++ (List.range (s.cursor.row + 1 + 1)).map s.rowCells = _
    rw [List.range_succ, List.map_append, List.map_singleton, hempty, ← List.append_assoc]
    rfl
  · intro r hlow hhigh
    exact hbelow r (Nat.lt_of_succ_lt hlow) hhigh

/-! ## Writing text -/

/-- The rows show these pieces, and the cursor is behind the last of them. -/
structure Shows (s : TerminalScreen) (done : List (List Char)) (piece : List Char) : Prop where
  plain : s.Plain
  rows : s.virtualRows = (done ++ [piece]).map (rowOf width s.size.cols)
  below : s.BelowEmpty
  printable : Printable width piece
  fits : columns width piece ≤ s.size.cols
  col : s.cursor.col = min (columns width piece) (s.size.cols - 1)
  pendingWrap : s.pendingWrap = decide (columns width piece = s.size.cols)

variable {done : List (List Char)} {piece : List Char}

theorem Shows.length (h : s.Shows width done piece) : s.virtualRows.length = done.length + 1 := by
  rw [h.rows, List.length_map, List.length_append]
  rfl

/-- The first column of a new row. -/
theorem Shows.newRow (h : s.Shows width done piece) {u : TerminalScreen} (hu : u.cursor.col = 0)
    (hwrap : u.pendingWrap = false) (hnew : NewRow u t) (hrows : u.virtualRows = s.virtualRows)
    (hsize : u.size = s.size) : t.Shows width (done ++ [piece]) [] := by
  refine ⟨hnew.plain, ?_, hnew.below, fun _ hch => absurd hch List.not_mem_nil, Nat.zero_le _, ?_, ?_⟩
  · have hsplit : ∀ f : List Char → List Cell,
        ((done ++ [piece]) ++ [[]]).map f = (done ++ [piece]).map f ++ [f []] := fun _ => List.map_append
    rw [hnew.rows, hrows, hnew.size, hsize, h.rows, hsplit]
    rfl
  · rw [hnew.col, hu]
    exact (Nat.zero_min _).symm
  · have hcols := hnew.plain.twoCols
    rw [hnew.pendingWrap, hwrap]
    symm
    apply decide_eq_false
    show 0 ≠ t.size.cols
    omega

/-- What is in the way of the pieces does not depend on the parser. -/
theorem Shows.parser (h : s.Shows width done piece) (utf8 : Utf8Accumulator) :
    Shows width { s with utf8 } done piece :=
  ⟨⟨⟨⟨h.plain.cursorRow, h.plain.cursorCol, h.plain.region, h.plain.bottom, h.plain.params, h.plain.marks⟩,
    h.plain.cells, h.plain.scrollback, h.plain.parked, h.plain.damage, h.plain.unharmed⟩, h.plain.low,
    h.plain.top, h.plain.whole, h.plain.pen, h.plain.autowrap, h.plain.ground, h.plain.twoCols⟩, h.rows,
    h.below, h.printable, h.fits, h.col, h.pendingWrap⟩

/-- To the first column, with nothing deferred. -/
def atStart (s : TerminalScreen) : TerminalScreen :=
  { s with cursor := { s.cursor with col := 0 }, pendingWrap := false }

theorem Shows.nextRow (h : s.Shows width done piece)
    (hroom : done.length + 2 ≤ s.size.rows + s.scrollbackLimit) :
    s.atStart.advanceRow.Shows width (done ++ [piece]) [] ∧ s.atStart.advanceRow.size = s.size ∧
      s.atStart.advanceRow.scrollbackLimit = s.scrollbackLimit := by
  have hplain : s.atStart.Plain :=
    ⟨⟨⟨h.plain.cursorRow, Nat.zero_lt_of_lt h.plain.cursorCol, h.plain.region, h.plain.bottom,
      h.plain.params, h.plain.marks⟩, h.plain.cells, h.plain.scrollback, h.plain.parked, h.plain.damage,
      h.plain.unharmed⟩, h.plain.low, h.plain.top, h.plain.whole, h.plain.pen, h.plain.autowrap,
      h.plain.ground, h.plain.twoCols⟩
  have hlength : s.atStart.virtualRows.length = done.length + 1 := h.length
  have hnew := advanceRow_newRow hplain h.below (by rw [hlength]; exact hroom)
  exact ⟨h.newRow width rfl rfl hnew rfl rfl, hnew.size, hnew.limit⟩

/-- A line end. -/
theorem Shows.lineEnd (h : s.Shows width done piece)
    (hroom : done.length + 2 ≤ s.size.rows + s.scrollbackLimit) :
    (s.write width [0x0d, 0x0a]).Shows width (done ++ [piece]) [] ∧
      (s.write width [0x0d, 0x0a]).size = s.size ∧
      (s.write width [0x0d, 0x0a]).scrollbackLimit = s.scrollbackLimit := by
  have hwrite : s.write width [0x0d, 0x0a] = s.atStart.advanceRow := by
    show writeByte width (writeByte width s 0x0d) 0x0a = _
    have hfirst : writeByte width s 0x0d = s.carriageReturn := by
      rw [writeByte, h.plain.ground]
      rfl
    rw [hfirst, writeByte, show s.carriageReturn.state = .ground from h.plain.ground]
    rfl
  rw [hwrite]
  exact h.nextRow width hroom

/-- The row under the cursor as the last one. -/
theorem Shows.cursorRow (h : s.Shows width done piece) :
    s.rowCells s.cursor.row = rowOf width s.size.cols piece := by
  have hrows := h.rows
  rw [virtualRows, List.range_succ, List.map_append, ← List.append_assoc, List.map_append] at hrows
  exact List.singleton_injective (List.append_inj_right' hrows rfl)

/-- Writing the first of the empty cells. -/
theorem set_front (front : List Cell) (cell : Cell) {n : Nat} (hn : 0 < n) :
    (front ++ List.replicate n Cell.EMPTY).set front.length cell =
      (front ++ [cell]) ++ List.replicate (n - 1) Cell.EMPTY := by
  obtain ⟨m, rfl⟩ : ∃ m, n = m + 1 := ⟨n - 1, by omega⟩
  rw [List.set_append_right _ _ le_rfl, Nat.sub_self, List.replicate_succ, List.set_cons_zero,
    List.append_assoc]
  rfl

/-- A row in which cells have been written up to some column. -/
structure RowIs (s : TerminalScreen) (cells : List Cell) (target : Nat) (front : List Cell) : Prop where
  length : cells.length = s.cells.length
  row : row s.size.cols cells target = front ++ List.replicate (s.size.cols - front.length) .EMPTY
  other : ∀ r, r ≠ target → RowMajor.row s.size.cols cells r = s.rowCells r

theorem RowIs.setCell {cells : List Cell} {target : Nat} {front : List Cell} (h : s.RowIs cells target front)
    (htarget : target < s.size.rows) (hroom : front.length < s.size.cols) (cell : Cell) :
    ∃ cells', (s.withCells cells).setCell target front.length cell = s.withCells cells' ∧
      s.RowIs cells' target (front ++ [cell]) := by
  have hset : (s.withCells cells).setCell target front.length cell =
      s.withCells (cells.set (target * s.size.cols + front.length) cell) := by
    rw [TerminalScreen.setCell, if_neg]
    · rfl
    · exact not_or.mpr ⟨not_le.mpr hroom, not_le.mpr htarget⟩
  refine ⟨_, hset, List.length_set.trans h.length, ?_, ?_⟩
  · rw [row_set hroom, if_pos rfl, h.row, set_front _ _ (by omega), List.length_append,
      List.length_singleton, Nat.sub_sub]
  · intro r hr
    rw [row_set hroom, if_neg hr, h.other r hr]

/-- The cells of a glyph behind those of a piece. -/
theorem Shows.glyphCells (h : s.Shows width done piece) {ch : Char} (hch : width ch = 1 ∨ width ch = 2)
    (hfits : columns width piece + width ch ≤ s.size.cols) :
    ∃ cells, (if width ch = 2 then
        (s.setCell s.cursor.row (columns width piece)
          ⟨some ch, if width ch = 2 then { s.pen with flags := s.pen.flags.union .WIDE } else s.pen⟩).setCell
            s.cursor.row (columns width piece + 1) ⟨none, s.pen⟩
      else s.setCell s.cursor.row (columns width piece)
          ⟨some ch, if width ch = 2 then { s.pen with flags := s.pen.flags.union .WIDE } else s.pen⟩) =
        s.withCells cells ∧
      s.RowIs cells s.cursor.row ((piece ++ [ch]).flatMap (glyphs width)) := by
  have hlength := length_flatMap_glyphs width h.printable
  have hstart : s.RowIs s.cells s.cursor.row (piece.flatMap (glyphs width)) := by
    refine ⟨rfl, ?_, fun _ _ => rfl⟩
    rw [hlength]
    exact h.cursorRow
  have hpen := h.plain.pen
  have hinside := h.plain.cursorRow
  rw [← hlength] at hfits ⊢
  obtain ⟨cells₁, hset₁, his₁⟩ := hstart.setCell hinside (by omega)
    ⟨some ch, if width ch = 2 then { s.pen with flags := s.pen.flags.union .WIDE } else s.pen⟩
  rw [show s.withCells s.cells = s from rfl] at hset₁
  rw [hset₁, List.flatMap_append, List.flatMap_singleton, glyphs]
  rcases hch with hone | htwo
  · have hnarrow : ¬width ch = 2 := by omega
    rw [if_neg hnarrow, if_neg hnarrow]
    rw [if_neg hnarrow, hpen] at his₁
    exact ⟨cells₁, rfl, his₁⟩
  · rw [if_pos htwo, if_pos htwo]
    rw [if_pos htwo, hpen] at his₁
    obtain ⟨cells₂, hset₂, his₂⟩ := his₁.setCell hinside
      (by rw [List.length_append, List.length_singleton]; omega) ⟨none, s.pen⟩
    rw [List.length_append, List.length_singleton] at hset₂
    rw [hpen, List.append_assoc] at his₂
    exact ⟨cells₂, hset₂, his₂⟩

/-- A glyph that fits in the row. -/
theorem Shows.putGlyph (h : s.Shows width done piece) {ch : Char} (hch : width ch = 1 ∨ width ch = 2)
    (hfits : columns width piece + width ch ≤ s.size.cols) :
    (s.putGlyph ch (width ch)).Shows width done (piece ++ [ch]) ∧
      (s.putGlyph ch (width ch)).size = s.size ∧
      (s.putGlyph ch (width ch)).scrollbackLimit = s.scrollbackLimit := by
  have hcol : s.cursor.col = columns width piece := by
    rw [h.col]
    omega
  have hsound := (putGlyph_steps h.plain.toSound ch (width ch)).sound h.plain.toSound
  obtain ⟨cells, hcells, his⟩ := h.glyphCells width hch hfits
  have hprintable : Printable width (piece ++ [ch]) := by
    intro c hc
    rcases List.mem_append.mp hc with hc | hc
    · exact h.printable c hc
    · rw [List.mem_singleton.mp hc]
      exact hch
  have hcolumns := columns_concat width piece ch
  have hpending : s.pendingWrap = false := by
    rw [h.pendingWrap, decide_eq_false]
    omega
  -- the rows above the cursor stay, and the one under it takes the glyph
  have hrows : s.scrollback ++ (List.range (s.cursor.row + 1)).map (row s.size.cols cells) =
      (done ++ [piece ++ [ch]]).map (rowOf width s.size.cols) := by
    have hold := h.rows
    rw [virtualRows, List.range_succ, List.map_append, ← List.append_assoc, List.map_append] at hold
    have habove : (List.range s.cursor.row).map (row s.size.cols cells) =
        (List.range s.cursor.row).map s.rowCells := by
      apply List.map_congr_left
      intro r hr
      exact his.other r (List.mem_range.mp hr).ne
    have hunder : row s.size.cols cells s.cursor.row = rowOf width s.size.cols (piece ++ [ch]) := by
      rw [his.row, length_flatMap_glyphs width hprintable]
      rfl
    rw [List.range_succ, List.map_append, ← List.append_assoc, habove, List.map_singleton, hunder,
      List.append_inj_left' hold rfl, List.map_append]
    rfl
  have hbelow : ∀ r, s.cursor.row < r → r < s.size.rows →
      row s.size.cols cells r = List.replicate s.size.cols .EMPTY := by
    intro r hlow hhigh
    rw [his.other r hlow.ne']
    exact h.below r hlow hhigh
  rw [TerminalScreen.putGlyph] at hsound ⊢
  dsimp only at hsound ⊢
  rw [hcol, hcells] at hsound ⊢
  by_cases hfull : s.size.cols ≤ columns width piece + width ch
  · rw [if_pos hfull] at hsound ⊢
    refine ⟨⟨⟨hsound, h.plain.low, h.plain.top, h.plain.whole, h.plain.pen, h.plain.autowrap, h.plain.ground,
      h.plain.twoCols⟩, hrows, hbelow, hprintable, ?_, ?_, ?_⟩, rfl, rfl⟩
    · rw [hcolumns]
      exact hfits
    · show s.size.cols - 1 = min (columns width (piece ++ [ch])) (s.size.cols - 1)
      omega
    · show s.autowrap = decide (columns width (piece ++ [ch]) = s.size.cols)
      rw [h.plain.autowrap, decide_eq_true]
      omega
  · rw [if_neg hfull] at hsound ⊢
    refine ⟨⟨⟨hsound, h.plain.low, h.plain.top, h.plain.whole, h.plain.pen, h.plain.autowrap, h.plain.ground,
      h.plain.twoCols⟩, hrows, hbelow, hprintable, ?_, ?_, ?_⟩, rfl, rfl⟩
    · rw [hcolumns]
      exact hfits
    · show columns width piece + width ch = min (columns width (piece ++ [ch])) (s.size.cols - 1)
      omega
    · show s.pendingWrap = decide (columns width (piece ++ [ch]) = s.size.cols)
      rw [hpending, decide_eq_false]
      omega

/-- A character goes behind the piece, or begins the next one. -/
theorem Shows.putChar (h : s.Shows width done piece) {ch : Char} (hch : width ch = 1 ∨ width ch = 2)
    (hroom : ¬columns width piece + width ch ≤ s.size.cols →
      done.length + 2 ≤ s.size.rows + s.scrollbackLimit) :
    (if columns width piece + width ch ≤ s.size.cols then
        (s.putChar width ch).Shows width done (piece ++ [ch])
      else (s.putChar width ch).Shows width (done ++ [piece]) [ch]) ∧
      (s.putChar width ch).size = s.size ∧ (s.putChar width ch).scrollbackLimit = s.scrollbackLimit := by
  have htwo := h.plain.twoCols
  have hauto := h.plain.autowrap
  have hput : s.putChar width ch = (s.deferredWrap.earlyWrap (width ch)).putGlyph ch (width ch) :=
    if_neg (by omega)
  rw [hput]
  by_cases hfits : columns width piece + width ch ≤ s.size.cols
  · rw [if_pos hfits]
    have hcol : s.cursor.col = columns width piece := by
      rw [h.col]
      omega
    have hpending : s.pendingWrap = false := by
      rw [h.pendingWrap, decide_eq_false]
      omega
    have hdeferred : s.deferredWrap = s := by
      rw [deferredWrap, hpending]
      rfl
    rw [hdeferred, earlyWrap, if_neg (by omega)]
    exact h.putGlyph width hch hfits
  rw [if_neg hfits]
  obtain ⟨hnext, hsize, hlimit⟩ := h.nextRow width (hroom hfits)
  have hwrapped : s.deferredWrap.earlyWrap (width ch) = s.atStart.advanceRow := by
    by_cases hfull : columns width piece = s.size.cols
    · -- the wrap was deferred
      have hpending : s.pendingWrap = true := by
        rw [h.pendingWrap, decide_eq_true hfull]
      have hdeferred : s.deferredWrap = s.atStart.advanceRow := by
        rw [deferredWrap, if_pos hpending, if_pos hauto]
        rfl
      have hstart : s.atStart.advanceRow.cursor.col = 0 := by
        rw [hnext.col]
        exact Nat.zero_min _
      rw [hdeferred, earlyWrap, if_neg]
      rw [hstart, hsize]
      omega
    · -- a wide glyph does not fit in the last column
      have hpending : s.pendingWrap = false := by
        rw [h.pendingWrap, decide_eq_false hfull]
      have hdeferred : s.deferredWrap = s := by
        rw [deferredWrap, hpending]
        rfl
      have hcol := h.col
      have hinside := h.fits
      rw [hdeferred, earlyWrap, if_pos ⟨by omega, by omega, hauto⟩, wrapRow, atStart, hpending.symm]
  rw [hwrapped]
  obtain ⟨hshows, hsize', hlimit'⟩ := hnext.putGlyph width hch (by
    rw [hsize]
    show 0 + width ch ≤ s.size.cols
    omega)
  exact ⟨hshows, hsize'.trans hsize, hlimit'.trans hlimit⟩

/-! ## Bytes of text -/

/-- A continuation byte that is not the last one. -/
theorem utf8Continue_more {b : UInt8} (hb : Utf8.IsContinuation b) (hfour : s.utf8.need ≤ 4)
    (hmore : s.utf8.bytes.length + 1 < s.utf8.need) :
    s.utf8Continue width b = { s with utf8 := ⟨s.utf8.bytes ++ [b], s.utf8.need⟩ } := by
  have haccumulate : accumulate s.utf8 b = ⟨s.utf8.bytes ++ [b], s.utf8.need⟩ := by
    rw [accumulate, if_pos (by omega)]
  rw [utf8Continue, if_neg (not_not.mpr (show 0x80 ≤ b ∧ b ≤ 0xbf from hb)), haccumulate, if_pos]
  rw [List.length_append]
  exact hmore

/-- The last continuation byte. -/
theorem utf8Continue_last {b : UInt8} (hb : Utf8.IsContinuation b) (hfour : s.utf8.need ≤ 4)
    (hlast : s.utf8.bytes.length + 1 = s.utf8.need) {ch : Char}
    (hch : Utf8.decode? (s.utf8.bytes ++ [b]) = some [ch]) :
    s.utf8Continue width b =
      putChar width { s with utf8 := ⟨s.utf8.bytes ++ [b], s.utf8.need⟩, state := .ground } ch := by
  have haccumulate : accumulate s.utf8 b = ⟨s.utf8.bytes ++ [b], s.utf8.need⟩ := by
    rw [accumulate, if_pos (by omega)]
  rw [utf8Continue, if_neg (not_not.mpr (show 0x80 ≤ b ∧ b ≤ 0xbf from hb)), haccumulate, if_neg, utf8Finish, hch]
  · rfl
  · rw [List.length_append, ← hlast]
    exact lt_irrefl _

/-- The rest of a character of several bytes. -/
theorem write_continuations (tail : List UInt8) (htail : ∀ b ∈ tail, Utf8.IsContinuation b)
    (hne : tail ≠ []) (hstate : s.state = .utf8) (hneed : s.utf8.need = s.utf8.bytes.length + tail.length)
    (hfour : s.utf8.need ≤ 4) {ch : Char} (hch : Utf8.decode? (s.utf8.bytes ++ tail) = some [ch]) :
    ∃ utf8, s.write width tail = putChar width { s with utf8, state := .ground } ch := by
  induction tail generalizing s with
  | nil => exact absurd rfl hne
  | cons b tail ih =>
    have hb := htail b List.mem_cons_self
    rw [List.length_cons] at hneed
    have hfirst : s.writeByte width b = s.utf8Continue width b := by
      rw [writeByte, hstate]
    have hwrite : s.write width (b :: tail) = (s.utf8Continue width b).write width tail :=
      congrArg (fun u => write width u tail) hfirst
    rw [hwrite]
    by_cases hlast : tail = []
    · subst hlast
      rw [utf8Continue_last width hb hfour hneed.symm hch]
      exact ⟨_, rfl⟩
    · have hpos := List.length_pos_of_ne_nil hlast
      rw [utf8Continue_more width hb hfour (by omega)]
      obtain ⟨utf8, hrest⟩ := ih (s := { s with utf8 := ⟨s.utf8.bytes ++ [b], s.utf8.need⟩ })
        (fun c hc => htail c (List.mem_cons_of_mem _ hc)) hlast hstate
        (by rw [List.length_append, List.length_singleton]; exact hneed.trans (by omega)) hfour
        (by rw [List.append_assoc]; exact hch)
      exact ⟨utf8, hrest⟩

/-- A byte above the controls, up to some bound. -/
theorem ground_above {byte : UInt8} (hlow : 32 ≤ byte.toNat) (hdel : byte.toNat ≠ 127) :
    s.ground width byte =
      if byte < 0x80 then s.putChar width (Char.ofNat byte.toNat) else s.utf8Begin width byte := by
  have hne : ∀ b : UInt8, b.toNat < 32 ∨ b.toNat = 127 → byte ≠ b := by
    rintro b hb rfl
    omega
  rw [ground, if_neg (hne _ (by decide)), if_neg (hne _ (by decide)), if_neg, if_neg (hne _ (by decide)),
    if_neg (hne _ (by decide)), if_neg]
  · rintro (h | h)
    · rw [UInt8.lt_iff_toNat_lt] at h
      exact absurd h (not_lt.mpr hlow)
    · exact hne _ (by decide) h
  · rintro ⟨-, h⟩
    rw [UInt8.le_iff_toNat_le] at h
    have hbound : byte.toNat ≤ 12 := h
    omega

theorem ground_ascii {n : Nat} (hlow : 32 ≤ n) (hhigh : n < 127) :
    s.ground width (UInt8.ofNat n) = s.putChar width (Char.ofNat n) := by
  have hn : (UInt8.ofNat n).toNat = n := by
    rw [UInt8.toNat_ofNat', Nat.mod_eq_of_lt (by omega)]
  rw [ground_above width (by omega) (by omega), hn, if_pos]
  rw [UInt8.lt_iff_toNat_lt, hn]
  exact hhigh.trans (by decide)

theorem ground_lead {lead : UInt8} {more : Nat} (h : Utf8.followers lead = some more) :
    s.ground width lead = { s with utf8 := ⟨[lead], more + 1⟩, state := .utf8 } := by
  have hlow : 0xc2 ≤ lead.toNat := Utf8.lead_of_followers h
  rw [ground_above width (by omega) (by omega), if_neg, utf8Begin, h]
  rw [UInt8.lt_iff_toNat_lt]
  exact not_lt.mpr (le_trans (by decide) hlow)

/-- Control characters take no column. -/
def ControlsHidden : Prop := ∀ ch : Char, ch.toNat < 32 ∨ ch.toNat = 127 → width ch = 0

/-- The bytes of a printable character put it on the screen. -/
theorem write_char (hcontrols : ControlsHidden width) {ch : Char} (hch : width ch ≠ 0)
    (hground : s.state = .ground) :
    ∃ utf8, s.write width (String.utf8EncodeChar ch) = putChar width { s with utf8 } ch := by
  rcases Utf8.utf8EncodeChar_cases ch with ⟨hascii, hbytes⟩ | ⟨lead, tail, hbytes, hfollowers, htail⟩
  · have hplain : ¬(ch.toNat < 32 ∨ ch.toNat = 127) := fun h => hch (hcontrols ch h)
    refine ⟨s.utf8, ?_⟩
    have hwrite : s.write width [UInt8.ofNat ch.toNat] = s.ground width (UInt8.ofNat ch.toNat) := by
      show s.writeByte width _ = _
      rw [writeByte, hground]
    rw [hbytes, hwrite, ground_ascii width (by omega) (by omega), Char.ofNat_toNat]
  · have hlead : s.writeByte width lead = { s with utf8 := ⟨[lead], tail.length + 1⟩, state := .utf8 } := by
      rw [writeByte, hground]
      exact ground_lead width hfollowers
    have hbound := Utf8.followers_le hfollowers
    have hdecode : Utf8.decode? ([lead] ++ tail) = some [ch] := by
      rw [List.singleton_append, ← hbytes, ← Utf8.decode?_encode [ch], Utf8.encode_cons, Utf8.encode_nil,
        List.append_nil]
    have hwrite : s.write width (lead :: tail) = (s.writeByte width lead).write width tail := rfl
    obtain ⟨utf8, hrest⟩ := write_continuations width
      (s := { s with utf8 := ⟨[lead], tail.length + 1⟩, state := .utf8 }) tail htail
      (List.ne_nil_of_length_pos hbound.1) rfl (Nat.add_comm _ _) (Nat.succ_le_succ hbound.2) hdecode
    refine ⟨utf8, ?_⟩
    rw [hbytes, hwrite, hlead, hrest]
    show putChar width { s with utf8, state := .ground } ch = _
    rw [← hground]

theorem write_append (s : TerminalScreen) (bytes bytes' : List UInt8) :
    s.write width (bytes ++ bytes') = (s.write width bytes).write width bytes' :=
  List.foldl_append

/-- The size and the scrollback budget stay. -/
structure SameFrame (s t : TerminalScreen) : Prop where
  size : t.size = s.size
  limit : t.scrollbackLimit = s.scrollbackLimit

/-- The text of a line goes behind the piece and is cut greedily. -/
theorem Shows.text (hcontrols : ControlsHidden width) (text : List Char) (htext : Printable width text)
    (h : s.Shows width done piece)
    (hroom : done.length + (cutFrom width s.size.cols piece text).length ≤ s.size.rows + s.scrollbackLimit) :
    ∃ done' piece', (s.write width (Utf8.encode text)).Shows width done' piece' ∧
      done' ++ [piece'] = done ++ cutFrom width s.size.cols piece text ∧
      SameFrame s (s.write width (Utf8.encode text)) := by
  induction text generalizing s done piece with
  | nil => exact ⟨done, piece, h, rfl, rfl, rfl⟩
  | cons ch text ih =>
    have hch := htext ch List.mem_cons_self
    obtain ⟨utf8, hchar⟩ := write_char width (s := s) hcontrols (show width ch ≠ 0 by omega) h.plain.ground
    rw [Utf8.encode_cons, write_append, hchar]
    rw [cutFrom] at hroom ⊢
    have hneeded : ¬columns width piece + width ch ≤ s.size.cols →
        done.length + 2 ≤ s.size.rows + s.scrollbackLimit := by
      intro hfull
      rw [if_neg hfull, List.length_cons] at hroom
      have hrest := cutFrom_length_pos width s.size.cols [ch] text
      omega
    obtain ⟨hput, hsize, hlimit⟩ := (h.parser width utf8).putChar width hch hneeded
    have htext' : Printable width text := fun c hc => htext c (List.mem_cons_of_mem _ hc)
    by_cases hfits : columns width piece + width ch ≤ s.size.cols
    · rw [if_pos hfits] at hroom ⊢
      obtain ⟨done', piece', hshows, hpieces, hframe⟩ := ih htext' ((if_pos hfits).mp hput) (by
        rw [hsize, hlimit]
        exact hroom)
      refine ⟨done', piece', hshows, ?_, hframe.size.trans hsize, hframe.limit.trans hlimit⟩
      rw [hpieces, hsize]
    · rw [if_neg hfits] at hroom ⊢
      obtain ⟨done', piece', hshows, hpieces, hframe⟩ := ih htext' ((if_neg hfits).mp hput) (by
        rw [hsize, hlimit, List.length_append]
        rw [List.length_cons] at hroom
        exact le_trans (by simp only [List.length_singleton]; omega) hroom)
      refine ⟨done', piece', hshows, ?_, hframe.size.trans hsize, hframe.limit.trans hlimit⟩
      rw [hpieces, hsize, List.append_assoc]
      rfl

/-- Another line behind the ones that are shown. -/
theorem Shows.line (hcontrols : ControlsHidden width) (line : List Char) (hline : Printable width line)
    (h : s.Shows width done piece)
    (hroom : done.length + 1 + (cut width s.size.cols line).length ≤ s.size.rows + s.scrollbackLimit) :
    ∃ done' piece', (s.write width ([0x0d, 0x0a] ++ Utf8.encode line)).Shows width done' piece' ∧
      done' ++ [piece'] = done ++ [piece] ++ cut width s.size.cols line ∧
      SameFrame s (s.write width ([0x0d, 0x0a] ++ Utf8.encode line)) := by
  have hpos := cutFrom_length_pos width s.size.cols [] line
  have hlength : (cut width s.size.cols line).length = (cutFrom width s.size.cols [] line).length := rfl
  obtain ⟨hend, hsize, hlimit⟩ := h.lineEnd width (by omega)
  obtain ⟨done', piece', hshows, hpieces, hframe⟩ := hend.text width hcontrols line hline (by
    rw [hsize, hlimit, List.length_append, List.length_singleton]
    exact hroom)
  refine ⟨done', piece', ?_, ?_, ?_⟩
  · rw [write_append]
    exact hshows
  · rw [hpieces, hsize]
    rfl
  · rw [write_append]
    exact ⟨hframe.size.trans hsize, hframe.limit.trans hlimit⟩

theorem Shows.lines (hcontrols : ControlsHidden width) (lines : List (List Char))
    (hlines : ∀ line ∈ lines, Printable width line) (h : s.Shows width done piece)
    (hroom : done.length + 1 + (lines.flatMap (cut width s.size.cols)).length ≤
      s.size.rows + s.scrollbackLimit) :
    ∃ done' piece', (s.write width (lines.flatMap fun line => [0x0d, 0x0a] ++ Utf8.encode line)).Shows width
        done' piece' ∧
      done' ++ [piece'] = done ++ [piece] ++ lines.flatMap (cut width s.size.cols) ∧
      SameFrame s (s.write width (lines.flatMap fun line => [0x0d, 0x0a] ++ Utf8.encode line)) := by
  induction lines generalizing s done piece with
  | nil => exact ⟨done, piece, h, (List.append_nil _).symm, rfl, rfl⟩
  | cons line lines ih =>
    rw [List.flatMap_cons, List.length_append] at hroom
    obtain ⟨done', piece', hshows, hpieces, hframe⟩ :=
      h.line width hcontrols line (hlines line List.mem_cons_self) (by omega)
    have hlength := congrArg List.length hpieces
    simp only [List.length_append, List.length_singleton] at hlength
    obtain ⟨done'', piece'', hshows', hpieces', hframe'⟩ :=
      ih (fun l hl => hlines l (List.mem_cons_of_mem _ hl)) hshows (by
        rw [hframe.size, hframe.limit, hlength]
        omega)
    rw [List.flatMap_cons, List.flatMap_cons, write_append]
    refine ⟨done'', piece'', hshows', ?_, hframe'.size.trans hframe.size, hframe'.limit.trans hframe.limit⟩
    rw [hpieces', hpieces, hframe.size, List.append_assoc]

/-! ## A fresh screen -/

/-- Lines that are joined by carriage returns and line feeds. -/
def joinLines (lines : List (List Char)) : List UInt8 := [0x0d, 0x0a].intercalate (lines.map Utf8.encode)

theorem joinLines_cons (line : List Char) (lines : List (List Char)) :
    joinLines (line :: lines) =
      Utf8.encode line ++ lines.flatMap fun line => [0x0d, 0x0a] ++ Utf8.encode line := by
  induction lines generalizing line with
  | nil => simp [joinLines]
  | cons next lines ih =>
    have hcons : joinLines (line :: next :: lines) =
        Utf8.encode line ++ ([0x0d, 0x0a] ++ joinLines (next :: lines)) := by
      simp [joinLines, List.intercalate]
    rw [hcons, ih, List.flatMap_cons, List.append_assoc]

/-- A screen on which nothing has been written, with a scrollback budget. -/
def fresh (size : ScreenSize) (limit : Nat) : TerminalScreen := (new size).setScrollbackLimit limit

theorem fresh_shows (size : ScreenSize) (limit : Nat) (hcols : 2 ≤ size.cols) :
    (fresh size limit).Shows width [] [] := by
  have hsound : (fresh size limit).Sound := setScrollbackLimit_sound (new_sound size) limit
  have hrows := Nat.zero_lt_of_lt hsound.cursorRow
  have hcols' : (fresh size limit).size.cols = size.cols := if_neg (by omega)
  have hrow : ∀ r < (fresh size limit).size.rows,
      (fresh size limit).rowCells r = List.replicate (fresh size limit).size.cols .EMPTY := by
    intro r hr
    have hcells : (fresh size limit).cells =
      List.replicate ((fresh size limit).size.rows * (fresh size limit).size.cols) .EMPTY := rfl
    have hend := row_end_le (fresh size limit).size.cols hr
    rw [rowCells, row, hcells, List.drop_replicate, List.take_replicate, Nat.min_eq_left (by omega)]
  refine ⟨⟨hsound, rfl, rfl, ?_, rfl, rfl, rfl, hcols'.symm ▸ hcols⟩, ?_, ?_,
    fun _ hch => absurd hch List.not_mem_nil, Nat.zero_le _, (Nat.zero_min _).symm, ?_⟩
  · show (fresh size limit).size.rows - 1 + 1 = (fresh size limit).size.rows
    omega
  · have hnone : (fresh size limit).scrollback = [] := List.drop_nil
    rw [virtualRows, hnone]
    show [(fresh size limit).rowCells 0] = [rowOf width (fresh size limit).size.cols []]
    rw [hrow 0 hrows]
    rfl
  · intro r _ hr
    exact hrow r hr
  · symm
    apply decide_eq_false
    show 0 ≠ (fresh size limit).size.cols
    omega

/-- What a screen shows: the scrollback, and the rows down to the cursor. -/
def shown (s : TerminalScreen) : List RenderedRow :=
  (List.range s.scrollback.length).map s.renderScrollback ++
    (List.range (s.cursor.row + 1)).map s.renderRow

theorem shown_eq (s : TerminalScreen) : s.shown = s.virtualRows.map .render := by
  have hscrollback : (List.range s.scrollback.length).map s.renderScrollback =
      s.scrollback.map .render := by
    apply List.ext_getElem
    · rw [List.length_map, List.length_map, List.length_range]
    · intro i hi hi'
      rw [List.length_map, List.length_range] at hi
      rw [List.getElem_map, List.getElem_map, List.getElem_range, renderScrollback,
        List.getElem?_eq_getElem hi]
      rfl
  rw [shown, hscrollback, virtualRows, List.map_append, List.map_map]
  rfl

/-- **Output is neither lost nor reordered: lines that are written on a fresh screen, in pieces cut anywhere,
are what the scrollback and the screen down to the cursor show, each of them cut greedily.** -/
theorem shown_lines (size : ScreenSize) (limit : Nat) (hcontrols : ControlsHidden width)
    (hcols : 2 ≤ size.cols) (line : List Char) (lines : List (List Char))
    (hlines : ∀ l ∈ line :: lines, Printable width l)
    (hlimit : ((line :: lines).flatMap (cut width size.cols)).length ≤ (ScreenSize.new size.rows size.cols).rows + limit)
    (pieces : List (List UInt8)) (hpieces : pieces.flatten = joinLines (line :: lines)) :
    (pieces.foldl (write width) (fresh size limit)).shown =
      ((line :: lines).flatMap (cut width size.cols)).map fun piece => ⟨Utf8.encode piece, []⟩ := by
  have hcols' : (fresh size limit).size.cols = size.cols := if_neg (by omega)
  have hpos := cutFrom_length_pos width size.cols [] line
  rw [List.flatMap_cons, List.length_append] at hlimit
  have hlength : (cut width size.cols line).length = (cutFrom width size.cols [] line).length := rfl
  obtain ⟨done, piece, hfirst, hcut, hframe⟩ := (fresh_shows width size limit hcols).text width hcontrols line
    (hlines line List.mem_cons_self) (by
      rw [hcols', List.length_nil, Nat.zero_add, ← hlength]
      exact le_trans (Nat.le_add_right _ _) hlimit)
  have hdone := congrArg List.length hcut
  rw [hcols', List.nil_append, List.length_append, List.length_singleton, ← hlength] at hdone
  obtain ⟨done', piece', hall, hcuts, hframe'⟩ := hfirst.lines width hcontrols lines
    (fun l hl => hlines l (List.mem_cons_of_mem _ hl)) (by
      rw [hframe.size, hframe.limit, hcols', hdone]
      exact hlimit)
  have hwrite : pieces.foldl (write width) (fresh size limit) =
      ((fresh size limit).write width (Utf8.encode line)).write width
        (lines.flatMap fun l => [0x0d, 0x0a] ++ Utf8.encode l) := by
    rw [← write_append, ← joinLines_cons, ← hpieces]
    exact List.foldl_flatten.symm
  rw [hwrite, shown_eq, hall.rows, hcuts, hcut, hframe'.size, hframe.size, hcols', List.map_map,
    List.flatMap_cons, List.nil_append]
  apply List.map_congr_left
  intro p _
  exact RenderedRow.render_rowOf width size.cols p

/-- The characters of the width table that the witness needs: controls take no column, one wide character. -/
def narrowWidth (ch : Char) : Nat :=
  if ch.toNat < 32 ∨ ch.toNat = 127 then 0 else if ch.toNat = 0x3042 then 2 else 1

/-- Three columns: a wide character that does not fit goes to the next row, and the first row into
scrollback. -/
theorem shown_lines_wide :
    ([joinLines [['a', 'b', 'あ'], ['c']]].foldl (write narrowWidth) (fresh ⟨2, 3⟩ 1)).shown =
      ([['a', 'b'], ['あ'], ['c']]).map fun piece => ⟨Utf8.encode piece, []⟩ :=
  shown_lines narrowWidth ⟨2, 3⟩ 1 (fun _ h => if_pos h) (by decide) ['a', 'b', 'あ'] [['c']]
    (by simp [Printable, narrowWidth]) (by decide +kernel) [joinLines [['a', 'b', 'あ'], ['c']]] (List.append_nil _)

/-- No line at all is one empty row on the screen. -/
theorem not_shown_noLines :
    ¬∀ (width : Char → Nat) (size : ScreenSize) (limit : Nat), ControlsHidden width → 2 ≤ size.cols →
      ∀ lines : List (List Char), (∀ l ∈ lines, Printable width l) →
        (lines.flatMap (cut width size.cols)).length ≤ (ScreenSize.new size.rows size.cols).rows + limit →
        ∀ pieces : List (List UInt8), pieces.flatten = joinLines lines →
          (pieces.foldl (write width) (fresh size limit)).shown =
            (lines.flatMap (cut width size.cols)).map fun piece => ⟨Utf8.encode piece, []⟩ := by
  intro h
  have hempty := h narrowWidth ⟨1, 2⟩ 1 (fun _ hch => if_pos hch) (by decide) []
    (fun _ hl => absurd hl List.not_mem_nil) (by decide) [] rfl
  exact absurd hempty (by decide +kernel)

end TerminalScreen

end Oxvim.Editor
