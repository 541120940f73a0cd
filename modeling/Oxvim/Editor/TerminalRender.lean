import Oxvim.Editor.TerminalRuns
import Mathlib.Data.List.DropRight

/-!
# Rendered rows

The projection goes through the cells of a row and steps over the cell behind every wide one. Its text is
the bytes of the cells it goes through, up to the last glyph, and its spans are the bytes of the cells with
a pen of their own.
-/

namespace Oxvim.Editor

open Lib

/-- The bytes of a cell. -/
def Cell.bytes (cell : Cell) : List UInt8 := cell.ch.elim [0x20] String.utf8EncodeChar

theorem Cell.bytes_pos (cell : Cell) : 0 < cell.bytes.length := by
  unfold Cell.bytes
  cases cell.ch with
  | none => exact Nat.one_pos
  | some ch => exact String.length_utf8EncodeChar ch ▸ Char.utf8Size_pos ch

theorem Cell.exists_encode (cell : Cell) : ∃ text, cell.bytes = Utf8.encode text := by
  unfold Cell.bytes
  cases cell.ch with
  | none => exact ⟨[' '], by decide⟩
  | some ch => exact ⟨[ch], by simp⟩

namespace RenderedRow

/-! ## The cells of the projection -/

/-- The cells the projection goes through, with their columns. -/
def emitted : Nat → List Cell → List (Nat × Cell)
  | _, [] => []
  | col, [cell] => [(col, cell)]
  | col, cell :: next :: rest =>
    if cell.attrs.flags.contains .WIDE then (col, cell) :: emitted (col + 2) rest
    else (col, cell) :: emitted (col + 1) (next :: rest)

/-- The cells the text is made of: those up to the last glyph. -/
def shownCells (cells : List Cell) : List Cell :=
  ((emitted 0 cells).map Prod.snd).rdropWhile (·.ch.isNone)

/-- The bytes of cells one after another. -/
def bytesOf (cells : List Cell) : List UInt8 := cells.flatMap Cell.bytes

/-- The cell that a byte belongs to. -/
def cellAt : List Cell → Nat → Option Cell
  | [], _ => none
  | cell :: cells, k =>
    if k < cell.bytes.length then some cell else cellAt cells (k - cell.bytes.length)

/-- What spans are: in order, disjoint, on character boundaries, and exactly over the bytes of the cells
whose pen is not the default one. -/
structure SpanLaw (cells : List Cell) (text : List UInt8) (spans : List AttrSpan) : Prop where
  ordered : spans.Pairwise fun a b => a.stop ≤ b.start
  proper : ∀ span ∈ spans, span.start < span.stop ∧ span.stop ≤ text.length
  boundaries : ∀ span ∈ spans, (Utf8.decode? (text.take span.start)).isSome ∧
    (Utf8.decode? (text.take span.stop)).isSome
  covers : ∀ k < text.length, ∀ attrs,
    (∃ span ∈ spans, span.attrs = attrs ∧ span.start ≤ k ∧ k < span.stop) ↔
      ∃ cell, cellAt cells k = some cell ∧ cell.attrs = attrs ∧ attrs.isDefault = false

/-! ## Bytes and cells -/

@[simp] theorem bytesOf_nil : bytesOf [] = [] := rfl

@[simp] theorem bytesOf_cons (cell : Cell) (cells : List Cell) :
    bytesOf (cell :: cells) = cell.bytes ++ bytesOf cells := List.flatMap_cons

@[simp] theorem bytesOf_append (cells cells' : List Cell) :
    bytesOf (cells ++ cells') = bytesOf cells ++ bytesOf cells' := List.flatMap_append

theorem exists_encode (cells : List Cell) : ∃ text, bytesOf cells = Utf8.encode text := by
  induction cells with
  | nil => exact ⟨[], rfl⟩
  | cons cell cells ih =>
    obtain ⟨text, htext⟩ := ih
    obtain ⟨text', htext'⟩ := cell.exists_encode
    exact ⟨text' ++ text, by rw [bytesOf_cons, htext, htext', Utf8.encode_append]⟩

theorem decode?_bytesOf (cells : List Cell) : (Utf8.decode? (bytesOf cells)).isSome := by
  obtain ⟨text, htext⟩ := exists_encode cells
  rw [htext, Utf8.decode?_encode]
  rfl

theorem cellAt_append (cells cells' : List Cell) (k : Nat) :
    cellAt (cells ++ cells') k =
      if k < (bytesOf cells).length then cellAt cells k
      else cellAt cells' (k - (bytesOf cells).length) := by
  induction cells generalizing k with
  | nil => rw [List.nil_append, bytesOf_nil, List.length_nil, if_neg (Nat.not_lt_zero k), Nat.sub_zero]
  | cons cell cells ih =>
    rw [List.cons_append, cellAt, cellAt, ih, bytesOf_cons, List.length_append]
    by_cases hfirst : k < cell.bytes.length
    · rw [if_pos hfirst, if_pos hfirst, if_pos (by omega)]
    · rw [if_neg hfirst, if_neg hfirst]
      by_cases hinside : k - cell.bytes.length < (bytesOf cells).length
      · rw [if_pos hinside, if_pos (by omega)]
      · rw [if_neg hinside, if_neg (by omega), Nat.sub_add_eq]

/-- An offset at which a cell begins or the last one ends. -/
def Boundary (cells : List Cell) (n : Nat) : Prop :=
  ∃ before after, cells = before ++ after ∧ (bytesOf before).length = n

theorem Boundary.concat {cells : List Cell} {n : Nat} (h : Boundary cells n) (cell : Cell) :
    Boundary (cells ++ [cell]) n := by
  obtain ⟨before, after, rfl, hn⟩ := h
  exact ⟨before, after ++ [cell], List.append_assoc _ _ _, hn⟩

theorem boundary_end (cells : List Cell) : Boundary cells (bytesOf cells).length :=
  ⟨cells, [], (List.append_nil _).symm, rfl⟩

theorem Boundary.le {cells : List Cell} {n : Nat} (h : Boundary cells n) :
    n ≤ (bytesOf cells).length := by
  obtain ⟨before, after, rfl, rfl⟩ := h
  rw [bytesOf_append, List.length_append]
  omega

/-- Text can be cut at a boundary. -/
theorem Boundary.decode? {cells : List Cell} {n : Nat} (h : Boundary cells n) :
    (Utf8.decode? ((bytesOf cells).take n)).isSome := by
  obtain ⟨before, after, rfl, rfl⟩ := h
  rw [bytesOf_append, List.take_left]
  exact decode?_bytesOf before

/-! ## Drafts -/

theorem draft_eq (col : Nat) (cells : List Cell) (acc : Draft) :
    draft cells acc = ((emitted col cells).map Prod.snd).foldl Draft.add acc := by
  fun_induction draft cells acc generalizing col with
  | case1 => rfl
  | case2 => rfl
  | case3 cell next rest acc hwide ih =>
    rw [emitted, if_pos hwide, ih (col + 2)]
    rfl
  | case4 cell next rest acc hnarrow ih =>
    rw [emitted, if_neg hnarrow, ih (col + 1)]
    rfl

/-- Spans over the cells so far. -/
structure SpansOver (cells : List Cell) (spans : List AttrSpan) : Prop where
  ordered : spans.Pairwise fun a b => a.stop ≤ b.start
  proper : ∀ span ∈ spans, span.start < span.stop
  boundaries : ∀ span ∈ spans, Boundary cells span.start ∧ Boundary cells span.stop
  covers : ∀ k < (bytesOf cells).length, ∀ attrs,
    (∃ span ∈ spans, span.attrs = attrs ∧ span.start ≤ k ∧ k < span.stop) ↔
      ∃ cell, cellAt cells k = some cell ∧ cell.attrs = attrs ∧ attrs.isDefault = false

/-- The bytes behind a list of cells belong to the next cell. -/
theorem cellAt_concat (cells : List Cell) (cell : Cell) (k : Nat) (hk : k < (bytesOf (cells ++ [cell])).length) :
    cellAt (cells ++ [cell]) k =
      if k < (bytesOf cells).length then cellAt cells k else some cell := by
  rw [cellAt_append]
  rw [bytesOf_append, List.length_append, bytesOf_cons, bytesOf_nil, List.append_nil] at hk
  split_ifs with hinside
  · rfl
  · rw [cellAt, if_pos (by omega)]

/-- A cell with the default pen adds no span. -/
theorem SpansOver.skip {cells : List Cell} {spans : List AttrSpan} (h : SpansOver cells spans) {cell : Cell}
    (hcell : cell.attrs.isDefault = true) : SpansOver (cells ++ [cell]) spans := by
  refine ⟨h.ordered, h.proper, fun span hspan => ?_, fun k hk attrs => ?_⟩
  · obtain ⟨hstart, hstop⟩ := h.boundaries span hspan
    exact ⟨hstart.concat cell, hstop.concat cell⟩
  · rw [cellAt_concat cells cell k hk]
    split_ifs with hinside
    · exact h.covers k hinside attrs
    · refine iff_of_false ?_ ?_
      · rintro ⟨span, hspan, -, -, hlt⟩
        have := (h.boundaries span hspan).2.le
        omega
      · rintro ⟨found, hfound, rfl, hdefault⟩
        obtain rfl := Option.some.inj hfound
        rw [hcell] at hdefault
        cases hdefault

/-- What a new last span over the bytes of the next cell has to be. -/
theorem SpansOver.extend {cells : List Cell} {front : List AttrSpan} {cell : Cell} {start : Nat}
    (hordered : front.Pairwise fun a b => a.stop ≤ b.start)
    (hproper : ∀ span ∈ front, span.start < span.stop)
    (hboundaries : ∀ span ∈ front, Boundary cells span.start ∧ Boundary cells span.stop)
    (hfront : ∀ span ∈ front, span.stop ≤ start) (hstart : Boundary cells start)
    (hcell : cell.attrs.isDefault = false)
    (hcovers : ∀ k < (bytesOf cells).length, ∀ attrs,
      ((∃ span ∈ front, span.attrs = attrs ∧ span.start ≤ k ∧ k < span.stop) ∨
        cell.attrs = attrs ∧ start ≤ k) ↔
      ∃ found, cellAt cells k = some found ∧ found.attrs = attrs ∧ attrs.isDefault = false) :
    SpansOver (cells ++ [cell]) (front ++ [⟨start, (bytesOf (cells ++ [cell])).length, cell.attrs⟩]) := by
  have hlength : (bytesOf (cells ++ [cell])).length = (bytesOf cells).length + cell.bytes.length := by
    rw [bytesOf_append, List.length_append, bytesOf_cons, bytesOf_nil, List.append_nil]
  have hpos := cell.bytes_pos
  have hle := hstart.le
  refine ⟨?_, fun span hspan => ?_, fun span hspan => ?_, fun k hk attrs => ?_⟩
  · rw [List.pairwise_append]
    refine ⟨hordered, List.pairwise_singleton _ _, fun a ha b hb => ?_⟩
    rw [List.mem_singleton] at hb
    subst hb
    exact hfront a ha
  · rcases List.mem_append.mp hspan with hold | hnew
    · exact hproper span hold
    · rw [List.mem_singleton] at hnew
      subst hnew
      dsimp only
      omega
  · rcases List.mem_append.mp hspan with hold | hnew
    · obtain ⟨hfirst, hlast⟩ := hboundaries span hold
      exact ⟨hfirst.concat cell, hlast.concat cell⟩
    · rw [List.mem_singleton] at hnew
      subst hnew
      exact ⟨hstart.concat cell, boundary_end _⟩
  · have hnew : (∃ span ∈ front ++ [⟨start, (bytesOf (cells ++ [cell])).length, cell.attrs⟩],
        span.attrs = attrs ∧ span.start ≤ k ∧ k < span.stop) ↔
        (∃ span ∈ front, span.attrs = attrs ∧ span.start ≤ k ∧ k < span.stop) ∨
          cell.attrs = attrs ∧ start ≤ k := by
      simp only [List.mem_append, List.mem_singleton, or_and_right, exists_or, exists_eq_left]
      rw [and_iff_left hk]
    rw [hnew, cellAt_concat cells cell k hk]
    split_ifs with hinside
    · exact hcovers k hinside attrs
    · constructor
      · rintro (⟨span, hspan, -, -, hlt⟩ | ⟨rfl, -⟩)
        · have := (hboundaries span hspan).2.le
          omega
        · exact ⟨cell, rfl, rfl, hcell⟩
      · rintro ⟨found, hfound, rfl, -⟩
        obtain rfl := Option.some.inj hfound
        exact .inr ⟨rfl, by omega⟩

/-- A cell with another pen extends the last span or begins one. -/
theorem SpansOver.addSpan {cells : List Cell} {spans : List AttrSpan} (h : SpansOver cells spans) {cell : Cell}
    (hcell : cell.attrs.isDefault = false) :
    SpansOver (cells ++ [cell])
      (addSpan spans (bytesOf cells).length (bytesOf (cells ++ [cell])).length cell.attrs) := by
  have hnew : SpansOver (cells ++ [cell])
      (spans ++ [⟨(bytesOf cells).length, (bytesOf (cells ++ [cell])).length, cell.attrs⟩]) := by
    refine SpansOver.extend h.ordered h.proper h.boundaries (fun span hspan => ?_) (boundary_end cells)
      hcell fun k hk attrs => ?_
    · exact (h.boundaries span hspan).2.le
    · rw [or_iff_left (fun hk' => absurd hk'.2 (by omega))]
      exact h.covers k hk attrs
  unfold RenderedRow.addSpan
  cases hlast : spans.getLast? with
  | none => exact hnew
  | some last =>
    dsimp only
    split_ifs with hsame
    · obtain ⟨hstop, hattrs⟩ := hsame
      obtain ⟨front, rfl⟩ := List.getLast?_eq_some_iff.mp hlast
      rw [List.dropLast_concat]
      have hmem : last ∈ front ++ [last] := by simp
      have hsub : ∀ span ∈ front, span ∈ front ++ [last] := fun span hspan => List.mem_append_left _ hspan
      obtain ⟨hordered, -, hbefore⟩ := List.pairwise_append.mp h.ordered
      have hspan : ({ last with stop := (bytesOf (cells ++ [cell])).length } : AttrSpan)
          = ⟨last.start, (bytesOf (cells ++ [cell])).length, cell.attrs⟩ := by rw [← hattrs]
      rw [hspan]
      refine SpansOver.extend hordered (fun span hspan => h.proper span (hsub span hspan))
        (fun span hspan => h.boundaries span (hsub span hspan))
        (fun span hspan => hbefore span hspan last (List.mem_singleton_self last))
        (h.boundaries last hmem).1 hcell fun k hk attrs => ?_
      rw [← h.covers k hk attrs]
      simp only [List.mem_append, List.mem_singleton, or_and_right, exists_or, exists_eq_left]
      rw [hattrs, hstop, and_iff_left hk]
    · exact hnew

/-- A draft of the cells so far. -/
structure Drafted (cells : List Cell) (acc : Draft) : Prop where
  text : acc.text = bytesOf cells
  written : acc.written = (bytesOf (cells.rdropWhile (·.ch.isNone))).length
  spans : SpansOver cells acc.spans

theorem Drafted.add {cells : List Cell} {acc : Draft} (h : Drafted cells acc) (cell : Cell) :
    Drafted (cells ++ [cell]) (acc.add cell) := by
  have htext : acc.text ++ cell.ch.elim [0x20] String.utf8EncodeChar = bytesOf (cells ++ [cell]) := by
    rw [h.text, bytesOf_append, bytesOf_cons, bytesOf_nil, List.append_nil]
    rfl
  unfold Draft.add
  dsimp only
  refine ⟨htext, ?_, ?_⟩
  · rw [List.rdropWhile_concat, htext]
    cases hch : cell.ch with
    | none => exact h.written
    | some ch => rfl
  · cases hdefault : cell.attrs.isDefault with
    | true => exact h.spans.skip hdefault
    | false =>
      rw [htext, h.text]
      exact h.spans.addSpan hdefault

theorem drafted_nil : Drafted [] ⟨[], [], 0⟩ := by
  refine ⟨rfl, rfl, .nil, by simp, by simp, fun k hk => ?_⟩
  exact absurd hk (Nat.not_lt_zero k)

theorem drafted (cells : List Cell) :
    Drafted ((emitted 0 cells).map Prod.snd) (draft cells ⟨[], [], 0⟩) := by
  have hall : ∀ (rest done : List Cell) (acc : Draft), Drafted done acc →
      Drafted (done ++ rest) (rest.foldl Draft.add acc) := by
    intro rest
    induction rest with
    | nil =>
      intro done acc h
      rwa [List.append_nil]
    | cons cell rest ih =>
      intro done acc h
      have := ih (done ++ [cell]) _ (h.add cell)
      rwa [List.append_assoc, List.singleton_append] at this
  rw [draft_eq 0]
  exact hall _ [] _ drafted_nil

/-! ## Rows -/

/-- The cells behind the last glyph. -/
theorem exists_shownCells (cells : List Cell) :
    ∃ rest, (emitted 0 cells).map Prod.snd = shownCells cells ++ rest := by
  obtain ⟨rest, hrest⟩ := List.rdropWhile_prefix (fun cell : Cell => cell.ch.isNone)
    ((emitted 0 cells).map Prod.snd)
  exact ⟨rest, hrest.symm⟩

/-- The text of a row is the bytes of the cells up to the last glyph. -/
theorem render_text (cells : List Cell) : (render cells).text = bytesOf (shownCells cells) := by
  obtain ⟨rest, hrest⟩ := exists_shownCells cells
  have hdraft := drafted cells
  unfold render
  dsimp only
  rw [hdraft.text, hdraft.written, hrest, ← hrest]
  show List.take (bytesOf (shownCells cells)).length (bytesOf ((emitted 0 cells).map Prod.snd)) = _
  rw [hrest, bytesOf_append, List.take_left]

/-- **The spans of a row are in order, disjoint, on character boundaries, and over exactly the bytes of the
cells with a pen of their own.** -/
theorem render_spans (cells : List Cell) :
    SpanLaw (shownCells cells) (render cells).text (render cells).spans := by
  obtain ⟨rest, hrest⟩ := exists_shownCells cells
  have hdraft := drafted cells
  obtain ⟨hordered, hproper, hboundaries, hcovers⟩ := hdraft.spans
  have htext := render_text cells
  have hwritten : (draft cells ⟨[], [], 0⟩).written = (bytesOf (shownCells cells)).length :=
    hdraft.written
  -- The spans that are kept, cut at the end of the text.
  have hmem : ∀ span, span ∈ (render cells).spans ↔ ∃ old ∈ (draft cells ⟨[], [], 0⟩).spans,
      span = { old with stop := min old.stop (bytesOf (shownCells cells)).length } ∧
        span.start < span.stop := by
    intro span
    unfold render
    dsimp only
    rw [hwritten, List.mem_filter, List.mem_map]
    constructor
    · rintro ⟨⟨old, hold, rfl⟩, hlt⟩
      exact ⟨old, hold, rfl, by simpa using hlt⟩
    · rintro ⟨old, hold, rfl, hlt⟩
      exact ⟨⟨old, hold, rfl⟩, by simpa using hlt⟩
  have htake : ∀ n, n ≤ (bytesOf (shownCells cells)).length →
      (bytesOf (shownCells cells)).take n = (bytesOf ((emitted 0 cells).map Prod.snd)).take n := by
    intro n hn
    rw [hrest, bytesOf_append, List.take_append_of_le_length hn]
  refine ⟨?_, fun span hspan => ?_, fun span hspan => ?_, fun k hk attrs => ?_⟩
  · unfold render
    dsimp only
    refine List.Pairwise.filter _ (List.Pairwise.map _ (fun a b hab => ?_) hordered)
    exact le_trans (min_le_left _ _) hab
  · obtain ⟨old, -, rfl, hlt⟩ := (hmem span).mp hspan
    rw [htext]
    exact ⟨hlt, min_le_right _ _⟩
  · obtain ⟨old, hold, rfl, hlt⟩ := (hmem span).mp hspan
    obtain ⟨hstart, hstop⟩ := hboundaries old hold
    dsimp only at hlt ⊢
    rw [htext]
    constructor
    · rw [htake _ (by omega)]
      exact hstart.decode?
    · rcases le_total old.stop (bytesOf (shownCells cells)).length with hle | hle
      · rw [min_eq_left hle, htake _ hle]
        exact hstop.decode?
      · rw [min_eq_right hle, List.take_length]
        exact decode?_bytesOf _
  · rw [htext] at hk
    have hcell : cellAt ((emitted 0 cells).map Prod.snd) k = cellAt (shownCells cells) k := by
      rw [hrest, cellAt_append, if_pos hk]
    rw [← hcell, ← hcovers k (by rw [hrest, bytesOf_append, List.length_append]; omega) attrs]
    constructor
    · rintro ⟨span, hspan, hattrs, hle, hlt⟩
      obtain ⟨old, hold, rfl, -⟩ := (hmem span).mp hspan
      dsimp only at hattrs hle hlt
      exact ⟨old, hold, hattrs, hle, by omega⟩
    · rintro ⟨old, hold, hattrs, hle, hlt⟩
      refine ⟨_, (hmem _).mpr ⟨old, hold, rfl, ?_⟩, hattrs, hle, ?_⟩
      · dsimp only
        omega
      · dsimp only
        omega

/-- Every wide cell is followed by its tail, which has no glyph. -/
def WholeRow (cells : List Cell) : Prop :=
  ∀ col cell, cells[col]? = some cell → cell.attrs.flags.contains .WIDE = true →
    ∃ tail, cells[col + 1]? = some tail ∧ tail.ch = none

/-- The projection goes through every cell with a glyph, and its text and its spans are those of the cells
it goes through. -/
structure RowLaw (cells : List Cell) : Prop where
  whole : WholeRow cells
  emits : ∀ col cell, cells[col]? = some cell → cell.ch.isSome → (col, cell) ∈ emitted 0 cells
  text : (render cells).text = bytesOf (shownCells cells)
  spans : SpanLaw (shownCells cells) (render cells).text (render cells).spans

/-- Only the tails of wide cells are stepped over. -/
theorem mem_emitted (start : Nat) (cells : List Cell) (h : WholeRow cells) {col : Nat} {cell : Cell}
    (hcell : cells[col]? = some cell) (hglyph : cell.ch.isSome) :
    (start + col, cell) ∈ emitted start cells := by
  fun_induction emitted start cells generalizing col with
  | case1 => simp at hcell
  | case2 start only =>
    cases col with
    | zero =>
      obtain rfl : only = cell := by simpa using hcell
      exact List.mem_singleton_self _
    | succ col => simp at hcell
  | case3 start first next rest hwide ih =>
    obtain ⟨tail, htail, hnone⟩ := h 0 first rfl hwide
    obtain rfl : next = tail := by simpa using htail
    match col with
    | 0 =>
      obtain rfl : first = cell := by simpa using hcell
      exact List.mem_cons_self
    | 1 =>
      obtain rfl : next = cell := by simpa using hcell
      rw [hnone] at hglyph
      cases hglyph
    | col + 2 =>
      refine List.mem_cons_of_mem _ ?_
      have hmem := ih (fun c x hx hw => h (c + 2) x hx hw) hcell
      rwa [Nat.add_assoc, Nat.add_comm 2 col] at hmem
  | case4 start first next rest hnarrow ih =>
    match col with
    | 0 =>
      obtain rfl : first = cell := by simpa using hcell
      exact List.mem_cons_self
    | col + 1 =>
      refine List.mem_cons_of_mem _ ?_
      have hmem := ih (fun c x hx hw => h (c + 1) x hx hw) hcell
      rwa [Nat.add_assoc, Nat.add_comm 1 col] at hmem

theorem WholeRow.law {cells : List Cell} (h : WholeRow cells) : RowLaw cells where
  whole := h
  emits := fun col cell hcell hglyph => by
    have := mem_emitted 0 cells h hcell hglyph
    rwa [Nat.zero_add] at this
  text := render_text cells
  spans := render_spans cells

end RenderedRow

end Oxvim.Editor
