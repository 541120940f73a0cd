import Oxvim.Ui.GridWhole
import Oxvim.Ui.Compositor

/-!
# When composition keeps wide cells in one piece

A layer is painted with single-cell writes, which neither clear the rest of a wide cell they cover nor
leave out a wide cell that the screen's edge cuts. So a whole grid under a whole layer is whole
again exactly when the layer cuts no wide cell, and composition goes through whole grids only exactly
when no layer does.
-/

namespace Oxvim.Ui

open Lib Grid

theorem checkedAddSigned_eq_some {n m : Nat} {offset : Int} :
    checkedAddSigned n offset = some m ↔ (n : Int) + offset = m ∧ m < 2 ^ 64 := by
  rw [checkedAddSigned, Option.ite_none_right_eq_some, Option.some.injEq]
  omega

theorem width_lt {grid : Grid} {row : Nat} (hrow : row < grid.height) : grid.width < 2 ^ 63 := by
  have hle : grid.width * 1 ≤ grid.width * grid.height := Nat.mul_le_mul_left _ (by omega)
  have hsmall := grid.cells_small
  rw [grid.cells_length] at hsmall
  omega

/-! ## What painting does to cells -/

/-- What the wide-cell invariant is about: the text and the width of a cell. -/
def look (grid : Grid) (row col : Nat) : List UInt8 × UInt8 :=
  ((grid.cellAt row col).text, (grid.cellAt row col).width)

/-- Whether a cell of a layer is painted where it is on the screen. -/
def Layer.Shown (layer : Layer) (row col : Nat) : Prop :=
  layer.isOpaque = true ∨ (layer.grid.cellAt row col).isBlank = false

/-- Cells that are not single are painted. -/
theorem Layer.shown_of_width {layer : Layer} {row col : Nat} (h : layer.grid.widths row col ≠ 1) :
    layer.Shown row col := by
  right
  rw [Cell.isBlank]
  have hwidth : (layer.grid.cellAt row col).width ≠ 1 := by
    intro heq
    rw [Grid.widths, heq] at h
    exact h rfl
  simp [hwidth]

section Cells

variable {self : Compositor} {layer : Layer} {state state' : Composing}

/-- What a write does to the output. -/
structure Wrote (before after : Grid) (row col : Nat) (source : List UInt8 × UInt8) : Prop where
  size : SameSize after before
  fits : source.2 ≤ 1 ∨ col + source.2.toNat ≤ before.width
  cells : ∀ r c, c < before.width →
    look after r c = if r = row ∧ c = col then source else look before r c

theorem wrote_of_writeCell {before after : Grid} {row col : Nat} {text : List UInt8} {hlId : UInt64}
    {width : UInt8} (h : before.writeCell row col text hlId width = .ok after) :
    row < before.height ∧ col < before.width ∧ Wrote before after row col (text, width) := by
  rw [writeCell] at h
  split at h
  · cases h
  · next hfits =>
    rw [index] at h
    split at h
    · cases h
    · next hin =>
      obtain rfl := Except.ok.inj h
      have hrow : row < before.height := by omega
      have hcol : col < before.width := by omega
      refine ⟨hrow, hcol, sameSize_setCell _, ?_, ?_⟩
      · by_cases hle : width ≤ 1
        · exact .inl hle
        · right
          by_contra hgt
          exact hfits ⟨UInt8.not_le.mp hle, not_le.mp hgt⟩
      · intro r c hc
        rw [look, cellAt_setCell hrow hcol _ hc]
        split
        · rfl
        · rfl

/-- A cell that is shown is written, with some highlight. -/
theorem wrote_of_paintCell {row col sourceRow sourceCol : Nat}
    (hshown : layer.Shown sourceRow sourceCol)
    (h : Compositor.paintCell layer row col (layer.grid.cellAt sourceRow sourceCol) state
      = .ok state') :
    Wrote state.output state'.output row col (look layer.grid sourceRow sourceCol) := by
  have hnot : ¬(!layer.isOpaque && (layer.grid.cellAt sourceRow sourceCol).isBlank) = true := by
    rcases hshown with hcovers | hblank
    · simp [hcovers]
    · simp [hblank]
  rw [Compositor.paintCell, if_neg hnot] at h
  split at h
  · cases hwrite : state.output.writeCell row col (layer.grid.cellAt sourceRow sourceCol).text
        (layer.grid.cellAt sourceRow sourceCol).hlId (layer.grid.cellAt sourceRow sourceCol).width with
    | error error =>
      rw [hwrite] at h
      cases h
    | ok output =>
      rw [hwrite] at h
      obtain rfl := Except.ok.inj h
      exact (wrote_of_writeCell hwrite).2.2
  · cases hbeneath : state.output.hlAt row col with
    | error error =>
      rw [hbeneath] at h
      cases h
    | ok beneath =>
      rw [hbeneath] at h
      dsimp only at h
      cases hpremix : state.highlights.premix (layer.grid.cellAt sourceRow sourceCol).hlId beneath
          layer.winblend with
      | error error =>
        rw [hpremix] at h
        cases h
      | ok mixed =>
        obtain ⟨id, event, highlights⟩ := mixed
        rw [hpremix] at h
        dsimp only at h
        cases hwrite : state.output.writeCell row col (layer.grid.cellAt sourceRow sourceCol).text id
            (layer.grid.cellAt sourceRow sourceCol).width with
        | error error =>
          rw [hwrite] at h
          cases h
        | ok output =>
          rw [hwrite] at h
          obtain rfl := Except.ok.inj h
          exact (wrote_of_writeCell hwrite).2.2

theorem paintCell_of_not_shown {row col sourceRow sourceCol : Nat}
    (hshown : ¬layer.Shown sourceRow sourceCol) :
    Compositor.paintCell layer row col (layer.grid.cellAt sourceRow sourceCol) state = .ok state := by
  rw [Layer.Shown, not_or] at hshown
  rw [Compositor.paintCell, if_pos]
  simpa using hshown

/-- What a run of columns of a layer does to the output. -/
structure RowPainted (layer : Layer) (sourceRow row : Nat) (cols : List Nat) (before after : Grid) :
    Prop where
  size : SameSize after before
  fits : ∀ i ∈ cols, ∀ c, c < before.width →
    Covers layer.grid.width layer.col (layer.Shown sourceRow) i c →
      c + layer.grid.widths sourceRow i ≤ before.width
  painted : ∀ i ∈ cols, ∀ c, c < before.width →
    Covers layer.grid.width layer.col (layer.Shown sourceRow) i c →
      look after row c = look layer.grid sourceRow i
  kept : ∀ r c, c < before.width →
    (r = row → ∀ i ∈ cols, ¬Covers layer.grid.width layer.col (layer.Shown sourceRow) i c) →
      look after r c = look before r c

theorem rowPainted_of_paintRow {sourceRow row : Nat} {cols : List Nat}
    (hwidth : self.width = state.output.width) (hrow : row < state.output.height)
    (hsource : sourceRow < layer.grid.height) (hcols : ∀ i ∈ cols, i < layer.grid.width)
    (hnodup : cols.Nodup) (h : self.paintRow layer sourceRow row cols state = .ok state') :
    RowPainted layer sourceRow row cols state.output state'.output := by
  induction cols generalizing state with
  | nil =>
    obtain rfl := Except.ok.inj h
    exact ⟨.refl _, by simp, by simp, fun _ _ _ _ => rfl⟩
  | cons i cols ih =>
    have hsmall := width_lt hrow
    have hi := hcols i (List.mem_cons_self ..)
    have hrest : ∀ j ∈ cols, j < layer.grid.width := fun j hj => hcols j (List.mem_cons_of_mem _ hj)
    rw [List.nodup_cons] at hnodup
    rw [Compositor.paintRow] at h
    -- a column that is not on the screen
    have hskip : (∀ c, c < state.output.width →
        ¬Covers layer.grid.width layer.col (layer.Shown sourceRow) i c) →
        self.paintRow layer sourceRow row cols state = .ok state' →
        RowPainted layer sourceRow row (i :: cols) state.output state'.output := by
      intro hnot hpaint
      have hpainted := ih hwidth hrow hrest hnodup.2 hpaint
      refine ⟨hpainted.size, ?_, ?_, ?_⟩
      · intro j hj c hc hcovers
        rcases List.mem_cons.mp hj with rfl | hj
        · exact absurd hcovers (hnot c hc)
        · exact hpainted.fits j hj c hc hcovers
      · intro j hj c hc hcovers
        rcases List.mem_cons.mp hj with rfl | hj
        · exact absurd hcovers (hnot c hc)
        · exact hpainted.painted j hj c hc hcovers
      · intro r c hc hout
        exact hpainted.kept r c hc fun hr j hj => hout hr j (List.mem_cons_of_mem _ hj)
    cases hcol : checkedAddSigned i layer.col with
    | none =>
      rw [hcol] at h
      refine hskip ?_ h
      intro c hc hcovers
      have hsome := checkedAddSigned_eq_some.mpr ⟨hcovers.2.1, by omega⟩
      rw [hcol] at hsome
      cases hsome
    | some col =>
      obtain ⟨hadd, -⟩ := checkedAddSigned_eq_some.mp hcol
      rw [hcol] at h
      dsimp only at h
      split at h
      · next hge =>
        refine hskip ?_ h
        intro c hc hcovers
        have hc' := hcovers.2.1
        omega
      · next hlt =>
        have hcell : layer.grid.cell sourceRow i = .ok (layer.grid.cellAt sourceRow i) := by
          rw [Grid.cell, index_ok hsource hi]
          rfl
        rw [hcell] at h
        dsimp only at h
        by_cases hshown : layer.Shown sourceRow i
        · cases hpaint : Compositor.paintCell layer row col (layer.grid.cellAt sourceRow i) state with
          | error error =>
            rw [hpaint] at h
            cases h
          | ok next =>
            rw [hpaint] at h
            dsimp only at h
            have hwrote := wrote_of_paintCell hshown hpaint
            have hpainted := ih (hwidth.trans hwrote.size.width.symm)
              (hwrote.size.height.symm ▸ hrow) hrest hnodup.2 h
            refine ⟨hpainted.size.trans hwrote.size, ?_, ?_, ?_⟩
            · intro j hj c hc hcovers
              rcases List.mem_cons.mp hj with rfl | hj
              · have hc' := hcovers.2.1
                have hfits := hwrote.fits
                simp only [look] at hfits
                rw [Grid.widths]
                rcases hfits with hle | hle
                · have hle' : (layer.grid.cellAt sourceRow j).width.toNat ≤ 1 := UInt8.le_iff_toNat_le.mp hle
                  omega
                · omega
              · rw [← hwrote.size.width]
                exact hpainted.fits j hj c (hwrote.size.width.symm ▸ hc) hcovers
            · intro j hj c hc hcovers
              rcases List.mem_cons.mp hj with rfl | hj
              · have hc' := hcovers.2.1
                rw [hpainted.kept row c (hwrote.size.width.symm ▸ hc), hwrote.cells row c hc,
                  if_pos ⟨rfl, by omega⟩]
                intro _ k hk hcovers'
                rw [hcovers'.unique hcovers] at hk
                exact hnodup.1 hk
              · exact hpainted.painted j hj c (hwrote.size.width.symm ▸ hc) hcovers
            · intro r c hc hout
              rw [hpainted.kept r c (hwrote.size.width.symm ▸ hc), hwrote.cells r c hc, if_neg]
              · intro hin
                refine hout hin.1 i (List.mem_cons_self ..) ⟨hi, ?_, hshown⟩
                rw [hadd, hin.2]
              · exact fun hr j hj => hout hr j (List.mem_cons_of_mem _ hj)
        · rw [paintCell_of_not_shown hshown] at h
          exact hskip (fun c _ hcovers => hshown hcovers.2.2) h

/-- What rows of a layer do to the output. -/
structure RowsPainted (layer : Layer) (rows : List Nat) (before after : Grid) : Prop where
  size : SameSize after before
  fits : ∀ sourceRow ∈ rows, ∀ row, row < before.height → (sourceRow : Int) + layer.row = row →
    ∀ i c, c < before.width → Covers layer.grid.width layer.col (layer.Shown sourceRow) i c →
      c + layer.grid.widths sourceRow i ≤ before.width
  painted : ∀ sourceRow ∈ rows, ∀ row, row < before.height → (sourceRow : Int) + layer.row = row →
    ∀ i c, c < before.width → Covers layer.grid.width layer.col (layer.Shown sourceRow) i c →
      look after row c = look layer.grid sourceRow i
  kept : ∀ r c, r < before.height → c < before.width → (∀ sourceRow ∈ rows,
    (sourceRow : Int) + layer.row = r →
      ∀ i, ¬Covers layer.grid.width layer.col (layer.Shown sourceRow) i c) →
        look after r c = look before r c

theorem rowsPainted_of_paintRows {rows : List Nat} (hwidth : self.width = state.output.width)
    (hheight : self.height = state.output.height) (hrows : ∀ r ∈ rows, r < layer.grid.height)
    (hnodup : rows.Nodup) (h : self.paintRows layer rows state = .ok state') :
    RowsPainted layer rows state.output state'.output := by
  induction rows generalizing state with
  | nil =>
    obtain rfl := Except.ok.inj h
    exact ⟨.refl _, by simp, by simp, fun _ _ _ _ _ => rfl⟩
  | cons sourceRow rows ih =>
    have hsource := hrows sourceRow (List.mem_cons_self ..)
    have hrest : ∀ r ∈ rows, r < layer.grid.height := fun r hr =>
      hrows r (List.mem_cons_of_mem _ hr)
    rw [List.nodup_cons] at hnodup
    rw [Compositor.paintRows] at h
    have hsmall := state.output.wraps_small
    rw [state.output.wraps_length] at hsmall
    -- a row that is not on the screen
    have hskip : (∀ row : Nat, row < state.output.height → (sourceRow : Int) + layer.row ≠ row) →
        self.paintRows layer rows state = .ok state' →
        RowsPainted layer (sourceRow :: rows) state.output state'.output := by
      intro hnot hpaint
      have hpainted := ih hwidth hheight hrest hnodup.2 hpaint
      refine ⟨hpainted.size, ?_, ?_, ?_⟩
      · intro r hr row hrow hadd
        rcases List.mem_cons.mp hr with rfl | hr
        · exact absurd hadd (hnot row hrow)
        · exact hpainted.fits r hr row hrow hadd
      · intro r hr row hrow hadd
        rcases List.mem_cons.mp hr with rfl | hr
        · exact absurd hadd (hnot row hrow)
        · exact hpainted.painted r hr row hrow hadd
      · intro r c hr hc hout
        exact hpainted.kept r c hr hc fun j hj => hout j (List.mem_cons_of_mem _ hj)
    cases hadd : checkedAddSigned sourceRow layer.row with
    | none =>
      rw [hadd] at h
      refine hskip ?_ h
      intro row hrow heq
      have hsome := checkedAddSigned_eq_some.mpr ⟨heq, by omega⟩
      rw [hadd] at hsome
      cases hsome
    | some row =>
      obtain ⟨hrowEq, -⟩ := checkedAddSigned_eq_some.mp hadd
      rw [hadd] at h
      dsimp only at h
      split at h
      · next hge =>
        refine hskip ?_ h
        intro row' hrow' heq
        omega
      · next hlt =>
        have hrow : row < state.output.height := by omega
        cases hpaint : self.paintRow layer sourceRow row (List.range layer.grid.width) state with
        | error error =>
          rw [hpaint] at h
          cases h
        | ok next =>
          rw [hpaint] at h
          dsimp only at h
          have hfirst := rowPainted_of_paintRow hwidth hrow hsource
            (fun i hi => List.mem_range.mp hi) List.nodup_range hpaint
          have hlater := ih (hwidth.trans hfirst.size.width.symm)
            (hheight.trans hfirst.size.height.symm) hrest hnodup.2 h
          have hrange : ∀ i c, Covers layer.grid.width layer.col (layer.Shown sourceRow) i c →
              i ∈ List.range layer.grid.width := fun i c hcovers => List.mem_range.mpr hcovers.1
          refine ⟨hlater.size.trans hfirst.size, ?_, ?_, ?_⟩
          · intro r hr row' hrow' heq i c hc hcovers
            rcases List.mem_cons.mp hr with rfl | hr
            · exact hfirst.fits i (hrange i c hcovers) c hc hcovers
            · have hfits := hlater.fits r hr row' (hfirst.size.height.symm ▸ hrow') heq i c
                (hfirst.size.width.symm ▸ hc) hcovers
              rwa [hfirst.size.width] at hfits
          · intro r hr row' hrow' heq i c hc hcovers
            rcases List.mem_cons.mp hr with rfl | hr
            · obtain rfl : row' = row := by omega
              rw [hlater.kept row' c (hfirst.size.height.symm ▸ hrow')
                (hfirst.size.width.symm ▸ hc), hfirst.painted i (hrange i c hcovers) c hc hcovers]
              intro j hj hj'
              have hsame : j = r := by omega
              exact absurd (hsame ▸ hj) hnodup.1
            · exact hlater.painted r hr row' (hfirst.size.height.symm ▸ hrow') heq i c
                (hfirst.size.width.symm ▸ hc) hcovers
          · intro r c hr hc hout
            rw [hlater.kept r c (hfirst.size.height.symm ▸ hr) (hfirst.size.width.symm ▸ hc)
              fun j hj => hout j (List.mem_cons_of_mem _ hj)]
            apply hfirst.kept r c hc
            intro heq i _
            subst heq
            exact hout sourceRow (List.mem_cons_self ..) hrowEq i

end Cells

/-! ## Layers that cut nothing -/

/-- **A layer cuts no wide cell**: neither its own ones at an edge of the screen nor those beneath. -/
def Layer.CutsNothing (layer : Layer) (beneath : Grid) : Prop :=
  ∀ sourceRow row, sourceRow < layer.grid.height → row < beneath.height →
    (sourceRow : Int) + layer.row = row →
      Lib.CutsNothing beneath.width layer.grid.width layer.col (layer.Shown sourceRow)
        (layer.grid.widths sourceRow) (beneath.widths row)

section Layers

variable {self : Compositor} {layer : Layer} {state state' : Composing}

theorem widths_eq_of_look {grid other : Grid} {row col row' col' : Nat}
    (h : look grid row col = look other row' col') : grid.widths row col = other.widths row' col' :=
  congrArg (fun cell : List UInt8 × UInt8 => cell.2.toNat) h

/-- **The output stays whole exactly when the layer cuts nothing.** -/
theorem whole_iff_cutsNothing (hwhole : state.output.Whole) (hlayer : layer.grid.Whole)
    (hwidth : self.width = state.output.width) (hheight : self.height = state.output.height)
    (h : self.paintRows layer (List.range layer.grid.height) state = .ok state') :
    state'.output.Whole ↔ layer.CutsNothing state.output := by
  have hpainted := rowsPainted_of_paintRows hwidth hheight (fun r hr => List.mem_range.mp hr)
    List.nodup_range h
  have hiff : ∀ sourceRow row, sourceRow < layer.grid.height → row < state.output.height →
      (sourceRow : Int) + layer.row = row →
        (Tiled state.output.width (state'.output.widths row) ↔
          Lib.CutsNothing state.output.width layer.grid.width layer.col (layer.Shown sourceRow)
            (layer.grid.widths sourceRow) (state.output.widths row)) := by
    intro sourceRow row hsource hrow hadd
    apply tiled_paint_iff (hwhole.tiled row hrow) (hlayer.tiled sourceRow hsource)
    · exact fun i hi => Layer.shown_of_width hi
    · intro i c hc hcovers
      exact widths_eq_of_look
        (hpainted.painted sourceRow (List.mem_range.mpr hsource) row hrow hadd i c hc hcovers)
    · intro c hc hnot
      apply widths_eq_of_look
      apply hpainted.kept row c hrow hc
      intro j _ hj
      have hsame : j = sourceRow := by omega
      exact hsame ▸ hnot
  constructor
  · intro hwhole' sourceRow row hsource hrow hadd
    refine (hiff sourceRow row hsource hrow hadd).mp ?_
    have htiled := hwhole'.tiled row (hpainted.size.height.symm ▸ hrow)
    rwa [hpainted.size.width] at htiled
  · intro hcuts
    refine ⟨?_, ?_⟩
    · intro row hrow
      rw [hpainted.size.width]
      rw [hpainted.size.height] at hrow
      by_cases hsource : ∃ sourceRow, sourceRow < layer.grid.height ∧
          (sourceRow : Int) + layer.row = row
      · obtain ⟨sourceRow, hsource, hadd⟩ := hsource
        exact (hiff sourceRow row hsource hrow hadd).mpr (hcuts sourceRow row hsource hrow hadd)
      · refine (hwhole.tiled row hrow).congr fun c hc => ?_
        apply widths_eq_of_look
        apply hpainted.kept row c hrow hc
        intro j hj hadd
        exact absurd ⟨j, List.mem_range.mp hj, hadd⟩ hsource
    · intro row c hrow hc hzero
      rw [hpainted.size.width] at hc
      rw [hpainted.size.height] at hrow
      by_cases hcovered : ∃ sourceRow i, sourceRow < layer.grid.height ∧
          (sourceRow : Int) + layer.row = row ∧
            Covers layer.grid.width layer.col (layer.Shown sourceRow) i c
      · obtain ⟨sourceRow, i, hsource, hadd, hcovers⟩ := hcovered
        have hlook := hpainted.painted sourceRow (List.mem_range.mpr hsource) row hrow hadd i c hc
          hcovers
        rw [look, look, Prod.mk.injEq] at hlook
        rw [hlook.1]
        exact hlayer.empty sourceRow i hsource hcovers.1 (hlook.2 ▸ hzero)
      · have hlook := hpainted.kept row c hrow hc fun j hj hadd i hcovers =>
          hcovered ⟨j, i, List.mem_range.mp hj, hadd, hcovers⟩
        rw [look, look, Prod.mk.injEq] at hlook
        rw [hlook.1]
        exact hwhole.empty row c hrow hc (hlook.2 ▸ hzero)

end Layers

end Oxvim.Ui
