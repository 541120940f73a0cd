import Oxvim.Ui.CompositorWhole

/-!
# Composition of a stack of layers

Where layers are transparent, every highlight in use must be known to the table, with room for the
mixes. Then composition goes through whole grids from the blank screen on exactly when the screen has
a size that fits and a row for the tabline, and no layer cuts a wide cell.
-/

namespace Oxvim.Ui

open Lib Grid

/-! ## Highlights in use -/

section Ids

variable {p : UInt64 → Prop} {grid grid' : Grid}

/-- The highlights of all cells. -/
def Grid.Ids (p : UInt64 → Prop) (grid : Grid) : Prop :=
  ∀ cell ∈ grid.cells, p cell.hlId

theorem ids_cellAt (h : grid.Ids p) (hzero : p 0) (row col : Nat) : p (grid.cellAt row col).hlId := by
  rw [cellAt]
  cases hcell : grid.cells[row * grid.width + col]? with
  | none => exact hzero
  | some cell => exact h cell (List.mem_of_getElem? hcell)

theorem ids_setCell (h : grid.Ids p) {cell : Cell} (hcell : p cell.hlId) (row col : Nat) :
    (grid.setCell row col cell).Ids p := by
  intro other hother
  rcases List.mem_or_eq_of_mem_set hother with hmem | rfl
  · exact h other hmem
  · exact hcell

theorem ids_resetBlank (h : grid.Ids p) (hzero : p 0) (row : Nat) (cols : List Nat) :
    (grid.resetBlank row cols).Ids p := by
  induction cols generalizing grid with
  | nil => exact h
  | cons col cols ih => exact ih (ids_setCell h hzero row col)

theorem ids_writeCell (h : grid.Ids p) {row col : Nat} {text : List UInt8} {hlId : UInt64}
    {width : UInt8} (hid : p hlId) (hwrite : grid.writeCell row col text hlId width = .ok grid') :
    grid'.Ids p := by
  rw [writeCell] at hwrite
  split at hwrite
  · cases hwrite
  · cases hindex : grid.index row col with
    | error error =>
      rw [hindex] at hwrite
      cases hwrite
    | ok _ =>
      rw [hindex] at hwrite
      obtain rfl := Except.ok.inj hwrite
      exact ids_setCell h hid row col

theorem ids_clearGraphemeAt (h : grid.Ids p) (hzero : p 0) {row col : Nat}
    (hclear : grid.clearGraphemeAt row col = .ok grid') : grid'.Ids p := by
  rw [clearGraphemeAt] at hclear
  cases hindex : grid.index row col with
  | error error =>
    rw [hindex] at hclear
    cases hclear
  | ok _ =>
    rw [hindex] at hclear
    obtain rfl := Except.ok.inj hclear
    have hreset := ids_resetBlank h hzero row (List.range' (grid.leadCol row col)
      (min (grid.leadCol row col + max (grid.cellAt row (grid.leadCol row col)).width.toNat 1)
        grid.width - grid.leadCol row col))
    split
    · exact ids_setCell hreset hzero row col
    · exact hreset

/-- What every step keeps a loop keeps. -/
theorem foldlM_ok {α β ε : Type} {f : β → α → Except ε β} {q : β → Prop}
    (hstep : ∀ b a b', q b → f b a = .ok b' → q b') {l : List α} {b b' : β} (hb : q b)
    (h : l.foldlM f b = .ok b') : q b' := by
  induction l generalizing b with
  | nil =>
    obtain rfl := Except.ok.inj h
    exact hb
  | cons a l ih =>
    rw [List.foldlM_cons] at h
    cases hfirst : f b a with
    | error error =>
      rw [hfirst] at h
      cases h
    | ok next =>
      rw [hfirst] at h
      exact ih (hstep b a next hb hfirst) h

theorem ids_put (h : grid.Ids p) (hzero : p 0) {row col : Nat} {text : List UInt8} {hlId : UInt64}
    {width : UInt8} (hid : p hlId) (hput : grid.put row col text hlId width = .ok grid') :
    grid'.Ids p := by
  rw [put] at hput
  split at hput
  · cases hput
  · cases hclear : (List.range' col width.toNat).reverse.foldlM
        (fun grid targetCol => grid.clearGraphemeAt row targetCol) grid with
    | error error =>
      simp only [bind, Except.bind, hclear] at hput
      cases hput
    | ok cleared =>
      have hcleared : cleared.Ids p :=
        foldlM_ok (fun g c g' hg hstep => ids_clearGraphemeAt hg hzero hstep) h hclear
      cases hlead : cleared.writeCell row col text hlId width with
      | error error =>
        simp only [bind, Except.bind, hclear, hlead] at hput
        cases hput
      | ok lead =>
        simp only [bind, Except.bind, hclear, hlead] at hput
        exact foldlM_ok (fun g c g' hg hstep => ids_writeCell hg hid hstep)
          (ids_writeCell hcleared hid hlead) hput

theorem ids_writeText {widths : UnicodeWidth} (h : grid.Ids p) (hzero : p 0) {row col end' : Nat}
    {text : List Char} {hlId : UInt64} (hid : p hlId)
    (hwrite : grid.writeText widths row col text hlId = .ok (end', grid')) : grid'.Ids p := by
  have hclusters : ∀ {grid : Grid} {col : Nat} {text : List Char}, grid.Ids p →
      grid.writeClusters widths row col hlId text = .ok (end', grid') → grid'.Ids p := by
    intro grid col text h hwrite
    induction hn : text.length using Nat.strongRecOn generalizing grid col text with
    | ind n ih =>
      subst hn
      cases text with
      | nil =>
        rw [writeClusters] at hwrite
        obtain ⟨-, rfl⟩ := Prod.mk.inj (Except.ok.inj hwrite)
        exact h
      | cons first rest =>
        rw [writeClusters] at hwrite
        split at hwrite
        · dsimp only at hwrite
          split at hwrite
          · obtain ⟨-, rfl⟩ := Prod.mk.inj (Except.ok.inj hwrite)
            exact h
          · split at hwrite
            · cases hwrite
            · next hput =>
              refine ih _ ?_ (ids_put h hzero hid hput) hwrite rfl
              simp only [clusterLength, List.length_drop, List.length_cons]
              omega
        · obtain ⟨-, rfl⟩ := Prod.mk.inj (Except.ok.inj hwrite)
          exact h
  rw [writeText] at hwrite
  split at hwrite
  · cases hindex : grid.index row col with
    | error error =>
      rw [hindex] at hwrite
      cases hwrite
    | ok _ =>
      rw [hindex] at hwrite
      exact hclusters h hwrite
  · exact hclusters h hwrite

end Ids

/-! ## Transparent layers -/

/-- Every highlight on the screen is known, and there is room for more of them. -/
structure Mixable (state : Composing) (room : Nat) : Prop where
  sound : state.highlights.Sound room
  known : state.output.Ids state.highlights.Known
  default : state.highlights.Known 0

/-- What could be looked up can be looked up still. -/
def Keeps (state state' : Composing) : Prop :=
  ∀ id, state.highlights.Known id → state'.highlights.Known id

section Success

variable {self : Compositor} {layer : Layer} {state : Composing} {blends : Prop}

theorem Mixable.mono {room room' : Nat} (h : Mixable state room) (hle : room' ≤ room) :
    Mixable state room' :=
  ⟨h.sound.mono hle, h.known, h.default⟩

/-- **A cell that ends on the screen is painted.** -/
theorem paintCell_ok {row col : Nat} {source : Cell} {room : Nat} (hrow : row < state.output.height)
    (hcol : col < state.output.width)
    (hfits : source.width ≤ 1 ∨ col + source.width.toNat ≤ state.output.width)
    (hblends : layer.winblend ≠ 0 → blends)
    (hmix : blends → Mixable state (room + 1) ∧ state.highlights.Known source.hlId) :
    ∃ state', Compositor.paintCell layer row col source state = .ok state' ∧
      SameSize state'.output state.output ∧ (blends → Mixable state' room ∧ Keeps state state') := by
  rw [Compositor.paintCell]
  split
  · exact ⟨state, rfl, .refl _, fun hb => ⟨(hmix hb).1.mono (Nat.le_succ room), fun _ h => h⟩⟩
  · split
    · rw [writeCell_ok hrow hcol hfits]
      refine ⟨_, rfl, sameSize_setCell _, fun hb => ⟨?_, fun _ h => h⟩⟩
      obtain ⟨hmixable, hsource⟩ := hmix hb
      exact ⟨hmixable.sound.mono (Nat.le_succ room),
        ids_setCell hmixable.known hsource row col, hmixable.default⟩
    · next hwinblend =>
      obtain ⟨hmixable, hsource⟩ := hmix (hblends hwinblend)
      have hbeneath : state.output.hlAt row col = .ok (state.output.cellAt row col).hlId := by
        rw [hlAt, index_ok hrow hcol]
        rfl
      obtain ⟨id, event, highlights, hpremix, hinterned⟩ := HlState.premix_ok hmixable.sound hsource
        (ids_cellAt hmixable.known hmixable.default row col) layer.winblend
      rw [hbeneath]
      dsimp only
      rw [hpremix]
      dsimp only
      rw [writeCell_ok hrow hcol hfits]
      refine ⟨_, rfl, sameSize_setCell _, fun _ => ⟨⟨hinterned.sound, ?_, hinterned.keeps 0
        hmixable.default⟩, hinterned.keeps⟩⟩
      have hkept : state.output.Ids highlights.Known := fun cell hcell =>
        hinterned.keeps _ (hmixable.known cell hcell)
      exact ids_setCell hkept hinterned.known row col

theorem paintRow_ok {sourceRow row : Nat} {cols : List Nat} {room : Nat}
    (hwidth : self.width = state.output.width) (hrow : row < state.output.height)
    (hsource : sourceRow < layer.grid.height) (hcols : ∀ i ∈ cols, i < layer.grid.width)
    (hfits : ∀ i ∈ cols, ∀ c, c < state.output.width →
      Covers layer.grid.width layer.col (layer.Shown sourceRow) i c →
        c + layer.grid.widths sourceRow i ≤ state.output.width)
    (hblends : layer.winblend ≠ 0 → blends)
    (hmix : blends → Mixable state (room + cols.length) ∧
      layer.grid.Ids state.highlights.Known) :
    ∃ state', self.paintRow layer sourceRow row cols state = .ok state' ∧
      SameSize state'.output state.output ∧ (blends → Mixable state' room ∧ Keeps state state') := by
  induction cols generalizing state with
  | nil => exact ⟨state, rfl, .refl _, fun hb => ⟨(hmix hb).1, fun _ h => h⟩⟩
  | cons i cols ih =>
    have hi := hcols i (List.mem_cons_self ..)
    have hrest : ∀ j ∈ cols, j < layer.grid.width := fun j hj => hcols j (List.mem_cons_of_mem _ hj)
    have hskip : ∃ state', self.paintRow layer sourceRow row cols state = .ok state' ∧
        SameSize state'.output state.output ∧
          (blends → Mixable state' room ∧ Keeps state state') :=
      ih hwidth hrow hrest (fun j hj => hfits j (List.mem_cons_of_mem _ hj)) fun hb =>
        ⟨(hmix hb).1.mono (by rw [List.length_cons]; omega), (hmix hb).2⟩
    rw [Compositor.paintRow]
    cases hcol : checkedAddSigned i layer.col with
    | none => exact hskip
    | some col =>
      obtain ⟨hadd, -⟩ := checkedAddSigned_eq_some.mp hcol
      dsimp only
      split
      · exact hskip
      · next hlt =>
        have hcell : layer.grid.cell sourceRow i = .ok (layer.grid.cellAt sourceRow i) := by
          rw [Grid.cell, index_ok hsource hi]
          rfl
        rw [hcell]
        dsimp only
        by_cases hshown : layer.Shown sourceRow i
        · have hends := hfits i (List.mem_cons_self ..) col (by omega) ⟨hi, hadd, hshown⟩
          obtain ⟨next, hpaint, hsize, hnext⟩ := @paintCell_ok layer state blends row col
            (layer.grid.cellAt sourceRow i) (room + cols.length) hrow
            (show col < state.output.width by omega) (.inr hends) hblends fun hb =>
              ⟨(hmix hb).1.mono (by rw [List.length_cons]; omega),
                ids_cellAt (hmix hb).2 (hmix hb).1.default sourceRow i⟩
          obtain ⟨state', hpaints, hsize', hmix'⟩ := ih (hwidth.trans hsize.width.symm)
            (hsize.height.symm ▸ hrow) hrest
            (fun j hj c hc hcovers => by
              rw [hsize.width] at hc ⊢
              exact hfits j (List.mem_cons_of_mem _ hj) c hc hcovers)
            (fun hb => ⟨(hnext hb).1, fun cell hcell => (hnext hb).2 _ ((hmix hb).2 cell hcell)⟩)
          refine ⟨state', ?_, hsize'.trans hsize, fun hb => ⟨(hmix' hb).1, fun id hid =>
            (hmix' hb).2 id ((hnext hb).2 id hid)⟩⟩
          rw [hpaint]
          exact hpaints
        · rw [paintCell_of_not_shown hshown]
          exact hskip

theorem paintRows_ok {rows : List Nat} {room : Nat} (hwidth : self.width = state.output.width)
    (hheight : self.height = state.output.height) (hrows : ∀ r ∈ rows, r < layer.grid.height)
    (hcuts : layer.CutsNothing state.output) (hblends : layer.winblend ≠ 0 → blends)
    (hmix : blends → Mixable state (room + rows.length * layer.grid.width) ∧
      layer.grid.Ids state.highlights.Known) :
    ∃ state', self.paintRows layer rows state = .ok state' ∧
      SameSize state'.output state.output ∧ (blends → Mixable state' room ∧ Keeps state state') := by
  have hfits : ∀ r ∈ rows, ∀ row, row < state.output.height → (r : Int) + layer.row = row →
      ∀ i c, c < state.output.width → Covers layer.grid.width layer.col (layer.Shown r) i c →
        c + layer.grid.widths r i ≤ state.output.width :=
    fun r hr row hrow hadd i c hc hcovers => (hcuts r row (hrows r hr) hrow hadd).right i c hc hcovers
  clear hcuts
  induction rows generalizing state with
  | nil => exact ⟨state, rfl, .refl _, fun hb => ⟨(hmix hb).1.mono (by simp), fun _ h => h⟩⟩
  | cons sourceRow rows ih =>
    have hsource := hrows sourceRow (List.mem_cons_self ..)
    have hrest : ∀ r ∈ rows, r < layer.grid.height := fun r hr =>
      hrows r (List.mem_cons_of_mem _ hr)
    have hlength : (sourceRow :: rows).length * layer.grid.width
        = rows.length * layer.grid.width + layer.grid.width := by
      rw [List.length_cons, Nat.add_mul, Nat.one_mul]
    have hskip : ∃ state', self.paintRows layer rows state = .ok state' ∧
        SameSize state'.output state.output ∧
          (blends → Mixable state' room ∧ Keeps state state') :=
      ih hwidth hheight hrest
        (fun hb => ⟨(hmix hb).1.mono (by rw [hlength]; omega), (hmix hb).2⟩)
        (fun r hr => hfits r (List.mem_cons_of_mem _ hr))
    rw [Compositor.paintRows]
    cases hadd : checkedAddSigned sourceRow layer.row with
    | none => exact hskip
    | some row =>
      obtain ⟨hrowEq, -⟩ := checkedAddSigned_eq_some.mp hadd
      dsimp only
      split
      · exact hskip
      · next hlt =>
        have hrow : row < state.output.height := by omega
        obtain ⟨next, hpaint, hsize, hnext⟩ := @paintRow_ok self layer state blends sourceRow row
          (List.range layer.grid.width) (room + rows.length * layer.grid.width) hwidth hrow hsource
          (fun i hi => List.mem_range.mp hi)
          (fun i _ c hc hcovers => hfits sourceRow (List.mem_cons_self ..) row hrow hrowEq i c hc
            hcovers) hblends
          (fun hb => ⟨(hmix hb).1.mono (by rw [hlength, List.length_range]; omega), (hmix hb).2⟩)
        obtain ⟨state', hpaints, hsize', hmix'⟩ := ih (hwidth.trans hsize.width.symm)
          (hheight.trans hsize.height.symm) hrest
          (fun hb => ⟨(hnext hb).1, fun cell hcell => (hnext hb).2 _ ((hmix hb).2 cell hcell)⟩)
          (fun r hr row' hrow' heq i c hc hcovers => by
            rw [hsize.width] at hc ⊢
            rw [hsize.height] at hrow'
            exact hfits r (List.mem_cons_of_mem _ hr) row' hrow' heq i c hc hcovers)
        refine ⟨state', ?_, hsize'.trans hsize, fun hb => ⟨(hmix' hb).1, fun id hid =>
          (hmix' hb).2 id ((hnext hb).2 id hid)⟩⟩
        rw [hpaint]
        exact hpaints

variable {widths : UnicodeWidth}

/-- **A statusline is written below a layer without leaving a half of a wide cell.** -/
theorem paintStatusline_ok {room : Nat} (hwhole : state.output.Whole)
    (hwidth : self.width = state.output.width) (hheight : self.height = state.output.height)
    (hmix : blends → Mixable state room ∧
      ∀ text hlId, layer.statusline = some (text, hlId) → state.highlights.Known hlId) :
    ∃ state', self.paintStatusline widths layer state = .ok state' ∧ state'.output.Whole ∧
      SameSize state'.output state.output ∧ (blends → Mixable state' room ∧ Keeps state state') := by
  have hsame : ∃ state', Except.ok (ε := CompositorError) state = .ok state' ∧
      state'.output.Whole ∧ SameSize state'.output state.output ∧
        (blends → Mixable state' room ∧ Keeps state state') :=
    ⟨state, rfl, hwhole, .refl _, fun hb => ⟨(hmix hb).1, fun _ h => h⟩⟩
  rw [Compositor.paintStatusline]
  split
  · next statusline hlId row col hline _ _ =>
    split
    · next hin =>
      obtain ⟨end', written, hwrite, hwritten, hsize⟩ := @writeText_ok state.output row col widths
        hwhole (by omega) (by omega) statusline hlId
      rw [hwrite]
      refine ⟨_, rfl, hwritten, hsize, fun hb => ⟨⟨(hmix hb).1.sound, ?_, (hmix hb).1.default⟩,
        fun _ h => h⟩⟩
      exact ids_writeText (hmix hb).1.known (hmix hb).1.default ((hmix hb).2 _ _ hline) hwrite
    · exact hsame
  · exact hsame

end Success

/-! ## The stack -/

namespace Compositor

variable (widths : UnicodeWidth) (self : Compositor)

/-- Painting layers one after another goes through whole grids only. -/
def ThroughWhole : List Layer → Composing → Prop
  | [], _ => True
  | layer :: layers, state => ∃ painted lined,
    self.paintRows layer (List.range layer.grid.height) state = .ok painted ∧ painted.output.Whole ∧
      self.paintStatusline widths layer painted = .ok lined ∧ lined.output.Whole ∧
        ThroughWhole layers (self.placeCursor layer lined)

/-- **No layer cuts a wide cell** of its own or of the picture it is painted over. -/
def CutFree : List Layer → Composing → Prop
  | [], _ => True
  | layer :: layers, state => layer.CutsNothing state.output ∧
    ∀ state', self.paintLayer widths layer state = .ok state' → CutFree layers state'

/-- What is written to the top row: columns, texts and highlights. -/
def tablineRuns : List (Nat × List Char × UInt64) :=
  if self.width = 0 then []
  else if self.tablineRow.isEmpty then
    if self.tablineWasShown then [(0, List.replicate self.width ' ', 0)] else []
  else self.tablineRow

/-- Whether the first cluster of a run ends on the screen. -/
def Draws (run : Nat × List Char × UInt64) : Prop :=
  run.2.1 ≠ [] ∧ run.1 < self.width ∧
    run.1 + max (widths.str (run.2.1.take (clusterLength widths run.2.1))) 1 ≤ self.width

/-- The screen fits into memory, and has a row for what the tabline draws. -/
structure Sized (widths : UnicodeWidth) (compositor : Compositor) : Prop where
  cells : compositor.width * compositor.height < 2 ^ 63
  rows : compositor.height < 2 ^ 63
  tabline : ∀ run ∈ compositor.tablineRuns, compositor.Draws widths run → 0 < compositor.height

/-- Every highlight in use is known to the table, which has room for the mixes of all cells. -/
structure Mixes (compositor : Compositor) (highlights : HlState) : Prop where
  sound : highlights.Sound (compositor.layers.map fun layer => layer.grid.cells.length).sum
  default : highlights.Known 0
  tabline : ∀ run ∈ compositor.tablineRow, highlights.Known run.2.2
  cells : ∀ layer ∈ compositor.layers, layer.grid.Ids highlights.Known
  statusline : ∀ layer ∈ compositor.layers, ∀ text hlId, layer.statusline = some (text, hlId) →
    highlights.Known hlId

variable {widths self} {state state' : Composing} {layer : Layer} {layers : List Layer}

@[simp] theorem placeCursor_output : (self.placeCursor layer state).output = state.output := by
  unfold placeCursor
  split
  · rfl
  · split
    · split
      · rfl
      · rfl
    · rfl

@[simp] theorem placeCursor_highlights :
    (self.placeCursor layer state).highlights = state.highlights := by
  unfold placeCursor
  split
  · rfl
  · split
    · split
      · rfl
      · rfl
    · rfl

theorem paintLayer_eq {painted lined : Composing}
    (hpaint : self.paintRows layer (List.range layer.grid.height) state = .ok painted)
    (hline : self.paintStatusline widths layer painted = .ok lined) :
    self.paintLayer widths layer state = .ok (self.placeCursor layer lined) := by
  simp only [paintLayer, bind, Except.bind, hpaint, hline, pure, Except.pure]

/-- Going through whole grids succeeds. -/
theorem ThroughWhole.paintLayers (h : self.ThroughWhole widths layers state)
    (hwhole : state.output.Whole) :
    ∃ state', self.paintLayers widths layers state = .ok state' ∧ state'.output.Whole := by
  induction layers generalizing state with
  | nil => exact ⟨state, rfl, hwhole⟩
  | cons layer layers ih =>
    obtain ⟨painted, lined, hpaint, -, hline, hlined, hrest⟩ := h
    obtain ⟨state', hpaints, hwhole'⟩ := ih hrest (by rwa [placeCursor_output])
    refine ⟨state', ?_, hwhole'⟩
    rw [Compositor.paintLayers, paintLayer_eq hpaint hline]
    exact hpaints

/-- A layer that cuts nothing is painted, and its statusline below it. -/
theorem layer_ok {blends : Prop} {room : Nat} (hwhole : state.output.Whole)
    (hlayer : layer.grid.Whole) (hwidth : self.width = state.output.width)
    (hheight : self.height = state.output.height) (hcuts : layer.CutsNothing state.output)
    (hblends : layer.winblend ≠ 0 → blends)
    (hmix : blends → Mixable state (layer.grid.cells.length + room) ∧
      layer.grid.Ids state.highlights.Known ∧
        ∀ text hlId, layer.statusline = some (text, hlId) → state.highlights.Known hlId) :
    ∃ painted lined, self.paintRows layer (List.range layer.grid.height) state = .ok painted ∧
      painted.output.Whole ∧ self.paintStatusline widths layer painted = .ok lined ∧
        lined.output.Whole ∧ SameSize lined.output state.output ∧
          (blends → Mixable lined room ∧ Keeps state lined) := by
  have hlength : room + (List.range layer.grid.height).length * layer.grid.width
      ≤ layer.grid.cells.length + room := by
    rw [List.length_range, layer.grid.cells_length, Nat.mul_comm layer.grid.width]
    omega
  obtain ⟨painted, hpaint, hsize, hmix'⟩ := @paintRows_ok self layer state blends
    (List.range layer.grid.height) room hwidth hheight (fun r hr => List.mem_range.mp hr) hcuts
    hblends (fun hb => ⟨(hmix hb).1.mono hlength, (hmix hb).2.1⟩)
  have hpainted := (whole_iff_cutsNothing hwhole hlayer hwidth hheight hpaint).mpr hcuts
  obtain ⟨lined, hline, hlined, hsize', hmix''⟩ := @paintStatusline_ok self layer painted blends
    widths room hpainted (hwidth.trans hsize.width.symm) (hheight.trans hsize.height.symm)
    (fun hb => ⟨(hmix' hb).1, fun text hlId htext =>
      (hmix' hb).2 hlId ((hmix hb).2.2 text hlId htext)⟩)
  exact ⟨painted, lined, hpaint, hpainted, hline, hlined, hsize'.trans hsize, fun hb =>
    ⟨(hmix'' hb).1, fun id hid => (hmix'' hb).2 id ((hmix' hb).2 id hid)⟩⟩

/-- **Layers are painted through whole grids only exactly when none of them cuts a wide cell.** -/
theorem throughWhole_iff {blends : Prop} (hwhole : state.output.Whole)
    (hwidth : self.width = state.output.width) (hheight : self.height = state.output.height)
    (hlayers : ∀ layer ∈ layers, layer.grid.Whole)
    (hblends : ∀ layer ∈ layers, layer.winblend ≠ 0 → blends)
    (hmix : blends → Mixable state (layers.map fun layer => layer.grid.cells.length).sum ∧
      ∀ layer ∈ layers, layer.grid.Ids state.highlights.Known ∧
        ∀ text hlId, layer.statusline = some (text, hlId) → state.highlights.Known hlId) :
    self.ThroughWhole widths layers state ↔ self.CutFree widths layers state := by
  induction layers generalizing state with
  | nil => exact Iff.rfl
  | cons layer layers ih =>
    have hlayer := hlayers layer (List.mem_cons_self ..)
    -- once the layer cuts nothing, the rest of the stack starts from a whole grid again
    have hnext : layer.CutsNothing state.output → ∃ painted lined,
        self.paintRows layer (List.range layer.grid.height) state = .ok painted ∧
          painted.output.Whole ∧ self.paintStatusline widths layer painted = .ok lined ∧
            lined.output.Whole ∧ (self.ThroughWhole widths layers (self.placeCursor layer lined) ↔
              self.CutFree widths layers (self.placeCursor layer lined)) := by
      intro hcuts
      obtain ⟨painted, lined, hpaint, hpainted, hline, hlined, hsize, hmix'⟩ :=
        @layer_ok widths self state layer blends
          (layers.map fun layer => layer.grid.cells.length).sum hwhole hlayer hwidth hheight hcuts
          (hblends layer (List.mem_cons_self ..))
          (fun hb => ⟨by simpa using (hmix hb).1, (hmix hb).2 layer (List.mem_cons_self ..)⟩)
      refine ⟨painted, lined, hpaint, hpainted, hline, hlined, ?_⟩
      apply ih
      · rwa [placeCursor_output]
      · rw [placeCursor_output, hwidth, hsize.width]
      · rw [placeCursor_output, hheight, hsize.height]
      · exact fun other hother => hlayers other (List.mem_cons_of_mem _ hother)
      · exact fun other hother => hblends other (List.mem_cons_of_mem _ hother)
      · intro hb
        have hkeeps : Keeps state (self.placeCursor layer lined) := by
          intro id hid
          rw [placeCursor_highlights]
          exact (hmix' hb).2 id hid
        have hrest := fun other hother => (hmix hb).2 other (List.mem_cons_of_mem layer hother)
        refine ⟨⟨?_, ?_, ?_⟩, fun other hother => ⟨fun cell hcell => ?_, fun text hlId hline => ?_⟩⟩
        · rw [placeCursor_highlights]
          exact (hmix' hb).1.sound
        · rw [placeCursor_output, placeCursor_highlights]
          exact (hmix' hb).1.known
        · rw [placeCursor_highlights]
          exact (hmix' hb).1.default
        · exact hkeeps _ ((hrest other hother).1 cell hcell)
        · exact hkeeps _ ((hrest other hother).2 text hlId hline)
    constructor
    · intro h
      obtain ⟨painted, lined, hpaint, hpainted, hline, hlined, hrest⟩ := h
      have hcuts := (whole_iff_cutsNothing hwhole hlayer hwidth hheight hpaint).mp hpainted
      obtain ⟨painted', lined', hpaint', -, hline', -, hiff⟩ := hnext hcuts
      obtain rfl := Except.ok.inj (hpaint'.symm.trans hpaint)
      obtain rfl := Except.ok.inj (hline'.symm.trans hline)
      refine ⟨hcuts, ?_⟩
      intro state' hstate'
      rw [paintLayer_eq hpaint hline] at hstate'
      obtain rfl := Except.ok.inj hstate'
      exact hiff.mp hrest
    · intro h
      obtain ⟨painted, lined, hpaint, hpainted, hline, hlined, hiff⟩ := hnext h.1
      exact ⟨painted, lined, hpaint, hpainted, hline, hlined,
        hiff.mpr (h.2 _ (paintLayer_eq hpaint hline))⟩

/-! ## The blank screen and the tabline -/

theorem whole_blank {grid : Grid} (h : ∀ row col, grid.cellAt row col = Cell.blank) : grid.Whole where
  tiled row _ := (Tiled.ones grid.width).congr fun col _ => by
    rw [Grid.widths, h]
    rfl
  empty row col _ _ hzero := by
    rw [h] at hzero
    cases hzero

theorem reshape_ok {grid : Grid} {width height : Nat} (hcells : width * height < 2 ^ 63)
    (hrows : height < 2 ^ 63) : ∃ blank, grid.reshape width height = .ok blank ∧ blank.Whole ∧
      blank.width = width ∧ blank.height = height ∧ ∀ cell ∈ blank.cells, cell = Cell.blank := by
  rw [Grid.reshape, if_neg (by omega), dif_pos ⟨hcells, hrows⟩]
  refine ⟨_, rfl, ?_, rfl, rfl, fun cell hcell => List.eq_of_mem_replicate hcell⟩
  apply whole_blank
  intro row col
  rw [cellAt, List.getElem?_replicate]
  split
  · rfl
  · rfl

theorem sized_of_reshape {grid blank : Grid} {width height : Nat}
    (h : grid.reshape width height = .ok blank) : width * height < 2 ^ 63 ∧ height < 2 ^ 63 := by
  rw [Grid.reshape] at h
  split at h
  · cases h
  · split at h
    · next hsmall => exact hsmall
    · cases h

theorem paintTablineRow_eq (output : Grid) : self.paintTablineRow widths output
    = self.paintRuns widths self.tablineRuns output := by
  rw [paintTablineRow, tablineRuns]
  split
  · rfl
  · split
    · split
      · rfl
      · rfl
    · rfl

/-- A run that draws nothing leaves the grid alone. -/
theorem writeText_of_not_draws {output : Grid} {run : Nat × List Char × UInt64}
    (hwidth : self.width = output.width) (hcol : run.1 < self.width)
    (h : ¬self.Draws widths run) :
    output.writeText widths 0 run.1 run.2.1 run.2.2 = .ok (run.1, output) := by
  obtain ⟨col, text, hlId⟩ := run
  simp only [Draws] at h hcol ⊢
  rw [writeText, if_neg (by omega)]
  cases text with
  | nil => rw [writeClusters]
  | cons first rest =>
    have hwide : ¬col + max (widths.str ((first :: rest).take
        (clusterLength widths (first :: rest)))) 1 ≤ self.width := by
      intro hle
      exact h ⟨by simp, hcol, hle⟩
    rw [writeClusters, if_pos (by omega)]
    dsimp only
    rw [if_pos (by omega)]

/-- A run that draws needs a row. -/
theorem writeText_error {output : Grid} {run : Nat × List Char × UInt64}
    (hwidth : self.width = output.width) (hheight : output.height = 0)
    (h : self.Draws widths run) :
    ∃ error, output.writeText widths 0 run.1 run.2.1 run.2.2 = .error error := by
  obtain ⟨col, text, hlId⟩ := run
  obtain ⟨htext, hcol, hfits⟩ := h
  simp only at htext hcol hfits ⊢
  rw [writeText, if_neg (by omega)]
  cases text with
  | nil => exact absurd rfl htext
  | cons first rest =>
    rw [writeClusters, if_pos (by omega)]
    dsimp only
    rw [if_neg (by omega)]
    generalize hw : max (widths.str ((first :: rest).take
      (clusterLength widths (first :: rest)))) 1 = w at hfits ⊢
    have hpos : 0 < (if w < 256 then UInt8.ofNat w else 255).toNat ∧
        (if w < 256 then UInt8.ofNat w else 255).toNat ≤ w := by
      split
      · rw [UInt8.toNat_ofNat_of_lt' ‹_›]
        omega
      · rw [show (255 : UInt8).toNat = 255 from rfl]
        omega
    generalize (if w < 256 then UInt8.ofNat w else 255) = width at hpos ⊢
    have hput : ∃ error, output.put 0 col (Utf8.encode ((first :: rest).take
        (clusterLength widths (first :: rest)))) hlId width = .error error := by
      have hnot : ¬(width = 0 ∨ col + width.toNat > output.width) := by
        intro hor
        rcases hor with rfl | hgt
        · exact absurd hpos.1 (by decide)
        · omega
      -- already the first column to clear is outside
      have hcols : (List.range' col width.toNat).reverse
          = (col + (width.toNat - 1)) :: (List.range' col (width.toNat - 1)).reverse := by
        obtain ⟨n, hn⟩ : ∃ n, width.toNat = n + 1 := ⟨width.toNat - 1, by omega⟩
        rw [hn, List.range'_concat, List.reverse_append]
        simp
      have hclear : ∀ c, output.clearGraphemeAt 0 c
          = .error (.outOfBounds 0 c output.width output.height) := by
        intro c
        rw [clearGraphemeAt, index, if_pos (by omega)]
        rfl
      refine ⟨.outOfBounds 0 (col + (width.toNat - 1)) output.width output.height, ?_⟩
      rw [put, if_neg hnot, hcols, List.foldlM_cons, hclear]
      rfl
    obtain ⟨error, hput⟩ := hput
    exact ⟨error, by rw [hput]⟩

theorem paintRuns_ok {runs : List (Nat × List Char × UInt64)} {output : Grid}
    (hwhole : output.Whole) (hwidth : self.width = output.width)
    (hruns : ∀ run ∈ runs, self.Draws widths run → 0 < output.height) :
    ∃ painted, self.paintRuns widths runs output = .ok painted ∧ painted.Whole ∧
      SameSize painted output := by
  induction runs generalizing output with
  | nil => exact ⟨output, rfl, hwhole, .refl _⟩
  | cons run runs ih =>
    have hrest := fun other hother => hruns other (List.mem_cons_of_mem run hother)
    rw [paintRuns]
    split
    · next hcol =>
      by_cases hrow : 0 < output.height
      · obtain ⟨end', written, hwrite, hwritten, hsize⟩ := @writeText_ok output 0 run.1 widths hwhole
          hrow (hwidth ▸ hcol) run.2.1 run.2.2
        rw [hwrite]
        obtain ⟨painted, hpaint, hpainted, hsize'⟩ := ih hwritten (hwidth.trans hsize.width.symm)
          (fun other hother hdraws => hsize.height.symm ▸ hrest other hother hdraws)
        exact ⟨painted, hpaint, hpainted, hsize'.trans hsize⟩
      · rw [writeText_of_not_draws hwidth hcol fun hdraws =>
          hrow (hruns run (List.mem_cons_self ..) hdraws)]
        exact ih hwhole hwidth hrest
    · exact ih hwhole hwidth hrest

theorem not_draws_of_paintRuns {runs : List (Nat × List Char × UInt64)} {output painted : Grid}
    (hwidth : self.width = output.width) (hheight : output.height = 0)
    (h : self.paintRuns widths runs output = .ok painted) :
    ∀ run ∈ runs, ¬self.Draws widths run := by
  induction runs with
  | nil => simp
  | cons run runs ih =>
    intro other hother hdraws
    have hnot : ¬self.Draws widths run := by
      intro hrun
      obtain ⟨error, herror⟩ := writeText_error hwidth hheight hrun
      rw [paintRuns, if_pos hrun.2.1, herror] at h
      cases h
    have hrest : self.paintRuns widths runs output = .ok painted := by
      rw [paintRuns] at h
      split at h
      · next hcol =>
        rw [writeText_of_not_draws hwidth hcol hnot] at h
        exact h
      · exact h
    rcases List.mem_cons.mp hother with rfl | hmem
    · exact hnot hdraws
    · exact ih hrest other hmem hdraws

theorem ids_paintRuns {p : UInt64 → Prop} {runs : List (Nat × List Char × UInt64)}
    {output painted : Grid} (hids : output.Ids p) (hzero : p 0) (hruns : ∀ run ∈ runs, p run.2.2)
    (h : self.paintRuns widths runs output = .ok painted) : painted.Ids p := by
  induction runs generalizing output with
  | nil =>
    obtain rfl := Except.ok.inj h
    exact hids
  | cons run runs ih =>
    have hrest := fun other hother => hruns other (List.mem_cons_of_mem run hother)
    rw [paintRuns] at h
    split at h
    · cases hwrite : output.writeText widths 0 run.1 run.2.1 run.2.2 with
      | error error =>
        rw [hwrite] at h
        cases h
      | ok result =>
        obtain ⟨end', written⟩ := result
        rw [hwrite] at h
        exact ih (ids_writeText hids hzero (hruns run (List.mem_cons_self ..)) hwrite) hrest h
    · exact ih hids hrest h

theorem tablineRuns_known {p : UInt64 → Prop} (hzero : p 0)
    (h : ∀ run ∈ self.tablineRow, p run.2.2) : ∀ run ∈ self.tablineRuns, p run.2.2 := by
  intro run hrun
  rw [tablineRuns] at hrun
  split at hrun
  · cases hrun
  · split at hrun
    · split at hrun
      · obtain rfl := List.mem_singleton.mp hrun
        exact hzero
      · cases hrun
    · exact h run hrun

variable {output : Grid} {highlights : HlState}

/-- The screen before the first layer. -/
theorem start_ok (h : self.Sized widths) : ∃ state, self.start widths output highlights = .ok state ∧
    state.output.Whole ∧ self.width = state.output.width ∧ self.height = state.output.height ∧
      state.highlights = highlights ∧
        (highlights.Known 0 → (∀ run ∈ self.tablineRow, highlights.Known run.2.2) →
          state.output.Ids highlights.Known) := by
  obtain ⟨blank, hblank, hwhole, hwidth, hheight, hcells⟩ :=
    @reshape_ok output self.width self.height h.cells h.rows
  obtain ⟨painted, hpaint, hpainted, hsize⟩ := @paintRuns_ok widths self self.tablineRuns blank hwhole
    hwidth.symm (fun run hrun hdraws => hheight.symm ▸ h.tabline run hrun hdraws)
  refine ⟨⟨painted, highlights, none, []⟩, ?_, hpainted, (hsize.width.trans hwidth).symm,
    (hsize.height.trans hheight).symm, rfl, ?_⟩
  · simp only [start, bind, Except.bind, hblank, paintTablineRow_eq, hpaint, pure, Except.pure]
  · intro hzero htabline
    refine ids_paintRuns ?_ hzero (tablineRuns_known hzero htabline) hpaint
    intro cell hcell
    rw [hcells cell hcell]
    exact hzero

theorem sized_of_start {state : Composing} (h : self.start widths output highlights = .ok state) :
    self.Sized widths := by
  cases hblank : output.reshape self.width self.height with
  | error error =>
    simp only [start, bind, Except.bind, hblank] at h
    cases h
  | ok blank =>
    obtain ⟨hcells, hrows⟩ := sized_of_reshape hblank
    obtain ⟨blank', hblank', -, hwidth, hheight, -⟩ := @reshape_ok output self.width self.height hcells
      hrows
    obtain rfl := Except.ok.inj (hblank'.symm.trans hblank)
    refine ⟨hcells, hrows, ?_⟩
    intro run hrun hdraws
    by_contra hnone
    cases hpaint : self.paintRuns widths self.tablineRuns blank' with
    | error error =>
      simp only [start, bind, Except.bind, hblank, paintTablineRow_eq, hpaint] at h
      cases h
    | ok painted =>
      exact not_draws_of_paintRuns hwidth.symm (by omega) hpaint run hrun hdraws

theorem mem_order {includeMessages : Bool} {layer : Layer}
    (h : layer ∈ self.order includeMessages) : layer ∈ self.layers := by
  simp only [order, List.mem_map, List.mem_mergeSort, List.mem_filter] at h
  obtain ⟨entry, hentry, rfl⟩ := h
  exact List.fst_mem_of_mem_zipIdx hentry.1

/-- The layers in order are some of the layers. -/
theorem sum_order_le (includeMessages : Bool) (size : Layer → Nat) :
    ((self.order includeMessages).map size).sum ≤ (self.layers.map size).sum := by
  simp only [order]
  have hperm := (List.mergeSort_perm (self.layers.zipIdx.filter fun entry =>
      includeMessages || entry.1.kind != .message) fun a b =>
    toLex (decide (a.1.kind = .message), toLex (a.1.zindex.toNat, toLex (a.1.kind.rank, a.2)))
      ≤ toLex (decide (b.1.kind = .message), toLex (b.1.zindex.toNat, toLex (b.1.kind.rank, b.2))))
  rw [((hperm.map Prod.fst).map size).sum_eq]
  have hsub := (List.filter_sublist (l := self.layers.zipIdx) (p := fun entry =>
    includeMessages || entry.1.kind != .message)).map Prod.fst
  rw [List.zipIdx_map_fst] at hsub
  exact (hsub.map size).sum_le_sum (by simp)

variable (widths output highlights) in
/-- Composition succeeds and goes through whole grids only. -/
def ComposesWhole (self : Compositor) (includeMessages : Bool) : Prop :=
  ∃ state composed, self.start widths output highlights = .ok state ∧ state.output.Whole ∧
    self.ThroughWhole widths (self.order includeMessages) state ∧
      self.composeInto widths output highlights includeMessages = .ok composed ∧
        composed.output.Whole

/-- **Composition succeeds through whole grids exactly when no layer cuts a wide cell**, on a screen
that fits into memory and has a row for the tabline. -/
theorem composesWhole_iff {includeMessages : Bool} (hlayers : ∀ layer ∈ self.layers, layer.grid.Whole)
    (hmixes : (∃ layer ∈ self.layers, layer.winblend ≠ 0) → self.Mixes highlights) :
    ComposesWhole widths output highlights self includeMessages ↔
      self.Sized widths ∧ ∀ state, self.start widths output highlights = .ok state →
        self.CutFree widths (self.order includeMessages) state := by
  have hiff : ∀ state, self.start widths output highlights = .ok state → state.output.Whole ∧
      (self.ThroughWhole widths (self.order includeMessages) state ↔
        self.CutFree widths (self.order includeMessages) state) := by
    intro state hstate
    obtain ⟨state', hstate', hwhole, hwidth, hheight, hhighlights, hids⟩ :=
      @start_ok widths self output highlights (sized_of_start hstate)
    obtain rfl := Except.ok.inj (hstate'.symm.trans hstate)
    have hblends : ∀ layer ∈ self.order includeMessages, layer.winblend ≠ 0 →
        ∃ layer ∈ self.layers, layer.winblend ≠ 0 :=
      fun layer hlayer hne => ⟨layer, mem_order hlayer, hne⟩
    refine ⟨hwhole, throughWhole_iff hwhole hwidth hheight
      (fun layer hlayer => hlayers layer (mem_order hlayer)) hblends ?_⟩
    intro hb
    have hmix := hmixes hb
    rw [hhighlights]
    refine ⟨⟨?_, ?_, ?_⟩, fun layer hlayer =>
      ⟨hmix.cells layer (mem_order hlayer), hmix.statusline layer (mem_order hlayer)⟩⟩
    · rw [hhighlights]
      exact hmix.sound.mono (sum_order_le _ _)
    · rw [hhighlights]
      exact hids hmix.default hmix.tabline
    · rw [hhighlights]
      exact hmix.default
  constructor
  · intro h
    obtain ⟨state, composed, hstate, -, hthrough, -, -⟩ := h
    refine ⟨sized_of_start hstate, ?_⟩
    intro state' hstate'
    obtain rfl := Except.ok.inj (hstate'.symm.trans hstate)
    exact (hiff _ hstate').2.mp hthrough
  · intro h
    obtain ⟨hsized, hcuts⟩ := h
    obtain ⟨state, hstate, -⟩ := @start_ok widths self output highlights hsized
    obtain ⟨hwhole, hthrough⟩ := hiff state hstate
    obtain ⟨composed, hcompose, hcomposed⟩ :=
      (hthrough.mpr (hcuts state hstate)).paintLayers hwhole
    refine ⟨state, composed, hstate, hwhole, hthrough.mpr (hcuts state hstate), ?_, hcomposed⟩
    simp only [composeInto, bind, Except.bind, hstate]
    exact hcompose

/-! ## A wide cell at the edge -/

/-- One wide cell and its continuation. -/
def wideCells : List Cell :=
  [⟨[0xE3, 0x81, 0x82], 0, 2⟩, ⟨[], 0, 0⟩]

theorem length_wideCells : wideCells.length = 2 * 1 := rfl

theorem small_wideCells : wideCells.length < 2 ^ 63 := by decide

theorem length_wraps : (List.replicate 1 false).length = 1 := rfl

theorem small_wraps : (List.replicate 1 false).length < 2 ^ 63 := by decide

def wideGrid : Grid where
  id := 2
  width := 2
  height := 1
  cells := wideCells
  wraps := List.replicate 1 false
  cells_length := length_wideCells
  wraps_length := length_wraps
  cells_small := small_wideCells
  wraps_small := small_wraps

theorem whole_wideGrid : wideGrid.Whole where
  tiled row hrow := by
    obtain rfl : row = 0 := Nat.lt_one_iff.mp hrow
    refine (tiled_grapheme (w := 2) (by decide)).congr fun c hc => ?_
    have hc' : c < 2 := hc
    interval_cases c <;> rfl
  empty row col hrow hcol hzero := by
    obtain rfl : row = 0 := Nat.lt_one_iff.mp hrow
    have hcol' : col < 2 := hcol
    interval_cases col
    · cases hzero
    · rfl

/-- The screen is as wide as given, and shows the wide cell at its left edge. -/
def wideCompositor (width : Nat) : Compositor where
  width := width
  height := 1
  layers := [⟨wideGrid, 0, 0, 0, 0, .float, true, none, none⟩]
  tablineRow := []
  tablineWasShown := false

/-- A table without highlights; single-width characters. -/
def noHighlights : HlState := ⟨[], [], fun _ => none, fun _ => none⟩

def narrow : UnicodeWidth := ⟨List.length, fun _ => some 1⟩

theorem composesWhole_iff_wide : ComposesWhole narrow wideGrid noHighlights (wideCompositor 2) true ↔
    (wideCompositor 2).Sized narrow ∧ ∀ state,
      (wideCompositor 2).start narrow wideGrid noHighlights = .ok state →
        (wideCompositor 2).CutFree narrow ((wideCompositor 2).order true) state :=
  composesWhole_iff
    (fun _ hlayer => List.mem_singleton.mp hlayer ▸ whole_wideGrid)
    (fun h => by
      obtain ⟨layer, hlayer, hne⟩ := h
      rw [List.mem_singleton.mp hlayer] at hne
      exact absurd rfl hne)

/-- **A wide cell that the screen's right edge cuts makes composition fail.** -/
theorem composeInto_cut : wideGrid.Whole ∧
    (((wideCompositor 1).composeInto narrow wideGrid noHighlights true).map fun _ => ())
      = .error (.grid (.invalidWidth 2 0 1)) := by
  refine ⟨whole_wideGrid, ?_⟩
  have horder : (wideCompositor 1).order true = (wideCompositor 1).layers := by
    simp [order, wideCompositor]
  simp only [composeInto, horder]
  rfl

end Compositor

end Oxvim.Ui
