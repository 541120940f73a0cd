import Oxvim.Lib.Transition
import Oxvim.Ui.GridMirror

/-!
# A client mirrors the grids

The emitter keeps for each channel the grid it sent last under each id. A grid of the size of the
last one is sent as the spans that have changed, any other grid in full after a resize.

A session is the emitter with one channel and its client, which has received the batches flushed so
far. Whatever grids are emitted and whenever a batch is flushed, the client shows each grid as it was
emitted last, once it has received the current batch.
-/

namespace Oxvim.Ui

open Lib EState

/-- The last grid sent to each channel under each id. -/
structure Emitter where
  previous : UInt64 → Int → Option Grid

/-- An emitter that serves a channel. -/
structure Redraw where
  emitter : Emitter
  channel : UiChannel

def gridLineEvent (grid : Int) (line : GridLine) : UiEvent where
  name := "grid_line"
  args := [.integer grid, .integer (clampI64 line.row), .integer (clampI64 line.startCol),
    .array line.cells, .boolean line.wrap]

def gridResizeEvent (grid : Grid) : UiEvent where
  name := "grid_resize"
  args := [.integer grid.id, .integer (clampI64 grid.width), .integer (clampI64 grid.height)]

namespace Redraw

def emit (event : UiEvent) : EStateM UiChannelError Redraw Unit :=
  zoom (·.channel) (fun channel self => { self with channel }) id (UiChannel.emit event)

def emitLines (grid : Int) : (lines : List GridLine) → EStateM UiChannelError Redraw Unit
  | [] => return
  | line :: lines => do
    emit (gridLineEvent grid line)
    emitLines grid lines

def retain (channelId : UInt64) (id : Int) (grid : Grid) : EStateM UiChannelError Redraw Unit :=
  modify fun self => { self with
    emitter.previous := Function.update self.emitter.previous channelId
      (Function.update (self.emitter.previous channelId) id (some grid)) }

/-- The resize and the full image, and the grid is the last one. -/
def emitFull (channelId : UInt64) (grid : Grid) : EStateM UiChannelError Redraw Unit := do
  emit (gridResizeEvent grid)
  emitLines grid.id grid.fullLines
  retain channelId grid.id grid

/-- Emits a grid resize with a full initial image, or minimal line diffs. -/
def emitGrid (channelId : UInt64) (grid : Grid) : EStateM UiChannelError Redraw Unit := do
  let self ← get
  match self.emitter.previous channelId grid.id with
  | some previous =>
    if previous.width = grid.width ∧ previous.height = grid.height then
      let (lines, synced) := grid.diffAndSync previous
      retain channelId grid.id synced
      emitLines grid.id lines
    else emitFull channelId grid
  | none => emitFull channelId grid

end Redraw

/-! ## Emitting into a batch -/

theorem toNat_clampI64_le (n : Nat) : (clampI64 n).toNat ≤ n := by
  unfold clampI64
  split <;> omega

namespace Redraw

def withBatch (self : Redraw) (batch : RedrawBatch) : Redraw :=
  { self with channel := { self.channel with batch := some batch } }

theorem emit_gridLine {self : Redraw} {batch : RedrawBatch} (h : self.channel.batch = some batch)
    (grid : Int) (line : GridLine) :
    emit (gridLineEvent grid line) self = .ok () (self.withBatch
      (batch.gridLine grid (clampI64 line.row) (clampI64 line.startCol) line.cells line.wrap)) := by
  refine zoom_ok ?_
  rw [UiChannel.emit, bind_ok (get_run _), h]
  rfl

theorem emit_gridResize {self : Redraw} {batch : RedrawBatch} (h : self.channel.batch = some batch)
    (grid : Grid) : emit (gridResizeEvent grid) self = .ok () (self.withBatch
      (batch.push "grid_resize" (gridResizeEvent grid).args)) := by
  refine zoom_ok ?_
  rw [UiChannel.emit, bind_ok (get_run _), h]
  rfl

/-- Lines that are emitted are drawn on the screen of the client. -/
theorem emitLines_run {lines : List GridLine} (hcarried : ∀ line ∈ lines, line.Carried) (grid : Int)
    {self : Redraw} {batch : RedrawBatch} (hbatch : self.channel.batch = some batch)
    (hsound : Sound batch) (client : Client) :
    ∃ batch', emitLines grid lines self = .ok () (self.withBatch batch') ∧ Sound batch' ∧
      client.receive batch' = Function.update (client.receive batch) grid
        (((client.receive batch) grid).draw lines) := by
  induction lines generalizing self batch with
  | nil =>
    refine ⟨batch, ?_, hsound, (Function.update_eq_self _ _).symm⟩
    rw [withBatch, ← hbatch]
    rfl
  | cons line lines ih =>
    obtain ⟨hproper, hcells, hrow, hcol⟩ := hcarried line (List.mem_cons_self ..)
    have hemit := emit_gridLine hbatch grid line
    rw [clampI64_of_lt hrow, clampI64_of_lt hcol] at hemit
    obtain ⟨hsound', hdrawn⟩ := hsound.gridLine client grid line.row line.startCol hproper hcells
      line.wrap
    have hbatch' : (self.withBatch (batch.gridLine grid line.row line.startCol line.cells
      line.wrap)).channel.batch = some _ := rfl
    obtain ⟨batch', hrun, hsound'', hclient⟩ := ih
      (fun l hl => hcarried l (List.mem_cons_of_mem _ hl)) hbatch' hsound'
    refine ⟨batch', ?_, hsound'', ?_⟩
    · rw [emitLines, bind_ok hemit]
      exact hrun
    · rw [hclient, hdrawn, Function.update_self, Function.update_idem]
      rfl

/-- A grid whose highlights can be sent, emitted while a batch is active: the client shows it, and
shows the other grids as before. -/
theorem emitFull_run (channelId : UInt64) {grid : Grid} (hfits : Fits grid.cells) {self : Redraw}
    {batch : RedrawBatch} (hbatch : self.channel.batch = some batch) (hsound : Sound batch)
    (client : Client) :
    ∃ batch', emitFull channelId grid self = .ok ()
        { emitter.previous := Function.update self.emitter.previous channelId
            (Function.update (self.emitter.previous channelId) grid.id (some grid))
          channel := { self.channel with batch := some batch' } } ∧
      Sound batch' ∧
      client.receive batch' = Function.update (client.receive batch) grid.id grid.view := by
  have hresize := emit_gridResize hbatch grid
  have hsound' : Sound (batch.push "grid_resize" (gridResizeEvent grid).args) :=
    hsound.push (by simp)
  have hbatch' : (self.withBatch (batch.push "grid_resize"
    (gridResizeEvent grid).args)).channel.batch = some _ := rfl
  obtain ⟨batch', hrun, hsound'', hclient⟩ := emitLines_run (Grid.carried_fullLines hfits)
    grid.id hbatch' hsound' client
  refine ⟨batch', ?_, hsound'', ?_⟩
  · rw [emitFull, bind_ok hresize, bind_ok hrun]
    rfl
  · rw [hclient, Client.receive_push]
    have hcall : (client.receive batch).call "grid_resize" (gridResizeEvent grid).args
        = Function.update (client.receive batch) grid.id
          (((client.receive batch) grid.id).resize (clampI64 grid.width).toNat
            (clampI64 grid.height).toNat) := rfl
    rw [hcall, Function.update_self, Function.update_idem]
    congr 1
    funext r c
    rw [Grid.draw_fullLines hfits]
    -- what the resize has left outside of the grid is cut off
    have hwidth := toNat_clampI64_le grid.width
    have hheight := toNat_clampI64_le grid.height
    rw [Screen.resize, Grid.view]
    grind

/-- The client shows the grids that are retained for its channel. -/
def Mirrored (self : Redraw) (channelId : UInt64) (client : Client) : Prop :=
  ∀ id previous, self.emitter.previous channelId id = some previous →
    previous.id = id ∧ client id = previous.view

/-- The state after a grid was emitted: its image is retained and the batch has grown. -/
def emitted (self : Redraw) (channelId : UInt64) (id : Int) (previous : Grid)
    (batch : RedrawBatch) : Redraw where
  emitter.previous := Function.update self.emitter.previous channelId
    (Function.update (self.emitter.previous channelId) id (some previous))
  channel := { self.channel with batch := some batch }

theorem previous_emitted (self : Redraw) (channelId : UInt64) (id : Int) (previous : Grid)
    (batch : RedrawBatch) (i : Int) :
    (self.emitted channelId id previous batch).emitter.previous channelId i
      = if i = id then some previous else self.emitter.previous channelId i := by
  show Function.update self.emitter.previous channelId _ channelId i = _
  rw [Function.update_self, Function.update_apply]

theorem emitGrid_run {channelId : UInt64} {grid : Grid} (hfits : Fits grid.cells) {self : Redraw}
    {batch : RedrawBatch} (hbatch : self.channel.batch = some batch) (hsound : Sound batch)
    {client : Client} (hmirrored : self.Mirrored channelId (client.receive batch)) :
    ∃ previous batch', previous.Retains grid ∧ Sound batch' ∧
      emitGrid channelId grid self = .ok () (self.emitted channelId grid.id previous batch') ∧
      client.receive batch' = Function.update (client.receive batch) grid.id grid.view := by
  obtain ⟨full, hfull, hsoundFull, hclientFull⟩ :=
    emitFull_run channelId hfits hbatch hsound client
  have hresend : ∃ previous batch', previous.Retains grid ∧ Sound batch' ∧
      emitFull channelId grid self = .ok () (self.emitted channelId grid.id previous batch') ∧
      client.receive batch' = Function.update (client.receive batch) grid.id grid.view :=
    ⟨grid, full, .refl grid, hsoundFull, hfull, hclientFull⟩
  rw [emitGrid, bind_ok (get_run _)]
  cases hprevious : self.emitter.previous channelId grid.id with
  | none => exact hresend
  | some previous =>
    dsimp only
    split
    · next hsize =>
      -- the lines of the diff are drawn on what the client shows of the previous grid
      obtain ⟨hid, hshown⟩ := hmirrored grid.id previous hprevious
      obtain ⟨hcarried, hdraw, hretains⟩ := Grid.synced_diffAndSync hfits hid hsize.1 hsize.2
      have hbatch' : (self.emitted channelId grid.id (grid.diffAndSync previous).2
        batch).channel.batch = some batch := rfl
      obtain ⟨batch', hrun, hsound', hclient⟩ :=
        emitLines_run hcarried grid.id hbatch' hsound client
      refine ⟨_, batch', hretains, hsound', ?_, ?_⟩
      · have hretain : retain channelId grid.id (grid.diffAndSync previous).2 self
            = .ok () (self.emitted channelId grid.id (grid.diffAndSync previous).2 batch) := by
          rw [retain, modify_run, emitted, ← hbatch]
        rw [bind_ok hretain]
        exact hrun
      · rw [hclient, hshown, hdraw]
    · exact hresend

end Redraw

/-- Flushed events do what the events of the batch do. -/
theorem UiChannel.flush_run {self : UiChannel} {batch : RedrawBatch} (h : self.batch = some batch) :
    ∃ events, flush self = .ok events { self with batch := none } ∧
      ∀ client : Client, client.receive events = client.receive batch := by
  rw [flush, bind_ok (get_run _), bind_ok (set_run _ _), h]
  dsimp only
  split
  · refine ⟨_, rfl, ?_⟩
    intro client
    rw [Client.receive_push, Client.call_flush]
  · exact ⟨_, rfl, fun _ => rfl⟩

/-! ## Runs -/

/-- An emitter with one channel, and a client that has received the batches flushed so far. -/
structure UiSession where
  redraw : Redraw
  client : Client

inductive UiOp where
  | emitGrid (grid : Grid)
  /-- The batch is flushed and the next one begun. -/
  | turn

namespace UiSession

def apply (channelId : UInt64) (t : UiSession) : UiOp → UiSession
  | .emitGrid grid => { t with redraw := final (Redraw.emitGrid channelId grid t.redraw) }
  | .turn => match UiChannel.flush t.redraw.channel with
    | .ok batch channel => {
        redraw := { t.redraw with channel := channel.begin }
        client := t.client.receive batch }
    | .error _ channel => { t with redraw := { t.redraw with channel := channel.begin } }

/-- What the client shows when it has received the current batch too. -/
def shown (t : UiSession) : Client :=
  t.client.receive ((t.redraw.channel.batch).getD [])

/-- Nothing was sent to the channel, its first batch has begun and the client is empty. -/
structure Start (channelId : UInt64) (t : UiSession) : Prop where
  previous : ∀ id, t.redraw.emitter.previous channelId id = none
  batch : t.redraw.channel.batch = some []
  client : t.client = fun _ _ _ => none

/-- A flush, or a grid whose highlights can be sent. -/
def Step (channelId : UInt64) (t t' : UiSession) : Prop :=
  t' = t.apply channelId .turn ∨
    ∃ grid : Grid, Fits grid.cells ∧ t' = t.apply channelId (.emitGrid grid)

structure Kept (channelId : UInt64) (t : UiSession) : Prop where
  batch : ∃ batch, t.redraw.channel.batch = some batch ∧ Sound batch
  mirrored : t.redraw.Mirrored channelId t.shown

variable {channelId : UInt64} {t : UiSession}

theorem kept_start (h : Start channelId t) : Kept channelId t where
  batch := ⟨[], h.batch, .nil⟩
  mirrored := by
    intro id previous hprevious
    rw [h.previous id] at hprevious
    cases hprevious

/-- After an emission the client shows the grid, and shows the others as before. -/
theorem Kept.emitGrid (h : Kept channelId t) {grid : Grid} (hfits : Fits grid.cells) :
    Kept channelId (t.apply channelId (.emitGrid grid)) ∧
      (∃ redraw, Redraw.emitGrid channelId grid t.redraw = .ok () redraw) ∧
      (t.apply channelId (.emitGrid grid)).shown = Function.update t.shown grid.id grid.view ∧
      ∃ previous, previous.Retains grid ∧
        (t.apply channelId (.emitGrid grid)).redraw.emitter.previous channelId grid.id
          = some previous := by
  obtain ⟨batch, hbatch, hsound⟩ := h.batch
  have hshown : t.shown = t.client.receive batch := by rw [shown, hbatch, Option.getD_some]
  obtain ⟨previous, batch', hretains, hsound', hrun, hclient⟩ :=
    Redraw.emitGrid_run hfits hbatch hsound (hshown ▸ h.mirrored)
  have happly : t.apply channelId (.emitGrid grid)
      = { t with redraw := t.redraw.emitted channelId grid.id previous batch' } := by
    rw [UiSession.apply, hrun, final_ok]
  have hshown' : (t.apply channelId (.emitGrid grid)).shown
      = Function.update t.shown grid.id grid.view := by
    rw [happly, hshown, ← hclient]
    rfl
  refine ⟨⟨⟨batch', by rw [happly]; rfl, hsound'⟩, ?_⟩, ⟨_, hrun⟩, hshown', previous, hretains, ?_⟩
  · intro id p hp
    rw [happly, Redraw.previous_emitted] at hp
    rw [hshown']
    by_cases hid : id = grid.id
    · subst hid
      rw [if_pos rfl] at hp
      obtain rfl := Option.some.inj hp
      rw [Function.update_self]
      exact ⟨hretains.id, hretains.view.symm⟩
    · rw [if_neg hid] at hp
      rw [Function.update_of_ne hid]
      exact h.mirrored id p hp
  · rw [happly, Redraw.previous_emitted, if_pos rfl]

/-- A flush hands the client what it has not received yet. -/
theorem Kept.turn (h : Kept channelId t) : Kept channelId (t.apply channelId .turn) ∧
    (t.apply channelId .turn).shown = t.shown := by
  obtain ⟨batch, hbatch, hsound⟩ := h.batch
  obtain ⟨events, hflush, hevents⟩ := UiChannel.flush_run hbatch
  have happly : t.apply channelId .turn = {
      redraw := { t.redraw with channel := { t.redraw.channel with batch := some [] } }
      client := t.client.receive events } := by
    rw [UiSession.apply, hflush]
    rfl
  have hshown : (t.apply channelId .turn).shown = t.shown := by
    rw [happly, shown, shown, hbatch]
    exact hevents t.client
  refine ⟨⟨⟨[], by rw [happly], .nil⟩, ?_⟩, hshown⟩
  rw [hshown, happly]
  exact h.mirrored

theorem kept_of_reachable (h : Reachable (Start channelId) (Step channelId) t) :
    Kept channelId t := by
  apply h.invariant
  · exact fun t => kept_start
  · intro t t' ht hstep
    rcases hstep with rfl | ⟨grid, hfits, rfl⟩
    · exact ht.turn.1
    · exact (ht.emitGrid hfits).1

/-- What an emission is for: the client shows the grid in every cell, and shows its other grids as
before; and the grid is retained, but for the wrap flags of rows without cells. -/
structure Mirrors (channelId : UInt64) (t : UiSession) (grid : Grid) : Prop where
  emits : ∃ redraw, Redraw.emitGrid channelId grid t.redraw = .ok () redraw
  shown : (t.apply channelId (.emitGrid grid)).shown grid.id = grid.view
  others : ∀ id, id ≠ grid.id → (t.apply channelId (.emitGrid grid)).shown id = t.shown id
  retains : ∃ previous, (t.apply channelId (.emitGrid grid)).redraw.emitter.previous channelId grid.id
      = some previous ∧ previous.Retains grid

/-- **A client mirrors every grid exactly**, whatever was emitted before. -/
theorem mirrors_of_reachable (h : Reachable (Start channelId) (Step channelId) t) {grid : Grid}
    (hfits : Fits grid.cells) : Mirrors channelId t grid := by
  obtain ⟨-, hemits, hshown, previous, hretains, hprevious⟩ :=
    (kept_of_reachable h).emitGrid hfits
  refine ⟨hemits, ?_, ?_, previous, hprevious, hretains⟩
  · rw [hshown, Function.update_self]
  · intro id hid
    rw [hshown, Function.update_of_ne hid]

/-- A channel on which nothing was sent. -/
def start : UiSession where
  redraw := ⟨⟨fun _ _ => none⟩, ⟨0, some []⟩⟩
  client := fun _ _ _ => none

theorem start_start (channelId : UInt64) : Start channelId start :=
  ⟨fun _ => rfl, rfl, rfl⟩

/-- A row of one column. -/
def oneCell (text : List UInt8) : Grid where
  id := 1
  width := 1
  height := 1
  cells := [⟨text, 7, 1⟩]
  wraps := [false]
  cells_length := rfl
  wraps_length := rfl
  cells_small := by simp
  wraps_small := by simp

/-- A second grid in the same batch is mirrored. -/
theorem mirrors_oneCell :
    Mirrors 0 (start.apply 0 (.emitGrid (oneCell [0x61]))) (oneCell [0x62]) := by
  have hfirst : Fits (oneCell [0x61]).cells := by simp [Fits, oneCell]
  have hsecond : Fits (oneCell [0x62]).cells := by simp [Fits, oneCell]
  exact mirrors_of_reachable
    ((Reachable.init (start_start 0)).step (.inr ⟨_, hfirst, rfl⟩)) hsecond

/-- A row without columns. -/
def noCell (wrap : Bool) : Grid where
  id := 1
  width := 0
  height := 1
  cells := []
  wraps := [wrap]
  cells_length := rfl
  wraps_length := rfl
  cells_small := by simp
  wraps_small := by simp

/-- The wrap flag of a row without columns is not brought up to date. -/
theorem emitGrid_keeps_wrap :
    ((start.apply 0 (.emitGrid (noCell false))).apply 0
      (.emitGrid (noCell true))).redraw.emitter.previous 0 1 ≠ some (noCell true) := by
  have hkept : ((start.apply 0 (.emitGrid (noCell false))).apply 0
      (.emitGrid (noCell true))).redraw.emitter.previous 0 1 = some (noCell false) := rfl
  rw [hkept]
  intro heq
  have hwraps := congrArg Grid.wraps (Option.some.inj heq)
  cases hwraps

end UiSession

end Oxvim.Ui
