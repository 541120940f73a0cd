import Oxvim.Ui.GridLines

/-!
# What a batch means

A batch bundles its calls and fuses lines that continue one another. `viewer_collected` says that
this cannot be seen: whoever takes the calls of the batch one after another comes to the same cells,
the same written runs with the same wrap flags, and the same other events as from the calls that
were made.
-/

namespace Oxvim.Ui

open Lib

/-! ## The calls of a batch -/

namespace RedrawBatch

/-- The calls of a batch, one after another. -/
def calls (batch : RedrawBatch) : List UiEvent :=
  batch.flatMap fun event => event.argsets.map (⟨event.name, ·⟩)

theorem calls_append (batch batch' : RedrawBatch) :
    calls (batch ++ batch') = calls batch ++ calls batch' :=
  List.flatMap_append

theorem calls_singleton (event : RedrawEvent) :
    calls [event] = event.argsets.map (⟨event.name, ·⟩) :=
  List.flatMap_singleton _ _

theorem calls_push (batch : RedrawBatch) (name : String) (args : List Object) :
    calls (batch.push name args) = calls batch ++ [⟨name, args⟩] := by
  rw [push]
  cases hlast : batch.getLast? with
  | none =>
    dsimp only
    rw [calls_append, calls_singleton]
    rfl
  | some last =>
    obtain ⟨init, rfl⟩ := List.getLast?_eq_some_iff.mp hlast
    dsimp only
    by_cases hname : last.name = name
    · rw [if_pos hname, List.dropLast_concat, calls_append, calls_append, calls_singleton,
        calls_singleton, List.map_append, List.append_assoc, ← hname]
      rfl
    · rw [if_neg hname, calls_append, calls_singleton]
      rfl

/-- A line that continues the last call extends it. -/
theorem calls_fused {batch result : RedrawBatch} {grid row startcol : Int} {cells : List Object}
    {wrap : Bool} (h : batch.fused grid row startcol cells wrap = some result) :
    ∃ before prev, calls batch = before ++ [⟨"grid_line", prev⟩] ∧
      canFuse prev grid row startcol = true ∧
      calls result = before ++ [⟨"grid_line", extend prev cells wrap⟩] := by
  simp only [fused, Option.bind_eq_bind, Option.bind_eq_some_iff, Option.guard_eq_some'] at h
  obtain ⟨last, hlast, _, hname, prev, hprev, _, hfuse, hresult⟩ := h
  obtain ⟨init, rfl⟩ := List.getLast?_eq_some_iff.mp hlast
  obtain ⟨sets, hsets⟩ := List.getLast?_eq_some_iff.mp hprev
  obtain rfl := Option.some.inj hresult
  refine ⟨calls init ++ sets.map (⟨"grid_line", ·⟩), prev, ?_, hfuse, ?_⟩
  · rw [calls_append, calls_singleton, hsets, hname, List.map_append, List.append_assoc]
    rfl
  · rw [List.dropLast_concat, calls_append, calls_singleton, hsets, List.dropLast_concat, hname,
      List.map_append, List.append_assoc]
    rfl

end RedrawBatch

/-! ## A viewer -/

/-- The text of a cell tuple and the highlight it is shown with. -/
abbrev ShownCell := Option Object × Option Int

/-- The cells by grid, row and column. -/
abbrev ViewerCells := Int → Int → Int → Option ShownCell

/-- The highlight a cell tuple carries. -/
def cellAttr : Object → Option Int
  | .array parts => match (parts[1]? : Option Object) with
    | some (.integer attr) => some attr
    | _ => none
  | _ => none

/-- The text of a cell tuple. -/
def cellText : Object → Option Object
  | .array parts => parts[0]?
  | _ => none

/-- The cells that tuples describe: each tuple is repeated, and shown with the highlight of the one
before where it carries none. -/
def unroll (attr : Option Int) : List Object → List ShownCell
  | [] => []
  | tuple :: tuples =>
    List.replicate (cellCount tuple).toNat (cellText tuple, (cellAttr tuple).or attr) ++
      unroll ((cellAttr tuple).or attr) tuples

/-- Cells written one after another, with the wrap flag of the last call. -/
structure WrittenRun where
  grid : Int
  row : Int
  start : Int
  stop : Int
  wrap : Object

/-- What the calls of a redraw add up to. -/
structure Viewer where
  cells : ViewerCells
  /-- The written runs, the last one first. -/
  runs : List WrittenRun
  /-- Whether the last call wrote cells. -/
  writing : Bool
  /-- The events that write no cells. -/
  events : List UiEvent

namespace Viewer

/-- The cells of a row from a column on. -/
def put (cells : ViewerCells) (grid row col : Int) (shown : List ShownCell) : ViewerCells :=
  fun g r c => if g = grid ∧ r = row ∧ col ≤ c ∧ c < col + shown.length then shown[(c - col).toNat]?
    else cells g r c

/-- Cells that begin where the last run ends belong to it. -/
def record (runs : List WrittenRun) (writing : Bool) (run : WrittenRun) : List WrittenRun :=
  match runs with
  | last :: earlier =>
    if writing ∧ last.grid = run.grid ∧ last.row = run.row ∧ last.stop = run.start then
      { last with stop := run.stop, wrap := run.wrap } :: earlier
    else run :: runs
  | [] => [run]

/-- A `grid_line` call. -/
def line (viewer : Viewer) (grid row col : Int) (tuples : List Object) (wrap : Object) :
    Viewer where
  cells := put viewer.cells grid row col (unroll none tuples)
  runs := record viewer.runs viewer.writing
    ⟨grid, row, col, col + (unroll none tuples).length, wrap⟩
  writing := true
  events := viewer.events

/-- The arguments of a `grid_line` call. -/
def lineParts : List Object → Option (Int × Int × Int × List Object × Object)
  | [.integer grid, .integer row, .integer col, .array tuples, wrap] =>
    some (grid, row, col, tuples, wrap)
  | _ => none

variable (effect : UiEvent → ViewerCells → ViewerCells)

/-- Takes one call. Events other than lines have some effect on the cells. -/
def take (viewer : Viewer) (event : UiEvent) : Viewer :=
  match if event.name = "grid_line" then lineParts event.args else none with
  | some (grid, row, col, tuples, wrap) => viewer.line grid row col tuples wrap
  | none =>
    { viewer with
      cells := effect event viewer.cells
      writing := false
      events := viewer.events ++ [event] }

/-- Takes the events of a batch, one call after another. -/
def receive (viewer : Viewer) (batch : RedrawBatch) : Viewer :=
  batch.foldl (fun viewer event => event.argsets.foldl (fun viewer args =>
    viewer.take effect ⟨event.name, args⟩) viewer) viewer

theorem receive_eq (viewer : Viewer) (batch : RedrawBatch) :
    viewer.receive effect batch = batch.calls.foldl (take effect) viewer := by
  rw [receive, RedrawBatch.calls, List.foldl_flatMap]
  simp only [List.foldl_map]

end Viewer

/-! ## Fused lines -/

/-- No tuple takes cells back, and the first one carries its highlight. -/
def Spelled (tuples : List Object) : Prop :=
  (∀ tuple ∈ tuples, 0 ≤ cellCount tuple) ∧ ∀ tuple ∈ tuples.head?, (cellAttr tuple).isSome

variable {tuples tuples' : List Object}

theorem Spelled.append (h : Spelled tuples) (h' : Spelled tuples') :
    Spelled (tuples ++ tuples') := by
  refine ⟨fun tuple htuple => ?_, ?_⟩
  · rcases List.mem_append.mp htuple with htuple | htuple
    · exact h.1 tuple htuple
    · exact h'.1 tuple htuple
  · cases tuples with
    | nil => exact h'.2
    | cons first _ => exact h.2

/-- A first tuple with a highlight does not show the one before it. -/
theorem unroll_attr (attr : Option Int) (h : ∀ tuple ∈ tuples.head?, (cellAttr tuple).isSome) :
    unroll attr tuples = unroll none tuples := by
  cases tuples with
  | nil => rfl
  | cons first tuples =>
    obtain ⟨a, ha⟩ := Option.isSome_iff_exists.mp (h first rfl)
    rw [unroll, unroll, ha]
    rfl

theorem unroll_append (attr : Option Int) (h : ∀ tuple ∈ tuples'.head?, (cellAttr tuple).isSome) :
    unroll attr (tuples ++ tuples') = unroll attr tuples ++ unroll none tuples' := by
  induction tuples generalizing attr with
  | nil => exact unroll_attr attr h
  | cons first tuples ih =>
    show List.replicate _ _ ++ unroll _ (tuples ++ tuples') = _
    rw [ih, unroll, List.append_assoc]

theorem length_unroll (attr : Option Int) (h : ∀ tuple ∈ tuples, 0 ≤ cellCount tuple) :
    ((unroll attr tuples).length : Int) = (tuples.map cellCount).sum := by
  induction tuples generalizing attr with
  | nil => rfl
  | cons first tuples ih =>
    have hfirst := h first (List.mem_cons_self ..)
    have hrest := ih ((cellAttr first).or attr) fun tuple htuple =>
      h tuple (List.mem_cons_of_mem _ htuple)
    rw [unroll, List.length_append, List.length_replicate, List.map_cons, List.sum_cons, ← hrest]
    omega

namespace Viewer

variable {effect : UiEvent → ViewerCells → ViewerCells}

theorem put_append (cells : ViewerCells) (grid row col : Int)
    (shown shown' : List ShownCell) :
    put (put cells grid row col shown) grid row (col + shown.length) shown'
      = put cells grid row col (shown ++ shown') := by
  funext g r c
  simp only [put, List.length_append, List.getElem?_append]
  grind

/-- A run that was just written goes on. -/
theorem record_record (runs : List WrittenRun) (writing : Bool) (grid row start middle stop : Int)
    (wrap wrap' : Object) :
    record (record runs writing ⟨grid, row, start, middle, wrap⟩) true
        ⟨grid, row, middle, stop, wrap'⟩
      = record runs writing ⟨grid, row, start, stop, wrap'⟩ := by
  cases runs with
  | nil => exact if_pos ⟨rfl, rfl, rfl, rfl⟩
  | cons last earlier =>
    by_cases hjoin : writing ∧ last.grid = grid ∧ last.row = row ∧ last.stop = start
    · rw [record, if_pos hjoin, record, if_pos ⟨rfl, hjoin.2.1, hjoin.2.2.1, rfl⟩, record,
        if_pos hjoin]
    · rw [record, if_neg hjoin, record, if_pos ⟨rfl, rfl, rfl, rfl⟩, record, if_neg hjoin]

theorem line_line (viewer : Viewer) (grid row col : Int) (wrap wrap' : Object)
    (h : ∀ tuple ∈ tuples'.head?, (cellAttr tuple).isSome) :
    (viewer.line grid row col tuples wrap).line grid row (col + (unroll none tuples).length) tuples'
        wrap'
      = viewer.line grid row col (tuples ++ tuples') wrap' := by
  simp only [line, unroll_append none h, List.length_append, put_append, record_record]
  rw [Nat.cast_add, add_assoc]

theorem take_line (viewer : Viewer) (grid row col : Int) (tuples : List Object) (wrap : Object) :
    viewer.take effect
        ⟨"grid_line", [.integer grid, .integer row, .integer col, .array tuples, wrap]⟩
      = viewer.line grid row col tuples wrap := rfl

end Viewer

/-- A line whose tuples can be fused. -/
def UiEvent.Sent (event : UiEvent) : Prop :=
  event.name = "grid_line" → ∀ grid row col tuples wrap,
    Viewer.lineParts event.args = some (grid, row, col, tuples, wrap) → Spelled tuples

theorem lineParts_of_canFuse {prev : List Object} {grid row startcol : Int}
    (h : canFuse prev grid row startcol = true) :
    ∃ col tuples wrap, prev = [.integer grid, .integer row, .integer col, .array tuples, wrap] ∧
      startcol = col + (tuples.map cellCount).sum := by
  unfold canFuse at h
  split at h
  · next prevGrid prevRow prevStart cells wrap =>
    rw [decide_eq_true_eq] at h
    obtain ⟨rfl, rfl, hend⟩ := h
    obtain ⟨covered, hcovered, hstop⟩ := Option.bind_eq_some_iff.mp hend
    rw [checkedAddI64, Option.ite_none_right_eq_some] at hstop
    have hsum := sum_of_foldlM hcovered
    refine ⟨prevStart, cells, wrap, rfl, ?_⟩
    rw [← Option.some.inj hstop.2, hsum, zero_add]
  · cases h

/-- What a fused call does is what the two calls do. -/
theorem take_extend (viewer : Viewer) (effect : UiEvent → ViewerCells → ViewerCells)
    {prev : List Object} {grid row startcol : Int} (hfuse : canFuse prev grid row startcol = true)
    (hprev : UiEvent.Sent ⟨"grid_line", prev⟩) (hcells : Spelled tuples) (wrap : Bool) :
    UiEvent.Sent ⟨"grid_line", RedrawBatch.extend prev tuples wrap⟩ ∧
    viewer.take effect ⟨"grid_line", RedrawBatch.extend prev tuples wrap⟩
      = (viewer.take effect ⟨"grid_line", prev⟩).take effect ⟨"grid_line",
          [.integer grid, .integer row, .integer startcol, .array tuples, .boolean wrap]⟩ := by
  obtain ⟨col, before, prevWrap, rfl, rfl⟩ := lineParts_of_canFuse hfuse
  have hbefore : Spelled before := hprev rfl _ _ _ _ _ rfl
  constructor
  · intro _ grid' row' col' tuples' wrap' hparts
    cases hparts
    exact hbefore.append hcells
  · rw [Viewer.take_line, Viewer.take_line, ← length_unroll none hbefore.1,
      Viewer.line_line viewer grid row col prevWrap (.boolean wrap) hcells.2]
    rfl

/-! ## The batch and its calls -/

/-- A call that adds to a batch. -/
inductive BatchCall where
  | push (name : String) (args : List Object)
  | gridLine (grid row startcol : Int) (cells : List Object) (wrap : Bool)

namespace BatchCall

def run : BatchCall → RedrawBatch → RedrawBatch
  | push name args, batch => batch.push name args
  | gridLine grid row startcol cells wrap, batch => batch.gridLine grid row startcol cells wrap

/-- The event of the call on its own. -/
def event : BatchCall → UiEvent
  | push name args => ⟨name, args⟩
  | gridLine grid row startcol cells wrap =>
    ⟨"grid_line", [.integer grid, .integer row, .integer startcol, .array cells, .boolean wrap]⟩

end BatchCall

variable (effect : UiEvent → ViewerCells → ViewerCells)

/-- A call is either a call more of the batch or fused with the last one, with the same effect. -/
theorem run_calls {batch : RedrawBatch} (hbatch : ∀ event ∈ batch.calls, event.Sent)
    (call : BatchCall) (hcall : call.event.Sent) (viewer : Viewer) :
    (∀ event ∈ (call.run batch).calls, event.Sent) ∧
    (call.run batch).calls.foldl (Viewer.take effect) viewer
      = (batch.calls.foldl (Viewer.take effect) viewer).take effect call.event := by
  have hpush : (∀ event ∈ (batch.push call.event.name call.event.args).calls, event.Sent) ∧
      (batch.push call.event.name call.event.args).calls.foldl (Viewer.take effect) viewer
        = (batch.calls.foldl (Viewer.take effect) viewer).take effect call.event := by
    rw [RedrawBatch.calls_push, List.foldl_append]
    refine ⟨fun event hevent => ?_, rfl⟩
    rcases List.mem_append.mp hevent with hevent | hevent
    · exact hbatch event hevent
    · rw [List.mem_singleton.mp hevent]
      exact hcall
  cases call with
  | push name args => exact hpush
  | gridLine grid row startcol cells wrap =>
    show (∀ event ∈ (batch.gridLine grid row startcol cells wrap).calls, event.Sent) ∧ _
    rw [BatchCall.run, RedrawBatch.gridLine]
    cases hfused : batch.fused grid row startcol cells wrap with
    | none => exact hpush
    | some result =>
      obtain ⟨before, prev, hcalls, hfuse, hresult⟩ := RedrawBatch.calls_fused hfused
      rw [hcalls] at hbatch
      have hprev := hbatch _ (List.mem_append_right _ (List.mem_singleton_self _))
      obtain ⟨hsent, htake⟩ := take_extend (before.foldl (Viewer.take effect) viewer) effect hfuse
        hprev (hcall rfl _ _ _ _ _ rfl) wrap
      rw [Option.getD_some, hresult, hcalls, List.foldl_append, List.foldl_append]
      refine ⟨fun event hevent => ?_, htake⟩
      rcases List.mem_append.mp hevent with hevent | hevent
      · exact hbatch event (List.mem_append_left _ hevent)
      · rw [List.mem_singleton.mp hevent]
        exact hsent

theorem run_calls_all (calls : List BatchCall) (hcalls : ∀ call ∈ calls, call.event.Sent)
    {batch : RedrawBatch} (hbatch : ∀ event ∈ batch.calls, event.Sent) (viewer : Viewer) :
    (calls.foldl (fun batch call => call.run batch) batch).calls.foldl (Viewer.take effect) viewer
      = (calls.map BatchCall.event).foldl (Viewer.take effect)
          (batch.calls.foldl (Viewer.take effect) viewer) := by
  induction calls generalizing batch with
  | nil => rfl
  | cons call calls ih =>
    obtain ⟨hsent, htake⟩ :=
      run_calls effect hbatch call (hcalls call (List.mem_cons_self ..)) viewer
    rw [List.foldl_cons, ih (fun c hc => hcalls c (List.mem_cons_of_mem _ hc)) hsent, htake]
    rfl

/-- The events of a batch add up to what its calls add up to, one by one. -/
theorem viewer_collected (calls : List BatchCall) (hcalls : ∀ call ∈ calls, call.event.Sent)
    (viewer : Viewer) :
    viewer.receive effect (calls.foldl (fun batch call => call.run batch) [])
      = (calls.map BatchCall.event).foldl (Viewer.take effect) viewer := by
  have hempty : ∀ event ∈ RedrawBatch.calls [], event.Sent := fun _ hevent => by cases hevent
  rw [Viewer.receive_eq, run_calls_all effect calls hcalls hempty]
  rfl

/-- Two letters that are fused. -/
theorem viewer_collected_letters :
    let a := Object.array [.string [97], .integer 0]
    let b := Object.array [.string [98], .integer 7, .integer 2]
    let calls := [BatchCall.gridLine 1 3 0 [a] false, .gridLine 1 3 1 [b] true]
    let viewer : Viewer := ⟨fun _ _ _ => none, [], false, []⟩
    viewer.receive (fun _ cells => cells) (calls.foldl (fun batch call => call.run batch) [])
      = (calls.map BatchCall.event).foldl (Viewer.take fun _ cells => cells) viewer := by
  intro a b calls viewer
  apply viewer_collected
  intro call hcall
  have hsent : ∀ grid row col tuple wrap, 0 ≤ cellCount tuple → (cellAttr tuple).isSome →
      (BatchCall.gridLine grid row col [tuple] wrap).event.Sent := by
    intro grid row col tuple wrap hcount hattr _ _ _ _ _ _ hparts
    cases hparts
    refine ⟨fun t ht => ?_, fun t ht => ?_⟩
    · rw [List.mem_singleton.mp ht]
      exact hcount
    · rw [← Option.some.inj ht]
      exact hattr
  rcases List.mem_cons.mp hcall with rfl | hcall
  · exact hsent 1 3 0 a false (by decide) rfl
  · rw [List.mem_singleton.mp hcall]
    exact hsent 1 3 1 b true (by decide) rfl

end Oxvim.Ui
