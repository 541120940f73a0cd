import Oxvim.Ui.Channel

/-!
# Lines say what they are sent for

The tuples of a span stand for its cells, whatever highlight was read before; a call that was fused
into the one before has the effect of the two; and the calls of a batch act one after another.
-/

namespace Oxvim.Ui

open Lib EState

def Cell.shown (cell : Cell) : Shown :=
  (cell.text, cell.hlId.toNat)

/-- Highlight ids that can be sent. -/
def Fits (cells : List Cell) : Prop :=
  ∀ cell ∈ cells, cell.hlId.toNat < 2 ^ 63

/-! ## Tuples -/

theorem clampI64_of_lt {n : Nat} (h : n < 2 ^ 63) : clampI64 n = n :=
  if_pos h

/-- Equal cells in front of a list. -/
theorem cons_eq_replicate_append (cell : Cell) (rest : List Cell) :
    cell :: rest = List.replicate (1 + (rest.takeWhile (· = cell)).length) cell
      ++ rest.dropWhile (· = cell) := by
  have hrun : rest.takeWhile (· = cell)
      = List.replicate (rest.takeWhile (· = cell)).length cell := by
    rw [List.eq_replicate_iff]
    refine ⟨rfl, ?_⟩
    intro c hc
    exact of_decide_eq_true (List.mem_takeWhile_imp (p := fun c => decide (c = cell)) hc)
  rw [Nat.add_comm, List.replicate_succ, List.cons_append, ← hrun, List.takeWhile_append_dropWhile]

theorem spread_encodeFrom {cells : List Cell} (hfits : Fits cells) (hlength : cells.length < 2 ^ 63)
    {previousHl : Option UInt64} {hl : Int}
    (hprevious : ∀ id, previousHl = some id → hl = id.toNat) :
    spread hl (encodeFrom previousHl cells) = cells.map Cell.shown := by
  induction previousHl, cells using encodeFrom.induct generalizing hl with
  | case1 previousHl => rw [encodeFrom, spread, List.map_nil]
  | case2 previousHl cell rest ih =>
    have hcell := hfits cell (List.mem_cons_self ..)
    have hrun : (rest.takeWhile (· = cell)).length ≤ rest.length :=
      (List.takeWhile_prefix _).length_le
    have hdrop : (rest.dropWhile (· = cell)).length ≤ rest.length :=
      (List.dropWhile_suffix _).length_le
    rw [List.length_cons] at hlength
    have hrest : spread (cell.hlId.toNat : Int) (encodeFrom (some cell.hlId)
        (rest.dropWhile (· = cell))) = (rest.dropWhile (· = cell)).map Cell.shown := by
      apply ih
      · intro c hc
        exact hfits c (List.mem_cons_of_mem _ ((List.dropWhile_suffix _).subset hc))
      · omega
      · intro id hid
        rw [← Option.some.inj hid]
    have hshown : (cell :: rest).map Cell.shown
        = List.replicate (1 + (rest.takeWhile (· = cell)).length) cell.shown
          ++ (rest.dropWhile (· = cell)).map Cell.shown := by
      rw [cons_eq_replicate_append cell rest, List.map_append, List.map_replicate]
    rw [hshown, encodeFrom]
    -- a count of more than one is sent with its highlight
    by_cases hmany : 1 + (rest.takeWhile (· = cell)).length > 1
    · rw [if_pos (.inr hmany), if_pos hmany, clampI64_of_lt hcell, clampI64_of_lt (by omega)]
      simp only [List.cons_append, List.nil_append, spread, cellCount]
      rw [hrest]
      rfl
    · have hone : 1 + (rest.takeWhile (· = cell)).length = 1 := by omega
      rw [if_neg hmany, hone]
      by_cases hsame : previousHl = some cell.hlId
      · rw [if_neg (by simp [hsame])]
        simp only [List.cons_append, List.nil_append, spread, cellCount]
        rw [hprevious _ hsame, hrest]
        rfl
      · rw [if_pos (.inl hsame), clampI64_of_lt hcell]
        simp only [List.cons_append, List.nil_append, spread, cellCount]
        rw [hrest]
        rfl

theorem spread_encodeCells {cells : List Cell} (hfits : Fits cells)
    (hlength : cells.length < 2 ^ 63) (hl : Int) :
    spread hl (encodeCells cells) = cells.map Cell.shown :=
  spread_encodeFrom hfits hlength (by simp)

/-- Tuples as they are sent: a text, and a count that is not negative. -/
def Proper (tuples : List Object) : Prop :=
  ∀ tuple ∈ tuples, 0 ≤ cellCount tuple ∧ ∃ text rest, tuple = .array (.string text :: rest)

theorem clampI64_nonneg (n : Nat) : 0 ≤ clampI64 n := by
  unfold clampI64
  split <;> omega

theorem proper_encodeFrom (previousHl : Option UInt64) (cells : List Cell) :
    Proper (encodeFrom previousHl cells) := by
  induction previousHl, cells using encodeFrom.induct with
  | case1 previousHl => simp [encodeFrom, Proper]
  | case2 previousHl cell rest ih =>
    rw [encodeFrom]
    intro tuple htuple
    rcases List.mem_cons.mp htuple with rfl | htuple
    · refine ⟨?_, _, _, rfl⟩
      have hnonneg := clampI64_nonneg (1 + (rest.takeWhile (· = cell)).length)
      split <;> split <;> simp_all [cellCount]
    · exact ih tuple htuple

theorem spread_append (hl : Int) (tuples : List Object) {tuples' : List Object} {cells : List Shown}
    (h : ∀ hl, spread hl tuples' = cells) :
    spread hl (tuples ++ tuples') = spread hl tuples ++ cells := by
  induction tuples generalizing hl with
  | nil => exact h hl
  | cons tuple tuples ih =>
    rw [List.cons_append]
    cases tuple with
    | array parts =>
      cases parts with
      | nil => simp only [spread, ih]
      | cons part rest =>
        cases part with
        | string text => simp only [spread, ih, List.append_assoc]
        | _ => simp only [spread, ih]
    | _ => simp only [spread, ih]

/-- The counts add up to the number of cells. -/
theorem length_spread {tuples : List Object} (h : Proper tuples) (hl : Int) :
    ((spread hl tuples).length : Int) = (tuples.map cellCount).sum := by
  induction tuples generalizing hl with
  | nil => rfl
  | cons tuple tuples ih =>
    obtain ⟨hcount, text, rest, rfl⟩ := h tuple (List.mem_cons_self ..)
    have hrest := fun hl => ih (fun t ht => h t (List.mem_cons_of_mem _ ht)) hl
    simp only [spread, List.length_append, List.length_replicate, List.map_cons, List.sum_cons,
      Nat.cast_add, hrest]
    omega

theorem sum_of_foldlM {tuples : List Object} {start covered : Int}
    (h : tuples.foldlM (fun acc tuple => checkedAddI64 acc (cellCount tuple)) start
      = some covered) : covered = start + (tuples.map cellCount).sum := by
  induction tuples generalizing start with
  | nil =>
    cases h
    simp
  | cons tuple tuples ih =>
    rw [List.foldlM_cons, Option.bind_eq_bind, Option.bind_eq_some_iff] at h
    obtain ⟨next, hnext, hrest⟩ := h
    rw [checkedAddI64, Option.ite_none_right_eq_some] at hnext
    rw [ih hrest, ← Option.some.inj hnext.2, List.map_cons, List.sum_cons]
    omega

/-! ## Calls -/

/-- A `grid_line` call as it is sent. -/
inductive LineCall : List Object → Prop
  | mk (grid : Int) (row col : Nat) {cells : List Object} (wrap : Bool) : Proper cells →
    LineCall [.integer grid, .integer row, .integer col, .array cells, .boolean wrap]

theorem LineCall.extend {prev : List Object} (h : LineCall prev) {cells : List Object}
    (hproper : Proper cells) (wrap : Bool) : LineCall (RedrawBatch.extend prev cells wrap) := by
  obtain ⟨grid, row, col, prevWrap, hprev⟩ := h
  refine .mk grid row col wrap ?_
  intro tuple htuple
  exact (List.mem_append.mp htuple).elim (hprev tuple) (hproper tuple)

namespace Client

theorem call_gridLine (client : Client) (grid : Int) (row col : Nat) (cells : List Object)
    (wrap : Bool) :
    client.call "grid_line"
        [.integer grid, .integer row, .integer col, .array cells, .boolean wrap]
      = Function.update client grid ((client grid).write row col (spread 0 cells)) := by
  rw [call, if_neg (by decide), if_pos rfl]
  rfl

/-- A call of a flush changes nothing. -/
theorem call_flush (client : Client) (args : List Object) : client.call "flush" args = client := by
  unfold call
  rw [if_neg (by decide), if_neg (by decide)]

theorem receive_append (client : Client) (batch batch' : RedrawBatch) :
    client.receive (batch ++ batch') = (client.receive batch).receive batch' :=
  List.foldl_append

theorem receive_singleton (client : Client) (event : RedrawEvent) :
    client.receive [event] = event.argsets.foldl (fun client args =>
      client.call event.name args) client :=
  rfl

theorem receive_push (client : Client) (batch : RedrawBatch) (name : String) (args : List Object) :
    client.receive (batch.push name args) = (client.receive batch).call name args := by
  rw [RedrawBatch.push]
  cases hlast : batch.getLast? with
  | none => exact receive_append client batch _
  | some last =>
    dsimp only
    obtain ⟨init, rfl⟩ := List.getLast?_eq_some_iff.mp hlast
    split
    · next hname =>
      rw [List.dropLast_concat, receive_append, receive_append, receive_singleton,
        receive_singleton, List.foldl_append, ← hname]
      rfl
    · exact receive_append client _ _

/-- Cells that continue a call can be sent with it. -/
theorem call_extend (client : Client) {prev : List Object} (hprev : LineCall prev) {grid : Int}
    {row col : Nat} (hfuse : canFuse prev grid row col = true) {cells : List Object}
    {shown : List Shown} (hcells : ∀ hl, spread hl cells = shown) (wrap : Bool) :
    client.call "grid_line" (RedrawBatch.extend prev cells wrap)
      = (client.call "grid_line" prev).call "grid_line"
        [.integer grid, .integer row, .integer col, .array cells, .boolean wrap] := by
  obtain ⟨prevGrid, prevRow, prevCol, prevWrap, hproper⟩ := hprev
  next prevCells =>
  rw [canFuse, decide_eq_true_eq] at hfuse
  obtain ⟨rfl, hrow, hcovered⟩ := hfuse
  rw [Option.bind_eq_some_iff] at hcovered
  obtain ⟨covered, hfold, hadd⟩ := hcovered
  rw [checkedAddI64, Option.ite_none_right_eq_some] at hadd
  have hcount := length_spread hproper 0
  have hcol : prevCol + (spread 0 prevCells).length = col := by
    have hsum := sum_of_foldlM hfold
    have hend := Option.some.inj hadd.2
    omega
  obtain rfl : prevRow = row := Int.ofNat.inj hrow
  rw [RedrawBatch.extend, call_gridLine, call_gridLine, call_gridLine, Function.update_self,
    Function.update_idem, spread_append 0 prevCells hcells, Screen.write_append, hcol, hcells]

end Client

/-- A batch whose `grid_line` calls are all as they are sent. -/
def Sound (batch : RedrawBatch) : Prop :=
  ∀ event ∈ batch, event.name = "grid_line" → ∀ args ∈ event.argsets, LineCall args

namespace Sound

variable {batch : RedrawBatch}

theorem nil : Sound [] := by
  simp [Sound]

theorem concat (h : Sound batch) {event : RedrawEvent}
    (hevent : event.name = "grid_line" → ∀ args ∈ event.argsets, LineCall args) :
    Sound (batch ++ [event]) := by
  intro e he
  rcases List.mem_append.mp he with he | he
  · exact h e he
  · obtain rfl := List.mem_singleton.mp he
    exact hevent

theorem push (h : Sound batch) {name : String} {args : List Object}
    (hargs : name = "grid_line" → LineCall args) : Sound (batch.push name args) := by
  have hnew : name = "grid_line" → ∀ a ∈ [args], LineCall a := by
    intro hname a ha
    obtain rfl := List.mem_singleton.mp ha
    exact hargs hname
  rw [RedrawBatch.push]
  cases hlast : batch.getLast? with
  | none => exact h.concat hnew
  | some last =>
    dsimp only
    obtain ⟨init, rfl⟩ := List.getLast?_eq_some_iff.mp hlast
    have hinit : Sound init := fun e he => h e (List.mem_append_left _ he)
    split
    · next hname =>
      rw [List.dropLast_concat]
      apply hinit.concat
      intro hline a ha
      rcases List.mem_append.mp ha with ha | ha
      · exact h last (List.mem_append_right _ (List.mem_singleton_self _)) hline a ha
      · exact hnew (hname.symm.trans hline) a ha
    · exact h.concat hnew

/-- A line that is added to a batch, as a call of its own or as part of the last one. -/
theorem gridLine (h : Sound batch) (client : Client) (grid : Int) (row col : Nat)
    {cells : List Object} (hproper : Proper cells) {shown : List Shown}
    (hcells : ∀ hl, spread hl cells = shown) (wrap : Bool) :
    Sound (batch.gridLine grid row col cells wrap) ∧
      client.receive (batch.gridLine grid row col cells wrap)
        = Function.update (client.receive batch) grid
          (((client.receive batch) grid).write row col shown) := by
  rw [← hcells 0, ← Client.call_gridLine _ grid row col cells wrap, RedrawBatch.gridLine]
  cases hfused : batch.fused grid row col cells wrap with
  | none =>
    rw [Option.getD_none, Client.receive_push]
    exact ⟨h.push fun _ => .mk grid row col wrap hproper, rfl⟩
  | some fused =>
    simp only [RedrawBatch.fused, Option.bind_eq_bind, Option.bind_eq_some_iff,
      Option.guard_eq_some'] at hfused
    obtain ⟨last, hlast, _, hname, prev, hprev, _, hfuse, hresult⟩ := hfused
    obtain ⟨init, rfl⟩ := List.getLast?_eq_some_iff.mp hlast
    obtain ⟨sets, hsets⟩ := List.getLast?_eq_some_iff.mp hprev
    have hcalls := h last (List.mem_append_right _ (List.mem_singleton_self _)) hname
    have hline : LineCall prev := hcalls prev (by simp [hsets])
    obtain rfl := Option.some.inj hresult
    rw [Option.getD_some, List.dropLast_concat, hsets, List.dropLast_concat]
    constructor
    · refine concat (fun e he => h e (List.mem_append_left _ he)) ?_
      intro _ a ha
      rcases List.mem_append.mp ha with ha | ha
      · exact hcalls a (by simp [hsets, ha])
      · obtain rfl := List.mem_singleton.mp ha
        exact hline.extend hproper wrap
    · rw [Client.receive_append, Client.receive_append, Client.receive_singleton,
        Client.receive_singleton, hsets, List.foldl_append, List.foldl_append, hname]
      exact Client.call_extend _ hline hfuse hcells wrap

end Sound

end Oxvim.Ui
