import Oxvim.Editor.LayoutOps
import Oxvim.Lib.Transition

/-!
# Layouts over whole runs

A run starts with `Layout::new` and takes one operation after the other. Every layout that successful
operations lead to is sound, so its windows tile the root rectangle and are numbered in preorder.

Containers of one orientation are not nested as long as no close strands a container: the collapse
does not merge a stranded container into the one it comes up in.
-/

namespace Oxvim.Editor

open Lib EState

/-- The operations that change a layout. -/
inductive LayoutOp where
  | splitVertical (target window : WinHandle) (state : WindowState) (enter : Bool)
  | splitHorizontal (target window : WinHandle) (state : WindowState) (enter : Bool)
  | splitLeft (target window : WinHandle) (state : WindowState) (enter : Bool)
  | splitAbove (target window : WinHandle) (state : WindowState) (enter : Bool)
  | close (window : WinHandle)
  | resize (geometry : Geometry)
  | equalize
  | setWindowWidth (window : WinHandle) (width : Nat)
  | setWindowHeight (window : WinHandle) (height : Nat)
  | setCurrent (window : WinHandle)

namespace LayoutOp

def run : LayoutOp → EStateM LayoutError Layout Unit
  | splitVertical target window state enter => Layout.splitVertical target window state enter
  | splitHorizontal target window state enter => Layout.splitHorizontal target window state enter
  | splitLeft target window state enter => Layout.splitLeft target window state enter
  | splitAbove target window state enter => Layout.splitAbove target window state enter
  | close window => do
    let _ ← Layout.close window
    return
  | resize geometry => Layout.resize geometry
  | equalize => Layout.equalize
  | setWindowWidth window width => Layout.setWindowWidth window width
  | setWindowHeight window height => Layout.setWindowHeight window height
  | setCurrent window => Layout.setCurrent window

/-- The splits, by axis and placement. -/
def split? : LayoutOp →
    Option (WinHandle × WinHandle × WindowState × SplitAxis × SplitPlacement × Bool)
  | splitVertical target window state enter =>
    some (target, window, state, .vertical, .after, enter)
  | splitHorizontal target window state enter =>
    some (target, window, state, .horizontal, .after, enter)
  | splitLeft target window state enter => some (target, window, state, .vertical, .before, enter)
  | splitAbove target window state enter => some (target, window, state, .horizontal, .before, enter)
  | _ => none

theorem run_of_split? {op : LayoutOp} {target window : WinHandle} {state : WindowState}
    {axis : SplitAxis} {placement : SplitPlacement} {enter : Bool}
    (h : op.split? = some (target, window, state, axis, placement, enter)) :
    op.run = Layout.splitPlaced target window state axis placement enter := by
  cases op with
  | splitVertical => cases h; rfl
  | splitHorizontal => cases h; rfl
  | splitLeft => cases h; rfl
  | splitAbove => cases h; rfl
  | close => cases h
  | resize => cases h
  | equalize => cases h
  | setWindowWidth => cases h
  | setWindowHeight => cases h
  | setCurrent => cases h

/-- The operation is a split that passes its checks and then finds no room. -/
def Cramped (op : LayoutOp) (s : Layout) : Prop :=
  ∃ target window state axis placement enter,
    op.split? = some (target, window, state, axis, placement, enter) ∧ s.Cramped target window axis

/-- The operations that rewrite the tree. -/
def SplitsOrCloses (op : LayoutOp) : Prop :=
  op.split?.isSome ∨ ∃ w, op = .close w

/-- The operation closes a window that is alone with a container in a container with a parent. -/
def StrandsContainer (op : LayoutOp) (s : Layout) : Prop :=
  ∃ w, op = .close w ∧ ¬s.root.Unstranded (s.resolve w)

end LayoutOp

namespace Layout

variable {s t : Layout}

open Oxvim.Editor.Frame (Tiles)

/-- How an operation ends on a sound layout. -/
theorem run_spec (hs : s.Sound) (op : LayoutOp) :
    (¬op.Cramped s ∧ ((∃ error, op.run s = .error error s) ∨ ∃ t, op.run s = .ok () t ∧ t.Sound)) ∨
      op.Cramped s ∧ ∃ error root, op.run s = .error error { s with root } ∧
        root.collectWindows.length = s.windows.length + 1 := by
  cases hsplit : op.split? with
  | some r =>
    obtain ⟨target, window, state, axis, placement, enter⟩ := r
    have hrun := op.run_of_split? hsplit
    have hcramped : op.Cramped s ↔ s.Cramped target window axis := by
      constructor
      · rintro ⟨target', window', state', axis', placement', enter', hsame, hc⟩
        rw [hsplit] at hsame
        cases hsame
        exact hc
      · intro hc
        exact ⟨_, _, _, _, _, _, hsplit, hc⟩
    rw [hcramped, hrun]
    by_cases hc : s.Cramped target window axis
    · obtain ⟨error, root, hfail, hperm⟩ := splitPlaced_cramped
        placement state enter hc
      exact .inr ⟨hc, error, root, hfail, hperm.length_eq⟩
    · refine .inl ⟨hc, ?_⟩
      by_cases hready : s.Splittable target window axis
      · have hroom : Frame.RoomToSplit (s.resolve target) axis s.root s.root.geometry.extent := by
          by_contra hno
          exact hc ⟨hready, hno⟩
        obtain ⟨new, root, -, -, hok, hsound⟩ := splitPlaced_room
          placement state enter hs hready hroom
        exact .inr ⟨_, hok, hsound⟩
      · exact .inl (splitPlaced_refused placement state enter hready)
  | none =>
    refine .inl ⟨?_, ?_⟩
    · rintro ⟨target, window, state, axis, placement, enter, hsame, -⟩
      rw [hsplit] at hsame
      cases hsame
    · cases op with
      | splitVertical => cases hsplit
      | splitHorizontal => cases hsplit
      | splitLeft => cases hsplit
      | splitAbove => cases hsplit
      | close w =>
        rcases close_spec hs w with ⟨-, error, hrun⟩ | ⟨l, root, replacement, -, -, -, hrun, hsound⟩
        · exact .inl ⟨error, bind_error hrun⟩
        · exact .inr ⟨_, bind_ok hrun, hsound⟩
      | resize geometry =>
        rcases resize_spec (g := geometry) hs with hrun | ⟨t, hrun, hsound, -⟩
        · exact .inl hrun
        · exact .inr ⟨t, hrun, hsound⟩
      | equalize =>
        obtain ⟨t, hrun, hsound, -⟩ := equalize_spec hs
        exact .inr ⟨t, hrun, hsound⟩
      | setWindowWidth w width =>
        rcases setWindowExtent_spec hs w width .vertical with hrun | ⟨t, hrun, hsound, -⟩
        · exact .inl hrun
        · exact .inr ⟨t, hrun, hsound⟩
      | setWindowHeight w height =>
        rcases setWindowExtent_spec hs w height .horizontal with hrun | ⟨t, hrun, hsound, -⟩
        · exact .inl hrun
        · exact .inr ⟨t, hrun, hsound⟩
      | setCurrent w =>
        rcases setCurrent_spec (w := w) hs with ⟨-, hrun⟩ | ⟨-, hrun, hsound⟩
        · exact .inl hrun
        · exact .inr ⟨_, hrun, hsound⟩

/-- A successful operation leads from a sound layout to a sound one. -/
theorem Sound.step (hs : s.Sound) {op : LayoutOp} (h : op.run s = .ok () t) : t.Sound := by
  rcases run_spec hs op with ⟨-, ⟨error, hrun⟩ | ⟨t', hrun, hsound⟩⟩ | ⟨-, error, root, hrun, -⟩
  · rw [hrun] at h
    cases h
  · rw [hrun] at h
    cases h
    exact hsound
  · rw [hrun] at h
    cases h

/-! ## Runs -/

/-- The layouts that `Layout::new` makes. -/
def Starts (s : Layout) : Prop :=
  ∃ window state geometry, Layout.new window state geometry = .ok s

/-- A successful operation that is allowed in the layout it is called on. -/
def Succeeds (allowed : LayoutOp → Layout → Prop) (s t : Layout) : Prop :=
  ∃ op : LayoutOp, allowed op s ∧ op.run s = .ok () t

theorem sound_of_reachable {allowed : LayoutOp → Layout → Prop}
    (h : Reachable Starts (Succeeds allowed) s) : s.Sound := by
  refine h.invariant ?_ ?_
  · rintro s ⟨window, state, geometry, hnew⟩
    exact new_sound hnew
  · rintro s t hs ⟨op, -, hrun⟩
    exact hs.step hrun

/-! ## Numbers -/

theorem winnr_eq_ok (hs : s.Sound) {w : WinHandle} (hw : w ∈ s.windows) {n : Nat} :
    s.winnr w = .ok n ↔ 1 ≤ n ∧ s.windows[n - 1]? = some w := by
  have hnumber := (Frame.preorderNumber_eq w s.root 1).1
  rw [winnr, hs.resolve_eq hw, hnumber]
  cases hidx : s.root.collectWindows.findIdx? (· = w) with
  | none =>
    have := List.findIdx?_eq_none_iff.mp hidx w hw
    simp at this
  | some i =>
    obtain ⟨hlt, hat, -⟩ := List.findIdx?_eq_some_iff_getElem.mp hidx
    rw [decide_eq_true_eq] at hat
    dsimp only [Option.map_some]
    rw [Except.ok.injEq]
    constructor
    · rintro rfl
      refine ⟨Nat.le_add_right 1 i, ?_⟩
      rw [Nat.add_sub_cancel_left, windows, List.getElem?_eq_getElem hlt, hat]
    · rintro ⟨hpos, hget⟩
      obtain ⟨hlt', hat'⟩ := List.getElem?_eq_some_iff.mp hget
      have hsame : i = n - 1 := hs.nodup.getElem_inj_iff.mp (hat.trans hat'.symm)
      omega

theorem windowByWinnr_eq_ok {w : WinHandle} {n : Nat} :
    s.windowByWinnr n = .ok w ↔ 1 ≤ n ∧ s.windows[n - 1]? = some w := by
  rw [windowByWinnr]
  by_cases hzero : n = 0
  · rw [if_pos hzero]
    constructor
    · intro h
      cases h
    · rintro ⟨hpos, -⟩
      omega
  · have hpos : 1 ≤ n := Nat.one_le_iff_ne_zero.mpr hzero
    rw [if_neg hzero, (Frame.preorderWindow_eq n s.root 1 hpos).1, and_iff_right hpos, windows]
    cases s.root.collectWindows[n - 1]? with
    | none => simp
    | some w' => simp

theorem windowCount_eq_length : s.windowCount = s.windows.length := by
  rw [windowCount, windows, Frame.windowCount_eq, Frame.collectWindows_eq, List.length_map]

/-! ## Tiling -/

/-- The windows tile the root rectangle, containers divide their rectangles among two or more
children, and the handles are distinct and numbered. -/
structure Tiled (s : Layout) : Prop where
  cell : ∀ l ∈ s.root.leaves, 1 ≤ l.geometry.width ∧ 1 ≤ l.geometry.height
  tiles : Tiles (s.root.leaves.map (·.geometry)) s.root.geometry.cells
  containers : s.root.Every fun axis geometry children => 2 ≤ children.length ∧
    (children.map (·.geometry.extent axis)).sum = geometry.extent axis ∧
    ∀ child ∈ children, ∀ across ≠ axis, child.geometry.extent across = geometry.extent across
  nodup : s.windows.Nodup
  current : ∃ l ∈ s.root.leaves, l.window = s.current
  number : ∀ w ∈ s.windows, ∃ n, 1 ≤ n ∧ n ≤ s.windowCount ∧ s.winnr w = .ok n ∧
    s.windowByWinnr n = .ok w
  window : ∀ n, 1 ≤ n → n ≤ s.windowCount → ∃ w ∈ s.windows, s.windowByWinnr n = .ok w ∧
    s.winnr w = .ok n

/-- **In every layout that successful operations lead to, the windows tile the root rectangle.** -/
theorem tiled_of_reachable (h : Reachable Starts (Succeeds fun _ _ => True) s) : s.Tiled := by
  have hs := sound_of_reachable h
  refine ⟨?_, hs.laid.tiles, ?_, hs.nodup, ?_, ?_, ?_⟩
  · intro l hl
    have hvalid := hs.laid.valid hs.valid l hl
    exact ⟨hvalid.cell .vertical, hvalid.cell .horizontal⟩
  · apply (hs.populated.and hs.laid).imp
    rintro axis geometry children ⟨htwo, hstacks⟩
    have hsum := hstacks.sum
    rw [Nat.zero_add] at hsum
    exact ⟨htwo, hsum, hstacks.across⟩
  · have hcurrent := hs.current
    rwa [windows, Frame.collectWindows_eq, List.mem_map] at hcurrent
  · intro w hw
    obtain ⟨i, hlt, rfl⟩ := List.mem_iff_getElem.mp hw
    have hget : s.windows[i + 1 - 1]? = some s.windows[i] := by
      rw [Nat.add_sub_cancel, List.getElem?_eq_getElem hlt]
    refine ⟨i + 1, Nat.le_add_left 1 i, ?_, (winnr_eq_ok hs hw).mpr ⟨Nat.le_add_left 1 i, hget⟩,
      windowByWinnr_eq_ok.mpr ⟨Nat.le_add_left 1 i, hget⟩⟩
    rw [windowCount_eq_length]
    exact hlt
  · intro n hpos hle
    rw [windowCount_eq_length] at hle
    have hlt : n - 1 < s.windows.length := by omega
    have hget := List.getElem?_eq_getElem hlt
    have hw := List.getElem_mem hlt
    exact ⟨_, hw, windowByWinnr_eq_ok.mpr ⟨hpos, hget⟩, (winnr_eq_ok hs hw).mpr ⟨hpos, hget⟩⟩

/-- Two windows side by side, the right one in two cells. -/
theorem tiled_two_windows : Tiled
    { root := .row ⟨0, 0, 5, 3⟩
        [.leaf ⟨1, ⟨7, ⟨0, 0⟩, 0⟩, ⟨0, 0, 3, 3⟩⟩, .leaf ⟨2, ⟨7, ⟨0, 0⟩, 0⟩, ⟨0, 3, 2, 3⟩⟩],
      current := 2 } := by
  refine tiled_of_reachable (.step (.init ⟨1, ⟨7, ⟨0, 0⟩, 0⟩, ⟨0, 0, 5, 3⟩, rfl⟩) ?_)
  exact ⟨.splitVertical 0 2 ⟨7, ⟨0, 0⟩, 0⟩ true, trivial, rfl⟩

/-! ## Alternation -/

/-- **As long as no close strands a container, containers alternate, and siblings differ by at most
one cell.** -/
theorem alternates_of_reachable
    (h : Reachable Starts (Succeeds fun op s => op.SplitsOrCloses ∧ ¬op.StrandsContainer s) s) :
    s.root.Alternates ∧ s.root.Even := by
  suffices hall : s.Sound ∧ s.root.Alternates ∧ s.root.Even from hall.2
  refine h.invariant (I := fun s => s.Sound ∧ s.root.Alternates ∧ s.root.Even) ?_ ?_
  · rintro s ⟨window, state, geometry, hnew⟩
    refine ⟨new_sound hnew, ?_⟩
    obtain ⟨-, -, rfl⟩ := new_eq hnew
    exact ⟨.leaf _, .leaf _⟩
  · rintro s t ⟨hs, halt, -⟩ ⟨op, ⟨hop, hfree⟩, hrun⟩
    refine ⟨hs.step hrun, ?_⟩
    cases hsplit : op.split? with
    | some r =>
      obtain ⟨target, window, state, axis, placement, enter⟩ := r
      rw [op.run_of_split? hsplit] at hrun
      by_cases hready : s.Splittable target window axis
      · by_cases hroom : Frame.RoomToSplit (s.resolve target) axis s.root s.root.geometry.extent
        · obtain ⟨new, root, -, hgraft, hok, -⟩ := splitPlaced_room
            placement state enter hs hready hroom
          rw [hok] at hrun
          cases hrun
          exact ⟨Frame.alternates_of_blank (Frame.blank_assignFrameGeometry _ _).symm
            (hgraft.alternates halt), Frame.assignFrameGeometry_even _ _⟩
        · obtain ⟨error, root, hfail, -⟩ := splitPlaced_cramped
            placement state enter ⟨hready, hroom⟩
          rw [hfail] at hrun
          cases hrun
      · obtain ⟨error, hfail⟩ := splitPlaced_refused
          placement state enter hready
        rw [hfail] at hrun
        cases hrun
    | none =>
      obtain ⟨w, rfl⟩ : ∃ w, op = .close w := by simpa [LayoutOp.SplitsOrCloses, hsplit] using hop
      rcases close_spec hs w with ⟨-, error, hfail⟩ | ⟨l, root, replacement, hl, hremoved, -, hok, -⟩
      · rw [LayoutOp.run, bind_error hfail] at hrun
        cases hrun
      · rw [LayoutOp.run, bind_ok hok] at hrun
        cases hrun
        have hunstranded : s.root.Unstranded l.window := by
          rw [hl]
          by_contra hno
          exact hfree ⟨w, rfl, hno⟩
        exact ⟨Frame.alternates_of_blank (Frame.blank_assignFrameGeometry _ _).symm
          (hremoved.alternates hs.populated halt hunstranded).1, Frame.assignFrameGeometry_even _ _⟩

/-- Three windows in a row; the one in the middle closes. -/
theorem alternates_after_close : Frame.Alternates
      (.row ⟨0, 0, 7, 2⟩
        [.leaf ⟨1, ⟨7, ⟨0, 0⟩, 0⟩, ⟨0, 0, 4, 2⟩⟩, .leaf ⟨3, ⟨7, ⟨0, 0⟩, 0⟩, ⟨0, 4, 3, 2⟩⟩]) ∧
    Frame.Even
      (.row ⟨0, 0, 7, 2⟩
        [.leaf ⟨1, ⟨7, ⟨0, 0⟩, 0⟩, ⟨0, 0, 4, 2⟩⟩, .leaf ⟨3, ⟨7, ⟨0, 0⟩, 0⟩, ⟨0, 4, 3, 2⟩⟩]) := by
  have hclear : ∀ (op : LayoutOp) (s : Layout), (∀ w, op ≠ .close w) → ¬op.StrandsContainer s := by
    rintro op s hop ⟨w, rfl, -⟩
    exact hop w rfl
  have hone : Reachable Starts (Succeeds fun op s => op.SplitsOrCloses ∧ ¬op.StrandsContainer s) _ :=
    .init ⟨1, ⟨7, ⟨0, 0⟩, 0⟩, ⟨0, 0, 7, 2⟩, rfl⟩
  have htwo := hone.step
    ⟨.splitVertical 1 2 ⟨7, ⟨0, 0⟩, 0⟩ false, ⟨.inl rfl, hclear _ _ fun w => by simp⟩, rfl⟩
  have hthree := htwo.step
    ⟨.splitVertical 2 3 ⟨7, ⟨0, 0⟩, 0⟩ false, ⟨.inl rfl, hclear _ _ fun w => by simp⟩, rfl⟩
  refine alternates_of_reachable (s := ⟨_, 1⟩) (hthree.step ⟨.close 2, ⟨.inr ⟨2, rfl⟩, ?_⟩, rfl⟩)
  rintro ⟨w, -, hstranded⟩
  apply hstranded
  refine .container ?_ ?_
  · rintro child hchild ⟨own, geometry, l, inner, innerGeometry, children, -, hshape⟩
    fin_cases hchild
    · rcases hshape with h | h <;> cases h
    · rcases hshape with h | h <;> cases h
    · rcases hshape with h | h <;> cases h
  · intro child hchild
    fin_cases hchild
    · exact .leaf _
    · exact .leaf _
    · exact .leaf _

/-- A window beside a row in a row: four, two and two cells. -/
def nestedRows : Layout where
  root := .row ⟨0, 0, 8, 4⟩ [.leaf ⟨1, ⟨7, ⟨0, 0⟩, 0⟩, ⟨0, 0, 4, 4⟩⟩,
    .row ⟨0, 4, 4, 4⟩ [.leaf ⟨3, ⟨7, ⟨0, 0⟩, 0⟩, ⟨0, 4, 2, 4⟩⟩, .leaf ⟨4, ⟨7, ⟨0, 0⟩, 0⟩, ⟨0, 6, 2, 4⟩⟩]]
  current := 4

/-- A window beside a column of a window and a row. When the window in the column closes, the row comes
up into the outer row. -/
theorem close_nests_rows : Reachable Starts (Succeeds fun op _ => op.SplitsOrCloses) nestedRows ∧
    ¬nestedRows.root.Alternates := by
  constructor
  · have hstep : ∀ (s : Layout) (op : LayoutOp) (t : Layout),
        Reachable Starts (Succeeds fun op _ => op.SplitsOrCloses) s → op.SplitsOrCloses →
          op.run s = .ok () t → Reachable Starts (Succeeds fun op _ => op.SplitsOrCloses) t := by
      intro s op t h hop hrun
      exact h.step ⟨op, hop, hrun⟩
    have hone : Reachable Starts (Succeeds fun op _ => op.SplitsOrCloses)
        ⟨.leaf ⟨1, ⟨7, ⟨0, 0⟩, 0⟩, ⟨0, 0, 8, 4⟩⟩, 1⟩ :=
      .init ⟨1, ⟨7, ⟨0, 0⟩, 0⟩, ⟨0, 0, 8, 4⟩, rfl⟩
    have htwo := hstep _ (.splitVertical 0 2 ⟨7, ⟨0, 0⟩, 0⟩ true)
      ⟨.row ⟨0, 0, 8, 4⟩ [.leaf ⟨1, ⟨7, ⟨0, 0⟩, 0⟩, ⟨0, 0, 4, 4⟩⟩,
        .leaf ⟨2, ⟨7, ⟨0, 0⟩, 0⟩, ⟨0, 4, 4, 4⟩⟩], 2⟩ hone (.inl rfl) rfl
    have hthree := hstep _ (.splitHorizontal 0 3 ⟨7, ⟨0, 0⟩, 0⟩ true)
      ⟨.row ⟨0, 0, 8, 4⟩ [.leaf ⟨1, ⟨7, ⟨0, 0⟩, 0⟩, ⟨0, 0, 4, 4⟩⟩, .column ⟨0, 4, 4, 4⟩
        [.leaf ⟨2, ⟨7, ⟨0, 0⟩, 0⟩, ⟨0, 4, 4, 2⟩⟩, .leaf ⟨3, ⟨7, ⟨0, 0⟩, 0⟩, ⟨2, 4, 4, 2⟩⟩]], 3⟩
      htwo (.inl rfl) rfl
    have hfour := hstep _ (.splitVertical 0 4 ⟨7, ⟨0, 0⟩, 0⟩ true)
      ⟨.row ⟨0, 0, 8, 4⟩ [.leaf ⟨1, ⟨7, ⟨0, 0⟩, 0⟩, ⟨0, 0, 4, 4⟩⟩, .column ⟨0, 4, 4, 4⟩
        [.leaf ⟨2, ⟨7, ⟨0, 0⟩, 0⟩, ⟨0, 4, 4, 2⟩⟩, .row ⟨2, 4, 4, 2⟩
          [.leaf ⟨3, ⟨7, ⟨0, 0⟩, 0⟩, ⟨2, 4, 2, 2⟩⟩, .leaf ⟨4, ⟨7, ⟨0, 0⟩, 0⟩, ⟨2, 6, 2, 2⟩⟩]]], 4⟩
      hthree (.inl rfl) rfl
    exact hstep _ (.close 2) _ hfour (.inr ⟨2, rfl⟩) rfl
  · intro halt
    obtain ⟨hown, -⟩ := Frame.every_container.mp halt
    exact Bool.noConfusion (hown _ (List.mem_cons_of_mem _ List.mem_cons_self))

end Layout

end Oxvim.Editor
