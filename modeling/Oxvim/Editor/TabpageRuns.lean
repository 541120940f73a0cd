import Oxvim.Editor.TabpageOps
import Oxvim.Editor.LayoutRuns

/-!
# Tabpages over whole runs

In every tabpage that successful operations lead to, the bookkeeping of the windows is kept, and so the
geometry of every window is resolved without reaching a float relative to the cursor.

An operation that fails leaves the tabpage as it was, and the layout too, except for a cramped split.
-/

namespace Oxvim.Editor

open Lib EState

/-- The operations that change the windows of a tabpage. -/
inductive TabpageOp where
  | splitVertical (target window : WinHandle) (state : WindowState) (enter : Bool)
  | splitHorizontal (target window : WinHandle) (state : WindowState) (enter : Bool)
  | splitLeft (target window : WinHandle) (state : WindowState) (enter : Bool)
  | splitAbove (target window : WinHandle) (state : WindowState) (enter : Bool)
  | closeTiled (window : WinHandle)
  | addFloat (window : WinHandle) (state : WindowState) (config : WinConfig)
      (cursor : CursorScreenPosition)
  | removeFloat (window : WinHandle)
  | setWindowConfig (window : WinHandle) (config : WinConfig) (cursor : CursorScreenPosition)
  | setCurrent (window : WinHandle)
  | setWindowWidth (window : WinHandle) (width : Nat)
  | setWindowHeight (window : WinHandle) (height : Nat)
  | resize (geometry : Geometry)
  | equalize

namespace TabpageOp

def run : TabpageOp → EStateM LayoutError TabpageState Unit
  | splitVertical target window state enter => TabpageState.splitVertical target window state enter
  | splitHorizontal target window state enter => TabpageState.splitHorizontal target window state enter
  | splitLeft target window state enter => TabpageState.splitLeft target window state enter
  | splitAbove target window state enter => TabpageState.splitAbove target window state enter
  | closeTiled window => do
    let _ ← TabpageState.closeTiled window
    return
  | addFloat window state config cursor => TabpageState.addFloat window state config cursor
  | removeFloat window => do
    let _ ← TabpageState.removeFloat window
    return
  | setWindowConfig window config cursor => TabpageState.setWindowConfig window config cursor
  | setCurrent window => TabpageState.setCurrent window
  | setWindowWidth window width => TabpageState.setWindowWidth window width
  | setWindowHeight window height => TabpageState.setWindowHeight window height
  | resize geometry => TabpageState.resize geometry
  | equalize => TabpageState.equalize

/-- The splits, as the ones of the layout. -/
def split? : TabpageOp → Option LayoutOp
  | splitVertical target window state enter => some (.splitVertical target window state enter)
  | splitHorizontal target window state enter => some (.splitHorizontal target window state enter)
  | splitLeft target window state enter => some (.splitLeft target window state enter)
  | splitAbove target window state enter => some (.splitAbove target window state enter)
  | _ => none

/-- The operation is a split that passes its checks and then finds no room. -/
def Cramped (op : TabpageOp) (s : TabpageState) : Prop :=
  ∃ split target window state axis placement enter, op.split? = some split ∧
    split.split? = some (target, window, state, axis, placement, enter) ∧
    s.Cramped target window axis

end TabpageOp

namespace TabpageState

variable {s t : TabpageState}

theorem run_split (hs : s.Kept) {op : TabpageOp} {split : LayoutOp} {axis : SplitAxis}
    {placement : SplitPlacement} {target window : WinHandle} {state : WindowState} {enter : Bool}
    (hop : op.split? = some split)
    (hsplit : split.split? = some (target, window, state, axis, placement, enter))
    (hrun : op.run = splitWith (Layout.splitPlaced · · · axis placement ·) target window state enter) :
    (¬op.Cramped s ∧ ((∃ error, op.run s = .error error s) ∨ ∃ t, op.run s = .ok () t ∧ t.Kept)) ∨
      op.Cramped s ∧ ∃ error t, op.run s = .error error t ∧ t ≠ s := by
  have hcramped : op.Cramped s ↔ s.Cramped target window axis := by
    constructor
    · rintro ⟨split', target', window', state', axis', placement', enter', hop', hsplit', hc⟩
      rw [hop] at hop'
      cases hop'
      rw [hsplit] at hsplit'
      cases hsplit'
      exact hc
    · intro hc
      exact ⟨_, _, _, _, _, _, _, hop, hsplit, hc⟩
  rw [hcramped, hrun]
  rcases splitWith_spec hs axis placement target window state enter with
    ⟨hclear, hfail | ⟨t, hok, hkept, -⟩⟩ | ⟨hc, error, root, hfail, hperm⟩
  · exact .inl ⟨hclear, .inl hfail⟩
  · exact .inl ⟨hclear, .inr ⟨t, hok, hkept⟩⟩
  · refine .inr ⟨hc, error, _, hfail, ?_⟩
    intro hsame
    have hlength := hperm.length_eq
    have hroot : root = s.layout.root := congrArg (fun t : TabpageState => t.layout.root) hsame
    rw [hroot, List.length_cons, Layout.windows] at hlength
    omega

/-- How an operation ends on a kept tabpage. -/
theorem run_spec (hs : s.Kept) (op : TabpageOp) :
    (¬op.Cramped s ∧ ((∃ error, op.run s = .error error s) ∨ ∃ t, op.run s = .ok () t ∧ t.Kept)) ∨
      op.Cramped s ∧ ∃ error t, op.run s = .error error t ∧ t ≠ s := by
  have hclear : op.split? = none → ¬op.Cramped s := by
    rintro hnone ⟨split, -, -, -, -, -, -, hop, -⟩
    rw [hnone] at hop
    cases hop
  cases op with
  | splitVertical target window state enter => exact run_split hs rfl rfl rfl
  | splitHorizontal target window state enter => exact run_split hs rfl rfl rfl
  | splitLeft target window state enter => exact run_split hs rfl rfl rfl
  | splitAbove target window state enter => exact run_split hs rfl rfl rfl
  | closeTiled window =>
    refine .inl ⟨hclear rfl, ?_⟩
    rcases closeTiled_spec hs window with ⟨-, error, hrun⟩ | ⟨removed, t, hrun, hkept, -⟩
    · exact .inl ⟨error, bind_error hrun⟩
    · exact .inr ⟨t, bind_ok hrun, hkept⟩
  | addFloat window state config cursor =>
    refine .inl ⟨hclear rfl, ?_⟩
    rcases addFloat_spec hs window state config cursor with hfail | ⟨t, hrun, hkept, -⟩
    · exact .inl hfail
    · exact .inr ⟨t, hrun, hkept⟩
  | removeFloat window =>
    refine .inl ⟨hclear rfl, ?_⟩
    rcases removeFloat_spec hs window with ⟨-, error, hrun⟩ | ⟨removed, t, hrun, hkept, -⟩
    · exact .inl ⟨error, bind_error hrun⟩
    · exact .inr ⟨t, bind_ok hrun, hkept⟩
  | setWindowConfig window config cursor =>
    exact .inl ⟨hclear rfl, setWindowConfig_spec hs window config cursor⟩
  | setCurrent window =>
    refine .inl ⟨hclear rfl, ?_⟩
    rcases setCurrent_spec hs window with ⟨-, hfail⟩ | ⟨layout, -, hrun, hkept⟩
    · exact .inl hfail
    · exact .inr ⟨_, hrun, hkept⟩
  | setWindowWidth window width =>
    refine .inl ⟨hclear rfl, ?_⟩
    refine setWindowExtent_spec hs ({ · with width }) (Layout.setWindowWidth · width) window ?_ ?_ ?_
    · intro config
      rfl
    · intro config
      rfl
    intro w
    rcases Layout.setWindowExtent_spec hs.layout w width .vertical with
      hfail | ⟨t, hrun, hsound, hwindows, -⟩
    · exact .inl hfail
    · exact .inr ⟨t, hrun, hsound, hwindows⟩
  | setWindowHeight window height =>
    refine .inl ⟨hclear rfl, ?_⟩
    refine setWindowExtent_spec hs ({ · with height }) (Layout.setWindowHeight · height) window ?_ ?_ ?_
    · intro config
      rfl
    · intro config
      rfl
    intro w
    rcases Layout.setWindowExtent_spec hs.layout w height .horizontal with
      hfail | ⟨t, hrun, hsound, hwindows, -⟩
    · exact .inl hfail
    · exact .inr ⟨t, hrun, hsound, hwindows⟩
  | resize geometry => exact .inl ⟨hclear rfl, resize_spec hs geometry⟩
  | equalize => exact .inl ⟨hclear rfl, equalize_spec hs⟩

theorem Kept.step (hs : s.Kept) {op : TabpageOp} (h : op.run s = .ok () t) : t.Kept := by
  rcases run_spec hs op with ⟨-, ⟨error, hrun⟩ | ⟨t', hrun, hkept⟩⟩ | ⟨-, error, t', hrun, -⟩
  · rw [hrun] at h
    cases h
  · rw [hrun] at h
    cases h
    exact hkept
  · rw [hrun] at h
    cases h

/-! ## Runs -/

/-- The tabpages that `TabpageState::new` makes of a layout. -/
def Starts (s : TabpageState) : Prop :=
  ∃ layout, Reachable Layout.Starts (Layout.Succeeds fun _ _ => True) layout ∧ s = new layout

/-- A successful operation. -/
def Succeeds (s t : TabpageState) : Prop :=
  ∃ op : TabpageOp, op.run s = .ok () t

theorem kept_of_reachable (h : Reachable Starts Succeeds s) : s.Kept := by
  refine h.invariant ?_ ?_
  · rintro s ⟨layout, hlayout, rfl⟩
    exact new_kept (Layout.sound_of_reachable hlayout)
  · rintro s t hs ⟨op, hrun⟩
    exact hs.step hrun

/-- A chain of references never ends at the cursor. -/
theorem resolveWindowGeometry_isSome (hfrozen : Frozen s.floats) (room : Nat) (w : WinHandle) :
    (s.resolveWindowGeometry room w).isSome := by
  induction room generalizing w with
  | zero =>
    rw [resolveWindowGeometry]
    cases s.layout.windowGeometry w with
    | ok geometry => rfl
    | error _ => rfl
  | succ room ih =>
    rw [resolveWindowGeometry]
    cases s.layout.windowGeometry w with
    | ok geometry => rfl
    | error _ =>
      dsimp only
      cases hfind : s.floats.find? (·.window = w) with
      | none => rfl
      | some floating =>
        dsimp only
        have hrelative := hfrozen floating (List.mem_of_find?_eq_some hfind)
        cases hcase : floating.config.relative with
        | editor => rfl
        | window relative =>
          dsimp only
          rw [Option.isSome_map]
          exact ih _
        | cursor => exact absurd hcase hrelative

/-- The bookkeeping of the windows. -/
structure Bookkept (s : TabpageState) : Prop where
  current : s.current ∈ s.layout.windows ∨ s.current ∈ s.floats.map (·.window)
  previous : ∀ w, s.previous = some w →
    (w ∈ s.layout.windows ∨ w ∈ s.floats.map (·.window)) ∧ w ≠ s.current
  tiled : s.layout.current ∈ s.layout.windows
  api : ∀ w, w ∈ s.windowApi ↔ w ∈ s.layout.windows ∨ w ∈ s.floats.map (·.window)
  apart : ∀ w ∈ s.layout.windows, w ∉ s.floats.map (·.window)
  sorted : s.floats.Pairwise fun a b => a.config.zindex ≤ b.config.zindex
  frozen : ∀ float ∈ s.floats, float.config.relative ≠ .cursor
  geometry : ∀ w, (s.windowGeometry w).isSome

/-- **In every tabpage that successful operations lead to, the bookkeeping of the windows is kept.** -/
theorem bookkept_of_reachable (h : Reachable Starts Succeeds s) : s.Bookkept := by
  have hs := kept_of_reachable h
  refine ⟨mem_windows.mp hs.current, ?_, hs.layout.current, ?_, ?_, hs.sorted, hs.frozen, ?_⟩
  · intro w hw
    exact ⟨mem_windows.mp (hs.previous w hw).1, (hs.previous w hw).2⟩
  · intro w
    rw [hs.api, mem_windows]
  · intro w htiled hfloat
    exact List.disjoint_of_nodup_append hs.nodup htiled hfloat
  · intro w
    rw [windowGeometry]
    cases s.layout.windowGeometry (s.resolve w) with
    | ok geometry => rfl
    | error _ => exact resolveWindowGeometry_isSome hs.frozen _ _

/-- A split enters the new window, and the old one becomes the previous. -/
theorem bookkept_two_windows : Bookkept
    { layout :=
        { root := .row ⟨0, 0, 5, 3⟩ [.leaf ⟨1, ⟨7, ⟨0, 0⟩, 0⟩, ⟨0, 0, 3, 3⟩⟩,
            .leaf ⟨2, ⟨7, ⟨0, 0⟩, 0⟩, ⟨0, 3, 2, 3⟩⟩],
          current := 2 }
      floats := []
      windowApi := ((∅ : Std.ExtTreeMap WinHandle WindowApiState).insert 1 {}).insert 2 {}
      current := 2
      previous := some 1 } := by
  have hlayout : Reachable Layout.Starts (Layout.Succeeds fun _ _ => True)
      ⟨.leaf ⟨1, ⟨7, ⟨0, 0⟩, 0⟩, ⟨0, 0, 5, 3⟩⟩, 1⟩ :=
    .init ⟨1, ⟨7, ⟨0, 0⟩, 0⟩, ⟨0, 0, 5, 3⟩, rfl⟩
  refine bookkept_of_reachable (.step (.init ⟨_, hlayout, rfl⟩) ?_)
  exact ⟨.splitVertical 0 2 ⟨7, ⟨0, 0⟩, 0⟩ true, rfl⟩

end TabpageState

/-! ## Failing operations -/

/-- Any operation of a layout, as long as it is not a cramped split. -/
def Layout.Acts (s t : Layout) : Prop :=
  ∃ op : LayoutOp, ¬op.Cramped s ∧ t = final (op.run s)

/-- Any operation of a tabpage, as long as it is not a cramped split. -/
def TabpageState.Acts (s t : TabpageState) : Prop :=
  ∃ op : TabpageOp, ¬op.Cramped s ∧ t = final (op.run s)

/-- The tabpages of layouts that were reached without a cramped split. -/
def TabpageState.StartsUncramped (s : TabpageState) : Prop :=
  ∃ layout, Reachable Layout.Starts Layout.Acts layout ∧ s = new layout

theorem Layout.sound_of_acts {s : Layout} (h : Reachable Layout.Starts Layout.Acts s) : s.Sound := by
  refine h.invariant ?_ ?_
  · rintro s ⟨window, state, geometry, hnew⟩
    exact new_sound hnew
  · rintro s t hs ⟨op, hclear, rfl⟩
    rcases run_spec hs op with ⟨-, ⟨error, hrun⟩ | ⟨t', hrun, hsound⟩⟩ | ⟨hcramped, -⟩
    · rw [hrun]
      exact hs
    · rw [hrun]
      exact hsound
    · exact absurd hcramped hclear

theorem TabpageState.kept_of_acts {s : TabpageState}
    (h : Reachable TabpageState.StartsUncramped TabpageState.Acts s) : s.Kept := by
  refine h.invariant ?_ ?_
  · rintro s ⟨layout, hlayout, rfl⟩
    exact new_kept (Layout.sound_of_acts hlayout)
  · rintro s t hs ⟨op, hclear, rfl⟩
    rcases run_spec hs op with ⟨-, ⟨error, hrun⟩ | ⟨t', hrun, hkept⟩⟩ | ⟨hcramped, -⟩
    · rw [hrun]
      exact hs
    · rw [hrun]
      exact hkept
    · exact absurd hcramped hclear

/-- **An operation that fails leaves everything as it was exactly when it is not a cramped split**, for
layouts and for tabpages, in every state of a run without cramped splits before. -/
theorem unchanged_on_error_iff {l : Layout} (hl : Reachable Layout.Starts Layout.Acts l)
    {s : TabpageState} (hs : Reachable TabpageState.StartsUncramped TabpageState.Acts s) :
    (∀ op : LayoutOp, (∀ error t, op.run l = .error error t → t = l) ↔ ¬op.Cramped l) ∧
    ∀ op : TabpageOp, (∀ error t, op.run s = .error error t → t = s) ↔ ¬op.Cramped s := by
  constructor
  · intro op
    rcases Layout.run_spec (Layout.sound_of_acts hl) op with
      ⟨hclear, ⟨error, hrun⟩ | ⟨t, hrun, -⟩⟩ | ⟨hcramped, error, root, hrun, hlength⟩
    · refine iff_of_true ?_ hclear
      intro error' t herror
      rw [hrun] at herror
      cases herror
      rfl
    · refine iff_of_true ?_ hclear
      intro error t' herror
      rw [hrun] at herror
      cases herror
    · refine iff_of_false ?_ (not_not.mpr hcramped)
      intro hsame
      have hroot : root = l.root := congrArg Layout.root (hsame error _ hrun)
      rw [hroot, Layout.windows] at hlength
      omega
  · intro op
    rcases TabpageState.run_spec (TabpageState.kept_of_acts hs) op with
      ⟨hclear, ⟨error, hrun⟩ | ⟨t, hrun, -⟩⟩ | ⟨hcramped, error, t, hrun, hne⟩
    · refine iff_of_true ?_ hclear
      intro error' t herror
      rw [hrun] at herror
      cases herror
      rfl
    · refine iff_of_true ?_ hclear
      intro error t' herror
      rw [hrun] at herror
      cases herror
    · refine iff_of_false ?_ (not_not.mpr hcramped)
      intro hsame
      exact hne (hsame error t hrun)

/-- The only window cannot be closed, and the layout and the tabpage stay as they are. -/
theorem unchanged_on_last_window :
    (∀ error t, (LayoutOp.close 1).run ⟨.leaf ⟨1, ⟨7, ⟨0, 0⟩, 0⟩, ⟨0, 0, 5, 3⟩⟩, 1⟩
      = .error error t → t = ⟨.leaf ⟨1, ⟨7, ⟨0, 0⟩, 0⟩, ⟨0, 0, 5, 3⟩⟩, 1⟩) ∧
    ∀ error t, (TabpageOp.closeTiled 1).run
        (.new ⟨.leaf ⟨1, ⟨7, ⟨0, 0⟩, 0⟩, ⟨0, 0, 5, 3⟩⟩, 1⟩) = .error error t →
      t = .new ⟨.leaf ⟨1, ⟨7, ⟨0, 0⟩, 0⟩, ⟨0, 0, 5, 3⟩⟩, 1⟩ := by
  have hl : Reachable Layout.Starts Layout.Acts
      ⟨.leaf ⟨1, ⟨7, ⟨0, 0⟩, 0⟩, ⟨0, 0, 5, 3⟩⟩, 1⟩ :=
    .init ⟨1, ⟨7, ⟨0, 0⟩, 0⟩, ⟨0, 0, 5, 3⟩, rfl⟩
  have hs : Reachable TabpageState.StartsUncramped TabpageState.Acts (.new _) := .init ⟨_, hl, rfl⟩
  obtain ⟨hlayout, htabpage⟩ := unchanged_on_error_iff hl hs
  refine ⟨(hlayout (.close 1)).mpr ?_, (htabpage (.closeTiled 1)).mpr ?_⟩
  · rintro ⟨target, window, state, axis, placement, enter, hsplit, -⟩
    cases hsplit
  · rintro ⟨split, target, window, state, axis, placement, enter, hsplit, -⟩
    cases hsplit

/-- Two windows of a column beside a narrow one, in three columns. -/
def beforeCrampedSplit : Layout where
  root := .row ⟨0, 0, 3, 2⟩ [.leaf ⟨1, ⟨7, ⟨0, 0⟩, 0⟩, ⟨0, 0, 1, 2⟩⟩,
    .column ⟨0, 1, 2, 2⟩ [.leaf ⟨2, ⟨7, ⟨0, 0⟩, 0⟩, ⟨0, 1, 2, 1⟩⟩, .leaf ⟨3, ⟨7, ⟨0, 0⟩, 0⟩, ⟨1, 1, 2, 1⟩⟩]]
  current := 1

/-- The window at the top right is two cells wide, but equalized it has only one. Its split fails, with
the new window in the tree. -/
theorem cramped_split_changes_layout :
    Reachable Layout.Starts (Layout.Succeeds fun _ _ => True) beforeCrampedSplit ∧
      ∃ t, (LayoutOp.splitVertical 2 4 ⟨7, ⟨0, 0⟩, 0⟩ false).run beforeCrampedSplit
          = .error (.insufficientSpace 1 2) t ∧ t.windows ≠ beforeCrampedSplit.windows := by
  constructor
  · have hstep : ∀ (s : Layout) (op : LayoutOp) (t : Layout),
        Reachable Layout.Starts (Layout.Succeeds fun _ _ => True) s → op.run s = .ok () t →
          Reachable Layout.Starts (Layout.Succeeds fun _ _ => True) t := by
      intro s op t h hrun
      exact h.step ⟨op, trivial, hrun⟩
    have hone : Reachable Layout.Starts (Layout.Succeeds fun _ _ => True)
        ⟨.leaf ⟨1, ⟨7, ⟨0, 0⟩, 0⟩, ⟨0, 0, 3, 2⟩⟩, 1⟩ :=
      .init ⟨1, ⟨7, ⟨0, 0⟩, 0⟩, ⟨0, 0, 3, 2⟩, rfl⟩
    have htwo := hstep _ (.splitVertical 1 2 ⟨7, ⟨0, 0⟩, 0⟩ false)
      ⟨.row ⟨0, 0, 3, 2⟩ [.leaf ⟨1, ⟨7, ⟨0, 0⟩, 0⟩, ⟨0, 0, 2, 2⟩⟩,
        .leaf ⟨2, ⟨7, ⟨0, 0⟩, 0⟩, ⟨0, 2, 1, 2⟩⟩], 1⟩ hone rfl
    have hthree := hstep _ (.splitHorizontal 2 3 ⟨7, ⟨0, 0⟩, 0⟩ false)
      ⟨.row ⟨0, 0, 3, 2⟩ [.leaf ⟨1, ⟨7, ⟨0, 0⟩, 0⟩, ⟨0, 0, 2, 2⟩⟩, .column ⟨0, 2, 1, 2⟩
        [.leaf ⟨2, ⟨7, ⟨0, 0⟩, 0⟩, ⟨0, 2, 1, 1⟩⟩, .leaf ⟨3, ⟨7, ⟨0, 0⟩, 0⟩, ⟨1, 2, 1, 1⟩⟩]], 1⟩
      htwo rfl
    exact hstep _ (.setWindowWidth 1 1) _ hthree rfl
  · refine ⟨_, rfl, ?_⟩
    decide

end Oxvim.Editor
