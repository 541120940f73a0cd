import Oxvim.Editor.SessionSplit
import Oxvim.Editor.SessionClose

/-!
# An editor over whole runs

Whatever buffers, tabpages, windows and floats are created, closed and switched, failing calls included,
the buffers count their windows, the window map is that of the tabpages, and no handle comes twice, as
long as no split is cramped; the first cramped split breaks this.
-/

set_option linter.dupNamespace false

namespace Oxvim.Editor

open Lib EState Text
open Std (ExtTreeMap)

/-- The operations on the buffers, windows and tabpages of an editor. -/
inductive EditorOp where
  | createBufferWith (text : Buffer) (listed : Bool)
  | createTabpage (buffer : BufHandle) (geometry : Geometry)
  | createTabpageAt (buffer : BufHandle) (geometry : Geometry) (after : Nat)
  | splitVertical (tab : TabHandle) (target : WinHandle) (buffer : BufHandle) (enter : Bool)
  | splitHorizontal (tab : TabHandle) (target : WinHandle) (buffer : BufHandle) (enter : Bool)
  | splitLeft (tab : TabHandle) (target : WinHandle) (buffer : BufHandle) (enter : Bool)
  | splitAbove (tab : TabHandle) (target : WinHandle) (buffer : BufHandle) (enter : Bool)
  | openFloat (cursorScreenPosition : WinHandle → Except EditorError CursorScreenPosition)
      (tab : TabHandle) (buffer : BufHandle) (config : WinConfig)
  | closeWindow (tab : TabHandle) (window : WinHandle) (keepBufferLoaded : Bool)
  | closeTabpage (tab : TabHandle)
  | setWindowBuffer (window : WinHandle) (buffer : BufHandle) (release : BufferRelease)
  | setCurrentWindow (window : WinHandle)
  | setCurrentTabpage (tab : TabHandle)
  | wipeBuffer (buffer : BufHandle)
  | unloadBuffer (buffer : BufHandle)

namespace EditorOp

/-- Carries out an operation and returns the handle that it creates. -/
def run : EditorOp → EStateM EditorError Editor (Option Handle)
  | createBufferWith text listed => do
    let b ← Editor.createBufferWith text listed
    return some (.buffer b)
  | createTabpage buffer geometry => do
    let t ← Editor.createTabpage buffer geometry
    return some (.tabpage t)
  | createTabpageAt buffer geometry after => do
    let t ← Editor.createTabpageAt buffer geometry after
    return some (.tabpage t)
  | splitVertical tab target buffer enter => do
    let w ← Editor.splitVertical tab target buffer enter
    return some (.window w)
  | splitHorizontal tab target buffer enter => do
    let w ← Editor.splitHorizontal tab target buffer enter
    return some (.window w)
  | splitLeft tab target buffer enter => do
    let w ← Editor.splitLeft tab target buffer enter
    return some (.window w)
  | splitAbove tab target buffer enter => do
    let w ← Editor.splitAbove tab target buffer enter
    return some (.window w)
  | openFloat cursorScreenPosition tab buffer config => do
    let w ← Editor.openFloat cursorScreenPosition tab buffer config
    return some (.window w)
  | closeWindow tab window keepBufferLoaded => do
    let _ ← Editor.closeWindow tab window keepBufferLoaded
    return none
  | closeTabpage tab => do
    let _ ← Editor.closeTabpage tab
    return none
  | setWindowBuffer window buffer release => do
    let _ ← Editor.setWindowBuffer window buffer release
    return none
  | setCurrentWindow window => do
    let _ ← Editor.setCurrentWindow window
    return none
  | setCurrentTabpage tab => do
    let _ ← Editor.setCurrentTabpage tab
    return none
  | wipeBuffer buffer => do
    let _ ← Editor.wipeBuffer buffer
    return none
  | unloadBuffer buffer => do
    let _ ← Editor.unloadBuffer buffer
    return none

/-- The direction and the arguments of a split. -/
def split? : EditorOp → Option (TabHandle × WinHandle × BufHandle × SplitDirection)
  | splitVertical tab target buffer _ => some (tab, target, buffer, .right)
  | splitHorizontal tab target buffer _ => some (tab, target, buffer, .below)
  | splitLeft tab target buffer _ => some (tab, target, buffer, .left)
  | splitAbove tab target buffer _ => some (tab, target, buffer, .above)
  | _ => none

/-- The operation is a split that the layout begins and has no room to finish. -/
def Cramped (op : EditorOp) (e : Editor) : Prop :=
  ∃ tab target buffer direction, op.split? = some (tab, target, buffer, direction) ∧
    e.CrampedSplit tab target buffer direction

end EditorOp

namespace Editor

variable {e : Editor} {past : List Editor}

/-! ## Integrity -/

/-- The windows of all tabpages, tiled and floating. -/
def allWindows (e : Editor) : List WinHandle :=
  e.tabOrder.flatMap fun t => ((e.tabpages[t]?).map (·.windows)).getD []

/-- Buffers, windows and tabpages fit together. -/
structure Integrity (e : Editor) : Prop where
  attachments : ∀ (b : BufHandle) (state : BufferState), e.buffers[b]? = some state →
    state.attachments = e.allWindows.countP fun w => (e.views w).buffer = b
  loaded : ∀ w ∈ e.allWindows, ∃ state : BufferState,
    e.buffers[(e.views w).buffer]? = some state ∧ state.isLoaded = true
  disjoint : e.allWindows.Nodup
  windows : ∀ (w : WinHandle) (t : TabHandle), e.windows[w]? = some t ↔
    ∃ tabpage : TabpageState, e.tabpages[t]? = some tabpage ∧ w ∈ tabpage.windows
  tabOrder : e.tabOrder.Nodup ∧ ∀ t, t ∈ e.tabOrder ↔ t ∈ e.tabpages
  currentTab : ∀ t, e.currentTab = some t → t ∈ e.tabOrder

theorem Consistent.mem_allWindows (he : e.Consistent) (w : WinHandle) :
    w ∈ e.allWindows ↔ w ∈ e.liveWindows := by
  rw [allWindows, List.mem_flatMap, OrderedMap.mem_keySet]
  constructor
  · rintro ⟨t, ht, hw⟩
    obtain ⟨tabpage, htab⟩ := OrderedMap.mem_iff.mp ((he.housed.order t).mp ht)
    rw [htab] at hw
    exact he.mem_windows htab hw
  · intro hw
    obtain ⟨t, tabpage, -, htab, -, hmem, -⟩ := he.tab_of_window hw
    refine ⟨t, (he.housed.order t).mpr (OrderedMap.mem_of_getElem? htab), ?_⟩
    rw [htab]
    exact hmem

theorem Consistent.nodup_allWindows (he : e.Consistent) : e.allWindows.Nodup := by
  rw [allWindows, List.nodup_flatMap]
  constructor
  · intro t ht
    obtain ⟨tabpage, htab⟩ := OrderedMap.mem_iff.mp ((he.housed.order t).mp ht)
    rw [htab]
    exact (he.housed.kept t tabpage htab).nodup
  · refine he.housed.nodup.imp_of_mem ?_
    intro t t' ht ht' hne
    obtain ⟨tabpage, htab⟩ := OrderedMap.mem_iff.mp ((he.housed.order t).mp ht)
    obtain ⟨tabpage', htab'⟩ := OrderedMap.mem_iff.mp ((he.housed.order t').mp ht')
    rw [Function.onFun, htab, htab']
    intro w hw hw'
    have hhere := (he.housed.windows w t).mpr ⟨tabpage, htab, hw⟩
    have hthere := (he.housed.windows w t').mpr ⟨tabpage', htab', hw'⟩
    exact hne (Option.some.inj (hhere.symm.trans hthere))

theorem Consistent.integrity (he : e.Consistent) : e.Integrity where
  attachments := by
    intro b state hstate
    show _ = e.allWindows.countP fun w => decide (e.shown w = b)
    rw [countP_eq_holders he.nodup_allWindows he.mem_allWindows]
    exact he.counted.attached b _ _ (Counted.books_eq hstate)
  loaded := by
    intro w hw
    obtain ⟨count, hcount⟩ := he.counted.displayed w ((he.mem_allWindows w).mp hw)
    obtain ⟨state, hstate, hbook⟩ := Option.map_eq_some_iff.mp hcount
    exact ⟨state, hstate, congrArg Prod.snd hbook⟩
  disjoint := he.nodup_allWindows
  windows := he.housed.windows
  tabOrder := ⟨he.housed.nodup, he.housed.order⟩
  currentTab := he.housed.current

/-! ## Runs -/

/-- What one operation does right: when it fails, the windows display the same buffers and the buffers
count the same windows, and the handle it creates, like any that comes into use, was not in use in any
state before. -/
structure RightStep (past : List Editor) (e : Editor) (op : EditorOp) : Prop where
  failed : ∀ error t, op.run e = .error error t → SameShown e t
  created : ∀ (h : Handle) t, op.run e = .ok (some h) t → h.Live t ∧ ∀ old ∈ e :: past, ¬h.Live old
  unseen : ∀ h : Handle, h.Live (final (op.run e)) → ¬h.Live e → ∀ old ∈ past, ¬h.Live old

/-- From a state, and states before it, the operations keep the integrity and do right. -/
def RightRun : List Editor → Editor → List EditorOp → Prop
  | _, e, [] => e.Integrity
  | past, e, op :: ops =>
    e.Integrity ∧ RightStep past e op ∧ RightRun (e :: past) (final (op.run e)) ops

/-- No split of the run is cramped. -/
def Uncramped : Editor → List EditorOp → Prop
  | _, [] => True
  | e, op :: ops => ¬op.Cramped e ∧ Uncramped (final (op.run e)) ops

theorem createTabpage_ends (he : e.Consistent) (buffer : BufHandle) (geometry : Geometry) :
    Ends e (fun t => some (.tabpage t)) (createTabpage buffer geometry e) := by
  rw [createTabpage, bind_ok (get_run e)]
  exact insertTabpage_ends he buffer geometry _

theorem createTabpageAt_ends (he : e.Consistent) (buffer : BufHandle) (geometry : Geometry) (after : Nat) :
    Ends e (fun t => some (.tabpage t)) (createTabpageAt buffer geometry after e) := by
  rw [createTabpageAt, bind_ok (get_run e)]
  exact insertTabpage_ends he buffer geometry _

/-- An operation that creates something returns its handle. -/
theorem Ends.creates {α : Type} {x : EStateM EditorError Editor α} {handle : α → Handle}
    (h : Ends e (fun a => some (handle a)) (x e)) :
    Ends e id ((do
      let a ← x
      return some (handle a) : EStateM EditorError Editor (Option Handle)) e) :=
  h.bind_pure fun _ => rfl

/-- Any other operation returns none. -/
theorem Ends.done {α : Type} {x : EStateM EditorError Editor α} (h : Ends e (fun _ => none) (x e)) :
    Ends e id ((do
      let _ ← x
      return none : EStateM EditorError Editor (Option Handle)) e) :=
  h.bind_pure fun _ => rfl

/-- How an operation ends that is not a cramped split. -/
theorem run_ends (he : e.Consistent) (op : EditorOp) (hclear : ¬op.Cramped e) : Ends e id (op.run e) := by
  cases op with
  | createBufferWith text listed => exact (createBufferWith_ends he text listed).creates
  | createTabpage buffer geometry => exact (createTabpage_ends he buffer geometry).creates
  | createTabpageAt buffer geometry after => exact (createTabpageAt_ends he buffer geometry after).creates
  | splitVertical tab target buffer enter =>
    refine (splitWindow_ends he tab target buffer .right enter ?_).creates
    exact fun h => hclear ⟨tab, target, buffer, .right, rfl, h⟩
  | splitHorizontal tab target buffer enter =>
    refine (splitWindow_ends he tab target buffer .below enter ?_).creates
    exact fun h => hclear ⟨tab, target, buffer, .below, rfl, h⟩
  | splitLeft tab target buffer enter =>
    refine (splitWindow_ends he tab target buffer .left enter ?_).creates
    exact fun h => hclear ⟨tab, target, buffer, .left, rfl, h⟩
  | splitAbove tab target buffer enter =>
    refine (splitWindow_ends he tab target buffer .above enter ?_).creates
    exact fun h => hclear ⟨tab, target, buffer, .above, rfl, h⟩
  | openFloat cursorScreenPosition tab buffer config =>
    exact (openFloat_ends he cursorScreenPosition tab buffer config).creates
  | closeWindow tab window keepBufferLoaded =>
    exact (closeWindow_ends he tab window keepBufferLoaded).done
  | closeTabpage tab => exact (closeTabpage_ends he tab).done
  | setWindowBuffer window buffer release => exact (setWindowBuffer_ends he window buffer release).done
  | setCurrentWindow window => exact (setCurrentWindow_ends he window).done
  | setCurrentTabpage tab => exact (setCurrentTabpage_ends he tab).done
  | wipeBuffer buffer => exact (wipeBuffer_ends he buffer).done
  | unloadBuffer buffer => exact (unloadBuffer_ends he buffer).done

/-- All states before are followed by this one, and used only handles that are not fresh any more. -/
theorem Ends.rightStep {op : EditorOp} (he : e.Consistent)
    (hpast : ∀ old ∈ past, old.Consistent ∧ Extends old e) (h : Ends e id (op.run e)) :
    RightStep past e op := by
  have hfresh : ∀ h : Handle, h.Fresh e → ∀ old ∈ past, ¬h.Live old := by
    intro h hfresh old hold
    obtain ⟨hconsistent, hextends⟩ := hpast old hold
    exact hconsistent.not_live ((hextends h).2 hfresh)
  refine ⟨h.failed, ?_, ?_⟩
  · intro handle t hrun
    obtain ⟨hlive, hnew⟩ := h.returned _ _ handle hrun rfl
    refine ⟨hlive, ?_⟩
    intro old hold
    rcases List.mem_cons.mp hold with rfl | hold
    · exact he.not_live hnew
    · exact hfresh handle hnew old hold
  · intro handle hlive hnot
    exact hfresh handle (((h.extends_ handle).1 hlive).resolve_left hnot)

/-- A cramped split leaves a window in a tabpage that the window map does not know. -/
theorem not_integrity_of_cramped (he : e.Consistent) {op : EditorOp} (h : op.Cramped e) :
    ¬(final (op.run e)).Integrity := by
  obtain ⟨tab, target, buffer, direction, hop, hcramped⟩ := h
  have hsplit : ∀ enter, ∃ error e', ∃ t : TabHandle, ∃ after : TabpageState,
      splitWindow tab target buffer direction enter e = .error error e' ∧ e'.windows = e.windows ∧
        e'.tabpages[t]? = some after ∧ e.nextWindow ∈ after.windows :=
    splitWindow_cramped he hcramped
  have hnew : e.nextWindow ∉ e.windows := he.not_live (h := .window _) le_rfl
  have hbroken : ∀ enter, ¬(final ((do
      let w ← splitWindow tab target buffer direction enter
      return some (.window w) : EStateM EditorError Editor (Option Handle)) e)).Integrity := by
    intro enter hintegrity
    obtain ⟨error, e', t, after, hrun, hwindows, htab, hmem⟩ := hsplit enter
    rw [bind_error hrun, final_error] at hintegrity
    have hknown := (hintegrity.windows e.nextWindow t).mpr ⟨after, htab, hmem⟩
    rw [hwindows] at hknown
    exact hnew (OrderedMap.mem_of_getElem? hknown)
  cases op with
  | splitVertical tab' target' buffer' enter =>
    cases hop
    exact hbroken enter
  | splitHorizontal tab' target' buffer' enter =>
    cases hop
    exact hbroken enter
  | splitLeft tab' target' buffer' enter =>
    cases hop
    exact hbroken enter
  | splitAbove tab' target' buffer' enter =>
    cases hop
    exact hbroken enter
  | _ => cases hop

theorem RightRun.integrity {ops : List EditorOp} (h : RightRun past e ops) : e.Integrity := by
  cases ops with
  | nil => exact h
  | cons op ops => exact h.1

theorem RightRun.runs (ops : List EditorOp) (he : e.Consistent)
    (hpast : ∀ old ∈ past, old.Consistent ∧ Extends old e) : RightRun past e ops ↔ Uncramped e ops := by
  induction ops generalizing e past with
  | nil => exact iff_of_true he.integrity trivial
  | cons op ops ih =>
    rw [RightRun, Uncramped]
    by_cases hcramped : op.Cramped e
    · refine iff_of_false ?_ (fun h => h.1 hcramped)
      rintro ⟨-, -, hrest⟩
      exact not_integrity_of_cramped he hcramped hrest.integrity
    · have hends := run_ends he op hcramped
      rw [ih hends.consistent]
      · have hright := hends.rightStep he hpast
        exact ⟨fun h => ⟨hcramped, h.2.2⟩, fun h => ⟨he.integrity, hright, h.2⟩⟩
      · intro old hold
        rcases List.mem_cons.mp hold with rfl | hold
        · exact ⟨he, hends.extends_⟩
        · exact ⟨(hpast old hold).1, (hpast old hold).2.trans hends.extends_⟩

theorem new_consistent : new.Consistent where
  counted := by
    refine ⟨?_, ?_⟩
    · intro w hw
      exact absurd (OrderedMap.mem_keySet.mp hw) ExtTreeMap.not_mem_empty
    · intro b count loaded hb
      cases hb
  housed := by
    refine ⟨?_, ?_, .nil, ?_, ?_⟩
    · intro t tabpage ht
      cases ht
    · intro w t
      refine iff_of_false (by rintro ⟨⟩) ?_
      rintro ⟨tabpage, htab, -⟩
      cases htab
    · intro t
      exact iff_of_false List.not_mem_nil ExtTreeMap.not_mem_empty
    · rintro t ⟨⟩
  issued := by
    intro h hlive
    cases h with
    | buffer b => exact absurd hlive ExtTreeMap.not_mem_empty
    | window w => exact absurd hlive ExtTreeMap.not_mem_empty
    | tabpage t => exact absurd hlive ExtTreeMap.not_mem_empty
  counters := by decide
  windowSpace := by decide

/-- **In every run from an empty editor, buffers, windows and tabpages fit together in every state, no
handle comes twice, and failing operations leave what is displayed, exactly when no split of the run is
cramped.** -/
theorem integrity_run_iff (ops : List EditorOp) : RightRun [] new ops ↔ Uncramped new ops :=
  RightRun.runs ops new_consistent (by rintro old ⟨⟩)

/-- Of two columns on four cells, the right one has two windows side by side at the bottom. The split of
the left column begins, and then the right one has a single cell for these two. -/
def crampedRun : List EditorOp :=
  [.createBufferWith .new true, .createTabpage 1 ⟨0, 0, 4, 2⟩, .splitVertical 1 1000 1 false,
    .splitHorizontal 1 1001 1 false, .splitVertical 1 1002 1 false, .splitVertical 1 1000 1 false]

theorem RightRun.last {ops : List EditorOp} (h : RightRun past e ops) :
    (ops.foldl (fun e op => final (op.run e)) e).Integrity := by
  induction ops generalizing e past with
  | nil => exact h
  | cons op ops ih => exact ih h.2.2

/-- The last split fails, and its window stays in the tabpage. -/
theorem not_rightRun_cramped : ¬RightRun [] new crampedRun := by
  intro h
  have hlast := h.last
  generalize hstate : crampedRun.foldl (fun e op => final (op.run e)) new = e at hlast
  have hwindow : e.windows[1004]? = none := by
    rw [← hstate]
    decide +kernel
  have htab : (e.tabpages[1]?).any (1004 ∈ ·.windows) = true := by
    rw [← hstate]
    decide +kernel
  obtain ⟨tabpage, htabpage, hmem⟩ := (Option.any_eq_true _ _).mp htab
  have hknown := (hlast.windows 1004 1).mpr ⟨tabpage, htabpage, of_decide_eq_true hmem⟩
  rw [hwindow] at hknown
  cases hknown

end Editor

end Oxvim.Editor
