import Oxvim.Editor.SessionOps

/-!
# Splitting a window of an editor

A split attaches the buffer before the layout is asked, and detaches it when the layout refuses. A split
that the layout begins and cannot finish (it is cramped) fails too, but leaves the new window in the
layout of the tabpage.
-/

set_option linter.dupNamespace false

namespace Oxvim.Editor

open Lib EState
open Std (ExtTreeMap)

namespace SplitDirection

def axis : SplitDirection → SplitAxis
  | left => .vertical
  | right => .vertical
  | above => .horizontal
  | below => .horizontal

def placement : SplitDirection → SplitPlacement
  | left => .before
  | right => .after
  | above => .before
  | below => .after

end SplitDirection

namespace Editor

variable {e : Editor} {t : TabHandle} {w target : WinHandle} {b : BufHandle} {tabpage after : TabpageState}
  {state : BufferState} {direction : SplitDirection}

theorem splitIn_eq (direction : SplitDirection) : splitIn direction = TabpageState.splitWith
    (Layout.splitPlaced · · · direction.axis direction.placement ·) := by
  cases direction with
  | left => rfl
  | right => rfl
  | above => rfl
  | below => rfl

/-- The split gets as far as the layout, and is cramped there. -/
def CrampedSplit (e : Editor) (tab : TabHandle) (target : WinHandle) (buffer : BufHandle)
    (direction : SplitDirection) : Prop :=
  ∃ t w b tabpage config state, e.resolveTabpageHandle tab = .ok t ∧
    e.resolveWindowHandle target = .ok w ∧ e.resolveBufferHandle buffer = .ok b ∧
    e.buffers[b]? = some state ∧ state.isLoaded = true ∧ e.tabpages[t]? = some tabpage ∧
    tabpage.windowConfig w = .ok config ∧ e.nextWindow ≤ handleMax ∧
    tabpage.Cramped (splitTarget tabpage w config) e.nextWindow direction.axis

/-! ## Heights -/

theorem tiledWindowTextHeight_ok (hw : w ≠ WinHandle.CURRENT) :
    (∃ height, fromLayout (tabpage.tiledWindowTextHeight w) = .ok height) ↔
      w ∈ tabpage.layout.windows := by
  rw [TabpageState.tiledWindowTextHeight, TabpageState.resolve_eq hw, Layout.windowGeometry,
    TabpageState.layout_resolve_eq hw, Layout.windows, ← Frame.findLeaf_isSome]
  dsimp only
  cases Frame.findLeaf w tabpage.layout.root with
  | none =>
    refine iff_of_false ?_ Bool.false_ne_true
    rintro ⟨height, hheight⟩
    cases hheight
  | some found => exact iff_of_true ⟨_, rfl⟩ rfl

/-- The window that is split is a proper handle. -/
theorem splitTarget_ne (hkept : tabpage.Kept) (hw : w ≠ WinHandle.CURRENT) (config : Option WinConfig) :
    splitTarget tabpage w config ≠ WinHandle.CURRENT := by
  rw [splitTarget]
  split
  · cases hlast : tabpage.layout.windows.getLast? with
    | none => exact hw
    | some last =>
      intro heq
      exact hkept.layout.identity (heq ▸ List.mem_of_getLast? hlast)
  · exact hw

/-! ## Splits with room -/

/-- A new top line changes no buffer. -/
theorem shown_modifyTopline (topline : WindowView → Nat) (w' : WinHandle) :
    (e.modifyView w fun view => { view with topline := topline view }).shown w' = e.shown w' := by
  show (Function.update e.views w _ w').buffer = (e.views w').buffer
  by_cases heq : w' = w
  · rw [heq, Function.update_self]
  · rw [Function.update_of_ne heq]

/-- **A split that is not cramped** opens the window or changes nothing that shows. -/
theorem splitWindow_ends (he : e.Consistent) (tab : TabHandle) (target : WinHandle) (buffer : BufHandle)
    (direction : SplitDirection) (enter : Bool) (hclear : ¬e.CrampedSplit tab target buffer direction) :
    Ends e (fun w => some (.window w)) (splitWindow tab target buffer direction enter e) := by
  apply Ends.read (.refl he)
  intro t ht
  apply Ends.read (.refl he)
  intro w hwindow
  apply Ends.read (.refl he)
  intro b hb
  apply Ends.read (.refl he)
  intro _ _
  apply Ends.read (.refl he)
  intro _ _
  apply Ends.read (.refl he)
  intro tabpage hfound
  have htab := of_found hfound
  have hkept := he.housed.kept t tabpage htab
  apply Ends.read (.refl he)
  intro config hconfig
  have htarget := splitTarget_ne hkept (he.resolveWindowHandle hwindow) config
  rw [bind_ok (get_run _)]
  apply Ends.read (.refl he)
  intro viewport hviewport
  rw [bind_ok (get_run _)]
  apply Ends.read (.refl he)
  intro oldHeight holdHeight
  have htiled := (tiledWindowTextHeight_ok htarget).mp ⟨oldHeight, holdHeight⟩
  apply Ends.allocateWindowHandle (.refl he)
  intro hidle hmax
  apply Ends.attach hidle
  intro state hstate hloaded
  have hw : e.nextWindow ∉ e.windows := he.not_live (h := .window _) le_rfl
  have huncramped : ¬tabpage.Cramped (splitTarget tabpage w config) e.nextWindow direction.axis := by
    intro hcramped
    refine hclear ⟨t, w, b, tabpage, config, state, ht, hwindow, hb, hstate, hloaded, htab, ?_, hmax,
      hcramped⟩
    cases hresult : tabpage.windowConfig w with
    | error error =>
      rw [hresult] at hconfig
      cases hconfig
    | ok config' =>
      rw [hresult] at hconfig
      cases hconfig
      rfl
  generalize hview : WindowView.new b _ = view
  have hviewBuffer : view.buffer = b := by
    rw [← hview]
    rfl
  obtain ⟨e₂, he₂⟩ : ∃ e₂ : Editor, e₂ = { e with
      buffers := e.buffers.insert b state.attached
      views := Function.update e.views e.nextWindow view
      nextWindow := e.nextWindow + 1 } := ⟨_, rfl⟩
  have htab₂ : e₂.tabpages[t]? = some tabpage := he₂ ▸ htab
  rw [bind_ok (modify_run _ _)]
  show Ends e _ ((_ : EStateM EditorError Editor WinHandle) { e with
      buffers := e.buffers.insert b state.attached
      views := Function.update e.views e.nextWindow view
      nextWindow := e.nextWindow + 1 })
  rw [← he₂, splitIn_eq]
  rcases TabpageState.splitWith_spec hkept direction.axis direction.placement
    (splitTarget tabpage w config) e.nextWindow view.toWindowState enter with
    ⟨-, ⟨error, hrun⟩ | ⟨after, hrun, hafter, hfloats, hperm⟩⟩ | ⟨hcramped, -⟩
  · rw [bind_error (attachedFor_error (onTabpage_error htab₂ hrun)), OrderedMap.insert_eq_self htab₂, he₂]
    exact .error (hidle.trans (hidle.consistent.reattached hstate hloaded hw _)) _
  · rw [bind_ok (attachedFor_ok (onTabpage_ok htab₂ hrun))]
    have hstill : splitTarget tabpage w config ∈ after.layout.windows :=
      hperm.mem_iff.mpr (List.mem_cons_of_mem _ htiled)
    obtain ⟨newHeight, hnewHeight⟩ := (tiledWindowTextHeight_ok htarget).mpr hstill
    obtain ⟨viewport', hviewport'⟩ := fromLayout_window htarget
      (TabpageState.mem_windows.mpr (.inl hstill))
    refine Ends.known (b := after) (found_eq ?_) ?_
    · rw [OrderedMap.getElem?_insert, if_pos rfl]
    refine Ends.known hnewHeight ?_
    refine Ends.known hviewport' ?_
    rw [bind_ok (modify_run _ _)]
    have hwindows : after.windows.Perm (e.nextWindow :: tabpage.windows) := by
      rw [TabpageState.windows, hfloats]
      exact hperm.append_right _
    have hhoused := he.housed.add htab hafter hwindows hw
    rw [TabpageState.resolve_eq htarget]
    have hopened := fun fractionTopline previousWindow => hidle.opened (w := e.nextWindow)
      (t := Editor.modifyView { e with
          buffers := e.buffers.insert b state.attached
          windows := e.windows.insert e.nextWindow t
          views := Function.update e.views e.nextWindow view
          tabpages := e.tabpages.insert t after
          previousWindow
          nextWindow := e.nextWindow + 1 } (splitTarget tabpage w config) fun view => { view with
            topline := cursorVisibleTopline fractionTopline view.cursor.lnum newHeight })
      ⟨he.counters.2.1, Nat.lt_succ_self _⟩ le_rfl hw hstate rfl rfl
      (fun w' _ => by
        rw [shown_modifyTopline, ← hviewBuffer]
        exact update_shown w')
      hhoused
      (fun tab' htab' => by
        rcases OrderedMap.mem_insert.mp htab' with rfl | htab'
        · exact .inl (OrderedMap.mem_of_getElem? htab)
        · exact .inl htab')
      ⟨rfl, rfl, rfl⟩
    cases enter with
    | false =>
      rw [he₂]
      refine .ok (hopened _ e.previousWindow).1 (hopened _ e.previousWindow).2 ?_
      rintro h ⟨⟩
      exact ⟨OrderedMap.mem_insert.mpr (.inl rfl), le_rfl⟩
    | true =>
      rw [he₂]
      refine .ok (hopened _ (e.currentWindow.filter (· ≠ e.nextWindow))).1 (hopened _ _).2 ?_
      rintro h ⟨⟩
      exact ⟨OrderedMap.mem_insert.mpr (.inl rfl), le_rfl⟩
  · exact absurd hcramped huncramped

/-! ## Cramped splits -/

theorem allocateWindowHandle_ok (h : e.nextWindow ≤ handleMax) :
    allocateWindowHandle e = .ok e.nextWindow { e with nextWindow := e.nextWindow + 1 } := by
  rw [allocateWindowHandle, bind_ok (get_run e), if_neg (Nat.not_lt.mpr h)]
  rfl

theorem fromLayout_ok {α : Type} {result : Except LayoutError α} {a : α} (h : result = .ok a) :
    fromLayout result = .ok a := by
  rw [h]
  rfl

/-- **A cramped split** fails and leaves the new window in the layout. -/
theorem splitWindow_cramped (he : e.Consistent) {tab : TabHandle} {buffer : BufHandle}
    (h : e.CrampedSplit tab target buffer direction) (enter : Bool) :
    ∃ error e', ∃ t : TabHandle, ∃ after : TabpageState, splitWindow tab target buffer direction enter e = .error error e' ∧
      e'.windows = e.windows ∧ e'.tabpages[t]? = some after ∧ e.nextWindow ∈ after.windows := by
  obtain ⟨t, w, b, tabpage, config, state, ht, hw, hb, hstate, hloaded, htab, hconfig, hmax, hcramped⟩ := h
  have hkept := he.housed.kept t tabpage htab
  have htarget := splitTarget_ne hkept (he.resolveWindowHandle hw) config
  have htiled : splitTarget tabpage w config ∈ tabpage.layout.windows := by
    obtain ⟨-, ⟨-, -, old, hfind, -⟩, -⟩ := hcramped
    rw [TabpageState.resolve_eq htarget, TabpageState.layout_resolve_eq htarget] at hfind
    exact Frame.findLeaf_isSome.mp (by rw [hfind]; rfl)
  obtain ⟨viewport, hviewport⟩ := fromLayout_window htarget (TabpageState.mem_windows.mpr (.inl htiled))
  obtain ⟨oldHeight, holdHeight⟩ := (tiledWindowTextHeight_ok htarget).mpr htiled
  rw [splitWindow, bind_ok (read_ok ht), bind_ok (read_ok hw), bind_ok (read_ok hb),
    bind_ok (read_ok (requireBuffer_eq (OrderedMap.mem_of_getElem? hstate))),
    bind_ok (read_ok (if_pos (OrderedMap.mem_of_getElem? htab))),
    bind_ok (read_ok (e := e) (found_eq htab)),
    bind_ok (read_ok (e := e) (q := fun _ => fromLayout (tabpage.windowConfig w)) (fromLayout_ok hconfig)),
    bind_ok (get_run _),
    bind_ok (read_ok (e := e) (q := fun _ => fromLayout (tabpage.window _)) hviewport),
    bind_ok (get_run _),
    bind_ok (read_ok (e := e) (q := fun _ => fromLayout (tabpage.tiledWindowTextHeight _)) holdHeight),
    bind_ok (allocateWindowHandle_ok hmax)]
  have hstate' : ({ e with nextWindow := e.nextWindow + 1 } : Editor).buffers[b]? = some state := hstate
  rcases onBuffer_attach { e with nextWindow := e.nextWindow + 1 } b with
    ⟨hunloaded, -⟩ | ⟨state', -, -, hrun⟩
  · rw [hunloaded state hstate'] at hloaded
    cases hloaded
  · rw [bind_ok hrun, bind_ok (modify_run _ _), splitIn_eq]
    rcases TabpageState.splitWith_spec hkept direction.axis direction.placement
      (splitTarget tabpage w config) e.nextWindow
      (WindowView.new b (if b = (e.views (tabpage.resolve (splitTarget tabpage w config))).buffer then
        (e.views (tabpage.resolve (splitTarget tabpage w config))).cursor else ⟨1, 0⟩)).toWindowState enter
      with ⟨hclear, -⟩ | ⟨-, error, root, hsplit, hperm⟩
    · exact absurd hcramped hclear
    · refine ⟨.layout error, _, t, { tabpage with layout := { tabpage.layout with root } },
        bind_error (attachedFor_error (onTabpage_error htab hsplit)), rfl, ?_, ?_⟩
      · exact OrderedMap.getElem?_insert.trans (if_pos rfl)
      · exact TabpageState.mem_windows.mpr (.inl (hperm.mem_iff.mpr List.mem_cons_self))

end Editor

end Oxvim.Editor
