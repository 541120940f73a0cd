import Oxvim.Editor.SessionOps

/-!
# Closing windows and tabpages of an editor

A window closes unless it is the only tiled one of its tabpage. A tabpage is closed by closing all its
windows but the first, which is tiled, one after another: none of these can fail.
-/

set_option linter.dupNamespace false

namespace Oxvim.Editor

open Lib EState
open Std (ExtTreeMap)

namespace Editor

variable {e : Editor} {t : TabHandle} {w first : WinHandle} {tabpage after : TabpageState}

/-- The editor when a window has closed, and its tabpage is as `after`. -/
def closed (e : Editor) (w : WinHandle) (t : TabHandle) (after : TabpageState) (keepLoaded : Bool) :
    Editor :=
  { e with
    buffers := e.buffers.modify (e.shown w) (·.detach keepLoaded)
    windows := e.windows.erase w
    tabpages := e.tabpages.insert t after }

theorem Consistent.closed (he : e.Consistent) (htab : e.tabpages[t]? = some tabpage)
    (hkept : after.Kept) (hperm : tabpage.windows.Perm (w :: after.windows)) (keepLoaded : Bool) :
    (e.closed w t after keepLoaded).Consistent ∧ Extends e (e.closed w t after keepLoaded) := by
  have hw : w ∈ e.windows := he.mem_windows htab (hperm.mem_iff.mpr List.mem_cons_self)
  obtain ⟨hissued, hextends⟩ := he.handles (t := e.closed w t after keepLoaded) ⟨rfl, rfl, rfl⟩
    (fun _ => OrderedMap.mem_modify.mp) (fun _ hw' => (OrderedMap.mem_erase.mp hw').2)
    (fun t' ht' => by
      rcases OrderedMap.mem_insert.mp ht' with rfl | ht'
      · exact OrderedMap.mem_of_getElem? htab
      · exact ht')
  refine ⟨⟨?_, he.housed.remove htab hkept hperm, hissued, he.counters, he.windowSpace⟩, hextends⟩
  have hcounted := he.counted.close (OrderedMap.mem_keySet.mpr hw) keepLoaded
  rw [← OrderedMap.keySet_erase] at hcounted
  exact hcounted

theorem any_floats : (tabpage.floats.any (·.window = w)) = true ↔ w ∈ tabpage.floats.map (·.window) := by
  simp

/-- A window of a tabpage is closed unless it is the only tiled one, and then nothing changes. -/
theorem closeWindow_live (he : e.Consistent) (htab : e.tabpages[t]? = some tabpage)
    (hw : w ∈ tabpage.windows) (keepLoaded : Bool) :
    ((w ∉ tabpage.floats.map (·.window) ∧ tabpage.layout.windows.length = 1) ∧
      ∃ error, closeWindow t w keepLoaded e = .error error e) ∨
    ∃ after, closeWindow t w keepLoaded e = .ok (e.views w) (e.closed w t after keepLoaded) ∧
      after.Kept ∧ tabpage.windows.Perm (w :: after.windows) ∧
      ∀ w', w' ≠ w → w' ∈ tabpage.layout.windows → w' ∈ after.layout.windows := by
  have hkept := he.housed.kept t tabpage htab
  have hlive := he.mem_windows htab hw
  have hcurrent := he.window_ne hlive
  have ht : e.windows[w]? = some t := (he.housed.windows w t).mpr ⟨tabpage, htab, hw⟩
  have htne := he.tab_ne (OrderedMap.mem_of_getElem? htab)
  obtain ⟨viewport, hviewport⟩ := fromLayout_window hcurrent hw
  have hresolve : tabpage.resolve w = w := TabpageState.resolve_eq hcurrent
  rw [closeWindow, bind_ok (read_ok (resolveTabpageHandle_eq htne)),
    bind_ok (read_ok (resolveWindowHandle_eq hcurrent)),
    bind_ok (read_ok (if_pos (OrderedMap.mem_of_getElem? htab))), bind_ok (get_run e),
    if_neg (not_not.mpr ht), bind_ok (read_ok (e := e) (found_eq htab)),
    bind_ok (read_ok (e := e) (q := fun _ => fromLayout (tabpage.window w)) hviewport),
    bind_ok (get_run e), hresolve]
  by_cases hfloat : w ∈ tabpage.floats.map (·.window)
  · rw [if_pos (any_floats.mpr hfloat)]
    rcases TabpageState.removeFloat_spec hkept w with ⟨hnot, -⟩ | ⟨removed, after, hrun, hafter, hlayout, hperm⟩
    · rw [hresolve] at hnot
      exact absurd hfloat hnot
    · rw [hresolve] at hperm
      refine .inr ⟨after, ?_, hafter, ?_, ?_⟩
      · exact (bind_ok (onTabpage_ok htab hrun)).trans rfl
      · rw [TabpageState.windows, TabpageState.windows, hlayout]
        exact (List.Perm.append_left _ hperm).trans List.perm_middle
      · intro w' _ hw'
        rw [hlayout]
        exact hw'
  · rw [if_neg (mt any_floats.mp hfloat)]
    have htiled : w ∈ tabpage.layout.windows := (TabpageState.mem_windows.mp hw).resolve_right hfloat
    rcases TabpageState.closeTiled_spec hkept w with
      ⟨hwhy, error, hrun⟩ | ⟨removed, after, hrun, hafter, hfloats, hperm⟩
    · rw [hresolve] at hwhy
      refine .inl ⟨⟨hfloat, hwhy.resolve_left (not_not.mpr htiled)⟩, .layout error, ?_⟩
      rw [bind_error (onTabpage_error htab hrun), OrderedMap.insert_eq_self htab]
    · rw [hresolve] at hperm
      refine .inr ⟨after, ?_, hafter, ?_, ?_⟩
      · exact (bind_ok (onTabpage_ok htab hrun)).trans rfl
      · rw [TabpageState.windows, TabpageState.windows, hfloats]
        exact hperm.append_right _
      · intro w' hne hw'
        exact (List.mem_cons.mp (hperm.mem_iff.mp hw')).resolve_left hne

theorem closeWindow_ends (he : e.Consistent) (tab : TabHandle) (window : WinHandle) (keepLoaded : Bool) :
    Ends e (fun _ => none) (closeWindow tab window keepLoaded e) := by
  cases htab : e.resolveTabpageHandle tab with
  | error error =>
    rw [closeWindow, bind_error (read_error htab)]
    exact .error (.refl he) error
  | ok t =>
    cases hwindow : e.resolveWindowHandle window with
    | error error =>
      rw [closeWindow, bind_ok (read_ok htab), bind_error (read_error hwindow)]
      exact .error (.refl he) error
    | ok w =>
      cases hrequire : e.requireTabpage t with
      | error error =>
        rw [closeWindow, bind_ok (read_ok htab), bind_ok (read_ok hwindow), bind_error (read_error hrequire)]
        exact .error (.refl he) error
      | ok _ =>
        obtain ⟨tabpage, htabpage⟩ := of_requireTabpage hrequire
        by_cases hhere : e.windows[w]? = some t
        · have hsame : closeWindow tab window keepLoaded e = closeWindow t w keepLoaded e := by
            rw [closeWindow, closeWindow, bind_ok (read_ok htab), bind_ok (read_ok hwindow),
              bind_ok (read_ok (q := fun self => self.resolveTabpageHandle t)
                (resolveTabpageHandle_eq (he.tab_ne (OrderedMap.mem_of_getElem? htabpage)))),
              bind_ok (read_ok (q := fun self => self.resolveWindowHandle w)
                (resolveWindowHandle_eq (he.window_ne (OrderedMap.mem_of_getElem? hhere))))]
          rw [hsame]
          have hw : w ∈ tabpage.windows := by
            obtain ⟨tabpage', htabpage', hw⟩ := (he.housed.windows w t).mp hhere
            obtain rfl : tabpage = tabpage' := Option.some.inj (htabpage.symm.trans htabpage')
            exact hw
          rcases closeWindow_live he htabpage hw keepLoaded with
            ⟨-, error, hrun⟩ | ⟨after, hrun, hkept, hperm, -⟩
          · rw [hrun]
            exact .error (.refl he) error
          · rw [hrun]
            obtain ⟨hconsistent, hextends⟩ := he.closed htabpage hkept hperm keepLoaded
            exact .ok hconsistent hextends (by rintro h ⟨⟩)
        · rw [closeWindow, bind_ok (read_ok htab), bind_ok (read_ok hwindow), bind_ok (read_ok hrequire),
            bind_ok (get_run e), if_pos hhere]
          exact .error (.refl he) _

/-! ## A whole tabpage -/

/-- All windows but one tiled one are closed. -/
theorem closeAll (rest : List WinHandle) (he : e.Consistent) (htab : e.tabpages[t]? = some tabpage)
    (hperm : tabpage.windows.Perm (first :: rest)) (hfirst : first ∈ tabpage.layout.windows) :
    ∃ e' after, (rest.forM fun window => do
        let _ ← closeWindow t window true) e = .ok () e' ∧ e'.Consistent ∧ Extends e e' ∧
      e'.tabpages[t]? = some after ∧ after.windows = [first] ∧ e'.tabOrder = e.tabOrder ∧
      e'.currentTab = e.currentTab := by
  induction rest generalizing e tabpage with
  | nil => exact ⟨e, tabpage, rfl, he, .refl e, htab, List.perm_singleton.mp hperm, rfl, rfl⟩
  | cons w rest ih =>
    have hnodup := hperm.nodup_iff.mp (he.housed.kept t tabpage htab).nodup
    have hne : first ≠ w := by
      rintro rfl
      exact (List.nodup_cons.mp hnodup).1 List.mem_cons_self
    have hw : w ∈ tabpage.windows := hperm.mem_iff.mpr (List.mem_cons_of_mem _ List.mem_cons_self)
    rcases closeWindow_live he htab hw true with ⟨⟨hfloat, hone⟩, -⟩ | ⟨after, hrun, hkept, hafter, hstay⟩
    · -- two tiled windows are not one
      have htiled := (TabpageState.mem_windows.mp hw).resolve_right hfloat
      obtain ⟨only, honly⟩ := List.length_eq_one_iff.mp hone
      rw [honly, List.mem_singleton] at hfirst htiled
      exact absurd (hfirst.trans htiled.symm) hne
    · obtain ⟨hconsistent, hextends⟩ := he.closed htab hkept hafter true
      have hrest : after.windows.Perm (first :: rest) := by
        have hswap := hafter.symm.trans (hperm.trans (List.Perm.swap w first rest))
        exact hswap.cons_inv
      have htab' : (e.closed w t after true).tabpages[t]? = some after :=
        OrderedMap.getElem?_insert.trans (if_pos rfl)
      obtain ⟨e', last, hforM, hend⟩ := ih hconsistent htab' hrest (hstay first hne hfirst)
      refine ⟨e', last, ?_, hend.1, hextends.trans hend.2.1, hend.2.2⟩
      have hbody : (do
          let _ ← closeWindow t w true
          pure PUnit.unit : EStateM EditorError Editor PUnit) e = .ok ⟨⟩ (e.closed w t after true) :=
        bind_ok hrun
      rw [List.forM]
      exact (bind_ok hbody).trans hforM

theorem closeTabpage_ends (he : e.Consistent) (tab : TabHandle) :
    Ends e (fun _ => none) (closeTabpage tab e) := by
  apply Ends.read (.refl he)
  intro t _
  apply Ends.read (.refl he)
  intro _ hrequire
  obtain ⟨tabpage, htab⟩ := of_requireTabpage hrequire
  rw [bind_ok (get_run e)]
  by_cases hone : e.tabOrder.length ≤ 1
  · rw [if_pos hone]
    exact .error (.refl he) _
  rw [if_neg hone]
  have hkept := he.housed.kept t tabpage htab
  refine Ends.known (tabpage_eq (he.tab_ne (OrderedMap.mem_of_getElem? htab)) htab) ?_
  obtain ⟨first, rest, hwindows⟩ : ∃ first rest, tabpage.layout.windows = first :: rest :=
    List.exists_cons_of_ne_nil (List.ne_nil_of_mem hkept.layout.current)
  have hall : tabpage.windows = first :: (tabpage.windows.drop 1) := by
    rw [TabpageState.windows, hwindows]
    rfl
  obtain ⟨e', last, hforM, he', hextends, htab', hlast, horder, hcurrentTab⟩ :=
    closeAll (tabpage.windows.drop 1) he htab (hall ▸ List.Perm.refl _)
      (hwindows ▸ List.mem_cons_self)
  rw [bind_ok hforM]
  refine Ends.known (b := last) (found_eq htab') ?_
  rw [bind_ok (modify_run _ _), bind_ok (modify_run _ _), bind_ok (modify_run _ _), modify_run, hlast]
  have hin : first ∈ last.windows := hlast ▸ List.mem_cons_self
  have hlive := he'.mem_windows htab' hin
  have hfirst := he'.window_ne hlive
  obtain ⟨viewport, hviewport⟩ := (tabpage_window hfirst).mpr hin
  rw [List.foldl_cons, List.foldl_nil, dropWindow, hviewport]
  dsimp only
  rw [TabpageState.resolve_eq hfirst]
  have hcounted := he'.counted.close (OrderedMap.mem_keySet.mpr hlive) true
  rw [← OrderedMap.keySet_erase] at hcounted
  -- the tabpage that is current afterwards
  obtain ⟨next, hnext⟩ : ∃ next, next = if e'.currentTab = some t then
      (e'.tabOrder.filter (· ≠ t)).head? else e'.currentTab := ⟨_, rfl⟩
  have hnextMem : ∀ t', next = some t' → t' ∈ e'.tabOrder ∧ t' ≠ t := by
    intro t' ht'
    rw [hnext] at ht'
    split at ht'
    · have hmem := List.mem_filter.mp (List.mem_of_head? ht')
      exact ⟨hmem.1, of_decide_eq_true hmem.2⟩
    · next hother =>
      refine ⟨he'.housed.current t' ht', ?_⟩
      rintro rfl
      exact hother ht'
  have hhoused := he'.housed.removeTab htab' hlast hnextMem
  obtain ⟨hissued, hextends'⟩ := he'.handles ⟨rfl, rfl, rfl⟩ (fun _ => OrderedMap.mem_modify.mp)
    (fun _ hw' => (OrderedMap.mem_erase.mp hw').2) (fun _ ht' => (OrderedMap.mem_erase.mp ht').2)
    (t := { e' with
      buffers := e'.buffers.modify (e'.shown first) (·.detach true)
      windows := e'.windows.erase first
      tabpages := e'.tabpages.erase t
      tabOrder := e'.tabOrder.filter (· ≠ t)
      currentTab := next })
  have hfinal : Consistent { e' with
      buffers := e'.buffers.modify (e'.shown first) (·.detach true)
      windows := e'.windows.erase first
      tabpages := e'.tabpages.erase t
      tabOrder := e'.tabOrder.filter (· ≠ t)
      currentTab := next } :=
    ⟨hcounted, hhoused, hissued, he'.counters, he'.windowSpace⟩
  rw [hnext] at hfinal hextends'
  split
  · next hcurrent =>
    rw [if_pos (show e'.currentTab = some t from hcurrent)] at hfinal hextends'
    exact .ok hfinal (hextends.trans hextends') (by rintro h ⟨⟩)
  · next hcurrent =>
    rw [if_neg (show ¬e'.currentTab = some t from hcurrent)] at hfinal hextends'
    exact .ok hfinal (hextends.trans hextends') (by rintro h ⟨⟩)

end Editor

end Oxvim.Editor
