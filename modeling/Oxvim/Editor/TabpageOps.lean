import Oxvim.Editor.Tabpage
import Oxvim.Editor.LayoutOps

/-!
# The operations of a tabpage

`Kept` is the invariant of the bookkeeping of a tabpage: tiled and floating windows are different ones,
the API state is that of exactly these, the current and the previous window are among them, and the
floats are in order, none of them relative to the cursor. For each operation, that it fails and leaves
the tabpage alone or keeps the invariant; splits fail as the ones of the layout do.
-/

namespace Oxvim.Editor.TabpageState

open Lib EState
open Std (ExtTreeMap)

variable {s : TabpageState} {w window target gone : WinHandle} {layout : Layout}
  {floats : List FloatingWindow} {state : WindowState}

/-- Floats from the lowest to the highest z-index. -/
abbrev Sorted (floats : List FloatingWindow) : Prop :=
  floats.Pairwise fun a b => a.config.zindex ≤ b.config.zindex

/-- No float is relative to the cursor. -/
abbrev Frozen (floats : List FloatingWindow) : Prop :=
  ∀ float ∈ floats, float.config.relative ≠ .cursor

/-- What the operations keep. -/
structure Kept (s : TabpageState) : Prop where
  layout : s.layout.Sound
  nodup : s.windows.Nodup
  identity : WinHandle.CURRENT ∉ s.windows
  current : s.current ∈ s.windows
  previous : ∀ w, s.previous = some w → w ∈ s.windows ∧ w ≠ s.current
  api : ∀ w, w ∈ s.windowApi ↔ w ∈ s.windows
  sorted : Sorted s.floats
  frozen : Frozen s.floats

/-! ## Looking windows up -/

theorem mem_windows : w ∈ s.windows ↔ w ∈ s.layout.windows ∨ w ∈ s.floats.map (·.window) :=
  List.mem_append

theorem layout_resolve_eq (hw : w ≠ WinHandle.CURRENT) : s.layout.resolve w = w := by
  rw [Layout.resolve, if_neg]
  rw [WinHandle.isCurrent, beq_iff_eq]
  exact hw

theorem layout_window_isOk (hw : w ≠ WinHandle.CURRENT) :
    (s.layout.window w).isOk = true ↔ w ∈ s.layout.windows := by
  rw [Layout.window, layout_resolve_eq hw, Layout.windows, ← Frame.findLeaf_isSome]
  cases Frame.findLeaf w s.layout.root with
  | none => simp [Except.isOk, Except.toBool]
  | some found => simp [Except.isOk, Except.toBool]

theorem contains_iff (hw : w ≠ WinHandle.CURRENT) :
    s.contains w = true ↔ w ∈ s.windows := by
  rw [contains, Bool.or_eq_true, layout_window_isOk hw, mem_windows, or_comm]
  simp

theorem resolve_eq (hw : w ≠ WinHandle.CURRENT) : s.resolve w = w := by
  rw [resolve, if_neg]
  rw [WinHandle.isCurrent, beq_iff_eq]
  exact hw

theorem Kept.resolve_ne (hs : s.Kept) (w : WinHandle) : s.resolve w ≠ WinHandle.CURRENT := by
  rw [resolve]
  split
  · intro heq
    exact hs.identity (heq ▸ hs.current)
  · next hcur =>
    rw [WinHandle.isCurrent, beq_iff_eq] at hcur
    exact hcur

theorem floatIndex_eq_some {index : Nat} (h : s.floatIndex w = some index) :
    ∃ hlt : index < s.floats.length, s.floats[index].window = w := by
  obtain ⟨hlt, hat, -⟩ := List.findIdx?_eq_some_iff_getElem.mp h
  exact ⟨hlt, of_decide_eq_true hat⟩

/-- A new tabpage. -/
theorem new_kept (h : layout.Sound) : Kept (new layout) := by
  have hapi : ∀ (windows : List WinHandle) (api : ExtTreeMap WinHandle WindowApiState) (w : WinHandle),
      w ∈ windows.foldl (fun api window => api.insert window {}) api ↔ w ∈ api ∨ w ∈ windows := by
    intro windows
    induction windows with
    | nil => simp
    | cons window windows ih =>
      intro api w
      rw [List.foldl_cons, ih, ExtTreeMap.mem_insert, Std.compare_eq_iff_eq, List.mem_cons]
      grind
  have hwindows : (new layout).windows = layout.windows := List.append_nil _
  refine ⟨h, ?_, ?_, ?_, ?_, ?_, List.Pairwise.nil, ?_⟩
  · rw [hwindows]
    exact h.nodup
  · rw [hwindows]
    exact h.identity
  · rw [hwindows]
    exact h.current
  · rintro w ⟨⟩
  · intro w
    rw [hwindows]
    exact (hapi layout.windows ∅ w).trans (by simp)
  · rintro float ⟨⟩

/-! ## Parts of the invariant -/

/-- Other floats with the same windows. -/
theorem Kept.withFloats (hs : s.Kept) (hperm : (floats.map (·.window)).Perm (s.floats.map (·.window)))
    (hsorted : Sorted floats) (hfrozen : Frozen floats) : Kept { s with floats } := by
  have hwindows : (windows { s with floats }).Perm s.windows := List.Perm.append_left _ hperm
  refine ⟨hs.layout, hwindows.nodup_iff.mpr hs.nodup, ?_, hwindows.mem_iff.mpr hs.current, ?_, ?_,
    hsorted, hfrozen⟩
  · rw [hwindows.mem_iff]
    exact hs.identity
  · intro w hw
    rw [hwindows.mem_iff]
    exact hs.previous w hw
  · intro w
    rw [hwindows.mem_iff]
    exact hs.api w

/-- Another layout with the same windows. -/
theorem Kept.withLayout (hs : s.Kept) (hlayout : layout.Sound)
    (hwindows : layout.windows = s.layout.windows) : Kept { s with layout } := by
  have hsame : windows { s with layout } = s.windows := by
    show layout.windows ++ _ = _
    rw [hwindows]
    rfl
  refine ⟨hlayout, ?_, ?_, ?_, ?_, ?_, hs.sorted, hs.frozen⟩
  · rw [hsame]
    exact hs.nodup
  · rw [hsame]
    exact hs.identity
  · rw [hsame]
    exact hs.current
  · rw [hsame]
    exact hs.previous
  · rw [hsame]
    exact hs.api

theorem Kept.enter (hs : s.Kept) (hw : w ∈ s.windows) : Kept (s.enter w) := by
  rw [TabpageState.enter]
  split
  · next hne =>
    refine ⟨hs.layout, hs.nodup, hs.identity, hw, ?_, hs.api, hs.sorted, hs.frozen⟩
    intro w' hw'
    obtain rfl := Option.some.inj hw'
    exact ⟨hs.current, hne⟩
  · exact hs

/-- One more window. -/
theorem Kept.add (hs : s.Kept) (hlayout : layout.Sound)
    (hperm : (layout.windows ++ floats.map (·.window)).Perm (w :: s.windows))
    (hw : w ≠ WinHandle.CURRENT) (hnew : w ∉ s.windows) (hsorted : Sorted floats)
    (hfrozen : Frozen floats) :
    Kept { s with layout, floats, windowApi := s.windowApi.insert w {} } := by
  have hmem : ∀ w', w' ∈ layout.windows ++ floats.map (·.window) ↔ w' = w ∨ w' ∈ s.windows := by
    intro w'
    rw [hperm.mem_iff, List.mem_cons]
  refine ⟨hlayout, ?_, ?_, ?_, ?_, ?_, hsorted, hfrozen⟩
  · exact hperm.nodup_iff.mpr (List.nodup_cons.mpr ⟨hnew, hs.nodup⟩)
  · intro hcur
    rcases (hmem _).mp hcur with heq | hcur
    · exact hw heq.symm
    · exact hs.identity hcur
  · exact (hmem _).mpr (.inr hs.current)
  · intro w' hw'
    exact ⟨(hmem _).mpr (.inr (hs.previous w' hw').1), (hs.previous w' hw').2⟩
  · intro w'
    show w' ∈ s.windowApi.insert w {} ↔ w' ∈ layout.windows ++ floats.map (·.window)
    rw [hmem, ExtTreeMap.mem_insert, Std.compare_eq_iff_eq, hs.api, eq_comm]

/-- One window fewer: what referred to it is repaired. -/
theorem Kept.forget (hs : s.Kept) (hlayout : layout.Sound)
    (hperm : s.windows.Perm (gone :: (layout.windows ++ floats.map (·.window))))
    (hsorted : Sorted floats) (hfrozen : Frozen floats) :
    Kept (TabpageState.forget { s with layout, floats } gone) := by
  have hnodup := hperm.nodup_iff.mp hs.nodup
  rw [List.nodup_cons] at hnodup
  have hleft : ∀ w ∈ s.windows, w ≠ gone → w ∈ layout.windows ++ floats.map (·.window) := by
    intro w hw hne
    exact (List.mem_cons.mp (hperm.mem_iff.mp hw)).resolve_left hne
  have hapi : ∀ w, w ∈ s.windowApi.erase gone ↔ w ∈ layout.windows ++ floats.map (·.window) := by
    intro w
    rw [ExtTreeMap.mem_erase, hs.api, hperm.mem_iff, List.mem_cons, ne_eq, Std.compare_eq_iff_eq]
    constructor
    · rintro ⟨hne, rfl | hw⟩
      · exact absurd rfl hne
      · exact hw
    · intro hw
      refine ⟨?_, .inr hw⟩
      rintro rfl
      exact hnodup.1 hw
  have hid : WinHandle.CURRENT ∉ layout.windows ++ floats.map (·.window) := fun hcur =>
    hs.identity (hperm.mem_iff.mpr (List.mem_cons_of_mem _ hcur))
  obtain ⟨previous, hprevious⟩ : ∃ previous,
      previous = if s.previous = some gone then none else s.previous := ⟨_, rfl⟩
  -- a previous window is not the one that goes
  have hprev : ∀ w, previous = some w →
      w ∈ layout.windows ++ floats.map (·.window) ∧ w ≠ s.current := by
    rintro w hw
    rw [hprevious, Option.ite_none_left_eq_some] at hw
    refine ⟨hleft w (hs.previous w hw.2).1 ?_, (hs.previous w hw.2).2⟩
    rintro rfl
    exact hw.1 hw.2
  have hfields : TabpageState.forget { s with layout, floats } gone
      = { layout, floats, windowApi := s.windowApi.erase gone,
          current := if s.current = gone then layout.current else s.current,
          previous :=
            if s.current = gone ∧ previous = some layout.current then none else previous } := by
    simp only [TabpageState.forget, hprevious]
    grind
  rw [hfields]
  refine ⟨hlayout, hnodup.2, hid, ?_, ?_, hapi, hsorted, hfrozen⟩
  · show (if s.current = gone then layout.current else s.current) ∈
      layout.windows ++ floats.map (·.window)
    split
    · exact List.mem_append_left _ hlayout.current
    · next hne => exact hleft _ hs.current hne
  · intro w hw
    dsimp only at hw ⊢
    rw [Option.ite_none_left_eq_some] at hw
    refine ⟨(hprev w hw.2).1, ?_⟩
    split
    · next hcur =>
      rintro rfl
      exact hw.1 ⟨hcur, hw.2⟩
    · exact (hprev w hw.2).2

/-! ## Operations of the layout -/

theorem onLayout_ok {α : Type} {op : EStateM LayoutError Layout α} {a : α} {t : Layout}
    (h : op s.layout = .ok a t) : onLayout op s = .ok a { s with layout := t } :=
  zoom_ok h

theorem onLayout_error {α : Type} {op : EStateM LayoutError Layout α} {error : LayoutError}
    {t : Layout} (h : op s.layout = .error error t) :
    onLayout op s = .error error { s with layout := t } :=
  zoom_error h

/-- An operation that keeps the tiled windows. -/
theorem onLayout_kept (hs : s.Kept) {op : EStateM LayoutError Layout Unit}
    (h : (∃ error, op s.layout = .error error s.layout) ∨
      ∃ t, op s.layout = .ok () t ∧ t.Sound ∧ t.windows = s.layout.windows) :
    (∃ error, onLayout op s = .error error s) ∨ ∃ t, onLayout op s = .ok () t ∧ t.Kept := by
  rcases h with ⟨error, hop⟩ | ⟨t, hop, hsound, hwindows⟩
  · exact .inl ⟨error, onLayout_error hop⟩
  · exact .inr ⟨_, onLayout_ok hop, hs.withLayout hsound hwindows⟩

theorem resize_spec (hs : s.Kept) (geometry : Geometry) :
    (∃ error, resize geometry s = .error error s) ∨ ∃ t, resize geometry s = .ok () t ∧ t.Kept := by
  apply onLayout_kept hs
  rcases Layout.resize_spec (g := geometry) hs.layout with hfail | ⟨t, hop, hsound, hwindows, -⟩
  · exact .inl hfail
  · exact .inr ⟨t, hop, hsound, hwindows⟩

theorem equalize_spec (hs : s.Kept) :
    (∃ error, equalize s = .error error s) ∨ ∃ t, equalize s = .ok () t ∧ t.Kept := by
  apply onLayout_kept hs
  obtain ⟨t, hop, hsound, hwindows, -⟩ := Layout.equalize_spec hs.layout
  exact .inr ⟨t, hop, hsound, hwindows⟩

theorem forget_layout (s : TabpageState) (gone : WinHandle) : (s.forget gone).layout = s.layout := by
  unfold forget
  dsimp only
  split_ifs
  all_goals rfl

theorem forget_floats (s : TabpageState) (gone : WinHandle) : (s.forget gone).floats = s.floats := by
  unfold forget
  dsimp only
  split_ifs
  all_goals rfl

/-! ## Floats -/

theorem freezeCursorAnchor_relative (s : TabpageState) (w : WinHandle) (config : WinConfig)
    (cursor : CursorScreenPosition) : (s.freezeCursorAnchor w config cursor).relative ≠ .cursor := by
  rw [freezeCursorAnchor]
  split
  · assumption
  · split
    · rintro ⟨⟩
    · rintro ⟨⟩

theorem map_modify_of_eq {α β : Type*} (m : α → β) (f : α → α) (h : ∀ a, m (f a) = m a) (as : List α)
    (i : Nat) : (as.modify i f).map m = as.map m := by
  induction as generalizing i with
  | nil => simp
  | cons a as ih =>
    cases i with
    | zero => simp [h]
    | succ i => simpa using ih i

theorem mem_modify {α : Type*} {f : α → α} {as : List α} {i : Nat} {b : α} (h : b ∈ as.modify i f) :
    b ∈ as ∨ ∃ a ∈ as, b = f a := by
  obtain ⟨j, hj⟩ := List.mem_iff_getElem?.mp h
  rw [List.getElem?_modify] at hj
  obtain ⟨a, ha, rfl⟩ := Option.map_eq_some_iff.mp hj
  have hmem := List.mem_of_getElem? ha
  split
  · exact .inr ⟨a, hmem, rfl⟩
  · exact .inl hmem

theorem sortFloats_sorted (floats : List FloatingWindow) : Sorted (sortFloats floats) := by
  have hpairwise : (sortFloats floats).Pairwise fun a b => decide (a.config.zindex ≤ b.config.zindex) = true := by
    apply List.pairwise_mergeSort
    · intro a b c
      grind
    · intro a b
      grind
  exact hpairwise.imp of_decide_eq_true

theorem setWindowConfig_spec (hs : s.Kept) (w : WinHandle) (config : WinConfig)
    (cursor : CursorScreenPosition) :
    (∃ error, setWindowConfig w config cursor s = .error error s) ∨
      ∃ t, setWindowConfig w config cursor s = .ok () t ∧ t.Kept := by
  rw [setWindowConfig, bind_ok (get_run s)]
  have hrelative := s.freezeCursorAnchor_relative (s.resolve w) config cursor
  generalize s.freezeCursorAnchor (s.resolve w) config cursor = config at hrelative
  cases config.validate with
  | error error => exact .inl ⟨error, rfl⟩
  | ok _ =>
    rw [bind_ok (ofExcept_ok_run _ _)]
    cases s.floatIndex (s.resolve w) with
    | none => exact .inl ⟨_, rfl⟩
    | some index =>
      refine .inr ⟨_, rfl, hs.withFloats ?_ (sortFloats_sorted _) ?_⟩
      · refine ((List.mergeSort_perm _ _).map _).trans ?_
        exact List.Perm.of_eq
          (map_modify_of_eq FloatingWindow.window ({ · with config }) (fun _ => rfl) _ _)
      · intro float hfloat
        rcases mem_modify (List.mem_mergeSort.mp hfloat) with hold | ⟨old, -, rfl⟩
        · exact hs.frozen float hold
        · exact hrelative

theorem setWindowExtent_spec (hs : s.Kept) (setFloat : WinConfig → WinConfig)
    (setTiled : WinHandle → EStateM LayoutError Layout Unit) (w : WinHandle)
    (hzindex : ∀ config, (setFloat config).zindex = config.zindex)
    (hrelative : ∀ config, (setFloat config).relative = config.relative)
    (htiled : ∀ w, (∃ error, setTiled w s.layout = .error error s.layout) ∨
      ∃ t, setTiled w s.layout = .ok () t ∧ t.Sound ∧ t.windows = s.layout.windows) :
    (∃ error, setWindowExtent w setFloat setTiled s = .error error s) ∨
      ∃ t, setWindowExtent w setFloat setTiled s = .ok () t ∧ t.Kept := by
  rw [setWindowExtent, bind_ok (get_run s)]
  dsimp only
  cases hindex : s.floatIndex (s.resolve w) with
  | none => exact onLayout_kept hs (htiled _)
  | some index =>
    obtain ⟨hlt, -⟩ := floatIndex_eq_some hindex
    dsimp only
    rw [List.getElem?_eq_getElem hlt]
    dsimp only
    cases (setFloat s.floats[index].config).validate with
    | error error => exact .inl ⟨error, rfl⟩
    | ok _ =>
      rw [bind_ok (ofExcept_ok_run _ _)]
      have hmodify : s.floats.modify index ({ · with config := setFloat s.floats[index].config })
          = s.floats.modify index fun float => { float with config := setFloat float.config } := by
        apply List.ext_getElem?
        intro i
        rw [List.getElem?_modify, List.getElem?_modify]
        cases hi : s.floats[i]? with
        | none => rfl
        | some float =>
          by_cases hsame : index = i
          · subst hsame
            rw [List.getElem?_eq_getElem hlt] at hi
            cases hi
            rfl
          · simp only [if_neg hsame]
      rw [hmodify]
      refine .inr ⟨_, rfl, hs.withFloats ?_ ?_ ?_⟩
      · exact List.Perm.of_eq (map_modify_of_eq FloatingWindow.window
          (fun float => { float with config := setFloat float.config }) (fun _ => rfl) _ _)
      · rw [Sorted, ← List.pairwise_map (f := fun float : FloatingWindow => float.config.zindex)
          (R := (· ≤ ·)), map_modify_of_eq (fun float : FloatingWindow => float.config.zindex) _
          fun float => hzindex float.config, List.pairwise_map]
        exact hs.sorted
      · intro float hfloat
        rcases mem_modify hfloat with hold | ⟨old, hold, rfl⟩
        · exact hs.frozen float hold
        · dsimp only
          rw [hrelative]
          exact hs.frozen old hold

/-- A float goes in front of the first with a larger z-index. -/
theorem insertIdx_sorted {float : FloatingWindow} (h : Sorted floats) :
    Sorted (floats.insertIdx ((floats.findIdx? fun candidate =>
      decide (float.config.zindex < candidate.config.zindex)).getD floats.length) float) := by
  induction floats with
  | nil => simp
  | cons first floats ih =>
    rw [Sorted, List.pairwise_cons] at h
    rw [List.findIdx?_cons]
    by_cases hlt : float.config.zindex < first.config.zindex
    · rw [decide_eq_true hlt, if_pos rfl, Option.getD_some, List.insertIdx_zero, Sorted,
        List.pairwise_cons, List.pairwise_cons]
      refine ⟨?_, h⟩
      intro other hother
      rcases List.mem_cons.mp hother with rfl | hother
      · exact Nat.le_of_lt hlt
      · exact Nat.le_trans (Nat.le_of_lt hlt) (h.1 other hother)
    · have hnext : ((floats.findIdx? fun candidate =>
            decide (float.config.zindex < candidate.config.zindex)).map (· + 1)).getD
            (first :: floats).length
          = (floats.findIdx? fun candidate =>
            decide (float.config.zindex < candidate.config.zindex)).getD floats.length + 1 := by
        cases floats.findIdx? fun candidate =>
            decide (float.config.zindex < candidate.config.zindex) with
        | none => rfl
        | some index => rfl
      rw [decide_eq_false hlt, if_neg Bool.false_ne_true, hnext, List.insertIdx_succ_cons, Sorted,
        List.pairwise_cons]
      refine ⟨?_, ih h.2⟩
      intro other hother
      rcases List.eq_or_mem_of_mem_insertIdx hother with rfl | hother
      · exact Nat.not_lt.mp hlt
      · exact h.1 other hother

theorem addFloat_spec (hs : s.Kept) (w : WinHandle) (state : WindowState) (config : WinConfig)
    (cursor : CursorScreenPosition) :
    (∃ error, addFloat w state config cursor s = .error error s) ∨
      ∃ t, addFloat w state config cursor s = .ok () t ∧ t.Kept ∧ t.windows.Perm (w :: s.windows) := by
  rw [addFloat]
  by_cases hid : w = WinHandle.CURRENT
  · subst hid
    exact .inl ⟨_, rfl⟩
  rw [Layout.validateIdentity_ok.mpr hid, bind_ok (ofExcept_ok_run _ _), bind_ok (get_run s)]
  dsimp only
  have hrelative := s.freezeCursorAnchor_relative w config cursor
  generalize s.freezeCursorAnchor w config cursor = config at hrelative
  cases config.validate with
  | error error => exact .inl ⟨error, rfl⟩
  | ok _ =>
    rw [bind_ok (ofExcept_ok_run _ _)]
    by_cases hcontains : s.contains w = true
    · rw [if_pos hcontains]
      exact .inl ⟨_, rfl⟩
    · rw [if_neg hcontains]
      rw [contains_iff hid] at hcontains
      have hindex : (s.floats.findIdx? fun candidate =>
          decide (config.zindex < candidate.config.zindex)).getD s.floats.length ≤ s.floats.length := by
        cases hfind : s.floats.findIdx? fun candidate =>
            decide (config.zindex < candidate.config.zindex) with
        | none => exact Nat.le_refl _
        | some index =>
          exact Nat.le_of_lt (List.findIdx?_eq_some_iff_getElem.mp hfind).1
      have hperm := List.perm_insertIdx (⟨w, state, config⟩ : FloatingWindow) s.floats hindex
      have hwindows := (List.Perm.append_left s.layout.windows (hperm.map FloatingWindow.window)).trans
        List.perm_middle
      refine .inr ⟨_, rfl, hs.add hs.layout hwindows hid hcontains (insertIdx_sorted hs.sorted) ?_, hwindows⟩
      · intro float hfloat
        rcases List.mem_cons.mp (hperm.mem_iff.mp hfloat) with rfl | hold
        · exact hrelative
        · exact hs.frozen float hold

theorem removeFloat_spec (hs : s.Kept) (w : WinHandle) :
    (s.resolve w ∉ s.floats.map (·.window) ∧ ∃ error, removeFloat w s = .error error s) ∨
      ∃ removed t, removeFloat w s = .ok removed t ∧ t.Kept ∧ t.layout = s.layout ∧
        (s.floats.map (·.window)).Perm (s.resolve w :: t.floats.map (·.window)) := by
  rw [removeFloat, bind_ok (get_run s)]
  cases hindex : s.floatIndex (s.resolve w) with
  | none =>
    refine .inl ⟨?_, _, rfl⟩
    intro hmem
    obtain ⟨float, hfloat, hwindow⟩ := List.mem_map.mp hmem
    exact of_decide_eq_false (List.findIdx?_eq_none_iff.mp hindex float hfloat) hwindow
  | some index =>
    obtain ⟨hlt, hwindow⟩ := floatIndex_eq_some hindex
    dsimp only
    rw [List.getElem?_eq_getElem hlt]
    have hperm : s.floats.Perm (s.floats[index] :: s.floats.eraseIdx index) :=
      (List.getElem_cons_eraseIdx_perm hlt).symm
    have hmap := hperm.map FloatingWindow.window
    rw [List.map_cons, hwindow] at hmap
    have hwindows := (List.Perm.append_left s.layout.windows hmap).trans List.perm_middle
    refine .inr ⟨_, _, rfl, hs.forget hs.layout hwindows (hs.sorted.eraseIdx index) ?_,
      forget_layout _ _, ?_⟩
    · intro float hfloat
      exact hs.frozen float (List.mem_of_mem_eraseIdx hfloat)
    · rw [forget_floats]
      exact hmap

/-! ## The current window, splits and closes -/

theorem setCurrent_spec (hs : s.Kept) (w : WinHandle) :
    (s.resolve w ∉ s.windows ∧ ∃ error, setCurrent w s = .error error s) ∨
      ∃ layout, layout.windows = s.layout.windows ∧
        setCurrent w s = .ok () (enter { s with layout } (s.resolve w)) ∧
        Kept (enter { s with layout } (s.resolve w)) := by
  rw [setCurrent, bind_ok (get_run s)]
  have hresolve := layout_resolve_eq (s := s) (hs.resolve_ne w)
  by_cases hfloat : s.floats.any (·.window = s.resolve w) = true
  · rw [if_pos hfloat]
    refine .inr ⟨s.layout, rfl, rfl, hs.enter ?_⟩
    rw [mem_windows]
    right
    simpa using hfloat
  · rw [if_neg hfloat]
    rcases Layout.setCurrent_spec (w := s.resolve w) hs.layout with
      ⟨hmem, error, hop⟩ | ⟨hmem, hop, hsound⟩
    · refine .inl ⟨?_, error, bind_error (onLayout_error hop)⟩
      rw [hresolve] at hmem
      rw [mem_windows, not_or]
      refine ⟨hmem, ?_⟩
      simpa using hfloat
    · rw [hresolve] at hmem hop hsound
      refine .inr ⟨{ s.layout with current := s.resolve w }, rfl, bind_ok (onLayout_ok hop),
        Kept.enter (hs.withLayout hsound rfl) ?_⟩
      exact mem_windows.mpr (.inl hmem)

theorem closeTiled_spec (hs : s.Kept) (w : WinHandle) :
    ((s.resolve w ∉ s.layout.windows ∨ s.layout.windows.length = 1) ∧
      ∃ error, closeTiled w s = .error error s) ∨
      ∃ removed t, closeTiled w s = .ok removed t ∧ t.Kept ∧ t.floats = s.floats ∧
        s.layout.windows.Perm (s.resolve w :: t.layout.windows) := by
  rw [closeTiled, bind_ok (get_run s)]
  rcases Layout.close_spec hs.layout (s.resolve w) with
    ⟨hwhy, error, hop⟩ | ⟨l, root, replacement, hl, hremoved, -, hop, hsound⟩
  · rw [layout_resolve_eq (hs.resolve_ne w)] at hwhy
    exact .inl ⟨hwhy, error, bind_error (onLayout_error hop)⟩
  · have hresolve := layout_resolve_eq (s := s) (hs.resolve_ne w)
    have hin := hremoved.inhabited hs.layout.populated
    have htiled : (Frame.assignFrameGeometry root.collapseContainers
        s.layout.root.geometry).collectWindows = root.collectWindows :=
      (Frame.collectWindows_eq_of_blank (Frame.blank_assignFrameGeometry _ _)).trans
        (Frame.collectWindows_collapseContainers hin)
    have hperm := hremoved.windows_perm
    rw [hl, hresolve] at hperm
    rw [← htiled] at hperm
    refine .inr ⟨_, _, (bind_ok (onLayout_ok hop)).trans (bind_ok (modify_run _ _)),
      hs.forget hsound (hperm.append_right _) hs.sorted hs.frozen, forget_floats _ _, ?_⟩
    rw [forget_layout]
    exact hperm

/-- The split passes the checks of the tabpage and of the layout, and there is no room. -/
def Cramped (s : TabpageState) (target window : WinHandle) (axis : SplitAxis) : Prop :=
  window ∉ s.windows ∧ s.layout.Cramped (s.resolve target) window axis

theorem splitWith_spec (hs : s.Kept) (axis : SplitAxis) (placement : SplitPlacement)
    (target window : WinHandle) (state : WindowState) (enter : Bool) :
    (¬s.Cramped target window axis ∧
      ((∃ error, splitWith (Layout.splitPlaced · · · axis placement ·) target window state enter s
          = .error error s) ∨
        ∃ t, splitWith (Layout.splitPlaced · · · axis placement ·) target window state enter s
          = .ok () t ∧ t.Kept ∧ t.floats = s.floats ∧
          t.layout.windows.Perm (window :: s.layout.windows))) ∨
      s.Cramped target window axis ∧ ∃ error root,
        splitWith (Layout.splitPlaced · · · axis placement ·) target window state enter s
          = .error error { s with layout := { s.layout with root } } ∧
          root.collectWindows.Perm (window :: s.layout.windows) := by
  rw [splitWith]
  by_cases hid : window = WinHandle.CURRENT
  · subst hid
    refine .inl ⟨?_, .inl ⟨_, rfl⟩⟩
    intro hc
    exact hc.2.1.1 rfl
  rw [Layout.validateIdentity_ok.mpr hid, bind_ok (ofExcept_ok_run _ _), bind_ok (get_run s)]
  by_cases hcontains : s.contains window = true
  · rw [if_pos hcontains]
    refine .inl ⟨?_, .inl ⟨_, rfl⟩⟩
    intro hc
    exact hc.1 ((contains_iff hid).mp hcontains)
  rw [if_neg hcontains]
  rw [contains_iff hid] at hcontains
  by_cases hready : s.layout.Splittable (s.resolve target) window axis
  · by_cases hroom : Frame.RoomToSplit (s.layout.resolve (s.resolve target)) axis s.layout.root
        s.layout.root.geometry.extent
    · refine .inl ⟨fun hc => hc.2.2 hroom, .inr ?_⟩
      obtain ⟨new, root, hnew, hgraft, hop, hsound⟩ :=
        Layout.splitPlaced_room placement state enter hs.layout hready hroom
      have htiled : (Frame.assignFrameGeometry root s.layout.root.geometry).collectWindows
          = root.collectWindows :=
        Frame.collectWindows_eq_of_blank (Frame.blank_assignFrameGeometry _ _)
      have hperm := hgraft.windows_perm
      rw [hnew, ← htiled] at hperm
      have hadd := @Kept.add s window _ s.floats hs hsound (hperm.append_right _) hid hcontains hs.sorted
        hs.frozen
      rw [bind_ok (onLayout_ok hop), bind_ok (modify_run _ _)]
      cases enter with
      | false => exact ⟨_, rfl, hadd, rfl, hperm⟩
      | true =>
        have hne : s.current ≠ window := by
          rintro rfl
          exact hcontains hs.current
        have henter := hadd.enter (mem_windows.mpr (.inl (hperm.mem_iff.mpr List.mem_cons_self)))
        rw [TabpageState.enter, if_pos hne] at henter
        exact ⟨_, rfl, henter, rfl, hperm⟩
    · refine .inr ⟨⟨hcontains, hready, hroom⟩, ?_⟩
      obtain ⟨error, root, hop, hperm⟩ :=
        Layout.splitPlaced_cramped placement state enter ⟨hready, hroom⟩
      exact ⟨error, root, bind_error (onLayout_error hop), hperm⟩
  · refine .inl ⟨fun hc => hready hc.2.1, .inl ?_⟩
    obtain ⟨error, hop⟩ := Layout.splitPlaced_refused placement state enter hready
    exact ⟨error, bind_error (onLayout_error hop)⟩

end Oxvim.Editor.TabpageState
