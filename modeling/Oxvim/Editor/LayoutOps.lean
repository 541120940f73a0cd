import Oxvim.Editor.LayoutRoom

/-!
# The operations of the layout

`Sound` is the invariant of a layout: its tree is populated, laid out and roomy, its handles are
distinct and the current window is among them. For each operation, what it does to a sound layout. All
of them either fail and leave the layout alone or lead to a sound one, except for a split that has put
its leaf into the tree before the equalization finds no room.
-/

namespace Oxvim.Editor

open Lib EState

namespace Layout

open Oxvim.Editor.Frame (findLeaf Grafted Removed RoomToSplit assignFrameGeometry)

variable {s : Layout} {w target window : WinHandle} {g : Geometry} {axis : SplitAxis}
  {state : WindowState}

/-- What the operations keep. -/
structure Sound (s : Layout) : Prop where
  valid : s.root.geometry.Valid
  roomy : s.root.Roomy s.root.geometry.extent
  populated : s.root.Populated
  laid : s.root.Laid
  nodup : s.windows.Nodup
  identity : WinHandle.CURRENT ∉ s.windows
  current : s.current ∈ s.windows

theorem validateIdentity_ok : validateIdentity w = .ok () ↔ w ≠ WinHandle.CURRENT := by
  rw [validateIdentity, WinHandle.isCurrent]
  grind

theorem new_eq (h : Layout.new w state g = .ok s) : w ≠ WinHandle.CURRENT ∧ g.Valid ∧
    s = { root := .leaf { window := w, state, geometry := g }, current := w } := by
  rw [Layout.new] at h
  cases hid : validateIdentity w with
  | error e =>
    rw [hid] at h
    cases h
  | ok _ =>
    cases hg : validateGeometry g with
    | error e =>
      rw [hid, hg] at h
      cases h
    | ok _ =>
      rw [hid, hg] at h
      exact ⟨validateIdentity_ok.mp hid, validateGeometry_ok.mp hg, (Except.ok.inj h).symm⟩

theorem new_sound (h : Layout.new w state g = .ok s) : s.Sound := by
  obtain ⟨hid, hvalid, rfl⟩ := new_eq h
  refine ⟨hvalid, .leaf hvalid.cell, .leaf _, .leaf _, ?_, ?_, ?_⟩
  · simp [windows]
  · simpa [windows, eq_comm] using hid
  · simp [windows]

theorem Sound.resolve_eq (hs : s.Sound) (h : w ∈ s.windows) : s.resolve w = w := by
  rw [resolve, if_neg]
  rw [WinHandle.isCurrent, beq_iff_eq]
  rintro rfl
  exact hs.identity h

/-! ## Equalization -/

theorem equalizeRoot_ok (hg : g.Valid) (hr : s.root.Roomy g.extent) :
    equalizeRoot g s = .ok () { s with root := assignFrameGeometry s.root g } := by
  rw [equalizeRoot]
  apply zoom_ok
  rw [Frame.equalizeFrame, bind_ok (get_run _), (Frame.validateFrameGeometry_ok _ _).mpr ⟨hg, hr⟩]
  rfl

theorem equalizeRoot_error (h : ¬(g.Valid ∧ s.root.Roomy g.extent)) :
    ∃ error, equalizeRoot g s = .error error s := by
  cases hcheck : Frame.validateFrameGeometry s.root g with
  | ok _ => exact absurd ((Frame.validateFrameGeometry_ok _ _).mp hcheck) h
  | error error =>
    refine ⟨error, ?_⟩
    have hframe : Frame.equalizeFrame g s.root = .error error s.root := by
      rw [Frame.equalizeFrame, bind_ok (get_run _), hcheck]
      rfl
    exact zoom_error hframe

/-- A tree of the same shape, equalized. -/
theorem Sound.assign {root : Frame} {current : WinHandle} (hg : g.Valid) (hroomy : root.Roomy g.extent)
    (hpop : root.Populated) (hnodup : root.collectWindows.Nodup)
    (hid : WinHandle.CURRENT ∉ root.collectWindows) (hcurrent : current ∈ root.collectWindows) :
    Sound { root := assignFrameGeometry root g, current } := by
  have hblank := Frame.blank_assignFrameGeometry root g
  have hwindows := Frame.collectWindows_eq_of_blank hblank
  refine ⟨?_, ?_, Frame.populated_of_blank hblank.symm hpop, Frame.assignFrameGeometry_laid g hroomy,
    ?_, ?_, ?_⟩
  · rw [Frame.geometry_assignFrameGeometry]
    exact hg
  · rw [Frame.geometry_assignFrameGeometry]
    exact Frame.roomy_of_blank hblank.symm hroomy
  · rwa [windows, hwindows]
  · rwa [windows, hwindows]
  · rwa [windows, hwindows]

theorem resize_spec (hs : s.Sound) :
    (∃ error, resize g s = .error error s) ∨ ∃ t, resize g s = .ok () t ∧ t.Sound ∧
      t.windows = s.windows ∧ t.current = s.current := by
  rw [resize]
  by_cases h : g.Valid ∧ s.root.Roomy g.extent
  · refine .inr ⟨_, equalizeRoot_ok h.1 h.2,
      .assign h.1 h.2 hs.populated hs.nodup hs.identity hs.current, ?_, rfl⟩
    exact Frame.collectWindows_eq_of_blank (Frame.blank_assignFrameGeometry s.root g)
  · exact .inl (equalizeRoot_error h)

theorem equalize_spec (hs : s.Sound) : ∃ t, equalize s = .ok () t ∧ t.Sound ∧
    t.windows = s.windows ∧ t.current = s.current := by
  rw [equalize, bind_ok (get_run s)]
  refine ⟨_, equalizeRoot_ok hs.valid hs.roomy,
    .assign hs.valid hs.roomy hs.populated hs.nodup hs.identity hs.current, ?_, rfl⟩
  exact Frame.collectWindows_eq_of_blank (Frame.blank_assignFrameGeometry s.root _)

theorem setCurrent_spec (hs : s.Sound) :
    (s.resolve w ∉ s.windows ∧ ∃ error, setCurrent w s = .error error s) ∨
      s.resolve w ∈ s.windows ∧ setCurrent w s = .ok () { s with current := s.resolve w } ∧
        Sound { s with current := s.resolve w } := by
  rw [setCurrent, bind_ok (get_run s)]
  by_cases hfind : (findLeaf (s.resolve w) s.root).isNone
  · rw [if_pos hfind]
    refine .inl ⟨?_, _, rfl⟩
    intro hmem
    have hsome := Frame.findLeaf_isSome.mpr hmem
    rw [Option.isNone_iff_eq_none.mp hfind] at hsome
    cases hsome
  · rw [if_neg hfind]
    have hmem : s.resolve w ∈ s.windows := by
      rw [Bool.not_eq_true, Option.isNone_eq_false_iff] at hfind
      exact Frame.findLeaf_isSome.mp hfind
    refine .inr ⟨hmem, rfl, ?_⟩
    exact { hs with current := hmem }

/-! ## Splits -/

/-- What a split checks before it changes the tree: the new handle is a new one, and the target is a
window with two cells along the axis. -/
def Splittable (s : Layout) (target window : WinHandle) (axis : SplitAxis) : Prop :=
  window ≠ WinHandle.CURRENT ∧ window ∉ s.windows ∧
    ∃ old, findLeaf (s.resolve target) s.root = some old ∧ 2 ≤ old.geometry.extent axis

/-- The split has passed its checks, and the equalization is to find no room. -/
def Cramped (s : Layout) (target window : WinHandle) (axis : SplitAxis) : Prop :=
  s.Splittable target window axis ∧
    ¬RoomToSplit (s.resolve target) axis s.root s.root.geometry.extent

/-- A split that has passed its checks grafts the new leaf, and then equalizes. -/
theorem splitPlaced_graft (placement : SplitPlacement) (state : WindowState) (enter : Bool)
    (h : s.Splittable target window axis) :
    ∃ new root, new.window = window ∧ Grafted (s.resolve target) new axis placement s.root root ∧
      splitPlaced target window state axis placement enter s
        = (equalizeRoot s.root.geometry >>= fun _ =>
            if enter then modify fun self : Layout => { self with current := window } else pure ())
          { s with root } := by
  obtain ⟨hid, hnew, old, hfind, htwo⟩ := h
  have hmem : s.resolve target ∈ s.root.collectWindows := Frame.findLeaf_isSome.mp (by simp [hfind])
  obtain ⟨root, hgraft, hcode⟩ := Frame.exists_grafted
    { window, state, geometry := old.geometry } axis placement s.root hmem
  refine ⟨_, root, rfl, hgraft, ?_⟩
  have hfresh : (findLeaf window s.root).isSome = false := by
    rw [← Bool.not_eq_true, Frame.findLeaf_isSome]
    exact hnew
  have hgeometry : root.geometry = s.root.geometry := hgraft.geometry_eq
  rw [splitPlaced, validateIdentity_ok.mpr hid, bind_ok (ofExcept_ok_run _ _), bind_ok (get_run s),
    hfresh, if_neg Bool.false_ne_true]
  dsimp only
  rw [hfind]
  dsimp only
  rw [if_neg (Nat.not_lt.mpr htwo)]
  rcases hcode with hinsert | ⟨hinsert, old', hold', hreplace⟩
  · rw [hinsert]
    dsimp only
    rw [bind_ok (set_run _ _), bind_ok (get_run _), hgeometry]
  · obtain rfl : old = old' := by
      rw [hfind] at hold'
      exact Option.some.inj hold'
    rw [hinsert]
    dsimp only
    rw [hreplace, Option.getD_some, bind_ok (set_run _ _), bind_ok (get_run _), hgeometry]

/-- A split that fails its checks changes nothing. -/
theorem splitPlaced_refused (placement : SplitPlacement) (state : WindowState) (enter : Bool)
    (h : ¬s.Splittable target window axis) :
    ∃ error, splitPlaced target window state axis placement enter s = .error error s := by
  rw [splitPlaced]
  by_cases hid : window = WinHandle.CURRENT
  · subst hid
    exact ⟨_, rfl⟩
  rw [validateIdentity_ok.mpr hid, bind_ok (ofExcept_ok_run _ _), bind_ok (get_run s)]
  by_cases hnew : (findLeaf window s.root).isSome
  · rw [if_pos hnew]
    exact ⟨_, rfl⟩
  rw [if_neg hnew]
  rw [Frame.findLeaf_isSome] at hnew
  dsimp only
  cases hfind : findLeaf (s.resolve target) s.root with
  | none => exact ⟨_, rfl⟩
  | some old =>
    dsimp only
    by_cases htwo : old.geometry.extent axis < 2
    · rw [if_pos htwo]
      exact ⟨_, rfl⟩
    · exact absurd ⟨hid, hnew, old, hfind, Nat.not_lt.mp htwo⟩ h

/-- A split with room for the new leaf. -/
theorem splitPlaced_room (placement : SplitPlacement) (state : WindowState) (enter : Bool)
    (hs : s.Sound) (h : s.Splittable target window axis)
    (hroom : RoomToSplit (s.resolve target) axis s.root s.root.geometry.extent) :
    ∃ new root, new.window = window ∧ Grafted (s.resolve target) new axis placement s.root root ∧
      splitPlaced target window state axis placement enter s
        = .ok () { root := assignFrameGeometry root s.root.geometry,
                   current := if enter then window else s.current } ∧
      Sound { root := assignFrameGeometry root s.root.geometry,
              current := if enter then window else s.current } := by
  obtain ⟨new, root, hnew, hgraft, hrun⟩ :=
    splitPlaced_graft placement state enter h
  have hroomy := hgraft.roomy_iff.mpr hroom
  have hperm := hgraft.windows_perm
  rw [hnew] at hperm
  refine ⟨new, root, hnew, hgraft, ?_, ?_⟩
  · rw [hrun, bind_ok (equalizeRoot_ok hs.valid hroomy)]
    cases enter with
    | false => rfl
    | true => rfl
  · refine .assign hs.valid hroomy (hgraft.populated hs.populated) ?_ ?_ ?_
    · rw [hperm.nodup_iff, List.nodup_cons]
      exact ⟨h.2.1, hs.nodup⟩
    · rw [hperm.mem_iff, List.mem_cons, not_or]
      exact ⟨h.1.symm, hs.identity⟩
    · rw [hperm.mem_iff]
      split
      · exact List.mem_cons_self
      · exact List.mem_cons_of_mem _ hs.current

/-- A split without room fails with the new leaf in the tree. -/
theorem splitPlaced_cramped (placement : SplitPlacement) (state : WindowState) (enter : Bool)
    (h : s.Cramped target window axis) :
    ∃ error root, splitPlaced target window state axis placement enter s
        = .error error { s with root } ∧ root.collectWindows.Perm (window :: s.windows) := by
  obtain ⟨new, root, hnew, hgraft, hrun⟩ :=
    splitPlaced_graft placement state enter h.1
  obtain ⟨error, herror⟩ := equalizeRoot_error (g := s.root.geometry) (s := { s with root })
    fun hok => h.2 (hgraft.roomy_iff.mp hok.2)
  have hperm := hgraft.windows_perm
  rw [hnew] at hperm
  exact ⟨error, root, by rw [hrun, bind_error herror], hperm⟩

/-! ## Close -/

theorem replacementCurrent_mem {order : List WinHandle} {index : Nat} {replacement : WinHandle}
    (h : replacementCurrent order index = some replacement) : replacement ∈ order.eraseIdx index := by
  have hmem := List.mem_of_head? h
  rw [List.mem_append, List.mem_reverse] at hmem
  rw [List.eraseIdx_eq_take_drop_succ, List.mem_append]
  exact hmem.symm

theorem replacementCurrent_isSome {order : List WinHandle} {index : Nat} (hlt : index < order.length)
    (htwo : order.length ≠ 1) : (replacementCurrent order index).isSome := by
  rw [replacementCurrent, List.isSome_head?, ne_eq, ← List.length_eq_zero_iff, List.length_append,
    List.length_drop, List.length_reverse, List.length_take]
  omega

/-- A close fails and changes nothing, for a window that is not there or the only one, or takes the
window out. -/
theorem close_spec (hs : s.Sound) (w : WinHandle) :
    ((s.resolve w ∉ s.windows ∨ s.windows.length = 1) ∧ ∃ error, close w s = .error error s) ∨
      ∃ l root replacement, l.window = s.resolve w ∧ Removed l s.root root ∧
        replacementCurrent s.windows (s.windows.idxOf (s.resolve w)) = some replacement ∧
        close w s = .ok l.state
          { root := assignFrameGeometry root.collapseContainers s.root.geometry,
            current := if s.current = s.resolve w then replacement else s.current } ∧
        Sound { root := assignFrameGeometry root.collapseContainers s.root.geometry,
                current := if s.current = s.resolve w then replacement else s.current } := by
  rw [close, bind_ok (get_run s)]
  dsimp only
  cases hidx : s.windows.findIdx? (fun w' => decide (w' = s.resolve w)) with
  | none =>
    refine .inl ⟨.inl ?_, _, rfl⟩
    intro hmem
    exact of_decide_eq_false (List.findIdx?_eq_none_iff.mp hidx _ hmem) rfl
  | some index =>
    obtain ⟨hlt, hat, hfirst⟩ := List.findIdx?_eq_some_iff_getElem.mp hidx
    rw [decide_eq_true_eq] at hat
    dsimp only
    by_cases hone : s.windows.length = 1
    · rw [if_pos hone]
      exact .inl ⟨.inr hone, _, rfl⟩
    rw [if_neg hone]
    obtain ⟨replacement, hrep⟩ := Option.isSome_iff_exists.mp (replacementCurrent_isSome hlt hone)
    have hindex : s.windows.idxOf (s.resolve w) = index := by
      rw [← hat]
      exact hs.nodup.idxOf_getElem index hlt
    rw [hrep]
    dsimp only
    cases hremove : Frame.removeLeaf (s.resolve w) s.root with
    | none =>
      have hbranch : ∀ l, s.root ≠ .leaf l := by
        intro l hl
        apply hone
        rw [windows, hl, Frame.collectWindows_leaf]
        rfl
      have hmem : s.resolve w ∈ s.root.collectWindows := hat ▸ List.getElem_mem hlt
      have hsome := Frame.removeLeaf_isSome hbranch hmem
      rw [hremove] at hsome
      cases hsome
    | some r =>
      right
      obtain ⟨l, root⟩ := r
      obtain ⟨hl, hremoved⟩ := Frame.removeLeaf_some hremove
      have hin := hremoved.inhabited hs.populated
      have hroomy : root.collapseContainers.Roomy s.root.geometry.extent :=
        Frame.collapseContainers_roomy hin (hremoved.roomy hs.populated hs.roomy)
      have hwindows := Frame.collectWindows_collapseContainers hin
      have hperm : s.windows.Perm (s.resolve w :: root.collapseContainers.collectWindows) := by
        rw [hwindows, ← hl]
        exact hremoved.windows_perm
      have hnodup := hperm.nodup_iff.mp hs.nodup
      rw [List.nodup_cons] at hnodup
      have hrest : ∀ w' ∈ s.windows, w' ≠ s.resolve w →
          w' ∈ root.collapseContainers.collectWindows := by
        intro w' hw' hne
        exact (List.mem_cons.mp (hperm.mem_iff.mp hw')).resolve_left hne
      refine ⟨l, root, replacement, hl, hremoved, by rw [hindex, hrep], ?_, ?_⟩
      · dsimp only
        rw [bind_ok (set_run _ _), bind_ok (equalizeRoot_ok hs.valid hroomy),
          bind_ok (modify_run _ _), pure_run]
        dsimp only
        split
        · rfl
        · rfl
      · refine .assign hs.valid hroomy (Frame.collapseContainers_populated hin) hnodup.2 ?_ ?_
        · intro hmem
          exact hs.identity (hperm.mem_iff.mpr (List.mem_cons_of_mem _ hmem))
        · split
          · -- the replacement is another window of the old order
            have hmem := replacementCurrent_mem hrep
            apply hrest replacement (List.mem_of_mem_eraseIdx hmem)
            intro hsame
            obtain ⟨i, hi, hne, hget⟩ := List.mem_eraseIdx_iff_getElem.mp hmem
            rw [hsame, ← hat] at hget
            exact hne (hs.nodup.getElem_inj_iff.mp hget)
          · next hne => exact hrest _ hs.current hne

/-! ## Resizing one window -/

theorem setWindowExtent_spec (hs : s.Sound) (w : WinHandle) (extent : Nat) (axis : SplitAxis) :
    (∃ error, setWindowExtent w extent axis s = .error error s) ∨
      ∃ t, setWindowExtent w extent axis s = .ok () t ∧ t.Sound ∧ t.windows = s.windows ∧
        t.current = s.current := by
  rw [setWindowExtent, bind_ok (get_run s)]
  dsimp only
  cases hgeometry : s.windowGeometry (s.resolve w) with
  | error error => exact .inl ⟨error, rfl⟩
  | ok geometry =>
    rw [bind_ok (ofExcept_ok_run _ _)]
    split
    · exact .inl ⟨_, rfl⟩
    split
    · exact .inr ⟨s, rfl, hs, rfl, rfl⟩
    · have hr := Frame.resizeWindowExtent_spec (s.resolve w) extent axis s.root hs.laid hs.populated
        hs.valid
      generalize Frame.resizeWindowExtent (s.resolve w) extent axis s.root = r at hr
      obtain ⟨result, root⟩ := r
      dsimp only
      rw [bind_ok (set_run _ _)]
      cases result with
      | error error =>
        obtain rfl : root = s.root := hr.unchanged error rfl
        exact .inl ⟨error, rfl⟩
      | ok _ =>
        have hwindows : root.collectWindows = s.windows :=
          Frame.collectWindows_eq_of_blank hr.blank
        have hsame : root.geometry = s.root.geometry := hr.geometry
        refine .inr ⟨{ s with root }, rfl, ⟨?_, ?_, ?_, hr.laid, ?_, ?_, ?_⟩, hwindows, rfl⟩
        · rw [hsame]
          exact hs.valid
        · rw [hsame]
          exact Frame.roomy_of_blank hr.blank.symm hs.roomy
        · exact Frame.populated_of_blank hr.blank.symm hs.populated
        · rw [windows, hwindows]
          exact hs.nodup
        · rw [windows, hwindows]
          exact hs.identity
        · rw [windows, hwindows]
          exact hs.current

end Layout

end Oxvim.Editor
