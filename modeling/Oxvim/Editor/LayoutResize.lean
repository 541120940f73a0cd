import Oxvim.Editor.LayoutRuns

/-!
# Resizing one window

A resize is done in the outermost container along the axis around the window: the child with the
window gets the requested extent, as far as the minimum extents of its siblings and its own allow,
and what is left is divided among the siblings. Below that every container divides its extent
equally. So the window itself gets the extent where it spans the child (`Spans`), and the resize
succeeds where every child has room to be divided.

In a laid frame nobody has less than the minimum, so the minimum extents always fit.
-/

namespace Oxvim.Editor

open Lib EState

namespace Frame

variable {f target : Frame} {before after children : List Frame} {g : Geometry}
  {axis own : SplitAxis} {w : WinHandle}

/-! ## Minimum extents -/

theorem minimumTotal_le (children : List Frame) (total : Nat) :
    minimumTotal axis total children ≤ total + minimumSum axis children := by
  induction children generalizing total with
  | nil => exact Nat.le_refl _
  | cons child children ih =>
    have hrest := ih (satAdd total (minimumExtent axis child))
    have hsat : satAdd total (minimumExtent axis child) ≤ total + minimumExtent axis child :=
      Nat.min_le_left ..
    rw [minimumTotal]
    simp only [minimumSum, List.map_cons, List.sum_cons] at hrest ⊢
    omega

theorem minimumMax_le {n : Nat} (children : List Frame) {minimum : Nat} (hminimum : minimum ≤ n)
    (h : ∀ child ∈ children, minimumExtent axis child ≤ n) :
    minimumMax axis minimum children ≤ n := by
  induction children generalizing minimum with
  | nil => exact hminimum
  | cons child children ih =>
    rw [minimumMax]
    exact ih (Nat.max_le.mpr ⟨hminimum, h child (by simp)⟩) fun c hc => h c (by simp [hc])

theorem minimumSum_le {extent : Frame → Nat}
    (h : ∀ child ∈ children, minimumExtent axis child ≤ extent child) :
    minimumSum axis children ≤ (children.map extent).sum :=
  List.sum_le_sum h

/-- A laid frame has its minimum extent. -/
theorem Laid.minimumExtent_le (hlaid : f.Laid) (hg : f.geometry.Valid) (axis : SplitAxis) :
    minimumExtent axis f ≤ f.geometry.extent axis := by
  induction f with
  | leaf l => exact hg.cell axis
  | container own g children ih =>
    obtain ⟨hstacks, hlaids⟩ := every_container.mp hlaid
    have hchildren : ∀ child ∈ children, minimumExtent axis child ≤ child.geometry.extent axis :=
      fun child hc => ih child hc (hlaids child hc) (hstacks.valid hg child hc)
    rw [minimumExtent]
    split
    · next hown =>
      subst hown
      have hsum := hstacks.sum
      have htotal : minimumTotal own 0 children ≤ 0 + minimumSum own children :=
        minimumTotal_le children 0
      have hle := minimumSum_le hchildren
      show _ ≤ g.extent own
      omega
    · next hown =>
      refine minimumMax_le children (hg.cell axis) fun child hc => ?_
      rw [show (container own g children).geometry.extent axis = child.geometry.extent axis from
        (hstacks.across child hc axis (Ne.symm hown)).symm]
      exact hchildren child hc

/-! ## Around a window -/

/-- `target` is the child with the window of the outermost container along `axis` around it;
`before` and `after` are its siblings. -/
inductive Outermost (w : WinHandle) (axis : SplitAxis) :
    Frame → Geometry → List Frame → Frame → List Frame → Prop
  | here {g : Geometry} {before after : List Frame} {target : Frame}
      (first : FirstWith w before target) :
      Outermost w axis (container axis g (before ++ target :: after)) g before target after
  | inside {own : SplitAxis} {g g' : Geometry} {outer others before after : List Frame}
      {child target : Frame} (across : own ≠ axis) (first : FirstWith w outer child)
      (inner : Outermost w axis child g before target after) :
      Outermost w axis (container own g' (outer ++ child :: others)) g before target after

/-- No container between the frame and the window in it divides the axis. -/
inductive Spans (w : WinHandle) (axis : SplitAxis) : Frame → Prop
  | leaf {l : LeafFrame} (window : l.window = w) : Spans w axis (leaf l)
  | container {own : SplitAxis} {g : Geometry} {outer others : List Frame} {child : Frame}
      (across : own ≠ axis) (first : FirstWith w outer child) (inner : Spans w axis child) :
      Spans w axis (container own g (outer ++ child :: others))

theorem FirstWith.findIdx? (h : FirstWith w before target) :
    ((before ++ target :: after).findIdx? fun child => (findLeaf w child).isSome)
      = some before.length := by
  rw [List.findIdx?_append, List.findIdx?_cons, if_pos (findLeaf_isSome.mpr h.mem)]
  have hnone : (before.findIdx? fun child => (findLeaf w child).isSome) = none := by
    rw [List.findIdx?_eq_none_iff]
    intro child hc
    rw [Bool.eq_false_iff]
    exact fun hsome => h.skip child hc (findLeaf_isSome.mp hsome)
  rw [hnone]
  simp

/-- Geometry does not matter to where a window is. -/
theorem FirstWith.of_blank {before' : List Frame} {target' : Frame} (h : FirstWith w before target)
    (hbefore : before'.map blank = before.map blank) (htarget : target'.blank = target.blank) :
    FirstWith w before' target' := by
  refine ⟨fun b hb => ?_, ?_⟩
  · obtain ⟨c, hc, hblank⟩ : ∃ c ∈ before, c.blank = b.blank := by
      have hmem : b.blank ∈ before.map blank := hbefore ▸ List.mem_map_of_mem hb
      exact List.mem_map.mp hmem
    rw [← collectWindows_eq_of_blank hblank]
    exact h.skip c hc
  · rw [collectWindows_eq_of_blank htarget]
    exact h.mem

/-- Placing children around one. -/
theorem placed_around (extent : Nat → Nat) (before after : List Frame) (child : Frame)
    (index start : Nat) :
    ∃ before' start' after', placed g axis extent (before ++ child :: after) index start
        = before' ++ assignFrameGeometry child
            (g.slice axis start' (extent (index + before.length))) :: after' ∧
      before'.map blank = before.map blank := by
  induction before generalizing index start with
  | nil => exact ⟨[], start, _, rfl, rfl⟩
  | cons b before ih =>
    obtain ⟨before', start', after', heq, hblank⟩ := ih (index + 1) (start + extent index)
    refine ⟨assignFrameGeometry b (g.slice axis start (extent index)) :: before', start', after',
      ?_, ?_⟩
    · rw [List.cons_append, placed, heq, List.length_cons, Nat.add_assoc index, Nat.add_comm 1]
      rfl
    · rw [List.map_cons, List.map_cons, hblank, blank_assignFrameGeometry]

/-- A window that spans a frame has the extent of the frame, also once the frame has a new
rectangle. -/
theorem Spans.findLeaf_assign (h : Spans w axis f) (g : Geometry) :
    ∃ l, findLeaf w (assignFrameGeometry f g) = some l ∧
      l.geometry.extent axis = g.extent axis := by
  induction h generalizing g with
  | @leaf l window => exact ⟨{ l with geometry := g }, if_pos window, rfl⟩
  | @container own g' outer others child across first inner ih =>
    rw [assignFrameGeometry_container]
    obtain ⟨outer', start', others', hplaced, hblank⟩ := placed_around (g := g)
      (share (g.extent own) (outer ++ child :: others).length) outer others child 0 0
    rw [hplaced, findLeaf, findLeafIn_firstWith
      (first.of_blank hblank (blank_assignFrameGeometry child _))]
    obtain ⟨l, hl, hextent⟩ := ih (g.slice own start' (share (g.extent own)
      (outer ++ child :: others).length (0 + outer.length)))
    refine ⟨l, hl, hextent.trans ?_⟩
    rw [Geometry.extent_slice, Function.update_of_ne across.symm]

/-! ## The resize -/

theorem foldlM_checkedAdd_some {ns : List Nat} {start : Nat} (h : start + ns.sum ≤ usizeMax) :
    ns.foldlM checkedAdd start = some (start + ns.sum) := by
  induction ns generalizing start with
  | nil => rfl
  | cons n ns ih =>
    rw [List.sum_cons, ← Nat.add_assoc] at h
    rw [List.foldlM_cons, checkedAdd_eq (Nat.le_of_add_right_le h), List.sum_cons, ← Nat.add_assoc]
    exact ih h

/-- In stacked children the minimum extents fit. -/
theorem minimum_fits {targetIndex : Nat} (hg : g.Valid) (hstacks : Stacks g axis 0 children)
    (hlaids : ∀ child ∈ children, child.Laid) (htarget : children[targetIndex]? = some target) :
    minimumExtent axis target + minimumSum axis (children.eraseIdx targetIndex)
      ≤ g.extent axis := by
  obtain ⟨hlt, rfl⟩ := List.getElem?_eq_some_iff.mp htarget
  have hsum : minimumSum axis children
      ≤ (children.map fun child => child.geometry.extent axis).sum :=
    minimumSum_le fun child hc =>
      Laid.minimumExtent_le (hlaids child hc) (hstacks.valid hg child hc) axis
  have htotal := hstacks.sum
  have hperm : minimumSum axis children = minimumExtent axis children[targetIndex]
      + minimumSum axis (children.eraseIdx targetIndex) := by
    rw [minimumSum, ((List.getElem_cons_eraseIdx_perm hlt).symm.map (minimumExtent axis)).sum_eq]
    rfl
  omega

theorem getElem?_around (before after : List Frame) (target : Frame) :
    (before ++ target :: after)[before.length]? = some target := by
  rw [List.getElem?_append_right (Nat.le_refl _), Nat.sub_self]
  rfl

theorem set_around (before after : List Frame) (target target' : Frame) :
    (before ++ target :: after).set before.length target' = before ++ target' :: after := by
  rw [List.set_append, if_neg (Nat.lt_irrefl _), Nat.sub_self]
  rfl

/-- The target gets what it is granted. -/
theorem resizedExtents_target (requested : Nat) :
    resizedExtents g axis requested before.length target (before ++ target :: after) before.length
      = grantedExtent g axis requested before.length target (before ++ target :: after) := by
  rw [resizedExtents, getElem?_around, Option.elim_some, resizedExtent]
  exact if_pos rfl

/-- A resize is done in the outermost container along the axis, where the children have room to be
divided. A window that spans its child gets what the child is granted. -/
theorem Outermost.resize (h : Outermost w axis f g before target after) (requested : Nat)
    (hlaid : f.Laid) (hpop : f.Populated) (hg : f.geometry.Valid)
    (hroom : RoomToResize g axis requested before.length target (before ++ target :: after)) :
    ∃ f', resizeWindowExtent w requested axis f = (.ok true, f') ∧ f'.blank = f.blank ∧
      (Spans w axis target → ∃ l, findLeaf w f' = some l ∧ l.geometry.extent axis
        = grantedExtent g axis requested before.length target (before ++ target :: after)) := by
  induction h with
  | @here g before after target first =>
    have hg : g.Valid := hg
    obtain ⟨hstacks, hlaids⟩ := every_container.mp hlaid
    obtain ⟨htwo, -⟩ := every_container.mp hpop
    have htarget := getElem?_around before after target
    have htotal := minimum_fits hg hstacks hlaids htarget
    have hmax : 0 + minimumSum axis ((before ++ target :: after).eraseIdx before.length)
        ≤ usizeMax := by
      have hle := hg.extent_le axis
      omega
    have hsum := foldlM_checkedAdd_some hmax
    rw [Nat.zero_add] at hsum
    have hrun := ((resizeChildren_run axis requested hg htwo htarget hsum htotal).resolve_left
      fun hfail => hfail.1 hroom).2
    refine ⟨.container axis g (placed g axis
        (resizedExtents g axis requested before.length target (before ++ target :: after))
        (before ++ target :: after) 0 0), ?_, ?_, ?_⟩
    · rw [resizeWindowExtent, first.findIdx?]
      dsimp only
      rw [if_pos rfl, htarget]
      dsimp only
      rw [hrun]
    · rw [blank_container, blank_container, blank_placed]
    · intro hspans
      obtain ⟨before', start', after', hplaced, hblank⟩ := placed_around (g := g)
        (resizedExtents g axis requested before.length target (before ++ target :: after))
        before after target 0 0
      rw [hplaced, findLeaf, findLeafIn_firstWith
        (first.of_blank hblank (blank_assignFrameGeometry target _))]
      obtain ⟨l, hl, hextent⟩ := hspans.findLeaf_assign (g.slice axis start'
        (resizedExtents g axis requested before.length target (before ++ target :: after)
          (0 + before.length)))
      refine ⟨l, hl, hextent.trans ?_⟩
      rw [Geometry.extent_slice_self, Nat.zero_add, resizedExtents_target]
  | @inside own g g' outer others before after child target across first inner ih =>
    obtain ⟨hstacks, hlaids⟩ := every_container.mp hlaid
    obtain ⟨-, hpops⟩ := every_container.mp hpop
    have hmem : child ∈ outer ++ child :: others := by simp
    obtain ⟨child', hrun, hblank, hspans⟩ := ih (hlaids child hmem) (hpops child hmem)
      (hstacks.valid hg child hmem) hroom
    refine ⟨.container own g' (outer ++ child' :: others), ?_, ?_, ?_⟩
    · rw [resizeWindowExtent, first.findIdx?]
      dsimp only
      rw [if_neg across, resizeChildAt_eq, getElem?_around, Option.elim_some, hrun]
      dsimp only
      rw [set_around]
    · rw [blank_container, blank_container, List.map_append, List.map_append, List.map_cons,
        List.map_cons, hblank]
    · intro h
      rw [findLeaf, findLeafIn_firstWith (first.of_blank rfl hblank)]
      exact hspans h

/-- A window that spans a laid frame has its extent. -/
theorem Spans.findLeaf_laid (h : Spans w axis f) (hlaid : f.Laid) :
    ∃ l, findLeaf w f = some l ∧ l.geometry.extent axis = f.geometry.extent axis := by
  induction h with
  | @leaf l window => exact ⟨l, if_pos window, rfl⟩
  | @container own g outer others child across first inner ih =>
    obtain ⟨hstacks, hlaids⟩ := every_container.mp hlaid
    have hmem : child ∈ outer ++ child :: others := by simp
    obtain ⟨l, hl, hextent⟩ := ih (hlaids child hmem)
    refine ⟨l, ?_, hextent.trans (hstacks.across child hmem axis across.symm)⟩
    rw [findLeaf, findLeafIn_firstWith first]
    exact hl

/-- In the outermost container around it, a window that spans its child has an extent that would be
granted. -/
theorem Outermost.granted_current (h : Outermost w axis f g before target after)
    (hspans : Spans w axis target) (hlaid : f.Laid) (hg : f.geometry.Valid) :
    ∃ l, findLeaf w f = some l ∧ grantedExtent g axis (l.geometry.extent axis) before.length target
      (before ++ target :: after) = l.geometry.extent axis := by
  induction h with
  | @here g before after target first =>
    obtain ⟨hstacks, hlaids⟩ := every_container.mp hlaid
    have hmem : target ∈ before ++ target :: after := by simp
    obtain ⟨l, hl, hextent⟩ := hspans.findLeaf_laid (hlaids target hmem)
    refine ⟨l, ?_, ?_⟩
    · rw [findLeaf, findLeafIn_firstWith first]
      exact hl
    · have hvalid := hstacks.valid hg
      have hlow := Laid.minimumExtent_le (hlaids target hmem) (hvalid target hmem) axis
      have hsiblings : minimumSum axis (before ++ after)
          ≤ ((before ++ after).map fun child => child.geometry.extent axis).sum :=
        minimumSum_le fun child hc => by
          have hc : child ∈ before ++ target :: after := by
            rcases List.mem_append.mp hc with hc | hc
            · simp [hc]
            · simp [hc]
          exact Laid.minimumExtent_le (hlaids child hc) (hvalid child hc) axis
      have hsum := hstacks.sum
      have herase : (before ++ target :: after).eraseIdx before.length = before ++ after := by
        rw [List.eraseIdx_append_of_length_le (Nat.le_refl _), Nat.sub_self]
        rfl
      simp only [List.map_append, List.map_cons, List.sum_append, List.sum_cons] at hsum hsiblings
      rw [grantedExtent, herase, hextent]
      omega
  | @inside own g g' outer others before after child target across first inner ih =>
    obtain ⟨hstacks, hlaids⟩ := every_container.mp hlaid
    have hmem : child ∈ outer ++ child :: others := by simp
    obtain ⟨l, hl, hgranted⟩ := ih hspans (hlaids child hmem) (hstacks.valid hg child hmem)
    refine ⟨l, ?_, hgranted⟩
    rw [findLeaf, findLeafIn_firstWith first]
    exact hl

end Frame

namespace Layout

open Oxvim.Editor.Frame (Outermost Spans RoomToResize grantedExtent findLeaf)

variable {s : Layout} {w : WinHandle} {axis : SplitAxis} {g : Geometry} {target : Frame}
  {before after : List Frame}

/-- **A resize hits its target.** In every layout that successful operations lead to, let one
container along the axis be around a window. A request of at least one cell succeeds, when it is for
another extent than the window has as long as every child of the container can be divided equally
within what it gets. The window then has the requested extent, within the minimum extent of the
child that holds it and what leaves the siblings of that child their minimum extents. -/
theorem setWindowExtent_granted (h : Reachable Starts (Succeeds fun _ _ => True) s)
    (hw : w ∈ s.windows) {extent : Nat} (hextent : 1 ≤ extent)
    (houter : Outermost w axis s.root g before target after) (hspans : Spans w axis target)
    (hroom : (s.windowGeometry w).map (·.extent axis) ≠ .ok extent →
      RoomToResize g axis extent before.length target (before ++ target :: after)) :
    ∃ t, setWindowExtent w extent axis s = .ok () t ∧ (t.windowGeometry w).map (·.extent axis)
      = .ok (grantedExtent g axis extent before.length target (before ++ target :: after)) := by
  have hs := sound_of_reachable h
  obtain ⟨l, hl, hgranted⟩ := houter.granted_current hspans hs.laid hs.valid
  have hgeometry : s.windowGeometry w = .ok l.geometry := by
    rw [windowGeometry, hs.resolve_eq hw, hl]
  rw [setWindowExtent, bind_ok (get_run s)]
  dsimp only
  rw [hs.resolve_eq hw, hgeometry, bind_ok (ofExcept_ok_run _ _), if_neg (by omega)]
  by_cases hcurrent : extent = l.geometry.extent axis
  · rw [if_pos hcurrent]
    refine ⟨s, rfl, ?_⟩
    rw [hgeometry, hcurrent, hgranted]
    rfl
  · have hother : (s.windowGeometry w).map (·.extent axis) ≠ .ok extent := by
      rw [hgeometry]
      intro hsame
      exact hcurrent (Except.ok.inj hsame).symm
    obtain ⟨root, hrun, hblank, hfound⟩ := houter.resize extent hs.laid hs.populated hs.valid
      (hroom hother)
    obtain ⟨l', hl', hextent'⟩ := hfound hspans
    rw [if_neg hcurrent, hrun]
    refine ⟨{ s with root }, rfl, ?_⟩
    have hmem : w ∈ Layout.windows { s with root } := by
      show w ∈ root.collectWindows
      rw [Frame.collectWindows_eq_of_blank hblank]
      exact hw
    have hresolve : Layout.resolve { s with root } w = w := by
      exact hs.resolve_eq hw
    rw [windowGeometry, hresolve]
    have hfind : findLeaf w (Layout.root { s with root }) = some l' := hl'
    rw [hfind]
    exact congrArg Except.ok hextent'

/-- Two windows side by side, the right one widened as far as the left one allows. -/
theorem setWindowExtent_granted_two : ∃ t,
    setWindowExtent 2 9 .vertical
      { root := .row ⟨0, 0, 5, 3⟩
          [.leaf ⟨1, ⟨7, ⟨0, 0⟩, 0⟩, ⟨0, 0, 3, 3⟩⟩, .leaf ⟨2, ⟨7, ⟨0, 0⟩, 0⟩, ⟨0, 3, 2, 3⟩⟩],
        current := 2 } = .ok () t ∧ (t.windowGeometry 2).map (·.width) = .ok 4 := by
  have hreachable : Reachable Starts (Succeeds fun _ _ => True)
      { root := .row ⟨0, 0, 5, 3⟩
          [.leaf ⟨1, ⟨7, ⟨0, 0⟩, 0⟩, ⟨0, 0, 3, 3⟩⟩, .leaf ⟨2, ⟨7, ⟨0, 0⟩, 0⟩, ⟨0, 3, 2, 3⟩⟩],
        current := 2 } :=
    .step (.init ⟨1, ⟨7, ⟨0, 0⟩, 0⟩, ⟨0, 0, 5, 3⟩, rfl⟩)
      ⟨.splitVertical 0 2 ⟨7, ⟨0, 0⟩, 0⟩ true, trivial, rfl⟩
  have houter : Outermost 2 .vertical (.row ⟨0, 0, 5, 3⟩
      [.leaf ⟨1, ⟨7, ⟨0, 0⟩, 0⟩, ⟨0, 0, 3, 3⟩⟩, .leaf ⟨2, ⟨7, ⟨0, 0⟩, 0⟩, ⟨0, 3, 2, 3⟩⟩])
      ⟨0, 0, 5, 3⟩ [.leaf ⟨1, ⟨7, ⟨0, 0⟩, 0⟩, ⟨0, 0, 3, 3⟩⟩]
      (.leaf ⟨2, ⟨7, ⟨0, 0⟩, 0⟩, ⟨0, 3, 2, 3⟩⟩) [] :=
    .here ⟨(by decide : ∀ child ∈ [Frame.leaf ⟨1, ⟨7, ⟨0, 0⟩, 0⟩, ⟨0, 0, 3, 3⟩⟩],
      2 ∉ child.collectWindows), by decide⟩
  refine setWindowExtent_granted hreachable (by decide) (by decide) houter (.leaf rfl) fun _ => ?_
  intro i child hi
  have hlt : i < 2 := (List.getElem?_eq_some_iff.mp hi).1
  interval_cases i
  · cases hi
    refine .leaf fun a => ?_
    cases a <;> decide
  · cases hi
    refine .leaf fun a => ?_
    cases a <;> decide

/-! ## Nested containers -/

end Layout

namespace Frame

mutual

/-- The extent of the innermost container along `axis` around a window, and the minimum extents of
the siblings in it. -/
def innermost (w : WinHandle) (axis : SplitAxis) : Frame → Option (Nat × Nat)
  | leaf _ => none
  | container own g children =>
    match children.findIdx? fun child => (findLeaf w child).isSome with
    | none => none
    | some index => (innermostIn w axis children index).or
      (if own = axis then some (g.extent axis, minimumSum axis (children.eraseIdx index)) else none)

def innermostIn (w : WinHandle) (axis : SplitAxis) :
    List Frame → (index : Nat) → Option (Nat × Nat)
  | [], _ => none
  | child :: _, 0 => innermost w axis child
  | _ :: children, index + 1 => innermostIn w axis children index

end

end Frame

namespace Layout

/-- The extent of a window after a resize, `none` when the resize fails. -/
def extentAfter (s : Layout) (w : WinHandle) (axis : SplitAxis) (extent : Nat) : Option Nat :=
  match setWindowExtent w extent axis s with
  | .ok _ t => ((t.windowGeometry w).map (·.extent axis)).toOption
  | .error _ _ => none

/-- A window with a container along the axis around it is resized to the requested extent, within
one cell and what leaves its siblings in the innermost such container their minimum extents. -/
def HitsTarget (s : Layout) (w : WinHandle) (axis : SplitAxis) (extent : Nat) : Prop :=
  ∀ bounds, s.root.innermost w axis = some bounds →
    s.extentAfter w axis extent = some (max 1 (min extent (bounds.1 - bounds.2)))

instance (s : Layout) (w : WinHandle) (axis : SplitAxis) (extent : Nat) :
    Decidable (s.HitsTarget w axis extent) :=
  match h : s.root.innermost w axis with
  | none => .isTrue fun bounds hbounds => by rw [h] at hbounds; cases hbounds
  | some bounds =>
    if hextent : s.extentAfter w axis extent = some (max 1 (min extent (bounds.1 - bounds.2))) then
      .isTrue fun bounds' hbounds => by
        rw [h] at hbounds
        cases hbounds
        exact hextent
    else .isFalse fun hhits => hextent (hhits bounds h)

/-- Runs operations as long as they succeed. -/
def runs (ops : List LayoutOp) (s : Layout) : Option Layout :=
  ops.foldlM (fun s op => match op.run s with
    | .ok _ t => some t
    | .error _ _ => none) s

theorem reachable_runs {ops : List LayoutOp} {s t : Layout}
    (h : Reachable Starts (Succeeds fun _ _ => True) s) (hruns : runs ops s = some t) :
    Reachable Starts (Succeeds fun _ _ => True) t := by
  induction ops generalizing s with
  | nil => exact Option.some.inj hruns ▸ h
  | cons op ops ih =>
    rw [runs, List.foldlM_cons] at hruns
    cases hrun : op.run s with
    | ok u next =>
      rw [hrun] at hruns
      exact ih (h.step ⟨op, trivial, hrun⟩) hruns
    | error e next =>
      rw [hrun] at hruns
      cases hruns

/-- What fails in layouts that one window and splits lead to. With a row under a window, the window
is not made narrower than the row, and a window in the row gets its share of what the outer row
grants. With a window, rows and columns in turn right of a window, a request fails although the
minimum extents fit, since they cannot be had by dividing equally. -/
theorem not_hitsTarget :
    (∃ s, Reachable Starts (Succeeds fun _ _ => True) s ∧ 1 ∈ s.windows ∧
      ¬HitsTarget s 1 .vertical 1 ∧ ¬HitsTarget s 3 .vertical 3) ∧
    ∃ s, Reachable Starts (Succeeds fun _ _ => True) s ∧ 1 ∈ s.windows ∧
      ¬HitsTarget s 1 .vertical 13 := by
  have hstart : Reachable Starts (Succeeds fun _ _ => True)
      ⟨.leaf ⟨1, ⟨7, ⟨0, 0⟩, 0⟩, ⟨0, 0, 16, 16⟩⟩, 1⟩ :=
    .init ⟨1, ⟨7, ⟨0, 0⟩, 0⟩, ⟨0, 0, 16, 16⟩, rfl⟩
  constructor
  · have hruns : (runs [.splitVertical 1 2 ⟨7, ⟨0, 0⟩, 0⟩ false,
        .splitHorizontal 1 3 ⟨7, ⟨0, 0⟩, 0⟩ false, .splitVertical 3 4 ⟨7, ⟨0, 0⟩, 0⟩ false]
        ⟨.leaf ⟨1, ⟨7, ⟨0, 0⟩, 0⟩, ⟨0, 0, 16, 16⟩⟩, 1⟩).any (fun s => 1 ∈ s.windows ∧
          ¬HitsTarget s 1 .vertical 1 ∧ ¬HitsTarget s 3 .vertical 3) := by decide +kernel
    obtain ⟨s, hs, hfails⟩ := (Option.any_eq_true _ _).mp hruns
    exact ⟨s, reachable_runs hstart hs, of_decide_eq_true hfails⟩
  · have hruns : (runs [.splitVertical 1 2 ⟨7, ⟨0, 0⟩, 0⟩ false,
        .splitHorizontal 2 3 ⟨7, ⟨0, 0⟩, 0⟩ false, .splitVertical 3 4 ⟨7, ⟨0, 0⟩, 0⟩ false,
        .splitHorizontal 4 5 ⟨7, ⟨0, 0⟩, 0⟩ false, .splitVertical 5 6 ⟨7, ⟨0, 0⟩, 0⟩ false]
        ⟨.leaf ⟨1, ⟨7, ⟨0, 0⟩, 0⟩, ⟨0, 0, 16, 16⟩⟩, 1⟩).any (fun s => 1 ∈ s.windows ∧
          ¬HitsTarget s 1 .vertical 13) := by decide +kernel
    obtain ⟨s, hs, hfails⟩ := (Option.any_eq_true _ _).mp hruns
    exact ⟨s, reachable_runs hstart hs, of_decide_eq_true hfails⟩

end Layout

end Oxvim.Editor
