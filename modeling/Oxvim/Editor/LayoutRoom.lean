import Oxvim.Editor.LayoutGeometry
import Oxvim.Editor.LayoutRewrites

/-!
# Room for the rewrites, and the resize of one window

A removal and a collapse leave room: fewer siblings get larger shares. A graft may not:
`RoomToSplit` says on the frame before the split whether the frame with the new leaf is still roomy.

The resize of one window assigns other extents than the equal shares. They add up to the container,
so its children go on stacking.
-/

namespace Oxvim.Editor.Frame

open Lib

variable {f f' child : Frame} {g : Geometry} {axis own : SplitAxis}
  {children before after : List Frame}
  {e : SplitAxis → Nat} {count index : Nat} {w target : WinHandle} {placement : SplitPlacement}
  {new l : LeafFrame}

/-! ## Room of consecutive children -/

/-- Room for children that are the ones from `index` on of `count`. -/
def RoomyFrom (e : SplitAxis → Nat) (axis : SplitAxis) (count index : Nat) (children : List Frame) :
    Prop :=
  ∀ i child, children[i]? = some child →
    Roomy child (Function.update e axis (share (e axis) count (index + i)))

@[simp] theorem roomyFrom_nil : RoomyFrom e axis count index [] := by
  intro i child h
  simp at h

@[simp] theorem roomyFrom_cons : RoomyFrom e axis count index (child :: children) ↔
    Roomy child (Function.update e axis (share (e axis) count index)) ∧
      RoomyFrom e axis count (index + 1) children := by
  constructor
  · intro h
    refine ⟨h 0 child rfl, ?_⟩
    intro i c hi
    rw [Nat.add_assoc, Nat.add_comm 1]
    exact h (i + 1) c hi
  · rintro ⟨hfirst, hrest⟩ i c hi
    cases i with
    | zero =>
      cases hi
      exact hfirst
    | succ i =>
      rw [Nat.add_comm i, ← Nat.add_assoc]
      exact hrest i c hi

@[simp] theorem roomyFrom_append : RoomyFrom e axis count index (before ++ after) ↔
    RoomyFrom e axis count index before ∧ RoomyFrom e axis count (index + before.length) after := by
  induction before generalizing index with
  | nil => simp
  | cons b before ih =>
    rw [List.cons_append, roomyFrom_cons, ih, roomyFrom_cons, and_assoc, List.length_cons,
      Nat.add_assoc, Nat.add_comm 1]

theorem roomy_container' : Roomy (container axis g children) e ↔
    (∀ a, 1 ≤ e a) ∧ children ≠ [] ∧ children.length ≤ e axis ∧
      RoomyFrom e axis children.length 0 children := by
  rw [roomy_container]
  simp only [RoomyFrom, Nat.zero_add]

/-! ## Removal and collapse -/

/-- The remaining siblings get larger shares. -/
theorem RoomyFrom.erase (hbefore : RoomyFrom e axis (before.length + after.length + 1) 0 before)
    (hafter : RoomyFrom e axis (before.length + after.length + 1) (before.length + 1) after) :
    RoomyFrom e axis (before.length + after.length) 0 (before ++ after) := by
  rw [roomyFrom_append]
  constructor
  · intro i c hi
    have hlt : i < before.length := (List.getElem?_eq_some_iff.mp hi).1
    refine (hbefore i c hi).mono ?_
    intro a
    rw [Function.update_apply, Function.update_apply]
    split
    · have hshare := share_le_share_erase (e axis) before.length
        (show i + 1 < before.length + after.length + 1 by omega)
      rw [if_pos hlt] at hshare
      simpa using hshare
    · exact Nat.le_refl _
  · intro i c hi
    have hlt : i < after.length := (List.getElem?_eq_some_iff.mp hi).1
    refine (hafter i c hi).mono ?_
    intro a
    rw [Function.update_apply, Function.update_apply]
    split
    · have hshare := share_le_share_erase (e axis) before.length
        (show before.length + i + 1 < before.length + after.length + 1 by omega)
      rw [if_neg (by omega), Nat.add_sub_cancel] at hshare
      rwa [Nat.add_right_comm before.length 1 i, Nat.zero_add]
    · exact Nat.le_refl _

theorem Removed.roomy (h : Removed l f f') (hpop : f.Populated) (hf : Roomy f e) : Roomy f' e := by
  induction h generalizing e with
  | @here own geometry before after =>
    obtain ⟨htwo, -⟩ := every_container.mp hpop
    obtain ⟨hcell, -, hroom, hfrom⟩ := roomy_container'.mp hf
    rw [roomyFrom_append, roomyFrom_cons, List.length_append, List.length_cons, Nat.zero_add,
      ← Nat.add_assoc] at hfrom
    simp only [List.length_append, List.length_cons] at htwo hroom
    rw [roomy_container']
    refine ⟨hcell, ?_, ?_, ?_⟩
    · rw [← List.length_pos_iff, List.length_append]
      omega
    · rw [List.length_append]
      omega
    · rw [List.length_append]
      exact RoomyFrom.erase hfrom.1 hfrom.2.2
  | @inside own geometry before after child child' _ ih =>
    obtain ⟨-, hpops⟩ := every_container.mp hpop
    obtain ⟨hcell, -, hroom, hfrom⟩ := roomy_container'.mp hf
    rw [roomyFrom_append, roomyFrom_cons] at hfrom
    rw [roomy_container']
    simp only [List.length_append, List.length_cons] at hroom hfrom ⊢
    refine ⟨hcell, by simp, hroom, ?_⟩
    rw [roomyFrom_append, roomyFrom_cons]
    exact ⟨hfrom.1, ih (hpops _ (by simp)) hfrom.2.1, hfrom.2.2⟩

/-- An only child takes over all of its container. -/
theorem roomy_promote (h : Roomy (container own g children) e) :
    Roomy (promote own g children) e := by
  rcases children with _ | ⟨c, _ | ⟨d, children⟩⟩
  · exact h
  · obtain ⟨-, -, -, hfrom⟩ := roomy_container'.mp h
    rw [roomyFrom_cons, List.length_singleton, share_one, Function.update_eq_self] at hfrom
    exact hfrom.1
  · exact h

theorem collapseContainers_roomy (hin : f.Inhabited) (h : Roomy f e) :
    Roomy f.collapseContainers e := by
  induction f generalizing e with
  | leaf l => exact h
  | container own g children ih =>
    obtain ⟨-, hbelow⟩ := every_container.mp hin
    obtain ⟨hcell, hne, hroom, hfrom⟩ := roomy_container.mp h
    rw [collapseContainers_container hin]
    apply roomy_promote
    rw [roomy_container, List.length_map]
    refine ⟨hcell, by simpa using hne, hroom, ?_⟩
    intro i c hi
    rw [List.getElem?_map] at hi
    obtain ⟨child, hchild, rfl⟩ := Option.map_eq_some_iff.mp hi
    have hmem := List.mem_of_getElem? hchild
    exact ih child hmem (hbelow child hmem) (hfrom i child hchild)

/-! ## Splits -/

/-- Whether the frame is still roomy with a leaf next to the target. In a container that stacks
along the axis of the split, the new leaf takes a share of its own and the siblings get by with
less. Elsewhere the target is to have two cells along the axis. -/
inductive RoomToSplit (target : WinHandle) (axis : SplitAxis) : Frame → (SplitAxis → Nat) → Prop
  | root {l : LeafFrame} {e : SplitAxis → Nat} (own : l.window = target) (cell : ∀ a, 1 ≤ e a)
      (room : 2 ≤ e axis) : RoomToSplit target axis (leaf l) e
  | join {geometry : Geometry} {before after : List Frame} {l : LeafFrame} {e : SplitAxis → Nat}
      (first : FirstWith target before (leaf l)) (cell : ∀ a, 1 ≤ e a)
      (room : before.length + after.length + 2 ≤ e axis)
      (ahead : RoomyFrom e axis (before.length + after.length + 2) 0 before)
      (behind : RoomyFrom e axis (before.length + after.length + 2) (before.length + 2) after) :
      RoomToSplit target axis (container axis geometry (before ++ leaf l :: after)) e
  | inside {own : SplitAxis} {geometry : Geometry} {before after : List Frame} {child : Frame}
      {e : SplitAxis → Nat} (first : FirstWith target before child)
      (apart : own = axis → ∀ l, child ≠ leaf l) (cell : ∀ a, 1 ≤ e a)
      (room : before.length + after.length + 1 ≤ e own)
      (ahead : RoomyFrom e own (before.length + after.length + 1) 0 before)
      (behind : RoomyFrom e own (before.length + after.length + 1) (before.length + 1) after)
      (below : RoomToSplit target axis child
        (Function.update e own (share (e own) (before.length + after.length + 1) before.length))) :
      RoomToSplit target axis (container own geometry (before ++ child :: after)) e

theorem RoomToSplit.of_leaf (h : RoomToSplit target axis (leaf l) e) :
    (∀ a, 1 ≤ e a) ∧ 2 ≤ e axis := by
  cases h with
  | root own cell room => exact ⟨cell, room⟩

theorem RoomToSplit.of_join (first : FirstWith target before (leaf l))
    (h : RoomToSplit target axis (container axis g (before ++ leaf l :: after)) e) :
    (∀ a, 1 ≤ e a) ∧ before.length + after.length + 2 ≤ e axis ∧
      RoomyFrom e axis (before.length + after.length + 2) 0 before ∧
      RoomyFrom e axis (before.length + after.length + 2) (before.length + 2) after := by
  generalize hchildren : before ++ leaf l :: after = children at h
  cases h with
  | join first' cell room ahead behind =>
    obtain ⟨rfl, -, rfl⟩ := first.unique first' hchildren
    exact ⟨cell, room, ahead, behind⟩
  | inside first' apart _ _ _ _ _ =>
    obtain ⟨rfl, rfl, rfl⟩ := first.unique first' hchildren
    exact absurd rfl (apart rfl l)

theorem RoomToSplit.of_inside (first : FirstWith target before child)
    (apart : own = axis → ∀ l, child ≠ leaf l)
    (h : RoomToSplit target axis (container own g (before ++ child :: after)) e) :
    (∀ a, 1 ≤ e a) ∧ before.length + after.length + 1 ≤ e own ∧
      RoomyFrom e own (before.length + after.length + 1) 0 before ∧
      RoomyFrom e own (before.length + after.length + 1) (before.length + 1) after ∧
      RoomToSplit target axis child
        (Function.update e own (share (e own) (before.length + after.length + 1) before.length)) := by
  generalize hchildren : before ++ child :: after = children at h
  cases h with
  | join first' _ _ _ _ =>
    obtain ⟨rfl, rfl, rfl⟩ := first.unique first' hchildren
    exact absurd rfl (apart rfl _)
  | inside first' _ cell room ahead behind below =>
    obtain ⟨rfl, rfl, rfl⟩ := first.unique first' hchildren
    exact ⟨cell, room, ahead, behind, below⟩

theorem roomyFrom_pair (hcell : ∀ a, 1 ≤ e a) (hcount : 0 < count) (hroom : count ≤ e axis)
    (index : Nat) : RoomyFrom e axis count index (pair placement (leaf l) (leaf new)) := by
  have hleaf : ∀ (l : LeafFrame) i,
      Roomy (leaf l) (Function.update e axis (share (e axis) count i)) := by
    intro l i
    rw [roomy_leaf]
    intro a
    rw [Function.update_apply]
    split
    · exact share_pos hcount hroom
    · exact hcell a
  cases placement with
  | before => exact roomyFrom_cons.mpr ⟨hleaf new _, roomyFrom_cons.mpr ⟨hleaf l _, roomyFrom_nil⟩⟩
  | after => exact roomyFrom_cons.mpr ⟨hleaf l _, roomyFrom_cons.mpr ⟨hleaf new _, roomyFrom_nil⟩⟩

theorem roomy_wrapped : Roomy (container axis g (pair placement (leaf l) (leaf new))) e ↔
    (∀ a, 1 ≤ e a) ∧ 2 ≤ e axis := by
  rw [roomy_container', length_pair]
  constructor
  · rintro ⟨hcell, -, hroom, -⟩
    exact ⟨hcell, hroom⟩
  · rintro ⟨hcell, hroom⟩
    refine ⟨hcell, ?_, hroom, roomyFrom_pair hcell Nat.two_pos hroom 0⟩
    rw [← List.length_pos_iff, length_pair]
    exact Nat.two_pos

/-- A container is roomy when its other children are and the one in question is. -/
theorem roomy_around : Roomy (container own g (before ++ child :: after)) e ↔
    (∀ a, 1 ≤ e a) ∧ before.length + after.length + 1 ≤ e own ∧
      RoomyFrom e own (before.length + after.length + 1) 0 before ∧
      RoomyFrom e own (before.length + after.length + 1) (before.length + 1) after ∧
      Roomy child
        (Function.update e own (share (e own) (before.length + after.length + 1) before.length)) := by
  rw [roomy_container', roomyFrom_append, roomyFrom_cons, List.length_append, List.length_cons,
    Nat.zero_add, ← Nat.add_assoc]
  constructor
  · rintro ⟨hcell, -, hroom, hahead, hchild, hbehind⟩
    exact ⟨hcell, hroom, hahead, hbehind, hchild⟩
  · rintro ⟨hcell, hroom, hahead, hbehind, hchild⟩
    exact ⟨hcell, by simp, hroom, hahead, hchild, hbehind⟩

/-- **The frame with the new leaf is roomy exactly when there was room to split.** -/
theorem Grafted.roomy_iff (h : Grafted target new axis placement f f') :
    Roomy f' e ↔ RoomToSplit target axis f e := by
  induction h generalizing e with
  | root own =>
    rw [roomy_wrapped]
    exact ⟨fun h => .root own h.1 h.2, RoomToSplit.of_leaf⟩
  | @join geometry before after l first =>
    have hlength : (before ++ (pair placement (leaf l) (leaf new) ++ after)).length
        = before.length + after.length + 2 := by
      simp only [List.length_append, length_pair]
      omega
    rw [roomy_container', hlength, roomyFrom_append, roomyFrom_append, length_pair, Nat.zero_add]
    constructor
    · rintro ⟨hcell, -, hroom, hahead, -, hbehind⟩
      exact .join first hcell hroom hahead hbehind
    · intro h
      obtain ⟨hcell, hroom, hahead, hbehind⟩ := h.of_join first
      refine ⟨hcell, ?_, hroom, hahead, roomyFrom_pair hcell (by omega) hroom _, hbehind⟩
      rw [← List.length_pos_iff, hlength]
      omega
  | @wrap own geometry before after l first across =>
    have hl : l.window = target := by simpa [eq_comm] using first.mem
    have hapart : own = axis → ∀ l', leaf l ≠ leaf l' := fun heq => absurd heq across
    rw [roomy_around, roomy_wrapped]
    constructor
    · rintro ⟨hcell, hroom, hahead, hbehind, hcell', htwo⟩
      exact .inside first hapart hcell hroom hahead hbehind (.root hl hcell' htwo)
    · intro h
      obtain ⟨hcell, hroom, hahead, hbehind, hbelow⟩ := h.of_inside first hapart
      exact ⟨hcell, hroom, hahead, hbehind, hbelow.of_leaf⟩
  | @inside own inner geometry innerGeometry before after children child' first _ ih =>
    have hapart : own = axis → ∀ l, container inner innerGeometry children ≠ leaf l := by
      rintro - l ⟨⟩
    rw [roomy_around, ih]
    constructor
    · rintro ⟨hcell, hroom, hahead, hbehind, hbelow⟩
      exact .inside first hapart hcell hroom hahead hbehind hbelow
    · intro h
      exact h.of_inside first hapart

/-! ## Resizing one window -/

theorem foldlM_checkedAdd_eq {ns : List Nat} {start total : Nat}
    (h : ns.foldlM checkedAdd start = some total) : total = start + ns.sum := by
  induction ns generalizing start with
  | nil =>
    cases h
    rfl
  | cons n ns ih =>
    rw [List.foldlM_cons, Option.bind_eq_bind, Option.bind_eq_some_iff] at h
    obtain ⟨next, hnext, hrest⟩ := h
    rw [checkedAdd, Option.ite_none_right_eq_some, Option.some.injEq] at hnext
    rw [ih hrest, ← hnext.2, List.sum_cons, Nat.add_assoc]

/-- The minima of the siblings and what is left of the container add up to what the target does not
get. -/
theorem offset_distributedExtent (axis : SplitAxis) (requested remaining : Nat) {targetIndex : Nat}
    (htwo : 2 ≤ children.length) (htarget : targetIndex < children.length) :
    offset (fun i => (children[i]?).elim 0 (distributedExtent axis targetIndex requested
        (remaining / (children.length - 1)) (remaining % (children.length - 1)) i)) children.length
      = requested + ((children.eraseIdx targetIndex).map (minimumExtent axis)).sum + remaining := by
  have hlength : (children.eraseIdx targetIndex).length = children.length - 1 :=
    List.length_eraseIdx_of_lt htarget
  have hself : (children[targetIndex]?).elim 0 (distributedExtent axis targetIndex requested
      (remaining / (children.length - 1)) (remaining % (children.length - 1)) targetIndex)
      = requested := by
    rw [List.getElem?_eq_getElem htarget]
    exact if_pos rfl
  have hsiblings : ∀ i < children.length - 1,
      (children[if i < targetIndex then i else i + 1]?).elim 0 (distributedExtent axis targetIndex
        requested (remaining / (children.length - 1)) (remaining % (children.length - 1))
        (if i < targetIndex then i else i + 1))
      = ((children.eraseIdx targetIndex)[i]?).elim 0 (minimumExtent axis)
        + share remaining (children.length - 1) i := by
    intro i hi
    have hget : (children.eraseIdx targetIndex)[i]?
        = children[if i < targetIndex then i else i + 1]? := by
      rw [List.getElem?_eraseIdx]
      split <;> rfl
    rw [hget]
    cases hchild : children[if i < targetIndex then i else i + 1]? with
    | none =>
      rw [List.getElem?_eq_none_iff] at hchild
      split at hchild <;> omega
    | some child =>
      dsimp only [Option.elim_some]
      rw [distributedExtent, share, if_neg (by split <;> omega), Nat.add_assoc]
      congr 3
      split
      · rw [if_neg (by omega), Nat.sub_zero]
      · rw [if_pos (by omega), Nat.add_sub_cancel]
  rw [offset_erase htarget, hself, offset_congr hsiblings, offset_add,
    offset_share (by omega), ← hlength, offset_elim, Nat.add_assoc]

/-- The minimum extents of frames add up. -/
def minimumSum (axis : SplitAxis) (children : List Frame) : Nat :=
  (children.map (minimumExtent axis)).sum

/-- What the target gets: the requested extent, within the minimum extents of its siblings and its
own. -/
def grantedExtent (g : Geometry) (axis : SplitAxis) (requested targetIndex : Nat) (target : Frame)
    (children : List Frame) : Nat :=
  max (minimumExtent axis target)
    (min requested (g.extent axis - minimumSum axis (children.eraseIdx targetIndex)))

/-- What each child gets. -/
def resizedExtent (g : Geometry) (axis : SplitAxis) (requested targetIndex : Nat) (target : Frame)
    (children : List Frame) (index : Nat) (child : Frame) : Nat :=
  let granted := grantedExtent g axis requested targetIndex target children
  let remaining := g.extent axis - granted - minimumSum axis (children.eraseIdx targetIndex)
  distributedExtent axis targetIndex granted (remaining / (children.length - 1))
    (remaining % (children.length - 1)) index child

/-- The extents of the children by index. -/
def resizedExtents (g : Geometry) (axis : SplitAxis) (requested targetIndex : Nat) (target : Frame)
    (children : List Frame) (index : Nat) : Nat :=
  (children[index]?).elim 0 (resizedExtent g axis requested targetIndex target children index)

/-- Each child can be divided equally, level by level, within what it gets. -/
def RoomToResize (g : Geometry) (axis : SplitAxis) (requested targetIndex : Nat) (target : Frame)
    (children : List Frame) : Prop :=
  ∀ i child, children[i]? = some child → Roomy child
    (Function.update g.extent axis (resizedExtents g axis requested targetIndex target children i))

/-- The extents after a resize add up to that of the container. -/
theorem offset_resizedExtents (axis : SplitAxis) (requested : Nat) {targetIndex : Nat}
    {target : Frame} (htwo : 2 ≤ children.length) (htarget : children[targetIndex]? = some target)
    (htotal : minimumExtent axis target + minimumSum axis (children.eraseIdx targetIndex)
      ≤ g.extent axis) :
    offset (resizedExtents g axis requested targetIndex target children) children.length
      = g.extent axis := by
  have hlt : targetIndex < children.length := (List.getElem?_eq_some_iff.mp htarget).1
  have hgranted : grantedExtent g axis requested targetIndex target children
      + minimumSum axis (children.eraseIdx targetIndex) ≤ g.extent axis := by
    rw [grantedExtent]
    omega
  have hfit := offset_distributedExtent axis
    (grantedExtent g axis requested targetIndex target children)
    (g.extent axis - grantedExtent g axis requested targetIndex target children
      - minimumSum axis (children.eraseIdx targetIndex)) htwo hlt
  refine hfit.trans ?_
  show _ + minimumSum axis (children.eraseIdx targetIndex) + _ = _
  omega

/-- With the minimum extents within the container, the resize of its children succeeds where they
have room to be divided. -/
theorem resizeChildren_run (axis : SplitAxis) (requested : Nat) {targetIndex : Nat} {target : Frame}
    (hg : g.Valid) (htwo : 2 ≤ children.length) (htarget : children[targetIndex]? = some target)
    (hsum : ((children.eraseIdx targetIndex).map (minimumExtent axis)).foldlM checkedAdd 0
      = some (minimumSum axis (children.eraseIdx targetIndex)))
    (htotal : minimumExtent axis target + minimumSum axis (children.eraseIdx targetIndex)
      ≤ g.extent axis) :
    (¬RoomToResize g axis requested targetIndex target children ∧ ∃ error,
      resizeChildren g axis requested targetIndex target children = (.error error, children)) ∨
    RoomToResize g axis requested targetIndex target children ∧
      resizeChildren g axis requested targetIndex target children = (.ok true, placed g axis
        (resizedExtents g axis requested targetIndex target children) children 0 0) := by
  have hfit := offset_resizedExtents axis requested htwo htarget htotal
  have hmax : minimumExtent axis target + minimumSum axis (children.eraseIdx targetIndex)
      ≤ usizeMax := htotal.trans (hg.extent_le axis)
  have hsame : ∀ i child, children[i]? = some child →
      resizedExtent g axis requested targetIndex target children (0 + i) child
        = resizedExtents g axis requested targetIndex target children (0 + i) := by
    intro i child hi
    rw [resizedExtents, Nat.zero_add, hi, Option.elim_some]
  have hfit' : 0 + offset (fun i =>
      resizedExtents g axis requested targetIndex target children (0 + i)) children.length
        = g.extent axis := by
    simp only [Nat.zero_add]
    exact hfit
  have hassign := assignExtents_eq hg (resizedExtent g axis requested targetIndex target children)
    (resizedExtents g axis requested targetIndex target children) children 0 0 hsame
    (Nat.le_of_eq hfit')
  have hvalidate : validateExtents g axis
        (resizedExtent g axis requested targetIndex target children) children 0 0
      = validateExtents g axis (fun i _ =>
        resizedExtents g axis requested targetIndex target children i) children 0 0 :=
    validateExtents_congr children 0 0 hsame
  have hok := validateExtents_ok hg (resizedExtents g axis requested targetIndex target children)
    children 0 0 (fun child _ => validateFrameGeometry_ok child) (Nat.le_of_eq hfit')
  simp only [Nat.zero_add] at hok
  rw [resizeChildren, hsum]
  dsimp only
  rw [checkedAdd_eq hmax]
  dsimp only
  rw [if_neg (Nat.not_lt.mpr htotal), if_neg (by omega : children.length - 1 ≠ 0)]
  have hextent : resizedExtent g axis requested targetIndex target children
      = distributedExtent axis targetIndex (grantedExtent g axis requested targetIndex target children)
        ((g.extent axis - grantedExtent g axis requested targetIndex target children
          - minimumSum axis (children.eraseIdx targetIndex)) / (children.length - 1))
        ((g.extent axis - grantedExtent g axis requested targetIndex target children
          - minimumSum axis (children.eraseIdx targetIndex)) % (children.length - 1)) := rfl
  rw [hextent, grantedExtent] at hassign hvalidate
  rw [hassign, hvalidate]
  generalize validateExtents g axis _ children 0 0 = checked at hok
  cases checked with
  | error error =>
    refine .inl ⟨fun hroom => ?_, error, rfl⟩
    have hfalse := hok.mpr hroom
    cases hfalse
  | ok _ => exact .inr ⟨hok.mp rfl, rfl⟩

/-- A resize of the children fails and leaves them alone, or has them stack again. -/
theorem resizeChildren_spec (axis : SplitAxis) (requested : Nat) {targetIndex : Nat}
    {target : Frame} (hg : g.Valid) (htwo : 2 ≤ children.length) (htarget : children[targetIndex]? = some target) :
    (∃ error, resizeChildren g axis requested targetIndex target children
      = (.error error, children)) ∨
      ∃ children', resizeChildren g axis requested targetIndex target children
          = (.ok true, children') ∧
        children'.map blank = children.map blank ∧ Stacks g axis 0 children' ∧
        ∀ child ∈ children', child.Laid := by
  cases hsum : ((children.eraseIdx targetIndex).map (minimumExtent axis)).foldlM checkedAdd 0 with
  | none =>
    rw [resizeChildren, hsum]
    exact .inl ⟨_, rfl⟩
  | some siblingMinimum =>
    obtain rfl : siblingMinimum = minimumSum axis (children.eraseIdx targetIndex) := by
      rw [foldlM_checkedAdd_eq hsum, Nat.zero_add, minimumSum]
    by_cases htotal : minimumExtent axis target + minimumSum axis (children.eraseIdx targetIndex)
        ≤ g.extent axis
    · rcases resizeChildren_run axis requested hg htwo htarget hsum htotal with
        ⟨-, error, hrun⟩ | ⟨hroom, hrun⟩
      · exact .inl ⟨error, hrun⟩
      · refine .inr ⟨_, hrun, blank_placed _ _ _, ?_, ?_⟩
        · refine stacks_placed children 0 0 ?_ ?_
          · intro i hi
            have hcell := (hroom i children[i] (List.getElem?_eq_getElem hi)).cell axis
            rwa [Function.update_self, ← Nat.zero_add i] at hcell
          · simp only [Nat.zero_add]
            exact offset_resizedExtents axis requested htwo htarget htotal
        · intro c hc
          obtain ⟨i, child, hi, start, rfl⟩ := mem_placed hc
          apply assignFrameGeometry_laid
          rw [Geometry.extent_slice, Nat.zero_add]
          exact hroom i child hi
    · -- the minimum extents overflow, or the container does not have them
      rw [resizeChildren, hsum]
      dsimp only
      cases hadd : checkedAdd (minimumExtent axis target)
          (minimumSum axis (children.eraseIdx targetIndex)) with
      | none => exact .inl ⟨_, rfl⟩
      | some totalMinimum =>
        rw [checkedAdd, Option.ite_none_right_eq_some, Option.some.injEq] at hadd
        dsimp only
        rw [if_pos (by omega)]
        exact .inl ⟨_, rfl⟩

theorem resizeChildAt_eq {requested : Nat} :
    ∀ (children : List Frame) (index : Nat),
      resizeChildAt w requested axis children index
        = (children[index]?).elim (.ok false, children) fun child =>
          ((resizeWindowExtent w requested axis child).1,
            children.set index (resizeWindowExtent w requested axis child).2)
  | [], _ => rfl
  | child :: children, 0 => rfl
  | child :: children, index + 1 => by
    rw [resizeChildAt, resizeChildAt_eq children index, List.getElem?_cons_succ]
    cases children[index]? with
    | none => rfl
    | some child => rfl

theorem set_same {α : Type*} {as : List α} {a : α} {i : Nat} (h : as[i]? = some a) :
    as.set i a = as := by
  obtain ⟨hi, rfl⟩ := List.getElem?_eq_some_iff.mp h
  exact List.set_getElem_self hi

/-- What the resize of one window keeps. -/
structure ResizesTo (f : Frame) (r : Except LayoutError Bool × Frame) : Prop where
  geometry : r.2.geometry = f.geometry
  blank : r.2.blank = f.blank
  laid : r.2.Laid
  unchanged : ∀ error, r.1 = .error error → r.2 = f

theorem ResizesTo.same (hlaid : f.Laid) (result : Except LayoutError Bool) :
    ResizesTo f (result, f) :=
  ⟨rfl, rfl, hlaid, fun _ _ => rfl⟩

theorem resizeWindowExtent_spec (w : WinHandle) (requested : Nat) (axis : SplitAxis) (f : Frame)
    (hlaid : f.Laid) (hpop : f.Populated) (hg : f.geometry.Valid) :
    ResizesTo f (resizeWindowExtent w requested axis f) := by
  induction f with
  | leaf l => exact .same hlaid _
  | container own g children ih =>
    obtain ⟨hstacks, hlaids⟩ := every_container.mp hlaid
    obtain ⟨htwo, hpops⟩ := every_container.mp hpop
    rw [resizeWindowExtent]
    cases children.findIdx? fun child => (findLeaf w child).isSome with
    | none => exact .same hlaid _
    | some targetIndex =>
      dsimp only
      cases htarget : children[targetIndex]? with
      | none =>
        rw [resizeChildAt_eq, htarget]
        split
        · exact .same hlaid _
        · exact .same hlaid _
      | some target =>
        split
        · next hown =>
          subst hown
          rcases resizeChildren_spec (g := g) own requested hg htwo htarget with
            ⟨error, heq⟩ | ⟨children', heq, hblank, hstacks', hlaid'⟩
          · dsimp only
            rw [heq]
            exact .same hlaid _
          · dsimp only
            rw [heq]
            refine ⟨rfl, ?_, .container hstacks' hlaid', by rintro error ⟨⟩⟩
            rw [blank_container, blank_container, hblank]
        · rw [resizeChildAt_eq, htarget]
          have hmem := List.mem_of_getElem? htarget
          have hr := ih target hmem (hlaids target hmem) (hpops target hmem)
            (hstacks.valid hg target hmem)
          dsimp only [Option.elim_some]
          generalize resizeWindowExtent w requested axis target = r at hr
          have hmap : ∀ {β : Type} (m : Frame → β), m r.2 = m target →
              (children.set targetIndex r.2).map m = children.map m := by
            intro β m hm
            rw [List.map_set, hm]
            apply set_same
            rw [List.getElem?_map, htarget]
            rfl
          refine ⟨rfl, ?_, ?_, ?_⟩
          · rw [blank_container, blank_container, hmap Frame.blank hr.blank]
          · refine .container (hstacks.congr (hmap Frame.geometry hr.geometry).symm) ?_
            intro c hc
            rcases List.mem_or_eq_of_mem_set hc with hc | rfl
            · exact hlaids c hc
            · exact hr.laid
          · intro error herror
            dsimp only
            rw [hr.unchanged error herror, set_same htarget]

end Oxvim.Editor.Frame
