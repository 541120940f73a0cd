import Oxvim.Editor.LayoutFrames
import Oxvim.Lib.Shares

/-!
# The geometry of a frame

A frame is `Roomy` for a width and a height when dividing them equally, level by level, leaves every
frame a cell; that, and a rectangle within the coordinates, is what the validation before an
equalization checks. Children that stack along an axis are consecutive slices of their container's
rectangle: `Stacks`. A frame all of whose containers stack is `Laid`, and the leaves of a laid frame
tile its rectangle.
-/

namespace Oxvim.Editor

open Lib

/-! ## Rectangles -/

namespace Geometry

variable {g : Geometry} {axis : SplitAxis} {start n : Nat}

/-- A rectangle with cells, within the coordinates. -/
structure Valid (g : Geometry) : Prop where
  cell : ∀ a, 1 ≤ g.extent a
  row_le : g.row + g.height ≤ usizeMax
  col_le : g.col + g.width ≤ usizeMax

@[simp] theorem extent_slice (g : Geometry) (axis : SplitAxis) (start n : Nat) :
    (g.slice axis start n).extent = Function.update g.extent axis n := by
  funext a
  cases axis with
  | vertical => cases a <;> simp [slice, extent]
  | horizontal => cases a <;> simp [slice, extent]

theorem extent_slice_self : (g.slice axis start n).extent axis = n := by
  rw [extent_slice, Function.update_self]

theorem slice_full (g : Geometry) (axis : SplitAxis) : g.slice axis 0 (g.extent axis) = g := by
  cases axis with
  | vertical => rfl
  | horizontal => rfl

theorem Valid.extent_le (hg : g.Valid) (axis : SplitAxis) : g.extent axis ≤ usizeMax := by
  cases axis with
  | vertical => exact (Nat.le_add_left ..).trans hg.col_le
  | horizontal => exact (Nat.le_add_left ..).trans hg.row_le

theorem Valid.slice (hg : g.Valid) (hn : 1 ≤ n) (hfit : start + n ≤ g.extent axis) :
    (g.slice axis start n).Valid := by
  have hrow := hg.row_le
  have hcol := hg.col_le
  refine ⟨?_, ?_, ?_⟩
  · intro a
    rw [extent_slice, Function.update_apply]
    split
    · exact hn
    · exact hg.cell a
  · cases axis with
    | vertical => exact hrow
    | horizontal =>
      dsimp only [Geometry.slice, extent] at hfit ⊢
      omega
  · cases axis with
    | vertical =>
      dsimp only [Geometry.slice, extent] at hfit ⊢
      omega
    | horizontal => exact hcol

/-- The cells of a rectangle, by row and column. -/
def cells (g : Geometry) : Set (Nat × Nat) :=
  {cell | g.row ≤ cell.1 ∧ cell.1 < g.row + g.height ∧ g.col ≤ cell.2 ∧ cell.2 < g.col + g.width}

theorem mem_cells {cell : Nat × Nat} :
    cell ∈ g.cells ↔ g.row ≤ cell.1 ∧ cell.1 < g.row + g.height ∧ g.col ≤ cell.2 ∧
      cell.2 < g.col + g.width :=
  Iff.rfl

/-- Consecutive slices make up one slice. -/
theorem cells_slice_add (g : Geometry) (axis : SplitAxis) (start m n : Nat) :
    (g.slice axis start (m + n)).cells
      = (g.slice axis start m).cells ∪ (g.slice axis (start + m) n).cells := by
  ext cell
  rw [Set.mem_union, mem_cells, mem_cells, mem_cells]
  cases axis with
  | vertical =>
    dsimp only [slice]
    omega
  | horizontal =>
    dsimp only [slice]
    omega

theorem disjoint_slices (g : Geometry) (axis : SplitAxis) (start m n : Nat) :
    Disjoint (g.slice axis start m).cells (g.slice axis (start + m) n).cells := by
  rw [Set.disjoint_left]
  intro cell hin hin'
  rw [mem_cells] at hin hin'
  cases axis with
  | vertical =>
    dsimp only [slice] at hin hin'
    omega
  | horizontal =>
    dsimp only [slice] at hin hin'
    omega

theorem cells_slice_zero (g : Geometry) (axis : SplitAxis) (start : Nat) :
    (g.slice axis start 0).cells = ∅ := by
  rw [Set.eq_empty_iff_forall_notMem]
  intro cell hin
  rw [mem_cells] at hin
  cases axis with
  | vertical =>
    dsimp only [slice] at hin
    omega
  | horizontal =>
    dsimp only [slice] at hin
    omega

end Geometry

theorem validateGeometry_ok {g : Geometry} : validateGeometry g = .ok () ↔ g.Valid := by
  rw [validateGeometry]
  constructor
  · intro h
    by_cases hcell : g.width = 0 ∨ g.height = 0
    · rw [if_pos hcell] at h
      cases h
    · rw [if_neg hcell] at h
      by_cases hover : (checkedAdd g.row g.height).isNone ∨ (checkedAdd g.col g.width).isNone
      · rw [if_pos hover] at h
        cases h
      · simp only [checkedAdd] at hover
        refine ⟨?_, by grind, by grind⟩
        intro a
        cases a with
        | vertical => grind [Geometry.extent]
        | horizontal => grind [Geometry.extent]
  · intro h
    have hw : 1 ≤ g.width := h.cell .vertical
    have hh : 1 ≤ g.height := h.cell .horizontal
    rw [if_neg (by omega), checkedAdd_eq h.row_le, checkedAdd_eq h.col_le]
    rfl

theorem geometryWithExtent_ok {g : Geometry} (hg : g.Valid) {axis : SplitAxis} {start n : Nat}
    (hfit : start ≤ g.extent axis) :
    geometryWithExtent g axis start n = .ok (g.slice axis start n) := by
  have hrow := hg.row_le
  have hcol := hg.col_le
  cases axis with
  | vertical =>
    dsimp only [Geometry.extent] at hfit
    simp only [geometryWithExtent]
    rw [checkedAdd_eq (by omega)]
  | horizontal =>
    dsimp only [Geometry.extent] at hfit
    simp only [geometryWithExtent]
    rw [checkedAdd_eq (by omega)]

theorem checkedOffset_ok {g : Geometry} (hg : g.Valid) {axis : SplitAxis} {start n : Nat}
    (hfit : start + n ≤ g.extent axis) : checkedOffset start n = .ok (start + n) := by
  have hrow := hg.row_le
  have hcol := hg.col_le
  have hle : start + n ≤ usizeMax := by
    cases axis with
    | vertical =>
      dsimp only [Geometry.extent] at hfit
      omega
    | horizontal =>
      dsimp only [Geometry.extent] at hfit
      omega
  rw [checkedOffset, checkedAdd_eq hle]

namespace Frame

variable {f : Frame} {g : Geometry} {axis : SplitAxis} {children : List Frame} {extent : Nat → Nat}
  {e e' : SplitAxis → Nat}

/-! ## Room -/

/-- Dividing the extents equally, level by level, leaves every frame a cell. -/
inductive Roomy : Frame → (SplitAxis → Nat) → Prop
  | leaf {l : LeafFrame} {e : SplitAxis → Nat} (cell : ∀ a, 1 ≤ e a) : Roomy (leaf l) e
  | container {axis : SplitAxis} {geometry : Geometry} {children : List Frame} {e : SplitAxis → Nat}
      (cell : ∀ a, 1 ≤ e a) (nonempty : children ≠ []) (room : children.length ≤ e axis)
      (below : ∀ i child, children[i]? = some child →
        Roomy child (Function.update e axis (share (e axis) children.length i))) :
      Roomy (container axis geometry children) e

theorem Roomy.cell (h : Roomy f e) : ∀ a, 1 ≤ e a := by
  cases h with
  | leaf cell => exact cell
  | container cell => exact cell

@[simp] theorem roomy_leaf {l : LeafFrame} : Roomy (leaf l) e ↔ ∀ a, 1 ≤ e a :=
  ⟨Roomy.cell, .leaf⟩

theorem roomy_container : Roomy (container axis g children) e ↔
    (∀ a, 1 ≤ e a) ∧ children ≠ [] ∧ children.length ≤ e axis ∧
      ∀ i child, children[i]? = some child →
        Roomy child (Function.update e axis (share (e axis) children.length i)) := by
  constructor
  · intro h
    cases h with
    | container cell nonempty room below => exact ⟨cell, nonempty, room, below⟩
  · rintro ⟨cell, nonempty, room, below⟩
    exact .container cell nonempty room below

/-- Room for a rectangle is room for a larger one. -/
theorem Roomy.mono (h : Roomy f e) (hle : ∀ a, e a ≤ e' a) : Roomy f e' := by
  induction h generalizing e' with
  | leaf cell => exact .leaf fun a => Nat.le_trans (cell a) (hle a)
  | @container axis geometry children e cell nonempty room _ ih =>
    refine .container (fun a => Nat.le_trans (cell a) (hle a)) nonempty
      (Nat.le_trans room (hle axis)) ?_
    intro i child hi
    apply ih i child hi
    intro a
    rw [Function.update_apply, Function.update_apply]
    split
    · exact share_mono (hle axis) (List.getElem?_eq_some_iff.mp hi).1
    · exact hle a

theorem roomy_blank : Roomy f.blank e ↔ Roomy f e := by
  induction f generalizing e with
  | leaf l => simp
  | container axis geometry children ih =>
    rw [blank_container, roomy_container, roomy_container]
    simp only [ne_eq, List.map_eq_nil_iff, List.length_map, List.getElem?_map]
    refine and_congr_right fun _ => and_congr_right fun _ => and_congr_right fun _ => ?_
    refine forall_congr' fun i => ?_
    constructor
    · intro h child hi
      rw [← ih child (List.mem_of_getElem? hi)]
      exact h child.blank (by rw [hi]; rfl)
    · intro h child hi
      obtain ⟨child, hchild, rfl⟩ := Option.map_eq_some_iff.mp hi
      rw [ih child (List.mem_of_getElem? hchild)]
      exact h child hchild

theorem roomy_of_blank {f' : Frame} (h : f.blank = f'.blank) (hf : Roomy f e) : Roomy f' e := by
  rwa [← roomy_blank, ← h, roomy_blank]

/-! ## Validation -/

theorem validateChildrenGeometry_eq (base remainder : Nat) :
    ∀ (children : List Frame) (index start : Nat),
      validateChildrenGeometry axis g base remainder children index start
        = validateExtents g axis (fun i _ => base + if i < remainder then 1 else 0) children index
            start
  | [], _, _ => rfl
  | child :: children, index, start => by
    rw [validateChildrenGeometry, validateExtents]
    refine bind_congr fun _ => bind_congr fun _ => bind_congr fun _ => ?_
    exact validateChildrenGeometry_eq base remainder children (index + 1) _

theorem validateExtents_congr {extent extent' : Nat → Frame → Nat} :
    ∀ (children : List Frame) (index start : Nat),
      (∀ i child, children[i]? = some child → extent (index + i) child = extent' (index + i) child) →
        validateExtents g axis extent children index start
          = validateExtents g axis extent' children index start
  | [], _, _ => fun _ => rfl
  | child :: children, index, start => by
    intro h
    have hfirst : extent index child = extent' index child := h 0 child rfl
    rw [validateExtents, validateExtents, hfirst]
    refine bind_congr fun _ => bind_congr fun _ => bind_congr fun _ => ?_
    apply validateExtents_congr children (index + 1)
    intro i c hi
    rw [Nat.add_assoc, Nat.add_comm 1]
    exact h (i + 1) c hi

/-- Slices that fit are valid where the children have room in them. -/
theorem validateExtents_ok (hg : g.Valid) (extent : Nat → Nat) :
    ∀ (children : List Frame) (index start : Nat),
      (∀ child ∈ children, ∀ g', validateFrameGeometry child g' = .ok () ↔
        g'.Valid ∧ Roomy child g'.extent) →
      start + offset (fun i => extent (index + i)) children.length ≤ g.extent axis →
      (validateExtents g axis (fun i _ => extent i) children index start = .ok () ↔
        ∀ i child, children[i]? = some child →
          Roomy child (Function.update g.extent axis (extent (index + i))))
  | [], _, _ => by
    intro _ _
    simp [validateExtents]
  | child :: children, index, start => by
    intro ih hfit
    rw [List.length_cons, offset_succ', Nat.add_zero] at hfit
    have hshift : (fun i => extent (index + (i + 1))) = fun i => extent (index + 1 + i) := by
      funext i
      rw [Nat.add_assoc, Nat.add_comm 1]
    rw [hshift, ← Nat.add_assoc] at hfit
    have hrest := validateExtents_ok hg extent children (index + 1) (start + extent index)
      (fun c hc => ih c (List.mem_cons_of_mem _ hc)) hfit
    have hhere : validateFrameGeometry child (g.slice axis start (extent index)) = .ok () ↔
        Roomy child (Function.update g.extent axis (extent index)) := by
      rw [ih child List.mem_cons_self, Geometry.extent_slice]
      refine ⟨And.right, fun h => ⟨?_, h⟩⟩
      have hcell := h.cell axis
      rw [Function.update_self] at hcell
      exact hg.slice hcell (by omega)
    rw [validateExtents, geometryWithExtent_ok hg (by omega)]
    have hsplit : (∀ i c, (child :: children)[i]? = some c →
          Roomy c (Function.update g.extent axis (extent (index + i)))) ↔
        Roomy child (Function.update g.extent axis (extent index)) ∧
          ∀ i c, children[i]? = some c →
            Roomy c (Function.update g.extent axis (extent (index + 1 + i))) := by
      constructor
      · intro h
        refine ⟨h 0 child rfl, fun i c hi => ?_⟩
        rw [Nat.add_assoc, Nat.add_comm 1]
        exact h (i + 1) c hi
      · rintro ⟨hfirst, hall⟩ i c hi
        cases i with
        | zero =>
          cases hi
          exact hfirst
        | succ i =>
          rw [Nat.add_comm i, ← Nat.add_assoc]
          exact hall i c hi
    have hnext : start + extent index ≤ g.extent axis := by omega
    rw [hsplit, ← hrest, ← hhere, checkedOffset_ok hg hnext]
    show (validateFrameGeometry child _ >>= fun _ => validateExtents _ _ _ _ _ _) = _ ↔ _
    cases validateFrameGeometry child (g.slice axis start (extent index)) with
    | error error =>
      constructor
      · intro h
        cases h
      · intro h
        cases h.1
    | ok _ => exact (and_iff_right rfl).symm

/-- The validation accepts a valid rectangle in which the frame has room. -/
theorem validateFrameGeometry_ok : ∀ (f : Frame) (g : Geometry),
    validateFrameGeometry f g = .ok () ↔ g.Valid ∧ Roomy f g.extent := by
  intro f
  induction f with
  | leaf l =>
    intro g
    rw [validateFrameGeometry, validateGeometry_ok, roomy_leaf]
    exact ⟨fun h => ⟨h, h.cell⟩, And.left⟩
  | container axis own children ih =>
    intro g
    rw [validateFrameGeometry]
    cases hvalid : validateGeometry g with
    | error error =>
      constructor
      · intro h
        cases h
      · intro h
        rw [validateGeometry_ok.mpr h.1] at hvalid
        cases hvalid
    | ok _ =>
      have hg := validateGeometry_ok.mp hvalid
      rw [and_iff_right hg, roomy_container, and_iff_right hg.cell]
      show (if children.isEmpty = true ∨ g.extent axis < children.length then _ else _) = _ ↔ _
      by_cases hbad : children.isEmpty = true ∨ g.extent axis < children.length
      · rw [if_pos hbad]
        constructor
        · intro h
          cases h
        · rintro ⟨hne, hroom, -⟩
          rw [List.isEmpty_iff] at hbad
          rcases hbad with hnil | hlt
          · exact absurd hnil hne
          · omega
      · rw [if_neg hbad]
        rw [List.isEmpty_iff, not_or, Nat.not_lt] at hbad
        have hpos : 0 < children.length := List.length_pos_iff.mpr hbad.1
        rw [and_iff_right hbad.1, and_iff_right hbad.2, validateChildrenGeometry_eq]
        have hfit : 0 + offset (fun i => share (g.extent axis) children.length (0 + i))
            children.length ≤ g.extent axis := by
          simp only [Nat.zero_add]
          rw [offset_share hpos]
        have hall := validateExtents_ok hg (share (g.extent axis) children.length) children 0 0 ih
          hfit
        simp only [Nat.zero_add] at hall
        exact hall

/-! ## Assignment -/

@[simp] theorem geometry_assignFrameGeometry (f : Frame) (g : Geometry) :
    (assignFrameGeometry f g).geometry = g := by
  cases f with
  | leaf l => rfl
  | container axis own children => rfl

/-- The children with the slices that consecutive extents give them. -/
def placed (g : Geometry) (axis : SplitAxis) (extent : Nat → Nat) :
    List Frame → (index start : Nat) → List Frame
  | [], _, _ => []
  | child :: children, index, start =>
    assignFrameGeometry child (g.slice axis start (extent index)) ::
      placed g axis extent children (index + 1) (start + extent index)

theorem assignChildrenGeometry_eq (base remainder : Nat) :
    ∀ (children : List Frame) (index start : Nat),
      assignChildrenGeometry axis g base remainder children index start
        = placed g axis (fun i => base + if i < remainder then 1 else 0) children index start
  | [], _, _ => rfl
  | child :: children, index, start => by
    rw [assignChildrenGeometry, placed, assignChildrenGeometry_eq base remainder children]

@[simp] theorem assignFrameGeometry_container (own : Geometry) :
    assignFrameGeometry (container axis own children) g
      = container axis g (placed g axis (share (g.extent axis) children.length) children 0 0) := by
  rw [assignFrameGeometry, assignChildrenGeometry_eq]
  rfl

/-- Where the slices fit, the assignment of the resize does not fail. -/
theorem assignExtents_eq (hg : g.Valid) (extentOf : Nat → Frame → Nat) (extent : Nat → Nat) :
    ∀ (children : List Frame) (index start : Nat),
      (∀ i child, children[i]? = some child → extentOf (index + i) child = extent (index + i)) →
      start + offset (fun i => extent (index + i)) children.length ≤ g.extent axis →
      assignExtents g axis extentOf children index start
        = (.ok (), placed g axis extent children index start)
  | [], _, _ => fun _ _ => rfl
  | child :: children, index, start => by
    intro hext hfit
    have hfirst : extentOf index child = extent index := hext 0 child rfl
    rw [List.length_cons, offset_succ', Nat.add_zero] at hfit
    have hshift : (fun i => extent (index + (i + 1))) = fun i => extent (index + 1 + i) := by
      funext i
      rw [Nat.add_assoc, Nat.add_comm 1]
    rw [hshift, ← Nat.add_assoc] at hfit
    have hrest := assignExtents_eq hg extentOf extent children (index + 1) (start + extent index)
      (fun i c hi => by
        rw [Nat.add_assoc, Nat.add_comm 1]
        exact hext (i + 1) c hi) hfit
    have hnext : start + extent index ≤ g.extent axis := by omega
    rw [assignExtents, hfirst, geometryWithExtent_ok hg (Nat.le_of_add_right_le hnext)]
    dsimp only
    rw [checkedOffset_ok hg hnext]
    dsimp only
    rw [hrest]
    rfl

theorem getElem?_placed : ∀ (children : List Frame) (index start i : Nat),
    (placed g axis extent children index start)[i]? = children[i]?.map fun child =>
      assignFrameGeometry child
        (g.slice axis (start + offset (fun j => extent (index + j)) i) (extent (index + i)))
  | [], _, _, _ => rfl
  | child :: children, index, start, 0 => rfl
  | child :: children, index, start, i + 1 => by
    rw [placed, List.getElem?_cons_succ, List.getElem?_cons_succ, getElem?_placed children,
      offset_succ']
    simp only [Nat.add_zero, Nat.add_assoc, Nat.add_comm 1]

theorem mem_placed {c : Frame} {index start : Nat} (h : c ∈ placed g axis extent children index start) :
    ∃ i child, children[i]? = some child ∧ ∃ offset, c = assignFrameGeometry child
      (g.slice axis offset (extent (index + i))) := by
  obtain ⟨i, hi⟩ := List.mem_iff_getElem?.mp h
  rw [getElem?_placed] at hi
  obtain ⟨child, hchild, rfl⟩ := Option.map_eq_some_iff.mp hi
  exact ⟨i, child, hchild, _, rfl⟩

/-- The assignment changes geometry only. -/
theorem blank_assignFrameGeometry (f : Frame) (g : Geometry) :
    (assignFrameGeometry f g).blank = f.blank := by
  induction f generalizing g with
  | leaf l => rfl
  | container axis own children ih =>
    rw [assignFrameGeometry_container, blank_container, blank_container]
    congr 1
    apply List.ext_getElem?
    intro i
    rw [List.getElem?_map, getElem?_placed, List.getElem?_map, Option.map_map]
    cases hi : children[i]? with
    | none => rfl
    | some child => exact congrArg some (ih child (List.mem_of_getElem? hi) _)

theorem blank_placed (children : List Frame) (index start : Nat) :
    (placed g axis extent children index start).map blank = children.map blank := by
  apply List.ext_getElem?
  intro i
  rw [List.getElem?_map, getElem?_placed, List.getElem?_map, Option.map_map]
  cases children[i]? with
  | none => rfl
  | some child => exact congrArg some (blank_assignFrameGeometry child _)

/-! ## Stacked children -/

/-- The children fill the rectangle from an offset on, one slice after the other. -/
def Stacks (g : Geometry) (axis : SplitAxis) : (start : Nat) → List Frame → Prop
  | start, [] => start = g.extent axis
  | start, child :: children =>
    child.geometry = g.slice axis start (child.geometry.extent axis) ∧
      1 ≤ child.geometry.extent axis ∧ Stacks g axis (start + child.geometry.extent axis) children

/-- Every container stacks its children. -/
abbrev Laid : Frame → Prop := Every fun axis g children => Stacks g axis 0 children

theorem stacks_placed : ∀ (children : List Frame) (index start : Nat),
    (∀ i < children.length, 1 ≤ extent (index + i)) →
    start + offset (fun i => extent (index + i)) children.length = g.extent axis →
    Stacks g axis start (placed g axis extent children index start)
  | [], _, _ => by
    intro _ hsum
    exact hsum
  | child :: children, index, start => by
    intro hpos hsum
    rw [List.length_cons, offset_succ', Nat.add_zero, ← Nat.add_assoc] at hsum
    rw [placed, Stacks, geometry_assignFrameGeometry, Geometry.extent_slice_self]
    refine ⟨rfl, hpos 0 (by simp), ?_⟩
    apply stacks_placed children (index + 1)
    · intro i hi
      rw [Nat.add_assoc, Nat.add_comm 1]
      exact hpos (i + 1) (by simpa using hi)
    · simp only [Nat.add_assoc, Nat.add_comm 1]
      simpa only [Nat.add_assoc] using hsum

/-- An equalization with room for everyone lays the frame out. -/
theorem assignFrameGeometry_laid (g : Geometry) (h : Roomy f g.extent) :
    (assignFrameGeometry f g).Laid := by
  induction f generalizing g with
  | leaf l => exact .leaf _
  | container axis own children ih =>
    obtain ⟨-, hne, hroom, hbelow⟩ := roomy_container.mp h
    have hpos : 0 < children.length := List.length_pos_iff.mpr hne
    rw [assignFrameGeometry_container]
    refine .container ?_ ?_
    · apply stacks_placed
      · intro i _
        exact share_pos hpos hroom
      · simp only [Nat.zero_add]
        exact offset_share hpos
    · intro c hc
      obtain ⟨i, child, hi, start, rfl⟩ := mem_placed hc
      apply ih child (List.mem_of_getElem? hi)
      rw [Geometry.extent_slice, Nat.zero_add]
      exact hbelow i child hi

/-- Siblings whose extents differ by at most one cell. -/
abbrev Even : Frame → Prop :=
  Every fun axis _ children => ∀ child ∈ children, ∀ sibling ∈ children,
    child.geometry.extent axis ≤ sibling.geometry.extent axis + 1

theorem assignFrameGeometry_even (f : Frame) (g : Geometry) : (assignFrameGeometry f g).Even := by
  induction f generalizing g with
  | leaf l => exact .leaf _
  | container axis own children ih =>
    rw [assignFrameGeometry_container]
    refine .container ?_ ?_
    · intro child hchild sibling hsibling
      obtain ⟨i, child, hi, start, rfl⟩ := mem_placed hchild
      obtain ⟨j, sibling, hj, start', rfl⟩ := mem_placed hsibling
      simp only [geometry_assignFrameGeometry, Geometry.extent_slice_self]
      exact share_le_succ _ _
    · intro c hc
      obtain ⟨i, child, hi, start, rfl⟩ := mem_placed hc
      exact ih child (List.mem_of_getElem? hi) _

/-- What stacked children have together and each across. -/
theorem Stacks.sum {start : Nat} (h : Stacks g axis start children) :
    start + (children.map fun child => child.geometry.extent axis).sum = g.extent axis := by
  induction children generalizing start with
  | nil => exact h
  | cons child children ih =>
    obtain ⟨-, -, hrest⟩ := h
    rw [List.map_cons, List.sum_cons, ← Nat.add_assoc]
    exact ih hrest

theorem Stacks.slice {start : Nat} (h : Stacks g axis start children) :
    ∀ child ∈ children, ∃ start', child.geometry = g.slice axis start' (child.geometry.extent axis) ∧
      1 ≤ child.geometry.extent axis ∧ start' + child.geometry.extent axis ≤ g.extent axis := by
  induction children generalizing start with
  | nil =>
    intro child hchild
    cases hchild
  | cons child children ih =>
    obtain ⟨hslice, hpos, hrest⟩ := h
    intro c hc
    rcases List.mem_cons.mp hc with rfl | hc
    · have hsum := hrest.sum
      exact ⟨start, hslice, hpos, by omega⟩
    · exact ih hrest c hc

theorem Stacks.across {start : Nat} (h : Stacks g axis start children) :
    ∀ child ∈ children, ∀ a ≠ axis, child.geometry.extent a = g.extent a := by
  intro child hchild a ha
  obtain ⟨start', hslice, -, -⟩ := h.slice child hchild
  rw [hslice, Geometry.extent_slice, Function.update_of_ne ha]

/-- Children of a valid rectangle have valid rectangles. -/
theorem Stacks.valid {start : Nat} (h : Stacks g axis start children) (hg : g.Valid) :
    ∀ child ∈ children, child.geometry.Valid := by
  intro child hchild
  obtain ⟨start', hslice, hpos, hfit⟩ := h.slice child hchild
  rw [hslice]
  exact hg.slice hpos hfit

/-- Whether children stack depends on their rectangles only. -/
theorem Stacks.congr {children' : List Frame} {start : Nat}
    (hsame : children.map geometry = children'.map geometry) (h : Stacks g axis start children) :
    Stacks g axis start children' := by
  induction children generalizing children' start with
  | nil =>
    cases children' with
    | nil => exact h
    | cons child' children' => simp at hsame
  | cons child children ih =>
    cases children' with
    | nil => simp at hsame
    | cons child' children' =>
      obtain ⟨hslice, hpos, hrest⟩ := h
      obtain ⟨hfirst, htail⟩ := List.cons.inj hsame
      rw [Stacks, ← hfirst]
      exact ⟨hslice, hpos, ih htail hrest⟩

/-! ## Tiling -/

/-- Rectangles without overlap that fill a region. -/
structure Tiles (rectangles : List Geometry) (region : Set (Nat × Nat)) : Prop where
  disjoint : rectangles.Pairwise fun g g' => Disjoint g.cells g'.cells
  union : (⋃ g ∈ rectangles, g.cells) = region

theorem Tiles.append {gs gs' : List Geometry} {region region' : Set (Nat × Nat)}
    (h : Tiles gs region) (h' : Tiles gs' region') (hdisjoint : Disjoint region region') :
    Tiles (gs ++ gs') (region ∪ region') := by
  refine ⟨?_, ?_⟩
  · rw [List.pairwise_append]
    refine ⟨h.disjoint, h'.disjoint, ?_⟩
    intro a ha b hb
    refine hdisjoint.mono ?_ ?_
    · rw [← h.union]
      exact Set.subset_biUnion_of_mem ha
    · rw [← h'.union]
      exact Set.subset_biUnion_of_mem hb
  · ext cell
    simp only [← h.union, ← h'.union, Set.mem_iUnion, Set.mem_union, List.mem_append]
    grind

/-- Tiled slices one after the other tile what is left of the rectangle. -/
theorem Stacks.tiles {start : Nat} (h : Stacks g axis start children)
    (htiles : ∀ child ∈ children, Tiles (child.leaves.map (·.geometry)) child.geometry.cells) :
    Tiles ((children.flatMap leaves).map (·.geometry))
      (g.slice axis start (g.extent axis - start)).cells := by
  induction children generalizing start with
  | nil =>
    obtain rfl : start = g.extent axis := h
    rw [Nat.sub_self, Geometry.cells_slice_zero]
    exact ⟨List.Pairwise.nil, by simp⟩
  | cons child children ih =>
    obtain ⟨hslice, -, hrest⟩ := h
    have hsum := hrest.sum
    have hsplit : g.extent axis - start
        = child.geometry.extent axis + (g.extent axis - (start + child.geometry.extent axis)) := by
      omega
    rw [hsplit, Geometry.cells_slice_add, List.flatMap_cons, List.map_append, ← hslice]
    refine Tiles.append (htiles child List.mem_cons_self)
      (ih hrest fun c hc => htiles c (List.mem_cons_of_mem _ hc)) ?_
    nth_rewrite 1 [hslice]
    exact Geometry.disjoint_slices g axis start _ _

/-- The leaves of a laid frame tile its rectangle. -/
theorem Laid.tiles (h : f.Laid) : Tiles (f.leaves.map (·.geometry)) f.geometry.cells := by
  induction f with
  | leaf l =>
    refine ⟨List.pairwise_singleton _ _, ?_⟩
    simp [geometry]
  | container axis own children ih =>
    obtain ⟨hstacks, hbelow⟩ := every_container.mp h
    have htiles := hstacks.tiles fun child hchild => ih child hchild (hbelow child hchild)
    rw [Nat.sub_zero, Geometry.slice_full] at htiles
    rw [leaves_container]
    exact htiles

/-- In a valid rectangle all leaves have valid ones. -/
theorem Laid.valid (h : f.Laid) (hg : f.geometry.Valid) : ∀ l ∈ f.leaves, l.geometry.Valid := by
  induction f with
  | leaf l =>
    intro l' hl'
    rw [leaves_leaf, List.mem_singleton] at hl'
    subst hl'
    exact hg
  | container axis own children ih =>
    obtain ⟨hstacks, hbelow⟩ := every_container.mp h
    intro l hl
    rw [leaves_container, List.mem_flatMap] at hl
    obtain ⟨child, hchild, hl⟩ := hl
    exact ih child hchild (hbelow child hchild) (hstacks.valid hg child hchild) l hl

end Frame

end Oxvim.Editor
