import Oxvim.Editor.Layout

/-!
# Leaves and containers of a frame

The leaves of a frame in preorder say what the functions that look windows up return. `Every` says
something of every container of a frame. `blank` forgets all geometry: what only assigns geometry
leaves it alone, and what does not read geometry depends on it only.
-/

namespace Oxvim.Editor.Frame

/-- Induction with a hypothesis for every child. -/
@[elab_as_elim, induction_eliminator]
theorem induction {P : Frame → Prop} (leaf : ∀ l, P (.leaf l))
    (container : ∀ axis geometry children, (∀ child ∈ children, P child) →
      P (.container axis geometry children)) (f : Frame) : P f := by
  refine @Frame.rec P (fun children => ∀ child ∈ children, P child) leaf container ?_ ?_ f
  · simp
  · intro child children hchild hchildren c hc
    rcases List.mem_cons.mp hc with rfl | hc
    · exact hchild
    · exact hchildren c hc

/-! ## Leaves -/

mutual

/-- The leaves in preorder. -/
def leaves : Frame → List LeafFrame
  | leaf l => [l]
  | container _ _ children => leavesIn children

def leavesIn : List Frame → List LeafFrame
  | [] => []
  | child :: children => child.leaves ++ leavesIn children

end

@[simp] theorem leaves_leaf (l : LeafFrame) : (leaf l).leaves = [l] := rfl

theorem leavesIn_eq (children : List Frame) : leavesIn children = children.flatMap leaves := by
  induction children with
  | nil => rfl
  | cons child children ih => rw [leavesIn, ih, List.flatMap_cons]

@[simp] theorem leaves_container (axis : SplitAxis) (geometry : Geometry) (children : List Frame) :
    (container axis geometry children).leaves = children.flatMap leaves :=
  leavesIn_eq children

mutual

theorem collectWindows_eq : ∀ f : Frame, f.collectWindows = f.leaves.map (·.window)
  | leaf _ => rfl
  | container _ _ children => collectWindowsIn_eq children

theorem collectWindowsIn_eq : ∀ children : List Frame,
    collectWindowsIn children = (leavesIn children).map (·.window)
  | [] => rfl
  | child :: children => by
    rw [collectWindowsIn, leavesIn, List.map_append, collectWindows_eq child,
      collectWindowsIn_eq children]

end

mutual

theorem windowCount_eq : ∀ f : Frame, f.windowCount = f.leaves.length
  | leaf _ => rfl
  | container _ _ children => windowCounts_eq children

theorem windowCounts_eq : ∀ children : List Frame, windowCounts children = (leavesIn children).length
  | [] => rfl
  | child :: children => by
    rw [windowCounts, leavesIn, List.length_append, windowCount_eq child, windowCounts_eq children]

end

variable {w : WinHandle}

mutual

theorem findLeaf_eq (w : WinHandle) : ∀ f : Frame, findLeaf w f = f.leaves.find? (·.window = w)
  | leaf l => by
    rw [findLeaf, leaves_leaf]
    grind
  | container _ _ children => findLeafIn_eq w children

theorem findLeafIn_eq (w : WinHandle) : ∀ children : List Frame,
    findLeafIn w children = (leavesIn children).find? (·.window = w)
  | [] => rfl
  | child :: children => by
    rw [findLeafIn, leavesIn, List.find?_append, findLeaf_eq w child, findLeafIn_eq w children]

end

theorem findLeaf_isSome {f : Frame} : (findLeaf w f).isSome ↔ w ∈ f.collectWindows := by
  rw [findLeaf_eq, collectWindows_eq, List.find?_isSome]
  simp

theorem findLeaf_eq_some {f : Frame} {l : LeafFrame} (h : findLeaf w f = some l) :
    l ∈ f.leaves ∧ l.window = w := by
  rw [findLeaf_eq] at h
  exact ⟨List.mem_of_find?_eq_some h, by simpa using List.find?_some h⟩

/-! ## Numbers -/

mutual

/-- A window that is there has its place in the preorder as number; else the count goes on. -/
theorem preorderNumber_eq (w : WinHandle) : ∀ (f : Frame) (next : Nat),
    (preorderNumber w f next).1 = (f.collectWindows.findIdx? (· = w)).map (next + ·) ∧
      (w ∉ f.collectWindows → (preorderNumber w f next).2 = next + f.collectWindows.length)
  | leaf l, next => by
    rw [preorderNumber, collectWindows]
    by_cases hl : l.window = w
    · simp [hl, List.findIdx?_cons]
    · simp [hl, List.findIdx?_cons]
  | container _ _ children, next => preorderNumberIn_eq w children next

theorem preorderNumberIn_eq (w : WinHandle) : ∀ (children : List Frame) (next : Nat),
    (preorderNumberIn w children next).1
        = ((collectWindowsIn children).findIdx? (· = w)).map (next + ·) ∧
      (w ∉ collectWindowsIn children →
        (preorderNumberIn w children next).2 = next + (collectWindowsIn children).length)
  | [], next => ⟨rfl, fun _ => rfl⟩
  | child :: children, next => by
    obtain ⟨hfirst, hskip⟩ := preorderNumber_eq w child next
    rw [preorderNumberIn, collectWindowsIn, List.findIdx?_append]
    generalize preorderNumber w child next = r at hfirst hskip
    obtain ⟨number, next'⟩ := r
    dsimp only at hfirst hskip
    cases hfound : child.collectWindows.findIdx? (· = w) with
    | some i =>
      rw [hfound] at hfirst
      subst hfirst
      refine ⟨by simp, ?_⟩
      intro hw
      have hmem : w ∈ child.collectWindows := by
        obtain ⟨hi, hwi, -⟩ := List.findIdx?_eq_some_iff_getElem.mp hfound
        rw [← of_decide_eq_true hwi]
        exact List.getElem_mem _
      exact absurd (List.mem_append_left _ hmem) hw
    | none =>
      rw [hfound] at hfirst
      subst hfirst
      have hw : w ∉ child.collectWindows := by
        intro hmem
        have := List.findIdx?_eq_none_iff.mp hfound w hmem
        simp at this
      obtain rfl := hskip hw
      obtain ⟨hrest, hskip'⟩ := preorderNumberIn_eq w children (next + child.collectWindows.length)
      dsimp only [Option.map_none]
      rw [hrest]
      constructor
      · cases (collectWindowsIn children).findIdx? (· = w) with
        | none => rfl
        | some j =>
          simp
          omega
      · intro hnot
        rw [hskip' fun hmem => hnot (List.mem_append_right _ hmem), List.length_append,
          Nat.add_assoc]

end

mutual

/-- A number that is not used up yet leads to the window at its place. -/
theorem preorderWindow_eq (wanted : Nat) : ∀ (f : Frame) (next : Nat), next ≤ wanted →
    (preorderWindow wanted f next).1 = f.collectWindows[wanted - next]? ∧
      (next + f.collectWindows.length ≤ wanted →
        (preorderWindow wanted f next).2 = next + f.collectWindows.length)
  | leaf l, next => by
    intro hle
    rw [preorderWindow, collectWindows]
    by_cases hnext : next = wanted
    · simp [hnext]
    · have hpos : wanted - next ≠ 0 := by omega
      obtain ⟨k, hk⟩ := Nat.exists_eq_succ_of_ne_zero hpos
      simp [hnext, hk]
  | container _ _ children, next => preorderWindowIn_eq wanted children next

theorem preorderWindowIn_eq (wanted : Nat) : ∀ (children : List Frame) (next : Nat), next ≤ wanted →
    (preorderWindowIn wanted children next).1 = (collectWindowsIn children)[wanted - next]? ∧
      (next + (collectWindowsIn children).length ≤ wanted →
        (preorderWindowIn wanted children next).2 = next + (collectWindowsIn children).length)
  | [], next => by
    intro _
    simp [preorderWindowIn, collectWindowsIn]
  | child :: children, next => by
    intro hle
    obtain ⟨hfirst, hskip⟩ := preorderWindow_eq wanted child next hle
    rw [preorderWindowIn, collectWindowsIn]
    generalize preorderWindow wanted child next = r at hfirst hskip
    obtain ⟨window, next'⟩ := r
    dsimp only at hfirst hskip
    by_cases hin : wanted - next < child.collectWindows.length
    · rw [List.getElem?_eq_getElem hin] at hfirst
      subst hfirst
      rw [List.getElem?_append_left hin, List.getElem?_eq_getElem hin, List.length_append]
      exact ⟨rfl, fun hover => by omega⟩
    · rw [List.getElem?_eq_none (by omega)] at hfirst
      subst hfirst
      obtain rfl := hskip (by omega)
      obtain ⟨hrest, hskip'⟩ :=
        preorderWindowIn_eq wanted children (next + child.collectWindows.length) (by omega)
      rw [List.getElem?_append_right (by omega), List.length_append, ← Nat.add_assoc]
      dsimp only
      rw [hrest, Nat.sub_sub]
      exact ⟨rfl, hskip'⟩

end

/-! ## A window among the children -/

theorem collectWindowsIn_eq_flatMap (children : List Frame) :
    collectWindowsIn children = children.flatMap collectWindows := by
  induction children with
  | nil => rfl
  | cons child children ih => rw [collectWindowsIn, ih, List.flatMap_cons]

@[simp] theorem collectWindows_leaf (l : LeafFrame) : (leaf l).collectWindows = [l.window] := rfl

@[simp] theorem collectWindows_container (axis : SplitAxis) (geometry : Geometry)
    (children : List Frame) :
    (container axis geometry children).collectWindows = children.flatMap collectWindows :=
  collectWindowsIn_eq_flatMap children

/-- `child` is the first frame with the window: the ones before it do not have it. -/
structure FirstWith (w : WinHandle) (before : List Frame) (child : Frame) : Prop where
  skip : ∀ b ∈ before, w ∉ b.collectWindows
  mem : w ∈ child.collectWindows

theorem exists_firstWith {children : List Frame} (h : w ∈ children.flatMap collectWindows) :
    ∃ before child after, children = before ++ child :: after ∧ FirstWith w before child := by
  induction children with
  | nil => simp at h
  | cons child children ih =>
    by_cases hchild : w ∈ child.collectWindows
    · exact ⟨[], child, children, rfl, by simp, hchild⟩
    · rw [List.flatMap_cons, List.mem_append] at h
      obtain ⟨before, found, after, rfl, hfirst⟩ := ih (h.resolve_left hchild)
      refine ⟨child :: before, found, after, rfl, ?_, hfirst.mem⟩
      intro b hb
      rcases List.mem_cons.mp hb with rfl | hb
      · exact hchild
      · exact hfirst.skip b hb

/-- There is one first frame with the window. -/
theorem FirstWith.unique {before before' after after' : List Frame} {child child' : Frame}
    (h : FirstWith w before child) (h' : FirstWith w before' child')
    (heq : before ++ child :: after = before' ++ child' :: after') :
    before = before' ∧ child = child' ∧ after = after' := by
  induction before generalizing before' with
  | nil =>
    cases before' with
    | nil => grind
    | cons b before' =>
      obtain ⟨rfl, -⟩ := List.cons.inj heq
      exact absurd h.mem (h'.skip _ List.mem_cons_self)
  | cons b before ih =>
    cases before' with
    | nil =>
      obtain ⟨rfl, -⟩ := List.cons.inj heq
      exact absurd h'.mem (h.skip _ List.mem_cons_self)
    | cons b' before' =>
      obtain ⟨rfl, htail⟩ := List.cons.inj heq
      have hrest : FirstWith w before child := ⟨fun c hc => h.skip c (List.mem_cons_of_mem _ hc), h.mem⟩
      have hrest' : FirstWith w before' child' :=
        ⟨fun c hc => h'.skip c (List.mem_cons_of_mem _ hc), h'.mem⟩
      obtain ⟨rfl, hsame⟩ := ih hrest hrest' htail
      exact ⟨rfl, hsame⟩

/-! ## Containers -/

/-- Something holds of every container. -/
inductive Every (P : SplitAxis → Geometry → List Frame → Prop) : Frame → Prop
  | leaf (l : LeafFrame) : Every P (leaf l)
  | container {axis : SplitAxis} {geometry : Geometry} {children : List Frame}
      (own : P axis geometry children) (below : ∀ child ∈ children, Every P child) :
      Every P (container axis geometry children)

variable {P Q : SplitAxis → Geometry → List Frame → Prop}

@[simp] theorem every_leaf (l : LeafFrame) : Every P (leaf l) := .leaf l

@[simp] theorem every_container {axis : SplitAxis} {geometry : Geometry} {children : List Frame} :
    Every P (container axis geometry children)
      ↔ P axis geometry children ∧ ∀ child ∈ children, Every P child := by
  constructor
  · intro h
    cases h with
    | container own below => exact ⟨own, below⟩
  · intro h
    exact .container h.1 h.2

theorem Every.imp {f : Frame} (h : Every P f)
    (himp : ∀ axis geometry children, P axis geometry children → Q axis geometry children) :
    Every Q f := by
  induction h with
  | leaf l => exact .leaf l
  | container own _ ih => exact .container (himp _ _ _ own) ih

theorem Every.and {f : Frame} (hP : Every P f) (hQ : Every Q f) :
    Every (fun axis geometry children => P axis geometry children ∧ Q axis geometry children) f := by
  induction hP with
  | leaf l => exact .leaf l
  | container own _ ih =>
    obtain ⟨hown, hbelow⟩ := every_container.mp hQ
    exact .container ⟨own, hown⟩ fun child hchild => ih child hchild (hbelow child hchild)

/-- No container is empty. -/
abbrev Inhabited : Frame → Prop := Every fun _ _ children => children ≠ []

/-- Every container has at least two children. -/
abbrev Populated : Frame → Prop := Every fun _ _ children => 2 ≤ children.length

/-- No container has a child of its own orientation. -/
abbrev Alternates : Frame → Prop :=
  Every fun axis _ children => ∀ child ∈ children, child.matchesAxis axis = false

theorem Populated.inhabited {f : Frame} (h : f.Populated) : f.Inhabited := by
  apply Every.imp h
  rintro _ _ _ hlength rfl
  simp at hlength

/-! ## Forgetting the geometry -/

mutual

/-- A frame without its geometry. -/
def blank : Frame → Frame
  | leaf l => leaf { l with geometry := ⟨0, 0, 0, 0⟩ }
  | container axis _ children => container axis ⟨0, 0, 0, 0⟩ (blanks children)

def blanks : List Frame → List Frame
  | [] => []
  | child :: children => child.blank :: blanks children

end

theorem blanks_eq (children : List Frame) : blanks children = children.map blank := by
  induction children with
  | nil => rfl
  | cons child children ih => rw [blanks, ih, List.map_cons]

@[simp] theorem blank_leaf (l : LeafFrame) :
    (leaf l).blank = leaf { l with geometry := ⟨0, 0, 0, 0⟩ } := rfl

@[simp] theorem blank_container (axis : SplitAxis) (geometry : Geometry) (children : List Frame) :
    (container axis geometry children).blank = container axis ⟨0, 0, 0, 0⟩ (children.map blank) := by
  rw [blank, blanks_eq]

/-- A property of a container's shape is one of the shape of its blank. -/
theorem every_blank (hP : ∀ axis geometry children,
    P axis geometry children ↔ P axis ⟨0, 0, 0, 0⟩ (children.map blank)) (f : Frame) :
    Every P f.blank ↔ Every P f := by
  induction f with
  | leaf l => simp
  | container axis geometry children ih =>
    rw [blank_container, every_container, every_container, ← hP, List.forall_mem_map]
    refine and_congr_right fun _ => ?_
    exact forall₂_congr ih

@[simp] theorem matchesAxis_blank (axis : SplitAxis) (f : Frame) :
    f.blank.matchesAxis axis = f.matchesAxis axis := by
  cases f with
  | leaf l => rfl
  | container own geometry children => rfl

theorem collectWindows_blank (f : Frame) : f.blank.collectWindows = f.collectWindows := by
  induction f with
  | leaf l => rfl
  | container axis geometry children ih =>
    rw [blank_container, collectWindows_container, collectWindows_container, List.flatMap_map]
    exact List.flatMap_congr ih

theorem populated_blank (f : Frame) : f.blank.Populated ↔ f.Populated := by
  apply every_blank
  intro axis geometry children
  rw [List.length_map]

theorem alternates_blank (f : Frame) : f.blank.Alternates ↔ f.Alternates := by
  apply every_blank
  intro axis geometry children
  simp

/-! ## Frames that differ in geometry only -/

section Alike

variable {f f' : Frame} (h : f.blank = f'.blank)

include h

theorem collectWindows_eq_of_blank : f.collectWindows = f'.collectWindows := by
  rw [← collectWindows_blank f, h, collectWindows_blank]

theorem populated_of_blank (hf : f.Populated) : f'.Populated := by
  rwa [← populated_blank, ← h, populated_blank]

theorem alternates_of_blank (hf : f.Alternates) : f'.Alternates := by
  rwa [← alternates_blank, ← h, alternates_blank]

end Alike

end Oxvim.Editor.Frame
