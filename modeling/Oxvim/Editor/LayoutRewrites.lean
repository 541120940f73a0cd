import Oxvim.Editor.LayoutFrames

/-!
# The rewrites of the frame tree

A split puts a leaf next to the target, into the target's container or into a new one: `Grafted`. A
close takes a leaf out of its container: `Removed`. Then containers with a single child give way to
it: `collapseContainers`. For each rewrite: what the functions of the source compute, what becomes of
the windows, and which shape the containers keep.
-/

namespace Oxvim.Editor.Frame

variable {target w : WinHandle} {axis own : SplitAxis} {placement : SplitPlacement}
  {geometry : Geometry} {new l : LeafFrame} {f f' child : Frame} {before after : List Frame}

/-! ## Functions that search for a window -/

mutual

theorem collectContainerPath_isSome (w : WinHandle) : ∀ f : Frame,
    (collectContainerPath w f).isSome ↔ w ∈ f.collectWindows
  | leaf l => by
    rw [collectContainerPath, collectWindows_leaf, List.mem_singleton]
    grind
  | container _ _ children => collectContainerPathIn_isSome w children 0

theorem collectContainerPathIn_isSome (w : WinHandle) : ∀ (children : List Frame) (index : Nat),
    (collectContainerPathIn w children index).isSome ↔ w ∈ collectWindowsIn children
  | [], _ => by simp [collectContainerPathIn, collectWindowsIn]
  | child :: children, index => by
    rw [collectContainerPathIn, collectWindowsIn, List.mem_append,
      ← collectContainerPath_isSome w child,
      ← collectContainerPathIn_isSome w children (index + 1)]
    cases collectContainerPath w child with
    | none => simp
    | some path => simp

end

mutual

theorem replaceLeaf_isSome (w : WinHandle) (replacement : Frame) : ∀ f : Frame,
    (replaceLeaf w replacement f).isSome ↔ w ∈ f.collectWindows
  | leaf l => by
    rw [replaceLeaf, collectWindows_leaf, List.mem_singleton]
    grind
  | container _ _ children => by
    rw [replaceLeaf, Option.isSome_map]
    exact replaceLeafIn_isSome w replacement children

theorem replaceLeafIn_isSome (w : WinHandle) (replacement : Frame) : ∀ children : List Frame,
    (replaceLeafIn w replacement children).isSome ↔ w ∈ collectWindowsIn children
  | [] => by simp [replaceLeafIn, collectWindowsIn]
  | child :: children => by
    rw [replaceLeafIn, collectWindowsIn, List.mem_append, ← replaceLeaf_isSome w replacement child,
      ← replaceLeafIn_isSome w replacement children]
    cases replaceLeaf w replacement child with
    | none => simp
    | some frame => simp

end

theorem FirstWith.tail {b : Frame} (h : FirstWith w (b :: before) child) : FirstWith w before child :=
  ⟨fun c hc => h.skip c (List.mem_cons_of_mem _ hc), h.mem⟩

theorem findLeafIn_firstWith (h : FirstWith w before child) :
    findLeafIn w (before ++ child :: after) = findLeaf w child := by
  induction before with
  | nil =>
    obtain ⟨found, hfound⟩ := Option.isSome_iff_exists.mp (findLeaf_isSome.mpr h.mem)
    rw [List.nil_append, findLeafIn, hfound, Option.some_or]
  | cons b before ih =>
    have hb : findLeaf w b = none := by
      rw [← Option.not_isSome_iff_eq_none, findLeaf_isSome]
      exact h.skip b List.mem_cons_self
    rw [List.cons_append, findLeafIn, hb, Option.none_or, ih h.tail]

theorem collectContainerPathIn_firstWith (h : FirstWith w before child) (index : Nat) :
    collectContainerPathIn w (before ++ child :: after) index
      = (collectContainerPath w child).map ((index + before.length) :: ·) := by
  induction before generalizing index with
  | nil =>
    obtain ⟨path, hpath⟩ :=
      Option.isSome_iff_exists.mp ((collectContainerPath_isSome w child).mpr h.mem)
    rw [List.nil_append, collectContainerPathIn, hpath]
    rfl
  | cons b before ih =>
    have hb : collectContainerPath w b = none := by
      rw [← Option.not_isSome_iff_eq_none, collectContainerPath_isSome]
      exact h.skip b List.mem_cons_self
    rw [List.cons_append, collectContainerPathIn, hb]
    dsimp only
    rw [ih h.tail, List.length_cons, Nat.add_assoc, Nat.add_comm 1]

theorem replaceLeafIn_firstWith (h : FirstWith w before child) (replacement : Frame) :
    replaceLeafIn w replacement (before ++ child :: after)
      = (replaceLeaf w replacement child).map fun c => before ++ c :: after := by
  induction before with
  | nil =>
    obtain ⟨frame, hframe⟩ :=
      Option.isSome_iff_exists.mp ((replaceLeaf_isSome w replacement child).mpr h.mem)
    rw [List.nil_append, replaceLeafIn, hframe]
    rfl
  | cons b before ih =>
    have hb : replaceLeaf w replacement b = none := by
      rw [← Option.not_isSome_iff_eq_none, replaceLeaf_isSome]
      exact h.skip b List.mem_cons_self
    rw [List.cons_append, replaceLeafIn, hb]
    dsimp only
    rw [ih h.tail, Option.map_map]
    rfl

/-! ## Splits -/

/-- The frame of the target and the new one, in the order the placement asks for. -/
def pair (placement : SplitPlacement) (old new : Frame) : List Frame :=
  match placement with
  | .after => [old, new]
  | .before => [new, old]

theorem wrapped_eq (old new : Frame) :
    Layout.wrapped axis placement geometry old new = container axis geometry (pair placement old new) := by
  cases placement with
  | before => rfl
  | after => rfl

@[simp] theorem length_pair (old new : Frame) : (pair placement old new).length = 2 := by
  cases placement with
  | before => rfl
  | after => rfl

@[simp] theorem mem_pair {old new : Frame} :
    child ∈ pair placement old new ↔ child = old ∨ child = new := by
  cases placement with
  | before => grind [pair]
  | after => grind [pair]

/-- `f'` is `f` with a new leaf next to the target: in the container of the target when that stacks
along the axis of the split, else in a new container around both. -/
inductive Grafted (target : WinHandle) (new : LeafFrame) (axis : SplitAxis)
    (placement : SplitPlacement) : Frame → Frame → Prop
  | root {l : LeafFrame} (own : l.window = target) :
      Grafted target new axis placement (leaf l)
        (container axis l.geometry (pair placement (leaf l) (leaf new)))
  | join {geometry : Geometry} {before after : List Frame} {l : LeafFrame}
      (first : FirstWith target before (leaf l)) :
      Grafted target new axis placement (container axis geometry (before ++ leaf l :: after))
        (container axis geometry (before ++ (pair placement (leaf l) (leaf new) ++ after)))
  | wrap {own : SplitAxis} {geometry : Geometry} {before after : List Frame} {l : LeafFrame}
      (first : FirstWith target before (leaf l)) (across : own ≠ axis) :
      Grafted target new axis placement (container own geometry (before ++ leaf l :: after))
        (container own geometry (before ++
          container axis l.geometry (pair placement (leaf l) (leaf new)) :: after))
  | inside {own inner : SplitAxis} {geometry innerGeometry : Geometry}
      {before after children : List Frame} {child' : Frame}
      (first : FirstWith target before (container inner innerGeometry children))
      (below : Grafted target new axis placement (container inner innerGeometry children) child') :
      Grafted target new axis placement
        (container own geometry (before ++ container inner innerGeometry children :: after))
        (container own geometry (before ++ child' :: after))

theorem insertIdx_append {α : Type*} (before after : List α) (a : α) (index : Nat) :
    (before ++ after).insertIdx (before.length + index) a = before ++ after.insertIdx index a := by
  induction before with
  | nil => simp
  | cons b before ih => simp [Nat.add_right_comm _ 1 index, ih]

/-- The leaf joins its container or does not, as the container stacks. -/
theorem insertIntoMatchingContainer_leaf (h : FirstWith target before (leaf l)) :
    insertIntoMatchingContainer (container own geometry (before ++ leaf l :: after)) target (leaf new)
        axis placement
      = if own = axis then
          some (container own geometry (before ++ (pair placement (leaf l) (leaf new) ++ after)))
        else none := by
  have hpath : collectContainerPath target (container own geometry (before ++ leaf l :: after))
      = some [before.length] := by
    have hl : l.window = target := by simpa [eq_comm] using h.mem
    rw [collectContainerPath, collectContainerPathIn_firstWith h, collectContainerPath, if_pos hl,
      Nat.zero_add]
    rfl
  rw [insertIntoMatchingContainer, hpath]
  by_cases hown : own = axis
  · have hafter : (before ++ leaf l :: after).insertIdx (before.length + 1) (leaf new)
        = before ++ leaf l :: leaf new :: after := by
      rw [insertIdx_append, List.insertIdx_succ_cons, List.insertIdx_zero]
    have hbefore : (before ++ leaf l :: after).insertIdx before.length (leaf new)
        = before ++ leaf new :: leaf l :: after := by
      exact insertIdx_append before (leaf l :: after) (leaf new) 0
    cases placement with
    | after => simp [containerAt, matchesAxis, insertAt, hown, hafter, pair]
    | before => simp [containerAt, matchesAxis, insertAt, hown, hbefore, pair]
  · simp [containerAt, matchesAxis, hown]

/-- Below a container the insertion goes on in the child with the target. -/
theorem insertIntoMatchingContainer_container {inner : SplitAxis} {innerGeometry : Geometry}
    {children : List Frame} (h : FirstWith target before (container inner innerGeometry children)) :
    insertIntoMatchingContainer
        (container own geometry (before ++ container inner innerGeometry children :: after)) target
        (leaf new) axis placement
      = (insertIntoMatchingContainer (container inner innerGeometry children) target (leaf new) axis
          placement).map fun child' => container own geometry (before ++ child' :: after) := by
  obtain ⟨path, hpath⟩ := Option.isSome_iff_exists.mp
    ((collectContainerPath_isSome target (container inner innerGeometry children)).mpr h.mem)
  have houter : collectContainerPath target
      (container own geometry (before ++ container inner innerGeometry children :: after))
      = some (before.length :: path) := by
    rw [collectContainerPath, collectContainerPathIn_firstWith h, hpath, Nat.zero_add]
    rfl
  obtain ⟨index, rest, rfl⟩ : ∃ index rest, path = index :: rest := by
    rw [collectContainerPath] at hpath
    have hmem : target ∈ children.flatMap collectWindows := by simpa using h.mem
    obtain ⟨b, c, a, rfl, hfirst⟩ := exists_firstWith hmem
    rw [collectContainerPathIn_firstWith hfirst, Option.map_eq_some_iff] at hpath
    obtain ⟨rest, -, hrest⟩ := hpath
    exact ⟨_, rest, hrest.symm⟩
  have hget : (before ++ container inner innerGeometry children :: after)[before.length]?
      = some (container inner innerGeometry children) := by simp
  have hset : ∀ child', (before ++ container inner innerGeometry children :: after).set before.length
      child' = before ++ child' :: after := by simp
  rw [insertIntoMatchingContainer, insertIntoMatchingContainer, houter, hpath]
  simp only [Option.bind_eq_bind, Option.bind_some, List.getLast?_cons_cons, List.dropLast_cons_cons,
    containerAt, hget]
  rw [Option.map_bind]
  congr 1
  funext targetIndex
  dsimp only [Function.comp]
  rw [Option.map_bind]
  congr 1
  funext parent
  dsimp only [Function.comp]
  split
  · simp only [insertAt, hget, Option.bind_eq_bind, Option.bind_some, hset]
    cases insertAt _ (leaf new) (index :: rest).dropLast (container inner innerGeometry children) with
    | none => rfl
    | some child' => rfl
  · rfl

/-- What a split does to the tree is a graft. -/
theorem exists_grafted (new : LeafFrame) (axis : SplitAxis) (placement : SplitPlacement) :
    ∀ f : Frame, target ∈ f.collectWindows → ∃ f', Grafted target new axis placement f f' ∧
      (insertIntoMatchingContainer f target (leaf new) axis placement = some f' ∨
        insertIntoMatchingContainer f target (leaf new) axis placement = none ∧
        ∃ old, findLeaf target f = some old ∧
          replaceLeaf target (Layout.wrapped axis placement old.geometry (leaf old) (leaf new)) f
            = some f') := by
  intro f
  induction f with
  | leaf l =>
    intro h
    have hl : l.window = target := by simpa [eq_comm] using h
    refine ⟨_, .root hl, .inr ⟨?_, l, ?_, ?_⟩⟩
    · simp [insertIntoMatchingContainer, collectContainerPath, hl]
    · rw [findLeaf, if_pos hl]
    · rw [replaceLeaf, if_pos hl, wrapped_eq]
  | container own geometry children ih =>
    intro h
    obtain ⟨before, child, after, rfl, hfirst⟩ := exists_firstWith
      (by simpa using h)
    have hfind : findLeaf target (container own geometry (before ++ child :: after))
        = findLeaf target child := findLeafIn_firstWith hfirst
    cases child with
    | leaf l =>
      have hl : l.window = target := by simpa [eq_comm] using hfirst.mem
      by_cases hown : own = axis
      · subst hown
        refine ⟨_, .join hfirst, .inl ?_⟩
        rw [insertIntoMatchingContainer_leaf hfirst, if_pos rfl]
      · refine ⟨_, .wrap hfirst hown, .inr ⟨?_, l, ?_, ?_⟩⟩
        · rw [insertIntoMatchingContainer_leaf hfirst, if_neg hown]
        · rw [hfind, findLeaf, if_pos hl]
        · rw [replaceLeaf, replaceLeafIn_firstWith hfirst, replaceLeaf, if_pos hl, wrapped_eq]
          rfl
    | container inner innerGeometry children =>
      obtain ⟨child', hgraft, hcode⟩ := ih _ (by simp) hfirst.mem
      refine ⟨_, .inside hfirst hgraft, ?_⟩
      rw [insertIntoMatchingContainer_container hfirst, hfind]
      rcases hcode with hinsert | ⟨hinsert, old, hold, hreplace⟩
      · left
        rw [hinsert]
        rfl
      · right
        refine ⟨by rw [hinsert]; rfl, old, hold, ?_⟩
        rw [replaceLeaf, replaceLeafIn_firstWith hfirst, hreplace]
        rfl

namespace Grafted

theorem windows_perm (h : Grafted target new axis placement f f') :
    f'.collectWindows.Perm (new.window :: f.collectWindows) := by
  induction h with
  | @root l _ =>
    cases placement with
    | before => simp [pair]
    | after =>
      simp only [pair, collectWindows_container, List.flatMap_cons, List.flatMap_nil,
        collectWindows_leaf, List.append_nil]
      exact List.Perm.swap _ _ _
  | @join geometry before after l _ =>
    cases placement with
    | before => simp [pair]
    | after =>
      simp only [pair, collectWindows_container, List.flatMap_append, List.flatMap_cons,
        collectWindows_leaf, List.cons_append, List.nil_append]
      exact (List.Perm.append_left _ (List.Perm.swap _ _ _)).trans List.perm_middle
  | @wrap own geometry before after l _ _ =>
    cases placement with
    | before => simp [pair]
    | after =>
      simp only [pair, collectWindows_container, List.flatMap_append, List.flatMap_cons,
        List.flatMap_nil, collectWindows_leaf, List.append_nil, List.cons_append, List.nil_append]
      exact (List.Perm.append_left _ (List.Perm.swap _ _ _)).trans List.perm_middle
  | inside _ _ ih =>
    simp only [collectWindows_container, List.flatMap_append, List.flatMap_cons] at ih ⊢
    exact (List.Perm.append_left _ (List.Perm.append_right _ ih)).trans List.perm_middle

theorem geometry_eq (h : Grafted target new axis placement f f') : f'.geometry = f.geometry := by
  cases h with
  | root => rfl
  | join => rfl
  | wrap => rfl
  | inside => rfl

/-- A container keeps its orientation. -/
theorem matchesAxis_eq {children : List Frame}
    (h : Grafted target new axis placement (container own geometry children) f')
    (a : SplitAxis) : f'.matchesAxis a = (container own geometry children).matchesAxis a := by
  cases h with
  | join => rfl
  | wrap => rfl
  | inside => rfl

theorem populated (h : Grafted target new axis placement f f') (hf : f.Populated) :
    f'.Populated := by
  induction h with
  | root => simp
  | join =>
    simp only [every_container, List.length_append, List.length_cons, length_pair,
      List.mem_append, List.mem_cons, mem_pair] at hf ⊢
    refine ⟨by omega, ?_⟩
    rintro c (hc | (rfl | rfl) | hc)
    · exact hf.2 c (.inl hc)
    · exact .leaf _
    · exact .leaf _
    · exact hf.2 c (.inr (.inr hc))
  | wrap =>
    simp only [every_container, List.length_append, List.length_cons, List.mem_append,
      List.mem_cons] at hf ⊢
    refine ⟨hf.1, ?_⟩
    rintro c (hc | rfl | hc)
    · exact hf.2 c (.inl hc)
    · simp
    · exact hf.2 c (.inr (.inr hc))
  | inside _ _ ih =>
    simp only [every_container, List.length_append, List.length_cons, List.mem_append,
      List.mem_cons] at hf ⊢
    refine ⟨hf.1, ?_⟩
    rintro c (hc | rfl | hc)
    · exact hf.2 c (.inl hc)
    · exact ih (hf.2 _ (.inr (.inl rfl)))
    · exact hf.2 c (.inr (.inr hc))

/-- A leaf joins where its container stacks along the axis and is wrapped where not, so that
containers go on alternating. -/
theorem alternates (h : Grafted target new axis placement f f') (hf : f.Alternates) :
    f'.Alternates := by
  induction h with
  | root => simp [matchesAxis]
  | join =>
    simp only [every_container, List.mem_append, List.mem_cons, mem_pair] at hf ⊢
    constructor
    · rintro c (hc | (rfl | rfl) | hc)
      · exact hf.1 c (.inl hc)
      · rfl
      · rfl
      · exact hf.1 c (.inr (.inr hc))
    · rintro c (hc | (rfl | rfl) | hc)
      · exact hf.2 c (.inl hc)
      · exact .leaf _
      · exact .leaf _
      · exact hf.2 c (.inr (.inr hc))
  | wrap _ across =>
    simp only [every_container, List.mem_append, List.mem_cons] at hf ⊢
    constructor
    · rintro c (hc | rfl | hc)
      · exact hf.1 c (.inl hc)
      · simp [matchesAxis, across.symm]
      · exact hf.1 c (.inr (.inr hc))
    · rintro c (hc | rfl | hc)
      · exact hf.2 c (.inl hc)
      · simp [matchesAxis]
      · exact hf.2 c (.inr (.inr hc))
  | inside _ below ih =>
    simp only [every_container, List.mem_append, List.mem_cons] at hf ⊢
    constructor
    · rintro c (hc | rfl | hc)
      · exact hf.1 c (.inl hc)
      · rw [below.matchesAxis_eq]
        exact hf.1 _ (.inr (.inl rfl))
      · exact hf.1 c (.inr (.inr hc))
    · rintro c (hc | rfl | hc)
      · exact hf.2 c (.inl hc)
      · exact ih (hf.2 _ (.inr (.inl rfl)))
      · exact hf.2 c (.inr (.inr hc))

end Grafted

/-! ## Removal of a leaf -/

/-- `f'` is `f` without the leaf `l`. -/
inductive Removed (l : LeafFrame) : Frame → Frame → Prop
  | here {own : SplitAxis} {geometry : Geometry} {before after : List Frame} :
      Removed l (container own geometry (before ++ leaf l :: after))
        (container own geometry (before ++ after))
  | inside {own : SplitAxis} {geometry : Geometry} {before after : List Frame} {child child' : Frame}
      (below : Removed l child child') :
      Removed l (container own geometry (before ++ child :: after))
        (container own geometry (before ++ child' :: after))

theorem isLeafOf_iff : f.isLeafOf w = true ↔ ∃ l, f = leaf l ∧ l.window = w := by
  cases f with
  | leaf l => simp [isLeafOf]
  | container own geometry children => simp [isLeafOf]

mutual

theorem removeLeaf_some {w : WinHandle} {l : LeafFrame} : ∀ {f f' : Frame},
    removeLeaf w f = some (l, f') → l.window = w ∧ Removed l f f'
  | leaf _, _ => by
    intro h
    simp [removeLeaf] at h
  | container own geometry children, f' => by
    intro h
    rw [removeLeaf] at h
    cases hidx : children.findIdx? (isLeafOf w) with
    | some index =>
      obtain ⟨hlt, hleaf, -⟩ := List.findIdx?_eq_some_iff_getElem.mp hidx
      obtain ⟨l', hl', hw⟩ := isLeafOf_iff.mp hleaf
      rw [hidx] at h
      simp only [List.getElem?_eq_getElem hlt, hl', Option.some.injEq, Prod.mk.injEq] at h
      obtain ⟨rfl, rfl⟩ := h
      refine ⟨hw, ?_⟩
      have hsplit : children = children.take index ++ leaf l' :: children.drop (index + 1) := by
        rw [← hl', List.getElem_cons_drop, List.take_append_drop]
      rw [List.eraseIdx_eq_take_drop_succ]
      nth_rewrite 1 [hsplit]
      exact .here
    | none =>
      rw [hidx] at h
      obtain ⟨⟨l', children'⟩, hin, heq⟩ := Option.map_eq_some_iff.mp h
      obtain ⟨rfl, rfl⟩ := Prod.mk.inj heq
      obtain ⟨hw, before, child, child', after, rfl, rfl, hbelow⟩ := removeLeafIn_some hin
      exact ⟨hw, .inside hbelow⟩

theorem removeLeafIn_some {w : WinHandle} {l : LeafFrame} : ∀ {children children' : List Frame},
    removeLeafIn w children = some (l, children') →
      l.window = w ∧ ∃ before child child' after, children = before ++ child :: after ∧
        children' = before ++ child' :: after ∧ Removed l child child'
  | [], _ => by
    intro h
    simp [removeLeafIn] at h
  | child :: children, children' => by
    intro h
    rw [removeLeafIn] at h
    cases hchild : removeLeaf w child with
    | some r =>
      obtain ⟨l', child'⟩ := r
      rw [hchild] at h
      obtain ⟨rfl, rfl⟩ := Prod.mk.inj (Option.some.inj h)
      obtain ⟨hw, hbelow⟩ := removeLeaf_some hchild
      exact ⟨hw, [], child, child', children, rfl, rfl, hbelow⟩
    | none =>
      rw [hchild] at h
      obtain ⟨⟨l', rest⟩, hin, heq⟩ := Option.map_eq_some_iff.mp h
      obtain ⟨rfl, rfl⟩ := Prod.mk.inj heq
      obtain ⟨hw, before, c, c', after, rfl, rfl, hbelow⟩ := removeLeafIn_some hin
      exact ⟨hw, child :: before, c, c', after, rfl, rfl, hbelow⟩

end

mutual

theorem removeLeaf_isSome {w : WinHandle} : ∀ {f : Frame}, (∀ l, f ≠ leaf l) →
    w ∈ f.collectWindows → (removeLeaf w f).isSome
  | leaf l, h => absurd rfl (h l)
  | container own geometry children, _ => by
    intro hw
    rw [removeLeaf]
    cases hidx : children.findIdx? (isLeafOf w) with
    | some index =>
      obtain ⟨hlt, hleaf, -⟩ := List.findIdx?_eq_some_iff_getElem.mp hidx
      obtain ⟨l', hl', -⟩ := isLeafOf_iff.mp hleaf
      simp [List.getElem?_eq_getElem hlt, hl']
    | none =>
      rw [Option.isSome_map]
      refine removeLeafIn_isSome ?_ hw
      intro c hc
      rw [← Bool.not_eq_true]
      intro hleaf
      have := List.findIdx?_eq_none_iff.mp hidx c hc
      exact absurd hleaf (by simp [this])

theorem removeLeafIn_isSome {w : WinHandle} : ∀ {children : List Frame},
    (∀ c ∈ children, c.isLeafOf w = false) → w ∈ collectWindowsIn children →
      (removeLeafIn w children).isSome
  | [], _ => by
    intro hw
    simp [collectWindowsIn] at hw
  | child :: children, hnot => by
    intro hw
    rw [removeLeafIn]
    cases hchild : removeLeaf w child with
    | some r => rfl
    | none =>
      have hout : w ∉ child.collectWindows := by
        intro hmem
        have hcont : ∀ l, child ≠ leaf l := by
          rintro l rfl
          have hw' : l.window = w := by simpa [eq_comm] using hmem
          simpa [isLeafOf, hw'] using hnot (leaf l) List.mem_cons_self
        simpa [hchild] using removeLeaf_isSome hcont hmem
      rw [Option.isSome_map]
      refine removeLeafIn_isSome (fun c hc => hnot c (List.mem_cons_of_mem _ hc)) ?_
      rw [collectWindowsIn, List.mem_append] at hw
      exact hw.resolve_left hout

end

namespace Removed

theorem windows_perm (h : Removed l f f') : f.collectWindows.Perm (l.window :: f'.collectWindows) := by
  induction h with
  | here => simp
  | inside _ ih =>
    simp only [collectWindows_container, List.flatMap_append, List.flatMap_cons]
    exact (List.Perm.append_left _ (List.Perm.append_right _ ih)).trans List.perm_middle

theorem inhabited (h : Removed l f f') (hf : f.Populated) : f'.Inhabited := by
  induction h with
  | here =>
    simp only [every_container, List.length_append, List.length_cons, List.mem_append,
      List.mem_cons] at hf ⊢
    refine ⟨?_, ?_⟩
    · intro hnil
      have hlength := congrArg List.length hnil
      simp only [List.length_append, List.length_nil] at hlength
      omega
    · rintro c (hc | hc)
      · exact Populated.inhabited (hf.2 c (.inl hc))
      · exact Populated.inhabited (hf.2 c (.inr (.inr hc)))
  | inside _ ih =>
    simp only [every_container, List.mem_append, List.mem_cons] at hf ⊢
    refine ⟨by simp, ?_⟩
    rintro c (hc | rfl | hc)
    · exact Populated.inhabited (hf.2 c (.inl hc))
    · exact ih (hf.2 _ (.inr (.inl rfl)))
    · exact Populated.inhabited (hf.2 c (.inr (.inr hc)))

end Removed

/-! ## Collapse -/

/-- The only child gives way to its container. -/
def promote (own : SplitAxis) (geometry : Geometry) : List Frame → Frame
  | [child] => child
  | children => container own geometry children

theorem promote_of_two {children : List Frame} (h : 2 ≤ children.length) :
    promote own geometry children = container own geometry children := by
  rcases children with _ | ⟨a, _ | ⟨b, children⟩⟩
  · simp at h
  · simp at h
  · rfl

theorem depth_le_depths {children : List Frame} (h : child ∈ children) :
    child.depth ≤ depths children := by
  induction children with
  | nil => simp at h
  | cons c children ih =>
    rw [depths]
    rcases List.mem_cons.mp h with rfl | h
    · exact Nat.le_max_left _ _
    · exact Nat.le_trans (ih h) (Nat.le_max_right _ _)

/-- A tree without single children stays as it is. -/
theorem collapse_of_populated (fuel : Nat) (h : f.Populated) : collapse fuel f = f := by
  induction f generalizing fuel with
  | leaf l =>
    cases fuel with
    | zero => rfl
    | succ fuel => rfl
  | container own geometry children ih =>
    cases fuel with
    | zero => rfl
    | succ fuel =>
      obtain ⟨hlength, hbelow⟩ := every_container.mp h
      have hsame : children.map (collapse fuel) = children := by
        conv_rhs => rw [← List.map_id children]
        exact List.map_congr_left fun child hchild => ih child hchild fuel (hbelow child hchild)
      rw [collapse, hsame]
      rcases children with _ | ⟨a, _ | ⟨b, children⟩⟩
      · simp at hlength
      · simp at hlength
      · rfl

/-- Enough fuel leaves no single child. -/
theorem collapse_populated {fuel : Nat} (hfuel : f.depth ≤ fuel) (h : f.Inhabited) :
    (collapse fuel f).Populated := by
  induction f generalizing fuel with
  | leaf l =>
    cases fuel with
    | zero => exact .leaf l
    | succ fuel => exact .leaf l
  | container own geometry children ih =>
    rw [depth] at hfuel
    obtain ⟨fuel, rfl⟩ : ∃ n, fuel = n + 1 := ⟨fuel - 1, by omega⟩
    obtain ⟨hne, hbelow⟩ := every_container.mp h
    have hchildren : ∀ c ∈ children.map (collapse fuel), c.Populated := by
      intro c hc
      obtain ⟨child, hchild, rfl⟩ := List.mem_map.mp hc
      have hdepth := depth_le_depths hchild
      exact ih child hchild (by omega) (hbelow child hchild)
    have hne' : children.map (collapse fuel) ≠ [] := by simpa using hne
    rw [collapse]
    generalize children.map (collapse fuel) = children' at hchildren hne'
    rcases children' with _ | ⟨a, _ | ⟨b, children'⟩⟩
    · exact absurd rfl hne'
    · have ha := hchildren a List.mem_cons_self
      dsimp only
      rwa [collapse_of_populated fuel ha]
    · exact .container (by simp) hchildren

/-- Fuel beyond the depth changes nothing. -/
theorem collapse_fuel {fuel fuel' : Nat} (h : f.Inhabited) (hfuel : f.depth ≤ fuel)
    (hfuel' : f.depth ≤ fuel') : collapse fuel f = collapse fuel' f := by
  induction f generalizing fuel fuel' with
  | leaf l =>
    rw [depth] at hfuel hfuel'
    obtain ⟨fuel, rfl⟩ : ∃ n, fuel = n + 1 := ⟨fuel - 1, by omega⟩
    obtain ⟨fuel', rfl⟩ : ∃ n, fuel' = n + 1 := ⟨fuel' - 1, by omega⟩
    rfl
  | container own geometry children ih =>
    rw [depth] at hfuel hfuel'
    obtain ⟨fuel, rfl⟩ : ∃ n, fuel = n + 1 := ⟨fuel - 1, by omega⟩
    obtain ⟨fuel', rfl⟩ : ∃ n, fuel' = n + 1 := ⟨fuel' - 1, by omega⟩
    obtain ⟨-, hbelow⟩ := every_container.mp h
    have hsame : children.map (collapse fuel) = children.map (collapse fuel') := by
      apply List.map_congr_left
      intro child hchild
      have hdepth := depth_le_depths hchild
      exact ih child hchild (hbelow child hchild) (by omega) (by omega)
    have hpop : ∀ c ∈ children.map (collapse fuel'), c.Populated := by
      intro c hc
      obtain ⟨child, hchild, rfl⟩ := List.mem_map.mp hc
      have hdepth := depth_le_depths hchild
      exact collapse_populated (by omega) (hbelow child hchild)
    rw [collapse, collapse, hsame]
    generalize children.map (collapse fuel') = children' at hpop
    rcases children' with _ | ⟨a, _ | ⟨b, children'⟩⟩
    · rfl
    · have ha := hpop a List.mem_cons_self
      dsimp only
      rw [collapse_of_populated fuel ha, collapse_of_populated fuel' ha]
    · rfl

theorem collapseContainers_populated (h : f.Inhabited) : f.collapseContainers.Populated :=
  collapse_populated (Nat.le_refl _) h

theorem collapseContainers_of_populated (h : f.Populated) : f.collapseContainers = f :=
  collapse_of_populated _ h

@[simp] theorem collapseContainers_leaf (l : LeafFrame) : (leaf l).collapseContainers = leaf l := rfl

/-- A container collapses below first, and then gives way to a child that is alone. -/
theorem collapseContainers_container {children : List Frame}
    (h : (container own geometry children).Inhabited) :
    (container own geometry children).collapseContainers
      = promote own geometry (children.map collapseContainers) := by
  obtain ⟨-, hbelow⟩ := every_container.mp h
  have hsame : children.map (collapse (depths children)) = children.map collapseContainers := by
    apply List.map_congr_left
    intro child hchild
    exact collapse_fuel (hbelow child hchild) (depth_le_depths hchild) (Nat.le_refl _)
  have hpop : ∀ c ∈ children.map collapseContainers, c.Populated := by
    intro c hc
    obtain ⟨child, hchild, rfl⟩ := List.mem_map.mp hc
    exact collapseContainers_populated (hbelow child hchild)
  rw [collapseContainers, depth, collapse, hsame]
  generalize children.map collapseContainers = children' at hpop
  rcases children' with _ | ⟨a, _ | ⟨b, children'⟩⟩
  · rfl
  · exact collapse_of_populated _ (hpop a List.mem_cons_self)
  · rfl

theorem collectWindows_promote (own : SplitAxis) (geometry : Geometry) (children : List Frame) :
    (promote own geometry children).collectWindows = children.flatMap collectWindows := by
  rcases children with _ | ⟨a, _ | ⟨b, children⟩⟩
  · simp [promote]
  · simp [promote]
  · simp [promote]

theorem collectWindows_collapseContainers (h : f.Inhabited) :
    f.collapseContainers.collectWindows = f.collectWindows := by
  induction f with
  | leaf l => rfl
  | container own geometry children ih =>
    obtain ⟨-, hbelow⟩ := every_container.mp h
    rw [collapseContainers_container h, collectWindows_promote, List.flatMap_map,
      collectWindows_container]
    exact List.flatMap_congr fun child hchild => ih child hchild (hbelow child hchild)

/-! ## Closing and alternation -/

/-- The container holds the leaf of the window and one container, which is left alone when the window
goes. -/
def Strands (w : WinHandle) (f : Frame) : Prop :=
  ∃ own geometry l inner innerGeometry children, l.window = w ∧
    (f = container own geometry [leaf l, container inner innerGeometry children] ∨
      f = container own geometry [container inner innerGeometry children, leaf l])

/-- No container with a parent strands another when the window goes. -/
abbrev Unstranded (w : WinHandle) : Frame → Prop :=
  Every fun _ _ children => ∀ child ∈ children, ¬child.Strands w

/-- After the removal and the collapse, what is left alternates, and it stacks along another axis than
before only where a stranded container has come up. -/
theorem Removed.alternates (h : Removed l f f') (hpop : f.Populated) (halt : f.Alternates)
    (hfree : f.Unstranded l.window) : f'.collapseContainers.Alternates ∧
      ∀ a, f'.collapseContainers.matchesAxis a = true →
        f.matchesAxis a = true ∨ f.Strands l.window := by
  induction h with
  | @here own geometry before after =>
    have hin := Removed.inhabited (.here (l := l)) hpop
    obtain ⟨hlength, hpops⟩ := every_container.mp hpop
    obtain ⟨hown, halts⟩ := every_container.mp halt
    have hsame : (before ++ after).map collapseContainers = before ++ after := by
      conv_rhs => rw [← List.map_id (before ++ after)]
      apply List.map_congr_left
      intro c hc
      exact collapseContainers_of_populated (hpops c (by grind))
    rw [collapseContainers_container hin, hsame]
    by_cases htwo : 2 ≤ (before ++ after).length
    · rw [promote_of_two htwo]
      refine ⟨.container (fun c hc => hown c (by grind)) fun c hc => halts c (by grind), ?_⟩
      intro a ha
      exact .inl ha
    · -- one child is left and comes up: a leaf stacks nothing, a container has been stranded
      obtain ⟨c, hc⟩ : ∃ c, before ++ after = [c] := by
        rw [← List.length_eq_one_iff]
        simp only [List.length_append, List.length_cons] at hlength htwo ⊢
        omega
      have hmem : c ∈ before ++ leaf l :: after := by
        have : c ∈ before ++ after := by simp [hc]
        grind
      rw [hc]
      refine ⟨halts c hmem, ?_⟩
      intro a ha
      right
      cases c with
      | leaf l' => cases ha
      | container inner innerGeometry children =>
        refine ⟨own, geometry, l, inner, innerGeometry, children, rfl, ?_⟩
        rcases List.append_eq_singleton_iff.mp hc with ⟨rfl, rfl⟩ | ⟨rfl, rfl⟩
        · exact .inl rfl
        · exact .inr rfl
  | @inside own geometry before after child child' below ih =>
    have hin := Removed.inhabited (.inside below) hpop
    obtain ⟨hlength, hpops⟩ := every_container.mp hpop
    obtain ⟨hown, halts⟩ := every_container.mp halt
    obtain ⟨hstrands, hfrees⟩ := every_container.mp hfree
    have hchild : child ∈ before ++ child :: after := by simp
    obtain ⟨halt', haxis⟩ := ih (hpops _ hchild) (halts _ hchild) (hfrees _ hchild)
    have hsame : (before ++ child' :: after).map collapseContainers
        = before ++ child'.collapseContainers :: after := by
      have hid : ∀ cs : List Frame, (∀ c ∈ cs, c.Populated) → cs.map collapseContainers = cs := by
        intro cs hcs
        conv_rhs => rw [← List.map_id cs]
        exact List.map_congr_left fun c hc => collapseContainers_of_populated (hcs c hc)
      rw [List.map_append, List.map_cons, hid before fun c hc => hpops c (by simp [hc]),
        hid after fun c hc => hpops c (by simp [hc])]
    have htwo : 2 ≤ (before ++ child'.collapseContainers :: after).length := by
      simpa using hlength
    rw [collapseContainers_container hin, hsame, promote_of_two htwo]
    refine ⟨?_, fun a ha => .inl ha⟩
    simp only [every_container, List.mem_append, List.mem_cons]
    constructor
    · rintro c (hc | rfl | hc)
      · exact hown c (by simp [hc])
      · rw [← Bool.not_eq_true]
        intro hmatch
        rcases haxis own hmatch with hsame | hstrand
        · simp [hown _ hchild] at hsame
        · exact hstrands _ hchild hstrand
      · exact hown c (by simp [hc])
    · rintro c (hc | rfl | hc)
      · exact halts c (by simp [hc])
      · exact halt'
      · exact halts c (by simp [hc])

end Oxvim.Editor.Frame
