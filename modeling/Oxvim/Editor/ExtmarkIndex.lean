import Oxvim.Editor.Extmark
import Oxvim.Lib.Transition

/-!
# The extmark index

`NamespaceState.WellFormed` is what every operation keeps: marks are stored under their own id, no
range ends before it starts, and `byPosition` is the index of the start positions. A splice and a
replay change the marks first and the index afterwards; `reconcileIndex_indexes` needs to know only
that the relocations they collect lead from the old placement to the new one.

`query_eq` then reads a query off the marks themselves.
-/

namespace Oxvim.Editor

open Lib PositionIndex EState

/-- A range mark does not end before it starts. -/
def Extmark.Ordered (mark : Extmark) : Prop := ∀ stop, mark.stop = some stop → mark.position ≤ stop

namespace Extmark

theorem spliced_of_point {mark : Extmark} (h : mark.placement.stop = none) (sp : TextSplice) :
    (mark.spliced sp).position = sp.transform mark.placement.gravity mark.position ∧
      (mark.spliced sp).stop = none := by
  simp [spliced, moveBy, position, stop, h]

/-- The endpoints of a range are transformed one by one and put in order. -/
theorem spliced_of_range {mark : Extmark} {e : ExtmarkEnd} (h : mark.placement.stop = some e)
    (sp : TextSplice) :
    (mark.spliced sp).position = min (sp.transform mark.placement.gravity mark.position)
        (sp.transform e.gravity e.position) ∧
      (mark.spliced sp).stop = some (max (sp.transform mark.placement.gravity mark.position)
        (sp.transform e.gravity e.position)) := by
  have hpos : (mark.spliced sp).position = (mark.moveBy sp).position := rfl
  have hstop : (mark.spliced sp).stop = (mark.moveBy sp).stop.map (·.position) := rfl
  rw [hpos, hstop, moveBy]
  simp only [h]
  by_cases hlt : sp.transform e.gravity e.position
      < sp.transform mark.placement.gravity mark.position
  · rw [if_pos hlt, min_eq_right (le_of_lt hlt), max_eq_left (le_of_lt hlt)]
    exact ⟨rfl, rfl⟩
  · rw [if_neg hlt, min_eq_left (not_lt.mp hlt), max_eq_right (not_lt.mp hlt)]
    exact ⟨rfl, rfl⟩

end Extmark

namespace NamespaceState

variable {ns : NamespaceId} {state : NamespaceState}

/-- Where the marks start. -/
def starts (state : NamespaceState) (id : ExtmarkId) : Option ExtmarkPosition :=
  state.byId[id]?.map (·.position)

/-- What every operation keeps. -/
structure WellFormed (ns : NamespaceId) (state : NamespaceState) : Prop where
  keyed : ∀ (id : ExtmarkId) (mark : Extmark), state.byId[id]? = some mark →
    mark.id = id ∧ mark.namespaceId = ns
  ordered : ∀ (id : ExtmarkId) (mark : Extmark), state.byId[id]? = some mark → mark.Ordered
  indexes : Indexes state.byPosition state.starts

theorem wellFormed_empty : WellFormed ns {} where
  keyed id mark h := by simp at h
  ordered id mark h := by simp at h
  indexes := Indexes.empty.congr fun id => by simp [starts]

theorem mem_marks {mark : Extmark} :
    mark ∈ state.marks ↔ ∃ id : ExtmarkId, state.byId[id]? = some mark := by
  simp only [marks, List.mem_map, Prod.exists, Std.ExtTreeMap.mem_toList_iff_getElem?_eq_some,
    exists_eq_right]

theorem WellFormed.mem_marks (h : WellFormed ns state) {mark : Extmark} :
    mark ∈ state.marks ↔ state.byId[mark.id]? = some mark := by
  rw [NamespaceState.mem_marks]
  constructor
  · rintro ⟨id, hid⟩
    rw [(h.keyed id mark hid).1]
    exact hid
  · exact fun hid => ⟨_, hid⟩

/-- Marks have different ids. -/
theorem WellFormed.nodup_ids (h : WellFormed ns state) : (state.marks.map (·.id)).Nodup := by
  have hids : state.marks.map (·.id) = state.byId.toList.map (·.1) := by
    rw [marks, List.map_map]
    refine List.map_congr_left fun p hp => ?_
    exact (h.keyed p.1 p.2 (Std.ExtTreeMap.mem_toList_iff_getElem?_eq_some.mp hp)).1
  rw [hids, List.Nodup, List.pairwise_map]
  exact Std.ExtTreeMap.distinct_keys_toList.imp fun hpq heq => hpq (by simp [heq])

/-! ## Keeping the index -/

/-- Building the index anew puts every mark where it starts. -/
theorem rebuildIndex_indexes (state : NamespaceState) :
    Indexes state.rebuildIndex.byPosition state.starts := by
  let placed := state.byId.toList.map fun entry => (entry.1, entry.2.position)
  have hnodup : (placed.map (·.1)).Nodup := by
    rw [List.map_map, List.Nodup, List.pairwise_map]
    exact Std.ExtTreeMap.distinct_keys_toList.imp fun hpq heq => hpq (by simpa using heq)
  refine (indexes_build hnodup).congr fun id => ?_
  unfold placement starts
  cases hfind : placed.find? fun p => p.1 = id with
  | none =>
    rw [List.find?_eq_none] at hfind
    cases hid : state.byId[id]? with
    | none => rfl
    | some mark =>
      have hmem := Std.ExtTreeMap.mem_toList_iff_getElem?_eq_some.mpr hid
      have hnot := hfind (id, mark.position) (List.mem_map.mpr ⟨_, hmem, rfl⟩)
      simp at hnot
  | some p =>
    have hp := List.find?_some hfind
    obtain ⟨⟨id', mark⟩, hmem, rfl⟩ := List.mem_map.mp (List.mem_of_find?_eq_some hfind)
    obtain rfl : id' = id := by simpa using hp
    rw [Std.ExtTreeMap.mem_toList_iff_getElem?_eq_some.mp hmem]
    rfl

theorem byId_foldl_moveIndex (relocated : List Relocation) (state : NamespaceState) :
    (relocated.foldl (fun self (id, old, new) => self.moveIndex old new id) state).byId = state.byId ∧
    (relocated.foldl (fun self (id, old, new) => self.moveIndex old new id) state).highestId
      = state.highestId ∧
    (relocated.foldl (fun self (id, old, new) => self.moveIndex old new id) state).byPosition
      = relocated.foldl (fun idx m => idx.moveAt m.2.1 m.2.2 m.1) state.byPosition := by
  induction relocated generalizing state with
  | nil => exact ⟨rfl, rfl, rfl⟩
  | cons m relocated ih => exact ih (state.moveIndex m.2.1 m.2.2 m.1)

theorem byId_reconcileIndex (state : NamespaceState) (relocated : List Relocation) :
    (state.reconcileIndex relocated).byId = state.byId := by
  unfold reconcileIndex
  split
  · rfl
  · exact (byId_foldl_moveIndex relocated state).1

theorem highestId_reconcileIndex (state : NamespaceState) (relocated : List Relocation) :
    (state.reconcileIndex relocated).highestId = state.highestId := by
  unfold reconcileIndex
  split
  · rfl
  · exact (byId_foldl_moveIndex relocated state).2.1

/-- Either strategy brings an index of the old placement to the present one. -/
theorem reconcileIndex_indexes {f : ExtmarkId → Option ExtmarkPosition}
    {relocated : List Relocation} (h : Indexes state.byPosition f)
    (hmoves : Moves f relocated state.starts) :
    Indexes (state.reconcileIndex relocated).byPosition state.starts := by
  unfold reconcileIndex
  split
  · exact rebuildIndex_indexes state
  · rw [(byId_foldl_moveIndex relocated state).2.2]
    exact indexes_foldl_moveAt h hmoves

/-! ## Placing and removing marks -/

theorem removeMark_of_none {id : ExtmarkId} (hid : state.byId[id]? = none) :
    state.removeMark id = state := by
  rw [removeMark, hid]

theorem removeMark_of_some {id : ExtmarkId} {mark : Extmark} (hid : state.byId[id]? = some mark) :
    state.removeMark id = { state with
      byId := state.byId.erase id
      byPosition := state.byPosition.removeAt mark.position id } := by
  rw [removeMark, hid]
  rfl

theorem byId_removeMark (state : NamespaceState) (id : ExtmarkId) :
    (state.removeMark id).byId = state.byId.erase id := by
  cases hid : state.byId[id]? with
  | none =>
    rw [removeMark_of_none hid]
    refine Std.ExtTreeMap.ext_getElem? fun k => ?_
    rw [Std.ExtTreeMap.getElem?_erase]
    split
    · next hk => rw [← Std.LawfulEqCmp.eq_of_compare hk, hid]
    · rfl
  | some mark => rw [removeMark_of_some hid]

theorem removeMark_indexes {f : ExtmarkId → Option ExtmarkPosition} {id : ExtmarkId}
    (h : Indexes state.byPosition f)
    (hid : ∀ mark : Extmark, state.byId[id]? = some mark → f id = some mark.position)
    (hnone : state.byId[id]? = none → f id = none) :
    Indexes (state.removeMark id).byPosition (Function.update f id none) := by
  cases hget : state.byId[id]? with
  | none =>
    rw [removeMark_of_none hget]
    refine h.congr fun i => ?_
    by_cases hi : i = id
    · rw [hi, Function.update_self, hnone hget]
    · rw [Function.update_of_ne hi]
  | some mark =>
    rw [removeMark_of_some hget]
    exact h.removeAt (hid mark hget)

theorem starts_removeMark (state : NamespaceState) (id : ExtmarkId) :
    (state.removeMark id).starts = Function.update state.starts id none := by
  funext i
  unfold starts
  rw [byId_removeMark, Std.ExtTreeMap.getElem?_erase]
  by_cases hi : i = id
  · subst hi
    simp
  · rw [if_neg (by simpa using Ne.symm hi), Function.update_of_ne hi]

theorem WellFormed.removeMark (h : WellFormed ns state) (id : ExtmarkId) :
    WellFormed ns (state.removeMark id) where
  keyed i mark hi := by
    rw [byId_removeMark, Std.ExtTreeMap.getElem?_erase] at hi
    split at hi
    · cases hi
    · exact h.keyed i mark hi
  ordered i mark hi := by
    rw [byId_removeMark, Std.ExtTreeMap.getElem?_erase] at hi
    split at hi
    · cases hi
    · exact h.ordered i mark hi
  indexes := by
    rw [starts_removeMark]
    exact removeMark_indexes h.indexes (fun mark hid => by simp [starts, hid])
      (fun hid => by simp [starts, hid])

theorem WellFormed.foldl_removeMark (h : WellFormed ns state) (ids : List ExtmarkId) :
    WellFormed ns (ids.foldl NamespaceState.removeMark state) := by
  induction ids generalizing state with
  | nil => exact h
  | cons id ids ih => exact ih (h.removeMark id)

/-- Marks that were only changed in place can be taken out with the index of the old placement: it
still has the position of each mark that goes. -/
theorem foldl_removeMark_indexes {f : ExtmarkId → Option ExtmarkPosition} {ids : List ExtmarkId}
    (h : Indexes state.byPosition f) (hids : ∀ id ∈ ids, state.starts id = f id) :
    Indexes (ids.foldl NamespaceState.removeMark state).byPosition
        (fun id => if id ∈ ids then none else f id) ∧
      (ids.foldl NamespaceState.removeMark state).starts
        = fun id => if id ∈ ids then none else state.starts id := by
  induction ids generalizing state f with
  | nil => exact ⟨by simpa using h, by simp⟩
  | cons id ids ih =>
    have hstart : state.starts id = f id := hids id (by simp)
    have h₁ : Indexes (state.removeMark id).byPosition (Function.update f id none) := by
      refine removeMark_indexes h (fun mark hid => ?_) fun hid => ?_
      · rw [← hstart, starts, hid]
        rfl
      · rw [← hstart, starts, hid]
        rfl
    obtain ⟨hidx, hstarts⟩ := ih h₁ fun j hj => by
      rw [starts_removeMark]
      by_cases hji : j = id
      · rw [hji, Function.update_self, Function.update_self]
      · rw [Function.update_of_ne hji, Function.update_of_ne hji]
        exact hids j (by simp [hj])
    refine ⟨hidx.congr fun j => ?_, ?_⟩
    · by_cases hji : j = id <;> simp [hji]
    · rw [List.foldl_cons, hstarts, starts_removeMark]
      funext j
      by_cases hji : j = id <;> simp [hji]

theorem WellFormed.placeMark (h : WellFormed ns state) {mark : Extmark} (hns : mark.namespaceId = ns)
    (hord : mark.Ordered) : WellFormed ns (Extmarks.placeMark state mark) := by
  have hbyId : (Extmarks.placeMark state mark).byId = state.byId.insert mark.id mark := by
    unfold Extmarks.placeMark
    cases state.byId[mark.id]? <;> rfl
  have hget : ∀ id : ExtmarkId, (Extmarks.placeMark state mark).byId[id]?
      = if id = mark.id then some mark else state.byId[id]? := by
    intro id
    rw [hbyId, Std.ExtTreeMap.getElem?_insert]
    by_cases hid : id = mark.id
    · simp [hid]
    · rw [if_neg (by simpa using Ne.symm hid), if_neg hid]
  refine ⟨fun id m hm => ?_, fun id m hm => ?_, ?_⟩
  · rw [hget] at hm
    split at hm
    · next hid =>
      cases hm
      exact ⟨hid.symm, hns⟩
    · exact h.keyed id m hm
  · rw [hget] at hm
    split at hm
    · cases hm
      exact hord
    · exact h.ordered id m hm
  · have hstarts : (Extmarks.placeMark state mark).starts
        = Function.update state.starts mark.id (some mark.position) := by
      funext id
      rw [starts, hget]
      by_cases hid : id = mark.id
      · simp [hid]
      · rw [if_neg hid, Function.update_of_ne hid]
        rfl
    rw [hstarts]
    unfold Extmarks.placeMark
    cases hold : state.byId[mark.id]? with
    | none =>
      exact h.indexes.insertAt (by simp [starts, hold])
    | some old =>
      exact h.indexes.moveAt (by simp [starts, hold])

/-! ## Splices -/

theorem getElem?_foldl_removeMark (ids : List ExtmarkId) (state : NamespaceState) (id : ExtmarkId) :
    (ids.foldl NamespaceState.removeMark state).byId[id]?
      = if id ∈ ids then none else state.byId[id]? := by
  induction ids generalizing state with
  | nil => simp
  | cons i ids ih =>
    rw [List.foldl_cons, ih, byId_removeMark, Std.ExtTreeMap.getElem?_erase]
    by_cases hid : id = i
    · simp [hid]
    · rw [if_neg (c := compare i id = .eq) (by simpa using Ne.symm hid)]
      simp [hid]

section

variable {sp : TextSplice}

theorem WellFormed.mem_kept (h : WellFormed ns state) {mark : Extmark} :
    mark ∈ state.kept sp ↔ state.byId[mark.id]? = some mark ∧ mark.removedBy sp = false := by
  rw [kept, List.mem_filter, h.mem_marks, Bool.not_eq_true']

theorem WellFormed.mem_removed (h : WellFormed ns state) {id : ExtmarkId} :
    id ∈ (state.marks.filter (·.removedBy sp)).map (·.id)
      ↔ ∃ mark : Extmark, state.byId[id]? = some mark ∧ mark.removedBy sp = true := by
  simp only [List.mem_map, List.mem_filter, h.mem_marks]
  constructor
  · rintro ⟨mark, ⟨hmark, hrem⟩, rfl⟩
    exact ⟨mark, hmark, hrem⟩
  · rintro ⟨mark, hmark, hrem⟩
    have hid := (h.keyed id mark hmark).1
    exact ⟨mark, ⟨hid.symm ▸ hmark, hrem⟩, hid⟩

/-- A splice removes the marks that it consumes for good, and changes every other mark in place. -/
theorem WellFormed.getElem?_splice (h : WellFormed ns state) (sp : TextSplice) (id : ExtmarkId) :
    (state.splice sp).byId[id]? = state.byId[id]?.bind fun mark =>
      if mark.removedBy sp then none else some (mark.spliced sp) := by
  unfold NamespaceState.splice
  simp only [byId_reconcileIndex, getElem?_foldl_removeMark, h.mem_removed,
    Std.ExtTreeMap.getElem?_map]
  cases hid : state.byId[id]? with
  | none => simp
  | some mark => cases hrem : mark.removedBy sp <;> simp [hrem]

theorem ordered_spliced (mark : Extmark) (sp : TextSplice) : (mark.spliced sp).Ordered := by
  intro stop hstop
  cases hs : mark.placement.stop with
  | none =>
    rw [(Extmark.spliced_of_point hs sp).2] at hstop
    cases hstop
  | some e =>
    obtain ⟨hpos, hstop'⟩ := Extmark.spliced_of_range hs sp
    rw [hstop'] at hstop
    cases hstop
    rw [hpos]
    exact le_trans (min_le_left _ _) (le_max_left _ _)

/-- The relocations of a splice lead from the placement without the removed marks to the new one. -/
theorem WellFormed.moves_splice (h : WellFormed ns state) (sp : TextSplice) :
    let removed := (state.marks.filter (·.removedBy sp)).map (·.id)
    Moves (fun id => if id ∈ removed then none else state.starts id)
      ((state.kept sp).filterMap (·.relocation sp)) (state.splice sp).starts := by
  intro removed
  have hkept : ∀ {mark : Extmark}, mark ∈ state.kept sp →
      state.byId[mark.id]? = some mark ∧ mark.id ∉ removed := by
    intro mark hmark
    obtain ⟨hid, hrem⟩ := h.mem_kept.mp hmark
    refine ⟨hid, fun hmem => ?_⟩
    obtain ⟨mark', hid', hrem'⟩ := h.mem_removed.mp hmem
    rw [hid, Option.some.injEq] at hid'
    rw [← hid', hrem] at hrem'
    cases hrem'
  have hmem : ∀ {m : Relocation}, m ∈ (state.kept sp).filterMap (·.relocation sp) →
      ∃ mark ∈ state.kept sp, (mark.spliced sp).position ≠ mark.position ∧
        m = (mark.id, mark.position, (mark.spliced sp).position) := by
    intro m hm
    obtain ⟨mark, hmark, hrel⟩ := List.mem_filterMap.mp hm
    unfold Extmark.relocation at hrel
    simp only [ne_eq, ite_not] at hrel
    split at hrel
    · cases hrel
    · next hne =>
      cases hrel
      exact ⟨mark, hmark, hne, rfl⟩
  refine moves_of_nodup ?_ ?_ ?_ ?_
  · have hids : ((state.kept sp).map (·.id)).Nodup :=
      h.nodup_ids.sublist (List.filter_sublist.map _)
    rw [List.Nodup, List.pairwise_map] at hids ⊢
    rw [List.pairwise_filterMap]
    refine hids.imp ?_
    intro a b hab x hx y hy
    unfold Extmark.relocation at hx hy
    simp only [ne_eq, ite_not] at hx hy
    split at hx
    · cases hx
    · split at hy
      · cases hy
      · cases hx
        cases hy
        exact hab
  · intro m hm
    obtain ⟨mark, hmark, -, rfl⟩ := hmem hm
    obtain ⟨hid, hnot⟩ := hkept hmark
    simp [hnot, starts, hid]
  · intro m hm
    obtain ⟨mark, hmark, -, rfl⟩ := hmem hm
    obtain ⟨hid, hrem⟩ := h.mem_kept.mp hmark
    rw [starts, h.getElem?_splice, hid]
    simp [hrem]
  · intro id hid
    rw [starts, h.getElem?_splice]
    cases hget : state.byId[id]? with
    | none => simp [starts, hget]
    | some mark =>
      cases hrem : mark.removedBy sp with
      | true =>
        have : id ∈ removed := h.mem_removed.mpr ⟨mark, hget, hrem⟩
        simp [this, hrem]
      | false =>
        have hkeyed := (h.keyed id mark hget).1
        have hmark : mark ∈ state.kept sp := h.mem_kept.mpr ⟨hkeyed.symm ▸ hget, hrem⟩
        have hnot : id ∉ removed := hkeyed ▸ (hkept hmark).2
        have hsame : (mark.spliced sp).position = mark.position := by
          by_contra hne
          refine hid (List.mem_map.mpr ⟨(mark.id, mark.position, (mark.spliced sp).position), ?_,
            hkeyed⟩)
          refine List.mem_filterMap.mpr ⟨mark, hmark, ?_⟩
          unfold Extmark.relocation
          simp only [if_pos hne]
          rfl
        simp [hrem, hnot, starts, hget, hsame]

theorem WellFormed.splice (h : WellFormed ns state) (sp : TextSplice) :
    WellFormed ns (state.splice sp) where
  keyed id mark hm := by
    rw [h.getElem?_splice] at hm
    obtain ⟨old, hold, hmark⟩ := Option.bind_eq_some_iff.mp hm
    split at hmark
    · cases hmark
    · cases hmark
      exact h.keyed id old hold
  ordered id mark hm := by
    rw [h.getElem?_splice] at hm
    obtain ⟨old, -, hmark⟩ := Option.bind_eq_some_iff.mp hm
    split at hmark
    · cases hmark
    · cases hmark
      exact ordered_spliced old sp
  indexes := by
    have hmoves := h.moves_splice sp
    let byId := state.byId.map fun _ mark =>
      if mark.removedBy sp then mark else mark.spliced sp
    let removed := (state.marks.filter (·.removedBy sp)).map (·.id)
    -- a removed mark is not changed before it is taken out
    have hstay : ∀ id ∈ removed, ({ state with byId } : NamespaceState).starts id
        = state.starts id := by
      intro id hid
      obtain ⟨mark, hmark, hrem⟩ := h.mem_removed.mp hid
      simp [starts, byId, Std.ExtTreeMap.getElem?_map, hmark, hrem]
    have hidx : Indexes ({ state with byId } : NamespaceState).byPosition state.starts := h.indexes
    have hremoved := (foldl_removeMark_indexes hidx hstay).1
    unfold NamespaceState.splice at hmoves ⊢
    have hstarts : ∀ (s : NamespaceState) relocated, (s.reconcileIndex relocated).starts
        = s.starts := fun s relocated => by
      funext id
      rw [starts, byId_reconcileIndex, starts]
    rw [hstarts] at hmoves ⊢
    exact reconcileIndex_indexes hremoved hmoves

end

/-! ## Unloading -/

theorem getElem?_foldl_insert {l : List (ExtmarkId × Extmark)}
    {byId : Std.ExtTreeMap ExtmarkId Extmark} {id : ExtmarkId} {mark : Extmark}
    (h : (l.foldl (fun byId (id, mark) => byId.insert id mark) byId)[id]? = some mark) :
    (id, mark) ∈ l ∨ byId[id]? = some mark := by
  induction l generalizing byId with
  | nil => exact .inr h
  | cons p l ih =>
    rcases ih h with hmem | hget
    · exact .inl (by simp [hmem])
    · rw [Std.ExtTreeMap.getElem?_insert] at hget
      split at hget
      · next hid =>
        cases hget
        rw [← Std.LawfulEqCmp.eq_of_compare hid]
        exact .inl (by simp)
      · exact .inr hget

/-- A rebuilt namespace is well formed when its marks are. -/
theorem WellFormed.rebuild
    (hkeyed : ∀ (id : ExtmarkId) (mark : Extmark), state.byId[id]? = some mark →
      mark.id = id ∧ mark.namespaceId = ns)
    (hordered : ∀ (id : ExtmarkId) (mark : Extmark), state.byId[id]? = some mark → mark.Ordered) :
    WellFormed ns state.rebuildIndex where
  keyed := hkeyed
  ordered := hordered
  indexes := rebuildIndex_indexes state

end NamespaceState

/-! ## The store -/

namespace Extmarks

variable {self : Extmarks}

/-- Every namespace is well formed. -/
def WellFormed (self : Extmarks) : Prop :=
  ∀ (ns : NamespaceId) (state : NamespaceState), self.namespaces[ns]? = some state →
    state.WellFormed ns

theorem wellFormed_empty : WellFormed {} := by
  intro ns state h
  simp at h

theorem WellFormed.putState (h : WellFormed self) {ns : NamespaceId} {state : NamespaceState}
    (hs : state.WellFormed ns) : WellFormed (self.putState ns state) := by
  intro ns' state' h'
  rw [Extmarks.putState, Std.ExtTreeMap.getElem?_insert] at h'
  split at h'
  · next hns =>
    cases h'
    rw [← Std.LawfulEqCmp.eq_of_compare hns]
    exact hs
  · exact h ns' state' h'

theorem namespaceState_eq (self : Extmarks) (ns : NamespaceId) : self.namespaceState ns
    = match self.namespaces[ns]? with
      | some state => .ok state
      | none => .error (.unknownNamespace ns) := rfl

theorem WellFormed.createNamespace (h : WellFormed self) (name : String) :
    WellFormed (final (Extmarks.createNamespace name self)) := by
  unfold Extmarks.createNamespace
  rw [bind_ok (get_run self)]
  generalize (if name.isEmpty then none else self.namedNamespaces[name]?) = known
  cases known with
  | some id => exact h
  | none =>
    by_cases hmax : self.highestNamespace.toNat + 1 = UInt32.size
    · simp only [if_pos hmax]
      exact h
    · simp only [if_neg hmax]
      exact h.putState NamespaceState.wellFormed_empty

theorem WellFormed.ensureNamespace (h : WellFormed self) (ns : NamespaceId) :
    WellFormed (self.ensureNamespace ns) := by
  intro ns' state h'
  rw [Extmarks.ensureNamespace, Std.ExtTreeMap.getElem?_insertIfNew] at h'
  split at h'
  · cases h'
    exact NamespaceState.wellFormed_empty
  · exact h ns' state h'

theorem validatePlacement_ordered {placement : ExtmarkPlacement}
    (h : validatePlacement placement = .ok ()) (stop : ExtmarkPosition)
    (hstop : placement.stop.map (·.position) = some stop) : placement.position ≤ stop := by
  unfold validatePlacement at h
  cases hp : placement.stop with
  | none => simp [hp] at hstop
  | some e =>
    simp only [hp, Option.any_some, decide_eq_true_eq] at h
    split at h
    · cases h
    · next hlt =>
      rw [hp] at hstop
      cases hstop
      exact not_lt.mp hlt

/-- Taking a render order changes no mark. -/
theorem takeRenderOrder_run (ns : NamespaceId) (existing : Option UInt64) (self : Extmarks) :
    (final (takeRenderOrder ns existing self)).namespaces = self.namespaces := by
  unfold takeRenderOrder
  cases existing with
  | some renderOrder => rfl
  | none =>
    simp only
    rw [bind_ok (get_run self)]
    by_cases hmax : self.nextRenderOrder.toNat + 1 = UInt64.size
    · simp only [if_pos hmax]
      rfl
    · simp only [if_neg hmax]
      rfl

theorem WellFormed.setMark (h : WellFormed self) (ns : NamespaceId)
    (requestedId : Option ExtmarkId) (placement : ExtmarkPlacement) :
    WellFormed (final (Extmarks.setMark ns requestedId placement self)) := by
  unfold Extmarks.setMark
  cases hv : validatePlacement placement with
  | error e => exact h
  | ok u =>
    rw [bind_ok (ofExcept_ok_run u self), bind_ok (get_run self), namespaceState_eq]
    cases hns : self.namespaces[ns]? with
    | none => exact h
    | some state =>
      rw [bind_ok (ofExcept_ok_run state self)]
      have horder := takeRenderOrder_run ns
        ((requestedId.bind (state.byId[·]?)).map (·.renderOrder)) self
      rw [bind_run]
      cases hrun : takeRenderOrder ns
          ((requestedId.bind (state.byId[·]?)).map (·.renderOrder)) self with
      | error e self' =>
        rw [hrun] at horder
        exact fun ns' state' h' => h ns' state' (horder ▸ h')
      | ok renderOrder self' =>
        rw [hrun] at horder
        have h' : WellFormed self' := fun ns' state' h' => h ns' state' (horder ▸ h')
        cases hid : takeId ns state requestedId with
        | error e => exact h'
        | ok taken =>
          obtain ⟨id, highestId⟩ := taken
          have hstate := h ns state hns
          have hstate' : ({ state with highestId } : NamespaceState).WellFormed ns :=
            ⟨hstate.keyed, hstate.ordered, hstate.indexes⟩
          exact h'.putState (hstate'.placeMark rfl (validatePlacement_ordered hv))

theorem WellFormed.update (h : WellFormed self) (ns : NamespaceId) (id : ExtmarkId)
    (placement : ExtmarkPlacement) :
    WellFormed (final (Extmarks.update ns id placement self)) := by
  unfold Extmarks.update
  rw [bind_ok (get_run self), namespaceState_eq]
  cases hns : self.namespaces[ns]? with
  | none => exact h
  | some state =>
    rw [bind_ok (ofExcept_ok_run state self)]
    have hset := h.setMark ns (some id) placement
    cases hid : state.byId.contains id with
    | false => exact h
    | true =>
      have hrun : final ((discard (Extmarks.setMark ns (some id) placement) :
          EStateM ExtmarkError Extmarks Unit) self)
          = final (Extmarks.setMark ns (some id) placement self) := by
        show final ((Functor.map _ (Extmarks.setMark ns (some id) placement) :
          EStateM ExtmarkError Extmarks _) self) = _
        rw [map_run]
        cases Extmarks.setMark ns (some id) placement self <;> rfl
      exact hrun ▸ hset

theorem WellFormed.delete (h : WellFormed self) (ns : NamespaceId) (id : ExtmarkId) :
    WellFormed (final (Extmarks.delete ns id self)) := by
  unfold Extmarks.delete
  rw [bind_ok (get_run self), namespaceState_eq]
  cases hns : self.namespaces[ns]? with
  | none => exact h
  | some state => exact h.putState ((h ns state hns).removeMark id)

theorem WellFormed.clear (h : WellFormed self) (ns : NamespaceId) (first last : ExtmarkPosition) :
    WellFormed (final (Extmarks.clear ns first last self)) := by
  unfold Extmarks.clear
  rw [bind_ok (get_run self), namespaceState_eq]
  cases hns : self.namespaces[ns]? with
  | none => exact h
  | some state => exact h.putState ((h ns state hns).foldl_removeMark _)

theorem unloaded_spec {mark mark' : Extmark} (h : mark.unloaded = some mark') :
    mark'.id = mark.id ∧ mark'.namespaceId = mark.namespaceId ∧ mark'.Ordered := by
  unfold Extmark.unloaded at h
  split at h
  · cases h
    refine ⟨rfl, rfl, fun stop hstop => ?_⟩
    cases hs : mark.placement.stop with
    | none => simp [Extmark.stop, hs] at hstop
    | some e =>
      have hzero : stop = ⟨0, 0⟩ := by simpa [Extmark.stop, hs] using hstop.symm
      exact le_of_eq hzero.symm
  · cases h

theorem WellFormed.invalidateForUnload (h : WellFormed self) :
    WellFormed self.invalidateForUnload := by
  intro ns state hs
  rw [Extmarks.invalidateForUnload, Std.ExtTreeMap.getElem?_map] at hs
  obtain ⟨old, hold, rfl⟩ := Option.map_eq_some_iff.mp hs
  have hkept : ∀ (id : ExtmarkId) (mark : Extmark),
      old.invalidateForUnload.byId[id]? = some mark →
      mark.id = id ∧ mark.namespaceId = ns ∧ mark.Ordered := by
    intro id mark hmark
    rcases NamespaceState.getElem?_foldl_insert hmark with hmem | hempty
    · obtain ⟨⟨id', mark'⟩, hmem', hmap⟩ := List.mem_filterMap.mp hmem
      obtain ⟨mark'', hun, heq⟩ := Option.map_eq_some_iff.mp hmap
      cases heq
      have hkeyed := (h ns old hold).keyed id mark'
        (Std.ExtTreeMap.mem_toList_iff_getElem?_eq_some.mp hmem')
      obtain ⟨hid, hns, hord⟩ := unloaded_spec hun
      exact ⟨hid.trans hkeyed.1, hns.trans hkeyed.2, hord⟩
    · simp at hempty
  exact .rebuild (fun id mark hm => ⟨(hkept id mark hm).1, (hkept id mark hm).2.1⟩)
    fun id mark hm => (hkept id mark hm).2.2

theorem WellFormed.applySplice (h : WellFormed self) (sp : TextSplice) :
    WellFormed (self.applySplice sp) := by
  intro ns state hs
  rw [Extmarks.applySplice, Extmarks.spliceRecording, Std.ExtTreeMap.getElem?_map] at hs
  obtain ⟨old, hold, rfl⟩ := Option.map_eq_some_iff.mp hs
  exact (h ns old hold).splice sp

/-! ## Replays -/

/-- Recorded endpoints are in order. -/
structure OrderedEntry (entry : SpliceUndoEntry) : Prop where
  before : ∀ stop, entry.stop = some stop → entry.position ≤ stop
  after : ∀ stop, entry.afterStop = some stop → entry.afterPosition ≤ stop

/-- What holds while a replay changes marks: the index is still that of the placement at its start,
and the relocations noted so far lead from there to the present one. -/
structure Replaying (start : Extmarks) (acc : Extmarks × List (NamespaceId × Relocation)) : Prop where
  spaces : ∀ (ns : NamespaceId) (state : NamespaceState), acc.1.namespaces[ns]? = some state →
    ∃ state₀ : NamespaceState, start.namespaces[ns]? = some state₀ ∧
      state.byPosition = state₀.byPosition ∧
      (∀ (id : ExtmarkId) (mark : Extmark), state.byId[id]? = some mark →
        mark.id = id ∧ mark.namespaceId = ns ∧ mark.Ordered) ∧
      Moves state₀.starts ((acc.2.filter (·.1 == ns)).map (·.2)) state.starts

theorem replaying_start (h : WellFormed self) : Replaying self (self, []) where
  spaces ns state hs := by
    have hwf := h ns state hs
    exact ⟨state, hs, rfl, fun id mark hm => ⟨(hwf.keyed id mark hm).1, (hwf.keyed id mark hm).2,
      hwf.ordered id mark hm⟩, fun _ => rfl⟩

theorem position_applyRecordedGeometry (mark : Extmark) (position : ExtmarkPosition)
    (stop : Option ExtmarkPosition) (invalid : Bool) :
    (applyRecordedGeometry mark position stop invalid).position = position ∧
      (applyRecordedGeometry mark position stop invalid).stop = stop ∧
      (applyRecordedGeometry mark position stop invalid).invalid = invalid := by
  refine ⟨rfl, ?_, rfl⟩
  unfold applyRecordedGeometry Extmark.stop
  cases mark.placement.stop <;> cases stop <;> rfl

/-- One entry keeps the relation: its mark moves, and so does the noted placement. -/
theorem Replaying.step {start : Extmarks} {acc : Extmarks × List (NamespaceId × Relocation)}
    (h : Replaying start acc) (entry : SpliceUndoEntry)
    {geometry : SpliceUndoEntry → ExtmarkPosition × Option ExtmarkPosition × Bool}
    (hgeo : ∀ stop, (geometry entry).2.1 = some stop → (geometry entry).1 ≤ stop) :
    Replaying start (replayEntry geometry acc entry) := by
  unfold replayEntry
  cases hns : acc.1.namespaces[entry.namespaceId]? with
  | none => simpa only [hns] using h
  | some state =>
    cases hid : state.byId[entry.id]? with
    | none => simpa only [hns, hid] using h
    | some mark =>
      simp only [hns, hid]
      obtain ⟨state₀, hstart, hidx, hmarks, hmoves⟩ := h.spaces _ _ hns
      obtain ⟨hpos, hstop, -⟩ := position_applyRecordedGeometry mark (geometry entry).1
        (geometry entry).2.1 (geometry entry).2.2
      have hmark := hmarks entry.id mark hid
      generalize hafter : applyRecordedGeometry mark (geometry entry).1 (geometry entry).2.1
        (geometry entry).2.2 = after at hpos hstop ⊢
      have hstarts : ({ state with byId := state.byId.insert entry.id after } :
          NamespaceState).starts = Function.update state.starts entry.id (some after.position) := by
        funext id
        rw [NamespaceState.starts, Std.ExtTreeMap.getElem?_insert]
        by_cases hideq : id = entry.id
        · simp [hideq]
        · rw [if_neg (by simpa using Ne.symm hideq), Function.update_of_ne hideq]
          rfl
      have hold : state.starts entry.id = some mark.position := by
        rw [NamespaceState.starts, hid]
        rfl
      refine ⟨fun ns state' hs' => ?_⟩
      simp only [Extmarks.putState, Std.ExtTreeMap.getElem?_insert] at hs'
      by_cases hnse : entry.namespaceId = ns
      · subst hnse
        rw [if_pos (by simp), Option.some.injEq] at hs'
        subst hs'
        refine ⟨state₀, hstart, hidx, fun id m hm => ?_, ?_⟩
        · rw [Std.ExtTreeMap.getElem?_insert] at hm
          split at hm
          · next hideq =>
            rw [Option.some.injEq] at hm
            subst hm
            have hideq := Std.LawfulEqCmp.eq_of_compare hideq
            refine ⟨?_, ?_, fun stop hs => ?_⟩
            · rw [← hafter, ← hideq]
              exact hmark.1
            · rw [← hafter]
              exact hmark.2.1
            · rw [hpos]
              exact hgeo stop (hstop.symm.trans hs)
          · exact hmarks id m hm
        · rw [hstarts]
          by_cases hmoved : after.position ≠ mark.position
          · simp only [if_pos hmoved, List.filter_append, List.map_append]
            simpa using hmoves.snoc hold
          · simp only [if_neg hmoved]
            rw [not_not.mp hmoved, ← hold, Function.update_eq_self]
            exact hmoves
      · rw [if_neg (by simpa using hnse)] at hs'
        obtain ⟨state₁, hstart₁, hidx₁, hmarks₁, hmoves₁⟩ := h.spaces _ _ hs'
        refine ⟨state₁, hstart₁, hidx₁, hmarks₁, ?_⟩
        by_cases hmoved : after.position ≠ mark.position
        · simp only [if_pos hmoved, List.filter_append, List.map_append]
          simpa [hnse] using hmoves₁
        · simp only [if_neg hmoved]
          exact hmoves₁

theorem Replaying.foldl {start : Extmarks} {acc : Extmarks × List (NamespaceId × Relocation)}
    (h : Replaying start acc) {entries : List SpliceUndoEntry}
    {geometry : SpliceUndoEntry → ExtmarkPosition × Option ExtmarkPosition × Bool}
    (hgeo : ∀ entry ∈ entries, ∀ stop, (geometry entry).2.1 = some stop →
      (geometry entry).1 ≤ stop) :
    Replaying start (entries.foldl (replayEntry geometry) acc) := by
  induction entries generalizing acc with
  | nil => exact h
  | cons entry entries ih =>
    exact ih (h.step entry (hgeo entry (by simp))) fun e he => hgeo e (by simp [he])

/-- Each namespace with relocations has its index reconciled once. -/
theorem getElem?_reconcileRelocations (self : Extmarks)
    (relocated : List (NamespaceId × Relocation)) (ns : NamespaceId) :
    (self.reconcileRelocations relocated).namespaces[ns]? = self.namespaces[ns]?.map fun state =>
      if ns ∈ relocated.map (·.1) then
        state.reconcileIndex ((relocated.filter (·.1 == ns)).map (·.2))
      else state := by
  have key : ∀ (touched : List NamespaceId), touched.Nodup → ∀ self : Extmarks,
      (touched.foldl (fun self ns => match self.namespaces[ns]? with
        | some state => self.putState ns (state.reconcileIndex
            ((relocated.filter (·.1 == ns)).map (·.2)))
        | none => self) self).namespaces[ns]?
      = self.namespaces[ns]?.map fun state => if ns ∈ touched then
          state.reconcileIndex ((relocated.filter (·.1 == ns)).map (·.2)) else state := by
    intro touched
    induction touched with
    | nil => intro _ self; simp
    | cons t touched ih =>
      intro hnodup self
      obtain ⟨ht, hnodup⟩ := List.nodup_cons.mp hnodup
      rw [List.foldl_cons, ih hnodup]
      cases hself : self.namespaces[t]? with
      | none =>
        by_cases hnt : ns = t
        · subst hnt
          simp [hself]
        · simp [hnt]
      | some state =>
        simp only [Extmarks.putState, Std.ExtTreeMap.getElem?_insert]
        by_cases hnt : t = ns
        · subst hnt
          simp [ht, hself]
        · rw [if_neg (by simpa using hnt)]
          simp [Ne.symm hnt]
  have hnodup : ((relocated.map (·.1)).dedup.mergeSort (· ≤ ·)).Nodup :=
    (List.mergeSort_perm _ _).nodup_iff.mpr (List.nodup_dedup _)
  refine (key _ hnodup self).trans ?_
  simp only [List.mem_mergeSort, List.mem_dedup]

theorem Replaying.reconcile (h : WellFormed self)
    {acc : Extmarks × List (NamespaceId × Relocation)} (hr : Replaying self acc) :
    WellFormed (acc.1.reconcileRelocations acc.2) := by
  intro ns state hs
  rw [getElem?_reconcileRelocations] at hs
  obtain ⟨state₁, hs₁, hstate⟩ := Option.map_eq_some_iff.mp hs
  obtain ⟨state₀, hs₀, hidx, hmarks, hmoves⟩ := hr.spaces ns state₁ hs₁
  have hold : Indexes state₁.byPosition state₀.starts := hidx ▸ (h ns state₀ hs₀).indexes
  by_cases htouched : ns ∈ acc.2.map (·.1)
  · rw [if_pos htouched] at hstate
    subst hstate
    have hstarts : (state₁.reconcileIndex ((acc.2.filter (·.1 == ns)).map (·.2))).starts
        = state₁.starts := by
      funext id
      rw [NamespaceState.starts, NamespaceState.byId_reconcileIndex, NamespaceState.starts]
    refine ⟨fun id mark hm => ?_, fun id mark hm => ?_, ?_⟩
    · rw [NamespaceState.byId_reconcileIndex] at hm
      exact ⟨(hmarks id mark hm).1, (hmarks id mark hm).2.1⟩
    · rw [NamespaceState.byId_reconcileIndex] at hm
      exact (hmarks id mark hm).2.2
    · rw [hstarts]
      exact NamespaceState.reconcileIndex_indexes hold hmoves
  · rw [if_neg htouched] at hstate
    subst hstate
    have hnone : acc.2.filter (·.1 == ns) = [] := by
      rw [List.filter_eq_nil_iff]
      intro r hr hns
      exact htouched (List.mem_map.mpr ⟨r, hr, by simpa using hns⟩)
    rw [hnone] at hmoves
    exact ⟨fun id mark hm => ⟨(hmarks id mark hm).1, (hmarks id mark hm).2.1⟩,
      fun id mark hm => (hmarks id mark hm).2.2, hold.congr hmoves⟩

theorem WellFormed.replay (h : WellFormed self) (restorable : List (NamespaceId × ExtmarkId))
    {geometry : SpliceUndoEntry → ExtmarkPosition × Option ExtmarkPosition × Bool}
    {entries : List SpliceUndoEntry} (hgeo : ∀ entry ∈ entries, ∀ stop,
      (geometry entry).2.1 = some stop → (geometry entry).1 ≤ stop) :
    WellFormed (self.replay restorable geometry entries) :=
  ((replaying_start h).foldl fun entry he => hgeo entry (List.mem_of_mem_filter he)).reconcile h

theorem WellFormed.undoSplice (h : WellFormed self) {undo : ExtmarkSpliceUndo}
    (hundo : ∀ entry ∈ undo.entries, OrderedEntry entry) : WellFormed (self.undoSplice undo) :=
  (h.applySplice _).replay _ fun entry he => (hundo entry (List.mem_of_mem_filter he)).before

theorem WellFormed.redoSplice (h : WellFormed self) {undo : ExtmarkSpliceUndo}
    (hundo : ∀ entry ∈ undo.entries, OrderedEntry entry) : WellFormed (self.redoSplice undo) :=
  (h.applySplice _).replay _ fun entry he => (hundo entry he).after

end Extmarks

end Oxvim.Editor
