import Oxvim.Editor.ExtmarkGeometry
import Oxvim.Editor.ExtmarkQuery

/-!
# Undo of extmark splices

Undo splices the replacement out again and puts the recorded marks back where they were; a mark
without a record keeps what the reverse splice made of it. So undo is exact if and only if the
reverse splice disturbs no mark that it does not put back, which `Extmark.disturbedBy_iff` reads off
the mark and the splice. The marks it gets wrong are those of `Extmark.LostBy`: the reverse splice
takes them for deleted with the replacement, and hides or removes them.

Two stores with the same marks are the same store, because an index is determined by its marks
(`ext_of_marks`); so redo need be compared mark by mark only.
-/

namespace Oxvim.Editor

open Lib PositionIndex EState

namespace Extmark

variable {a b : Extmark}

/-- Two marks agree on all that a splice and a replay leave alone. -/
structure SameShape (a b : Extmark) : Prop where
  namespaceId : a.namespaceId = b.namespaceId
  id : a.id = b.id
  renderOrder : a.renderOrder = b.renderOrder
  gravity : a.placement.gravity = b.placement.gravity
  attributes : a.placement.attributes = b.placement.attributes
  stopGravity : a.placement.stop.map (·.gravity) = b.placement.stop.map (·.gravity)

theorem SameShape.trans {c : Extmark} (h : a.SameShape b) (h' : b.SameShape c) : a.SameShape c :=
  ⟨h.1.trans h'.1, h.2.trans h'.2, h.3.trans h'.3, h.4.trans h'.4, h.5.trans h'.5, h.6.trans h'.6⟩

theorem sameShape_spliced (mark : Extmark) (sp : TextSplice) :
    (mark.spliced sp).SameShape mark := by
  obtain ⟨hgravity, hattributes, hstop⟩ := placement_spliced mark sp
  exact ⟨rfl, rfl, rfl, hgravity, hattributes, hstop⟩

/-- The geometry of a mark makes any mark of its shape that mark. -/
theorem SameShape.restored (h : a.SameShape b) :
    applyRecordedGeometry a b.position b.stop b.invalid = b := by
  obtain ⟨hns, hid, horder, hgravity, hattributes, hstop⟩ := h
  obtain ⟨nsa, ida, ⟨posa, stopa, ga, attra⟩, inva, ordera⟩ := a
  obtain ⟨nsb, idb, ⟨posb, stopb, gb, attrb⟩, invb, orderb⟩ := b
  simp only at hns hid horder hgravity hattributes hstop
  subst hns hid horder hgravity hattributes
  unfold applyRecordedGeometry Extmark.position Extmark.stop
  cases stopa with
  | none =>
    cases stopb with
    | none => rfl
    | some eb => simp at hstop
  | some ea =>
    cases stopb with
    | none => simp at hstop
    | some eb =>
      obtain ⟨pa, ga'⟩ := ea
      obtain ⟨pb, gb'⟩ := eb
      simp only [Option.map_some, Option.some.injEq] at hstop
      subst hstop
      rfl

/-- Marks of one shape with the same endpoints and validity are equal. -/
theorem SameShape.eq (h : a.SameShape b) (hpos : a.position = b.position) (hstop : a.stop = b.stop)
    (hinvalid : a.invalid = b.invalid) : a = b := by
  have hself : applyRecordedGeometry a a.position a.stop a.invalid = a :=
    SameShape.restored ⟨rfl, rfl, rfl, rfl, rfl, rfl⟩
  rw [hpos, hstop, hinvalid, h.restored] at hself
  exact hself.symm

end Extmark

namespace Extmarks

variable {self : Extmarks} {sp : TextSplice} {ns : NamespaceId} {id : ExtmarkId}

/-! ## Stores by their marks -/

theorem mark?_eq (self : Extmarks) (ns : NamespaceId) (id : ExtmarkId) :
    self.mark? ns id = self.namespaces[ns]?.bind (·.byId[id]?) := rfl

theorem WellFormed.mark?_keyed (h : self.WellFormed) {mark : Extmark}
    (hmark : self.mark? ns id = some mark) :
    mark.namespaceId = ns ∧ mark.id = id ∧ mark.Ordered := by
  obtain ⟨state, hns, hid⟩ := Option.bind_eq_some_iff.mp hmark
  have hstate := h ns state hns
  exact ⟨(hstate.keyed id mark hid).2, (hstate.keyed id mark hid).1, hstate.ordered id mark hid⟩

/-- All that a store has besides its marks agrees. -/
structure SameFrame (a b : Extmarks) : Prop where
  highestNamespace : a.highestNamespace = b.highestNamespace
  namedNamespaces : a.namedNamespaces = b.namedNamespaces
  nextRenderOrder : a.nextRenderOrder = b.nextRenderOrder
  highestIds : ∀ ns : NamespaceId,
    a.namespaces[ns]?.map (·.highestId) = b.namespaces[ns]?.map (·.highestId)

namespace SameFrame

variable {a b c : Extmarks}

theorem refl (a : Extmarks) : SameFrame a a := ⟨rfl, rfl, rfl, fun _ => rfl⟩

theorem symm (h : SameFrame a b) : SameFrame b a :=
  ⟨h.1.symm, h.2.symm, h.3.symm, fun ns => (h.4 ns).symm⟩

theorem trans (h : SameFrame a b) (h' : SameFrame b c) : SameFrame a c :=
  ⟨h.1.trans h'.1, h.2.trans h'.2, h.3.trans h'.3, fun ns => (h.4 ns).trans (h'.4 ns)⟩

end SameFrame

/-- Well-formed stores with the same marks and the same frame are equal. -/
theorem ext_of_marks {a b : Extmarks} (ha : a.WellFormed) (hb : b.WellFormed)
    (hframe : SameFrame a b) (hmarks : ∀ ns id, a.mark? ns id = b.mark? ns id) : a = b := by
  obtain ⟨hns, hnamed, horder, hids⟩ := hframe
  have hspaces : a.namespaces = b.namespaces := by
    refine Std.ExtTreeMap.ext_getElem? fun ns => ?_
    have hid := hids ns
    have hmark := hmarks ns
    simp only [mark?_eq] at hmark
    cases hsa : a.namespaces[ns]? with
    | none =>
      rw [hsa] at hid
      exact (Option.map_eq_none_iff.mp hid.symm).symm
    | some sa =>
      rw [hsa] at hid hmark
      obtain ⟨sb, hsb, hhighest⟩ := Option.map_eq_some_iff.mp hid.symm
      rw [hsb] at hmark
      have hbyId : sa.byId = sb.byId := Std.ExtTreeMap.ext_getElem? hmark
      have hstarts : sb.starts = sa.starts := by
        funext i
        rw [NamespaceState.starts, NamespaceState.starts, hbyId]
      have hindex : sa.byPosition = sb.byPosition :=
        (ha ns sa hsa).indexes.unique (hstarts ▸ (hb ns sb hsb).indexes)
      rw [hsb]
      cases sa
      cases sb
      simp only at hbyId hindex hhighest
      rw [hbyId, hindex, hhighest]
  cases a
  cases b
  simp only at hns hnamed horder hspaces
  rw [hns, hnamed, horder, hspaces]

/-! ## Splices -/

/-- A splice removes some marks and changes the others in place. -/
theorem WellFormed.mark?_applySplice (h : self.WellFormed) (sp : TextSplice) (ns : NamespaceId)
    (id : ExtmarkId) :
    (self.applySplice sp).mark? ns id = (self.mark? ns id).bind fun mark =>
      if mark.removedBy sp then none else some (mark.spliced sp) := by
  have hget : (self.applySplice sp).namespaces[ns]?
      = self.namespaces[ns]?.map fun state => state.splice sp := Std.ExtTreeMap.getElem?_map
  rw [mark?_eq, mark?_eq, hget]
  cases hns : self.namespaces[ns]? with
  | none => rfl
  | some state => exact (h ns state hns).getElem?_splice sp id

theorem sameFrame_applySplice (self : Extmarks) (sp : TextSplice) :
    SameFrame (self.applySplice sp) self := by
  refine ⟨rfl, rfl, rfl, fun ns => ?_⟩
  have hget : (self.applySplice sp).namespaces[ns]?
      = self.namespaces[ns]?.map fun state => state.splice sp := Std.ExtTreeMap.getElem?_map
  rw [hget, Option.map_map]
  refine congrArg (fun f => self.namespaces[ns]?.map f) (funext fun state => ?_)
  have hremove : ∀ (ids : List ExtmarkId) (state : NamespaceState),
      (ids.foldl NamespaceState.removeMark state).highestId = state.highestId := by
    intro ids
    induction ids with
    | nil => exact fun _ => rfl
    | cons i ids ih =>
      intro state
      rw [List.foldl_cons, ih]
      unfold NamespaceState.removeMark
      split <;> rfl
  show (state.splice sp).highestId = state.highestId
  unfold NamespaceState.splice
  rw [NamespaceState.highestId_reconcileIndex, hremove]

/-- The records are those of the marks that stay. -/
theorem mem_entries (h : self.WellFormed) {entry : SpliceUndoEntry} :
    entry ∈ (self.spliceRecording sp).1.2.entries ↔ ∃ ns id mark,
      self.mark? ns id = some mark ∧ mark.removedBy sp = false ∧
        mark.undoEntry sp = some entry := by
  simp only [spliceRecording, List.mem_flatMap, List.mem_map, Prod.exists, mark?_eq,
    Option.bind_eq_some_iff, NamespaceState.spliceEntries, List.mem_filterMap]
  constructor
  · rintro ⟨state, ⟨ns, state', hmem, rfl⟩, mark, hmark, hentry⟩
    have hns := Std.ExtTreeMap.mem_toList_iff_getElem?_eq_some.mp hmem
    obtain ⟨hid, hkept⟩ := (h ns state' hns).mem_kept.mp hmark
    exact ⟨ns, mark.id, mark, ⟨state', hns, hid⟩, hkept, hentry⟩
  · rintro ⟨ns, id, mark, ⟨state, hns, hid⟩, hkept, hentry⟩
    have hkeyed := ((h ns state hns).keyed id mark hid).1
    exact ⟨state, ⟨ns, state, Std.ExtTreeMap.mem_toList_iff_getElem?_eq_some.mpr hns, rfl⟩, mark,
      (h ns state hns).mem_kept.mpr ⟨hkeyed.symm ▸ hid, hkept⟩, hentry⟩

theorem undoEntry_eq_some {mark : Extmark} {entry : SpliceUndoEntry}
    (h : mark.undoEntry sp = some entry) :
    entry =
      { namespaceId := mark.namespaceId, id := mark.id
        position := mark.position, stop := mark.stop, invalid := mark.invalid
        afterPosition := (mark.spliced sp).position, afterStop := (mark.spliced sp).stop
        afterInvalid := (mark.spliced sp).invalid, restoreBefore := true } := by
  unfold Extmark.undoEntry at h
  simp only at h
  split at h
  · exact (Option.some.inj h).symm
  · cases h

/-- A mark has at most one record. -/
theorem WellFormed.entry_unique (h : self.WellFormed) {mark : Extmark}
    (hmark : self.mark? ns id = some mark) {entry : SpliceUndoEntry}
    (hentry : entry ∈ (self.spliceRecording sp).1.2.entries)
    (hkey : entry.namespaceId = ns ∧ entry.id = id) : mark.undoEntry sp = some entry := by
  obtain ⟨ns', id', mark', hmark', -, hrecord⟩ := (mem_entries h).mp hentry
  obtain ⟨hns', hid', -⟩ := h.mark?_keyed hmark'
  have heq := undoEntry_eq_some hrecord
  have hns : ns' = ns := by rw [← hkey.1, ← hns', heq]
  have hid : id' = id := by rw [← hkey.2, ← hid', heq]
  rw [hns, hid, hmark] at hmark'
  rw [Option.some.inj hmark']
  exact hrecord

/-! ## Replays -/

theorem sameFrame_putState {state state' : NamespaceState}
    (hns : self.namespaces[ns]? = some state) (hid : state'.highestId = state.highestId) :
    SameFrame (self.putState ns state') self := by
  refine ⟨rfl, rfl, rfl, fun ns' => ?_⟩
  rw [putState, Std.ExtTreeMap.getElem?_insert]
  split
  · next heq =>
    rw [← Std.LawfulEqCmp.eq_of_compare heq, hns, Option.map_some, Option.map_some, hid]
  · rfl

theorem sameFrame_reconcileRelocations (self : Extmarks)
    (relocated : List (NamespaceId × Relocation)) :
    SameFrame (self.reconcileRelocations relocated) self := by
  unfold reconcileRelocations
  generalize (relocated.map (·.1)).dedup.mergeSort (· ≤ ·) = touched
  induction touched generalizing self with
  | nil => exact SameFrame.refl _
  | cons t touched ih =>
    refine (ih _).trans ?_
    cases hns : self.namespaces[t]? with
    | none =>
      simp only [hns]
      exact SameFrame.refl _
    | some state =>
      simp only [hns]
      exact sameFrame_putState hns (NamespaceState.highestId_reconcileIndex _ _)

section

variable {geometry : SpliceUndoEntry → ExtmarkPosition × Option ExtmarkPosition × Bool}

/-- A mark with the geometry of a record. -/
def putBack (geometry : SpliceUndoEntry → ExtmarkPosition × Option ExtmarkPosition × Bool)
    (entry : SpliceUndoEntry) (mark : Extmark) : Extmark :=
  applyRecordedGeometry mark (geometry entry).1 (geometry entry).2.1 (geometry entry).2.2

theorem putBack_putBack (entry : SpliceUndoEntry) (mark : Extmark) :
    putBack geometry entry (putBack geometry entry mark) = putBack geometry entry mark := by
  unfold putBack applyRecordedGeometry
  cases mark.placement.stop <;> cases (geometry entry).2.1 <;> rfl

theorem mark?_replayEntry (acc : Extmarks × List (NamespaceId × Relocation))
    (entry : SpliceUndoEntry) (ns : NamespaceId) (id : ExtmarkId) :
    (replayEntry geometry acc entry).1.mark? ns id = (acc.1.mark? ns id).map fun mark =>
      if entry.namespaceId = ns ∧ entry.id = id then putBack geometry entry mark else mark := by
  unfold replayEntry
  cases hns : acc.1.namespaces[entry.namespaceId]? with
  | none =>
    simp only [hns]
    by_cases hkey : entry.namespaceId = ns
    · subst hkey
      simp [mark?_eq, hns]
    · simp [hkey]
  | some state =>
    cases hid : state.byId[entry.id]? with
    | none =>
      simp only [hns, hid]
      by_cases hkey : entry.namespaceId = ns ∧ entry.id = id
      · obtain ⟨rfl, rfl⟩ := hkey
        simp [mark?_eq, hns, hid]
      · simp [hkey]
    | some mark =>
      simp only [hns, hid, mark?_eq, putState, Std.ExtTreeMap.getElem?_insert]
      by_cases hkey : entry.namespaceId = ns
      · subst hkey
        rw [if_pos (by simp), hns, Option.bind_some, Option.bind_some,
          Std.ExtTreeMap.getElem?_insert]
        by_cases hide : entry.id = id
        · subst hide
          rw [if_pos (by simp), hid]
          simp [putBack]
        · rw [if_neg (by simpa using hide)]
          simp [hide]
      · rw [if_neg (by simpa using hkey)]
        simp [hkey]

/-- Entries that are all the same record put a mark back once. -/
theorem mark?_foldl_replayEntry {entry : SpliceUndoEntry} {entries : List SpliceUndoEntry}
    (acc : Extmarks × List (NamespaceId × Relocation))
    (hunique : ∀ e ∈ entries, e.namespaceId = ns ∧ e.id = id → e = entry)
    (hkey : entry.namespaceId = ns ∧ entry.id = id) :
    (entries.foldl (replayEntry geometry) acc).1.mark? ns id = (acc.1.mark? ns id).map fun mark =>
      if entry ∈ entries then putBack geometry entry mark else mark := by
  induction entries generalizing acc with
  | nil => simp
  | cons e entries ih =>
    rw [List.foldl_cons, ih _ fun e' he' => hunique e' (by simp [he']), mark?_replayEntry,
      Option.map_map]
    refine congrArg (fun f => (acc.1.mark? ns id).map f) (funext fun mark => ?_)
    by_cases he : e.namespaceId = ns ∧ e.id = id
    · have heq := hunique e (by simp) he
      subst heq
      rw [if_pos (by simp)]
      simp only [Function.comp_apply, if_pos he]
      split
      · exact putBack_putBack e mark
      · rfl
    · have hne : entry ≠ e := fun h => he (h ▸ hkey)
      simp only [Function.comp_apply, if_neg he, List.mem_cons, hne, false_or]

theorem mark?_reconcileRelocations (self : Extmarks)
    (relocated : List (NamespaceId × Relocation)) (ns : NamespaceId) (id : ExtmarkId) :
    (self.reconcileRelocations relocated).mark? ns id = self.mark? ns id := by
  rw [mark?_eq, mark?_eq, getElem?_reconcileRelocations]
  cases self.namespaces[ns]? with
  | none => rfl
  | some state =>
    rw [Option.map_some, Option.bind_some, Option.bind_some]
    split
    · rw [NamespaceState.byId_reconcileIndex]
    · rfl

/-- What a replay makes of a mark with one record. -/
theorem mark?_replay (self : Extmarks) {restorable : List (NamespaceId × ExtmarkId)}
    {entry : SpliceUndoEntry} {entries : List SpliceUndoEntry} (hentry : entry ∈ entries)
    (hunique : ∀ e ∈ entries, e.namespaceId = ns ∧ e.id = id → e = entry)
    (hkey : entry.namespaceId = ns ∧ entry.id = id) (hrestore : (ns, id) ∈ restorable) :
    (self.replay restorable geometry entries).mark? ns id
      = (self.mark? ns id).map (putBack geometry entry) := by
  unfold replay
  rw [mark?_reconcileRelocations, mark?_foldl_replayEntry (self, [])
    (fun e he => hunique e (List.mem_of_mem_filter he)) hkey]
  have hmem : entry ∈ entries.filter fun entry =>
      restorable.contains (entry.namespaceId, entry.id) := by
    rw [List.mem_filter, hkey.1, hkey.2, List.contains_iff_mem]
    exact ⟨hentry, hrestore⟩
  simp only [if_pos hmem]

/-- A replay leaves a mark without records alone. -/
theorem mark?_replay_of_none (self : Extmarks) {restorable : List (NamespaceId × ExtmarkId)}
    {entries : List SpliceUndoEntry}
    (hnone : ∀ e ∈ entries, ¬(e.namespaceId = ns ∧ e.id = id)) :
    (self.replay restorable geometry entries).mark? ns id = self.mark? ns id := by
  unfold replay
  rw [mark?_reconcileRelocations]
  generalize hkept : entries.filter (fun entry =>
    restorable.contains (entry.namespaceId, entry.id)) = kept
  have hnone : ∀ e ∈ kept, ¬(e.namespaceId = ns ∧ e.id = id) := fun e he =>
    hnone e (List.mem_of_mem_filter (hkept ▸ he))
  suffices h : ∀ acc : Extmarks × List (NamespaceId × Relocation),
      (kept.foldl (replayEntry geometry) acc).1.mark? ns id = acc.1.mark? ns id from h (self, [])
  clear hkept
  induction kept with
  | nil => exact fun _ => rfl
  | cons e kept ih =>
    intro acc
    rw [List.foldl_cons, ih fun e' he' => hnone e' (by simp [he']), mark?_replayEntry]
    simp [hnone e (by simp)]

/-- A replay creates no mark. -/
theorem mark?_replay_none {restorable : List (NamespaceId × ExtmarkId)}
    {entries : List SpliceUndoEntry} (h : self.mark? ns id = none) :
    (self.replay restorable geometry entries).mark? ns id = none := by
  unfold replay
  rw [mark?_reconcileRelocations]
  generalize entries.filter (fun entry =>
    restorable.contains (entry.namespaceId, entry.id)) = kept
  suffices hfold : ∀ acc : Extmarks × List (NamespaceId × Relocation), acc.1.mark? ns id = none →
      (kept.foldl (replayEntry geometry) acc).1.mark? ns id = none from hfold (self, []) h
  induction kept with
  | nil => exact fun _ h => h
  | cons e kept ih => exact fun acc hacc => ih _ (by rw [mark?_replayEntry, hacc]; rfl)

theorem sameFrame_replayEntry (acc : Extmarks × List (NamespaceId × Relocation))
    (entry : SpliceUndoEntry) : SameFrame (replayEntry geometry acc entry).1 acc.1 := by
  unfold replayEntry
  cases hns : acc.1.namespaces[entry.namespaceId]? with
  | none =>
    simp only [hns]
    exact SameFrame.refl _
  | some state =>
    cases hid : state.byId[entry.id]? with
    | none =>
      simp only [hns, hid]
      exact SameFrame.refl _
    | some mark =>
      simp only [hns, hid]
      exact sameFrame_putState hns rfl

theorem sameFrame_replay (self : Extmarks) (restorable : List (NamespaceId × ExtmarkId))
    (entries : List SpliceUndoEntry) :
    SameFrame (self.replay restorable geometry entries) self := by
  unfold replay
  refine (sameFrame_reconcileRelocations _ _).trans ?_
  suffices h : ∀ (entries : List SpliceUndoEntry) (acc : Extmarks × List (NamespaceId × Relocation)),
      SameFrame (entries.foldl (replayEntry geometry) acc).1 acc.1 from h _ (self, [])
  intro entries
  induction entries with
  | nil => exact fun acc => SameFrame.refl _
  | cons e entries ih => exact fun acc => (ih _).trans (sameFrame_replayEntry acc e)

end

/-! ## Undo and redo -/

/-- The store after a splice and its undo. -/
def undone (self : Extmarks) (sp : TextSplice) : Extmarks :=
  (self.spliceRecording sp).2.undoSplice (self.spliceRecording sp).1.2

/-- What undo makes of the marks: a mark that the reverse splice removes is gone, one with a record
is as before, and any other is what the two splices have made of it. -/
theorem WellFormed.mark?_undone (h : self.WellFormed) {mark : Extmark}
    (hmark : self.mark? ns id = some mark) (hkept : mark.removedBy sp = false) :
    (self.undone sp).mark? ns id = if (mark.spliced sp).removedBy sp.inverse then none
      else some (if (mark.undoEntry sp).isSome then mark
        else (mark.spliced sp).spliced sp.inverse) := by
  have hforward : (self.applySplice sp).mark? ns id = some (mark.spliced sp) := by
    rw [h.mark?_applySplice, hmark]
    simp [hkept]
  have hreverse : ((self.applySplice sp).applySplice sp.inverse).mark? ns id
      = if (mark.spliced sp).removedBy sp.inverse then none
        else some ((mark.spliced sp).spliced sp.inverse) := by
    rw [(h.applySplice sp).mark?_applySplice, hforward]
    rfl
  have hentry : ∀ e ∈ ((self.spliceRecording sp).1.2.entries.filter (·.restoreBefore)),
      e.namespaceId = ns ∧ e.id = id → mark.undoEntry sp = some e := fun e he hkey =>
    h.entry_unique hmark (List.mem_of_mem_filter he) hkey
  have hsplice : (self.spliceRecording sp).1.2.splice = sp := rfl
  unfold undone Extmarks.undoSplice
  rw [hsplice]
  obtain ⟨hns, hid, -⟩ := h.mark?_keyed hmark
  cases hrecord : mark.undoEntry sp with
  | none =>
    rw [mark?_replay_of_none]
    · exact hreverse
    · intro e he hkey
      rw [hrecord] at hentry
      cases hentry e he hkey
  | some entry =>
    have heq := undoEntry_eq_some hrecord
    have hkey : entry.namespaceId = ns ∧ entry.id = id := by rw [heq]; exact ⟨hns, hid⟩
    have hmem : entry ∈ (self.spliceRecording sp).1.2.entries :=
      (mem_entries h).mpr ⟨ns, id, mark, hmark, hkept, hrecord⟩
    have hfiltered : entry ∈ (self.spliceRecording sp).1.2.entries.filter (·.restoreBefore) := by
      rw [List.mem_filter, heq]
      exact ⟨heq ▸ hmem, rfl⟩
    rw [mark?_replay _ hfiltered]
    · show Option.map _ (((self.applySplice sp).applySplice sp.inverse).mark? ns id) = _
      rw [hreverse]
      split
      · rfl
      · have hshape := (Extmark.sameShape_spliced (mark.spliced sp) sp.inverse).trans
          (Extmark.sameShape_spliced mark sp)
        have hback := hshape.restored
        rw [Option.map_some, putBack, heq]
        simp only [Option.isSome_some, if_true]
        rw [hback]
    · intro e he hek
      have := hentry e he hek
      rw [hrecord] at this
      exact (Option.some.inj this).symm
    · exact hkey
    · rw [List.mem_filterMap]
      refine ⟨entry, hmem, ?_⟩
      show ((self.applySplice sp).mark? entry.namespaceId entry.id).bind _ = _
      rw [hkey.1, hkey.2, hforward, heq]
      simp

/-- Undo creates no mark. -/
theorem WellFormed.mark?_undone_none (h : self.WellFormed)
    (hgone : (self.applySplice sp).mark? ns id = none) : (self.undone sp).mark? ns id = none := by
  refine mark?_replay_none ?_
  show ((self.applySplice sp).applySplice sp.inverse).mark? ns id = none
  rw [(h.applySplice sp).mark?_applySplice, hgone]
  rfl

/-- Undo gives exactly the undisturbed marks back. -/
theorem WellFormed.restored_iff (h : self.WellFormed) {mark : Extmark}
    (hmark : self.mark? ns id = some mark) (hkept : mark.removedBy sp = false) :
    (∃ mark', (self.undone sp).mark? ns id = some mark' ∧ mark'.position = mark.position ∧
      mark'.stop = mark.stop ∧ mark'.invalid = mark.invalid) ↔ ¬mark.DisturbedBy sp := by
  rw [h.mark?_undone hmark hkept, Extmark.DisturbedBy]
  cases hremoved : (mark.spliced sp).removedBy sp.inverse with
  | true => simp
  | false =>
    cases hrecord : mark.undoEntry sp with
    | some entry => simp
    | none => simp [Extmark.movedFrom, and_assoc]

/-- Where undo disturbs no mark it gives every mark back, gravity and attributes included. -/
theorem WellFormed.mark?_undone_eq (h : self.WellFormed) {mark : Extmark}
    (hmark : self.mark? ns id = some mark) (hkept : mark.removedBy sp = false)
    (hfree : ¬mark.DisturbedBy sp) : (self.undone sp).mark? ns id = some mark := by
  obtain ⟨mark', hmark', hpos, hstop, hinvalid⟩ := (h.restored_iff hmark hkept).mpr hfree
  rw [hmark']
  rw [h.mark?_undone hmark hkept] at hmark'
  split at hmark'
  · cases hmark'
  · have hshape := (Extmark.sameShape_spliced (mark.spliced sp) sp.inverse).trans
      (Extmark.sameShape_spliced mark sp)
    split at hmark'
    · exact hmark'.symm
    · rw [← Option.some.inj hmark'] at hpos hstop hinvalid ⊢
      rw [hshape.eq hpos hstop hinvalid]

/-- Redo of an exact undo is the splice again. -/
theorem WellFormed.redo_undone (h : self.WellFormed)
    (hfree : ∀ ns id mark, self.mark? ns id = some mark → mark.removedBy sp = false →
      ¬mark.DisturbedBy sp) :
    (self.undone sp).redoSplice (self.spliceRecording sp).1.2 = (self.spliceRecording sp).2 := by
  have hordered := spliceRecording_ordered h sp
  have hforward : (self.applySplice sp).WellFormed := h.applySplice sp
  have hundone : (self.undone sp).WellFormed := hforward.undoSplice hordered
  have hframe : SameFrame ((self.undone sp).redoSplice (self.spliceRecording sp).1.2)
      (self.applySplice sp) :=
    (sameFrame_replay _ _ _).trans <| (sameFrame_applySplice _ _).trans <|
      (sameFrame_replay _ _ _).trans (sameFrame_applySplice _ _)
  refine ext_of_marks (hundone.redoSplice hordered) hforward hframe fun ns id => ?_
  have hsplice : (self.spliceRecording sp).1.2.splice = sp := rfl
  show _ = (self.applySplice sp).mark? ns id
  unfold Extmarks.redoSplice
  rw [hsplice]
  cases hmark : (self.applySplice sp).mark? ns id with
  | none =>
    refine mark?_replay_none ?_
    rw [hundone.mark?_applySplice, h.mark?_undone_none hmark]
    rfl
  | some after =>
    rw [h.mark?_applySplice, Option.bind_eq_some_iff] at hmark
    obtain ⟨mark, hmark, hafter⟩ := hmark
    split at hafter
    · cases hafter
    · next hkept =>
      rw [Bool.not_eq_true] at hkept
      have hback := h.mark?_undone_eq hmark hkept (hfree ns id mark hmark hkept)
      have hagain : ((self.undone sp).applySplice sp).mark? ns id = some after := by
        rw [hundone.mark?_applySplice, hback]
        simp [hkept, hafter]
      cases hrecord : mark.undoEntry sp with
      | none =>
        rw [mark?_replay_of_none]
        · exact hagain
        · intro e he hkey
          have := h.entry_unique hmark he hkey
          rw [hrecord] at this
          cases this
      | some entry =>
        have heq := undoEntry_eq_some hrecord
        obtain ⟨hns, hid, -⟩ := h.mark?_keyed hmark
        have hkey : entry.namespaceId = ns ∧ entry.id = id := by rw [heq]; exact ⟨hns, hid⟩
        have hmem : entry ∈ (self.spliceRecording sp).1.2.entries :=
          (mem_entries h).mpr ⟨ns, id, mark, hmark, hkept, hrecord⟩
        rw [mark?_replay _ hmem]
        · rw [hagain, Option.map_some, putBack, heq, ← Option.some.inj hafter]
          refine congrArg some (Extmark.SameShape.restored ⟨rfl, rfl, rfl, rfl, rfl, rfl⟩)
        · intro e he hek
          have := h.entry_unique hmark he hek
          rw [hrecord] at this
          exact (Option.some.inj this).symm
        · exact hkey
        · rw [List.mem_filterMap]
          refine ⟨entry, hmem, ?_⟩
          show ((self.undone sp).mark? entry.namespaceId entry.id).bind _ = _
          rw [hkey.1, hkey.2, hback, heq]
          simp

/-- Undo after a splice gives back every mark that the splice has not deleted and deletes none, and
redo after that gives the state after the splice. -/
structure UndoExact (marks : Extmarks) (sp : TextSplice) : Prop where
  restores : ∀ ns id mark, marks.mark? ns id = some mark →
    ((marks.spliceRecording sp).2.mark? ns id).isSome →
    ∃ mark', (marks.undone sp).mark? ns id = some mark' ∧ mark'.position = mark.position ∧
      mark'.stop = mark.stop ∧ mark'.invalid = mark.invalid
  deletesNone : ∀ ns id, ((marks.spliceRecording sp).2.mark? ns id).isSome →
    ((marks.undone sp).mark? ns id).isSome
  redoes :
    (marks.undone sp).redoSplice (marks.spliceRecording sp).1.2 = (marks.spliceRecording sp).2

theorem WellFormed.isSome_applySplice (h : self.WellFormed) {mark : Extmark}
    (hmark : self.mark? ns id = some mark) :
    ((self.spliceRecording sp).2.mark? ns id).isSome ↔ mark.removedBy sp = false := by
  show ((self.applySplice sp).mark? ns id).isSome ↔ _
  rw [h.mark?_applySplice, hmark]
  cases hremoved : mark.removedBy sp <;> simp [hremoved]

/-- **Undo is exact precisely where no mark that stays is spoiled.** -/
theorem undo_splice_exact_iff (h : self.WellFormed) (sp : TextSplice) :
    UndoExact self sp ↔ ∀ ns id mark, self.mark? ns id = some mark →
      mark.removedBy sp = false → ¬mark.SpoiledBy sp := by
  constructor
  · intro hexact ns id mark hmark hkept
    rw [Extmark.spoiledBy_iff (h.mark?_keyed hmark).2.2]
    exact (h.restored_iff hmark hkept).mp
      (hexact.restores ns id mark hmark ((h.isSome_applySplice hmark).mpr hkept))
  · intro hfree
    have hfree : ∀ ns id mark, self.mark? ns id = some mark → mark.removedBy sp = false →
        ¬mark.DisturbedBy sp := fun ns id mark hmark hkept =>
      (Extmark.spoiledBy_iff (h.mark?_keyed hmark).2.2).not.mp (hfree ns id mark hmark hkept)
    have hrestores : ∀ ns id mark, self.mark? ns id = some mark →
        ((self.spliceRecording sp).2.mark? ns id).isSome →
        ∃ mark', (self.undone sp).mark? ns id = some mark' ∧ mark'.position = mark.position ∧
          mark'.stop = mark.stop ∧ mark'.invalid = mark.invalid := by
      intro ns id mark hmark hstays
      have hkept := (h.isSome_applySplice hmark).mp hstays
      exact (h.restored_iff hmark hkept).mpr (hfree ns id mark hmark hkept)
    refine ⟨hrestores, fun ns id hstays => ?_, h.redo_undone hfree⟩
    cases hmark : self.mark? ns id with
    | none =>
      have hgone : (self.spliceRecording sp).2.mark? ns id = none := by
        show (self.applySplice sp).mark? ns id = none
        rw [h.mark?_applySplice, hmark]
        rfl
      rw [hgone] at hstays
      cases hstays
    | some mark =>
      obtain ⟨mark', hmark', -⟩ := hrestores ns id mark hmark hstays
      exact Option.isSome_iff_exists.mpr ⟨mark', hmark'⟩

/-- The store with one mark in a fresh namespace. -/
def oneMark (position : ExtmarkPosition) (gravity : ExtmarkGravity) (flags : ExtmarkFlags) :
    Extmarks :=
  (run [.createNamespace "ns",
    .setMark 1 none { position, stop := none, gravity, attributes := { flags } }]).1

theorem wellFormed_oneMark (position : ExtmarkPosition) (gravity : ExtmarkGravity)
    (flags : ExtmarkFlags) : (oneMark position gravity flags).WellFormed :=
  (consistent_of_reachable (reachable_run _)).1

/-- A mark with the default flags moves with the text and back. -/
theorem undo_splice_exact_iff_moved :
    UndoExact (oneMark ⟨2, 0⟩ .right 8) ⟨⟨1, 0⟩, ⟨1, 0⟩, ⟨3, 0⟩⟩ := by
  refine (undo_splice_exact_iff (wellFormed_oneMark _ _ _) _).mpr fun ns id mark hmark _ => ?_
  have hall : ∀ mark ∈ (oneMark ⟨2, 0⟩ .right 8).namespaces.toList.flatMap (·.2.marks),
      mark.position = ⟨2, 0⟩ ∧ mark.stop = none ∧
        mark.hasFlag ExtmarkFlags.INVALIDATE = false := by decide
  obtain ⟨state, hns, hid⟩ := Option.bind_eq_some_iff.mp hmark
  obtain ⟨hpos, hstop, hflag⟩ := hall mark (List.mem_flatMap.mpr ⟨(ns, state),
    Std.ExtTreeMap.mem_toList_iff_getElem?_eq_some.mpr hns, NamespaceState.mem_marks.mpr ⟨id, hid⟩⟩)
  have hfit : mark.Fits ⟨⟨1, 0⟩, ⟨1, 0⟩, ⟨3, 0⟩⟩ := by
    refine ⟨?_, fun stop h => ?_⟩
    · rw [hpos]
      constructor <;> decide
    · rw [hstop] at h
      cases h
  rintro (⟨-, hlost⟩ | ⟨hunfit, -⟩)
  · have hinv := hlost.1.2.2.1
    rw [hflag] at hinv
    cases hinv
  · exact hunfit hfit

/-- An insertion of a line in front of a mark with left gravity leaves it in place without a record;
undo then takes the mark for deleted with the line and hides it. -/
theorem undo_splice_hides : ¬∀ (self : Extmarks) (records : List ExtmarkSpliceUndo),
    Reachable (· = ({}, [])) Step (self, records) → ∀ sp, UndoExact self sp := by
  intro hall
  let sp := TextSplice.lineAnchored 0 0 1
  let mark : Extmark :=
    { namespaceId := 1, id := 1, invalid := false, renderOrder := 0
      placement := { position := ⟨0, 0⟩, stop := none, gravity := .left, attributes := ⟨12⟩ } }
  have hexact := hall (oneMark ⟨0, 0⟩ .left 12) _ (reachable_run _) sp
  have hmark : (oneMark ⟨0, 0⟩ .left 12).mark? 1 1 = some mark := by decide
  have hdisturbed : mark.DisturbedBy sp := .inr ⟨by decide, .inr (by decide)⟩
  exact (wellFormed_oneMark _ _ _ |>.restored_iff hmark (by decide)).mp
    (hexact.restores 1 1 mark hmark (by decide)) hdisturbed

end Extmarks

end Oxvim.Editor
