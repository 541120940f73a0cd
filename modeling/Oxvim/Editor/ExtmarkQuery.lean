import Oxvim.Editor.ExtmarkIndex

/-!
# Runs of the extmark store

In every state that calls on a fresh store lead to, the index is the index of the marks and a query
is what the marks themselves say: those inside the bounds, by position and id, cut off at the limit
(`queryMarks`). A run carries the undo records that its splices have returned, so that any of them
may be undone or redone at any later point.
-/

namespace Oxvim.Editor

open Lib PositionIndex EState

/-! ## Queries -/

/-- Traversal order: by position, then by id. -/
def traversalLe (a b : Extmark) : Bool :=
  decide (a.position < b.position ∨ a.position = b.position ∧ a.id ≤ b.id)

/-- What a query means: all marks of the namespace with a start inside the bounds, in traversal
order, reversed when the bounds are, and no more than the limit. -/
def queryMarks (state : NamespaceState) (first last : ExtmarkPosition) (limit : Option Nat) :
    List Extmark :=
  let (lower, upper) := orderedBounds first last
  let hits := (state.marks.filter fun mark =>
    decide (lower ≤ mark.position ∧ mark.position ≤ upper)).mergeSort traversalLe
  let hits := if first ≤ last then hits else hits.reverse
  limit.elim hits hits.take

namespace Extmarks

theorem traversalLe_trans (a b c : Extmark) (hab : traversalLe a b = true)
    (hbc : traversalLe b c = true) : traversalLe a c = true := by
  simp only [traversalLe, decide_eq_true_eq] at *
  rcases hab with hab | ⟨hab, hid⟩ <;> rcases hbc with hbc | ⟨hbc, hid'⟩
  · exact .inl (hab.trans hbc)
  · exact .inl (hbc ▸ hab)
  · exact .inl (hab ▸ hbc)
  · exact .inr ⟨hab.trans hbc, UInt32.le_trans hid hid'⟩

theorem traversalLe_total (a b : Extmark) : (traversalLe a b || traversalLe b a) = true := by
  simp only [traversalLe, Bool.or_eq_true, decide_eq_true_eq]
  rcases lt_trichotomy a.position b.position with h | h | h
  · exact .inl (.inl h)
  · rcases UInt32.le_total a.id b.id with hid | hid
    · exact .inl (.inr ⟨h, hid⟩)
    · exact .inr (.inr ⟨h.symm, hid⟩)
  · exact .inr (.inl h)

theorem collect_none (state : NamespaceState) (ids : List ExtmarkId) :
    collect state none ids = ids.filterMap (state.byId[·]?) := by
  induction ids with
  | nil => rfl
  | cons id ids ih =>
    unfold collect
    rw [List.filterMap_cons]
    cases state.byId[id]? with
    | none => exact ih
    | some mark => simp [ih]

theorem collect_some (state : NamespaceState) {n : Nat} (hn : 0 < n) (ids : List ExtmarkId) :
    collect state (some n) ids = (ids.filterMap (state.byId[·]?)).take n := by
  induction ids generalizing n with
  | nil => simp [collect]
  | cons id ids ih =>
    unfold collect
    rw [List.filterMap_cons]
    cases state.byId[id]? with
    | none => exact ih hn
    | some mark =>
      obtain ⟨n, rfl⟩ : ∃ m, n = m + 1 := ⟨n - 1, by omega⟩
      cases n with
      | zero => simp
      | succ n => simp [ih]

/-- The index traversal looks up the marks inside the bounds in order. -/
theorem filterMap_entriesIn {ns : NamespaceId} {state : NamespaceState} (h : state.WellFormed ns)
    (lower upper : ExtmarkPosition) :
    ((state.byPosition.entriesIn lower upper).map (·.2)).filterMap (state.byId[·]?)
      = (state.marks.filter fun mark =>
        decide (lower ≤ mark.position ∧ mark.position ≤ upper)).mergeSort traversalLe := by
  have hentry : ∀ (k : ExtmarkPosition) (i : ExtmarkId),
      (k, i) ∈ state.byPosition.entriesIn lower upper ↔
        (∃ mark : Extmark, state.byId[i]? = some mark ∧ mark.position = k) ∧ lower ≤ k ∧ k ≤ upper := by
    intro k i
    rw [mem_entriesIn, h.indexes.holds, NamespaceState.starts, Option.map_eq_some_iff]
  have hmem : ∀ mark, mark ∈ ((state.byPosition.entriesIn lower upper).map (·.2)).filterMap
      (state.byId[·]?) ↔ mark ∈ state.marks.filter fun mark =>
        decide (lower ≤ mark.position ∧ mark.position ≤ upper) := by
    intro mark
    rw [List.mem_filter, h.mem_marks, decide_eq_true_eq, List.mem_filterMap]
    constructor
    · rintro ⟨i, hi, hmark⟩
      obtain ⟨⟨k, i'⟩, hki, rfl⟩ := List.mem_map.mp hi
      obtain ⟨⟨mark', hmark', rfl⟩, hbounds⟩ := (hentry _ _).mp hki
      rw [hmark] at hmark'
      cases hmark'
      rw [(h.keyed _ _ hmark).1]
      exact ⟨hmark, hbounds⟩
    · rintro ⟨hmark, hbounds⟩
      exact ⟨mark.id, List.mem_map.mpr ⟨(mark.position, mark.id),
        (hentry _ _).mpr ⟨⟨mark, hmark, rfl⟩, hbounds⟩, rfl⟩, hmark⟩
  -- the traversal order is strict, so the marks are the sorted ones
  have hsorted : (((state.byPosition.entriesIn lower upper).map (·.2)).filterMap
      (state.byId[·]?)).Pairwise fun a b => a.id ≠ b.id ∧ traversalLe a b = true := by
    rw [List.pairwise_filterMap, List.pairwise_map]
    have hpair := state.byPosition.pairwise_entriesIn lower upper
    refine (List.pairwise_iff_forall_sublist.mpr fun {p q} hsub => ?_)
    have hbefore := List.pairwise_iff_forall_sublist.mp hpair hsub
    have hp : p ∈ state.byPosition.entriesIn lower upper := hsub.subset (by simp)
    have hq : q ∈ state.byPosition.entriesIn lower upper := hsub.subset (by simp)
    intro a ha b hb
    obtain ⟨⟨a', ha', hpa⟩, -⟩ := (hentry p.1 p.2).mp hp
    obtain ⟨⟨b', hb', hqb⟩, -⟩ := (hentry q.1 q.2).mp hq
    rw [ha] at ha'
    rw [hb] at hb'
    cases ha'
    cases hb'
    have hida := (h.keyed _ _ ha).1
    have hidb := (h.keyed _ _ hb).1
    rcases hbefore with hlt | ⟨heq, hlt⟩
    · rw [← hpa, ← hqb] at hlt
      refine ⟨fun hid => ?_, by simp [traversalLe, hlt]⟩
      have : a = b := by
        rw [← hida, hid, hidb, hb] at ha
        exact (Option.some.inj ha).symm
      rw [this] at hlt
      exact lt_irrefl _ hlt
    · rw [← hpa, ← hqb] at heq
      have hlt : a.id < b.id := by
        rw [hida, hidb]
        exact compareOfLessAndEq_eq_lt.mp hlt
      exact ⟨UInt32.ne_of_lt hlt, by simp [traversalLe, heq, UInt32.le_of_lt hlt]⟩
  have hnodup : (((state.byPosition.entriesIn lower upper).map (·.2)).filterMap
      (state.byId[·]?)).Nodup :=
    hsorted.imp fun hab heq => hab.1 (congrArg Extmark.id heq)
  have hnodup' : (state.marks.filter fun mark =>
      decide (lower ≤ mark.position ∧ mark.position ≤ upper)).Nodup :=
    (List.Nodup.of_map _ h.nodup_ids).filter _
  refine List.Perm.eq_of_pairwise ?_
    (hsorted.imp And.right) (List.pairwise_mergeSort traversalLe_trans traversalLe_total _)
    (((List.perm_ext_iff_of_nodup hnodup hnodup').mpr hmem).trans (List.mergeSort_perm _ _).symm)
  intro a b ha hb hab hba
  have ha := h.mem_marks.mp (List.mem_of_mem_filter ((hmem a).mp ha))
  have hb := h.mem_marks.mp (List.mem_of_mem_filter (List.mem_mergeSort.mp hb))
  simp only [traversalLe, decide_eq_true_eq] at hab hba
  have hid : a.id = b.id := by
    rcases hab with hab | ⟨hpos, hab⟩
    · rcases hba with hba | ⟨hpos, -⟩
      · exact absurd (hab.trans hba) (lt_irrefl _)
      · exact absurd (hpos ▸ hab) (lt_irrefl _)
    · rcases hba with hba | ⟨-, hba⟩
      · exact absurd (hpos ▸ hba) (lt_irrefl _)
      · exact UInt32.le_antisymm hab hba
  rw [hid, hb] at ha
  exact (Option.some.inj ha).symm

/-- A query of a well-formed namespace is what its marks say. -/
theorem query_eq {self : Extmarks} (h : self.WellFormed) {ns : NamespaceId}
    {state : NamespaceState} (hns : self.namespaces[ns]? = some state)
    (first last : ExtmarkPosition) (limit : Option Nat) :
    self.query ns first last limit = .ok (queryMarks state first last limit) := by
  have hwf := h ns state hns
  have hstate : self.namespaceState ns = .ok state := by rw [namespaceState_eq, hns]
  unfold query queryMarks
  rw [hstate]
  show (if limit = some 0 then _ else _ : Except ExtmarkError (List Extmark)) = _
  by_cases hzero : limit = some 0
  · rw [if_pos hzero, hzero]
    simp only [Option.elim_some, List.take_zero]
    rfl
  · rw [if_neg hzero]
    have hentries := filterMap_entriesIn hwf (orderedBounds first last).1 (orderedBounds first last).2
    refine congrArg Except.ok ?_
    have hids : ∀ {idx : List (ExtmarkPosition × ExtmarkId)} {hits : List Extmark},
        (idx.map (·.2)).filterMap (state.byId[·]?) = hits →
        ((if first ≤ last then idx else idx.reverse).map (·.2)).filterMap (state.byId[·]?)
          = if first ≤ last then hits else hits.reverse := by
      intro idx hits hidx
      split
      · exact hidx
      · rw [List.map_reverse, List.filterMap_reverse, hidx]
    cases limit with
    | none => exact (collect_none state _).trans (hids hentries)
    | some n =>
      have hn : 0 < n := Nat.pos_of_ne_zero fun h0 => hzero (by rw [h0])
      exact (collect_some state hn _).trans (congrArg (List.take n) (hids hentries))

/-! ## Runs -/

/-- The records of a splice have their endpoints in order. -/
theorem spliceRecording_ordered {self : Extmarks} (h : self.WellFormed) (sp : TextSplice) :
    ∀ entry ∈ (self.spliceRecording sp).1.2.entries, OrderedEntry entry := by
  intro entry he
  simp only [spliceRecording, List.mem_flatMap, List.mem_map, Prod.exists] at he
  obtain ⟨state, ⟨ns, state', hmem, rfl⟩, he⟩ := he
  have hwf := h ns state' (Std.ExtTreeMap.mem_toList_iff_getElem?_eq_some.mp hmem)
  obtain ⟨mark, hmark, hentry⟩ := List.mem_filterMap.mp he
  have hord := hwf.ordered mark.id mark (hwf.mem_kept.mp hmark).1
  unfold Extmark.undoEntry at hentry
  simp only at hentry
  split at hentry
  · cases hentry
    exact ⟨hord, NamespaceState.ordered_spliced mark sp⟩
  · cases hentry

/-- The operations of the store; `undoSplice` and `redoSplice` name one of the records that the
splices of the run have returned. -/
inductive Op where
  | createNamespace (name : String)
  | ensureNamespace (ns : NamespaceId)
  | setMark (ns : NamespaceId) (requestedId : Option ExtmarkId) (placement : ExtmarkPlacement)
  | update (ns : NamespaceId) (id : ExtmarkId) (placement : ExtmarkPlacement)
  | delete (ns : NamespaceId) (id : ExtmarkId)
  | clear (ns : NamespaceId) (first last : ExtmarkPosition)
  | spliceRecording (splice : TextSplice)
  | undoSplice (record : Nat)
  | redoSplice (record : Nat)
  | invalidateForUnload

/-- The store and the records after an operation, whether it returned an error or not. -/
def Op.apply : Op → Extmarks × List ExtmarkSpliceUndo → Extmarks × List ExtmarkSpliceUndo
  | .createNamespace name, (self, records) =>
    (final (Extmarks.createNamespace name self), records)
  | .ensureNamespace ns, (self, records) => (self.ensureNamespace ns, records)
  | .setMark ns requestedId placement, (self, records) =>
    (final (Extmarks.setMark ns requestedId placement self), records)
  | .update ns id placement, (self, records) =>
    (final (Extmarks.update ns id placement self), records)
  | .delete ns id, (self, records) => (final (Extmarks.delete ns id self), records)
  | .clear ns first last, (self, records) => (final (Extmarks.clear ns first last self), records)
  | .spliceRecording splice, (self, records) =>
    ((self.spliceRecording splice).2, records ++ [(self.spliceRecording splice).1.2])
  | .undoSplice record, (self, records) =>
    (records[record]?.elim self self.undoSplice, records)
  | .redoSplice record, (self, records) =>
    (records[record]?.elim self self.redoSplice, records)
  | .invalidateForUnload, (self, records) => (self.invalidateForUnload, records)

/-- One operation. -/
def Step (s t : Extmarks × List ExtmarkSpliceUndo) : Prop := ∃ op : Op, t = op.apply s

/-- The store is well formed and all records are in order. -/
def Consistent (s : Extmarks × List ExtmarkSpliceUndo) : Prop :=
  s.1.WellFormed ∧ ∀ record ∈ s.2, ∀ entry ∈ record.entries, OrderedEntry entry

/-- Every operation keeps the store consistent. -/
theorem Consistent.apply {s : Extmarks × List ExtmarkSpliceUndo} (h : Consistent s) (op : Op) :
    Consistent (op.apply s) := by
  obtain ⟨self, records⟩ := s
  obtain ⟨hwf, hrecords⟩ := h
  have hrecord : ∀ (record : Nat) (undo : ExtmarkSpliceUndo), records[record]? = some undo →
      ∀ entry ∈ undo.entries, OrderedEntry entry := fun record undo hundo =>
    hrecords undo (List.mem_of_getElem? hundo)
  cases op with
  | createNamespace name => exact ⟨hwf.createNamespace name, hrecords⟩
  | ensureNamespace ns => exact ⟨hwf.ensureNamespace ns, hrecords⟩
  | setMark ns requestedId placement => exact ⟨hwf.setMark ns requestedId placement, hrecords⟩
  | update ns id placement => exact ⟨hwf.update ns id placement, hrecords⟩
  | delete ns id => exact ⟨hwf.delete ns id, hrecords⟩
  | clear ns first last => exact ⟨hwf.clear ns first last, hrecords⟩
  | spliceRecording splice =>
    refine ⟨hwf.applySplice splice, fun record hr => ?_⟩
    rcases List.mem_append.mp hr with hr | hr
    · exact hrecords record hr
    · rw [List.mem_singleton.mp hr]
      exact spliceRecording_ordered hwf splice
  | undoSplice record =>
    refine ⟨?_, hrecords⟩
    show (records[record]?.elim self self.undoSplice).WellFormed
    cases hundo : records[record]? with
    | none => exact hwf
    | some undo => exact hwf.undoSplice (hrecord record undo hundo)
  | redoSplice record =>
    refine ⟨?_, hrecords⟩
    show (records[record]?.elim self self.redoSplice).WellFormed
    cases hundo : records[record]? with
    | none => exact hwf
    | some undo => exact hwf.redoSplice (hrecord record undo hundo)
  | invalidateForUnload => exact ⟨hwf.invalidateForUnload, hrecords⟩

theorem consistent_of_reachable {s : Extmarks × List ExtmarkSpliceUndo}
    (h : Reachable (· = ({}, [])) Step s) : Consistent s :=
  h.invariant (fun _ hs => hs ▸ ⟨wellFormed_empty, by simp⟩)
    fun _ _ hs ⟨op, heq⟩ => heq ▸ hs.apply op

/-- The operations carried out on a fresh store. -/
def run (ops : List Op) : Extmarks × List ExtmarkSpliceUndo :=
  ops.foldl (fun s op => op.apply s) ({}, [])

theorem reachable_run (ops : List Op) : Reachable (· = ({}, [])) Step (run ops) :=
  Reachable.foldl (fun _ op => ⟨op, rfl⟩) ops (.init rfl)

/-- **The position index is exact.** After every run, in every namespace: `by_position` has exactly
the starts of the marks and no empty set, no range ends before it starts, and every query is what
the marks themselves say. -/
theorem position_index_exact {self : Extmarks} {records : List ExtmarkSpliceUndo}
    (h : Reachable (· = ({}, [])) Step (self, records)) {ns : NamespaceId} {state : NamespaceState}
    (hns : self.namespaces[ns]? = some state) :
    (∀ (position : ExtmarkPosition) (id : ExtmarkId),
      (∃ ids : Std.ExtTreeSet ExtmarkId, state.byPosition[position]? = some ids ∧ id ∈ ids) ↔
        ∃ mark : Extmark, state.byId[id]? = some mark ∧ mark.position = position) ∧
      (∀ (position : ExtmarkPosition) (ids : Std.ExtTreeSet ExtmarkId),
        state.byPosition[position]? = some ids → ids.isEmpty = false) ∧
      (∀ (id : ExtmarkId) (mark : Extmark) (stop : ExtmarkPosition),
        state.byId[id]? = some mark → mark.stop = some stop → mark.position ≤ stop) ∧
      ∀ first last limit,
        self.query ns first last limit = .ok (queryMarks state first last limit) := by
  have hwf := (consistent_of_reachable h).1
  have hstate := hwf ns state hns
  refine ⟨fun position id => ?_, hstate.indexes.nonempty, fun id mark stop hid => hstate.ordered id mark hid stop,
    query_eq hwf hns⟩
  have := hstate.indexes.holds position id
  rwa [NamespaceState.starts, Option.map_eq_some_iff] at this

/-- Two marks of namespace one, read back in reverse after a splice moved the second. -/
theorem position_index_exact_reverse :
    ∃ self : Extmarks, ∃ state : NamespaceState, self.namespaces[(1 : NamespaceId)]? = some state ∧
      self.query 1 ⟨9, 0⟩ ⟨0, 0⟩ none = .ok (queryMarks state ⟨9, 0⟩ ⟨0, 0⟩ none) := by
  let placement : ExtmarkPosition → ExtmarkPlacement := fun position =>
    { position, stop := none, gravity := .right, attributes := {} }
  have hrun := reachable_run [.createNamespace "ns", .setMark 1 none (placement ⟨0, 0⟩),
    .setMark 1 none (placement ⟨2, 0⟩), .spliceRecording ⟨⟨1, 0⟩, ⟨0, 0⟩, ⟨3, 0⟩⟩]
  obtain ⟨state, hstate⟩ := Option.isSome_iff_exists.mp
    (show ((run [.createNamespace "ns", .setMark 1 none (placement ⟨0, 0⟩),
      .setMark 1 none (placement ⟨2, 0⟩), .spliceRecording ⟨⟨1, 0⟩, ⟨0, 0⟩, ⟨3, 0⟩⟩]).1.namespaces[
      (1 : NamespaceId)]?).isSome = true by decide)
  exact ⟨_, state, hstate, (position_index_exact hrun hstate).2.2.2 _ _ _⟩

end Extmarks

end Oxvim.Editor
