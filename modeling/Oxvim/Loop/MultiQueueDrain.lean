import Oxvim.Loop.MultiQueueSpec

/-!
# Draining and removing

A round of `drain` takes the first event its owner sees, out of every queue that holds it
(`Paired.take`). The rounds of one call take all the owner sees, in the order of the puts
(`Paired.processEvents`); what other owners see of the rest is untouched. Removal takes the owners
under one owner away, and with them what was put there (`Paired.removeOwner`).
-/

namespace Oxvim.Loop

open Lib EState
open Std (ExtTreeMap)

namespace Board

variable {κ : Type} {b : Board κ} {owner o : Owner} {p : Posting κ} {ps : List (Posting κ)}

/-- One event is taken. -/
def without (b : Board κ) (id : UInt64) : Board κ :=
  { b with pending := b.pending.filter fun p => p.eventId ≠ id }

/-- All an owner sees is taken. -/
noncomputable def drained (b : Board κ) (owner : Owner) : Board κ :=
  { b with pending := b.hidden owner }

theorem visible_without (id : UInt64) :
    (b.without id).visible o = (b.visible o).filter fun p => p.eventId ≠ id := by
  classical
  exact List.filter_comm _ _ _

theorem hidden_without (id : UInt64) :
    (b.without id).hidden o = (b.hidden o).filter fun p => p.eventId ≠ id := by
  classical
  exact List.filter_comm _ _ _

/-- Equal numbers are numbers of one event. -/
theorem eq_of_eventId (h : (b.pending.map (·.eventId)).Nodup) {p q : Posting κ} (hp : p ∈ b.pending)
    (hq : q ∈ b.pending) (hid : p.eventId = q.eventId) : p = q :=
  List.inj_on_of_nodup_map h hp hq hid

/-- After the first event an owner sees, it sees the others. -/
theorem visible_without_first (h : (b.pending.map (·.eventId)).Nodup)
    (hvisible : b.visible owner = p :: ps) : (b.without p.eventId).visible owner = ps := by
  have hsub : ((p :: ps).map (·.eventId)).Nodup := by
    rw [← hvisible]
    classical
    exact h.sublist (List.filter_sublist.map _)
  rw [visible_without, hvisible]
  rw [List.map_cons, List.nodup_cons] at hsub
  rw [List.filter_cons_of_neg (by simp), List.filter_eq_self]
  intro q hq
  rw [decide_eq_true_eq]
  intro hid
  apply hsub.1
  rw [← hid]
  exact List.mem_map_of_mem hq

/-- It never saw the events that are hidden from it. -/
theorem hidden_without_visible (h : (b.pending.map (·.eventId)).Nodup)
    (hp : p ∈ b.visible owner) : (b.without p.eventId).hidden owner = b.hidden owner := by
  rw [hidden_without, List.filter_eq_self]
  intro q hq
  obtain ⟨hpmem, hunder⟩ := mem_visible.mp hp
  obtain ⟨hqmem, hnot⟩ := mem_hidden.mp hq
  rw [decide_eq_true_eq]
  intro hid
  rw [eq_of_eventId h hqmem hpmem hid] at hnot
  exact hnot hunder

end Board

namespace MultiQueue

variable {κ : Type} {s : MultiQueue κ} {b : Board κ}

theorem popFront_cons {owner : Owner} {parent : Option Owner} {id : UInt64} {entries : List UInt64}
    (h : s.queues[owner]? = some ⟨parent, id :: entries⟩) :
    popFront owner s
      = .ok (some id) { s with queues := s.queues.insert owner ⟨parent, entries⟩ } := by
  simp only [popFront, bind_run, get_run, h]
  rfl

theorem popFront_nil {owner : Owner} {parent : Option Owner}
    (h : s.queues[owner]? = some ⟨parent, []⟩) : popFront owner s = .ok none s := by
  simp only [popFront, bind_run, get_run, h]
  rfl

/-- Erasing a list of keys. -/
theorem getElem?_foldl_erase {β : Type} (ids : List UInt64) (m : ExtTreeMap UInt64 β compare)
    (id : UInt64) : (ids.foldl (·.erase ·) m)[id]? = if id ∈ ids then none else m[id]? := by
  induction ids generalizing m with
  | nil => rfl
  | cons i ids ih =>
    rw [List.foldl_cons, ih, ExtTreeMap.getElem?_erase]
    grind [Std.compare_eq_iff_eq]

namespace Paired

/-- What `len` and `is_empty` report is what the owner sees. -/
theorem len_isEmpty (h : Paired s b) {owner : Owner} (ho : b.Known owner) :
    s.len owner = .ok (b.visible owner).length ∧
      s.isEmpty owner = .ok (b.visible owner).isEmpty := by
  obtain ⟨parent, hqueue⟩ := h.queue ho
  simp only [MultiQueue.len, MultiQueue.isEmpty, hqueue]
  simp

/-! ## process_events -/

/-- A round takes the first event the owner sees. -/
theorem take (h : Paired s b) {owner : Owner} {p : Posting κ} {ps : List (Posting κ)}
    (ho : b.Known owner) (hvisible : b.visible owner = p :: ps) (fuel : Nat)
    (drained : List (Event κ)) :
    ∃ s', drain owner (fuel + 1) drained s = drain owner fuel (drained ++ [p.event]) s' ∧
      Paired s' (b.without p.eventId) ∧ s'.nextOwner = s.nextOwner := by
  obtain ⟨parent, hqueue⟩ := h.queue ho
  rw [hvisible, List.map_cons] at hqueue
  obtain ⟨hpmem, hunder⟩ := Board.mem_visible.mp (hvisible ▸ List.mem_cons_self)
  obtain ⟨l, hl⟩ := h.lineage (h.known p hpmem)
  let s₁ : MultiQueue κ := { s with
    queues := s.queues.insert owner ⟨parent, ps.map (·.eventId)⟩
    origins := s.origins.erase p.eventId }
  have hget₁ : ∀ o, s₁.queues[o]? = s.queues[o]?.map fun q =>
      if o = owner then { q with entries := ps.map (·.eventId) } else q := by
    intro o
    show (s.queues.insert owner _)[o]? = _
    rw [ExtTreeMap.getElem?_insert]
    by_cases hoo : owner = o
    · subst hoo
      simp [hqueue]
    · simp [hoo, Ne.symm hoo]
  have htree₁ : s₁.parents = s.parents := parents_eq hget₁ (by intro o q; split <;> rfl)
  have hl₁ : Lineage s₁.parents p.origin l := htree₁ ▸ hl
  obtain ⟨queues, hrun, hqueues⟩ :=
    climb_run (released owner p.eventId) hl₁ (length_le_size hl₁)
  have horigin : s.origins[p.eventId]? = some p.origin := (h.origin _ _).mpr ⟨p, hpmem, rfl, rfl⟩
  have hevent : s.events[p.eventId]? = some p.event := (h.event _ _).mpr ⟨p, hpmem, rfl, rfl⟩
  refine ⟨{ s₁ with queues, events := s.events.erase p.eventId }, ?_, ?_, rfl⟩
  · rw [drain, bind_ok (popFront_cons hqueue)]
    dsimp only
    rw [bind_ok (get_run _)]
    simp only [horigin]
    rw [bind_ok (set_run _ _), bind_ok hrun, bind_ok (get_run _)]
    have hkept : ({ s₁ with queues } : MultiQueue κ).events[p.eventId]? = some p.event := hevent
    simp only [hkept]
    rfl
  have hmem : ∀ o, o ∈ l ↔ Under b.parents p.origin o := by
    intro o
    rw [hl.mem_iff, h.tree]
  have hwithout : ∀ q, q ∈ (b.without p.eventId).pending ↔ q ∈ b.pending ∧ q.eventId ≠ p.eventId := by
    intro q
    simp [Board.without]
  constructor
  case tree =>
    show MultiQueue.parents { s₁ with queues, events := _ } = b.parents
    rw [parents_eq (s := s₁) hqueues (by intro o q; split <;> rfl), htree₁, h.tree]
  case hierarchy => exact h.hierarchy
  case nextEvent => exact h.nextEvent
  case known =>
    intro q hq
    exact h.known q ((hwithout q).mp hq).1
  case nodup => exact h.nodup.sublist (List.filter_sublist.map _)
  case event =>
    intro id e
    show (s.events.erase p.eventId)[id]? = some e ↔ _
    rw [ExtTreeMap.getElem?_erase]
    have hold := h.event id e
    grind [Std.compare_eq_iff_eq]
  case origin =>
    intro id o
    show (s.origins.erase p.eventId)[id]? = some o ↔ _
    rw [ExtTreeMap.getElem?_erase]
    have hold := h.origin id o
    grind [Std.compare_eq_iff_eq]
  case entries =>
    intro o queue hq
    have hq' : queues[o]? = some queue := hq
    rw [hqueues, hget₁, Option.map_map] at hq'
    obtain ⟨q, hqs, rfl⟩ := Option.map_eq_some_iff.mp hq'
    have hold := h.entries o q hqs
    by_cases hoo : o = owner
    · -- the owner's own queue has let go of the event already
      subst hoo
      rw [Board.visible_without_first h.nodup hvisible]
      simp [released, (hmem o).mpr hunder]
    · rw [Board.visible_without]
      by_cases hol : o ∈ l
      · simp [released, hol, hoo, hold, List.filter_map, Function.comp_def]
      · -- the event was never in this queue
        have hkeep : (b.visible o).filter (fun q => q.eventId ≠ p.eventId) = b.visible o := by
          rw [List.filter_eq_self]
          intro q hqv
          obtain ⟨hqmem, hqunder⟩ := Board.mem_visible.mp hqv
          rw [decide_eq_true_eq]
          intro hid
          apply hol
          rw [hmem, ← Board.eq_of_eventId h.nodup hqmem hpmem hid]
          exact hqunder
        rw [hkeep]
        simp [hol, hoo, hold]

/-- The rounds of one call. -/
theorem drain (h : Paired s b) {owner : Owner} (ho : b.Known owner) (drained : List (Event κ)) :
    ∃ s', MultiQueue.drain owner ((b.visible owner).length + 1) drained s
        = .ok (drained ++ (b.visible owner).map (·.event)) s' ∧
      Paired s' (b.drained owner) ∧ s'.nextOwner = s.nextOwner := by
  generalize hps : b.visible owner = ps
  induction ps generalizing s b drained with
  | nil =>
    obtain ⟨parent, hqueue⟩ := h.queue ho
    rw [hps] at hqueue
    have hall : b.drained owner = b := by
      have hperm := b.visible_append_hidden owner
      rw [hps, List.nil_append] at hperm
      have hsub : (b.hidden owner).Sublist b.pending := by
        classical
        exact List.filter_sublist
      rw [Board.drained, hsub.eq_of_length hperm.length_eq]
    refine ⟨s, ?_, by rw [hall]; exact h, rfl⟩
    rw [List.length_nil, MultiQueue.drain, bind_ok (popFront_nil hqueue), List.map_nil,
      List.append_nil]
    rfl
  | cons p ps ih =>
    obtain ⟨s₁, hround, h₁, hnext⟩ := h.take ho hps (ps.length + 1) drained
    obtain ⟨s', hrest, h', hnext'⟩ := ih h₁ ho (drained ++ [p.event])
      (Board.visible_without_first h.nodup hps)
    refine ⟨s', ?_, ?_, hnext'.trans hnext⟩
    · rw [List.length_cons, hround, hrest, List.map_cons, List.append_assoc]
      rfl
    · have hhidden := Board.hidden_without_visible h.nodup (hps ▸ List.mem_cons_self)
      have hsame : (b.without p.eventId).drained owner = b.drained owner := by
        rw [Board.drained, hhidden]
        rfl
      exact hsame ▸ h'

/-- `process_events` returns all the owner sees, in the order of the puts. -/
theorem processEvents (h : Paired s b) {owner : Owner} (ho : b.Known owner) :
    ∃ s', MultiQueue.processEvents owner s = .ok ((b.visible owner).map (·.event)) s' ∧
      Paired s' (b.process owner) ∧ s'.nextOwner = s.nextOwner := by
  obtain ⟨parent, hqueue⟩ := h.queue ho
  obtain ⟨s', hrun, h', hnext⟩ := h.drain ho []
  refine ⟨s', ?_, ⟨h'.tree, h'.hierarchy, h'.nextEvent, h'.known, h'.nodup, h'.event, h'.origin,
    h'.entries⟩, hnext⟩
  rw [MultiQueue.processEvents, bind_ok (h.known_run ho), bind_ok (get_run s), hqueue]
  simpa using hrun

/-! ## remove_owner -/

theorem isDescendantOf (h : Paired s b) {candidate : Owner} (hc : b.Known candidate)
    (ancestor : Owner) : ∃ found, s.isDescendantOf candidate ancestor = some found ∧
      (found = true ↔ Under b.parents candidate ancestor) := by
  obtain ⟨l, hl⟩ := h.lineage hc
  refine ⟨_, descends_run hl (length_le_size hl), ?_⟩
  rw [decide_eq_true_iff, hl.mem_iff, h.tree]

/-- The owners that go. -/
theorem mem_removedOwners (h : Paired s b) (owner candidate : Owner) :
    candidate ∈ s.queues.keys.filter (fun c => s.isDescendantOf c owner = some true) ↔
      b.Known candidate ∧ Under b.parents candidate owner := by
  rw [List.mem_filter, ExtTreeMap.mem_keys, ← ExtTreeMap.contains_iff_mem, h.contains,
    decide_eq_true_iff]
  constructor
  · rintro ⟨hknown, hfound⟩
    obtain ⟨found, hrun, hiff⟩ := h.isDescendantOf hknown owner
    rw [hrun] at hfound
    exact ⟨hknown, hiff.mp (Option.some.inj hfound)⟩
  · rintro ⟨hknown, hunder⟩
    obtain ⟨found, hrun, hiff⟩ := h.isDescendantOf hknown owner
    rw [hrun, hiff.mpr hunder]
    exact ⟨hknown, rfl⟩

/-- The events that go: those the removed owner sees. -/
theorem mem_removedEvents (h : Paired s b) (owner : Owner) (id : UInt64) :
    id ∈ ((s.queues.keys.filter fun c => s.isDescendantOf c owner = some true).filterMap
        (s.queues[·]?)).flatMap (·.entries) ↔
      ∃ p ∈ b.visible owner, p.eventId = id := by
  rw [List.mem_flatMap]
  constructor
  · rintro ⟨queue, hqueue, hid⟩
    obtain ⟨o, ho, hget⟩ := List.mem_filterMap.mp hqueue
    obtain ⟨-, hunder⟩ := (h.mem_removedOwners owner o).mp ho
    rw [h.entries o queue hget] at hid
    obtain ⟨p, hp, rfl⟩ := List.mem_map.mp hid
    obtain ⟨hmem, hpo⟩ := Board.mem_visible.mp hp
    exact ⟨p, Board.mem_visible.mpr ⟨hmem, hpo.trans hunder⟩, rfl⟩
  · rintro ⟨p, hp, rfl⟩
    obtain ⟨hmem, hunder⟩ := Board.mem_visible.mp hp
    have hknown := h.hierarchy.present (h.known p hmem) hunder
    obtain ⟨parent, hqueue⟩ := h.queue hknown
    refine ⟨_, List.mem_filterMap.mpr ⟨owner, ?_, hqueue⟩, List.mem_map_of_mem hp⟩
    exact (h.mem_removedOwners owner owner).mpr ⟨hknown, .refl⟩

/-- Only pending events have numbers, so a number goes exactly with its event. -/
theorem eventId_removed (h : Paired s b) {owner : Owner} {p : Posting κ} (hp : p ∈ b.pending) :
    (∃ q ∈ b.visible owner, q.eventId = p.eventId) ↔ Under b.parents p.origin owner := by
  constructor
  · rintro ⟨q, hq, hid⟩
    obtain ⟨hmem, hunder⟩ := Board.mem_visible.mp hq
    rwa [Board.eq_of_eventId h.nodup hmem hp hid] at hunder
  · intro hunder
    exact ⟨p, Board.mem_visible.mpr ⟨hp, hunder⟩, rfl⟩

/-- A map of the pending events, once the numbers that go are erased from it. -/
theorem erased (h : Paired s b) {owner : Owner} {ids : List UInt64}
    (hids : ∀ id, id ∈ ids ↔ ∃ p ∈ b.visible owner, p.eventId = id) {β : Type}
    {m : ExtTreeMap UInt64 β compare} {value : Posting κ → β}
    (hm : ∀ id v, m[id]? = some v ↔ ∃ p ∈ b.pending, p.eventId = id ∧ value p = v) (id : UInt64)
    (v : β) : (ids.foldl (·.erase ·) m)[id]? = some v ↔
      ∃ p ∈ b.hidden owner, p.eventId = id ∧ value p = v := by
  rw [getElem?_foldl_erase]
  constructor
  · intro hsome
    split at hsome
    · cases hsome
    · next hkeep =>
      obtain ⟨p, hp, rfl, rfl⟩ := (hm id v).mp hsome
      rw [hids, h.eventId_removed hp] at hkeep
      exact ⟨p, Board.mem_hidden.mpr ⟨hp, hkeep⟩, rfl, rfl⟩
  · rintro ⟨p, hp, rfl, rfl⟩
    obtain ⟨hpmem, hnot⟩ := Board.mem_hidden.mp hp
    rw [if_neg (by rw [hids, h.eventId_removed hpmem]; exact hnot)]
    exact (hm _ _).mpr ⟨p, hpmem, rfl, rfl⟩

theorem removeOwner (h : Paired s b) {owner : Owner} (ho : b.Known owner) (hroot : owner ≠ s.root) :
    ∃ s', MultiQueue.removeOwner owner s = .ok () s' ∧ Paired s' (b.remove owner) ∧
      s'.nextOwner = s.nextOwner := by
  have hends : (s.queues.keys.any fun c => (s.isDescendantOf c owner).isNone) = false := by
    rw [List.any_eq_false]
    intro c hc
    rw [ExtTreeMap.mem_keys, ← ExtTreeMap.contains_iff_mem, h.contains] at hc
    obtain ⟨found, hrun, -⟩ := h.isDescendantOf hc owner
    simp [hrun]
  have howners := h.mem_removedOwners owner
  have hevents := h.mem_removedEvents owner
  unfold MultiQueue.removeOwner
  rw [bind_ok (get_run s), if_neg hroot, bind_ok (h.known_run ho), hends]
  simp only [Bool.false_eq_true, if_false, set_run]
  generalize (s.queues.keys.filter fun c => s.isDescendantOf c owner = some true) = removedOwners
    at howners hevents ⊢
  generalize (removedOwners.filterMap (s.queues[·]?)).flatMap (·.entries) = removedEvents
    at hevents ⊢
  refine ⟨_, rfl, ?_, rfl⟩
  have hget : ∀ o : Owner, ((s.queues.map fun _ queue =>
        { queue with entries := queue.entries.filter (· ∉ removedEvents) }).filter
        fun c _ => c ∉ removedOwners)[o]?
      = if o ∈ removedOwners then none else s.queues[o]?.map fun queue =>
          { queue with entries := queue.entries.filter (· ∉ removedEvents) } := by
    intro o
    rw [ExtTreeMap.getElem?_filter', ExtTreeMap.getElem?_map]
    cases s.queues[o]? with
    | none => simp
    | some queue => simp only [Option.map_some, Option.filter_some, decide_eq_true_eq, ite_not]
  have hknown : ∀ o, (b.parents o).isSome → (o ∈ removedOwners ↔ Under b.parents o owner) := by
    intro o hpresent
    rw [howners]
    exact and_iff_right hpresent
  have hparents : ∀ o, Under b.parents o owner → (b.remove owner).parents o = none := by
    intro o hunder
    exact if_pos hunder
  have hkept : ∀ o, ¬Under b.parents o owner → (b.remove owner).parents o = b.parents o := by
    intro o hnot
    exact if_neg hnot
  obtain ⟨hhierarchy, hsame⟩ := h.hierarchy.prune hroot hparents hkept
  have hmem : ∀ p, p ∈ (b.remove owner).pending ↔ p ∈ b.pending ∧ ¬Under b.parents p.origin owner :=
    fun p => Board.mem_hidden
  constructor
  case tree =>
    funext o
    rw [MultiQueue.parents, hget]
    by_cases hpresent : (b.parents o).isSome
    · by_cases hunder : Under b.parents o owner
      · rw [if_pos ((hknown o hpresent).mpr hunder), hparents o hunder, Option.map_none]
      · rw [if_neg fun hgone => hunder ((hknown o hpresent).mp hgone), hkept o hunder, ← h.tree,
          Option.map_map]
        rfl
    · have hnone := Option.not_isSome_iff_eq_none.mp hpresent
      have hnot : o ∉ removedOwners := fun hgone => hpresent ((howners o).mp hgone).1
      have hq : s.queues[o]? = none := by
        rw [← h.tree] at hnone
        exact Option.map_eq_none_iff.mp hnone
      rw [if_neg hnot, hq]
      show none = (b.remove owner).parents o
      by_cases hunder : Under b.parents o owner
      · rw [hparents o hunder]
      · rw [hkept o hunder, hnone]
  case hierarchy => exact hhierarchy
  case nextEvent => exact h.nextEvent
  case known =>
    intro p hp
    obtain ⟨hpmem, hnot⟩ := (hmem p).mp hp
    rw [Board.Known, hkept _ hnot]
    exact h.known p hpmem
  case nodup =>
    classical
    exact h.nodup.sublist (List.filter_sublist.map _)
  case event => exact h.erased hevents h.event
  case origin => exact h.erased hevents h.origin
  case entries =>
    intro o queue hq
    rw [hget] at hq
    split at hq
    · cases hq
    · obtain ⟨q, hqs, rfl⟩ := Option.map_eq_some_iff.mp hq
      show q.entries.filter _ = ((b.hidden owner).filter _).map _
      rw [h.entries o q hqs, List.filter_map]
      congr 1
      rw [Board.visible, Board.hidden, List.filter_filter, List.filter_filter]
      apply List.filter_congr
      intro p hp
      have hgone : p.eventId ∈ removedEvents ↔ Under b.parents p.origin owner := by
        rw [hevents, h.eventId_removed hp]
      by_cases hunder : Under b.parents p.origin owner
      · simp [hgone, hunder]
      · have hiff := hsame p.origin hunder (h.known p hp) o
        simp [hgone, hunder, hiff]

end Paired

end MultiQueue

end Oxvim.Loop
