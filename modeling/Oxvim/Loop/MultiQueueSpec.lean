import Oxvim.Lib.Ancestry
import Oxvim.Loop.MultiQueue

/-!
# What the queues hold

The purpose of a `MultiQueue` is to deliver each event once and in order. A `Board` says it without
ids and without copies: the tree of owners, the events put so far in order, and which of them are
pending, delivered or dropped with their origin. An owner sees the pending events that were put into
its own queue or below it.

`Paired` ties the queues to a board: the queue of an owner holds exactly the numbers of the events
that owner sees, and the two maps hold exactly the pending events. Each operation has one lemma here
that runs it and keeps `Paired`.
-/

namespace Oxvim.Loop

open Lib EState
open Std (ExtTreeMap)

/-! ## The board -/

/-- An event that was put: the how-manieth, and into which queue. -/
structure Posting (κ : Type) where
  serial : Nat
  origin : Owner
  event : Event κ

/-- The number the queues know a posting by. -/
def Posting.eventId {κ : Type} (p : Posting κ) : UInt64 :=
  UInt64.ofNat p.serial

structure Board (κ : Type) where
  parents : Owner → Option (Option Owner)
  count : Nat
  pending : List (Posting κ)
  /-- What was delivered, with the owner whose queue was drained. -/
  delivered : List (Posting κ × Owner)
  dropped : List (Posting κ)

namespace Board

variable {κ : Type}

def Known (b : Board κ) (owner : Owner) : Prop :=
  (b.parents owner).isSome

instance (b : Board κ) (owner : Owner) : Decidable (b.Known owner) :=
  inferInstanceAs (Decidable (_ = true))

open Classical in
/-- The pending events an owner sees. -/
noncomputable def visible (b : Board κ) (owner : Owner) : List (Posting κ) :=
  b.pending.filter fun p => Under b.parents p.origin owner

open Classical in
/-- The pending events an owner does not see. -/
noncomputable def hidden (b : Board κ) (owner : Owner) : List (Posting κ) :=
  b.pending.filter fun p => ¬Under b.parents p.origin owner

def child (b : Board κ) (parent owner : Owner) : Board κ :=
  { b with parents := Function.update b.parents owner (some (some parent)) }

def put (b : Board κ) (owner : Owner) (event : Event κ) : Board κ :=
  { b with count := b.count + 1, pending := b.pending ++ [⟨b.count, owner, event⟩] }

/-- An owner takes all it sees. -/
noncomputable def process (b : Board κ) (owner : Owner) : Board κ :=
  { b with
    pending := b.hidden owner
    delivered := b.delivered ++ (b.visible owner).map (·, owner) }

open Classical in
/-- An owner goes, with all that lies under it. -/
noncomputable def remove (b : Board κ) (owner : Owner) : Board κ :=
  { b with
    parents := fun o => if Under b.parents o owner then none else b.parents o
    pending := b.hidden owner
    dropped := b.dropped ++ b.visible owner }

theorem mem_visible {b : Board κ} {owner : Owner} {p : Posting κ} :
    p ∈ b.visible owner ↔ p ∈ b.pending ∧ Under b.parents p.origin owner := by
  simp [visible]

theorem mem_hidden {b : Board κ} {owner : Owner} {p : Posting κ} :
    p ∈ b.hidden owner ↔ p ∈ b.pending ∧ ¬Under b.parents p.origin owner := by
  simp [hidden]

/-- What an owner sees and what it does not see are all there is. -/
theorem visible_append_hidden (b : Board κ) (owner : Owner) :
    (b.visible owner ++ b.hidden owner).Perm b.pending := by
  classical
  simpa only [visible, hidden, decide_not] using
    List.filter_append_perm (fun p => decide (Under b.parents p.origin owner)) b.pending

/-- An event is seen by the owner it was put into and by those above it. -/
theorem visible_put_of_under {b : Board κ} {owner o : Owner} {event : Event κ}
    (h : Under b.parents owner o) :
    (b.put owner event).visible o = b.visible o ++ [⟨b.count, owner, event⟩] := by
  classical
  show (b.pending ++ [_]).filter _ = _
  rw [List.filter_append]
  congr 1
  exact List.filter_cons_of_pos (decide_eq_true h)

theorem visible_put_of_not_under {b : Board κ} {owner o : Owner} {event : Event κ}
    (h : ¬Under b.parents owner o) : (b.put owner event).visible o = b.visible o := by
  classical
  have hnone : [(⟨b.count, owner, event⟩ : Posting κ)].filter
      (fun p => Under b.parents p.origin o) = [] :=
    List.filter_cons_of_neg fun hc => h (of_decide_eq_true hc)
  show (b.pending ++ [_]).filter _ = _
  rw [List.filter_append]
  exact (congrArg (b.visible o ++ ·) hnone).trans (List.append_nil _)

end Board

/-! ## The queues and the board -/

namespace MultiQueue

variable {κ : Type} {s : MultiQueue κ} {b : Board κ}

def parents (s : MultiQueue κ) (owner : Owner) : Option (Option Owner) :=
  s.queues[owner]?.map (·.parent)

/-- The queues hold what the board says. -/
structure Paired (s : MultiQueue κ) (b : Board κ) : Prop where
  tree : s.parents = b.parents
  hierarchy : Hierarchy b.parents s.root
  nextEvent : s.nextEvent = UInt64.ofNat b.count
  known : ∀ p ∈ b.pending, b.Known p.origin
  nodup : (b.pending.map (·.eventId)).Nodup
  event : ∀ id e, s.events[id]? = some e ↔ ∃ p ∈ b.pending, p.eventId = id ∧ p.event = e
  origin : ∀ id o, s.origins[id]? = some o ↔ ∃ p ∈ b.pending, p.eventId = id ∧ p.origin = o
  entries : ∀ owner queue, s.queues[owner]? = some queue →
    queue.entries = (b.visible owner).map (·.eventId)

namespace Paired

theorem contains (h : Paired s b) (owner : Owner) : s.queues.contains owner ↔ b.Known owner := by
  rw [Board.Known, ← h.tree, parents, ExtTreeMap.contains_eq_isSome_getElem?, Option.isSome_map]

theorem known_run (h : Paired s b) {owner : Owner} (ho : b.Known owner) :
    MultiQueue.known owner s = .ok () s := by
  rw [MultiQueue.known, bind_ok (get_run s), if_pos ((h.contains owner).mpr ho)]
  rfl

theorem known_error (h : Paired s b) {owner : Owner} (ho : ¬b.Known owner) :
    MultiQueue.known owner s = .error (.error (.unknownOwner owner)) s := by
  rw [MultiQueue.known, bind_ok (get_run s), if_neg fun hc => ho ((h.contains owner).mp hc)]
  rfl

/-- The queue of a known owner. -/
theorem queue (h : Paired s b) {owner : Owner} (ho : b.Known owner) :
    ∃ parent, s.queues[owner]? = some ⟨parent, (b.visible owner).map (·.eventId)⟩ := by
  rw [Board.Known, ← h.tree, parents, Option.isSome_map] at ho
  obtain ⟨⟨parent, entries⟩, hq⟩ := Option.isSome_iff_exists.mp ho
  obtain rfl := h.entries owner _ hq
  exact ⟨parent, hq⟩

theorem lineage (h : Paired s b) {owner : Owner} (ho : b.Known owner) :
    ∃ l, Lineage s.parents owner l := by
  obtain ⟨l, hl, -⟩ := h.hierarchy.lineage owner ho
  exact ⟨l, h.tree ▸ hl⟩

end Paired

/-- A lineage is no longer than there are queues. -/
theorem length_le_size {owner : Owner} {l : List Owner} (hl : Lineage s.parents owner l) :
    l.length ≤ s.queues.size := by
  rw [← ExtTreeMap.length_keys]
  apply hl.length_le
  intro o ho
  rw [parents, Option.isSome_map] at ho
  exact ExtTreeMap.mem_keys.mpr (ExtTreeMap.mem_iff_isSome_getElem?.mpr ho)

/-- Queues whose entries alone have changed form the same tree. -/
theorem parents_eq {s' : MultiQueue κ} {edit : Owner → Queue → Queue}
    (hqueues : ∀ o, s'.queues[o]? = s.queues[o]?.map (edit o))
    (hedit : ∀ o q, (edit o q).parent = q.parent) : s'.parents = s.parents := by
  funext o
  rw [parents, parents, hqueues, Option.map_map]
  congr 1
  funext q
  exact hedit o q

/-! ## Walking up -/

/-- A walk along a lineage edits the queues on it and no others. -/
theorem climb_run (edit : Owner → List UInt64 → List UInt64) {fuel : Nat} {owner : Owner}
    {l : List Owner} (hl : Lineage s.parents owner l) (hfuel : l.length ≤ fuel) :
    ∃ queues, climb edit fuel (some owner) s = .ok () { s with queues } ∧
      ∀ o, queues[o]? = s.queues[o]?.map fun q =>
        if o ∈ l then { q with entries := edit o q.entries } else q := by
  -- the walk changes entries only, so the lineage stays that of the state it has reached
  generalize hp : s.parents = parents at hl
  induction hl generalizing s fuel with
  | @top a ha =>
    obtain ⟨fuel, rfl⟩ : ∃ n, fuel = n + 1 := ⟨fuel - 1, by simp at hfuel; omega⟩
    subst hp
    obtain ⟨⟨parent, entries⟩, hq, rfl⟩ := Option.map_eq_some_iff.mp ha
    refine ⟨s.queues.insert a ⟨none, edit a entries⟩, ?_, ?_⟩
    · simp only [climb, bind_run, get_run, hq, set_run]
      cases fuel <;> rfl
    · intro o
      rw [ExtTreeMap.getElem?_insert]
      by_cases hoa : o = a
      · subst hoa
        simp [hq]
      · simp [hoa, Ne.symm hoa]
  | @link a p l ha hl ih =>
    obtain ⟨fuel, rfl⟩ : ∃ n, fuel = n + 1 := ⟨fuel - 1, by simp at hfuel; omega⟩
    have hnodup := (Lineage.link ha hl).nodup
    subst hp
    obtain ⟨⟨parent, entries⟩, hq, rfl⟩ := Option.map_eq_some_iff.mp ha
    let s' : MultiQueue κ := { s with queues := s.queues.insert a ⟨some p, edit a entries⟩ }
    have hparents : s'.parents = s.parents := by
      funext o
      show (s.queues.insert a _)[o]?.map _ = s.queues[o]?.map _
      rw [ExtTreeMap.getElem?_insert]
      by_cases hoa : a = o
      · subst hoa
        simp [hq]
      · simp [hoa]
    obtain ⟨queues, hrun, hqueues⟩ := ih (s := s') (by simpa using hfuel) hparents
    refine ⟨queues, ?_, ?_⟩
    · simp only [climb, bind_run, get_run, hq, set_run]
      exact hrun
    · intro o
      rw [hqueues]
      show Option.map _ (s.queues.insert a _)[o]? = _
      rw [ExtTreeMap.getElem?_insert]
      by_cases hoa : a = o
      · subst hoa
        simp [hq, (List.nodup_cons.mp hnodup).1]
      · simp [hoa, Ne.symm hoa]

/-- The way up from a known owner meets exactly the owners it lies under. -/
theorem descends_run {fuel : Nat} {candidate ancestor : Owner} {l : List Owner}
    (hl : Lineage s.parents candidate l) (hfuel : l.length ≤ fuel) :
    s.descends ancestor fuel candidate = some (decide (ancestor ∈ l)) := by
  induction hl generalizing fuel with
  | @top a ha =>
    obtain ⟨fuel, rfl⟩ : ∃ n, fuel = n + 1 := ⟨fuel - 1, by simp at hfuel; omega⟩
    obtain ⟨⟨parent, entries⟩, hq, rfl⟩ := Option.map_eq_some_iff.mp ha
    rw [descends, hq]
    grind
  | @link a p l ha hl ih =>
    obtain ⟨fuel, rfl⟩ : ∃ n, fuel = n + 1 := ⟨fuel - 1, by simp at hfuel; omega⟩
    obtain ⟨⟨parent, entries⟩, hq, rfl⟩ := Option.map_eq_some_iff.mp ha
    rw [descends, hq]
    have hih : s.descends ancestor fuel p = _ := ih (by simpa using hfuel)
    grind

namespace Paired

/-! ## child and put -/

/-- An event number none of the pending events has. -/
theorem eventId_ne (h : Paired s b) (hfree : s.nextEvent ∉ s.origins) :
    ∀ p ∈ b.pending, p.eventId ≠ s.nextEvent := by
  intro p hp hid
  apply hfree
  rw [ExtTreeMap.mem_iff_isSome_getElem?, (h.origin _ _).mpr ⟨p, hp, hid, rfl⟩]
  rfl

theorem child (h : Paired s b) {parent : Owner} (hp : b.Known parent)
    (hfree : s.nextOwner ∉ s.queues) :
    ∃ s', MultiQueue.child parent s = .ok s.nextOwner s' ∧
      Paired s' (b.child parent s.nextOwner) ∧ s'.nextOwner = s.nextOwner + 1 := by
  have hnone : s.queues[s.nextOwner]? = none := by
    rw [← Option.not_isSome_iff_eq_none, ← ExtTreeMap.mem_iff_isSome_getElem?]
    exact hfree
  have hnew : b.parents s.nextOwner = none := by
    rw [← h.tree, MultiQueue.parents, hnone, Option.map_none]
  refine ⟨{ s with
    nextOwner := s.nextOwner + 1
    queues := s.queues.insert s.nextOwner ⟨some parent, []⟩ }, ?_, ?_, rfl⟩
  · rw [MultiQueue.child, bind_ok (h.known_run hp), bind_ok (get_run s), bind_ok (set_run _ _)]
    rfl
  have hvisible : ∀ o, (b.child parent s.nextOwner).visible o = b.visible o := by
    intro o
    apply List.filter_congr
    intro p hp
    have hiff := h.hierarchy.under_insert hnew (b := parent) (d := o) (h.known p hp)
    exact decide_eq_decide.mpr hiff
  constructor
  case tree =>
    funext o
    show (s.queues.insert s.nextOwner _)[o]?.map _ = Function.update b.parents _ _ o
    rw [ExtTreeMap.getElem?_insert, ← h.tree]
    by_cases ho : s.nextOwner = o
    · subst ho
      simp
    · simp [ho, Function.update_of_ne (Ne.symm ho), MultiQueue.parents]
  case hierarchy => exact h.hierarchy.insert hnew hp
  case nextEvent => exact h.nextEvent
  case known =>
    intro p hp
    show (Function.update b.parents _ _ p.origin).isSome
    by_cases hpo : p.origin = s.nextOwner
    · simp [hpo]
    · rw [Function.update_of_ne hpo]
      exact h.known p hp
  case nodup => exact h.nodup
  case event => exact h.event
  case origin => exact h.origin
  case entries =>
    intro o queue hq
    rw [hvisible]
    rw [ExtTreeMap.getElem?_insert] at hq
    split at hq
    · next ho =>
      cases hq
      rw [Std.compare_eq_iff_eq] at ho
      -- nothing pending lies under a number that is no owner yet
      have hnone : b.visible o = [] := by
        rw [List.eq_nil_iff_forall_not_mem]
        intro p hp
        obtain ⟨hmem, hunder⟩ := Board.mem_visible.mp hp
        have hpresent := h.hierarchy.present (h.known p hmem) hunder
        rw [← ho, hnew] at hpresent
        cases hpresent
      rw [hnone]
      rfl
    · exact h.entries o queue hq

theorem put (h : Paired s b) {owner : Owner} (event : Event κ) (ho : b.Known owner)
    (hfree : s.nextEvent ∉ s.origins) :
    ∃ s', MultiQueue.put owner event s = .ok () s' ∧ Paired s' (b.put owner event) ∧
      s'.nextOwner = s.nextOwner := by
  obtain ⟨l, hl⟩ := h.lineage ho
  let s₁ : MultiQueue κ := { s with
    nextEvent := s.nextEvent + 1
    events := s.events.insert s.nextEvent event
    origins := s.origins.insert s.nextEvent owner }
  have hl₁ : Lineage s₁.parents owner l := hl
  obtain ⟨queues, hrun, hqueues⟩ := climb_run (fun _ entries => entries ++ [s.nextEvent]) hl₁
    (length_le_size hl)
  refine ⟨{ s₁ with queues }, ?_, ?_, rfl⟩
  · rw [MultiQueue.put, bind_ok (h.known_run ho), bind_ok (get_run s), bind_ok (set_run _ _)]
    exact hrun
  have hnew : (⟨b.count, owner, event⟩ : Posting κ).eventId = s.nextEvent := h.nextEvent.symm
  have hne := h.eventId_ne hfree
  constructor
  case tree =>
    show MultiQueue.parents { s₁ with queues } = b.parents
    rw [parents_eq (s := s) hqueues (by intro o q; split <;> rfl), h.tree]
  case hierarchy => exact h.hierarchy
  case nextEvent =>
    show s.nextEvent + 1 = UInt64.ofNat (b.count + 1)
    rw [h.nextEvent, UInt64.ofNat_add]
    rfl
  case known =>
    intro p hp
    rcases List.mem_append.mp hp with hp | hp
    · exact h.known p hp
    · rw [List.mem_singleton.mp hp]
      exact ho
  case nodup =>
    show ((b.pending ++ [_]).map _).Nodup
    rw [List.map_append, List.nodup_append]
    refine ⟨h.nodup, by simp, ?_⟩
    rintro id hid id' hid' rfl
    obtain ⟨p, hp, rfl⟩ := List.mem_map.mp hid
    apply hne p hp
    simpa [hnew] using hid'
  case event =>
    intro id e
    show (s.events.insert s.nextEvent event)[id]? = some e ↔ ∃ p ∈ b.pending ++ [_], _
    rw [ExtTreeMap.getElem?_insert]
    have hold := h.event id e
    grind [Std.compare_eq_iff_eq]
  case origin =>
    intro id o
    show (s.origins.insert s.nextEvent owner)[id]? = some o ↔ ∃ p ∈ b.pending ++ [_], _
    rw [ExtTreeMap.getElem?_insert]
    have hold := h.origin id o
    grind [Std.compare_eq_iff_eq]
  case entries =>
    intro o queue hq
    have hq' : queues[o]? = some queue := hq
    rw [hqueues] at hq'
    obtain ⟨q, hqs, rfl⟩ := Option.map_eq_some_iff.mp hq'
    have hold := h.entries o q hqs
    have hmem : o ∈ l ↔ Under b.parents owner o := by rw [hl.mem_iff, h.tree]
    by_cases hol : o ∈ l
    · rw [if_pos hol, hold, Board.visible_put_of_under (hmem.mp hol), List.map_append, ← hnew]
      rfl
    · rw [if_neg hol, hold, Board.visible_put_of_not_under (fun hunder => hol (hmem.mpr hunder))]

end Paired

end MultiQueue

end Oxvim.Loop
