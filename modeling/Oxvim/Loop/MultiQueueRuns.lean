import Oxvim.Lib.Transition
import Oxvim.Loop.MultiQueueDrain

/-!
# Every event once and in order

A session is a `MultiQueue` together with the board that says what has become of each event, and
with what `process_events` has returned so far. `Delivers` is the purpose of the queues over a whole
run: an owner sees the pending events put into its queue or below it, in the order of the puts; a
drain returns exactly those; and every event that was ever put is delivered, dropped or pending, and
only one of these.

The numbers of owners and events wrap at 2^64. A run keeps the promise while no number is given out
that is still in use (`Free`), so while there are fewer than 2^64 calls (`reachable_of_short`). Past
that, a child can take the place of the root and its events are lost (`wrapped_owner_loses_events`).
-/

namespace Oxvim.Loop

open Lib EState
open Std (ExtTreeMap)

variable {κ : Type}

inductive QueueOp (κ : Type) where
  | child (parent : Owner)
  | put (owner : Owner) (event : Event κ)
  | processEvents (owner : Owner)
  | removeOwner (owner : Owner)

/-- The number the operation gives out is not in use. -/
def MultiQueue.Free (s : MultiQueue κ) : QueueOp κ → Prop
  | .child _ => s.nextOwner ∉ s.queues
  | .put _ _ => s.nextEvent ∉ s.origins
  | _ => True

structure Session (κ : Type) where
  queues : MultiQueue κ
  board : Board κ
  returned : List (Event κ)

namespace Session

/-- A fresh `MultiQueue` over a board with nothing on it. -/
def start : Session κ where
  queues := .new
  board := ⟨Function.update (fun _ => none) 0 (some none), 0, [], [], []⟩
  returned := []

/-- An operation acts on the queues; the board follows where its owner is known. -/
noncomputable def apply (t : Session κ) : QueueOp κ → Session κ
  | .child parent => { t with
      queues := final (MultiQueue.child parent t.queues)
      board := if t.board.Known parent then t.board.child parent t.queues.nextOwner else t.board }
  | .put owner event => { t with
      queues := final (MultiQueue.put owner event t.queues)
      board := if t.board.Known owner then t.board.put owner event else t.board }
  | .processEvents owner => {
      queues := final (MultiQueue.processEvents owner t.queues)
      board := if t.board.Known owner then t.board.process owner else t.board
      returned := t.returned ++ match MultiQueue.processEvents owner t.queues with
        | .ok events _ => events
        | .error _ _ => [] }
  | .removeOwner owner => { t with
      queues := final (MultiQueue.removeOwner owner t.queues)
      board := if t.board.Known owner ∧ owner ≠ t.queues.root then t.board.remove owner
        else t.board }

def Start (t : Session κ) : Prop :=
  t = start

def Step (t t' : Session κ) : Prop :=
  ∃ op, t.queues.Free op ∧ t' = t.apply op

/-! ## One step -/

/-- What holds between the queues, the board and what was returned. -/
structure Kept (t : Session κ) : Prop where
  paired : t.queues.Paired t.board
  returned : t.returned = t.board.delivered.map (·.1.event)
  once : ((t.board.delivered.map (·.1) ++ t.board.dropped ++ t.board.pending).map
    (·.serial)).Perm (List.range t.board.count)

theorem kept_start : Kept (start : Session κ) where
  paired := by
    have hlineage : Lineage (start : Session κ).board.parents 0 [0] := .top rfl
    have hget : ∀ o : Owner, (MultiQueue.new : MultiQueue κ).queues[o]? =
        if o = 0 then some ⟨none, []⟩ else none := by
      intro o
      show ((∅ : ExtTreeMap Owner Queue compare).insert 0 _)[o]? = _
      rw [ExtTreeMap.getElem?_insert]
      by_cases ho : o = 0
      · simp [ho]
      · simp [ho, Ne.symm ho]
    constructor
    case tree =>
      funext o
      rw [MultiQueue.parents, start, hget]
      by_cases ho : o = 0
      · simp [ho]
      · simp [ho]
    case hierarchy =>
      refine ⟨rfl, ?_⟩
      intro o ho
      by_cases ho0 : o = 0
      · exact ⟨[0], ho0 ▸ hlineage, by simp [start, MultiQueue.new]⟩
      · simp [start, ho0] at ho
    case nextEvent => rfl
    case known => simp [start]
    case nodup => simp [start]
    case event => simp [start, MultiQueue.new]
    case origin => simp [start, MultiQueue.new]
    case entries =>
      intro o queue hq
      rw [start, hget] at hq
      split at hq
      · cases hq
        rfl
      · cases hq
  returned := rfl
  once := by simp [start]

/-- The events an owner takes change places on the board and are not lost. -/
theorem Kept.process_once {t : Session κ} (h : Kept t) (owner : Owner) :
    (((t.board.process owner).delivered.map (·.1) ++ (t.board.process owner).dropped ++
      (t.board.process owner).pending).map (·.serial)).Perm (List.range t.board.count) := by
  refine List.Perm.trans (List.Perm.map _ ?_) h.once
  have hpending := t.board.visible_append_hidden owner
  simp only [Board.process, List.map_append, List.map_map, Function.comp_def, List.map_id']
  rw [List.append_assoc, List.append_assoc, List.append_assoc]
  apply List.Perm.append_left
  rw [← List.append_assoc]
  have hswap : (t.board.visible owner ++ t.board.dropped ++ t.board.hidden owner).Perm
      (t.board.dropped ++ t.board.visible owner ++ t.board.hidden owner) :=
    List.perm_append_comm.append_right _
  refine hswap.trans ?_
  rw [List.append_assoc]
  exact hpending.append_left _

theorem Kept.remove_once {t : Session κ} (h : Kept t) (owner : Owner) :
    (((t.board.remove owner).delivered.map (·.1) ++ (t.board.remove owner).dropped ++
      (t.board.remove owner).pending).map (·.serial)).Perm (List.range t.board.count) := by
  refine List.Perm.trans (List.Perm.map _ ?_) h.once
  have hpending := t.board.visible_append_hidden owner
  simp only [Board.remove]
  rw [List.append_assoc, List.append_assoc, List.append_assoc]
  exact (hpending.append_left _).append_left _

/-- What an operation can do to a session: nothing, or its part on the queues and on the board. -/
inductive Moves (t : Session κ) : QueueOp κ → Session κ → Prop
  | refused {op : QueueOp κ} : Moves t op t
  | child {parent : Owner} {s' : MultiQueue κ} : t.board.Known parent →
      s'.Paired (t.board.child parent t.queues.nextOwner) →
      s'.nextOwner = t.queues.nextOwner + 1 →
      Moves t (.child parent) ⟨s', t.board.child parent t.queues.nextOwner, t.returned⟩
  | put {owner : Owner} {event : Event κ} {s' : MultiQueue κ} :
      s'.Paired (t.board.put owner event) → s'.nextOwner = t.queues.nextOwner →
      Moves t (.put owner event) ⟨s', t.board.put owner event, t.returned⟩
  | processEvents {owner : Owner} {s' : MultiQueue κ} :
      s'.Paired (t.board.process owner) → s'.nextOwner = t.queues.nextOwner →
      Moves t (.processEvents owner)
        ⟨s', t.board.process owner, t.returned ++ (t.board.visible owner).map (·.event)⟩
  | removeOwner {owner : Owner} {s' : MultiQueue κ} :
      s'.Paired (t.board.remove owner) → s'.nextOwner = t.queues.nextOwner →
      Moves t (.removeOwner owner) ⟨s', t.board.remove owner, t.returned⟩

theorem Kept.moves {t : Session κ} (h : Kept t) {op : QueueOp κ} (hfree : t.queues.Free op) :
    Moves t op (t.apply op) := by
  cases op with
  | child parent =>
    by_cases hp : t.board.Known parent
    · obtain ⟨s', hrun, hpaired, hnext⟩ := h.paired.child hp hfree
      rw [Session.apply, hrun, if_pos hp]
      exact .child hp hpaired hnext
    · have hrun : MultiQueue.child parent t.queues = .error (.error (.unknownOwner parent)) t.queues :=
        bind_error (h.paired.known_error hp)
      rw [Session.apply, hrun, if_neg hp]
      exact .refused
  | put owner event =>
    by_cases ho : t.board.Known owner
    · obtain ⟨s', hrun, hpaired, hnext⟩ := h.paired.put event ho hfree
      rw [Session.apply, hrun, if_pos ho]
      exact .put hpaired hnext
    · have hrun : MultiQueue.put owner event t.queues
          = .error (.error (.unknownOwner owner)) t.queues :=
        bind_error (h.paired.known_error ho)
      rw [Session.apply, hrun, if_neg ho]
      exact .refused
  | processEvents owner =>
    by_cases ho : t.board.Known owner
    · obtain ⟨s', hrun, hpaired, hnext⟩ := h.paired.processEvents ho
      rw [Session.apply, hrun, if_pos ho]
      exact .processEvents hpaired hnext
    · have hrun : MultiQueue.processEvents owner t.queues
          = .error (.error (.unknownOwner owner)) t.queues :=
        bind_error (h.paired.known_error ho)
      have hsame : t.apply (.processEvents owner) = t := by
        rw [Session.apply, hrun, if_neg ho, final_error, List.append_nil]
      rw [hsame]
      exact .refused
  | removeOwner owner =>
    by_cases hroot : owner = t.queues.root
    · have hrun : MultiQueue.removeOwner owner t.queues
          = .error (.error .rootOwnerRemoval) t.queues := by
        rw [MultiQueue.removeOwner, bind_ok (get_run _), if_pos hroot]
        rfl
      rw [Session.apply, hrun, if_neg fun hc => hc.2 hroot]
      exact .refused
    · by_cases ho : t.board.Known owner
      · obtain ⟨s', hrun, hpaired, hnext⟩ := h.paired.removeOwner ho hroot
        rw [Session.apply, hrun, if_pos ⟨ho, hroot⟩]
        exact .removeOwner hpaired hnext
      · have hrun : MultiQueue.removeOwner owner t.queues
            = .error (.error (.unknownOwner owner)) t.queues := by
          rw [MultiQueue.removeOwner, bind_ok (get_run _), if_neg hroot]
          exact bind_error (h.paired.known_error ho)
        rw [Session.apply, hrun, if_neg fun hc => ho hc.1]
        exact .refused

theorem Kept.apply {t : Session κ} (h : Kept t) {op : QueueOp κ} (hfree : t.queues.Free op) :
    Kept (t.apply op) := by
  have hmoves := h.moves hfree
  generalize t.apply op = t' at hmoves
  cases hmoves with
  | refused => exact h
  | child _ hpaired _ => exact ⟨hpaired, h.returned, h.once⟩
  | @put owner event s' hpaired _ =>
    refine ⟨hpaired, h.returned, ?_⟩
    show List.Perm _ (List.range (t.board.count + 1))
    rw [List.range_succ, Board.put, ← List.append_assoc, List.map_append]
    exact h.once.append_right _
  | @processEvents owner s' hpaired _ =>
    refine ⟨hpaired, ?_, h.process_once owner⟩
    show t.returned ++ _ = (t.board.delivered ++ _).map _
    rw [List.map_append, h.returned, List.map_map]
    rfl
  | @removeOwner owner s' hpaired _ => exact ⟨hpaired, h.returned, h.remove_once owner⟩

theorem kept_of_reachable {t : Session κ} (h : Reachable Start Step t) : Kept t := by
  apply h.invariant
  · rintro t rfl
    exact kept_start
  · rintro t t' ht ⟨op, hfree, rfl⟩
    exact ht.apply hfree

/-! ## The promise -/

/-- What the queues promise of a session. -/
structure Delivers (t : Session κ) : Prop where
  /-- A queue holds the pending events put into it or below it, in the order of the puts. -/
  entries : ∀ owner queue, t.queues.queues[owner]? = some queue →
    queue.entries = (t.board.visible owner).map (·.eventId)
  known : ∀ owner, t.queues.queues.contains owner ↔ t.board.Known owner
  /-- A drain returns exactly those, and leaves every queue what it held of the others. -/
  drains : ∀ owner, t.board.Known owner → ∃ s',
    MultiQueue.processEvents owner t.queues = .ok ((t.board.visible owner).map (·.event)) s' ∧
      ∀ o queue, s'.queues[o]? = some queue →
        queue.entries = ((t.board.drained owner).visible o).map (·.eventId)
  /-- It fails for an owner without a queue only, and changes nothing then. -/
  refuses : ∀ owner halt s', MultiQueue.processEvents owner t.queues = .error halt s' →
    ¬t.board.Known owner ∧ halt = .error (.unknownOwner owner) ∧ s' = t.queues
  /-- All that was ever returned is what the board has down as delivered, in that order. -/
  returned : t.returned = t.board.delivered.map (·.1.event)
  /-- Every event is delivered, dropped with its origin or pending: once, and one of these. -/
  once : ((t.board.delivered.map (·.1) ++ t.board.dropped ++ t.board.pending).map
    (·.serial)).Perm (List.range t.board.count)

theorem Kept.delivers {t : Session κ} (h : Kept t) : Delivers t where
  entries := h.paired.entries
  known := h.paired.contains
  drains := by
    intro owner ho
    obtain ⟨s', hrun, hpaired, -⟩ := h.paired.processEvents ho
    exact ⟨s', hrun, hpaired.entries⟩
  refuses := by
    intro owner halt s' hrun
    by_cases ho : t.board.Known owner
    · obtain ⟨s'', hok, -⟩ := h.paired.processEvents ho
      rw [hok] at hrun
      cases hrun
    · have herror : MultiQueue.processEvents owner t.queues
          = .error (.error (.unknownOwner owner)) t.queues :=
        bind_error (h.paired.known_error ho)
      rw [herror] at hrun
      cases hrun
      exact ⟨ho, rfl, rfl⟩
  returned := h.returned
  once := h.once

/-- The numbers that `n` calls can have given out. -/
structure Numbered (n : Nat) (t : Session κ) : Prop where
  nextOwner : ∃ c ≤ n, t.queues.nextOwner = UInt64.ofNat (c + 1) ∧
    ∀ o, t.board.Known o → o.toNat ≤ c
  count : t.board.count ≤ n

theorem Numbered.free {n : Nat} {t : Session κ} (h : Numbered n t) (hkept : Kept t)
    (hn : n + 1 < 2 ^ 64) (op : QueueOp κ) : t.queues.Free op := by
  cases op with
  | child parent =>
    obtain ⟨c, hc, hnext, hbelow⟩ := h.nextOwner
    intro hmem
    rw [← ExtTreeMap.contains_iff_mem, hkept.paired.contains] at hmem
    have hle := hbelow _ hmem
    rw [hnext, UInt64.toNat_ofNat', Nat.mod_eq_of_lt (by omega)] at hle
    omega
  | put owner event =>
    intro hmem
    rw [ExtTreeMap.mem_iff_isSome_getElem?] at hmem
    obtain ⟨o, ho⟩ := Option.isSome_iff_exists.mp hmem
    obtain ⟨p, hp, hid, -⟩ := (hkept.paired.origin _ _).mp ho
    have hserial : p.serial ∈ List.range t.board.count := by
      apply hkept.once.subset
      apply List.mem_map_of_mem
      simp [hp]
    rw [List.mem_range] at hserial
    have hcount := h.count
    rw [hkept.paired.nextEvent, Posting.eventId, ← UInt64.toNat_inj, UInt64.toNat_ofNat',
      UInt64.toNat_ofNat', Nat.mod_eq_of_lt (by omega), Nat.mod_eq_of_lt (by omega)] at hid
    omega
  | processEvents owner => trivial
  | removeOwner owner => trivial

theorem Numbered.apply {n : Nat} {t : Session κ} (h : Numbered n t) (hkept : Kept t)
    (hn : n + 1 < 2 ^ 64) (op : QueueOp κ) : Numbered (n + 1) (t.apply op) := by
  have hmoves := hkept.moves (h.free hkept hn op)
  obtain ⟨⟨c, hc, hnext, hbelow⟩, hcount⟩ := h
  generalize t.apply op = t' at hmoves
  cases hmoves with
  | refused => exact ⟨⟨c, by omega, hnext, hbelow⟩, by omega⟩
  | child _ _ hnext' =>
    refine ⟨⟨c + 1, by omega, ?_, ?_⟩, Nat.le_succ_of_le hcount⟩
    · show _ = _
      rw [hnext', hnext, UInt64.ofNat_add (c + 1) 1]
      rfl
    · intro o ho
      by_cases hoo : o = t.queues.nextOwner
      · rw [hoo, hnext, UInt64.toNat_ofNat']
        exact Nat.mod_le _ _
      · have hknown : t.board.Known o := by
          have hold := ho
          unfold Board.Known Board.child at hold
          dsimp only at hold
          rwa [Function.update_of_ne hoo] at hold
        exact Nat.le_succ_of_le (hbelow o hknown)
  | put _ hnext' => exact ⟨⟨c, by omega, hnext'.trans hnext, hbelow⟩, Nat.succ_le_succ hcount⟩
  | processEvents _ hnext' =>
    exact ⟨⟨c, by omega, hnext'.trans hnext, hbelow⟩, Nat.le_succ_of_le hcount⟩
  | removeOwner _ hnext' =>
    refine ⟨⟨c, by omega, hnext'.trans hnext, ?_⟩, Nat.le_succ_of_le hcount⟩
    intro o ho
    apply hbelow
    unfold Board.Known Board.remove at ho
    dsimp only at ho
    split at ho
    · cases ho
    · exact ho

/-- A run of fewer than 2^64 calls gives out no number twice. -/
theorem reachable_of_short {ops : List (QueueOp κ)} (h : ops.length < 2 ^ 64) :
    Reachable Start Step (ops.foldl apply start) ∧
      Numbered ops.length (ops.foldl apply start) := by
  induction ops using List.reverseRecOn with
  | nil =>
    refine ⟨.init rfl, ⟨0, Nat.le_refl 0, rfl, ?_⟩, Nat.le_refl 0⟩
    intro o ho
    by_cases ho0 : o = 0
    · simp [ho0]
    · simp [start, Board.Known, ho0] at ho
  | append_singleton ops op ih =>
    rw [List.length_append, List.length_singleton] at h
    obtain ⟨hreach, hnumbered⟩ := ih (by omega)
    have hkept := kept_of_reachable hreach
    rw [List.foldl_append, List.foldl_cons, List.foldl_nil, List.length_append,
      List.length_singleton]
    exact ⟨hreach.step ⟨op, hnumbered.free hkept h op, rfl⟩, hnumbered.apply hkept h op⟩

theorem child_root_run {s : MultiQueue κ} (h : s.queues.contains 0) :
    MultiQueue.child 0 s = .ok s.nextOwner { s with
      nextOwner := s.nextOwner + 1
      queues := s.queues.insert s.nextOwner ⟨some 0, []⟩ } := by
  rw [MultiQueue.child, MultiQueue.known, bind_run, bind_ok (get_run _), if_pos h]
  rfl

/-- Children of the root, as many as one likes: the root is there, the events stay pending, and the
numbers go up. -/
theorem foldl_child_root (n : Nat) (t : Session κ) (h : t.queues.queues.contains 0) :
    ((List.replicate n (.child 0)).foldl apply t).queues.queues.contains 0 ∧
      ((List.replicate n (.child 0)).foldl apply t).board.pending = t.board.pending ∧
      ((List.replicate n (.child 0)).foldl apply t).queues.nextOwner
        = t.queues.nextOwner + UInt64.ofNat n := by
  induction n generalizing t with
  | zero => exact ⟨h, rfl, by simp⟩
  | succ n ih =>
    have hpending : (t.apply (.child 0)).board.pending = t.board.pending := by
      rw [Session.apply]
      dsimp only
      split <;> rfl
    have hcontains : (t.apply (.child 0)).queues.queues.contains 0 := by
      rw [Session.apply, child_root_run h]
      simp [h]
    obtain ⟨hc, hp, hn⟩ := ih (t.apply (.child 0)) hcontains
    rw [List.replicate_succ, List.foldl_cons]
    refine ⟨hc, hp.trans hpending, ?_⟩
    rw [hn, Session.apply, child_root_run h]
    show t.queues.nextOwner + 1 + _ = _
    rw [Nat.add_comm n 1, UInt64.ofNat_add, UInt64.add_assoc]
    rfl

/-- When the number of the last child wraps to the root's, it takes the root's place and the root's
event is lost. -/
theorem not_delivers_of_wrap {n : Nat} (hwrap : UInt64.ofNat (n + 1) = 0) :
    ¬Delivers ((.put 0 (.signal 1) :: List.replicate (n + 1) (.child 0)).foldl apply
      (start : Session Unit)) := by
  have hknown : (start : Session Unit).board.Known 0 := rfl
  obtain ⟨s', hrun, hpaired, hnext⟩ :=
    kept_start.paired.put (.signal 1) hknown (by simp [start, MultiQueue.new])
  have hput : (start : Session Unit).apply (.put 0 (.signal 1))
      = ⟨s', start.board.put 0 (.signal 1), []⟩ := by
    rw [Session.apply, hrun, if_pos hknown]
    rfl
  obtain ⟨hroot, hpending, hnumber⟩ := foldl_child_root n
    (⟨s', start.board.put 0 (.signal 1), []⟩ : Session Unit) ((hpaired.contains 0).mpr rfl)
  rw [List.foldl_cons, hput, List.replicate_succ', List.foldl_append, List.foldl_cons,
    List.foldl_nil]
  generalize (List.replicate n (.child 0)).foldl apply
    (⟨s', start.board.put 0 (.signal 1), []⟩ : Session Unit) = t at hroot hpending hnumber ⊢
  intro hdelivers
  -- the counter is back at the root's number
  have hwrapped : t.queues.nextOwner = 0 := by
    rw [hnumber, ← hwrap, Nat.add_comm, UInt64.ofNat_add]
    show s'.nextOwner + _ = _
    rw [hnext]
    rfl
  have hqueue : (t.apply (.child 0)).queues.queues[(0 : Owner)]? = some ⟨some 0, []⟩ := by
    rw [Session.apply, child_root_run hroot, final_ok, hwrapped]
    exact ExtTreeMap.getElem?_insert_self
  have hstill : (⟨0, 0, .signal 1⟩ : Posting Unit) ∈ (t.apply (.child 0)).board.visible 0 := by
    rw [Board.mem_visible]
    refine ⟨?_, .refl⟩
    have hsame : (t.apply (.child 0)).board.pending = t.board.pending := by
      rw [Session.apply]
      dsimp only
      split <;> rfl
    rw [hsame, hpending]
    exact List.mem_singleton_self _
  have hnone : ((t.apply (.child 0)).board.visible 0).map (·.eventId) = [] :=
    (hdelivers.entries 0 _ hqueue).symm
  rw [List.map_eq_nil_iff.mp hnone] at hstill
  cases hstill

end Session

end Oxvim.Loop
