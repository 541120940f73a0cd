import Oxvim.Loop.Work

/-!
# No work is lost on its way in

An intake is the queues of posted work and a session of the event queues, with the work that waits
for the next transfer in the order in which it was posted. A transfer is `Complete` when it
dispatches all the fast work that waits and puts all the deferred work whose owner exists into the
event queues, in that order.

It is complete exactly while no such work waits behind deferred work whose owner is gone (`Clear`):
`transfer` returns with the first unknown owner and drops what lies behind.
-/

namespace Oxvim.Loop

open Lib EState
open Std (ExtTreeMap)

variable {κ : Type}

namespace Work

def fast? : Work κ → Option (Event κ)
  | .fast _ event => some event
  | .deferred _ _ => none

def deferred? : Work κ → Option (Owner × Event κ)
  | .fast _ _ => none
  | .deferred owner event => some (owner, event)

/-- Every piece of work is one or the other. -/
theorem length_fast_add_deferred (works : List (Work κ)) :
    (works.filterMap fast?).length + (works.filterMap deferred?).length = works.length := by
  induction works with
  | nil => rfl
  | cons work works ih => cases work <;> grind [fast?, deferred?]

end Work

namespace Board

variable {b : Board κ}

/-- Work there is a place for: all fast work, and deferred work whose owner exists. -/
def Wanted (b : Board κ) : Work κ → Prop
  | .fast _ _ => True
  | .deferred owner _ => b.Known owner

instance (b : Board κ) : DecidablePred b.Wanted := fun work => by
  cases work <;> unfold Wanted <;> infer_instance

/-- The work there is a place for. -/
def due (b : Board κ) (works : List (Work κ)) : List (Work κ) :=
  works.filter fun work => b.Wanted work

theorem due_cons_of_wanted {work : Work κ} (h : b.Wanted work) (works : List (Work κ)) :
    b.due (work :: works) = work :: b.due works :=
  List.filter_cons_of_pos (p := fun work => decide (b.Wanted work)) (decide_eq_true h)

/-- The work before the first piece there is no place for. -/
def reached (b : Board κ) (works : List (Work κ)) : List (Work κ) :=
  works.takeWhile fun work => b.Wanted work

theorem reached_cons_of_wanted {work : Work κ} (h : b.Wanted work) (works : List (Work κ)) :
    b.reached (work :: works) = work :: b.reached works :=
  List.takeWhile_cons_of_pos (p := fun work => decide (b.Wanted work)) (decide_eq_true h)

theorem reached_cons_of_not_wanted {work : Work κ} (h : ¬b.Wanted work) (works : List (Work κ)) :
    b.reached (work :: works) = [] :=
  List.takeWhile_cons_of_neg (p := fun work => decide (b.Wanted work)) fun hc =>
    h (of_decide_eq_true hc)

def forward (b : Board κ) : Work κ → Board κ
  | .fast _ _ => b
  | .deferred owner event => b.put owner event

def forwardAll (b : Board κ) (works : List (Work κ)) : Board κ :=
  works.foldl forward b

@[simp] theorem forward_parents (work : Work κ) : (b.forward work).parents = b.parents := by
  cases work <;> rfl

@[simp] theorem forwardAll_parents (works : List (Work κ)) :
    (b.forwardAll works).parents = b.parents := by
  induction works generalizing b with
  | nil => rfl
  | cons work works ih => exact ih.trans (forward_parents work)

theorem wanted_forward (work : Work κ) : (b.forward work).Wanted = b.Wanted := by
  cases work <;> rfl

theorem forwardAll_count (works : List (Work κ)) :
    (b.forwardAll works).count = b.count + (works.filterMap Work.deferred?).length := by
  induction works generalizing b with
  | nil => rfl
  | cons work works ih =>
    rw [forwardAll, List.foldl_cons]
    refine ih.trans ?_
    cases work with
    | fast owner event => rfl
    | deferred owner event =>
      show b.count + 1 + _ = b.count + (_ + 1)
      omega

open Classical in
/-- The events of deferred work whose owner lies under `owner`, in the order of the posts. -/
noncomputable def arriving (parents : Owner → Option (Option Owner)) (owner : Owner)
    (works : List (Work κ)) : List (Event κ) :=
  ((works.filterMap Work.deferred?).filter fun d => (parents d.1).isSome ∧ Under parents d.1 owner).map
    (·.2)

/-- An owner sees what it saw before and then what arrives for it. -/
theorem visible_forwardAll (owner : Owner) {works : List (Work κ)} (h : ∀ w ∈ works, b.Wanted w) :
    ((b.forwardAll works).visible owner).map (·.event)
      = (b.visible owner).map (·.event) ++ arriving b.parents owner works := by
  induction works generalizing b with
  | nil => simp [forwardAll, arriving]
  | cons work works ih =>
    have hwork := h work (List.mem_cons_self ..)
    have hworks : ∀ w ∈ works, (b.forward work).Wanted w := by
      intro w hw
      rw [wanted_forward]
      exact h w (List.mem_cons_of_mem _ hw)
    rw [forwardAll, List.foldl_cons]
    refine (ih hworks).trans ?_
    rw [forward_parents]
    cases work with
    | fast origin event => rfl
    | deferred origin event =>
      have hknown : (b.parents origin).isSome := hwork
      by_cases hunder : Under b.parents origin owner
      · rw [forward, visible_put_of_under hunder]
        simp [arriving, Work.deferred?, hunder, hknown]
      · rw [forward, visible_put_of_not_under hunder]
        simp [arriving, Work.deferred?, hunder]

theorem mem_due {works : List (Work κ)} {work : Work κ} (h : work ∈ b.due works) : b.Wanted work :=
  of_decide_eq_true (List.mem_filter.mp h).2

/-- What is reached is due, and is due first. -/
theorem reached_prefix_due (works : List (Work κ)) : b.reached works <+: b.due works := by
  have hall : b.due (b.reached works) = b.reached works := by
    rw [due, List.filter_eq_self]
    intro work hwork
    exact List.mem_takeWhile_imp (p := fun work => decide (b.Wanted work)) hwork
  rw [← hall]
  exact (List.takeWhile_prefix _).filter _

/-- Nothing arrives but what is due. -/
theorem arriving_due (owner : Owner) (works : List (Work κ)) :
    arriving b.parents owner (b.due works) = arriving b.parents owner works := by
  induction works with
  | nil => rfl
  | cons work works ih =>
    simp only [arriving] at ih ⊢
    by_cases hwanted : b.Wanted work
    · rw [due_cons_of_wanted hwanted]
      cases work with
      | fast origin event => exact ih
      | deferred origin event => grind [Work.deferred?]
    · cases work with
      | fast origin event => exact absurd trivial hwanted
      | deferred origin event =>
        have hunknown : ¬(b.parents origin).isSome := hwanted
        simpa [due, hwanted, Work.deferred?, hunknown] using ih

/-- All that is due arrives at the root. -/
theorem length_arriving_root {root : Owner} (hroot : Hierarchy b.parents root)
    {works : List (Work κ)} (h : ∀ work ∈ works, b.Wanted work) :
    (arriving b.parents root works).length = (works.filterMap Work.deferred?).length := by
  classical
  rw [arriving, List.length_map, List.filter_eq_self.mpr]
  intro d hd
  obtain ⟨work, hwork, hsome⟩ := List.mem_filterMap.mp hd
  have hwanted := h work hwork
  cases work with
  | fast origin event => cases hsome
  | deferred origin event =>
    cases hsome
    exact decide_eq_true ⟨hwanted, hroot.under_root hwanted⟩

/-- The next `n` event numbers are not in use. -/
def Room (b : Board κ) (n : Nat) : Prop :=
  n ≤ 2 ^ 64 ∧ ∀ i < n, ∀ p ∈ b.pending, p.eventId ≠ UInt64.ofNat (b.count + i)

theorem Room.mono {m n : Nat} (h : b.Room n) (hmn : m ≤ n) : b.Room m :=
  ⟨hmn.trans h.1, fun i hi => h.2 i (hi.trans_le hmn)⟩

theorem Room.put {n : Nat} (h : b.Room (n + 1)) (owner : Owner) (event : Event κ) :
    (b.put owner event).Room n := by
  refine ⟨(Nat.le_succ n).trans h.1, ?_⟩
  intro i hi p hp
  have hcount : (b.put owner event).count + i = b.count + (i + 1) := by
    simp only [Board.put]
    omega
  rw [hcount]
  rcases List.mem_append.mp hp with hp | hp
  · exact h.2 (i + 1) (by omega) p hp
  · obtain rfl := List.mem_singleton.mp hp
    have hsmall := h.1
    rw [Posting.eventId, ne_eq, ← UInt64.toNat_inj, UInt64.toNat_ofNat', UInt64.toNat_ofNat']
    dsimp only
    omega

end Board

namespace MultiQueue

variable {s : MultiQueue κ} {b : Board κ}

/-- The events the queue of an owner holds. -/
def held (s : MultiQueue κ) (owner : Owner) : List (Event κ) :=
  (((s.queues[owner]?).map (·.entries)).getD []).filterMap (s.events[·]?)

/-- The next `n` event numbers are not in use. -/
def Room (s : MultiQueue κ) (n : Nat) : Prop :=
  n ≤ 2 ^ 64 ∧ ∀ i < n, s.nextEvent + UInt64.ofNat i ∉ s.origins

namespace Paired

theorem room (h : Paired s b) {n : Nat} : s.Room n ↔ b.Room n := by
  refine and_congr_right fun _ => forall₂_congr fun i _ => ?_
  rw [ExtTreeMap.mem_iff_isSome_getElem?, h.nextEvent, ← UInt64.ofNat_add, Option.isSome_iff_exists]
  simp only [h.origin]
  grind

theorem held (h : Paired s b) (owner : Owner) :
    s.held owner = (b.visible owner).map (·.event) := by
  by_cases ho : b.Known owner
  · obtain ⟨parent, hq⟩ := h.queue ho
    rw [MultiQueue.held, hq, Option.map_some, Option.getD_some, List.filterMap_map]
    rw [← List.filterMap_eq_map]
    apply List.filterMap_congr
    intro p hp
    exact (h.event _ _).mpr ⟨p, (Board.mem_visible.mp hp).1, rfl, rfl⟩
  · have hnone : s.queues[owner]? = none := by
      rw [← Option.not_isSome_iff_eq_none, ← ExtTreeMap.contains_eq_isSome_getElem?]
      exact fun hc => ho ((h.contains owner).mp hc)
    have hempty : b.visible owner = [] := by
      rw [List.eq_nil_iff_forall_not_mem]
      intro p hp
      obtain ⟨hmem, hunder⟩ := Board.mem_visible.mp hp
      exact ho (h.hierarchy.present (h.known p hmem) hunder)
    rw [MultiQueue.held, hnone, hempty]
    rfl

end Paired

end MultiQueue

/-! ## A transfer -/

/-- A session whose queues the loop of a transfer has got through with, after `works`. -/
structure Session.Forwarded (t t' : Session κ) (works : List (Work κ)) : Prop where
  kept : Kept t'
  board : t'.board = t.board.forwardAll works
  returned : t'.returned = t.returned
  nextOwner : t'.queues.nextOwner = t.queues.nextOwner

/-- An owner that was removed is known no more. -/
theorem Session.not_known_removeOwner {t : Session κ} {owner : Owner}
    (hroot : owner ≠ t.queues.root) : ¬(t.apply (.removeOwner owner)).board.Known owner := by
  rw [Session.apply]
  dsimp only
  by_cases ho : t.board.Known owner
  · rw [if_pos ⟨ho, hroot⟩]
    simp [Board.Known, Board.remove, Under, Relation.ReflTransGen.refl]
  · rwa [if_neg fun hc => ho hc.1]

namespace Ingress

theorem put_ok {self : Ingress κ} {owner : Owner} {event : Event κ} {events : MultiQueue κ}
    (h : MultiQueue.put owner event self.events = .ok () events) :
    put owner event self = .ok () { self with events } :=
  zoom_ok h

theorem put_error {self : Ingress κ} {owner : Owner} {event : Event κ} {halt : Halt}
    {events : MultiQueue κ} (h : MultiQueue.put owner event self.events = .error halt events) :
    put owner event self = .error halt { self with events } :=
  zoom_error h

section Step

variable {channels : ExtTreeMap Owner (List (Work κ)) compare} {order : List Owner} {owner : Owner}
  {event : Event κ} {rest : List (Work κ)} (self : Ingress κ)

theorem forward_fast (h : channels[owner]? = some (.fast owner event :: rest)) :
    forward channels (owner :: order) self = forward (channels.insert owner rest) order
      { self with dispatched := self.dispatched ++ [event] } := by
  rw [forward, h]
  rfl

theorem forward_put (h : channels[owner]? = some (.deferred owner event :: rest))
    {events : MultiQueue κ} (hput : MultiQueue.put owner event self.events = .ok () events) :
    forward channels (owner :: order) self
      = forward (channels.insert owner rest) order { self with events } := by
  rw [forward, h]
  exact bind_ok (put_ok hput)

theorem forward_refused (h : channels[owner]? = some (.deferred owner event :: rest)) {halt : Halt}
    (hput : MultiQueue.put owner event self.events = .error halt self.events) :
    forward channels (owner :: order) self = .error halt self := by
  rw [forward, h]
  exact bind_error (put_error hput)

end Step

/-- The loop gets as far as the first piece of work there is no place for. -/
theorem forward_run {channels : ExtTreeMap Owner (List (Work κ)) compare} {order : List Owner}
    {queued : List (Work κ)} (hholds : Pending.Holds channels order queued)
    (pending : Pending κ) (dispatched : List (Event κ)) {t : Session κ} (ht : t.Kept)
    (hroom : t.board.Room ((t.board.due queued).filterMap Work.deferred?).length) :
    ∃ t' : Session κ, t.Forwarded t' (t.board.reached queued) ∧
      final (forward channels order ⟨pending, t.queues, dispatched⟩) = ⟨pending, t'.queues,
        dispatched ++ (t.board.reached queued).filterMap Work.fast?⟩ := by
  induction queued generalizing channels order dispatched t with
  | nil =>
    obtain rfl := hholds.order
    refine ⟨t, ⟨ht, rfl, rfl, rfl⟩, ?_⟩
    rw [Board.reached, List.takeWhile_nil, List.filterMap_nil, List.append_nil]
    rfl
  | cons work queued ih =>
    obtain ⟨order', rest, rfl, hchannel, hrest⟩ := hholds.pop
    cases work with
    | fast owner event =>
      have hwanted : t.board.Wanted (.fast owner event) := trivial
      rw [Board.due_cons_of_wanted hwanted] at hroom
      obtain ⟨t', hforwarded, hrun⟩ := ih hrest (dispatched ++ [event]) ht hroom
      rw [Board.reached_cons_of_wanted hwanted]
      refine ⟨t', ⟨hforwarded.kept, hforwarded.board, hforwarded.returned, hforwarded.nextOwner⟩, ?_⟩
      rw [forward_fast _ hchannel, hrun, List.append_assoc]
      rfl
    | deferred owner event =>
      by_cases ho : t.board.Known owner
      · -- the event is put and the loop goes on from the state after the put
        have hwanted : t.board.Wanted (.deferred owner event) := ho
        rw [Board.due_cons_of_wanted hwanted] at hroom
        have hfree : t.queues.Free (.put owner event) := by
          have hnext := (ht.paired.room.mpr hroom).2 0 (Nat.succ_pos _)
          rw [MultiQueue.Free]
          exact UInt64.add_zero t.queues.nextEvent ▸ hnext
        obtain ⟨s', hput, hpaired, hnext⟩ := ht.paired.put event ho hfree
        have happly : t.apply (.put owner event) = ⟨s', t.board.put owner event, t.returned⟩ := by
          rw [Session.apply, hput, if_pos ho]
          rfl
        have hkept : Session.Kept ⟨s', t.board.put owner event, t.returned⟩ :=
          happly ▸ ht.apply hfree
        obtain ⟨t', hforwarded, hrun⟩ := ih hrest dispatched hkept (Board.Room.put hroom owner event)
        rw [Board.reached_cons_of_wanted hwanted]
        refine ⟨t', ⟨hforwarded.kept, hforwarded.board, hforwarded.returned, hforwarded.nextOwner.trans hnext⟩, ?_⟩
        rw [forward_put ⟨pending, t.queues, dispatched⟩ hchannel hput, hrun]
        rfl
      · have hput : MultiQueue.put owner event t.queues
            = .error (.error (.unknownOwner owner)) t.queues :=
          bind_error (ht.paired.known_error ho)
        have hunwanted : ¬t.board.Wanted (.deferred owner event) := ho
        rw [Board.reached_cons_of_not_wanted hunwanted]
        refine ⟨t, ⟨ht, rfl, rfl, rfl⟩, ?_⟩
        rw [forward_refused ⟨pending, t.queues, dispatched⟩ hchannel hput, List.filterMap_nil, List.append_nil]
        rfl

end Ingress

/-! ## Runs -/

inductive IntakeOp (κ : Type) where
  | scheduleDeferred (wake : Except Unit Unit) (owner : Owner) (event : Event κ)
  | scheduleFast (wake : Except Unit Unit) (owner : Owner) (event : Event κ)
  | queues (op : QueueOp κ)
  | transfer

structure Intake (κ : Type) where
  pending : Pending κ
  session : Session κ
  dispatched : List (Event κ)
  /-- The work posted since the last transfer, in the order of the posts. -/
  queued : List (Work κ)

namespace Intake

def start : Intake κ where
  pending := .empty
  session := .start
  dispatched := []
  queued := []

/-- An operation acts on the posts, the event queues and the dispatched events; the board follows the
loop of a transfer as far as it gets. -/
noncomputable def apply (t : Intake κ) : IntakeOp κ → Intake κ
  | .scheduleDeferred wake owner event => { t with
      pending := final (Pending.scheduleDeferred wake owner event t.pending)
      queued := t.queued ++ [.deferred owner event] }
  | .scheduleFast wake owner event => { t with
      pending := final (Pending.scheduleFast wake owner event t.pending)
      queued := t.queued ++ [.fast owner event] }
  | .queues op => { t with session := t.session.apply op }
  | .transfer =>
    let self := final (Ingress.transfer ⟨t.pending, t.session.queues, t.dispatched⟩)
    { pending := self.pending
      session := { t.session with
        queues := self.events
        board := t.session.board.forwardAll (t.session.board.reached t.queued) }
      dispatched := self.dispatched
      queued := [] }

/-- The numbers the operation gives out are not in use. -/
def Free (t : Intake κ) : IntakeOp κ → Prop
  | .queues op => t.session.queues.Free op
  | .transfer =>
    t.session.queues.Room ((t.session.board.due t.queued).filterMap Work.deferred?).length
  | _ => True

def Start (t : Intake κ) : Prop :=
  t = start

def Step (t t' : Intake κ) : Prop :=
  ∃ op, t.Free op ∧ t' = t.apply op

/-- What a transfer is for: it dispatches each fast event that waits, and each deferred event that
waits goes to the end of the queue of its owner and of those above it, in the order of the posts. -/
structure Complete (t : Intake κ) : Prop where
  dispatched : (t.apply .transfer).dispatched = t.dispatched ++ t.queued.filterMap Work.fast?
  moved : ∀ owner, (t.apply .transfer).session.queues.held owner
    = t.session.queues.held owner ++ Board.arriving t.session.queues.parents owner t.queued

/-- No work there is a place for waits behind work there is none for. -/
def Clear (t : Intake κ) : Prop :=
  t.queued.Pairwise fun work behind => t.session.board.Wanted behind → t.session.board.Wanted work

theorem clear_iff {t : Intake κ} :
    t.Clear ↔ t.session.board.reached t.queued = t.session.board.due t.queued := by
  rw [Clear, Board.reached, Board.due]
  induction t.queued with
  | nil => simp
  | cons work works ih =>
    rw [List.pairwise_cons, ih]
    by_cases hwanted : t.session.board.Wanted work
    · simp [hwanted]
    · -- nothing is reached, so nothing may be due
      simp only [hwanted, decide_false, List.takeWhile_cons, List.filter_cons, Bool.false_eq_true,
        if_false, imp_false]
      rw [eq_comm (a := []), List.filter_eq_nil_iff]
      constructor
      · intro h w hw
        simpa using h.1 w hw
      · intro h
        have hnone : ∀ w ∈ works, ¬t.session.board.Wanted w := by
          intro w hw
          simpa using h w hw
        refine ⟨hnone, ?_⟩
        rw [List.filter_eq_nil_iff.mpr h, List.takeWhile_eq_nil_iff]
        intro hlength
        simpa using hnone _ (List.getElem_mem hlength)

/-! ### One step -/

structure Kept (t : Intake κ) : Prop where
  session : t.session.Kept
  holds : Pending.Holds t.pending.channels t.pending.order t.queued

theorem kept_start : Kept (start : Intake κ) where
  session := Session.kept_start
  holds := Pending.holds_empty

/-- A transfer leaves no posts behind. -/
theorem Kept.transfer {t : Intake κ} (h : Kept t) (hfree : t.Free .transfer) :
    ∃ session, t.session.Forwarded session (t.session.board.reached t.queued) ∧
      t.apply .transfer = ⟨.empty, session,
        t.dispatched ++ (t.session.board.reached t.queued).filterMap Work.fast?, []⟩ := by
  obtain ⟨session, hforwarded, hrun⟩ := Ingress.forward_run h.holds .empty t.dispatched h.session
    (h.session.paired.room.mp hfree)
  have htransfer : final (Ingress.transfer ⟨t.pending, t.session.queues, t.dispatched⟩)
      = ⟨.empty, session.queues,
        t.dispatched ++ (t.session.board.reached t.queued).filterMap Work.fast?⟩ := by
    rw [Ingress.transfer, bind_ok (get_run _), bind_ok (set_run _ _)]
    exact hrun
  refine ⟨session, hforwarded, ?_⟩
  show (⟨_, ⟨_, t.session.board.forwardAll _, t.session.returned⟩, _, _⟩ : Intake κ) = _
  rw [htransfer, ← hforwarded.board, ← hforwarded.returned]

theorem Kept.complete_iff {t : Intake κ} (h : Kept t) (hfree : t.Free .transfer) :
    t.Complete ↔ t.Clear := by
  obtain ⟨session, hforwarded, happly⟩ := h.transfer hfree
  have hahead := Board.reached_prefix_due (b := t.session.board) t.queued
  have hheld : ∀ owner, session.queues.held owner = t.session.queues.held owner
      ++ Board.arriving t.session.board.parents owner (t.session.board.reached t.queued) := by
    intro owner
    rw [hforwarded.kept.paired.held, h.session.paired.held, hforwarded.board]
    exact Board.visible_forwardAll owner fun work hwork => Board.mem_due (hahead.subset hwork)
  have hfast : (t.session.board.due t.queued).filterMap Work.fast?
      = t.queued.filterMap Work.fast? := by
    rw [Board.due, List.filterMap_filter]
    apply List.filterMap_congr
    intro work _
    cases work with
    | fast owner event => exact if_pos (decide_eq_true trivial)
    | deferred owner event => simp [Work.fast?]
  rw [clear_iff]
  constructor
  · -- the root shows how much of the deferred work was moved
    intro hcomplete
    have hdispatched := hcomplete.dispatched
    have hmoved := hcomplete.moved t.session.queues.root
    rw [happly] at hdispatched hmoved
    have hfastLength := congrArg List.length (List.append_cancel_left hdispatched)
    rw [hheld, h.session.paired.tree] at hmoved
    have hdeferredLength := congrArg List.length (List.append_cancel_left hmoved)
    rw [← Board.arriving_due _ t.queued,
      Board.length_arriving_root h.session.paired.hierarchy
        fun work hwork => Board.mem_due (hahead.subset hwork),
      Board.length_arriving_root h.session.paired.hierarchy fun work => Board.mem_due]
      at hdeferredLength
    rw [← hfast] at hfastLength
    apply hahead.eq_of_length
    rw [← Work.length_fast_add_deferred, ← Work.length_fast_add_deferred (Board.due _ _)]
    omega
  · intro hreached
    constructor
    · rw [happly, ← hfast, ← hreached]
    · intro owner
      rw [happly, hheld, hreached, Board.arriving_due, h.session.paired.tree]

theorem Kept.apply {t : Intake κ} (h : Kept t) {op : IntakeOp κ} (hfree : t.Free op) :
    Kept (t.apply op) := by
  cases op with
  | scheduleDeferred wake owner event =>
    refine ⟨h.session, ?_⟩
    rw [Intake.apply, Pending.final_scheduleDeferred]
    exact h.holds.post _
  | scheduleFast wake owner event =>
    refine ⟨h.session, ?_⟩
    rw [Intake.apply, Pending.final_scheduleFast]
    exact h.holds.post _
  | queues op => exact ⟨h.session.apply hfree, h.holds⟩
  | transfer =>
    obtain ⟨session, hforwarded, happly⟩ := h.transfer hfree
    rw [happly]
    exact ⟨hforwarded.kept, Pending.holds_empty⟩

theorem kept_of_reachable {t : Intake κ} (h : Reachable Start Step t) : Kept t := by
  apply h.invariant
  · intro t ht
    rw [ht]
    exact kept_start
  · intro t t' ht hstep
    obtain ⟨op, hfree, rfl⟩ := hstep
    exact ht.apply hfree

/-- **A transfer loses nothing exactly when no work there is a place for waits behind work there is
none for**, in every state of every run that gives out no number that is still in use. -/
theorem transfer_complete_iff {t : Intake κ} (h : Reachable Start Step t)
    (hfree : t.Free .transfer) : t.Complete ↔ t.Clear :=
  (kept_of_reachable h).complete_iff hfree

/-! ## Short runs -/

/-- The numbers that `n` calls can have given out or can have in store. -/
structure Short (n : Nat) (t : Intake κ) : Prop where
  session : t.session.Numbered n
  store : t.session.board.count + t.queued.length ≤ n

theorem Short.free {n : Nat} {t : Intake κ} (h : Short n t) (hkept : Kept t) (hn : n + 1 < 2 ^ 64)
    (op : IntakeOp κ) : t.Free op := by
  cases op with
  | scheduleDeferred wake owner event => trivial
  | scheduleFast wake owner event => trivial
  | queues op => exact h.session.free hkept.session hn op
  | transfer =>
    have hstore := h.store
    have hdue : ((t.session.board.due t.queued).filterMap Work.deferred?).length
        ≤ t.queued.length :=
      (List.length_filterMap_le _ _).trans (List.length_filter_le _ _)
    refine hkept.session.paired.room.mpr ⟨by omega, ?_⟩
    intro i hi p hp
    have hserial : p.serial ∈ List.range t.session.board.count := by
      apply hkept.session.once.subset
      apply List.mem_map_of_mem
      exact List.mem_append_right _ hp
    rw [List.mem_range] at hserial
    rw [Posting.eventId, ne_eq, ← UInt64.toNat_inj, UInt64.toNat_ofNat', UInt64.toNat_ofNat',
      Nat.mod_eq_of_lt (by omega), Nat.mod_eq_of_lt (by omega)]
    omega

theorem Short.apply {n : Nat} {t : Intake κ} (h : Short n t) (hkept : Kept t) (hn : n + 1 < 2 ^ 64)
    (op : IntakeOp κ) : Short (n + 1) (t.apply op) := by
  have hstore := h.store
  obtain ⟨⟨c, hc, hnext, hbelow⟩, hcount⟩ := h.session
  cases op with
  | scheduleDeferred wake owner event =>
    refine ⟨⟨⟨c, by omega, hnext, hbelow⟩, Nat.le_succ_of_le hcount⟩, ?_⟩
    show _ + (t.queued ++ [_]).length ≤ _
    rw [List.length_append, List.length_singleton]
    exact Nat.succ_le_succ hstore
  | scheduleFast wake owner event =>
    refine ⟨⟨⟨c, by omega, hnext, hbelow⟩, Nat.le_succ_of_le hcount⟩, ?_⟩
    show _ + (t.queued ++ [_]).length ≤ _
    rw [List.length_append, List.length_singleton]
    exact Nat.succ_le_succ hstore
  | queues op =>
    have hfree := h.session.free hkept.session hn op
    refine ⟨h.session.apply hkept.session hn op, ?_⟩
    have hgrows : (t.session.apply op).board.count ≤ t.session.board.count + 1 := by
      have hmoves := hkept.session.moves hfree
      generalize t.session.apply op = t' at hmoves
      cases hmoves with
      | put => exact Nat.le_refl _
      | _ => exact Nat.le_succ _
    show (t.session.apply op).board.count + t.queued.length ≤ n + 1
    omega
  | transfer =>
    obtain ⟨session, hforwarded, happly⟩ := hkept.transfer (h.free hkept hn .transfer)
    have hcount' : session.board.count ≤ n := by
      rw [hforwarded.board, Board.forwardAll_count]
      have hreached : ((t.session.board.reached t.queued).filterMap Work.deferred?).length
          ≤ t.queued.length :=
        (List.length_filterMap_le _ _).trans (List.takeWhile_prefix _).length_le
      omega
    rw [happly]
    refine ⟨⟨⟨c, by omega, hforwarded.nextOwner.trans hnext, ?_⟩, Nat.le_succ_of_le hcount'⟩,
      Nat.le_succ_of_le hcount'⟩
    intro o ho
    apply hbelow
    rwa [Board.Known, hforwarded.board, Board.forwardAll_parents] at ho

/-- A run of fewer than 2^64 calls gives out no number twice. -/
theorem reachable_of_short (ops : List (IntakeOp κ)) (h : ops.length < 2 ^ 64) :
    Reachable Start Step (ops.foldl apply start) ∧ Short ops.length (ops.foldl apply start) := by
  induction ops using List.reverseRecOn with
  | nil => exact ⟨.init rfl, (@Session.reachable_of_short κ [] h).2, Nat.le_refl 0⟩
  | append_singleton ops op ih =>
    rw [List.length_append, List.length_singleton] at h
    obtain ⟨hreach, hshort⟩ := ih (by omega)
    have hkept := kept_of_reachable hreach
    rw [List.foldl_append, List.foldl_cons, List.foldl_nil, List.length_append,
      List.length_singleton]
    exact ⟨hreach.step ⟨op, hshort.free hkept h op, rfl⟩, hshort.apply hkept h op⟩

theorem free_of_short {ops : List (IntakeOp κ)} (h : ops.length + 1 < 2 ^ 64)
    (op : IntakeOp κ) : (ops.foldl apply start).Free op := by
  obtain ⟨hreach, hshort⟩ := reachable_of_short ops (by omega)
  exact hshort.free (kept_of_reachable hreach) h op

/-- A child of the root, deferred work for the child, then fast work. -/
def childWork : List (IntakeOp Unit) :=
  [.queues (.child 0), .scheduleDeferred (.ok ()) 1 (.signal 5),
    .scheduleFast (.ok ()) 0 (.callback ())]

theorem childWork_queues : (childWork.foldl apply start).session.queues
    = { (MultiQueue.new : MultiQueue Unit) with
        nextOwner := 2
        queues := (MultiQueue.new : MultiQueue Unit).queues.insert 1 ⟨some 0, []⟩ } := by
  have hroot : (MultiQueue.new : MultiQueue Unit).queues.contains 0 := by simp [MultiQueue.new]
  show final (MultiQueue.child 0 (MultiQueue.new : MultiQueue Unit)) = _
  rw [Session.child_root_run hroot]
  rfl

theorem childWork_known : (childWork.foldl apply start).session.board.Known 1 := by
  have hkept := kept_of_reachable (reachable_of_short childWork (by decide)).1
  rw [← hkept.session.paired.contains, childWork_queues]
  simp

/-- The child goes before the work is transferred. -/
def orphanedWork : List (IntakeOp Unit) :=
  childWork ++ [.queues (.removeOwner 1)]

theorem orphanedWork_unknown : ¬(orphanedWork.foldl apply start).session.board.Known 1 := by
  rw [orphanedWork, List.foldl_append, List.foldl_cons, List.foldl_nil]
  have hroot : (1 : Owner) ≠ (childWork.foldl apply start).session.queues.root := by
    rw [childWork_queues]
    decide
  exact Session.not_known_removeOwner hroot

/-- While the child is there, a transfer carries out both pieces of work. -/
theorem transfer_complete_iff_child : (childWork.foldl apply start).Complete := by
  apply (transfer_complete_iff (reachable_of_short childWork (by decide)).1
    (free_of_short (by decide) .transfer)).mpr
  show [Work.deferred 1 (.signal 5), .fast 0 (.callback ())].Pairwise _
  rw [List.pairwise_pair]
  intro _
  exact childWork_known

/-- When the child is gone, the fast work behind its deferred work is lost. -/
theorem transfer_loses_fast : ¬(orphanedWork.foldl apply start).Complete := by
  have hkept := kept_of_reachable (reachable_of_short orphanedWork (by decide)).1
  rw [hkept.complete_iff (free_of_short (by decide) .transfer)]
  intro hclear
  have hpairs : [Work.deferred 1 (.signal 5), .fast 0 (.callback ())].Pairwise
      fun work behind => (orphanedWork.foldl apply start).session.board.Wanted behind →
        (orphanedWork.foldl apply start).session.board.Wanted work := hclear
  rw [List.pairwise_pair] at hpairs
  exact orphanedWork_unknown (hpairs trivial)

end Intake

end Oxvim.Loop
