import Oxvim.Loop.MultiQueueRuns

/-!
# Work posted into the loop

Other threads post work under a lock, each piece for an owner: fast work, which runs while the loop
dispatches readiness, and deferred work, which is forwarded to the `MultiQueue`. The posts lie in one
queue for each owner, next to the list of the owners in the order of the posts. A `transfer` takes
both away under the lock and then goes through the owners, so that what is posted meanwhile finds
both empty and waits for the next transfer.
-/

namespace Oxvim.Loop

open Lib EState
open Std (ExtTreeMap)

variable {κ : Type}

/-- Work posted into the loop from its own or another thread. -/
inductive Work (κ : Type) where
  | fast (owner : Owner) (event : Event κ)
  | deferred (owner : Owner) (event : Event κ)
  deriving DecidableEq, Repr

def Work.owner : Work κ → Owner
  | .fast owner _ => owner
  | .deferred owner _ => owner

structure Pending (κ : Type) where
  channels : ExtTreeMap Owner (List (Work κ)) compare
  order : List Owner

namespace Pending

def empty : Pending κ where
  channels := ∅
  order := []

/-- Puts a piece of work behind the others of its owner and its owner behind the others. -/
def post (work : Work κ) (pending : Pending κ) : Pending κ where
  channels := pending.channels.insert work.owner
    ((pending.channels[work.owner]?).getD [] ++ [work])
  order := pending.order ++ [work.owner]

variable {ε : Type}

/-- Posts deferred work and wakes the reactor. A wake that fails comes after the post. -/
def scheduleDeferred (wake : Except ε Unit) (owner : Owner) (event : Event κ) :
    EStateM ε (Pending κ) Unit := do
  modify (post (.deferred owner event))
  MonadExcept.ofExcept wake

/-- Posts fast work and wakes the reactor. -/
def scheduleFast (wake : Except ε Unit) (owner : Owner) (event : Event κ) :
    EStateM ε (Pending κ) Unit := do
  modify (post (.fast owner event))
  MonadExcept.ofExcept wake

theorem final_scheduleDeferred (wake : Except ε Unit) (owner : Owner) (event : Event κ)
    (pending : Pending κ) :
    final (scheduleDeferred wake owner event pending) = pending.post (.deferred owner event) := by
  cases wake <;> rfl

theorem final_scheduleFast (wake : Except ε Unit) (owner : Owner) (event : Event κ)
    (pending : Pending κ) :
    final (scheduleFast wake owner event pending) = pending.post (.fast owner event) := by
  cases wake <;> rfl

end Pending

/-- What a transfer works on: the posts, the event queues, and the events whose `dispatch` was
called, which runs a callback and leaves a signal alone. -/
structure Ingress (κ : Type) where
  pending : Pending κ
  events : MultiQueue κ
  dispatched : List (Event κ)

namespace Ingress

def put (owner : Owner) (event : Event κ) : EStateM Halt (Ingress κ) Unit :=
  zoom (·.events) (fun events self => { self with events }) id (MultiQueue.put owner event)

def dispatch (event : Event κ) : EStateM Halt (Ingress κ) Unit :=
  modify fun self => { self with dispatched := self.dispatched ++ [event] }

/-- Goes through the owners in the order of the posts and takes one piece of work off the queue of
each. The first event whose owner is gone ends the loop. -/
def forward : (channels : ExtTreeMap Owner (List (Work κ)) compare) → (order : List Owner) →
    EStateM Halt (Ingress κ) Unit
  | _, [] => return
  | channels, owner :: order =>
    match channels[owner]? with
    | none => forward channels order
    | some [] => forward channels order
    | some (.fast _ event :: rest) => do
      dispatch event
      forward (channels.insert owner rest) order
    | some (.deferred _ event :: rest) => do
      put owner event
      forward (channels.insert owner rest) order

/-- Runs fast callbacks now and forwards deferred callbacks to `MultiQueue`. -/
def transfer : EStateM Halt (Ingress κ) Unit := do
  let self ← get
  set { self with pending := Pending.empty }
  forward self.pending.channels self.pending.order

end Ingress

/-! ## What lies in the queues -/

namespace Pending

/-- The posts of a list, in their order: each owner once for each of its posts, and in its queue the
posts that are its own. -/
structure Holds (channels : ExtTreeMap Owner (List (Work κ)) compare) (order : List Owner)
    (queued : List (Work κ)) : Prop where
  order : order = queued.map (·.owner)
  channel : ∀ owner, (channels[owner]?).getD [] = queued.filter (·.owner = owner)

theorem holds_empty : Holds (empty : Pending κ).channels (empty : Pending κ).order [] where
  order := rfl
  channel := by simp [empty]

theorem Holds.post {pending : Pending κ} {queued : List (Work κ)}
    (h : Holds pending.channels pending.order queued) (work : Work κ) :
    Holds (pending.post work).channels (pending.post work).order (queued ++ [work]) where
  order := by
    rw [Pending.post, h.order, List.map_append]
    rfl
  channel := by
    intro owner
    rw [Pending.post, ExtTreeMap.getElem?_insert, List.filter_append, h.channel]
    by_cases howner : work.owner = owner
    · simp [howner]
    · simp [howner, h.channel]

/-- The first post lies in front in the queue of its owner; what is behind it stays. -/
theorem Holds.pop {channels : ExtTreeMap Owner (List (Work κ)) compare} {order : List Owner}
    {work : Work κ} {queued : List (Work κ)} (h : Holds channels order (work :: queued)) :
    ∃ order' rest, order = work.owner :: order' ∧ channels[work.owner]? = some (work :: rest) ∧
      Holds (channels.insert work.owner rest) order' queued := by
  have hfront := h.channel work.owner
  rw [List.filter_cons_of_pos (by simp)] at hfront
  obtain ⟨found, hfound⟩ : ∃ found, channels[work.owner]? = some found := by
    cases hc : channels[work.owner]? with
    | none =>
      rw [hc] at hfront
      cases hfront
    | some found => exact ⟨found, rfl⟩
  rw [hfound, Option.getD_some] at hfront
  subst hfront
  refine ⟨queued.map (·.owner), _, h.order.trans List.map_cons, hfound, rfl, ?_⟩
  intro owner
  rw [ExtTreeMap.getElem?_insert]
  by_cases howner : work.owner = owner
  · simp [howner]
  · have hother := h.channel owner
    rw [List.filter_cons_of_neg (by simpa using howner)] at hother
    simpa [howner] using hother

end Pending

end Oxvim.Loop
