import Oxvim.Lib.EState

/-!
# Owned event queues

`MultiQueue` of the loop: a tree of queues, in which an event is held by the queue it was put into and
by every ancestor of it. Numbers of queues and of events are 64-bit and wrap.

The loops of the source that follow the parent links run over fuel. The links of a run never lead in
a circle unless a queue's number is given out twice; a walk that does is `Halt.diverges`.
-/

namespace Oxvim.Loop

open Lib EState
open Std (ExtTreeMap)

/-- Identity of an owned event queue. -/
abbrev Owner := UInt64

/-- Work delivered on the loop thread. -/
inductive Event (κ : Type) where
  | callback (callback : κ)
  | signal (number : Int)
  deriving DecidableEq, Repr

inductive Error where
  | unknownOwner (owner : Owner)
  | rootOwnerRemoval
  deriving DecidableEq, Repr

/-- Why an operation does not return a value: its error, or a walk without end. -/
inductive Halt where
  | error (error : Error)
  | diverges
  deriving DecidableEq, Repr

structure Queue where
  parent : Option Owner
  entries : List UInt64
  deriving DecidableEq, Repr

structure MultiQueue (κ : Type) where
  root : Owner
  nextOwner : UInt64
  nextEvent : UInt64
  queues : ExtTreeMap Owner Queue compare
  events : ExtTreeMap UInt64 (Event κ) compare
  origins : ExtTreeMap UInt64 Owner compare

namespace MultiQueue

variable {κ : Type}

/-- A root queue with no children. -/
def new : MultiQueue κ where
  root := 0
  nextOwner := 1
  nextEvent := 0
  queues := (∅ : ExtTreeMap Owner Queue compare).insert 0 ⟨none, []⟩
  events := ∅
  origins := ∅

/-- Fails where `owner` is no queue. -/
def known (owner : Owner) : EStateM Halt (MultiQueue κ) Unit := do
  if (← get).queues.contains owner then return else throw (.error (.unknownOwner owner))

/-- Creates an empty queue owned by `parent`. -/
def child (parent : Owner) : EStateM Halt (MultiQueue κ) Owner := do
  known parent
  let self ← get
  let owner := self.nextOwner
  set { self with
    nextOwner := self.nextOwner + 1
    queues := self.queues.insert owner ⟨some parent, []⟩ }
  return owner

/-- Follows the parent links from `queue` on and edits the entries of each queue on the way. -/
def climb (edit : Owner → List UInt64 → List UInt64) :
    (fuel : Nat) → (queue : Option Owner) → EStateM Halt (MultiQueue κ) Unit
  | _, none => return
  | 0, some _ => throw .diverges
  | fuel + 1, some current => do
    let self ← get
    match self.queues[current]? with
    | none => throw (.error (.unknownOwner current))
    | some queue =>
      set { self with
        queues := self.queues.insert current { queue with entries := edit current queue.entries } }
      climb edit fuel queue.parent

/-- Enqueues an event and mirrors its position into every ancestor. -/
def put (owner : Owner) (event : Event κ) : EStateM Halt (MultiQueue κ) Unit := do
  known owner
  let self ← get
  let eventId := self.nextEvent
  set { self with
    nextEvent := self.nextEvent + 1
    events := self.events.insert eventId event
    origins := self.origins.insert eventId owner }
  climb (fun _ entries => entries ++ [eventId]) self.queues.size (some owner)

/-- Takes the first entry off the queue of `owner`. -/
def popFront (owner : Owner) : EStateM Halt (MultiQueue κ) (Option UInt64) := do
  let self ← get
  match self.queues[owner]? with
  | none => return none
  | some ⟨_, []⟩ => return none
  | some ⟨parent, eventId :: entries⟩ =>
    set { self with queues := self.queues.insert owner ⟨parent, entries⟩ }
    return some eventId

/-- The entries that are left of a queue when an event is taken from the queue of `owner`, which has
let go of it already. -/
def released (owner : Owner) (eventId : UInt64) (current : Owner) (entries : List UInt64) :
    List UInt64 :=
  if current = owner then entries else entries.filter (· ≠ eventId)

/-- Takes events until the queue is empty. Each round takes one entry off it. -/
def drain (owner : Owner) : (fuel : Nat) → (drained : List (Event κ)) →
    EStateM Halt (MultiQueue κ) (List (Event κ))
  | 0, _ => throw .diverges
  | fuel + 1, drained => do
    match ← popFront owner with
    | none => return drained
    | some eventId =>
      let self ← get
      match self.origins[eventId]? with
      | none => drain owner fuel drained
      | some origin =>
        set { self with origins := self.origins.erase eventId }
        climb (released owner eventId) self.queues.size (some origin)
        let self ← get
        match self.events[eventId]? with
        | none => drain owner fuel drained
        | some event =>
          set { self with events := self.events.erase eventId }
          drain owner fuel (drained ++ [event])

/-- Drains only events owned by `owner` or one of its descendants. -/
def processEvents (owner : Owner) : EStateM Halt (MultiQueue κ) (List (Event κ)) := do
  known owner
  let pending := ((← get).queues[owner]?.map (·.entries.length)).getD 0
  drain owner (pending + 1) []

/-- Whether `ancestor` is met on the way up from `candidate`; `none` where the way has no end. -/
def descends (self : MultiQueue κ) (ancestor : Owner) :
    (fuel : Nat) → (candidate : Owner) → Option Bool
  | 0, _ => none
  | fuel + 1, candidate =>
    if candidate = ancestor then some true
    else match self.queues[candidate]?.bind (·.parent) with
      | none => some false
      | some parent => self.descends ancestor fuel parent

def isDescendantOf (self : MultiQueue κ) (candidate ancestor : Owner) : Option Bool :=
  self.descends ancestor self.queues.size candidate

/-- Removes a child owner, all descendants, and their pending events. -/
def removeOwner (owner : Owner) : EStateM Halt (MultiQueue κ) Unit := do
  let self ← get
  if owner = self.root then throw (.error .rootOwnerRemoval) else
  known owner
  if self.queues.keys.any fun candidate => (self.isDescendantOf candidate owner).isNone then
    throw .diverges
  else
    let removedOwners := self.queues.keys.filter fun candidate =>
      self.isDescendantOf candidate owner = some true
    let removedEvents := (removedOwners.filterMap (self.queues[·]?)).flatMap (·.entries)
    let retained := self.queues.map fun _ queue =>
      { queue with entries := queue.entries.filter (· ∉ removedEvents) }
    set { self with
      events := removedEvents.foldl (·.erase ·) self.events
      origins := removedEvents.foldl (·.erase ·) self.origins
      queues := retained.filter fun candidate _ => candidate ∉ removedOwners }

/-- Whether an owner has no pending events. -/
def isEmpty (self : MultiQueue κ) (owner : Owner) : Except Error Bool :=
  match self.queues[owner]? with
  | some queue => .ok queue.entries.isEmpty
  | none => .error (.unknownOwner owner)

/-- The number of pending events visible to an owner. -/
def len (self : MultiQueue κ) (owner : Owner) : Except Error Nat :=
  match self.queues[owner]? with
  | some queue => .ok queue.entries.length
  | none => .error (.unknownOwner owner)

end MultiQueue

end Oxvim.Loop
