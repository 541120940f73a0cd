import Oxvim.Eval.ValuesEqual
import Oxvim.Lib.EState

/-!
# `deepcopy()`

Lists and dictionaries live in a memory and are referred to by their place in it. `deepCopy` copies
the ones a value leads to. Two tables say which container was copied to which: a container is
entered there before what it holds is copied, so that cycles and sharing come out the same, and the
contents of its copy are installed when all of them are known.
-/

namespace Oxvim.Eval

open Lib Lib.Walk Lib.EState Relation

/-! ## Memory -/

/-- The depth at which a container was locked. -/
inductive LockScope where
  | none
  | shallow
  | deep
  deriving DecidableEq, Repr

structure LockState where
  scope : LockScope
  locked : Bool
  deriving DecidableEq, Repr

def LockState.default : LockState := ⟨.none, false⟩

/-- Mutability flags of a dictionary entry, as a set of bits. -/
structure DictEntryFlags where
  bits : UInt8
  deriving DecidableEq, Repr

def DictEntryFlags.none : DictEntryFlags := ⟨0⟩

inductive EntryValueLock where
  | unlocked
  | locked
  | fixed
  deriving DecidableEq, Repr

/-- A value that refers to containers by their place in memory. -/
abbrev Value := Typval Nat Nat

/-- A dictionary entry with its flags and the lock of its value. -/
structure MarkedEntry extends DictEntry Nat Nat where
  flags : DictEntryFlags
  valueLock : EntryValueLock

/-- `DictEntry::new`. -/
def MarkedEntry.new (key : List UInt8) (value : Value) : MarkedEntry where
  key
  value
  flags := .none
  valueLock := .unlocked

structure ListData where
  items : List Value
  lock : LockState

structure DictData where
  entries : List MarkedEntry
  lock : LockState
  isNull : Bool

structure Memory where
  lists : List ListData
  dicts : List DictData

/-! ## The copy -/

/-- Memory, and the copies of the containers met so far. -/
structure Copying where
  memory : Memory
  lists : Nat → Option Nat
  dicts : Nat → Option Nat

/-- `Typval::list(vec![])`. -/
def newList : EStateM EvalError Copying Nat := do
  let s ← get
  set { s with memory.lists := s.memory.lists ++ [ListData.mk [] .default] }
  return s.memory.lists.length

/-- `Typval::dict(vec![])`. -/
def newDict : EStateM EvalError Copying Nat := do
  let s ← get
  set { s with memory.dicts := s.memory.dicts ++ [DictData.mk [] .default false] }
  return s.memory.dicts.length

def listItems (s : Copying) (source : Nat) : List Value :=
  (s.memory.lists[source]?).elim [] (·.items)

def clonedEntries (s : Copying) (source : Nat) : List MarkedEntry :=
  (s.memory.dicts[source]?).elim [] (·.entries)

def setItems (target : Nat) (items : List Value) (s : Copying) : Copying :=
  { s with memory.lists := s.memory.lists.modify target fun data => { data with items } }

def setEntries (target : Nat) (entries : List MarkedEntry) (s : Copying) : Copying :=
  { s with memory.dicts := s.memory.dicts.modify target fun data => { data with entries } }

def depthError : EvalError := ⟨"E698", 0, "variable nested too deep for making a copy"⟩

def copy (value : Value) (depth : Nat) : EStateM EvalError Copying Value :=
  if depth ≥ maxContainerDepth then throw depthError
  else
    match value with
    | .list source => do
      match (← get).lists source with
      | some existing => return .list existing
      | none =>
        let target ← newList
        modify fun s => { s with lists := Function.update s.lists source (some target) }
        let sourceItems := listItems (← get) source
        let items ← sourceItems.mapM fun item => copy item (depth + 1)
        modify (setItems target items)
        return .list target
    | .dict source => do
      match (← get).dicts source with
      | some existing => return .dict existing
      | none =>
        let target ← newDict
        modify fun s => { s with dicts := Function.update s.dicts source (some target) }
        let sourceEntries := clonedEntries (← get) source
        let entries ← sourceEntries.mapM fun entry =>
          MarkedEntry.new entry.key <$> copy entry.value (depth + 1)
        modify (setEntries target entries)
        return .dict target
    | value => return value
termination_by maxContainerDepth - depth

def deepCopy (value : Value) : EStateM EvalError Memory Value := fun memory =>
  match copy value 0 ⟨memory, fun _ => none, fun _ => none⟩ with
  | .ok copied s => .ok copied s.memory
  | .error e s => .error e s.memory

end Oxvim.Eval
