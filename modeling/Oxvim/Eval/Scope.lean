import Mathlib

/-!
# Variable scopes and `:lockvar`

The scope maps of an evaluation (`g:`, `b:`, `w:`, `t:`, `s:`, `l:`, `a:`, `v:`) and the marks that
`:lockvar` leaves on their variables. A mark is kept beside the maps, under the scope and the name of
the variable it locks.

Values are scalars here: `lock_value` has no container to lock in them and `is_locked_value` is 0, so
the mark is all there is of a lock.
-/

namespace Oxvim.Eval.Scopes

/-- Variable namespace prefixes. -/
inductive ScopeKind where
  | global
  | buffer
  | window
  | tab
  | script
  | «local»
  | argument
  | vim
  deriving DecidableEq, Repr

/-- The single-byte prefix used in source text. -/
def ScopeKind.asByte : ScopeKind → UInt8
  | .global => 'g'.toUInt8
  | .buffer => 'b'.toUInt8
  | .window => 'w'.toUInt8
  | .tab => 't'.toUInt8
  | .script => 's'.toUInt8
  | .local => 'l'.toUInt8
  | .argument => 'a'.toUInt8
  | .vim => 'v'.toUInt8

/-- The textual prefix as it appears in diagnostics. -/
def ScopeKind.asStr (kind : ScopeKind) : List UInt8 :=
  [kind.asByte, ':'.toUInt8]

/-- Parse a one-character namespace prefix. -/
def ScopeKind.fromByte (b : UInt8) : Option ScopeKind :=
  if b = 'g'.toUInt8 then some .global
  else if b = 'b'.toUInt8 then some .buffer
  else if b = 'w'.toUInt8 then some .window
  else if b = 't'.toUInt8 then some .tab
  else if b = 's'.toUInt8 then some .script
  else if b = 'l'.toUInt8 then some .local
  else if b = 'a'.toUInt8 then some .argument
  else if b = 'v'.toUInt8 then some .vim
  else none

@[simp] theorem ScopeKind.fromByte_asByte (kind : ScopeKind) : fromByte kind.asByte = some kind := by
  cases kind <;> rfl

/-- The bytes of a name. -/
abbrev Name := List UInt8

/-- An error; the message is given before its name is decoded for display. -/
structure EvalError where
  code : String
  offset : Nat
  message : String
  name : Name
  deriving DecidableEq, Repr

/-- An ordered map of byte-keyed variables. -/
abbrev ScopeMap (V : Type) := List (Name × V)

/-- `:lockvar`'s mark on one variable. -/
structure LockMark where
  scope : ScopeKind
  name : Name
  /-- Whether the value is locked as well. -/
  value : Bool
  deriving DecidableEq, Repr

structure Scope (V : Type) where
  maps : ScopeKind → ScopeMap V
  locked : List LockMark
  dirty : ScopeKind → Bool

variable {V : Type}

/-! ## Scope maps -/

def findPair (map : ScopeMap V) (key : Name) : Option (Name × V) :=
  map.find? fun pair => pair.1 == key

def findIndex (map : ScopeMap V) (key : Name) : Option Nat :=
  map.findIdx? fun pair => pair.1 == key

def assign (map : ScopeMap V) (key : Name) (value : V) : ScopeMap V :=
  match findIndex map key with
  | some i => map.modify i fun pair => (pair.1, value)
  | none => map ++ [(key, value)]

/-- Whether a map has a variable. -/
def contains (map : ScopeMap V) (key : Name) : Bool :=
  (findPair map key).isSome

theorem contains_iff {map : ScopeMap V} {key : Name} : contains map key = true ↔ key ∈ map.map (·.1) := by
  simp [contains, findPair]

/-- Changing an element in place leaves alone what does not depend on the change. -/
theorem map_modify_eq {α β : Type*} {f : α → α} {g : α → β} (h : ∀ a, g (f a) = g a) (l : List α)
    (i : Nat) : (l.modify i f).map g = l.map g := by
  apply List.ext_getElem?
  intro j
  rw [List.getElem?_map, List.getElem?_map, List.getElem?_modify]
  by_cases hij : i = j
  · cases hj : l[j]? <;> simp [hij, h]
  · cases hj : l[j]? <;> simp [hij]

/-- An assignment adds the name if it is new, and removes none. -/
theorem contains_assign (map : ScopeMap V) (key name : Name) (value : V) :
    contains (assign map key value) name = (contains map name || name == key) := by
  have hiff : contains (assign map key value) name = true ↔ contains map name = true ∨ name = key := by
    rw [contains_iff, contains_iff, assign]
    cases hindex : findIndex map key with
    | none => simp
    | some i =>
      have hkey : key ∈ map.map (·.1) := by
        rw [findIndex, List.findIdx?_eq_some_iff_getElem] at hindex
        obtain ⟨hi, hname, -⟩ := hindex
        have heq : map[i].1 = key := by simpa using hname
        exact heq ▸ List.mem_map_of_mem (List.getElem_mem hi)
      show name ∈ (map.modify i fun pair => (pair.1, value)).map (·.1) ↔ _
      rw [map_modify_eq (by intro pair; rfl)]
      constructor
      · exact Or.inl
      · rintro (h | rfl)
        · exact h
        · exact hkey
  rw [Bool.eq_iff_iff, hiff]
  simp

theorem contains_filter (map : ScopeMap V) (key name : Name) :
    contains (map.filter (·.1 != key)) name = (contains map name && name != key) := by
  have hiff : contains (map.filter (·.1 != key)) name = true ↔ contains map name = true ∧ name ≠ key := by
    rw [contains_iff, contains_iff]
    constructor
    · intro h
      obtain ⟨pair, hpair, rfl⟩ := List.mem_map.mp h
      obtain ⟨hmem, hne⟩ := List.mem_filter.mp hpair
      exact ⟨List.mem_map_of_mem hmem, by simpa using hne⟩
    · rintro ⟨h, hne⟩
      obtain ⟨pair, hpair, rfl⟩ := List.mem_map.mp h
      exact List.mem_map_of_mem (List.mem_filter.mpr ⟨hpair, by simpa using hne⟩)
  rw [Bool.eq_iff_iff, hiff]
  simp

theorem contains_push (map : ScopeMap V) (key name : Name) (value : V) :
    contains (map ++ [(key, value)]) name = (contains map name || name == key) := by
  have hiff : contains (map ++ [(key, value)]) name = true ↔ contains map name = true ∨ name = key := by
    rw [contains_iff, contains_iff]
    simp
  rw [Bool.eq_iff_iff, hiff]
  simp

/-! ## Scopes -/

namespace Scope

/-- A scope in which nothing has been locked yet. -/
def ofMaps (maps : ScopeKind → ScopeMap V) : Scope V where
  maps
  locked := []
  dirty _ := false

/-- Only the maps that the editor shares can be dirty. -/
def markDirty (self : Scope V) (kind : ScopeKind) : Scope V :=
  match kind with
  | .global | .buffer | .window | .tab | .vim =>
    { self with dirty := Function.update self.dirty kind true }
  | .script | .local | .argument => self

def setMap (self : Scope V) (kind : ScopeKind) (map : ScopeMap V) : Scope V :=
  { self with maps := Function.update self.maps kind map }

/-- The scope map that holds `name`, with the name inside that map. -/
def resolve (self : Scope V) (name : Name) : Option (ScopeKind × Name) :=
  match name with
  | first :: second :: bare =>
    if second = ':'.toUInt8 then
      match ScopeKind.fromByte first with
      | none => none
      | some kind => (findPair (self.maps kind) bare).map fun _ => (kind, bare)
    else unqualified (first :: second :: bare)
  | short => unqualified short
where
  /-- The first of `l:`, `a:`, `g:` that has the name. -/
  unqualified (name : Name) : Option (ScopeKind × Name) :=
    ([ScopeKind.local, .argument, .global].find? fun kind =>
      (findPair (self.maps kind) name).isSome).map fun kind => (kind, name)

def mark (self : Scope V) (kind : ScopeKind) (name : Name) : Option LockMark :=
  self.locked.find? fun mark => mark.scope == kind && mark.name == name

def getScoped (self : Scope V) (kind : ScopeKind) (name : Name) (offset : Nat) : Except EvalError V :=
  match findPair (self.maps kind) name with
  | some (_, value) => .ok value
  | none => .error ⟨"E121", offset, "Undefined variable: ", kind.asStr ++ name⟩

/-- Reject a change to a value `:lockvar` locked. -/
def checkValueLock (self : Scope V) (name : Name) (offset : Nat) : Except EvalError Unit :=
  match self.resolve name with
  | none => .error ⟨"E121", offset, "Undefined variable: ", name⟩
  | some (kind, bare) => do
    let _ ← self.getScoped kind bare offset
    if (self.mark kind bare).any (·.value) then
      .error ⟨"E741", 0, "Value is locked: ", name⟩
    else .ok ()

/-- Reject an assignment to a variable that `:lockvar` marked. -/
def checkVariableLock (self : Scope V) (name : Name) : Except EvalError Unit :=
  match self.resolve name with
  | none => .ok ()
  | some (kind, bare) =>
    if (self.mark kind bare).isSome then
      .error ⟨"E1122", 0, "Variable is locked: ", name⟩
    else .ok ()

/-- The check every assignment to `name` owes. -/
def checkAssignable (self : Scope V) (name : Name) (offset : Nat) : Except EvalError Unit :=
  if (self.resolve name).isNone then .ok ()
  else do
    self.checkValueLock name offset
    self.checkVariableLock name

/-- Assign a value to an unqualified name, storing it in `l:`. -/
def set (self : Scope V) (name : Name) (value : V) : Except EvalError (Scope V) := do
  self.checkAssignable name 0
  .ok (self.setMap .local (assign (self.maps .local) name value))

/-- Assign a value to a scoped name. -/
def setScoped (self : Scope V) (kind : ScopeKind) (name : Name) (offset : Nat) (value : V) :
    Except EvalError (Scope V) :=
  if kind = .vim ∨ kind = .argument then
    .error ⟨"E46", offset, "Cannot change read-only variable \"", name⟩
  else do
    if (findPair (self.maps kind) name).isSome then
      self.checkAssignable (kind.asStr ++ name) offset
    .ok ((self.setMap kind (assign (self.maps kind) name value)).markDirty kind)

def setVariableLock (self : Scope V) (name : Name) (depth : Int) (lock : Bool) : Scope V :=
  match self.resolve name with
  | none => self
  | some (kind, bare) =>
    match findPair (self.maps kind) bare with
    | none => self
    | some _ =>
      let position := self.locked.findIdx? fun mark => mark.scope == kind && mark.name == bare
      match lock, position with
      | true, none => { self with locked := self.locked ++ [⟨kind, bare, depth != 0⟩] }
      | true, some position =>
        { self with
          locked := self.locked.modify position fun mark =>
            { mark with value := mark.value || depth != 0 } }
      | false, some position => { self with locked := self.locked.eraseIdx position }
      | false, none => self

/-- `:lockvar[!] [depth] {name}`. -/
def lockvar (self : Scope V) (name : Name) (depth : Int) : Scope V :=
  self.setVariableLock name depth true

/-- `:unlockvar[!] [depth] {name}`. -/
def unlockvar (self : Scope V) (name : Name) (depth : Int) : Scope V :=
  self.setVariableLock name depth false

/-- Replace one entry in a scope map, returning the previous value. -/
def replacePair (self : Scope V) (kind : ScopeKind) (name : Name) (value : V) :
    Scope V × Option V :=
  let map := self.maps kind
  ((self.setMap kind (map.filter (·.1 != name) ++ [(name, value)])).markDirty kind,
    (findPair map name).map (·.2))

/-- Put back what `replacePair` returned. -/
def restorePair (self : Scope V) (kind : ScopeKind) (name : Name) (previous : Option V) : Scope V :=
  let map := (self.maps kind).filter (·.1 != name)
  let restored := match previous with
    | some value => map ++ [(name, value)]
    | none => map
  (self.setMap kind restored).markDirty kind

/-- Remove one entry from a scope map; whether one was removed. -/
def removePair (self : Scope V) (kind : ScopeKind) (name : Name) : Scope V × Bool :=
  let map := (self.maps kind).filter (·.1 != name)
  if map.length = (self.maps kind).length then (self.setMap kind map, false)
  else ((self.setMap kind map).markDirty kind, true)

/-! ## Runs -/

/-- What a script may do to its variables and their locks. -/
inductive Op (V : Type) where
  | set (name : Name) (value : V)
  | setScoped (kind : ScopeKind) (name : Name) (offset : Nat) (value : V)
  | lockvar (name : Name) (depth : Int)
  | unlockvar (name : Name) (depth : Int)
  | replacePair (kind : ScopeKind) (name : Name) (value : V)
  | restorePair (kind : ScopeKind) (name : Name) (previous : Option V)
  | removePair (kind : ScopeKind) (name : Name)

/-- The outcome of an operation; only assignments fail. -/
def outcome (self : Scope V) : Op V → Except EvalError (Scope V)
  | .set name value => self.set name value
  | .setScoped kind name offset value => self.setScoped kind name offset value
  | .lockvar name depth => .ok (self.lockvar name depth)
  | .unlockvar name depth => .ok (self.unlockvar name depth)
  | .replacePair kind name value => .ok (self.replacePair kind name value).1
  | .restorePair kind name previous => .ok (self.restorePair kind name previous)
  | .removePair kind name => .ok (self.removePair kind name).1

/-- The scope after an operation; one that fails leaves it alone. -/
def step (self : Scope V) (op : Op V) : Scope V :=
  match self.outcome op with
  | .ok next => next
  | .error _ => self

/-- A variable: its scope and its name there. -/
abbrev Target := ScopeKind × Name

/-- What a run has done to the variables' locks, whatever marks the code keeps. -/
structure History where
  /-- Locked since it was created, and not unlocked since. -/
  locked : Target → Bool
  /-- The last `:lockvar` or `:unlockvar` of a variable of this name was a lock. -/
  lastLocked : Target → Bool

namespace History

def empty : History where
  locked _ := false
  lastLocked _ := false

/-- What an operation adds to the history; `scope` is the scope it is carried out on. -/
def record (history : History) (scope : Scope V) : Op V → History
  | .lockvar name _ => match scope.resolve name with
    | some target => ⟨Function.update history.locked target true,
        Function.update history.lastLocked target true⟩
    | none => history
  | .unlockvar name _ => match scope.resolve name with
    | some target => ⟨Function.update history.locked target false,
        Function.update history.lastLocked target false⟩
    | none => history
  | .restorePair kind name none
  | .removePair kind name =>
    { history with locked := Function.update history.locked (kind, name) false }
  | _ => history

end History

def refusedAsLocked {α : Type} (result : Except EvalError α) : Bool :=
  match result with
  | .ok _ => false
  | .error error => error.code == "E741" || error.code == "E1122"

/-- An assignment is refused with `E741` or `E1122` exactly when the variable it would overwrite
exists, was locked after it was created and has not been unlocked since. -/
def Right (self : Scope V) (history : History) : Op V → Prop
  | .set name value => refusedAsLocked (self.set name value) = true ↔
    contains (self.maps .local) name = true ∧ history.locked (.local, name) = true
  | .setScoped kind name offset value =>
    refusedAsLocked (self.setScoped kind name offset value) = true ↔
      contains (self.maps kind) name = true ∧ history.locked (kind, name) = true
  | _ => True

instance (self : Scope V) (history : History) (op : Op V) : Decidable (Right self history op) := by
  cases op <;> unfold Right <;> infer_instance

/-- Every assignment of a run is right where it happens. -/
def RightRun (self : Scope V) (history : History) : List (Op V) → Prop
  | [] => True
  | op :: ops => Right self history op ∧ RightRun (self.step op) (history.record self op) ops

instance RightRun.decidable : (self : Scope V) → (history : History) → (ops : List (Op V)) →
    Decidable (RightRun self history ops)
  | _, _, [] => .isTrue trivial
  | self, history, op :: ops =>
    have := RightRun.decidable (self.step op) (history.record self op) ops
    inferInstanceAs (Decidable (_ ∧ _))

/-- An assignment that checks the lock of the variable it overwrites: a bare name resolves to a
variable whose last lock matches that of the `l:` variable, and a scoped name has no lock left over
from a variable that was removed. -/
def Safe (self : Scope V) (history : History) : Op V → Prop
  | .set name _ => match self.resolve name with
    | some target => history.lastLocked target = history.locked (.local, name)
    | none => history.locked (.local, name) = false
  | .setScoped kind name _ _ =>
    if kind = .vim ∨ kind = .argument then history.locked (kind, name) = false
    else contains (self.maps kind) name = true →
      history.lastLocked (kind, name) = history.locked (kind, name)
  | _ => True

/-- Every operation of a run is safe where it happens. -/
def SafeRun (self : Scope V) (history : History) : List (Op V) → Prop
  | [] => True
  | op :: ops => Safe self history op ∧ SafeRun (self.step op) (history.record self op) ops

/-- The marks are the last locks, one each, and a locked variable exists. -/
structure Tracks (scope : Scope V) (history : History) : Prop where
  nodup : (scope.locked.map fun mark => (mark.scope, mark.name)).Nodup
  mem_iff : ∀ target, target ∈ scope.locked.map (fun mark => (mark.scope, mark.name)) ↔
    history.lastLocked target = true
  lastLocked : ∀ target, history.locked target = true → history.lastLocked target = true
  exists' : ∀ target : Target, history.locked target = true →
    contains (scope.maps target.1) target.2 = true

variable {self : Scope V} {history : History}

/-! ### Lookups -/

theorem contains_of_resolve {name : Name} {target : Target} (h : self.resolve name = some target) :
    contains (self.maps target.1) target.2 = true := by
  have hunqualified : ∀ name, resolve.unqualified self name = some target →
      contains (self.maps target.1) target.2 = true := by
    intro name h
    rw [resolve.unqualified, Option.map_eq_some_iff] at h
    obtain ⟨kind, hfind, rfl⟩ := h
    have hfound := List.find?_some hfind
    exact hfound
  have hqualified : ∀ (kind : ScopeKind) (bare : Name),
      (findPair (self.maps kind) bare).map (fun _ => (kind, bare)) = some target →
        contains (self.maps target.1) target.2 = true := by
    intro kind bare h
    rw [Option.map_eq_some_iff] at h
    obtain ⟨pair, hfind, rfl⟩ := h
    show (findPair (self.maps kind) bare).isSome = true
    rw [hfind]
    rfl
  unfold resolve at h
  split at h
  · split at h
    · split at h
      · cases h
      · exact hqualified _ _ h
    · exact hunqualified _ h
  · exact hunqualified _ h

/-- A name written with its scope resolves in that scope only. -/
theorem resolve_written (self : Scope V) (kind : ScopeKind) (name : Name) :
    self.resolve (kind.asStr ++ name)
      = if contains (self.maps kind) name then some (kind, name) else none := by
  show self.resolve (kind.asByte :: ':'.toUInt8 :: name) = _
  simp only [resolve, if_true, ScopeKind.fromByte_asByte]
  by_cases h : contains (self.maps kind) name = true
  · rw [if_pos h]
    obtain ⟨pair, hpair⟩ := Option.isSome_iff_exists.mp h
    rw [hpair]
    rfl
  · rw [if_neg h]
    have hnone : findPair (self.maps kind) name = none := by simpa [contains] using h
    rw [hnone]
    rfl

theorem mark_isSome (self : Scope V) (kind : ScopeKind) (name : Name) :
    (self.mark kind name).isSome = true ↔
      (kind, name) ∈ self.locked.map fun mark => (mark.scope, mark.name) := by
  rw [mark, List.find?_isSome, List.mem_map]
  simp

/-- What an assignment to a name looks at is the mark of the variable the name resolves to. -/
theorem refused_checkAssignable (htracks : Tracks self history) (name : Name) (offset : Nat) :
    refusedAsLocked (self.checkAssignable name offset)
      = ((self.resolve name).map history.lastLocked).getD false := by
  cases hresolve : self.resolve name with
  | none =>
    simp [checkAssignable, hresolve, refusedAsLocked]
  | some target =>
    obtain ⟨kind, bare⟩ := target
    have hcontains : contains (self.maps kind) bare = true := contains_of_resolve hresolve
    obtain ⟨pair, hpair⟩ := Option.isSome_iff_exists.mp hcontains
    have hmark : (self.mark kind bare).isSome = history.lastLocked (kind, bare) := by
      rw [Bool.eq_iff_iff, mark_isSome, htracks.mem_iff]
    simp only [checkAssignable, checkValueLock, checkVariableLock, getScoped, hresolve, hpair,
      Option.isNone_some, Bool.false_eq_true, if_false, Option.map_some, Option.getD_some, ← hmark]
    cases self.mark kind bare with
    | none => rfl
    | some mark => cases hvalue : mark.value <;> simp [hvalue, refusedAsLocked, bind, Except.bind]

theorem set_eq (self : Scope V) (name : Name) (value : V) :
    self.set name value = match self.checkAssignable name 0 with
      | .error error => .error error
      | .ok _ => .ok (self.setMap .local (assign (self.maps .local) name value)) := by
  rw [set]
  cases self.checkAssignable name 0 <;> rfl

theorem setScoped_eq {kind : ScopeKind} (hkind : ¬(kind = .vim ∨ kind = .argument)) (name : Name)
    (offset : Nat) (value : V) :
    self.setScoped kind name offset value = match self.checkAssignable (kind.asStr ++ name) offset with
      | .error error => .error error
      | .ok _ => .ok ((self.setMap kind (assign (self.maps kind) name value)).markDirty kind) := by
  rw [setScoped, if_neg hkind]
  by_cases h : (findPair (self.maps kind) name).isSome = true
  · rw [if_pos h]
    cases self.checkAssignable (kind.asStr ++ name) offset <;> rfl
  · -- a variable that is not there resolves to nothing, and the check passes
    have hnone : self.resolve (kind.asStr ++ name) = none := by
      rw [resolve_written, contains, if_neg h]
    rw [if_neg h, checkAssignable, hnone]
    rfl

theorem refused_set (htracks : Tracks self history) (name : Name) (value : V) :
    refusedAsLocked (self.set name value)
      = ((self.resolve name).map history.lastLocked).getD false := by
  rw [set_eq, ← refused_checkAssignable htracks name 0]
  cases self.checkAssignable name 0 <;> rfl

theorem refused_setScoped (htracks : Tracks self history) {kind : ScopeKind}
    (hkind : ¬(kind = .vim ∨ kind = .argument)) (name : Name) (offset : Nat) (value : V) :
    refusedAsLocked (self.setScoped kind name offset value)
      = (contains (self.maps kind) name && history.lastLocked (kind, name)) := by
  have hcheck := refused_checkAssignable htracks (kind.asStr ++ name) offset
  rw [resolve_written] at hcheck
  have hsame : refusedAsLocked (self.setScoped kind name offset value)
      = refusedAsLocked (self.checkAssignable (kind.asStr ++ name) offset) := by
    rw [setScoped_eq hkind]
    cases self.checkAssignable (kind.asStr ++ name) offset <;> rfl
  rw [hsame, hcheck]
  cases contains (self.maps kind) name <;> rfl

/-- Where the marks are the last locks, an assignment is right exactly if it is safe. -/
theorem right_iff_safe (htracks : Tracks self history) (op : Op V) :
    Right self history op ↔ Safe self history op := by
  cases op with
  | set name value =>
    have hexists := htracks.exists' (.local, name)
    simp only [Right, Safe, refused_set htracks]
    cases hresolve : self.resolve name with
    | none =>
      show (false = true ↔ _) ↔ _
      cases hlocked : history.locked (.local, name)
      · simp
      · simp [hexists hlocked]
    | some target =>
      show (history.lastLocked target = true ↔ _) ↔ _
      cases hlocked : history.locked (.local, name)
      · simp
      · simp [hexists hlocked]
  | setScoped kind name offset value =>
    have hexists := htracks.exists' (kind, name)
    by_cases hkind : kind = .vim ∨ kind = .argument
    · have hrefused : refusedAsLocked (self.setScoped kind name offset value) = false := by
        rw [setScoped, if_pos hkind]
        rfl
      simp only [Right, Safe, if_pos hkind, hrefused]
      cases hlocked : history.locked (kind, name)
      · simp
      · simp [hexists hlocked]
    · simp only [Right, Safe, if_neg hkind, refused_setScoped htracks hkind]
      cases contains (self.maps kind) name
      · simp
      · cases history.lastLocked (kind, name) <;> cases history.locked (kind, name) <;> simp
  | _ => exact Iff.rfl

/-! ### Steps -/

@[simp] theorem locked_markDirty (self : Scope V) (kind : ScopeKind) :
    (self.markDirty kind).locked = self.locked := by
  cases kind <;> rfl

@[simp] theorem maps_markDirty (self : Scope V) (kind : ScopeKind) :
    (self.markDirty kind).maps = self.maps := by
  cases kind <;> rfl

/-- The marks stay where they are when an operation changes a map only. -/
theorem Tracks.setMap (htracks : Tracks self history) {kind : ScopeKind} {map : ScopeMap V}
    {next : Scope V} {history' : History} (hlocked : next.locked = self.locked)
    (hmaps : next.maps = Function.update self.maps kind map)
    (hlast : history'.lastLocked = history.lastLocked)
    (hle : ∀ target, history'.locked target = true → history.locked target = true)
    (hmap : ∀ name, contains (self.maps kind) name = true → history'.locked (kind, name) = true →
      contains map name = true) :
    Tracks next history' := by
  refine ⟨?_, ?_, ?_, ?_⟩
  · rw [hlocked]
    exact htracks.nodup
  · rw [hlocked, hlast]
    exact htracks.mem_iff
  · intro target h
    rw [hlast]
    exact htracks.lastLocked target (hle target h)
  · intro target h
    obtain ⟨kind', name⟩ := target
    have hcontains := htracks.exists' (kind', name) (hle _ h)
    rw [hmaps]
    by_cases hkind : kind' = kind
    · subst hkind
      rw [Function.update_self]
      exact hmap name hcontains h
    · rw [Function.update_of_ne hkind]
      exact hcontains

theorem findIdx?_mark (marks : List LockMark) (kind : ScopeKind) (name : Name) :
    marks.findIdx? (fun mark => mark.scope == kind && mark.name == name)
      = (marks.map fun mark => (mark.scope, mark.name)).findIdx? (· == (kind, name)) := by
  rw [List.findIdx?_map]
  rfl

/-- `:lockvar` and `:unlockvar` set and clear the mark of the variable that the name resolves to. -/
theorem Tracks.setVariableLock (htracks : Tracks self history) {name : Name} {target : Target}
    (hresolve : self.resolve name = some target) (depth : Int) (lock : Bool) :
    Tracks (self.setVariableLock name depth lock)
      ⟨Function.update history.locked target lock, Function.update history.lastLocked target lock⟩ := by
  have hcontains := contains_of_resolve hresolve
  obtain ⟨kind, bare⟩ := target
  obtain ⟨pair, hpair⟩ := Option.isSome_iff_exists.mp hcontains
  have hmaps : (self.setVariableLock name depth lock).maps = self.maps := by
    simp only [Scope.setVariableLock, hresolve]
    split
    · rfl
    · split <;> rfl
  have hkeys : ((self.setVariableLock name depth lock).locked.map fun mark =>
      (mark.scope, mark.name)).Nodup ∧
        ∀ other, other ∈ (self.setVariableLock name depth lock).locked.map
          (fun mark => (mark.scope, mark.name)) ↔
            Function.update history.lastLocked (kind, bare) lock other = true := by
    have hnodup := htracks.nodup
    have hmem := htracks.mem_iff
    simp only [Scope.setVariableLock, hresolve]
    simp only at hpair
    simp only [hpair, findIdx?_mark]
    cases hposition : (self.locked.map fun mark => (mark.scope, mark.name)).findIdx?
        (· == (kind, bare)) with
    | none =>
      have hfresh : (kind, bare) ∉ self.locked.map fun mark => (mark.scope, mark.name) := by
        intro h
        rw [List.findIdx?_eq_none_iff] at hposition
        simpa using hposition _ h
      cases lock with
      | true =>
        simp only [List.map_append, List.map_cons, List.map_nil]
        refine ⟨by simpa using hnodup.concat hfresh, ?_⟩
        intro other
        by_cases heq : other = (kind, bare)
        · simp [heq]
        · rw [Function.update_of_ne heq, ← hmem]
          simp [heq]
      | false =>
        refine ⟨hnodup, ?_⟩
        intro other
        by_cases heq : other = (kind, bare)
        · simpa [heq] using hfresh
        · rw [Function.update_of_ne heq, ← hmem]
    | some position =>
      have hkey : (kind, bare) ∈ self.locked.map fun mark => (mark.scope, mark.name) := by
        rw [List.findIdx?_eq_some_iff_getElem] at hposition
        obtain ⟨hlt, hname, -⟩ := hposition
        have heq := beq_iff_eq.mp hname
        exact heq ▸ List.getElem_mem hlt
      cases lock with
      | true =>
        simp only
        rw [map_modify_eq (by intro mark; rfl)]
        refine ⟨hnodup, ?_⟩
        intro other
        by_cases heq : other = (kind, bare)
        · simpa [heq] using hkey
        · rw [Function.update_of_ne heq, ← hmem]
      | false =>
        have herase : (self.locked.eraseIdx position).map (fun mark => (mark.scope, mark.name))
            = (self.locked.map fun mark => (mark.scope, mark.name)).erase (kind, bare) := by
          rw [List.erase_eq_eraseIdx, List.idxOf?, hposition]
          exact (List.eraseIdx_map _ _ _).symm
        simp only
        rw [herase]
        refine ⟨hnodup.erase _, ?_⟩
        intro other
        rw [hnodup.mem_erase_iff]
        by_cases heq : other = (kind, bare)
        · simp [heq]
        · rw [Function.update_of_ne heq, ← hmem]
          simp [heq]
  refine ⟨hkeys.1, hkeys.2, ?_, ?_⟩
  · intro other
    by_cases heq : other = (kind, bare)
    · subst heq
      simp
    · simpa [heq] using htracks.lastLocked other
  · intro other
    rw [hmaps]
    by_cases heq : other = (kind, bare)
    · subst heq
      exact fun _ => hcontains
    · simpa [heq] using htracks.exists' other

/-- Every operation keeps the marks and the history together. -/
theorem Tracks.step (htracks : Tracks self history) (op : Op V) :
    Tracks (self.step op) (history.record self op) := by
  -- an assignment that is carried out keeps every variable
  have hassign : ∀ (kind : ScopeKind) (name : Name) (value : V) (next : Scope V),
      next.locked = self.locked →
        next.maps = Function.update self.maps kind (assign (self.maps kind) name value) →
          Tracks next history := by
    intro kind name value next hlocked hmaps
    refine htracks.setMap hlocked hmaps rfl (fun _ h => h) ?_
    intro other hother _
    rw [contains_assign, hother, Bool.true_or]
  -- a variable that is put back is there afterwards
  have hpush : ∀ (kind : ScopeKind) (name : Name) (value : V) (next : Scope V),
      next.locked = self.locked →
        next.maps = Function.update self.maps kind
          ((self.maps kind).filter (·.1 != name) ++ [(name, value)]) →
          Tracks next history := by
    intro kind name value next hlocked hmaps
    refine htracks.setMap hlocked hmaps rfl (fun _ h => h) ?_
    intro other hother _
    rw [contains_push, contains_filter, hother]
    by_cases heq : other = name <;> simp [heq]
  -- a variable that is removed is not locked any more
  have hremove : ∀ (kind : ScopeKind) (name : Name) (next : Scope V),
      next.locked = self.locked →
        next.maps = Function.update self.maps kind ((self.maps kind).filter (·.1 != name)) →
          Tracks next { history with locked := Function.update history.locked (kind, name) false } := by
    intro kind name next hlocked hmaps
    refine htracks.setMap hlocked hmaps rfl ?_ ?_
    · intro target h
      by_cases heq : target = (kind, name)
      · simp [heq] at h
      · simpa [heq] using h
    · intro other hother h
      have hne : other ≠ name := by
        rintro rfl
        simp at h
      rw [contains_filter, hother]
      simp [hne]
  cases op with
  | set name value =>
    show Tracks (match self.set name value with | .ok next => next | .error _ => self) history
    rw [set_eq]
    cases self.checkAssignable name 0 with
    | error error => exact htracks
    | ok _ => exact hassign .local name value _ rfl rfl
  | setScoped kind name offset value =>
    show Tracks (match self.setScoped kind name offset value with
      | .ok next => next | .error _ => self) history
    by_cases hkind : kind = .vim ∨ kind = .argument
    · rw [setScoped, if_pos hkind]
      exact htracks
    · rw [setScoped_eq hkind]
      cases self.checkAssignable (kind.asStr ++ name) offset with
      | error error => exact htracks
      | ok _ => exact hassign kind name value _ (by simp [Scope.setMap]) (by simp [Scope.setMap])
  | lockvar name depth =>
    show Tracks (self.setVariableLock name depth true) _
    cases hresolve : self.resolve name with
    | none => simpa [Scope.setVariableLock, History.record, hresolve] using htracks
    | some target =>
      simp only [History.record, hresolve]
      exact htracks.setVariableLock hresolve depth true
  | unlockvar name depth =>
    show Tracks (self.setVariableLock name depth false) _
    cases hresolve : self.resolve name with
    | none => simpa [Scope.setVariableLock, History.record, hresolve] using htracks
    | some target =>
      simp only [History.record, hresolve]
      exact htracks.setVariableLock hresolve depth false
  | replacePair kind name value =>
    exact hpush kind name value _ (by simp [Scope.step, outcome, replacePair, Scope.setMap])
      (by simp [Scope.step, outcome, replacePair, Scope.setMap])
  | restorePair kind name previous =>
    cases previous with
    | some value =>
      exact hpush kind name value _ (by simp [Scope.step, outcome, restorePair, Scope.setMap])
        (by simp [Scope.step, outcome, restorePair, Scope.setMap])
    | none =>
      exact hremove kind name _ (by simp [Scope.step, outcome, restorePair, Scope.setMap])
        (by simp [Scope.step, outcome, restorePair, Scope.setMap])
  | removePair kind name =>
    refine hremove kind name _ ?_ ?_
    · simp only [Scope.step, outcome, removePair]
      split <;> simp [Scope.setMap]
    · simp only [Scope.step, outcome, removePair]
      split <;> simp [Scope.setMap]

theorem Tracks.ofMaps (maps : ScopeKind → ScopeMap V) : Tracks (Scope.ofMaps maps) .empty where
  nodup := List.nodup_nil
  mem_iff := by simp [Scope.ofMaps, History.empty]
  lastLocked := by simp [History.empty]
  exists' := by simp [History.empty]

theorem Tracks.runs (htracks : Tracks self history) (ops : List (Op V)) :
    RightRun self history ops ↔ SafeRun self history ops := by
  induction ops generalizing self history with
  | nil => exact Iff.rfl
  | cons op ops ih => exact and_congr (right_iff_safe htracks op) (ih (htracks.step op))

/-- **Locks belong to variables.** In every run from scopes with nothing locked, every assignment is
refused as locked exactly when the variable it would overwrite is locked, if and only if every
assignment of the run is safe. -/
theorem rightRun_iff (maps : ScopeKind → ScopeMap V) (ops : List (Op V)) :
    RightRun (Scope.ofMaps maps) .empty ops ↔ SafeRun (Scope.ofMaps maps) .empty ops :=
  (Tracks.ofMaps maps).runs ops

/-- `g:x` is locked, removed and created again: it starts locked. -/
def recreated : List (Op Nat) :=
  [.setScoped .global ['x'.toUInt8] 0 1, .lockvar ['g'.toUInt8, ':'.toUInt8, 'x'.toUInt8] 2,
    .removePair .global ['x'.toUInt8], .setScoped .global ['x'.toUInt8] 0 2,
    .setScoped .global ['x'.toUInt8] 0 3]

/-- `g:x` is locked, and `l:x` cannot be created. -/
def shadowed : List (Op Nat) :=
  [.setScoped .global ['x'.toUInt8] 0 1, .lockvar ['g'.toUInt8, ':'.toUInt8, 'x'.toUInt8] 2,
    .set ['x'.toUInt8] 2]

theorem not_rightRun_recreated :
    ¬ RightRun (Scope.ofMaps fun _ => []) .empty recreated ∧
      ¬ RightRun (Scope.ofMaps fun _ => []) .empty shadowed := by
  decide

end Scope

end Oxvim.Eval.Scopes
