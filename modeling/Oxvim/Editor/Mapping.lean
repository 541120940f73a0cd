import Oxvim.Editor.Keys
import Oxvim.Editor.Session

/-!
# Mappings

The table of the `:map` family: an entry maps one left-hand side in one scope, for a set of modes. Later
definitions take modes away from earlier ones, and an entry without modes is dropped.

What a mapping does when it runs is not looked at here: `α` is its action, with the description and the
text that are kept for listings.
-/

namespace Oxvim.Editor

open Lib

/-! ## Modes -/

/-- One mapping mode. -/
inductive MapMode where
  | normal
  | visual
  | operatorPending
  | commandLine
  | insert
  | langArg
  | select
  | terminal
  deriving DecidableEq, Repr

/-- The `MODE_*` bit of a mode. -/
def MapMode.bit : MapMode → BitVec 16
  | normal => 0x01
  | visual => 0x02
  | operatorPending => 0x04
  | commandLine => 0x08
  | insert => 0x10
  | langArg => 0x20
  | select => 0x40
  | terminal => 0x80

/-- A set of mapping modes. -/
structure MapModes where
  bits : BitVec 16
  supported : bits &&& 0xff00 = 0
  deriving DecidableEq

namespace MapModes

def none : MapModes := ⟨0, by decide⟩

def all : MapModes := ⟨0xff, by decide⟩

def one (mode : MapMode) : MapModes := ⟨mode.bit, by cases mode <;> decide⟩

/-- `BitOr`. -/
def or (self other : MapModes) : MapModes where
  bits := self.bits ||| other.bits
  supported := by
    rw [BitVec.and_or_distrib_right, self.supported, other.supported]
    rfl

def contains (self : MapModes) (mode : MapMode) : Bool := self.bits &&& mode.bit != 0

def intersects (self other : MapModes) : Bool := self.bits &&& other.bits != 0

/-- Removes every mode in `other`. -/
def without (self other : MapModes) : MapModes where
  bits := self.bits &&& ~~~other.bits
  supported := by
    rw [BitVec.and_assoc, BitVec.and_comm (~~~other.bits), ← BitVec.and_assoc, self.supported]
    exact BitVec.zero_and

def isEmpty (self : MapModes) : Bool := self.bits == 0

/-! ### Modes as members -/

/-- The place of a mode's bit. -/
def place : MapMode → Fin 8
  | .normal => 0
  | .visual => 1
  | .operatorPending => 2
  | .commandLine => 3
  | .insert => 4
  | .langArg => 5
  | .select => 6
  | .terminal => 7

theorem bit_eq (mode : MapMode) : mode.bit = BitVec.twoPow 16 (place mode) := by
  cases mode <;> decide

theorem place_surjective : Function.Surjective place := by
  intro i
  fin_cases i
  · exact ⟨.normal, rfl⟩
  · exact ⟨.visual, rfl⟩
  · exact ⟨.operatorPending, rfl⟩
  · exact ⟨.commandLine, rfl⟩
  · exact ⟨.insert, rfl⟩
  · exact ⟨.langArg, rfl⟩
  · exact ⟨.select, rfl⟩
  · exact ⟨.terminal, rfl⟩

theorem contains_eq (a : MapModes) (mode : MapMode) : a.contains mode = a.bits.getLsbD (place mode) := by
  rw [contains, bit_eq, BitVec.and_twoPow]
  cases a.bits.getLsbD (place mode) with
  | false => rfl
  | true =>
    rw [if_pos rfl]
    cases mode <;> rfl

/-- A set of bits without any mode is empty. -/
theorem bits_eq_zero_iff {bits : BitVec 16} (hbits : bits &&& 0xff00 = 0) :
    bits = 0 ↔ ∀ mode : MapMode, bits.getLsbD (place mode) = false := by
  constructor
  · rintro rfl mode
    exact BitVec.getLsbD_zero
  · intro h
    apply BitVec.eq_of_getLsbD_eq
    intro i hi
    rw [show BitVec.getLsbD 0 i = false from BitVec.getLsbD_zero]
    by_cases hlow : i < 8
    · obtain ⟨mode, hmode⟩ := place_surjective ⟨i, hlow⟩
      have hi' := h mode
      rw [hmode] at hi'
      exact hi'
    · have hhigh := congrArg (fun b : BitVec 16 => b.getLsbD i) hbits
      have hmask : (0xff00 : BitVec 16).getLsbD i = true := by
        interval_cases i <;> first | omega | decide
      simp only [BitVec.getLsbD_and, hmask, Bool.and_true] at hhigh
      exact hhigh.trans BitVec.getLsbD_zero

theorem isEmpty_iff {a : MapModes} : a.isEmpty = true ↔ ∀ mode, a.contains mode = false := by
  rw [isEmpty, beq_iff_eq, bits_eq_zero_iff a.supported]
  simp only [contains_eq]

theorem contains_without (a b : MapModes) (mode : MapMode) :
    (a.without b).contains mode = (a.contains mode && !b.contains mode) := by
  have hplace : (place mode : Nat) < 16 := by omega
  rw [contains_eq, contains_eq, contains_eq, without, BitVec.getLsbD_and, BitVec.getLsbD_not,
    decide_eq_true hplace, Bool.true_and]

theorem intersects_iff {a b : MapModes} :
    a.intersects b = true ↔ ∃ mode, a.contains mode = true ∧ b.contains mode = true := by
  have hbits : (a.bits &&& b.bits) &&& 0xff00 = 0 := by
    rw [BitVec.and_assoc, b.supported]
    exact BitVec.and_zero
  rw [intersects, bne_iff_ne, ne_eq, bits_eq_zero_iff hbits]
  push Not
  simp only [BitVec.getLsbD_and, contains_eq, ne_eq, Bool.not_eq_false, Bool.and_eq_true]

@[simp] theorem contains_one (mode mode' : MapMode) : (one mode).contains mode' = decide (mode = mode') := by
  cases mode <;> cases mode' <;> rfl

end MapModes

/-! ## The table -/

/-- Global or buffer-local scope. -/
inductive MapScope where
  | global
  | buffer (buffer : BufHandle)
  deriving DecidableEq

/-- Registration flags. -/
structure MapFlags where
  bits : UInt8
  deriving DecidableEq

namespace MapFlags

/-- Produced keys may themselves be mapped. -/
def REMAP : MapFlags := ⟨1⟩

/-- Prefer a complete match immediately despite longer candidates. -/
def NOWAIT : MapFlags := ⟨2⟩

def contains (self other : MapFlags) : Bool := self.bits &&& other.bits == other.bits

def set (self flag : MapFlags) (enabled : Bool) : MapFlags :=
  if enabled then ⟨self.bits ||| flag.bits⟩ else ⟨self.bits &&& ~~~flag.bits⟩

end MapFlags

/-- What `:map` records of a mapping besides its left-hand side and its action. -/
structure MappingOptions where
  modes : MapModes
  scope : MapScope
  flags : MapFlags

variable {α : Type}

/-- One registered mapping. -/
structure Mapping (α : Type) where
  lhs : Keys
  action : α
  options : MappingOptions
  sequence : Nat

/-- Prefix lookup result. -/
inductive Lookup (α : Type) where
  /-- longest complete mapping, and the encoded bytes to consume -/
  | exact (mapping : Mapping α) (count : Nat)
  /-- more bytes may select a longer mapping -/
  | prefixed (mapping : Option (Mapping α))
  | none

/-- Invalid mapping request. -/
inductive MappingError where
  | emptyLhs
  | emptyModes
  deriving DecidableEq

/-- The mapping table. -/
structure Mappings (α : Type) where
  entries : List (Mapping α)
  nextSequence : Nat

namespace Mappings

def new : Mappings α where
  entries := []
  nextSequence := 1

def conflicts (self : Mappings α) (lhs : Keys) (modes : MapModes) (scope : MapScope) : Bool :=
  self.entries.any fun mapping =>
    mapping.lhs = lhs && mapping.options.scope = scope && mapping.options.modes.intersects modes

/-- Takes modes away from the selected entries, and drops those that have none left. -/
def withdraw (entries : List (Mapping α)) (selected : Mapping α → Bool) (modes : MapModes) :
    List (Mapping α) :=
  (entries.map fun mapping =>
    if selected mapping then
      { mapping with options := { mapping.options with modes := mapping.options.modes.without modes } }
    else mapping).filter fun mapping => !mapping.options.modes.isEmpty

/-- Defines or replaces overlapping mode bits for one left-hand side and scope. -/
def map (self : Mappings α) (lhs : Keys) (action : α) (options : MappingOptions) :
    Except MappingError (Mappings α) :=
  if lhs.isEmpty then .error .emptyLhs
  else if options.modes.isEmpty then .error .emptyModes
  else
    let entries := withdraw self.entries
      (fun mapping => mapping.lhs = lhs && mapping.options.scope = options.scope) options.modes
    let sequence := self.nextSequence
    .ok {
      entries := entries ++ [{ lhs, action, options, sequence }]
      nextSequence := satAdd self.nextSequence 1 }

def noremap (self : Mappings α) (lhs : Keys) (action : α) (options : MappingOptions) :
    Except MappingError (Mappings α) :=
  self.map lhs action { options with flags := options.flags.set .REMAP false }

/-- Removes matching mode bits from one left-hand side and scope, and tells from how many entries. -/
def unmap (self : Mappings α) (lhs : Keys) (modes : MapModes) (scope : MapScope) : Mappings α × Nat :=
  let selected := fun mapping : Mapping α =>
    mapping.lhs = lhs && mapping.options.scope = scope && mapping.options.modes.intersects modes
  ({ self with entries := withdraw self.entries selected modes }, self.entries.countP selected)

/-- `mapclear` for selected modes and one scope. -/
def mapclear (self : Mappings α) (modes : MapModes) (scope : MapScope) : Mappings α × Nat :=
  let selected := fun mapping : Mapping α =>
    mapping.options.scope = scope && mapping.options.modes.intersects modes
  ({ self with entries := withdraw self.entries selected modes }, self.entries.countP selected)

def exactInScope (self : Mappings α) (lhs : List UInt8) (modes : MapModes) (scope : MapScope) :
    Option (Mapping α) :=
  self.entries.find? fun mapping =>
    mapping.options.scope = scope && mapping.options.modes.intersects modes && mapping.lhs.bytes = lhs

/-- The mapping whose left-hand side is exactly `lhs`, and whether it is local. -/
def findExact (self : Mappings α) (lhs : List UInt8) (modes : MapModes) (buffer : Option BufHandle) :
    Option (Mapping α × Bool) :=
  (buffer.bind fun buffer =>
    (self.exactInScope lhs modes (.buffer buffer)).map (·, true)).orElse fun _ =>
      (self.exactInScope lhs modes .global).map (·, false)

/-- The longest match so far, and whether a longer left-hand side was seen. -/
structure Candidates (α : Type) where
  full : Option (Mapping α)
  longer : Bool

/-- Looks at one entry of the scope and mode. -/
def Candidates.consider (input : List UInt8) (self : Candidates α) (mapping : Mapping α) : Candidates α :=
  let lhs := mapping.lhs.bytes
  { longer := self.longer || (input.isPrefixOf lhs && input.length < lhs.length)
    full :=
      if lhs.isPrefixOf input && self.full.all fun found =>
          found.lhs.len < lhs.length ||
            (lhs.length = found.lhs.len && found.sequence < mapping.sequence)
      then some mapping
      else self.full }

def lookupScope (self : Mappings α) (input : List UInt8) (mode : MapMode) (scope : MapScope) : Lookup α :=
  let candidates := (self.entries.filter fun mapping =>
    mapping.options.scope = scope && mapping.options.modes.contains mode).foldl
      (Candidates.consider input) ⟨none, false⟩
  if candidates.longer && candidates.full.all fun mapping => !mapping.options.flags.contains .NOWAIT then
    .prefixed candidates.full
  else
    match candidates.full with
    | some mapping => .exact mapping mapping.lhs.len
    | none => .none

/-- Looks up the typeahead bytes, in the scope of the buffer first. -/
def lookup (self : Mappings α) (typeahead : List UInt8) (mode : MapMode) (buffer : Option BufHandle) :
    Lookup α :=
  match buffer with
  | some buffer =>
    match self.lookupScope typeahead mode (.buffer buffer) with
    | .none => self.lookupScope typeahead mode .global
    | found => found
  | none => self.lookupScope typeahead mode .global

/-- Removes the local mappings of a wiped buffer. -/
def removeBuffer (self : Mappings α) (buffer : BufHandle) : Mappings α :=
  { self with entries := self.entries.filter fun mapping => mapping.options.scope ≠ .buffer buffer }

end Mappings

end Oxvim.Editor
