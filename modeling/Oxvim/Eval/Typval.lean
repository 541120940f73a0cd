import Oxvim.Lib.Utf8
import Oxvim.Lib.Walk

/-!
# Values and their comparison

Vimscript values. Lists and dictionaries are shared references into a heap and may contain
themselves; functions carry their bound arguments by value.

There are two comparisons. `typvalEq` is the `==` of values, `equalValues` that of expressions, which
can ignore case and gives up at a depth limit. Both cut cycles with a set of the pairs of containers
they have met. A pair of functions is compared by the `==` of its parts, and each part begins with a
set of its own. The comparisons run over fuel, as nothing bounds the number of functions met inside
functions.
-/

namespace Oxvim.Eval

open Lib Lib.Walk

inductive Special where
  | null
  deriving DecidableEq, Repr

/-- A function reference: a plain named function or a registered closure. -/
structure Funcref (τ : Type) where
  name : List UInt8
  /-- Bound arguments. -/
  args : List τ
  /-- Optional bound self dictionary. -/
  dict : Option (List (List UInt8 × τ))
  registry : Option UInt64

/-- A Vimscript value; `ι` and `κ` are the references to lists and to dictionaries. -/
inductive Typval (ι κ : Type) where
  | number (value : Int64)
  | float (bits : UInt64)
  | string (text : List UInt8)
  | blob (bytes : List UInt8)
  | list (ref : ι)
  | dict (ref : κ)
  | funcref (function : Funcref (Typval ι κ))
  /-- Closure or partially-bound function. -/
  | partialFunc (function : Funcref (Typval ι κ))
  | bool (value : Bool)
  | special (value : Special)
  | channel (id : UInt64)
  | job (id : UInt64)

structure DictEntry (ι κ : Type) where
  key : List UInt8
  value : Typval ι κ

/-- What the lists and dictionaries hold. -/
structure Heap (ι κ : Type) where
  items : ι → List (Typval ι κ)
  entries : κ → List (DictEntry ι κ)
  keys_nodup : ∀ d, ((entries d).map (·.key)).Nodup

/-! ## Bytes -/

/-- Length of the UTF-8 sequence that starts with `lead`, 1 for an invalid lead. -/
def utf8CharLen (lead : UInt8) : Nat :=
  if lead < 0x80 then 1
  else if 0xC2 ≤ lead ∧ lead ≤ 0xDF then 2
  else if 0xE0 ≤ lead ∧ lead ≤ 0xEF then 3
  else if 0xF0 ≤ lead ∧ lead ≤ 0xF4 then 4
  else 1

theorem utf8CharLen_pos (lead : UInt8) : 0 < utf8CharLen lead := by
  unfold utf8CharLen
  split_ifs <;> decide

/-- Lowercase fold of a byte string. Bytes that do not begin a valid sequence are kept. -/
def foldBytes (toLowercase : Char → List Char) : List UInt8 → List UInt8
  | [] => []
  | byte :: rest =>
    let len := min (utf8CharLen byte) (byte :: rest).length
    match Utf8.decode? ((byte :: rest).take len) with
    | some text =>
      Utf8.encode (text.flatMap toLowercase) ++ foldBytes toLowercase ((byte :: rest).drop len)
    | none => byte :: foldBytes toLowercase rest
termination_by bytes => bytes.length
decreasing_by
  · have hpos := utf8CharLen_pos byte
    simp only [List.length_drop, List.length_cons]
    omega
  · simp

def orderingI8 : Ordering → Int
  | .lt => -1
  | .eq => 0
  | .gt => 1

def compareBytes (toLowercase : Char → List Char) (lhs rhs : List UInt8) (ignoreCase : Bool) : Int :=
  if !ignoreCase then
    match (lhs.zip rhs).find? fun pair => pair.1 ≠ pair.2 with
    | some (left, right) => if left < right then -1 else 1
    | none => orderingI8 (compare lhs.length rhs.length)
  else orderingI8 (compare (foldBytes toLowercase lhs) (foldBytes toLowercase rhs))

/-! ## Scalars and functions -/

/-- An IEEE double that is not a number. -/
def isNan (bits : UInt64) : Bool :=
  bits &&& 0x7FFFFFFFFFFFFFFF > 0x7FF0000000000000

/-- `==` of IEEE doubles: a NaN differs from everything and the two zeros are equal. -/
def floatEq (a b : UInt64) : Bool :=
  !isNan a && !isNan b && (a == b || a <<< 1 == 0 && b <<< 1 == 0)

section Functions

variable {ι κ : Type} (eq : Typval ι κ → Typval ι κ → Option Bool)

/-- `&&` of comparisons that may not end. -/
def andThen (first second : Option Bool) : Option Bool :=
  first.bind fun holds => if holds then second else some false

/-- Elements one after another, up to the first pair that differs. -/
def pairsEq : List (Typval ι κ × Typval ι κ) → Option Bool
  | [] => some true
  | pair :: pairs => andThen (eq pair.1 pair.2) (pairsEq pairs)

def argsEq (a b : List (Typval ι κ)) : Option Bool :=
  if a.length ≠ b.length then some false else pairsEq eq (a.zip b)

def boundPairsEq : List ((List UInt8 × Typval ι κ) × (List UInt8 × Typval ι κ)) → Option Bool
  | [] => some true
  | pair :: pairs =>
    andThen (andThen (some (pair.1.1 == pair.2.1)) (eq pair.1.2 pair.2.2)) (boundPairsEq pairs)

def boundEq : Option (List (List UInt8 × Typval ι κ)) → Option (List (List UInt8 × Typval ι κ)) →
    Option Bool
  | none, none => some true
  | some a, some b => if a.length ≠ b.length then some false else boundPairsEq eq (a.zip b)
  | _, _ => some false

/-- Field by field, in their order. -/
def funcrefEq (a b : Funcref (Typval ι κ)) : Option Bool :=
  andThen (some (a.name == b.name)) <|
    andThen (argsEq eq a.args b.args) <|
      andThen (boundEq eq a.dict b.dict) (some (a.registry == b.registry))

/-- Values other than two lists or two dictionaries. -/
def leafEq : Typval ι κ × Typval ι κ → Option Bool
  | (.number a, .number b) => some (a == b)
  | (.float a, .float b) => some (floatEq a b)
  | (.string a, .string b) => some (a == b)
  | (.blob a, .blob b) => some (a == b)
  | (.bool a, .bool b) => some (a == b)
  | (.special a, .special b) => some (a == b)
  | (.channel a, .channel b) => some (a == b)
  | (.job a, .job b) => some (a == b)
  | (.funcref a, .funcref b) => funcrefEq eq a b
  | (.partialFunc a, .partialFunc b) => funcrefEq eq a b
  | _ => some false

end Functions

/-! ## Containers -/

variable {ι κ : Type}

/-- A pair of lists or of dictionaries, by identity. -/
abbrev Pair (ι κ : Type) := ι × ι ⊕ κ × κ

def pairKey : Typval ι κ × Typval ι κ → Option (Pair ι κ)
  | (.list a, .list b) => some (.inl (a, b))
  | (.dict a, .dict b) => some (.inr (a, b))
  | _ => none

/-- Pairs of containers: of equal length, items by position and entries by the keys on the left. -/
def containers (heap : Heap ι κ) : Keyed (Typval ι κ × Typval ι κ) (Pair ι κ) where
  key := pairKey
  check
    | (.list a, .list b) => (heap.items a).length = (heap.items b).length
    | (.dict a, .dict b) => (heap.entries a).length = (heap.entries b).length
    | _ => true
  parts
    | (.list a, .list b) => ((heap.items a).zip (heap.items b)).map some
    | (.dict a, .dict b) => (heap.entries a).map fun entry =>
      ((heap.entries b).find? (·.key = entry.key)).map fun other => (entry.value, other.value)
    | _ => []
  key_inj := by
    intro x y k hx hy
    obtain ⟨x₁, x₂⟩ := x
    obtain ⟨y₁, y₂⟩ := y
    cases x₁ <;> cases x₂ <;> cases hx <;> cases y₁ <;> cases y₂ <;> cases hy <;> rfl

variable [DecidableEq ι] [DecidableEq κ] (heap : Heap ι κ)

/-- `impl PartialEq for Typval`. -/
def typvalEq : (fuel : Nat) → Typval ι κ → Typval ι κ → Option Bool
  | 0, _, _ => none
  | fuel + 1, left, right =>
    match walk (containers heap) (leafEq (typvalEq fuel)) (fun _ => (none : Option Empty)) fuel 0 ∅
      (left, right) with
    | some (.ok (equal, _)) => some equal
    | _ => none

structure EvalError where
  code : String
  offset : Nat
  message : String
  deriving DecidableEq, Repr

/-- The leaves of `equal_values`: strings by `compare_bytes`, all else by `==`. -/
def valueEq (toLowercase : Char → List Char) (ignoreCase : Bool) (fuel : Nat) :
    Typval ι κ × Typval ι κ → Option Bool
  | (.string left, .string right) =>
    some (compareBytes toLowercase left right ignoreCase == 0)
  | (left, right) => typvalEq heap fuel left right

/-- Comparison in expressions, with a depth limit. -/
def equalValues (toLowercase : Char → List Char) (fuel : Nat) (lhs rhs : Typval ι κ)
    (ignoreCase : Bool) (depth maximum : Nat) : Option (Except EvalError Bool) :=
  (walk (containers heap) (valueEq heap toLowercase ignoreCase fuel)
    (fun depth => if depth ≥ maximum then
      some ⟨"E1169", 0, "value comparison nesting is too deep"⟩ else none)
    fuel depth ∅ (lhs, rhs)).map fun outcome => outcome.map (·.1)

end Oxvim.Eval
