import Oxvim.Lib.Latest

/-!
# Merging ShaDa streams

A ShaDa file is a stream of entries, each with a type, a time and a MessagePack value. Two writers are
merged by keeping, for each identity, the entry with the newer timestamp. The identity of an entry is
its type and those fields of its value that name the thing it is about, as bytes.

How a MessagePack value is written is left to `writeValue`; only that it is a function of the value
matters here.
-/

namespace Oxvim.Text

open Lib

/-- A MessagePack value. -/
inductive MsgpackValue where
  | nil
  | boolean (value : Bool)
  | integer (value : Int)
  | f32 (bits : UInt32)
  | f64 (bits : UInt64)
  | string (bytes : List UInt8)
  | binary (bytes : List UInt8)
  | array (items : List MsgpackValue)
  | map (entries : List (MsgpackValue × MsgpackValue))
  | ext (kind : Int) (bytes : List UInt8)

namespace MsgpackValue

def asArray : MsgpackValue → Option (List MsgpackValue)
  | array items => some items
  | _ => none

def asMap : MsgpackValue → Option (List (MsgpackValue × MsgpackValue))
  | map entries => some entries
  | _ => none

/-- The bytes of a string or binary value. -/
def asSlice : MsgpackValue → Option (List UInt8)
  | string bytes => some bytes
  | binary bytes => some bytes
  | _ => none

end MsgpackValue

/-- Known ShaDa entry types. -/
inductive EntryType where
  | header
  | searchPattern
  | subString
  | history
  | register
  | variable
  | globalMark
  | jump
  | bufferList
  | localMark
  | change
  deriving DecidableEq, Repr

def EntryType.fromRaw (raw : UInt64) : Option EntryType :=
  if raw = 1 then some header
  else if raw = 2 then some searchPattern
  else if raw = 3 then some subString
  else if raw = 4 then some history
  else if raw = 5 then some register
  else if raw = 6 then some .variable
  else if raw = 7 then some globalMark
  else if raw = 8 then some jump
  else if raw = 9 then some bufferList
  else if raw = 10 then some localMark
  else if raw = 11 then some change
  else none

/-- One ShaDa stream entry. Unknown types are retained. -/
structure ShaDaEntry where
  typeId : UInt64
  timestamp : UInt64
  data : MsgpackValue

/-- The known entry type, if any. -/
def ShaDaEntry.kind (self : ShaDaEntry) : Option EntryType := EntryType.fromRaw self.typeId

/-- A sequence of ShaDa entries in stream order. -/
structure ShaDa where
  entries : List ShaDaEntry

/-- `u64::to_be_bytes`. -/
def toBeBytes (n : UInt64) : List UInt8 :=
  [56, 48, 40, 32, 24, 16, 8, 0].map fun shift : UInt64 => (n >>> shift).toUInt8

def arrayValue (value : MsgpackValue) (index : Nat) : Option MsgpackValue :=
  value.asArray.bind (·[index]?)

/-- The value of a field that is named by a string or by binary data. -/
def mapValue (value : MsgpackValue) (key : List UInt8) : Option MsgpackValue :=
  value.asMap.bind fun entries =>
    (entries.find? fun entry => entry.1.asSlice == some key).map Prod.snd

section

variable (writeValue : MsgpackValue → List UInt8)

/-- Appends a value where there is one. -/
def appendField (bytes : List UInt8) (value : Option MsgpackValue) : List UInt8 :=
  value.elim bytes fun value => bytes ++ writeValue value

/-- The identity of an entry. -/
def mergeKey (entry : ShaDaEntry) : List UInt8 :=
  let key := toBeBytes entry.typeId
  match entry.kind with
  | some .header | some .subString | some .bufferList => key
  | some .searchPattern =>
    -- "ss", the pattern of the last substitute
    key ++ writeValue ((mapValue entry.data [115, 115]).getD (.boolean false))
  | some .register | some .globalMark => appendField writeValue key (mapValue entry.data [110])
  | some .localMark =>
    appendField writeValue (appendField writeValue key (mapValue entry.data [102]))
      (mapValue entry.data [110])
  | some .variable => appendField writeValue key (arrayValue entry.data 0)
  | some .history =>
    appendField writeValue (appendField writeValue key (arrayValue entry.data 0))
      (arrayValue entry.data 1)
  | some .jump | some .change | none => key ++ writeValue entry.data

/-- The order of a merged stream, by type and timestamp. -/
def ShaDaEntry.le (a b : ShaDaEntry) : Bool :=
  a.typeId < b.typeId ∨ a.typeId = b.typeId ∧ a.timestamp ≤ b.timestamp

namespace ShaDa

/-- Merges two writers, selecting the newer timestamp for each identity. -/
def merge (self other : ShaDa) : ShaDa where
  entries := Latest.merge (mergeKey writeValue) (·.timestamp.toNat) ShaDaEntry.le self.entries
    other.entries

/-! ## Merging is lawful -/

variable (a b c : ShaDa)

/-- The entries with a key. -/
def withKey (self : ShaDa) (key : List UInt8) : List ShaDaEntry :=
  self.entries.filter (mergeKey writeValue · = key)

/-- The merged stream has one entry for a key that occurs, the last of those with the newest
timestamp. -/
theorem merge_withKey {key : List UInt8}
    (hkey : ∃ entry ∈ a.entries ++ b.entries, mergeKey writeValue entry = key) :
    ∃ entry before after, (merge writeValue a b).withKey writeValue key = [entry] ∧
      a.withKey writeValue key ++ b.withKey writeValue key = before ++ entry :: after ∧
      (∀ earlier ∈ before, earlier.timestamp ≤ entry.timestamp) ∧
      ∀ later ∈ after, later.timestamp < entry.timestamp := by
  obtain ⟨entry, hentry, hkeyed⟩ := hkey
  have hne : (a.entries ++ b.entries).filter (mergeKey writeValue · = key) ≠ [] :=
    List.ne_nil_of_mem (List.mem_filter.mpr ⟨hentry, decide_eq_true hkeyed⟩)
  obtain ⟨newest, hnewest⟩ := Latest.latest_isSome (fun entry : ShaDaEntry => entry.timestamp.toNat) hne
  obtain ⟨before, after, hsplit, hbefore, hafter⟩ := Latest.latest_eq_some hnewest
  refine ⟨newest, before, after, ?_, ?_, hbefore, hafter⟩
  · rw [withKey, merge, Latest.filter_merge, hnewest, Option.toList_some]
  · rw [← hsplit, List.filter_append]
    rfl

/-- A key of the merged stream occurs in one of the two. -/
theorem merge_withKey_of_mem {entry : ShaDaEntry} (h : entry ∈ (merge writeValue a b).entries) :
    entry ∈ a.entries ++ b.entries := by
  have hmem : entry ∈ (merge writeValue a b).withKey writeValue (mergeKey writeValue entry) :=
    List.mem_filter.mpr ⟨h, decide_eq_true rfl⟩
  rw [withKey, merge, Latest.filter_merge, Option.mem_toList] at hmem
  obtain ⟨before, after, hsplit, -⟩ := Latest.latest_eq_some hmem
  have hfilter : entry ∈
      (a.entries ++ b.entries).filter (mergeKey writeValue · = mergeKey writeValue entry) := by
    rw [hsplit]
    exact List.mem_append_right _ (List.mem_cons_self ..)
  exact (List.mem_filter.mp hfilter).1

theorem le_iff (x y : ShaDaEntry) : x.le y = true ↔ x.typeId.toNat < y.typeId.toNat ∨
    x.typeId.toNat = y.typeId.toNat ∧ x.timestamp.toNat ≤ y.timestamp.toNat := by
  rw [ShaDaEntry.le, decide_eq_true_eq, UInt64.toNat_inj]
  rfl

theorem merge_sorted :
    (merge writeValue a b).entries.Pairwise fun x y => x.le y = true := by
  apply List.pairwise_mergeSort
  · intro x y z hxy hyz
    rw [le_iff] at hxy hyz ⊢
    omega
  · intro x y
    rw [Bool.or_eq_true, le_iff, le_iff]
    omega

/-- Merging is associative, merges a merged stream with itself to itself, has exactly one entry for
each key of the two streams, the last one of those with the newest timestamp, and orders the entries
by type and timestamp. -/
theorem merge_lawful :
    merge writeValue (merge writeValue a b) c = merge writeValue a (merge writeValue b c) ∧
    merge writeValue (merge writeValue a b) (merge writeValue a b) = merge writeValue a b ∧
    (∀ key, (∃ entry ∈ a.entries ++ b.entries, mergeKey writeValue entry = key) →
      ∃ entry before after, (merge writeValue a b).withKey writeValue key = [entry] ∧
        a.withKey writeValue key ++ b.withKey writeValue key = before ++ entry :: after ∧
        (∀ earlier ∈ before, earlier.timestamp ≤ entry.timestamp) ∧
        ∀ later ∈ after, later.timestamp < entry.timestamp) ∧
    (∀ entry ∈ (merge writeValue a b).entries, entry ∈ a.entries ++ b.entries) ∧
    (merge writeValue a b).entries.Pairwise fun x y =>
      x.typeId < y.typeId ∨ x.typeId = y.typeId ∧ x.timestamp ≤ y.timestamp := by
  refine ⟨?_, ?_, fun key => merge_withKey writeValue a b,
    fun entry => merge_withKey_of_mem writeValue a b,
    (merge_sorted writeValue a b).imp fun h => of_decide_eq_true h⟩
  · exact congrArg ShaDa.mk (Latest.merge_assoc _ _ _)
  · exact congrArg ShaDa.mk (Latest.merge_idem _ _)

end ShaDa

end

end Oxvim.Text
