import Oxvim.Lib.Usize
import Oxvim.Text.ShaDa

/-!
# The frames of a ShaDa stream

An entry stands in the stream as a frame: its type, its timestamp and the length of its payload as
unsigned MessagePack integers, and behind them the payload. A stream is frames one behind the other;
it can end in bytes that are no frame, or in a frame of type zero, which no writer makes.
-/

namespace Oxvim.Text

/-! ## Unsigned integers -/

/-- The value of big-endian digits. -/
def beValue (digits : List UInt8) : Nat := digits.foldl (fun value digit => value * 256 + digit.toNat) 0

/-- The markers of unsigned integers and the number of digits behind each. -/
def uintFormats : List (UInt8 × Nat) := [(0xcc, 1), (0xcd, 2), (0xce, 4), (0xcf, 8)]

/-- An unsigned integer in one of its MessagePack formats. -/
inductive IsUint : Nat → List UInt8 → Prop
  /-- A number below 128 is its own byte. -/
  | fixed (byte : UInt8) (h : byte ≤ 0x7f) : IsUint byte.toNat [byte]
  /-- A marker and its digits. -/
  | wide (marker : UInt8) (digits : List UInt8) (h : (marker, digits.length) ∈ uintFormats) :
      IsUint (beValue digits) (marker :: digits)

theorem IsUint.ne_nil {n : Nat} {raw : List UInt8} (h : IsUint n raw) : raw ≠ [] := by
  cases h <;> exact List.cons_ne_nil _ _

/-! ## Frames -/

/-- What a frame says. -/
structure Frame where
  typeId : Nat
  timestamp : Nat
  payload : List UInt8
  deriving DecidableEq, Repr

/-- The bytes of a frame. -/
def IsFrame (frame : Frame) (raw : List UInt8) : Prop :=
  ∃ typeId timestamp length, IsUint frame.typeId typeId ∧ IsUint frame.timestamp timestamp ∧
    IsUint frame.payload.length length ∧ raw = typeId ++ timestamp ++ length ++ frame.payload

theorem IsFrame.length_pos {frame : Frame} {raw : List UInt8} (h : IsFrame frame raw) :
    0 < raw.length := by
  obtain ⟨typeId, timestamp, length, htype, _, _, rfl⟩ := h
  have := List.length_pos_of_ne_nil htype.ne_nil
  simp only [List.length_append]
  omega

/-- The bytes begin with a frame that a writer can have made. -/
def BeginsFrame (bytes : List UInt8) : Prop :=
  ∃ frame raw rest, bytes = raw ++ rest ∧ IsFrame frame raw ∧ frame.typeId ≠ 0

/-- A stream read as frames, each with its bytes; `bad` says whether bytes are left behind them. -/
inductive Stream : List UInt8 → List (Frame × List UInt8) → Bool → Prop
  | done : Stream [] [] false
  | bad {bytes : List UInt8} (hne : bytes ≠ []) (h : ¬BeginsFrame bytes) : Stream bytes [] true
  | frame {frame : Frame} {raw rest : List UInt8} {frames : List (Frame × List UInt8)} {bad : Bool}
      (h : IsFrame frame raw) (hne : frame.typeId ≠ 0) (hrest : Stream rest frames bad) :
      Stream (raw ++ rest) ((frame, raw) :: frames) bad

/-- Every byte string is a stream. -/
theorem exists_stream (bytes : List UInt8) : ∃ frames bad, Stream bytes frames bad := by
  by_cases hbegins : BeginsFrame bytes
  · obtain ⟨frame, raw, rest, hbytes, hframe, hne⟩ := hbegins
    have hlt : rest.length < bytes.length := by
      have := hframe.length_pos
      rw [hbytes, List.length_append]
      omega
    obtain ⟨frames, bad, hrest⟩ := exists_stream rest
    rw [hbytes]
    exact ⟨_, _, .frame hframe hne hrest⟩
  · by_cases hnil : bytes = []
    · rw [hnil]
      exact ⟨_, _, .done⟩
    · exact ⟨_, _, .bad hnil hbegins⟩
  termination_by bytes.length

/-! ## Writing -/

section Writing

variable (writeValue : MsgpackValue → List UInt8)

/-- The payload is above the limit, which is none where it is zero. -/
def TooLarge (maxKbyte : Nat) (payload : List UInt8) : Prop :=
  maxKbyte ≠ 0 ∧ min (maxKbyte * 1024) Lib.usizeMax < payload.length

instance (maxKbyte : Nat) (payload : List UInt8) : Decidable (TooLarge maxKbyte payload) :=
  inferInstanceAs (Decidable (_ ∧ _))

/-- The bytes that are written for an unsigned integer. -/
def writeUint (value : Nat) : List UInt8 := writeValue (.integer value)

/-- The entries that are written: payloads above the limit are omitted. -/
def writtenEntries (self : ShaDa) (maxKbyte : Nat) : List ShaDaEntry :=
  self.entries.filter fun entry => ¬TooLarge maxKbyte (writeValue entry.data)

/-- The bytes of an entry. -/
def writeEntry (entry : ShaDaEntry) : List UInt8 :=
  let payload := writeValue entry.data
  writeUint writeValue entry.typeId.toNat ++ writeUint writeValue entry.timestamp.toNat ++
    writeUint writeValue payload.length ++ payload

/-- Writes entries, omitting payloads above `maxKbyte`. -/
def ShaDa.write (self : ShaDa) (maxKbyte : Nat) : List UInt8 :=
  (writtenEntries writeValue self maxKbyte).flatMap (writeEntry writeValue)

/-- The frame of an entry. -/
def frameOf (entry : ShaDaEntry) : Frame :=
  ⟨entry.typeId.toNat, entry.timestamp.toNat, writeValue entry.data⟩

/-- The integers of an entry's frame are written as unsigned integers. -/
structure WritesUints (entry : ShaDaEntry) : Prop where
  typeId : IsUint entry.typeId.toNat (writeUint writeValue entry.typeId.toNat)
  timestamp : IsUint entry.timestamp.toNat (writeUint writeValue entry.timestamp.toNat)
  length : IsUint (writeValue entry.data).length
    (writeUint writeValue (writeValue entry.data).length)

variable {writeValue}

theorem isFrame_writeEntry {entry : ShaDaEntry} (h : WritesUints writeValue entry) :
    IsFrame (frameOf writeValue entry) (writeEntry writeValue entry) :=
  ⟨_, _, _, h.typeId, h.timestamp, h.length, rfl⟩

/-- What is written is the frames of the entries. -/
theorem stream_write {entries : List ShaDaEntry} (hwrites : ∀ entry ∈ entries, WritesUints writeValue entry)
    (htype : ∀ entry ∈ entries, entry.typeId ≠ 0) :
    Stream (entries.flatMap (writeEntry writeValue))
      (entries.map fun entry => (frameOf writeValue entry, writeEntry writeValue entry)) false := by
  induction entries with
  | nil => exact .done
  | cons entry entries ih =>
    have hne : (frameOf writeValue entry).typeId ≠ 0 := by
      intro hzero
      exact htype entry List.mem_cons_self (UInt64.toNat_inj.mp hzero)
    rw [List.flatMap_cons, List.map_cons]
    refine .frame (isFrame_writeEntry (hwrites entry List.mem_cons_self)) hne (ih ?_ ?_)
    · exact fun other hother => hwrites other (List.mem_cons_of_mem _ hother)
    · exact fun other hother => htype other (List.mem_cons_of_mem _ hother)

end Writing

end Oxvim.Text
