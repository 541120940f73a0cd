import Mathlib

/-!
# Encoded key sequences

Keys are bytes, in which `K_SPECIAL` introduces a group of three: a quoted zero or `K_SPECIAL`, or a named
special key.
-/

namespace Oxvim.Editor

/-- Marker introducing an internal three-byte key code. -/
def K_SPECIAL : UInt8 := 0x80

/-- Second byte used to quote a literal zero byte. -/
def KS_ZERO : UInt8 := 0xff

/-- Second byte used to quote a literal `K_SPECIAL`. -/
def KS_SPECIAL : UInt8 := 0xfe

/-- Second byte used by named special keys without termcap names. -/
def KS_EXTRA : UInt8 := 0xfd

/-- Third byte identifying the event-loop wakeup key. -/
def KE_EVENT : UInt8 := 102

/-- Third-byte filler used with quoted literal bytes. -/
def KE_FILLER : UInt8 := 88

/-- Internal key-string representation. -/
structure Keys where
  bytes : List UInt8
  deriving DecidableEq, Repr

/-- One decoded logical key. -/
inductive Key where
  /-- literal input byte, including quoted zero or `0x80` -/
  | byte (value : UInt8)
  /-- named special key, by its second and third bytes -/
  | special (second third : UInt8)
  deriving DecidableEq, Repr

/-- Malformed internal key sequence. -/
inductive KeyDecodeError where
  | truncated (offset : Nat)
  | invalidThirdByte (third : UInt8)
  | invalidFiller (third : UInt8)
  deriving DecidableEq, Repr

/-- The key of a group of three. -/
def decodeSpecial (second third : UInt8) : Except KeyDecodeError (Key × Nat) :=
  if ¬(0x02 ≤ third ∧ third ≤ 0x7f) then .error (.invalidThirdByte third)
  else if (second = KS_ZERO ∨ second = KS_SPECIAL) ∧ third ≠ KE_FILLER then .error (.invalidFiller third)
  else if second = KS_ZERO then .ok (.byte 0, 3)
  else if second = KS_SPECIAL then .ok (.byte K_SPECIAL, 3)
  else .ok (.special second third, 3)

/-- The key at the front, and how many bytes it takes. -/
def decodeOne (bytes : List UInt8) : Except KeyDecodeError (Key × Nat) :=
  match bytes with
  | [] => .error (.truncated 0)
  | first :: rest =>
    if first ≠ K_SPECIAL then .ok (.byte first, 1)
    else match rest with
      | second :: third :: _ => decodeSpecial second third
      | _ => .error (.truncated 0)

theorem decodeOne_plain {first : UInt8} (h : first ≠ K_SPECIAL) (rest : List UInt8) :
    decodeOne (first :: rest) = .ok (.byte first, 1) :=
  if_pos h

theorem decodeOne_special (second third : UInt8) (rest : List UInt8) :
    decodeOne (K_SPECIAL :: second :: third :: rest) = decodeSpecial second third := by
  rw [decodeOne, if_neg (not_not.mpr rfl)]

/-- A group that is a key takes three bytes. -/
theorem decodeSpecial_width {second third : UInt8} {key : Key} {width : Nat}
    (h : decodeSpecial second third = .ok (key, width)) : width = 3 := by
  rw [decodeSpecial] at h
  split at h
  · cases h
  split at h
  · cases h
  split at h
  · cases h
    rfl
  split at h
  · cases h
    rfl
  · cases h
    rfl

namespace Keys

def len (self : Keys) : Nat := self.bytes.length

def isEmpty (self : Keys) : Bool := self.bytes.isEmpty

/-- One raw byte, with zero and `K_SPECIAL` quoted. -/
def quote (byte : UInt8) : List UInt8 :=
  if byte = 0 then [K_SPECIAL, KS_ZERO, KE_FILLER]
  else if byte = K_SPECIAL then [K_SPECIAL, KS_SPECIAL, KE_FILLER]
  else [byte]

/-- Encodes raw bytes. -/
def encode (bytes : List UInt8) : Keys := ⟨bytes.flatMap quote⟩

end Keys

end Oxvim.Editor
