import Oxvim.Editor.Mapping
import Oxvim.Lib.Utf8Char

/-!
# The typeahead queue

Encoded key bytes that are still to be read, each with the flags that its producer gave it.
-/

namespace Oxvim.Editor

open Lib

/-! ## Decoding -/

namespace Keys

/-- Reads keys until the bytes are used up; every key takes at least one byte, so as many rounds as there
are bytes are enough. -/
def decodeRounds : Nat → List UInt8 → Except KeyDecodeError (List Key)
  | 0, _ => .ok []
  | rounds + 1, bytes =>
    if bytes.isEmpty then .ok []
    else do
      let (key, width) ← decodeOne bytes
      return key :: (← decodeRounds rounds (bytes.drop width))

/-- Decodes all logical keys. -/
def decode (self : Keys) : Except KeyDecodeError (List Key) :=
  decodeRounds self.bytes.length self.bytes

/-- A truncated key is reported where it is in the whole sequence. -/
def shiftError (offset : Nat) : KeyDecodeError → KeyDecodeError
  | .truncated relative => .truncated (offset + relative)
  | other => other

def validateRounds : Nat → Nat → List UInt8 → Except KeyDecodeError Unit
  | 0, _, _ => .ok ()
  | rounds + 1, offset, bytes =>
    if bytes.isEmpty then .ok ()
    else do
      let (_, width) ← (decodeOne bytes).mapError (shiftError offset)
      validateRounds rounds (offset + width) (bytes.drop width)

def validateEncoded (bytes : List UInt8) : Except KeyDecodeError Unit :=
  validateRounds bytes.length 0 bytes

/-- Creates a key string from bytes already in internal form. -/
def fromEncoded (bytes : List UInt8) : Except KeyDecodeError Keys := do
  validateEncoded bytes
  return ⟨bytes⟩

/-- Creates one named special key. -/
def special (second third : UInt8) : Except KeyDecodeError Keys :=
  if ¬(0x02 ≤ third ∧ third ≤ 0x7f) then .error (.invalidThirdByte third)
  else .ok ⟨[K_SPECIAL, second, third]⟩

end Keys

/-! ## The queue -/

/-- Remapping policy carried alongside inserted bytes. -/
inductive Remap where
  | yes
  | no
  | skipFirst
  | script
  deriving DecidableEq

/-- What is copied to every encoded byte inserted into typeahead. -/
structure TypeaheadFlags where
  remap : Remap
  modes : MapModes
  buffer : Option BufHandle
  mapped : Bool
  silent : Bool

/-- `TypeaheadFlags::default`. -/
def TypeaheadFlags.typed : TypeaheadFlags where
  remap := .yes
  modes := .all
  buffer := none
  mapped := false
  silent := false

inductive TypeaheadError where
  | offsetOutOfRange (offset len : Nat)
  | decode (error : KeyDecodeError)
  deriving DecidableEq

structure Typeahead where
  bytes : List UInt8
  flags : List TypeaheadFlags

namespace Typeahead

def new : Typeahead := ⟨[], []⟩

/-- Inserts keys at an offset. -/
def push (self : Typeahead) (keys : Keys) (offset : Nat) (flags : TypeaheadFlags) :
    Except TypeaheadError Typeahead :=
  if self.bytes.length < offset then .error (.offsetOutOfRange offset self.bytes.length)
  else .ok {
    bytes := self.bytes.take offset ++ keys.bytes ++ self.bytes.drop offset
    flags := self.flags.take offset ++ List.replicate keys.len flags ++ self.flags.drop offset }

/-- Appends direct typed input after all queued bytes. -/
def append (self : Typeahead) (keys : Keys) (flags : TypeaheadFlags) : Typeahead where
  bytes := self.bytes ++ keys.bytes
  flags := self.flags ++ List.replicate keys.len flags

/-- With `L` the event key precedes the raw input. -/
def lowLevel (keys : Keys) (mode : List Char) : Except TypeaheadError Keys :=
  if mode.contains 'L' then do
    let event ← (Keys.special KS_EXTRA KE_EVENT).mapError .decode
    (Keys.fromEncoded (event.bytes ++ keys.bytes)).mapError .decode
  else .ok keys

/-- Queues input with the modes of `feedkeys()`, and reports whether the caller must execute the queue
immediately. -/
def feedkeys (self : Typeahead) (keys : Keys) (mode : List Char) : Except TypeaheadError (Typeahead × Bool) := do
  let flags := { TypeaheadFlags.typed with
    remap := if mode.contains 'n' then .no else .yes
    mapped := !mode.contains 't' }
  let keys ← lowLevel keys mode
  let queued ← (if mode.contains 'i' then self.push keys 0 flags else .ok (self.append keys flags) :
    Except TypeaheadError Typeahead)
  return (queued, mode.contains 'x')

/-- Marks the front byte so that mapping lookup skips it. -/
def denyFrontRemap (self : Typeahead) : Typeahead :=
  match self.flags with
  | [] => self
  | first :: rest => { self with flags := { first with remap := .no } :: rest }

/-- Where the continuation bytes of a character lead. -/
inductive Continued where
  /-- the queue ends inside the character -/
  | incomplete
  /-- another key follows -/
  | broken
  | complete (bytes : List UInt8) (encodedLen : Nat)

/-- Reads so many more continuation bytes. -/
def continueCharacter (queue : List UInt8) : Nat → List UInt8 → Nat → Except KeyDecodeError Continued
  | 0, bytes, encodedLen => .ok (.complete bytes encodedLen)
  | more + 1, bytes, encodedLen =>
    if encodedLen = queue.length then .ok .incomplete
    else do
      match ← decodeOne (queue.drop encodedLen) with
      | (.byte continuation, width) =>
        if 0x80 ≤ continuation ∧ continuation ≤ 0xbf then
          continueCharacter queue more (bytes ++ [continuation]) (encodedLen + width)
        else return .broken
      | (.special _ _, _) => return .broken

/-- The character that starts with this byte. -/
def characterFrom (queue : List UInt8) (first : UInt8) (firstLen : Nat) :
    Except KeyDecodeError (Option (Char × Nat)) :=
  let single := some (Char.ofNat first.toNat, firstLen)
  match Utf8.followers first with
  | none => return single
  | some more => do
    match ← continueCharacter queue more [first] firstLen with
    | .incomplete => return none
    | .broken => return single
    | .complete bytes encodedLen =>
      return (Utf8.decode? bytes).elim single fun text => text.head?.map (·, encodedLen)

/-- Decodes one character without consuming a fragment of one. -/
def peekCharacter (self : Typeahead) : Except KeyDecodeError (Option (Char × Nat)) := do
  if self.bytes.isEmpty then return none
  else
    match ← decodeOne self.bytes with
    | (.special _ _, _) => return none
    | (.byte first, firstLen) => characterFrom self.bytes first firstLen

/-- Removes bytes from the front, and tells how many. -/
def consume (self : Typeahead) (count : Nat) : Typeahead × Nat :=
  let count := min count self.bytes.length
  ({ bytes := self.bytes.drop count, flags := self.flags.drop count }, count)

/-- Removes and decodes the next logical key. -/
def pop (self : Typeahead) : Except KeyDecodeError (Typeahead × Option Key) := do
  if self.bytes.isEmpty then return (self, none)
  else
    let (key, width) ← decodeOne self.bytes
    return ({ bytes := self.bytes.drop width, flags := self.flags.drop width }, some key)

/-- Discards the mapped run at the front of the queue. -/
def flushMapped (self : Typeahead) : Typeahead :=
  let mapped := (self.flags.takeWhile (·.mapped)).length
  { bytes := self.bytes.drop mapped, flags := self.flags.drop mapped }

end Typeahead

end Oxvim.Editor
