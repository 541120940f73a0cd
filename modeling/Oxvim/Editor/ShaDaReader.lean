import Oxvim.Text.ShaDaFrames

/-!
# Reading a ShaDa stream

The reader goes through the stream frame by frame. A payload that is not one MessagePack value is
recorded as an error and skipped; a frame that is cut off or must not be there ends the reading.

How a MessagePack value is read is left to `readValue`, which returns the value and the number of
bytes that it took.
-/

namespace Oxvim.Editor.ShaDaReader

open Text

/-- A ShaDa command failure: an error code and the message without it. -/
structure ShadaError where
  code : String
  message : String
  deriving DecidableEq, Repr

/-- One malformed entry. -/
def readError (entry : String) (position : Nat) (detail : String) : ShadaError :=
  ⟨"E575", s!"Error while reading ShaDa file: {entry} entry at position {position} {detail}"⟩

/-- A critical stream error. -/
def criticalError (message : String) : ShadaError :=
  ⟨"E576", s!"Error while reading ShaDa file: {message}"⟩

/-- One entry parsed from the stream, with its start position. -/
structure RawEntry where
  position : Nat
  timestamp : Nat
  typeId : Nat
  data : MsgpackValue

/-- Everything that was recovered before a critical error. -/
structure ParsedStream where
  entries : List (Except ShadaError RawEntry)
  fatal : Option ShadaError

/-! ## Frames -/

/-- The big-endian number of `width` bytes at `start`, and the position behind it. -/
def readBeUint (bytes : List UInt8) (start width : Nat) : Except ShadaError (Nat × Nat) :=
  if start + width ≤ bytes.length then
    .ok (((bytes.drop start).take width).foldl (fun value byte => value * 256 + byte.toNat) 0,
      start + width)
  else .error (criticalError s!"expected positive integer at position {start}")

/-- An unsigned integer and the position behind it; `none` at the end of the input, where that is
allowed. -/
def readEnvelopeUint (bytes : List UInt8) (position : Nat) (allowEof : Bool) :
    Except ShadaError (Option (Nat × Nat)) :=
  match bytes[position]? with
  | none =>
    if allowEof then .ok none
    else .error (criticalError
      s!"expected positive integer at position {position}, but got nothing")
  | some byte =>
    if byte ≤ 0x7f then .ok (some (byte.toNat, position + 1))
    else if byte = 0xcc then (readBeUint bytes (position + 1) 1).map some
    else if byte = 0xcd then (readBeUint bytes (position + 1) 2).map some
    else if byte = 0xce then (readBeUint bytes (position + 1) 4).map some
    else if byte = 0xcf then (readBeUint bytes (position + 1) 8).map some
    else .error (criticalError s!"expected positive integer at position {position}")

/-- The frame at `start` and the position behind it. A length beyond the input is caught by the
slice, also where the sum would overflow. -/
def readFrame (bytes : List UInt8) (start : Nat) : Except ShadaError (Option (Text.Frame × Nat)) :=
  match readEnvelopeUint bytes start true with
  | .error error => .error error
  | .ok none => .ok none
  | .ok (some (typeId, position)) =>
    match readEnvelopeUint bytes position false with
    | .error error => .error error
    | .ok none => .ok none
    | .ok (some (timestamp, position)) =>
      match readEnvelopeUint bytes position false with
      | .error error => .error error
      | .ok none => .ok none
      | .ok (some (length, position)) =>
        if position + length ≤ bytes.length then
          if typeId = 0 then
            .error (criticalError
              s!"there is an item at position {start} that must not be there: Missing items are for internal uses only")
          else .ok (some (⟨typeId, timestamp, (bytes.drop position).take length⟩, position + length))
        else .error (criticalError
          s!"there is an item at position {start} that is stated to be too long")

/-! ## What is read -/

section Frames

variable {bytes : List UInt8} {position next n : Nat} {eof : Bool}

theorem readBeUint_eq_ok {start width : Nat} :
    readBeUint bytes start width = .ok (n, next) ↔
      start + width ≤ bytes.length ∧ n = beValue ((bytes.drop start).take width) ∧
        next = start + width := by
  rw [readBeUint]
  split_ifs with hfits
  · simp [hfits, beValue, eq_comm]
  · simp [hfits]

/-- A marker is followed by its digits. -/
theorem readEnvelopeUint_wide {marker : UInt8} {width : Nat} (hmarker : (marker, width) ∈ uintFormats)
    (hbyte : bytes[position]? = some marker) :
    readEnvelopeUint bytes position eof = (readBeUint bytes (position + 1) width).map some := by
  rw [readEnvelopeUint, hbyte]
  simp only [uintFormats, List.mem_cons, Prod.mk.injEq, List.not_mem_nil, or_false] at hmarker
  rcases hmarker with ⟨rfl, rfl⟩ | ⟨rfl, rfl⟩ | ⟨rfl, rfl⟩ | ⟨rfl, rfl⟩ <;> rfl

/-- What is read from a byte: itself, digits behind it, or nothing. -/
theorem readEnvelopeUint_cases (eof : Bool) {byte : UInt8} (hbyte : bytes[position]? = some byte) :
    (byte ≤ 0x7f ∧ readEnvelopeUint bytes position eof = .ok (some (byte.toNat, position + 1))) ∨
      (∃ width, (byte, width) ∈ uintFormats ∧
        readEnvelopeUint bytes position eof = (readBeUint bytes (position + 1) width).map some) ∨
      ∃ error, readEnvelopeUint bytes position eof = .error error := by
  by_cases hfixed : byte ≤ 0x7f
  · exact .inl ⟨hfixed, by rw [readEnvelopeUint, hbyte]; exact if_pos hfixed⟩
  by_cases hwide : ∃ width, (byte, width) ∈ uintFormats
  · obtain ⟨width, hwidth⟩ := hwide
    exact .inr (.inl ⟨width, hwidth, readEnvelopeUint_wide hwidth hbyte⟩)
  · right
    right
    simp only [uintFormats, List.mem_cons, Prod.mk.injEq, List.not_mem_nil, or_false, not_exists,
      not_or, not_and] at hwide
    have hcc : byte ≠ 0xcc := fun h => (hwide 1).1 h rfl
    have hcd : byte ≠ 0xcd := fun h => (hwide 2).2.1 h rfl
    have hce : byte ≠ 0xce := fun h => (hwide 4).2.2.1 h rfl
    have hcf : byte ≠ 0xcf := fun h => (hwide 8).2.2.2 h rfl
    rw [readEnvelopeUint, hbyte]
    simp only [if_neg hfixed, if_neg hcc, if_neg hcd, if_neg hce, if_neg hcf]
    exact ⟨_, rfl⟩

theorem drop_eq_cons_of_getElem? {byte : UInt8} (hbyte : bytes[position]? = some byte) :
    bytes.drop position = byte :: bytes.drop (position + 1) := by
  obtain ⟨hlt, heq⟩ := List.getElem?_eq_some_iff.mp hbyte
  rw [List.drop_eq_getElem_cons hlt, heq]

/-- The reader of integers accepts exactly the unsigned formats. -/
theorem readEnvelopeUint_eq_some :
    readEnvelopeUint bytes position eof = .ok (some (n, next)) ↔
      ∃ raw rest, bytes.drop position = raw ++ rest ∧ IsUint n raw ∧
        next = position + raw.length := by
  constructor
  · intro h
    cases hbyte : bytes[position]? with
    | none =>
      rw [readEnvelopeUint, hbyte] at h
      cases eof <;> simp at h
    | some byte =>
      have hdrop := drop_eq_cons_of_getElem? hbyte
      rcases readEnvelopeUint_cases eof hbyte with ⟨hfixed, heq⟩ | ⟨width, hwidth, heq⟩ | ⟨error, heq⟩
      · rw [heq] at h
        obtain ⟨rfl, rfl⟩ := Prod.mk.inj (Option.some.inj (Except.ok.inj h))
        exact ⟨[byte], _, hdrop, .fixed byte hfixed, rfl⟩
      · rw [heq] at h
        cases hread : readBeUint bytes (position + 1) width with
        | error error => simp [hread, Except.map] at h
        | ok read =>
          rw [hread] at h
          obtain rfl := Option.some.inj (Except.ok.inj h)
          obtain ⟨hfits, hvalue, hnext⟩ := readBeUint_eq_ok.mp hread
          have hlength : ((bytes.drop (position + 1)).take width).length = width := by
            rw [List.length_take, List.length_drop]
            omega
          refine ⟨byte :: (bytes.drop (position + 1)).take width,
            (bytes.drop (position + 1)).drop width, ?_, ?_, ?_⟩
          · rw [hdrop, List.cons_append, List.take_append_drop]
          · rw [hvalue]
            refine .wide byte _ ?_
            rwa [hlength]
          · rw [hnext, List.length_cons, hlength]
            omega
      · rw [heq] at h
        cases h
  · intro h
    obtain ⟨raw, rest, hdrop, huint, rfl⟩ := h
    cases huint with
    | fixed byte hfixed =>
      have hbyte : bytes[position]? = some byte := by
        rw [← Nat.add_zero position, ← List.getElem?_drop, hdrop]
        rfl
      rw [readEnvelopeUint, hbyte]
      exact if_pos hfixed
    | wide marker digits hmarker =>
      have hbyte : bytes[position]? = some marker := by
        rw [← Nat.add_zero position, ← List.getElem?_drop, hdrop]
        rfl
      have hrest : bytes.drop (position + 1) = digits ++ rest := by
        have htail := drop_eq_cons_of_getElem? hbyte
        rw [hdrop, List.cons_append] at htail
        exact (List.cons.inj htail).2.symm
      have hlength := congrArg List.length hrest
      rw [List.length_drop, List.length_append] at hlength
      have hpos : 0 < digits.length := by
        simp only [uintFormats, List.mem_cons, Prod.mk.injEq, List.not_mem_nil, or_false] at hmarker
        omega
      have hread : readBeUint bytes (position + 1) digits.length
          = .ok (beValue digits, position + 1 + digits.length) := by
        refine readBeUint_eq_ok.mpr ⟨by omega, ?_, rfl⟩
        rw [hrest, List.take_left]
      rw [readEnvelopeUint_wide hmarker hbyte, hread, List.length_cons, Nat.add_right_comm,
        Nat.add_assoc]
      rfl

/-- Only the end of the input, where it is allowed, is no integer and no error. -/
theorem readEnvelopeUint_eq_none (h : readEnvelopeUint bytes position eof = .ok none) :
    eof = true ∧ bytes.length ≤ position := by
  cases hbyte : bytes[position]? with
  | none =>
    refine ⟨?_, List.getElem?_eq_none_iff.mp hbyte⟩
    rw [readEnvelopeUint, hbyte] at h
    cases eof with
    | true => rfl
    | false => cases h
  | some byte =>
    rcases readEnvelopeUint_cases eof hbyte with ⟨_, heq⟩ | ⟨width, _, heq⟩ | ⟨error, heq⟩
    · rw [heq] at h
      cases h
    · rw [heq] at h
      cases hread : readBeUint bytes (position + 1) width <;> simp [hread, Except.map] at h
    · rw [heq] at h
      cases h

/-- The number of bytes from a position on is what an integer takes and what is left. -/
theorem drop_add_of_drop {raw rest : List UInt8} (h : bytes.drop position = raw ++ rest) :
    bytes.drop (position + raw.length) = rest := by
  rw [← List.drop_drop, h, List.drop_left]

/-- The reader of frames accepts exactly the frames of a writer. -/
theorem readFrame_eq_some {start : Nat} {frame : Text.Frame} :
    readFrame bytes start = .ok (some (frame, next)) ↔
      ∃ raw rest, bytes.drop start = raw ++ rest ∧ IsFrame frame raw ∧ frame.typeId ≠ 0 ∧
        next = start + raw.length := by
  constructor
  · intro h
    unfold readFrame at h
    split at h
    · cases h
    · cases h
    · rename_i typeId atTimestamp htype
      split at h
      · cases h
      · cases h
      · rename_i timestamp atLength htimestamp
        split at h
        · cases h
        · cases h
        · rename_i length atPayload hlength
          split_ifs at h with hfits hzero
          obtain ⟨rfl, rfl⟩ := Prod.mk.inj (Option.some.inj (Except.ok.inj h))
          obtain ⟨a, restA, hdropA, huintA, rfl⟩ := readEnvelopeUint_eq_some.mp htype
          obtain ⟨b, restB, hdropB, huintB, rfl⟩ := readEnvelopeUint_eq_some.mp htimestamp
          obtain ⟨c, restC, hdropC, huintC, rfl⟩ := readEnvelopeUint_eq_some.mp hlength
          have hpayload : ((bytes.drop (start + a.length + b.length + c.length)).take length).length
              = length := by
            rw [List.length_take, List.length_drop]
            omega
          refine ⟨a ++ b ++ c ++ (bytes.drop (start + a.length + b.length + c.length)).take length,
            (bytes.drop (start + a.length + b.length + c.length)).drop length, ?_,
            ⟨a, b, c, huintA, huintB, ?_, rfl⟩, hzero, ?_⟩
          · rw [List.append_assoc, List.take_append_drop, drop_add_of_drop hdropC, hdropA,
              ← drop_add_of_drop hdropA, hdropB, ← drop_add_of_drop hdropB, hdropC]
            simp only [List.append_assoc]
          · rwa [hpayload]
          · simp only [List.length_append, hpayload]
            omega
  · intro h
    obtain ⟨raw, rest, hdrop, hframe, hne, rfl⟩ := h
    obtain ⟨a, b, c, huintA, huintB, huintC, rfl⟩ := hframe
    simp only [List.append_assoc] at hdrop
    have hdropB := drop_add_of_drop hdrop
    have hdropC := drop_add_of_drop hdropB
    have hdropD := drop_add_of_drop hdropC
    have htype : readEnvelopeUint bytes start true = .ok (some (frame.typeId, start + a.length)) :=
      readEnvelopeUint_eq_some.mpr ⟨a, _, hdrop, huintA, rfl⟩
    have htimestamp : readEnvelopeUint bytes (start + a.length) false
        = .ok (some (frame.timestamp, start + a.length + b.length)) :=
      readEnvelopeUint_eq_some.mpr ⟨b, _, hdropB, huintB, rfl⟩
    have hlength : readEnvelopeUint bytes (start + a.length + b.length) false
        = .ok (some (frame.payload.length, start + a.length + b.length + c.length)) :=
      readEnvelopeUint_eq_some.mpr ⟨c, _, hdropC, huintC, rfl⟩
    have hfits : start + a.length + b.length + c.length + frame.payload.length ≤ bytes.length := by
      have hpos := List.length_pos_of_ne_nil huintC.ne_nil
      have htotal := congrArg List.length hdropC
      simp only [List.length_drop, List.length_append] at htotal
      omega
    have hpayload : (bytes.drop (start + a.length + b.length + c.length)).take frame.payload.length
        = frame.payload := by rw [hdropD, List.take_left]
    unfold readFrame
    rw [htype]
    simp only [htimestamp, hlength, if_pos hfits, if_neg hne, hpayload]
    simp only [List.length_append, Nat.add_assoc]

/-- Before the end of the input there is a frame or an error. -/
theorem readFrame_ne_none (h : position < bytes.length) : readFrame bytes position ≠ .ok none := by
  intro hnone
  unfold readFrame at hnone
  split at hnone
  · cases hnone
  · rename_i heq
    have := (readEnvelopeUint_eq_none heq).2
    omega
  · split at hnone
    · cases hnone
    · rename_i heq
      exact Bool.noConfusion (readEnvelopeUint_eq_none heq).1
    · split at hnone
      · cases hnone
      · rename_i heq
        exact Bool.noConfusion (readEnvelopeUint_eq_none heq).1
      · split_ifs at hnone
        cases hnone

theorem lt_of_readFrame {frame : Text.Frame} (h : readFrame bytes position = .ok (some (frame, next))) :
    position < next ∧ next ≤ bytes.length := by
  obtain ⟨raw, rest, hdrop, hframe, _, rfl⟩ := readFrame_eq_some.mp h
  have hpos := hframe.length_pos
  have htotal := congrArg List.length hdrop
  simp only [List.length_drop, List.length_append] at htotal
  omega

end Frames

/-! ## The stream -/

section Stream

variable (readValue : List UInt8 → Except String (MsgpackValue × Nat))

/-- What a frame at `start` with a known type is recorded as. -/
def readEntry (start : Nat) (frame : Text.Frame) : Except ShadaError RawEntry :=
  match readValue frame.payload with
  | .error error =>
    .error (readError "item" start s!"is not valid MessagePack data: {error}")
  | .ok (data, position) =>
    if position ≠ frame.payload.length then .error (readError "item" start "additional bytes")
    else .ok ⟨start, frame.timestamp, frame.typeId, data⟩

/-- The loop of `parseStream`. Type 10 is `'\n'`, the first byte of many a text file. -/
def parseFrom (bytes : List UInt8) (first : Bool) (position : Nat) : ParsedStream :=
  if position < bytes.length then
    match _h : readFrame bytes position with
    | .error error => ⟨[], some error⟩
    | .ok none => ⟨[], none⟩
    | .ok (some (frame, next)) =>
      if first ∧ (frame.typeId = 10 ∨ 11 < frame.typeId) then
        match readValue frame.payload with
        | .error _ => ⟨[], some (criticalError
            s!"there is an item at position {position} that is not a ShaDa item")⟩
        | .ok _ => parseFrom bytes false next
      else if 11 < frame.typeId then parseFrom bytes false next
      else
        let stream := parseFrom bytes false next
        { stream with entries := readEntry readValue position frame :: stream.entries }
  else ⟨[], none⟩
  termination_by bytes.length - position
  decreasing_by
    all_goals
      have := lt_of_readFrame _h
      omega

/-- Streams `[type, timestamp, length]`-prefixed entries. -/
def parseStream (bytes : List UInt8) : ParsedStream := parseFrom readValue bytes true 0

/-! ## What should be salvaged -/

/-- What a frame with a known type holds, `none` unless its payload is exactly one value. -/
def decoded (start : Nat) (frame : Text.Frame) : Option RawEntry :=
  match readValue frame.payload with
  | .error _ => none
  | .ok (data, position) =>
    if position = frame.payload.length then some ⟨start, frame.timestamp, frame.typeId, data⟩
    else none

/-- What frames from `start` on hold, `none` for a payload that is not one value and nothing for an
unknown type. -/
def salvaged : Nat → List (Text.Frame × List UInt8) → List (Option RawEntry)
  | _, [] => []
  | start, (frame, raw) :: frames =>
    (if 11 < frame.typeId then [] else [decoded readValue start frame]) ++
      salvaged (start + raw.length) frames

/-- The first frame has an unknown type and no payload that can be read. -/
def Rejected (frames : List (Text.Frame × List UInt8)) : Prop :=
  ∃ frame raw rest, frames = (frame, raw) :: rest ∧ 11 < frame.typeId ∧
    ∃ error, readValue frame.payload = .error error

/-- The reader returns what the good frames hold and a fatal error if there is a bad one. -/
structure Salvages (bytes : List UInt8) (frames : List (Text.Frame × List UInt8)) (bad : Bool) : Prop where
  stream : Stream bytes frames bad
  entries : ¬Rejected readValue frames →
    (parseStream readValue bytes).entries.map Except.toOption = salvaged readValue 0 frames
  rejected : Rejected readValue frames → (parseStream readValue bytes).entries = []
  fatal : (parseStream readValue bytes).fatal.isSome ↔ bad = true ∨ Rejected readValue frames

/-- The stream begins with a local mark, an entry of type 10. -/
def BeginsLocalMark (bytes : List UInt8) : Prop :=
  ∃ frame raw rest, bytes = raw ++ rest ∧ IsFrame frame raw ∧ frame.typeId = 10

/-! ## Reading frame by frame -/

section Steps

variable {readValue} {bytes raw rest : List UInt8} {position next : Nat} {first : Bool} {frame : Text.Frame}

theorem parseFrom_end (h : bytes.length ≤ position) :
    parseFrom readValue bytes first position = ⟨[], none⟩ := by
  rw [parseFrom, if_neg (Nat.not_lt.mpr h)]

theorem parseFrom_bad (h : position < bytes.length)
    (hframe : ∀ frame next, readFrame bytes position ≠ .ok (some (frame, next))) :
    ∃ error, parseFrom readValue bytes first position = ⟨[], some error⟩ := by
  rw [parseFrom, if_pos h]
  split
  · exact ⟨_, rfl⟩
  · rename_i heq
    exact absurd heq (readFrame_ne_none h)
  · rename_i heq
    exact absurd heq (hframe _ _)

theorem parseFrom_frame (h : readFrame bytes position = .ok (some (frame, next))) :
    parseFrom readValue bytes first position =
      if first ∧ (frame.typeId = 10 ∨ 11 < frame.typeId) then
        match readValue frame.payload with
        | .error _ => ⟨[], some (criticalError
            s!"there is an item at position {position} that is not a ShaDa item")⟩
        | .ok _ => parseFrom readValue bytes false next
      else if 11 < frame.typeId then parseFrom readValue bytes false next
      else
        { parseFrom readValue bytes false next with
          entries := readEntry readValue position frame ::
            (parseFrom readValue bytes false next).entries } := by
  have hlt := lt_of_readFrame h
  rw [parseFrom, if_pos (by omega)]
  split
  · rename_i heq
    rw [h] at heq
    cases heq
  · rename_i heq
    rw [h] at heq
    cases heq
  · rename_i heq
    rw [h] at heq
    obtain ⟨rfl, rfl⟩ := Prod.mk.inj (Option.some.inj (Except.ok.inj heq))
    rfl

theorem toOption_readEntry (start : Nat) (frame : Text.Frame) :
    (readEntry readValue start frame).toOption = decoded readValue start frame := by
  rw [readEntry, decoded]
  cases readValue frame.payload with
  | error error => rfl
  | ok read =>
    obtain ⟨data, position⟩ := read
    by_cases hlength : position = frame.payload.length
    · simp [hlength, Except.toOption]
    · simp [hlength, Except.toOption]

/-- Behind the first frame the reader salvages what it should. -/
theorem parseFrom_salvages {stream : List UInt8} {frames : List (Text.Frame × List UInt8)} {bad : Bool}
    (hstream : Stream stream frames bad) (hdrop : bytes.drop position = stream) :
    (parseFrom readValue bytes false position).entries.map Except.toOption
        = salvaged readValue position frames ∧
      (parseFrom readValue bytes false position).fatal.isSome = bad := by
  induction hstream generalizing position with
  | done =>
    rw [parseFrom_end (List.drop_eq_nil_iff.mp hdrop)]
    exact ⟨rfl, rfl⟩
  | bad hne hbegins =>
    have hlt : position < bytes.length := by
      by_contra hge
      rw [List.drop_eq_nil_of_le (by omega)] at hdrop
      exact hne hdrop.symm
    have hfatal : ∃ error, parseFrom readValue bytes false position = ⟨[], some error⟩ := by
      refine parseFrom_bad hlt fun frame next hread => ?_
      obtain ⟨raw, rest, hsplit, hframe, htype, _⟩ := readFrame_eq_some.mp hread
      exact hbegins ⟨frame, raw, rest, hdrop.symm.trans hsplit, hframe, htype⟩
    obtain ⟨error, heq⟩ := hfatal
    rw [heq]
    exact ⟨rfl, rfl⟩
  | @frame frame raw rest frames bad hframe hne hrest ih =>
    have hread : readFrame bytes position = .ok (some (frame, position + raw.length)) :=
      readFrame_eq_some.mpr ⟨raw, rest, hdrop, hframe, hne, rfl⟩
    obtain ⟨hentries, hfatal⟩ := ih (drop_add_of_drop hdrop)
    rw [parseFrom_frame hread, if_neg (by simp), salvaged]
    split_ifs with hunknown
    · exact ⟨hentries, hfatal⟩
    · refine ⟨?_, hfatal⟩
      simp only [List.map_cons, List.singleton_append, toOption_readEntry, hentries]

/-- A frame at the start of the stream. -/
theorem readFrame_zero (hframe : IsFrame frame raw) (hne : frame.typeId ≠ 0) (rest : List UInt8) :
    readFrame (raw ++ rest) 0 = .ok (some (frame, raw.length)) :=
  readFrame_eq_some.mpr ⟨raw, rest, rfl, hframe, hne, (Nat.zero_add _).symm⟩

/-- A stream is read in one way: its first frame is the one that the reader reads. -/
theorem Stream.of_frame {stream : List UInt8} {frames : List (Text.Frame × List UInt8)} {bad : Bool}
    (hstream : Stream stream frames bad) (hsplit : stream = raw ++ rest) (hframe : IsFrame frame raw)
    (hne : frame.typeId ≠ 0) :
    ∃ frames', frames = (frame, raw) :: frames' ∧ Stream rest frames' bad := by
  cases hstream with
  | done =>
    have hpos := hframe.length_pos
    have hlength := congrArg List.length hsplit
    rw [List.length_nil, List.length_append] at hlength
    omega
  | bad _ hbegins => exact absurd ⟨frame, raw, rest, hsplit, hframe, hne⟩ hbegins
  | @frame frame' raw' rest' frames' bad hframe' hne' hrest =>
    have hread := readFrame_zero hframe' hne' rest'
    rw [hsplit, readFrame_zero hframe hne rest] at hread
    obtain ⟨rfl, hlength⟩ := Prod.mk.inj (Option.some.inj (Except.ok.inj hread))
    obtain ⟨rfl, rfl⟩ := List.append_inj hsplit hlength.symm
    exact ⟨frames', rfl, hrest⟩

/-- A first frame of type 10 is not salvaged. -/
theorem length_parseStream_lt {frames : List (Text.Frame × List UInt8)} {bad : Bool}
    (hframe : IsFrame frame raw) (hten : frame.typeId = 10) (hrest : Stream rest frames bad) :
    (parseStream readValue (raw ++ rest)).entries.length
      < (salvaged readValue 0 ((frame, raw) :: frames)).length := by
  have hread := readFrame_zero hframe (by omega) rest
  have hdrop : (raw ++ rest).drop raw.length = rest := List.drop_left
  have hsalvages : (parseFrom readValue (raw ++ rest) false raw.length).entries.map Except.toOption
      = salvaged readValue raw.length frames := (parseFrom_salvages hrest hdrop).1
  have hentries := congrArg List.length hsalvages
  rw [List.length_map] at hentries
  rw [parseStream, parseFrom_frame hread, if_pos ⟨rfl, .inl hten⟩, salvaged, if_neg (by omega),
    Nat.zero_add, List.length_append]
  cases readValue frame.payload with
  | error error => simp
  | ok read =>
    simp only [hentries]
    simp

/-- A stream that does not begin with type 10 is salvaged. -/
theorem salvages_of_not_localMark {bytes : List UInt8} {frames : List (Text.Frame × List UInt8)}
    {bad : Bool} (hstream : Stream bytes frames bad) (h : ¬BeginsLocalMark bytes) :
    Salvages readValue bytes frames bad := by
  cases hstream with
  | done =>
    have hparse : parseStream readValue [] = ⟨[], none⟩ := parseFrom_end le_rfl
    have hnot : ¬Rejected readValue [] := by
      intro h
      obtain ⟨_, _, _, hcons, _⟩ := h
      cases hcons
    refine ⟨.done, fun _ => by rw [hparse]; rfl, fun _ => by rw [hparse], ?_⟩
    simp [hparse, hnot]
  | bad hne hbegins =>
    have hfatal : ∃ error, parseStream readValue bytes = ⟨[], some error⟩ := by
      refine parseFrom_bad (List.length_pos_of_ne_nil hne) fun frame next hread => ?_
      obtain ⟨raw, rest, hsplit, hframe, htype, _⟩ := readFrame_eq_some.mp hread
      exact hbegins ⟨frame, raw, rest, hsplit, hframe, htype⟩
    obtain ⟨error, heq⟩ := hfatal
    exact ⟨.bad hne hbegins, fun _ => by rw [heq]; rfl, fun _ => by rw [heq], by simp [heq]⟩
  | @frame frame raw rest frames bad hframe hne hrest =>
    have hten : frame.typeId ≠ 10 := fun hten => h ⟨frame, raw, rest, rfl, hframe, hten⟩
    have hread := readFrame_zero hframe hne rest
    have hdrop : (raw ++ rest).drop raw.length = rest := List.drop_left
    have hsalvages : (parseFrom readValue (raw ++ rest) false raw.length).entries.map Except.toOption
          = salvaged readValue raw.length frames ∧
        (parseFrom readValue (raw ++ rest) false raw.length).fatal.isSome = bad :=
      parseFrom_salvages hrest hdrop
    obtain ⟨hentries, hfatal⟩ := hsalvages
    have hrejected : Rejected readValue ((frame, raw) :: frames) ↔
        11 < frame.typeId ∧ ∃ error, readValue frame.payload = .error error := by
      constructor
      · intro hrej
        obtain ⟨frame', raw', rest', hcons, hlt, hfails⟩ := hrej
        obtain ⟨heq, _⟩ := List.cons.inj hcons
        obtain ⟨rfl, rfl⟩ := Prod.mk.inj heq
        exact ⟨hlt, hfails⟩
      · exact fun hrej => ⟨frame, raw, frames, rfl, hrej⟩
    have hparse : parseFrom readValue (raw ++ rest) true 0 = _ := parseFrom_frame hread
    by_cases hunknown : 11 < frame.typeId
    · rw [if_pos ⟨rfl, .inr hunknown⟩] at hparse
      cases hvalue : readValue frame.payload with
      | error error =>
        rw [hvalue] at hparse
        have hrej := hrejected.mpr ⟨hunknown, error, hvalue⟩
        exact ⟨.frame hframe hne hrest, fun hnot => absurd hrej hnot,
          fun _ => by rw [parseStream, hparse], by simp [parseStream, hparse, hrej]⟩
      | ok read =>
        rw [hvalue] at hparse
        have hnot : ¬Rejected readValue ((frame, raw) :: frames) := by
          rw [hrejected, hvalue]
          simp
        refine ⟨.frame hframe hne hrest, fun _ => ?_, fun hrej => absurd hrej hnot, ?_⟩
        · rw [parseStream, hparse, salvaged, if_pos hunknown, Nat.zero_add]
          exact hentries
        · simp [parseStream, hparse, hfatal, hnot]
    · have hnot : ¬Rejected readValue ((frame, raw) :: frames) := fun hrej =>
        hunknown (hrejected.mp hrej).1
      rw [if_neg (by simp [hten, hunknown]), if_neg hunknown] at hparse
      refine ⟨.frame hframe hne hrest, fun _ => ?_, fun hrej => absurd hrej hnot, ?_⟩
      · rw [parseStream, hparse, salvaged, if_neg hunknown, Nat.zero_add]
        simp only [List.map_cons, List.singleton_append, toOption_readEntry, hentries]
      · simp [parseStream, hparse, hfatal, hnot]

/-- What is salvaged of written entries is the entries. -/
theorem salvaged_written {writeValue : MsgpackValue → List UInt8} {entries : List ShaDaEntry}
    (htypes : ∀ entry ∈ entries, entry.typeId.toNat ≤ 11)
    (hreads : ∀ entry ∈ entries, readValue (writeValue entry.data)
      = .ok (entry.data, (writeValue entry.data).length)) (start : Nat) :
    (salvaged readValue start (entries.map fun entry =>
        (frameOf writeValue entry, writeEntry writeValue entry))).map
          (·.map fun raw => (raw.typeId, raw.timestamp, raw.data))
      = entries.map fun entry =>
          some (entry.typeId.toNat, entry.timestamp.toNat, entry.data) := by
  induction entries generalizing start with
  | nil => rfl
  | cons entry entries ih =>
    have hknown : ¬11 < (frameOf writeValue entry).typeId :=
      Nat.not_lt.mpr (htypes entry List.mem_cons_self)
    have hdecoded : decoded readValue start (frameOf writeValue entry)
        = some ⟨start, entry.timestamp.toNat, entry.typeId.toNat, entry.data⟩ := by
      have hread : readValue (frameOf writeValue entry).payload
          = .ok (entry.data, (writeValue entry.data).length) := hreads entry List.mem_cons_self
      rw [decoded, hread]
      exact if_pos rfl
    have hrest := ih (fun other hother => htypes other (List.mem_cons_of_mem _ hother))
      (fun other hother => hreads other (List.mem_cons_of_mem _ hother))
      (start + (writeEntry writeValue entry).length)
    rw [List.map_cons, salvaged, if_neg hknown, hdecoded, List.map_append, hrest]
    rfl

end Steps

/-- A stream is read back as the entries that it was written for, without errors. -/
def ReadsBack (entries : List ShaDaEntry) (bytes : List UInt8) : Prop :=
  (parseStream readValue bytes).fatal = none ∧
    (parseStream readValue bytes).entries.map
        (fun entry => entry.toOption.map fun raw => (raw.typeId, raw.timestamp, raw.data))
      = entries.map fun entry => some (entry.typeId.toNat, entry.timestamp.toNat, entry.data)

variable {readValue} in
/-- Written entries are read back exactly when the first of them is no local mark. -/
theorem readsBack_iff {writeValue : MsgpackValue → List UInt8} {entries : List ShaDaEntry}
    (htypes : ∀ entry ∈ entries, 1 ≤ entry.typeId.toNat ∧ entry.typeId.toNat ≤ 11)
    (hwrites : ∀ entry ∈ entries, WritesUints writeValue entry)
    (hreads : ∀ entry ∈ entries, readValue (writeValue entry.data)
      = .ok (entry.data, (writeValue entry.data).length)) :
    ReadsBack readValue entries (entries.flatMap (writeEntry writeValue)) ↔
      ∀ entry, entries.head? = some entry → entry.typeId.toNat ≠ 10 := by
  have hzero : ∀ entry ∈ entries, entry.typeId ≠ 0 := by
    intro entry hentry heq
    have hone := (htypes entry hentry).1
    rw [heq] at hone
    exact absurd hone (by decide)
  have hstream := stream_write hwrites hzero
  have hsalvaged := salvaged_written (fun entry hentry => (htypes entry hentry).2) hreads 0
  cases entries with
  | nil =>
    have hparse : parseStream readValue [] = ⟨[], none⟩ := parseFrom_end le_rfl
    refine iff_of_true ⟨?_, ?_⟩ (by simp)
    · rw [List.flatMap_nil, hparse]
    · rw [List.flatMap_nil, hparse]
      rfl
  | cons entry entries =>
    have hframe := isFrame_writeEntry (hwrites entry List.mem_cons_self)
    have hknown : (frameOf writeValue entry).typeId ≤ 11 := (htypes entry List.mem_cons_self).2
    have hne : (frameOf writeValue entry).typeId ≠ 0 :=
      Nat.ne_of_gt (htypes entry List.mem_cons_self).1
    rw [List.flatMap_cons] at hstream ⊢
    by_cases hten : entry.typeId.toNat = 10
    · refine iff_of_false ?_ (fun h => h entry rfl hten)
      rintro ⟨_, hentries⟩
      obtain ⟨frames, hframes, hrest⟩ := Stream.of_frame hstream rfl hframe hne
      have hlt : _ < (salvaged readValue 0 _).length := length_parseStream_lt hframe hten hrest
      have hlength := congrArg List.length hentries
      have hsalvagedLength := congrArg List.length hsalvaged
      rw [hframes] at hsalvagedLength
      simp only [List.length_map] at hlength hsalvagedLength
      omega
    · have hnotMark : ¬BeginsLocalMark
          (writeEntry writeValue entry ++ entries.flatMap (writeEntry writeValue)) := by
        rintro ⟨frame, raw, rest, hsplit, hframe', hten'⟩
        have hread := readFrame_zero hframe hne (entries.flatMap (writeEntry writeValue))
        rw [hsplit, readFrame_zero hframe' (by omega) rest] at hread
        obtain ⟨rfl, _⟩ := Prod.mk.inj (Option.some.inj (Except.ok.inj hread))
        exact hten hten'
      have hsalvages : Salvages readValue _ _ false := salvages_of_not_localMark hstream hnotMark
      have hnot : ¬Rejected readValue ((entry :: entries).map fun entry =>
          (frameOf writeValue entry, writeEntry writeValue entry)) := by
        rintro ⟨frame', raw', rest', hcons, hunknown, _⟩
        obtain ⟨heq, _⟩ := List.cons.inj hcons
        obtain ⟨rfl, rfl⟩ := Prod.mk.inj heq
        omega
      refine iff_of_true ⟨?_, ?_⟩ ?_
      · refine Option.not_isSome_iff_eq_none.mp fun hsome => ?_
        rcases hsalvages.fatal.mp hsome with hbad | hrejected
        · exact Bool.noConfusion hbad
        · exact hnot hrejected
      · rw [← hsalvaged, ← hsalvages.entries hnot, List.map_map]
        rfl
      · intro first hfirst
        rwa [← Option.some.inj hfirst]

/-- The reader is right about a stream, and about a written one, exactly when the stream does not
begin with a local mark. -/
theorem parseStream_iff (writeValue : MsgpackValue → List UInt8) (bytes : List UInt8) (self : ShaDa)
    (maxKbyte : Nat)
    (htypes : ∀ entry ∈ self.entries, 1 ≤ entry.typeId.toNat ∧ entry.typeId.toNat ≤ 11)
    (hwrites : ∀ entry ∈ self.entries, WritesUints writeValue entry)
    (hreads : ∀ entry ∈ self.entries, readValue (writeValue entry.data)
      = .ok (entry.data, (writeValue entry.data).length)) :
    ((∃ frames bad, Salvages readValue bytes frames bad) ↔ ¬BeginsLocalMark bytes) ∧
      (ReadsBack readValue (writtenEntries writeValue self maxKbyte) (self.write writeValue maxKbyte) ↔
        ∀ entry, (writtenEntries writeValue self maxKbyte).head? = some entry →
          entry.typeId.toNat ≠ 10) := by
  constructor
  · constructor
    · rintro ⟨frames, bad, hsalvages⟩ ⟨frame, raw, rest, rfl, hframe, hten⟩
      obtain ⟨frames', rfl, hrest⟩ := Stream.of_frame hsalvages.stream rfl hframe (by omega)
      have hlt : _ < (salvaged readValue 0 ((frame, raw) :: frames')).length :=
        length_parseStream_lt hframe hten hrest
      have hnot : ¬Rejected readValue ((frame, raw) :: frames') := by
        rintro ⟨frame', raw', rest', hcons, hunknown, _⟩
        obtain ⟨heq, _⟩ := List.cons.inj hcons
        obtain ⟨rfl, rfl⟩ := Prod.mk.inj heq
        omega
      have hlength := congrArg List.length (hsalvages.entries hnot)
      rw [List.length_map] at hlength
      omega
    · intro h
      obtain ⟨frames, bad, hstream⟩ := exists_stream bytes
      exact ⟨frames, bad, salvages_of_not_localMark hstream h⟩
  · -- the entries that are kept satisfy what all do
    have hkept : ∀ entry ∈ writtenEntries writeValue self maxKbyte, entry ∈ self.entries :=
      fun entry hentry => List.mem_of_mem_filter hentry
    exact readsBack_iff (fun entry hentry => htypes entry (hkept entry hentry))
      (fun entry hentry => hwrites entry (hkept entry hentry))
      (fun entry hentry => hreads entry (hkept entry hentry))

end Stream

/-! ## A codec of small values -/

/-- Small integers and nil as they are written. -/
def writeSmall : MsgpackValue → List UInt8
  | .integer n => [n.toNat.toUInt8]
  | _ => [0xc0]

/-- Nil as it is read. -/
def readSmall : List UInt8 → Except String (MsgpackValue × Nat)
  | [] => .error "failed to fill whole buffer"
  | byte :: _ => if byte = 0xc0 then .ok (.nil, 1) else .ok (.integer byte.toNat, 1)

/-- A header with an empty value is read back. -/
theorem parseStream_iff_header :
    ReadsBack readSmall [⟨1, 0, .nil⟩] ((ShaDa.mk [⟨1, 0, .nil⟩]).write writeSmall 0) := by
  have huint : IsUint 1 [1] ∧ IsUint 0 [0] := ⟨.fixed 1 (by decide), .fixed 0 (by decide)⟩
  have hwrites : ∀ entry ∈ (ShaDa.mk [⟨1, 0, .nil⟩]).entries, WritesUints writeSmall entry := by
    intro entry hentry
    obtain rfl := List.mem_singleton.mp hentry
    exact ⟨huint.1, huint.2, huint.1⟩
  have h := parseStream_iff readSmall writeSmall [] (ShaDa.mk [⟨1, 0, .nil⟩]) 0
    (by
      intro entry hentry
      obtain rfl := List.mem_singleton.mp hentry
      decide)
    hwrites
    (by
      intro entry hentry
      obtain rfl := List.mem_singleton.mp hentry
      rfl)
  refine h.2.mpr ?_
  intro entry hentry
  obtain rfl := Option.some.inj hentry
  decide

/-- A stream that begins with a local mark loses it. -/
theorem not_salvages_localMark :
    ¬∃ frames bad, Salvages readSmall [10, 0, 1, 0xc0] frames bad := by
  rintro ⟨frames, bad, hsalvages⟩
  have hframe : IsFrame ⟨10, 0, [0xc0]⟩ [10, 0, 1, 0xc0] :=
    ⟨[10], [0], [1], .fixed 10 (by decide), .fixed 0 (by decide), .fixed 1 (by decide), rfl⟩
  obtain ⟨frames', rfl, hrest⟩ := Stream.of_frame hsalvages.stream rfl hframe (by decide)
  have hlt : _ < (salvaged readSmall 0 ((⟨10, 0, [0xc0]⟩, [10, 0, 1, 0xc0]) :: frames')).length :=
    length_parseStream_lt hframe rfl hrest
  have hnot : ¬Rejected readSmall ((⟨10, 0, [0xc0]⟩, [10, 0, 1, 0xc0]) :: frames') := by
    rintro ⟨frame, raw, rest, hcons, hunknown, _⟩
    obtain ⟨heq, _⟩ := List.cons.inj hcons
    obtain ⟨rfl, rfl⟩ := Prod.mk.inj heq
    exact absurd hunknown (by decide)
  have hlength := congrArg List.length (hsalvages.entries hnot)
  rw [List.length_map] at hlength
  rw [List.append_nil] at hlt
  omega

end Oxvim.Editor.ShaDaReader
