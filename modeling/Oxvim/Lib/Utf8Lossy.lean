import Oxvim.Lib.Utf8Char

/-!
# Lossy decoding

Bytes that are not valid UTF-8 are decoded with `U+FFFD` in the place of each longest piece of a
sequence that turned out to be invalid. Nothing is replaced in the encoding of a text.
-/

namespace Lib.Utf8

/-- How many bytes the sequence of a lead byte has; a byte that leads none stands alone. -/
def sequenceLength (lead : UInt8) : Nat :=
  1 + (followers lead).getD 0

/-- Whether a valid sequence can begin with these two bytes. -/
def Begins (lead second : UInt8) : Prop :=
  if lead = 0xE0 then 0xA0 ≤ second ∧ second ≤ 0xBF
  else if lead = 0xED then 0x80 ≤ second ∧ second ≤ 0x9F
  else if lead = 0xF0 then 0x90 ≤ second ∧ second ≤ 0xBF
  else if lead = 0xF4 then 0x80 ≤ second ∧ second ≤ 0x8F
  else 0x80 ≤ second ∧ second ≤ 0xBF

instance (lead second : UInt8) : Decidable (Begins lead second) := by
  unfold Begins
  infer_instance

instance (b : UInt8) : Decidable (IsContinuation b) :=
  inferInstanceAs (Decidable (_ ∧ _))

/-- How many of the bytes behind a lead byte belong to a sequence before it turns out to be
invalid. -/
def tornBytes (lead : UInt8) (rest : List UInt8) : Nat :=
  match (followers lead).getD 0, rest with
  | 2, second :: _ => if Begins lead second then 1 else 0
  | 3, second :: third :: _ =>
    if Begins lead second then if IsContinuation third then 2 else 1 else 0
  | 3, [second] => if Begins lead second then 1 else 0
  | _, _ => 0

/-- `String::from_utf8_lossy`. -/
def fromUtf8Lossy : List UInt8 → List Char
  | [] => []
  | lead :: rest =>
    match decode? ((lead :: rest).take (sequenceLength lead)) with
    | some text => text ++ fromUtf8Lossy ((lead :: rest).drop (sequenceLength lead))
    | none => '\uFFFD' :: fromUtf8Lossy (rest.drop (tornBytes lead rest))
termination_by bytes => bytes.length
decreasing_by
  · simp only [sequenceLength, List.length_drop, List.length_cons]
    omega
  · simp only [List.length_drop, List.length_cons]
    omega

theorem fromUtf8Lossy_nil : fromUtf8Lossy [] = [] := by
  rw [fromUtf8Lossy]

/-- The sequence of a character is as long as its lead byte says. -/
theorem utf8EncodeChar_length (c : Char) : ∃ lead tail, String.utf8EncodeChar c = lead :: tail ∧
    sequenceLength lead = (lead :: tail).length := by
  rcases utf8EncodeChar_cases c with ⟨hascii, henc⟩ | ⟨lead, tail, henc, hfollowers, -⟩
  · refine ⟨_, [], henc, ?_⟩
    rw [sequenceLength, followers_ascii hascii]
    rfl
  · refine ⟨lead, tail, henc, ?_⟩
    rw [sequenceLength, hfollowers, Option.getD_some, List.length_cons, Nat.add_comm]

/-- Nothing is replaced in an encoding. -/
theorem fromUtf8Lossy_encode (text : List Char) : fromUtf8Lossy (encode text) = text := by
  induction text with
  | nil => exact fromUtf8Lossy_nil
  | cons c text ih =>
    obtain ⟨lead, tail, henc, hlength⟩ := utf8EncodeChar_length c
    have htake : (lead :: (tail ++ encode text)).take (sequenceLength lead) = lead :: tail := by
      rw [hlength, ← List.cons_append, List.take_left]
    have hdrop : (lead :: (tail ++ encode text)).drop (sequenceLength lead) = encode text := by
      rw [hlength, ← List.cons_append, List.drop_left]
    have hdecode : decode? (lead :: tail) = some [c] := by
      rw [decode?_eq_some_iff, ← henc, encode_cons, encode_nil, List.append_nil]
    rw [encode_cons, henc, List.cons_append, fromUtf8Lossy, htake, hdrop, hdecode]
    exact congrArg (c :: ·) ih

/-- No text begins with a byte that is neither ASCII nor a lead byte. -/
theorem decode?_eq_none_of_lead {lead : UInt8} (hascii : 128 ≤ lead.toNat)
    (hlead : followers lead = none) (rest : List UInt8) : decode? (lead :: rest) = none := by
  cases hdecode : decode? (lead :: rest) with
  | none => rfl
  | some text =>
    have henc := decode?_eq_some_iff.mp hdecode
    cases text with
    | nil => cases henc
    | cons c text =>
      rw [encode_cons] at henc
      rcases utf8EncodeChar_cases c with ⟨hlow, hbytes⟩ | ⟨first, tail, hbytes, hfollowers, -⟩
      · rw [hbytes, List.singleton_append] at henc
        obtain rfl := (List.cons.inj henc).1
        rw [UInt8.toNat_ofNat', Nat.mod_eq_of_lt (by omega)] at hascii
        omega
      · rw [hbytes, List.cons_append] at henc
        obtain rfl := (List.cons.inj henc).1
        rw [hlead] at hfollowers
        cases hfollowers

end Lib.Utf8
