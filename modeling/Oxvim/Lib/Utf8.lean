import Oxvim.Lib.Lines

/-!
# UTF-8 on lists of bytes

`encode` and `decode?` are the list versions of what the core library has on byte arrays. The two
facts that text code lives on are here: decoding is exactly the inverse of encoding, and the byte
of an ASCII character occurs in the encoding only where that character occurs in the text, so that
splitting at a line feed is the same on bytes and on characters.
-/

namespace Lib.Utf8

/-- The UTF-8 bytes of a character sequence. -/
def encode (cs : List Char) : List UInt8 :=
  cs.flatMap String.utf8EncodeChar

/-- The character sequence of a byte sequence, when it is valid UTF-8. -/
def decode? (bs : List UInt8) : Option (List Char) :=
  (ByteArray.utf8Decode? bs.toByteArray).map Array.toList

@[simp] theorem encode_nil : encode [] = [] := rfl

@[simp] theorem encode_cons (c : Char) (cs : List Char) :
    encode (c :: cs) = String.utf8EncodeChar c ++ encode cs := rfl

@[simp] theorem encode_append (cs ds : List Char) : encode (cs ++ ds) = encode cs ++ encode ds := by
  simp [encode]

theorem utf8Encode_eq_encode (cs : List Char) : cs.utf8Encode = (encode cs).toByteArray := rfl

@[simp] theorem decode?_encode (cs : List Char) : decode? (encode cs) = some cs := by
  rw [decode?, ← utf8Encode_eq_encode, List.utf8Decode?_utf8Encode]
  simp

/-- Decoding succeeds on exactly the encodings, and inverts them. -/
theorem decode?_eq_some_iff {bs : List UInt8} {cs : List Char} :
    decode? bs = some cs ↔ encode cs = bs := by
  constructor
  · intro h
    obtain ⟨arr, harr, rfl⟩ := Option.map_eq_some_iff.mp h
    have hsome : (ByteArray.utf8Decode? bs.toByteArray).isSome := by simp [harr]
    have hback := ByteArray.utf8Encode_get_utf8Decode? (b := bs.toByteArray) (h := hsome)
    simp only [harr, Option.get_some] at hback
    rw [utf8Encode_eq_encode] at hback
    have := congrArg (fun b : ByteArray => b.data.toList) hback
    simpa using this
  · rintro rfl
    exact decode?_encode cs

theorem encode_injective : Function.Injective encode := by
  intro cs ds h
  have := decode?_encode cs
  rw [h, decode?_encode] at this
  exact (Option.some.inj this).symm

/-! ## ASCII bytes -/

/-- Outside ASCII every byte of an encoded character has its high bit set. -/
theorem utf8EncodeChar_ge_128 {c : Char} (hc : 127 < c.val.toNat) :
    ∀ b ∈ String.utf8EncodeChar c, 128 ≤ b.toNat := by
  have hmod : ∀ v k n o : Nat, 0 < k → o + k ≤ 256 → 128 ≤ o →
      128 ≤ (UInt8.ofNat (v / n % k + o)).toNat := by
    intro v k n o hk ho h128
    have hlt : v / n % k < k := Nat.mod_lt _ hk
    rw [UInt8.toNat_ofNat', Nat.mod_eq_of_lt (by omega)]
    omega
  intro b hb
  have hmod₁ := fun v k o => hmod v k 1 o
  simp only [Nat.div_one] at hmod₁
  unfold String.utf8EncodeChar at hb
  simp only at hb
  split at hb
  · omega
  · split at hb
    · simp only [List.mem_cons, List.not_mem_nil, or_false] at hb
      rcases hb with rfl | rfl
      · exact hmod _ _ _ _ (by decide) (by decide) (by decide)
      · exact hmod₁ _ _ _ (by decide) (by decide) (by decide)
    · split at hb
      · simp only [List.mem_cons, List.not_mem_nil, or_false] at hb
        rcases hb with rfl | rfl | rfl
        · exact hmod _ _ _ _ (by decide) (by decide) (by decide)
        · exact hmod _ _ _ _ (by decide) (by decide) (by decide)
        · exact hmod₁ _ _ _ (by decide) (by decide) (by decide)
      · simp only [List.mem_cons, List.not_mem_nil, or_false] at hb
        rcases hb with rfl | rfl | rfl | rfl
        · exact hmod _ _ _ _ (by decide) (by decide) (by decide)
        · exact hmod _ _ _ _ (by decide) (by decide) (by decide)
        · exact hmod _ _ _ _ (by decide) (by decide) (by decide)
        · exact hmod₁ _ _ _ (by decide) (by decide) (by decide)

/-- The line feed byte is the encoding of the line feed and part of no other character's. -/
theorem mem_utf8EncodeChar_newline {c : Char} : 10 ∈ String.utf8EncodeChar c ↔ c = '\n' := by
  constructor
  · intro h
    by_cases hc : c.val.toNat ≤ 127
    · have henc : String.utf8EncodeChar c = [UInt8.ofNat c.val.toNat] := by
        unfold String.utf8EncodeChar
        exact if_pos hc
      rw [henc, List.mem_singleton] at h
      have h' := congrArg UInt8.toNat h
      rw [UInt8.toNat_ofNat', Nat.mod_eq_of_lt (by omega)] at h'
      exact Char.ext (UInt32.toNat_inj.mp h'.symm)
    · have := utf8EncodeChar_ge_128 (by omega) 10 h
      exact absurd this (by decide)
  · rintro rfl
    decide

theorem newline_mem_encode {cs : List Char} : 10 ∈ encode cs ↔ '\n' ∈ cs := by
  simp only [encode, List.mem_flatMap, mem_utf8EncodeChar_newline]
  constructor
  · rintro ⟨c, hc, rfl⟩
    exact hc
  · intro h
    exact ⟨_, h, rfl⟩

theorem encode_newline : String.utf8EncodeChar '\n' = [10] := by decide

theorem getLast?_encode_newline {cs : List Char} :
    (encode cs).getLast? = some 10 ↔ cs.getLast? = some '\n' := by
  rcases List.eq_nil_or_concat' cs with rfl | ⟨ds, c, rfl⟩
  · simp
  · rw [encode_append, List.getLast?_concat]
    have hc : encode [c] = String.utf8EncodeChar c := by simp
    have hsome := List.getLast?_eq_some_getLast (String.utf8EncodeChar_ne_nil (c := c))
    rw [hc, List.getLast?_append, hsome, Option.some_or]
    constructor
    · intro h
      have hmem : 10 ∈ String.utf8EncodeChar c := by
        rw [← Option.some.inj h]
        exact List.getLast_mem _
      rw [mem_utf8EncodeChar_newline.mp hmem]
    · rintro ⟨⟩
      decide

/-- Encoding a text line by line or as a whole is the same. -/
theorem encode_terminated (ls : List (List Char)) :
    encode (terminated '\n' ls) = terminated 10 (ls.map encode) := by
  induction ls with
  | nil => rfl
  | cons l ls ih => simp [ih, encode_newline]

theorem encode_joined (ls : List (List Char)) :
    encode (joined '\n' ls) = joined 10 (ls.map encode) := by
  induction ls with
  | nil => rfl
  | cons l ls ih =>
    cases ls with
    | nil => simp
    | cons m ms =>
      have hcons : joined '\n' (l :: m :: ms) = l ++ '\n' :: joined '\n' (m :: ms) := rfl
      rw [hcons, encode_append, encode_cons, encode_newline, ih]
      rfl

/-! ## Cutting -/

/-- The bytes of a character behind the first are continuation bytes. -/
theorem utf8EncodeChar_continuation {c : Char} {b : UInt8}
    (hb : b ∈ (String.utf8EncodeChar c).tail) : b &&& 0xC0 = 0x80 := by
  have hmod : ∀ m : Nat, UInt8.ofNat (m % 64 + 128) &&& 0xC0 = 0x80 := fun m =>
    (by decide : ∀ x : Fin 64, UInt8.ofNat (x + 128) &&& 0xC0 = 0x80)
      ⟨m % 64, Nat.mod_lt _ (by decide)⟩
  unfold String.utf8EncodeChar at hb
  simp only at hb
  split at hb
  · simp at hb
  · split at hb
    · simp only [List.tail_cons, List.mem_cons, List.not_mem_nil, or_false] at hb
      subst hb
      exact hmod _
    · split at hb
      · simp only [List.tail_cons, List.mem_cons, List.not_mem_nil, or_false] at hb
        rcases hb with rfl | rfl <;> exact hmod _
      · simp only [List.tail_cons, List.mem_cons, List.not_mem_nil, or_false] at hb
        rcases hb with rfl | rfl | rfl <;> exact hmod _

/-- Valid text can be cut where no continuation byte follows. -/
theorem decode?_cut {bs : List UInt8} {k : Nat} (h : (decode? bs).isSome)
    (hk : ∀ b, bs[k]? = some b → b &&& 0xC0 ≠ 0x80) :
    (decode? (bs.take k)).isSome ∧ (decode? (bs.drop k)).isSome := by
  obtain ⟨cs, hcs⟩ := Option.isSome_iff_exists.mp h
  rw [decode?_eq_some_iff] at hcs
  subst hcs
  suffices h : ∃ xs ys, (encode cs).take k = encode xs ∧ (encode cs).drop k = encode ys by
    obtain ⟨xs, ys, hx, hy⟩ := h
    rw [hx, hy, decode?_encode, decode?_encode]
    exact ⟨rfl, rfl⟩
  clear h
  induction cs generalizing k with
  | nil => exact ⟨[], [], by simp, by simp⟩
  | cons c cs ih =>
    rw [encode_cons] at hk ⊢
    by_cases hlen : (String.utf8EncodeChar c).length ≤ k
    · obtain ⟨xs, ys, hx, hy⟩ := ih (k := k - (String.utf8EncodeChar c).length) fun b hb =>
        hk b (by rw [List.getElem?_append_right hlen]; exact hb)
      refine ⟨c :: xs, ys, ?_, ?_⟩
      · rw [List.take_append, List.take_of_length_le hlen, hx, encode_cons]
      · rw [List.drop_append, List.drop_eq_nil_of_le hlen, hy, List.nil_append]
    · have hlt : k < (String.utf8EncodeChar c).length := by omega
      by_cases hzero : k = 0
      · subst hzero
        exact ⟨[], c :: cs, by simp, by simp⟩
      · -- a cut inside a character is followed by a continuation byte
        refine absurd (utf8EncodeChar_continuation (c := c) ?_) (hk (String.utf8EncodeChar c)[k] ?_)
        · rw [List.mem_iff_getElem]
          exact ⟨k - 1, by rw [List.length_tail]; omega, by rw [List.getElem_tail]; congr 1; omega⟩
        · rw [List.getElem?_append_left hlt, List.getElem?_eq_getElem hlt]

theorem decode?_append {as bs : List UInt8} (ha : (decode? as).isSome) (hb : (decode? bs).isSome) :
    (decode? (as ++ bs)).isSome := by
  obtain ⟨cs, hcs⟩ := Option.isSome_iff_exists.mp ha
  obtain ⟨ds, hds⟩ := Option.isSome_iff_exists.mp hb
  rw [decode?_eq_some_iff] at hcs hds
  rw [← hcs, ← hds, ← encode_append, decode?_encode]
  rfl

end Lib.Utf8
