import Oxvim.Lib.Utf8Char

/-!
# Character boundaries

Where the characters of an encoded text begin. In valid UTF-8 these are the bytes that are no
continuation bytes.
-/

namespace Lib.Utf8

/-- The offset is between two characters, or at an end of the text. -/
def Boundary (bs : List UInt8) (k : Nat) : Prop :=
  ∃ before after, bs = encode (before ++ after) ∧ k = (encode before).length

/-- The offset is that of the first byte of a character. -/
def CharStart (bs : List UInt8) (k : Nat) : Prop :=
  ∃ before c after, bs = encode (before ++ c :: after) ∧ k = (encode before).length

theorem CharStart.boundary {bs : List UInt8} {k : Nat} (h : CharStart bs k) : Boundary bs k := by
  obtain ⟨before, c, after, hbs, hk⟩ := h
  exact ⟨before, c :: after, hbs, hk⟩

/-- The first byte of a character is no continuation byte. -/
theorem utf8EncodeChar_lead (c : Char) : ∃ lead tail, String.utf8EncodeChar c = lead :: tail ∧
    lead &&& 0xC0 ≠ 0x80 := by
  rcases utf8EncodeChar_cases c with ⟨hascii, henc⟩ | ⟨lead, tail, henc, hfollowers, -⟩
  · have hall : ∀ n : Fin 128, UInt8.ofNat n &&& 0xC0 ≠ 0x80 := by decide
    exact ⟨_, [], henc, hall ⟨c.toNat, hascii⟩⟩
  · have hall : ∀ n : Fin 64, UInt8.ofNat (n + 192) &&& 0xC0 ≠ 0x80 := by decide
    have hlead := lead_of_followers hfollowers
    have hlt := lead.toNat_lt
    refine ⟨lead, tail, henc, ?_⟩
    have hn := hall ⟨lead.toNat - 192, by omega⟩
    rwa [Nat.sub_add_cancel (by omega), UInt8.ofNat_toNat] at hn

theorem utf8EncodeChar_pos (c : Char) : 0 < (String.utf8EncodeChar c).length := by
  obtain ⟨lead, tail, henc, -⟩ := utf8EncodeChar_lead c
  simp [henc]

theorem encode_eq_nil_iff {cs : List Char} : encode cs = [] ↔ cs = [] := by
  constructor
  · intro h
    cases cs with
    | nil => rfl
    | cons c cs =>
      have hpos := utf8EncodeChar_pos c
      rw [encode_cons, List.append_eq_nil_iff] at h
      simp [h.1] at hpos
  · rintro rfl
    rfl

/-- Where a character begins stands its first byte. -/
theorem getElem?_encode_append (before : List Char) (c : Char) (after : List Char) :
    ∃ lead, (encode (before ++ c :: after))[(encode before).length]? = some lead ∧
      lead &&& 0xC0 ≠ 0x80 := by
  obtain ⟨lead, tail, henc, hlead⟩ := utf8EncodeChar_lead c
  refine ⟨lead, ?_, hlead⟩
  rw [encode_append, List.getElem?_append_right le_rfl, Nat.sub_self, encode_cons, henc]
  rfl

section Valid

variable {bs : List UInt8} {k : Nat}

theorem Boundary.le (h : Boundary bs k) : k ≤ bs.length := by
  obtain ⟨before, after, rfl, rfl⟩ := h
  rw [encode_append, List.length_append]
  omega

theorem boundary_iff (h : (decode? bs).isSome) :
    Boundary bs k ↔ k ≤ bs.length ∧ ∀ b, bs[k]? = some b → b &&& 0xC0 ≠ 0x80 := by
  constructor
  · intro hboundary
    refine ⟨hboundary.le, ?_⟩
    obtain ⟨before, after, rfl, rfl⟩ := hboundary
    intro b hb
    cases after with
    | nil => simp at hb
    | cons c after =>
      obtain ⟨lead, hget, hlead⟩ := getElem?_encode_append before c after
      rw [Option.some.inj (hb.symm.trans hget)]
      exact hlead
  · rintro ⟨hle, hcut⟩
    obtain ⟨htake, hdrop⟩ := decode?_cut h hcut
    obtain ⟨before, hbefore⟩ := Option.isSome_iff_exists.mp htake
    obtain ⟨after, hafter⟩ := Option.isSome_iff_exists.mp hdrop
    rw [decode?_eq_some_iff] at hbefore hafter
    refine ⟨before, after, ?_, ?_⟩
    · rw [encode_append, hbefore, hafter, List.take_append_drop]
    · rw [hbefore, List.length_take]
      omega

/-- A boundary before the end is where a character begins. -/
theorem charStart_iff : CharStart bs k ↔ Boundary bs k ∧ k < bs.length := by
  constructor
  · intro h
    refine ⟨h.boundary, ?_⟩
    obtain ⟨before, c, after, rfl, rfl⟩ := h
    have hpos := utf8EncodeChar_pos c
    rw [encode_append, encode_cons, List.length_append, List.length_append]
    omega
  · rintro ⟨⟨before, after, rfl, rfl⟩, hlt⟩
    cases after with
    | nil => simp at hlt
    | cons c after => exact ⟨before, c, after, rfl, rfl⟩

/-- Before and behind an ASCII byte are boundaries. -/
theorem boundary_of_ascii {b : UInt8} (h : (decode? bs).isSome) (hb : bs[k]? = some b)
    (hascii : b < 0x80) : Boundary bs k ∧ Boundary bs (k + 1) := by
  have hlt : k < bs.length := (List.getElem?_eq_some_iff.mp hb).1
  have hcut : b &&& 0xC0 ≠ 0x80 := by
    have hall : ∀ n : Fin 128, UInt8.ofNat n &&& 0xC0 ≠ 0x80 := by decide
    have hn := hall ⟨b.toNat, hascii⟩
    rwa [UInt8.ofNat_toNat] at hn
  have hk : Boundary bs k := (boundary_iff h).mpr ⟨hlt.le, fun c hc =>
    Option.some.inj (hb.symm.trans hc) ▸ hcut⟩
  refine ⟨hk, ?_⟩
  obtain ⟨before, c, after, rfl, rfl⟩ := charStart_iff.mpr ⟨hk, hlt⟩
  rw [encode_append, List.getElem?_append_right le_rfl, Nat.sub_self, encode_cons] at hb
  rcases utf8EncodeChar_cases c with ⟨-, henc⟩ | ⟨lead, tail, henc, hfollowers, -⟩
  · exact ⟨before ++ [c], after, by rw [List.append_assoc]; rfl, by simp [henc]⟩
  · rw [henc] at hb
    obtain rfl : lead = b := Option.some.inj hb
    have hlead := lead_of_followers hfollowers
    have hsmall : lead.toNat < 128 := hascii
    omega

/-- The last byte begins a character just where the last character has one byte. -/
theorem charStart_last_iff (cs : List Char) (c : Char) :
    CharStart (encode (cs ++ [c])) ((encode (cs ++ [c])).length - 1) ↔
      (String.utf8EncodeChar c).length = 1 := by
  have hpos := utf8EncodeChar_pos c
  have hlength : (encode (cs ++ [c])).length
      = (encode cs).length + (String.utf8EncodeChar c).length := by
    rw [encode_append, List.length_append, encode_cons, encode_nil, List.append_nil]
  constructor
  · intro h
    by_contra hwide
    -- the last byte is then a continuation byte of the last character
    have hmem : (String.utf8EncodeChar c)[(String.utf8EncodeChar c).length - 1]
        ∈ (String.utf8EncodeChar c).tail := by
      rw [List.mem_iff_getElem]
      refine ⟨(String.utf8EncodeChar c).length - 2, by rw [List.length_tail]; omega, ?_⟩
      rw [List.getElem_tail]
      congr 1
      omega
    refine ((boundary_iff ?_).mp h.boundary).2 _ ?_ (utf8EncodeChar_continuation hmem)
    · rw [decode?_encode]
      rfl
    · rw [hlength, encode_append, List.getElem?_append_right (by omega), encode_cons, encode_nil,
        List.append_nil, List.getElem?_eq_getElem (by omega)]
      congr 2
      omega
  · intro hone
    refine ⟨cs, c, [], rfl, ?_⟩
    rw [hlength]
    omega

end Valid

end Lib.Utf8
