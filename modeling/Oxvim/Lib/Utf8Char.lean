import Oxvim.Lib.Utf8

/-!
# The bytes of one character

A character is one ASCII byte, or a lead byte that tells how many continuation bytes follow it.
-/

namespace Lib.Utf8

/-- How many bytes follow a lead byte of a valid encoding; a byte below `0x80` is a character itself. -/
def followers (lead : UInt8) : Option Nat :=
  if 0xc2 ≤ lead ∧ lead ≤ 0xdf then some 1
  else if 0xe0 ≤ lead ∧ lead ≤ 0xef then some 2
  else if 0xf0 ≤ lead ∧ lead ≤ 0xf4 then some 3
  else none

/-- A continuation byte. -/
def IsContinuation (b : UInt8) : Prop := 0x80 ≤ b ∧ b ≤ 0xbf

theorem ofNat_between {n low high : Nat} (hlow : low ≤ n) (hhigh : n ≤ high) (h : high < 256) :
    UInt8.ofNat low ≤ UInt8.ofNat n ∧ UInt8.ofNat n ≤ UInt8.ofNat high := by
  rw [UInt8.le_iff_toNat_le, UInt8.le_iff_toNat_le, UInt8.toNat_ofNat', UInt8.toNat_ofNat',
    UInt8.toNat_ofNat', Nat.mod_eq_of_lt (by omega), Nat.mod_eq_of_lt (by omega),
    Nat.mod_eq_of_lt (by omega)]
  exact ⟨hlow, hhigh⟩

theorem continuation_ofNat (m : Nat) : IsContinuation (UInt8.ofNat (m % 64 + 128)) :=
  @ofNat_between (m % 64 + 128) 128 191 (by omega) (by omega) (by decide)

theorem followers_one {n : Nat} (hlow : 0xc2 ≤ n) (hhigh : n ≤ 0xdf) :
    followers (UInt8.ofNat n) = some 1 :=
  if_pos (ofNat_between hlow hhigh (by decide))

theorem followers_two {n : Nat} (hlow : 0xe0 ≤ n) (hhigh : n ≤ 0xef) :
    followers (UInt8.ofNat n) = some 2 := by
  obtain ⟨hge, hle⟩ := ofNat_between hlow hhigh (by decide)
  rw [followers, if_neg, if_pos]
  · exact ⟨hge, hle⟩
  · rintro ⟨-, h⟩
    exact absurd (UInt8.le_trans hge h : (0xe0 : UInt8) ≤ 0xdf) (by decide)

theorem followers_three {n : Nat} (hlow : 0xf0 ≤ n) (hhigh : n ≤ 0xf4) :
    followers (UInt8.ofNat n) = some 3 := by
  obtain ⟨hge, hle⟩ := ofNat_between hlow hhigh (by decide)
  rw [followers, if_neg, if_neg, if_pos]
  · exact ⟨hge, hle⟩
  · rintro ⟨-, h⟩
    exact absurd (UInt8.le_trans hge h : (0xf0 : UInt8) ≤ 0xef) (by decide)
  · rintro ⟨-, h⟩
    exact absurd (UInt8.le_trans hge h : (0xf0 : UInt8) ≤ 0xdf) (by decide)

theorem followers_ascii {n : Nat} (h : n < 128) : followers (UInt8.ofNat n) = none := by
  have hbelow : ∀ low : UInt8, 128 ≤ low.toNat → ¬low ≤ UInt8.ofNat n := by
    intro low hlow hle
    rw [UInt8.le_iff_toNat_le, UInt8.toNat_ofNat', Nat.mod_eq_of_lt (by omega)] at hle
    omega
  rw [followers, if_neg (fun h => hbelow _ (by decide) h.1), if_neg (fun h => hbelow _ (by decide) h.1),
    if_neg (fun h => hbelow _ (by decide) h.1)]

theorem lead_of_followers {lead : UInt8} {n : Nat} (h : followers lead = some n) : 0xc2 ≤ lead.toNat := by
  rw [followers] at h
  split at h
  · next hin => exact UInt8.le_iff_toNat_le.mp hin.1
  split at h
  · next hin => exact le_trans (by decide) (UInt8.le_iff_toNat_le.mp hin.1)
  split at h
  · next hin => exact le_trans (by decide) (UInt8.le_iff_toNat_le.mp hin.1)
  · cases h

theorem followers_le {lead : UInt8} {n : Nat} (h : followers lead = some n) : 0 < n ∧ n ≤ 3 := by
  rw [followers] at h
  split at h
  · cases h
    decide
  split at h
  · cases h
    decide
  split at h
  · cases h
    decide
  · cases h

/-- A character is an ASCII byte or a lead byte with its continuation bytes. -/
theorem utf8EncodeChar_cases (c : Char) :
    (c.toNat < 128 ∧ String.utf8EncodeChar c = [UInt8.ofNat c.toNat]) ∨
      ∃ lead tail, String.utf8EncodeChar c = lead :: tail ∧ followers lead = some tail.length ∧
        ∀ b ∈ tail, IsContinuation b := by
  have hmax : c.toNat < 1114112 := by
    rcases c.valid with h | h
    · exact lt_trans h (by decide)
    · exact h.2
  have hdef : String.utf8EncodeChar c =
      if c.toNat ≤ 0x7f then [UInt8.ofNat c.toNat]
      else if c.toNat ≤ 0x7ff then
        [UInt8.ofNat (c.toNat / 64 % 32 + 192), UInt8.ofNat (c.toNat % 64 + 128)]
      else if c.toNat ≤ 0xffff then
        [UInt8.ofNat (c.toNat / 4096 % 16 + 224), UInt8.ofNat (c.toNat / 64 % 64 + 128),
          UInt8.ofNat (c.toNat % 64 + 128)]
      else
        [UInt8.ofNat (c.toNat / 262144 % 8 + 240), UInt8.ofNat (c.toNat / 4096 % 64 + 128),
          UInt8.ofNat (c.toNat / 64 % 64 + 128), UInt8.ofNat (c.toNat % 64 + 128)] := rfl
  rw [hdef]
  split
  · exact .inl ⟨by omega, rfl⟩
  split
  · refine .inr ⟨_, _, rfl, followers_one (by omega) (by omega), ?_⟩
    intro b hb
    rw [List.mem_singleton.mp hb]
    exact continuation_ofNat _
  split
  · refine .inr ⟨_, _, rfl, followers_two (by omega) (by omega), ?_⟩
    intro b hb
    rcases List.mem_cons.mp hb with rfl | hb
    · exact continuation_ofNat _
    · rw [List.mem_singleton.mp hb]
      exact continuation_ofNat _
  · refine .inr ⟨_, _, rfl, followers_three (by omega) (by omega), ?_⟩
    intro b hb
    rcases List.mem_cons.mp hb with rfl | hb
    · exact continuation_ofNat _
    rcases List.mem_cons.mp hb with rfl | hb
    · exact continuation_ofNat _
    · rw [List.mem_singleton.mp hb]
      exact continuation_ofNat _

end Lib.Utf8
