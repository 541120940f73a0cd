import Oxvim.Editor.Tabpage
import Oxvim.Lib.Binary64

/-!
# Coordinates rounded down

`floorCoordinate` decodes the bits of a float. It yields the largest whole number below what the
float denotes, or an error where that number does not fit 128 bits, unless the shift of the
significand drops bits: from `2 ^ 128` on and below `2 ^ 180`, only the bits that stay decide.
-/

namespace Oxvim.Editor

open Lib Lib.Binary64

variable {x : Float}

/-! ## By the fields of the float -/

/-- The end of `floorCoordinate`, which applies the sign. -/
def signedCoordinate (negative : Bool) (magnitude : Nat) (hasFraction : Bool) :
    Except LayoutError Int :=
  if negative then
    if 2 ^ 128 ≤ magnitude + if hasFraction then 1 else 0 then .error .invalidResolvedPosition
    else if (magnitude + if hasFraction then 1 else 0) = 2 ^ 127 then .ok (-2 ^ 127)
    else if (magnitude + if hasFraction then 1 else 0) < 2 ^ 127 then
      .ok (-(magnitude + if hasFraction then 1 else 0 : Nat))
    else .error .invalidResolvedPosition
  else if magnitude < 2 ^ 127 then .ok magnitude
  else .error .geometryOverflow

theorem isNegative_iff : x.toBits.toNat / 2 ^ 63 = 1 ↔ isNegative x.toBits = true :=
  decide_eq_true_iff.symm

/-- What `floorCoordinate` does, by the fields of the number. -/
theorem floorCoordinate_eq (hfinite : x.isFinite = true) :
    floorCoordinate x =
      if exponent x.toBits = 0 then
        .ok (if isNegative x.toBits = true ∧ fraction x.toBits ≠ 0 then -1 else 0)
      else if exponent x.toBits < 1023 then .ok (if isNegative x.toBits = true then -1 else 0)
      else if exponent x.toBits < 1075 then
        signedCoordinate (isNegative x.toBits)
          (significand x.toBits / 2 ^ (1075 - exponent x.toBits))
          (significand x.toBits % 2 ^ (1075 - exponent x.toBits) ≠ 0)
      else if exponent x.toBits < 1203 then
        signedCoordinate (isNegative x.toBits)
          (significand x.toBits * 2 ^ (exponent x.toBits - 1075) % 2 ^ 128) false
      else
        .error (if isNegative x.toBits = true then .invalidResolvedPosition
          else .geometryOverflow) := by
  have hbits : x.toBits.toNat / 2 ^ 52 % 2 ^ 11 = exponent x.toBits := rfl
  have hfraction : x.toBits.toNat % 2 ^ 52 = fraction x.toBits := rfl
  have hsignificand : 2 ^ 52 + fraction x.toBits = significand x.toBits := rfl
  unfold floorCoordinate
  rw [hfinite]
  simp only [Bool.not_true, Bool.false_eq_true, if_false, pure_bind, isNegative_iff]
  rw [hbits, hfraction, hsignificand]
  by_cases hzero : exponent x.toBits = 0
  · rw [if_pos hzero, if_pos hzero]
    rfl
  rw [if_neg hzero, if_neg hzero]
  by_cases hlow : exponent x.toBits < 1023
  · rw [if_pos hlow, if_pos hlow]
    rfl
  rw [if_neg hlow, if_neg hlow]
  by_cases hlarge : exponent x.toBits < 1075
  · have hshift : 52 - (exponent x.toBits - 1023) = 1075 - exponent x.toBits := by omega
    rw [if_pos hlarge, if_neg (by omega), hshift]
    rfl
  have hshift : exponent x.toBits - 1023 - 52 = exponent x.toBits - 1075 := by omega
  rw [if_neg hlarge, if_pos (by omega), hshift]
  by_cases hhuge : exponent x.toBits < 1203
  · rw [if_pos hhuge, if_pos (by omega)]
    rfl
  · rw [if_neg hhuge, if_neg (by omega)]
    rfl

/-! ## Exact results -/

/-- A number of a signed 128-bit integer. -/
def FitsI128 (n : Int) : Prop := -2 ^ 127 ≤ n ∧ n < 2 ^ 127

/-- The result for a number: the number where it fits a signed 128-bit integer, or else an error. -/
def IsExact (floor : Int) (result : Except LayoutError Int) : Prop :=
  (FitsI128 floor → result = .ok floor) ∧ (¬FitsI128 floor → ∃ error, result = .error error)

theorem isExact_ok {floor : Int} (h : FitsI128 floor) : IsExact floor (.ok floor) :=
  ⟨fun _ => rfl, fun hwide => absurd h hwide⟩

theorem isExact_wide {floor : Int} (h : ¬FitsI128 floor) (result : Except LayoutError Int) :
    IsExact floor result ↔ ∃ error, result = .error error :=
  ⟨fun hexact => hexact.2 h, fun herror => ⟨fun hfits => absurd hfits h, fun _ => herror⟩⟩

/-- The signed number, rounded down. -/
def signedFloor (negative : Bool) (magnitude : Nat) (hasFraction : Bool) : Int :=
  if negative then -((magnitude + if hasFraction then 1 else 0 : Nat) : Int) else magnitude

/-- A magnitude of at most 128 bits is signed exactly. -/
theorem signedCoordinate_exact (negative : Bool) (magnitude : Nat) (hasFraction : Bool) :
    IsExact (signedFloor negative magnitude hasFraction)
      (signedCoordinate negative magnitude hasFraction) := by
  rw [signedFloor, signedCoordinate]
  cases negative with
  | false =>
    rw [if_neg Bool.false_ne_true, if_neg Bool.false_ne_true]
    by_cases h : magnitude < 2 ^ 127
    · rw [if_pos h]
      exact isExact_ok ⟨by omega, by omega⟩
    · rw [if_neg h, isExact_wide fun hfits => h (by have := hfits.2; omega)]
      exact ⟨_, rfl⟩
  | true =>
    rw [if_pos rfl, if_pos rfl]
    generalize (magnitude + if hasFraction = true then 1 else 0) = m
    by_cases hmin : m = 2 ^ 127
    · subst hmin
      rw [if_neg (by decide), if_pos rfl]
      exact isExact_ok ⟨le_refl _, by norm_num⟩
    by_cases h : m < 2 ^ 127
    · rw [if_neg (by omega), if_neg hmin, if_pos h]
      exact isExact_ok ⟨by omega, by omega⟩
    · rw [isExact_wide fun hfits => h (by have := hfits.1; omega)]
      by_cases hwide : 2 ^ 128 ≤ m
      · rw [if_pos hwide]
        exact ⟨_, rfl⟩
      · rw [if_neg hwide, if_neg hmin, if_neg h]
        exact ⟨_, rfl⟩

/-- The coordinate rounds down what the float denotes, and refuses what does not fit. -/
def FlooredExactly (x : Float) : Prop := IsExact ⌊rational x⌋ (floorCoordinate x)

theorem floor_rational_subnormal (hzero : exponent x.toBits = 0) :
    ⌊rational x⌋ = if isNegative x.toBits = true ∧ fraction x.toBits ≠ 0 then -1 else 0 := by
  have hlt := fraction_lt_two_pow x.toBits 1074 (by omega)
  rw [rational_subnormal hzero, signum, floor_signed _ _ _ (pow_ne_zero _ two_ne_zero),
    Nat.div_eq_of_lt hlt, Nat.mod_eq_of_lt hlt]
  cases isNegative x.toBits with
  | false => simp
  | true =>
    by_cases hfraction : fraction x.toBits = 0
    · simp [hfraction]
    · simp [hfraction]

theorem floor_rational_normal (hzero : exponent x.toBits ≠ 0) (hwhole : exponent x.toBits ≤ 1075) :
    ⌊rational x⌋ = signedFloor (isNegative x.toBits)
      (significand x.toBits / 2 ^ (1075 - exponent x.toBits))
      (significand x.toBits % 2 ^ (1075 - exponent x.toBits) ≠ 0) := by
  rw [rational_normal hzero hwhole, signum, floor_signed _ _ _ (pow_ne_zero _ two_ne_zero),
    signedFloor]
  simp only [decide_eq_true_eq]

theorem floor_rational_whole (h : 1075 ≤ exponent x.toBits) (hfinite : exponent x.toBits ≠ 2047) :
    ⌊rational x⌋ = signedFloor (isNegative x.toBits)
      (significand x.toBits * 2 ^ (exponent x.toBits - 1075)) false := by
  rw [rational_whole h hfinite, Int.floor_intCast, signum, signedFloor]
  cases isNegative x.toBits with
  | false => exact one_mul _
  | true =>
    rw [if_pos rfl, if_pos rfl, if_neg Bool.false_ne_true, add_zero]
    exact neg_one_mul _

/-! ## The shift -/

/-- What the shift leaves of the significand shows that the number is out of range. It drops bits
from `2 ^ 128` on, and is refused from `2 ^ 180` on. -/
def Recognized (x : Float) : Prop :=
  exponent x.toBits < 1151 ∨ 1203 ≤ exponent x.toBits ∨
    if isNegative x.toBits then
      2 ^ (1202 - exponent x.toBits) < significand x.toBits % 2 ^ (1203 - exponent x.toBits)
    else 2 ^ (1202 - exponent x.toBits) ≤ significand x.toBits % 2 ^ (1203 - exponent x.toBits)

/-- A number from `2 ^ 128` on does not fit. -/
theorem not_fitsI128 (negative : Bool) {magnitude : Nat} (h : 2 ^ 128 ≤ magnitude) :
    ¬FitsI128 (signedFloor negative magnitude false) := by
  rintro ⟨hlow, hhigh⟩
  rw [signedFloor, if_neg Bool.false_ne_true, add_zero] at hlow hhigh
  cases negative with
  | false =>
    rw [if_neg Bool.false_ne_true] at hhigh
    omega
  | true =>
    rw [if_pos rfl] at hlow
    omega

/-- A magnitude is refused from `2 ^ 127` on, or above it for a negative number. -/
theorem signedCoordinate_error_iff (negative : Bool) {magnitude : Nat} (h : magnitude < 2 ^ 128) :
    (∃ error, signedCoordinate negative magnitude false = .error error) ↔
      if negative then 2 ^ 127 < magnitude else 2 ^ 127 ≤ magnitude := by
  rw [signedCoordinate, if_neg Bool.false_ne_true, add_zero]
  cases negative with
  | false =>
    rw [if_neg Bool.false_ne_true, if_neg Bool.false_ne_true]
    by_cases hsmall : magnitude < 2 ^ 127
    · rw [if_pos hsmall]
      exact iff_of_false (by rintro ⟨_, herror⟩; cases herror) (by omega)
    · rw [if_neg hsmall]
      exact iff_of_true ⟨_, rfl⟩ (by omega)
  | true =>
    rw [if_pos rfl, if_pos rfl, if_neg (by omega)]
    by_cases hmin : magnitude = 2 ^ 127
    · rw [if_pos hmin]
      exact iff_of_false (by rintro ⟨_, herror⟩; cases herror) (by omega)
    · rw [if_neg hmin]
      by_cases hsmall : magnitude < 2 ^ 127
      · rw [if_pos hsmall]
        exact iff_of_false (by rintro ⟨_, herror⟩; cases herror) (by omega)
      · rw [if_neg hsmall]
        exact iff_of_true ⟨_, rfl⟩ (by omega)

/-- The bits that the shift leaves, by the low bits of the significand. -/
theorem shifted_mod (h : 1151 ≤ exponent x.toBits) (hhuge : exponent x.toBits < 1203) :
    significand x.toBits * 2 ^ (exponent x.toBits - 1075) % 2 ^ 128
      = significand x.toBits % 2 ^ (1203 - exponent x.toBits) * 2 ^ (exponent x.toBits - 1075) := by
  have hwidth : 128 = (1203 - exponent x.toBits) + (exponent x.toBits - 1075) := by omega
  conv_lhs => rw [hwidth, pow_add]
  rw [Nat.mul_mod_mul_right]

theorem half_eq {e : Nat} (hhuge : e < 1203) (h : 1075 ≤ e) :
    2 ^ 127 = 2 ^ (1202 - e) * 2 ^ (e - 1075) := by
  have hsum : 127 = (1202 - e) + (e - 1075) := by omega
  rw [← pow_add, ← hsum]

theorem two_pow_128_le (h : 1151 ≤ exponent x.toBits) :
    2 ^ 128 ≤ significand x.toBits * 2 ^ (exponent x.toBits - 1075) := by
  calc 2 ^ 128 = 2 ^ 52 * 2 ^ 76 := by norm_num
    _ ≤ significand x.toBits * 2 ^ (exponent x.toBits - 1075) :=
      Nat.mul_le_mul (le_significand _) (Nat.pow_le_pow_right two_pos (by omega))

theorem flooredExactly_wide (hfinite : x.isFinite = true) (h : 1151 ≤ exponent x.toBits) :
    FlooredExactly x ↔ ∃ error, floorCoordinate x = .error error := by
  rw [FlooredExactly, floor_rational_whole (by omega) ((isFinite_iff x).mp hfinite),
    isExact_wide (not_fitsI128 _ (two_pow_128_le h))]

/-- Below `2 ^ 128` no bit is dropped. -/
theorem flooredExactly_narrow (hfinite : x.isFinite = true) (h : exponent x.toBits < 1151) :
    FlooredExactly x := by
  rw [FlooredExactly, floorCoordinate_eq hfinite]
  by_cases hzero : exponent x.toBits = 0
  · rw [if_pos hzero, floor_rational_subnormal hzero]
    exact isExact_ok (by split <;> constructor <;> norm_num)
  rw [if_neg hzero]
  by_cases hlow : exponent x.toBits < 1023
  · rw [if_pos hlow, floor_rational_normal hzero (by omega)]
    -- the number is a fraction, and not zero
    have hlt : significand x.toBits < 2 ^ (1075 - exponent x.toBits) :=
      (significand_lt _).trans_le (Nat.pow_le_pow_right two_pos (by omega))
    have hpos : significand x.toBits ≠ 0 := (Nat.lt_of_lt_of_le (by decide) (le_significand _)).ne'
    rw [Nat.div_eq_of_lt hlt, Nat.mod_eq_of_lt hlt, decide_eq_true hpos, signedFloor]
    cases isNegative x.toBits with
    | false =>
      rw [if_neg Bool.false_ne_true, if_neg Bool.false_ne_true]
      exact isExact_ok ⟨by norm_num, by norm_num⟩
    | true =>
      rw [if_pos rfl, if_pos rfl, if_pos rfl]
      exact isExact_ok ⟨by norm_num, by norm_num⟩
  rw [if_neg hlow]
  by_cases hlarge : exponent x.toBits < 1075
  · rw [if_pos hlarge, floor_rational_normal hzero hlarge.le]
    exact signedCoordinate_exact _ _ _
  have hwidth : significand x.toBits * 2 ^ (exponent x.toBits - 1075) < 2 ^ 53 * 2 ^ 75 :=
    Nat.mul_lt_mul_of_lt_of_le (significand_lt _) (Nat.pow_le_pow_right two_pos (by omega))
      (Nat.two_pow_pos _)
  rw [if_neg hlarge, if_pos (by omega), Nat.mod_eq_of_lt (by omega),
    floor_rational_whole (by omega) ((isFinite_iff x).mp hfinite)]
  exact signedCoordinate_exact _ _ _

/-- A coordinate is rounded down exactly where a number out of range is recognized. -/
theorem floorCoordinate_exact_iff (hfinite : x.isFinite = true) :
    FlooredExactly x ↔ Recognized x := by
  by_cases hnarrow : exponent x.toBits < 1151
  · exact iff_of_true (flooredExactly_narrow hfinite hnarrow) (.inl hnarrow)
  rw [flooredExactly_wide hfinite (by omega), floorCoordinate_eq hfinite, if_neg (by omega),
    if_neg (by omega), if_neg (by omega)]
  by_cases hhuge : exponent x.toBits < 1203
  · rw [if_pos hhuge, signedCoordinate_error_iff _ (Nat.mod_lt _ (Nat.two_pow_pos _)),
      shifted_mod (by omega) hhuge, half_eq hhuge (by omega),
      Nat.mul_lt_mul_right (Nat.two_pow_pos _), Nat.mul_le_mul_right_iff (Nat.two_pow_pos _)]
    constructor
    · exact fun h => .inr (.inr h)
    · rintro (h | h | h)
      · exact absurd h hnarrow
      · exact absurd hhuge (by omega)
      · exact h
  · rw [if_neg hhuge]
    exact iff_of_true ⟨_, rfl⟩ (.inr (.inl (by omega)))

/-- `-2.5` is rounded down. -/
theorem floorCoordinate_exact_iff_negative :
    (Float.ofBits 0xc004000000000000).isFinite = true ∧
      FlooredExactly (Float.ofBits 0xc004000000000000) := by
  have hfinite : (Float.ofBits 0xc004000000000000).isFinite = true := by decide +kernel
  exact ⟨hfinite, (floorCoordinate_exact_iff hfinite).mpr (.inl (by decide +kernel))⟩

/-- `2 ^ 128` becomes zero. -/
theorem not_floorCoordinate_exact : ¬∀ x : Float, x.isFinite = true → FlooredExactly x := by
  intro h
  have hfinite : (Float.ofBits 0x47f0000000000000).isFinite = true := by decide +kernel
  have hzero : floorCoordinate (Float.ofBits 0x47f0000000000000) = .ok 0 := by decide +kernel
  obtain ⟨error, herror⟩ := (flooredExactly_wide hfinite (by decide +kernel)).mp (h _ hfinite)
  rw [hzero] at herror
  cases herror

end Oxvim.Editor
