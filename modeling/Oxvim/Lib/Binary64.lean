import Mathlib

/-!
# Binary floating point numbers of 64 bits

A number is a sign bit, eleven bits of a biased exponent and 52 bits of a fraction. What a finite
one denotes is read off these fields: `rational_subnormal` where the exponent is zero,
`rational_normal` where it is not.
-/

namespace Lib

namespace Binary64

/-- The sign bit. -/
def isNegative (bits : UInt64) : Bool := bits.toNat / 2 ^ 63 = 1

/-- The biased exponent. -/
def exponent (bits : UInt64) : Nat := bits.toNat / 2 ^ 52 % 2 ^ 11

/-- The bits of the fraction. -/
def fraction (bits : UInt64) : Nat := bits.toNat % 2 ^ 52

/-- The fraction of a normal number with the bit that is implicit. -/
def significand (bits : UInt64) : Nat := 2 ^ 52 + fraction bits

/-- The sign as a factor. -/
def signum (bits : UInt64) : ℤ := if isNegative bits then -1 else 1

theorem fraction_lt (bits : UInt64) : fraction bits < 2 ^ 52 :=
  Nat.mod_lt _ (by decide)

theorem fraction_lt_two_pow (bits : UInt64) (k : Nat) (h : 52 ≤ k) : fraction bits < 2 ^ k :=
  (fraction_lt bits).trans_le (Nat.pow_le_pow_right two_pos h)

theorem significand_lt (bits : UInt64) : significand bits < 2 ^ 53 := by
  have h := fraction_lt bits
  rw [significand]
  omega

theorem le_significand (bits : UInt64) : 2 ^ 52 ≤ significand bits := Nat.le_add_right _ _

open Float.Model Float.Model.UnpackedFloat

/-- The rational number that a finite float denotes. -/
def rational (x : Float) : ℚ :=
  match x.toModel.unpack with
  | .finite sign mantissa exponent _ => sign.apply mantissa * 2 ^ exponent
  | _ => 0

variable {x : Float}

/-! ## The fields of the packed number -/

theorem toNat_unpackExponent (x : Float) :
    (@unpackExponent Format.binary64 x.toBits.toBitVec).toNat = exponent x.toBits := by
  simp [unpackExponent, BitVec.extractLsb_toNat, Nat.shiftRight_eq_div_pow, exponent]

theorem toNat_unpackMantissa (x : Float) :
    (@unpackMantissa Format.binary64 x.toBits.toBitVec).toNat = fraction x.toBits := by
  simp [unpackMantissa, BitVec.extractLsb_toNat, fraction]

theorem toNat_unpackSign (x : Float) :
    (@unpackSign Format.binary64 x.toBits.toBitVec).toNat = x.toBits.toNat / 2 ^ 63 := by
  have hbound := x.toBits.toNat_lt
  simp [unpackSign, BitVec.extractLsb_toNat, Nat.shiftRight_eq_div_pow]
  omega

theorem unpackExponent_eq_iff (x : Float) (e : BitVec 11) :
    @unpackExponent Format.binary64 x.toBits.toBitVec = e ↔ exponent x.toBits = e.toNat := by
  rw [← toNat_unpackExponent, BitVec.toNat_inj]

theorem unpackMantissa_eq_iff (x : Float) :
    @unpackMantissa Format.binary64 x.toBits.toBitVec = 0#52 ↔ fraction x.toBits = 0 := by
  rw [← toNat_unpackMantissa, ← BitVec.toNat_inj, BitVec.toNat_ofNat, Nat.zero_mod]

/-- The sign applies as a factor. -/
theorem apply_unpackSign (x : Float) (n : ℤ) :
    (Sign.ofBitVec (@unpackSign Format.binary64 x.toBits.toBitVec)).apply n
      = signum x.toBits * n := by
  have hsign := toNat_unpackSign x
  have hbound := x.toBits.toNat_lt
  rw [Sign.ofBitVec]
  by_cases hzero : @unpackSign Format.binary64 x.toBits.toBitVec = 0#1
  · rw [if_pos hzero]
    rw [hzero] at hsign
    have hpositive : isNegative x.toBits = false := decide_eq_false fun h => by
      rw [h] at hsign
      cases hsign
    rw [signum, hpositive, if_neg Bool.false_ne_true, one_mul]
    rfl
  · rw [if_neg hzero]
    have hnonzero : x.toBits.toNat / 2 ^ 63 ≠ 0 := by
      rw [← hsign]
      exact fun h => hzero (BitVec.eq_of_toNat_eq h)
    have hnegative : isNegative x.toBits = true := decide_eq_true (by omega)
    rw [signum, hnegative, if_pos rfl, neg_one_mul]
    rfl

theorem toNat_implicit (x : Float) :
    (1#1 ++ @unpackMantissa Format.binary64 x.toBits.toBitVec).toNat
      = significand x.toBits := by
  rw [BitVec.toNat_append, toNat_unpackMantissa, significand,
    ← Nat.shiftLeft_add_eq_or_of_lt (fraction_lt _)]
  rfl

/-! ## What a number denotes -/

theorem unpack_special (h : exponent x.toBits = 2047) : x.isFinite = false := by
  show (UnpackedFloat.unpack Format.binary64 x.toBits.toBitVec).isFinite = false
  rw [UnpackedFloat.unpack]
  dsimp only
  rw [if_pos ((unpackExponent_eq_iff x (-1#11)).mpr h)]
  split
  · rfl
  · rfl

theorem unpack_subnormal (h : exponent x.toBits = 0) :
    x.isFinite = true ∧
      rational x = signum x.toBits * fraction x.toBits * 2 ^ (-1074 : ℤ) := by
  have hspecial : @unpackExponent Format.binary64 x.toBits.toBitVec ≠ -1#11 := by
    rw [ne_eq, unpackExponent_eq_iff, h]
    decide
  have hzero := (unpackExponent_eq_iff x 0#11).mpr h
  show (UnpackedFloat.unpack Format.binary64 x.toBits.toBitVec).isFinite = true ∧ _
  have hunpack : x.toModel.unpack = UnpackedFloat.unpack Format.binary64 x.toBits.toBitVec := rfl
  rw [rational, hunpack, UnpackedFloat.unpack]
  dsimp only
  rw [if_neg hspecial, if_pos hzero]
  by_cases hfraction : @unpackMantissa Format.binary64 x.toBits.toBitVec = 0#52
  · rw [dif_pos hfraction, (unpackMantissa_eq_iff x).mp hfraction]
    refine ⟨rfl, ?_⟩
    simp
  · rw [dif_neg hfraction]
    refine ⟨rfl, ?_⟩
    dsimp only
    have hexponent : ((0 : ℕ) : ℤ) - (Format.binary64.exponentBias + (52 : ℕ)) + 1 = -1074 := by
      decide
    rw [apply_unpackSign, toNat_unpackMantissa, toNat_unpackExponent, h, hexponent, Int.cast_mul,
      Int.cast_natCast]

theorem unpack_normal (h : exponent x.toBits ≠ 0) (hfinite : exponent x.toBits ≠ 2047) :
    x.isFinite = true ∧
      rational x = signum x.toBits * significand x.toBits *
        2 ^ ((exponent x.toBits : ℤ) - 1075) := by
  have hspecial : @unpackExponent Format.binary64 x.toBits.toBitVec ≠ -1#11 := by
    rw [ne_eq, unpackExponent_eq_iff]
    exact hfinite
  have hzero : @unpackExponent Format.binary64 x.toBits.toBitVec ≠ 0#11 := by
    rw [ne_eq, unpackExponent_eq_iff]
    exact h
  show (UnpackedFloat.unpack Format.binary64 x.toBits.toBitVec).isFinite = true ∧ _
  have hunpack : x.toModel.unpack = UnpackedFloat.unpack Format.binary64 x.toBits.toBitVec := rfl
  rw [rational, hunpack, UnpackedFloat.unpack]
  dsimp only
  rw [if_neg hspecial, if_neg hzero]
  refine ⟨rfl, ?_⟩
  dsimp only
  rw [apply_unpackSign, toNat_implicit, toNat_unpackExponent, Int.cast_mul, Int.cast_natCast]
  rfl

theorem isFinite_iff (x : Float) : x.isFinite = true ↔ exponent x.toBits ≠ 2047 := by
  constructor
  · intro hfinite h
    rw [unpack_special h] at hfinite
    cases hfinite
  · intro h
    by_cases hzero : exponent x.toBits = 0
    · exact (unpack_subnormal hzero).1
    · exact (unpack_normal hzero h).1

theorem rational_subnormal (h : exponent x.toBits = 0) :
    rational x = signum x.toBits * fraction x.toBits / (2 ^ 1074 : ℕ) := by
  rw [(unpack_subnormal h).2, zpow_neg, div_eq_mul_inv, Nat.cast_pow]
  rfl

/-- A normal number of at least `2 ^ 52` is whole. -/
theorem rational_whole (h : 1075 ≤ exponent x.toBits) (hfinite : exponent x.toBits ≠ 2047) :
    rational x =
      (signum x.toBits * (significand x.toBits * 2 ^ (exponent x.toBits - 1075) : ℕ) : ℤ) := by
  have hexponent : (exponent x.toBits : ℤ) - 1075 = (exponent x.toBits - 1075 : ℕ) := by omega
  rw [(unpack_normal (by omega) hfinite).2, hexponent, zpow_natCast]
  push_cast
  ring

theorem rational_normal (h : exponent x.toBits ≠ 0) (hwhole : exponent x.toBits ≤ 1075) :
    rational x = signum x.toBits * significand x.toBits / (2 ^ (1075 - exponent x.toBits) : ℕ) := by
  have hexponent : (exponent x.toBits : ℤ) - 1075 = -((1075 - exponent x.toBits : ℕ) : ℤ) := by
    omega
  rw [(unpack_normal h (by omega)).2, hexponent, zpow_neg, zpow_natCast, div_eq_mul_inv]
  push_cast
  rfl

/-! ## Rounding down -/

/-- A positive fraction rounds to the quotient, a negative one beyond it where something remains. -/
theorem floor_signed (negative : Bool) (n d : ℕ) (hd : d ≠ 0) :
    ⌊((if negative then -1 else 1 : ℤ) * n / d : ℚ)⌋
      = if negative then -((n / d + if n % d ≠ 0 then 1 else 0 : ℕ) : ℤ) else (n / d : ℕ) := by
  have hrat : ((if negative then -1 else 1 : ℤ) * n / d : ℚ)
      = (((if negative then -1 else 1 : ℤ) * n : ℤ) : ℚ) / (d : ℚ) := by push_cast; rfl
  rw [hrat, Rat.floor_intCast_div_natCast]
  cases negative with
  | false =>
    rw [if_neg Bool.false_ne_true, if_neg Bool.false_ne_true, one_mul]
    rfl
  | true =>
    rw [if_pos rfl, if_pos rfl, neg_one_mul, Int.neg_ediv]
    have hmod : (d : ℤ) ∣ n ↔ n % d = 0 := by
      rw [Int.natCast_dvd_natCast, Nat.dvd_iff_mod_eq_zero]
    by_cases hdvd : (d : ℤ) ∣ n
    · rw [if_pos hdvd, if_neg (not_not.mpr (hmod.mp hdvd))]
      push_cast
      ring
    · rw [if_neg hdvd, if_pos fun h => hdvd (hmod.mpr h), Int.sign_eq_one_of_pos (by omega)]
      push_cast
      ring
end Binary64
end Lib
