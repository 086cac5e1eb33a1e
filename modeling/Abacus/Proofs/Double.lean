import Abacus.Proofs.Units
import Mathlib

namespace Abacus.Binary64

open Float.Model (UnpackedFloat)

-- What an unpacked double stands for, without its sign; nothing but zero if it is not finite.
def modulus : UnpackedFloat → ℚ
  | .finite _ m e _ => m * (2 : ℚ) ^ e
  | _ => 0

-- The number that a finite double stands for, without its sign.
def magnitude (x : Float) : ℚ :=
  modulus x.toModel.unpack

variable {x : Float} {n : Nat} {a a' b b' : Nat} {v : BitVec 64}

-- The fields of a double are the digits of its pattern to the base 2⁵².
theorem toNat_unpackExponent (v : BitVec 64) :
    (@UnpackedFloat.unpackExponent .binary64 v).toNat = v.toNat % 2 ^ 63 / 2 ^ 52 := by
  simp [UnpackedFloat.unpackExponent, Nat.shiftRight_eq_div_pow]
  omega

theorem toNat_unpackMantissa (v : BitVec 64) :
    (@UnpackedFloat.unpackMantissa .binary64 v).toNat = v.toNat % 2 ^ 63 % 2 ^ 52 := by
  simp [UnpackedFloat.unpackMantissa]

theorem toNat_one_append (m : BitVec 52) : (1#1 ++ m).toNat = 2 ^ 52 + m.toNat := by
  rw [BitVec.toNat_append, ← Nat.shiftLeft_add_eq_or_of_lt m.isLt, Nat.shiftLeft_eq]
  rfl

theorem unpackExponent_eq_allOnes_iff :
    @UnpackedFloat.unpackExponent .binary64 v = -1#11 ↔ infinity ≤ v.toNat % 2 ^ 63 := by
  have h : (-1#11).toNat = 2047 := rfl
  rw [← BitVec.toNat_inj, toNat_unpackExponent, h]
  unfold infinity
  omega

theorem unpackExponent_eq_zero_iff :
    @UnpackedFloat.unpackExponent .binary64 v = 0#11 ↔ v.toNat % 2 ^ 63 < 2 ^ 52 := by
  rw [← BitVec.toNat_inj, toNat_unpackExponent, BitVec.toNat_zero]
  omega

theorem isFinite_unpack :
    (UnpackedFloat.unpack .binary64 v).isFinite ↔ v.toNat % 2 ^ 63 < infinity := by
  rw [← Nat.not_le, ← unpackExponent_eq_allOnes_iff]
  unfold UnpackedFloat.unpack
  dsimp only
  split_ifs with h <;>
    simp only [UnpackedFloat.isFinite, h, not_true, not_false_eq_true, reduceCtorEq]

-- Below 2⁵² a pattern is a number of smallest steps.
theorem modulus_unpack_of_lt (h : v.toNat % 2 ^ 63 < 2 ^ 52) :
    modulus (.unpack .binary64 v) = (v.toNat % 2 ^ 63 : Nat) * 2 ^ (-1074 : ℤ) := by
  have hi : ¬@UnpackedFloat.unpackExponent .binary64 v = -1#11 := by
    rw [unpackExponent_eq_allOnes_iff, infinity]
    omega
  have he := unpackExponent_eq_zero_iff.mpr h
  have hm := toNat_unpackMantissa v
  rw [Nat.mod_eq_of_lt h] at hm
  rw [UnpackedFloat.unpack]
  dsimp only
  rw [if_neg hi, if_pos he]
  split_ifs with hz
  case pos =>
    rw [hz, BitVec.toNat_zero] at hm
    rw [← hm, Nat.cast_zero, zero_mul]
    rfl
  case neg =>
    rw [modulus, hm, he]
    rfl

theorem modulus_unpack_of_le (h : 2 ^ 52 ≤ v.toNat % 2 ^ 63) (hi : v.toNat % 2 ^ 63 < infinity) :
    modulus (.unpack .binary64 v) =
      (2 ^ 52 + v.toNat % 2 ^ 63 % 2 ^ 52 : Nat) *
        2 ^ ((v.toNat % 2 ^ 63 / 2 ^ 52 : Nat) - 1075 : ℤ) := by
  rw [UnpackedFloat.unpack]
  dsimp only
  rw [if_neg fun he => Nat.not_le.mpr hi (unpackExponent_eq_allOnes_iff.mp he),
    if_neg fun he => Nat.not_le.mpr (unpackExponent_eq_zero_iff.mp he) h, modulus,
    toNat_one_append, toNat_unpackMantissa, toNat_unpackExponent]
  rfl

theorem units_of_lt (h : n < 2 ^ 52) : units n = n :=
  units_of_binade_eq_zero (by unfold binade; omega)

theorem units_of_le (h : 2 ^ 52 ≤ n) : units n = (2 ^ 52 + n % 2 ^ 52) * 2 ^ (n / 2 ^ 52 - 1) := by
  unfold units binade
  congr 1
  omega

theorem cast_two_pow (k : Nat) : ((2 ^ k : Nat) : ℚ) = 2 ^ (k : ℤ) := by
  rw [Nat.cast_pow, zpow_natCast]
  rfl

theorem mul_zpow_sub (m k : Nat) :
    (m : ℚ) * 2 ^ ((k : ℤ) - 1074) = (m * 2 ^ k : Nat) / unitsPerOne := by
  have h : ((unitsPerOne : Nat) : ℚ) = 2 ^ (1074 : ℤ) := by
    simp only [unitsPerOne, cast_two_pow, Nat.cast_ofNat]
  rw [h, zpow_sub₀ two_ne_zero, ← mul_div_assoc, Nat.cast_mul, cast_two_pow]

theorem pattern_eq (x : Float) : pattern x = x.toModel.toBits.toBitVec.toNat % 2 ^ 63 :=
  rfl

theorem isFinite_iff : x.isFinite ↔ pattern x < infinity :=
  isFinite_unpack

-- The pattern of a double has the value that the double stands for.
theorem magnitude_eq (h : x.isFinite) : magnitude x = units (pattern x) / unitsPerOne := by
  have hi := isFinite_iff.mp h
  rw [magnitude, Float.Model.unpack, pattern_eq] at *
  by_cases hp : x.toModel.toBits.toBitVec.toNat % 2 ^ 63 < 2 ^ 52
  case pos =>
    have hs := mul_zpow_sub (x.toModel.toBits.toBitVec.toNat % 2 ^ 63) 0
    rw [Nat.pow_zero, Nat.mul_one] at hs
    rw [modulus_unpack_of_lt hp, units_of_lt hp, ← hs]
    rfl
  case neg =>
    have hp := Nat.not_lt.mp hp
    rw [modulus_unpack_of_le hp hi, units_of_le hp, ← mul_zpow_sub]
    congr 2
    omega

-- A double is its sign and its pattern.
theorem ofPattern_pattern (h : ¬isNegative x) : ofPattern false (pattern x) = x := by
  have hx : x.toBits.toNat < 2 ^ 63 := by simpa [isNegative] using h
  have hp : (pattern x).toUInt64 = x.toBits := by
    rw [pattern, Nat.mod_eq_of_lt hx]
    exact UInt64.ofNat_toNat
  exact (congrArg Float.ofBits hp).trans (Float.ofBits_toBits x)

theorem toNat_toUInt64 (h : n < infinity) : n.toUInt64.toNat = n := by
  have : n < 2 ^ 64 := by
    unfold infinity at h
    omega
  exact Nat.mod_eq_of_lt this

theorem toNat_toBits_ofPattern (h : n < infinity) : (ofPattern false n).toBits.toNat = n := by
  have hv : Float.Model.Format.binary64.Valid n.toUInt64.toBitVec := by
    refine ⟨fun he => ?_⟩
    have hn : n.toUInt64.toBitVec.toNat = n := toNat_toUInt64 h
    have hi := unpackExponent_eq_allOnes_iff.mp he
    rw [hn] at hi
    unfold infinity at h hi
    omega
  -- This is the double of these bits, and no other has them.
  have hx := Float.ofBits_toBits ⟨⟨n.toUInt64, hv⟩⟩
  exact (congrArg (·.toBits.toNat) hx).trans (toNat_toUInt64 h)

theorem pattern_ofPattern (h : n < infinity) : pattern (ofPattern false n) = n := by
  rw [pattern, toNat_toBits_ofPattern h]
  unfold infinity at h
  omega

theorem isFinite_ofPattern (h : n < infinity) : (ofPattern false n).isFinite := by
  rwa [isFinite_iff, pattern_ofPattern h]

theorem not_isNegative_ofPattern (h : n < infinity) : ¬isNegative (ofPattern false n) := by
  rw [isNegative, toNat_toBits_ofPattern h, decide_eq_true_eq]
  unfold infinity at h
  omega

theorem unitsPerOne_lt : unitsPerOne < 10 ^ 324 := by
  decide +kernel

theorem roundHalfEven_mul_mul {c : Nat} (h : 0 < c) (a b : Nat) :
    roundHalfEven (a * c) (b * c) = roundHalfEven a b := by
  have h₁ : 2 * (a % b * c) < b * c ↔ 2 * (a % b) < b := by
    rw [← Nat.mul_assoc, Nat.mul_lt_mul_right h]
  have h₂ : b * c < 2 * (a % b * c) ↔ b < 2 * (a % b) := by
    rw [← Nat.mul_assoc, Nat.mul_lt_mul_right h]
  simp only [roundHalfEven, Nat.mul_div_mul_right _ _ h, Nat.mul_mod_mul_right, h₁, h₂]

-- Rounding sees only the quotient.
theorem nearest_mul_mul {c : Nat} (h : 0 < c) (a b : Nat) :
    nearest (a * c) (b * c) = nearest a b := by
  have hx : a * c * unitsPerOne = a * unitsPerOne * c := Nat.mul_right_comm ..
  simp only [nearest, hx, Nat.mul_div_mul_right _ _ h, Nat.mul_right_comm _ c,
    roundHalfEven_mul_mul h]

theorem nearest_congr (hb : 0 < b) (hb' : 0 < b') (h : a * b' = a' * b) :
    nearest a b = nearest a' b' := by
  rw [← nearest_mul_mul hb' a b, h, Nat.mul_comm b, nearest_mul_mul hb]

theorem eq_zero_of_units (h : units n = 0) : n = 0 := by
  by_contra hn
  rw [← nearest_units n, h] at hn
  exact hn (by decide +kernel)

end Abacus.Binary64
