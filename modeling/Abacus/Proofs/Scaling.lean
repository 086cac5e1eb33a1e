import Abacus.Decimal.Scaled
import Abacus.Proofs.Rounding
import Abacus.Proofs.Shortest

namespace Abacus

variable {x y : Float} {a b k m n : Nat}

namespace Binary64

theorem eq_ofPattern (h : x.toBits.toNat = n) (hn : n < infinity) : x = ofPattern false n := by
  have hi : infinity < 2 ^ 63 := by decide
  have hp : pattern x = n := by rw [pattern, h, Nat.mod_eq_of_lt (hn.trans hi)]
  have hs : ¬isNegative x := by
    rw [isNegative, h, decide_eq_true_eq]
    omega
  rw [← hp, ofPattern_pattern hs]

theorem isFinite_iff_toNat_toBits_lt (h : x.toBits.toNat ≤ infinity) :
    x.isFinite ↔ x.toBits.toNat < infinity := by
  have hi : infinity < 2 ^ 63 := by decide
  rw [isFinite_iff, pattern, Nat.mod_eq_of_lt (h.trans_lt hi)]

-- The outcome of an operation that rounds to the pattern `n`, unless that is out of range.
theorem eq_ofPattern_of_min (h : x.toBits.toNat = min n infinity) (hn : n < infinity) :
    x = ofPattern false n :=
  eq_ofPattern (h.trans (Nat.min_eq_left hn.le)) hn

theorem isFinite_iff_of_min (h : x.toBits.toNat = min n infinity) :
    x.isFinite ↔ n < infinity := by
  rw [isFinite_iff_toNat_toBits_lt (h ▸ Nat.min_le_right ..), h]
  omega

theorem pattern_neg_ofPattern (hn : n < infinity) : pattern (-ofPattern false n) = n := by
  rw [pattern, toNat_toBits_neg hn]
  unfold infinity at hn
  omega

theorem isFinite_neg_ofPattern (hn : n < infinity) : (-ofPattern false n).isFinite := by
  rw [isFinite_iff, pattern_neg_ofPattern hn]
  exact hn

theorem isNegative_neg_ofPattern (hn : n < infinity) : isNegative (-ofPattern false n) := by
  rw [isNegative, toNat_toBits_neg hn, decide_eq_true_eq]
  exact Nat.le_add_right ..

-- A negative double is that of its pattern with the sign changed.
theorem eq_neg_ofPattern (h : isNegative x) (hx : x.isFinite) :
    x = -ofPattern false (pattern x) := by
  have hn := isFinite_iff.mp hx
  have hx : 2 ^ 63 ≤ x.toBits.toNat := by simpa [isNegative] using h
  have hlt := x.toBits.toNat_lt
  have hb : x.toBits = (-ofPattern false (pattern x)).toBits := by
    rw [← UInt64.toNat_inj, toNat_toBits_neg hn, pattern]
    omega
  calc x
    _ = Float.ofBits x.toBits := (Float.ofBits_toBits x).symm
    _ = Float.ofBits (-ofPattern false (pattern x)).toBits := congrArg Float.ofBits hb
    _ = -ofPattern false (pattern x) := Float.ofBits_toBits _

-- Whole numbers of fifty-three bits are doubles.
theorem units_nearest_of_lt {c : Nat} (hc : c < 2 ^ 53) :
    units (nearest c 1) = c * unitsPerOne := by
  rcases Nat.eq_zero_or_pos c with rfl | hp
  case inl =>
    rw [nearest_zero (by decide), Nat.zero_mul]
    rfl
  case inr =>
    obtain ⟨s, hs⟩ : ∃ s, s = 1074 := ⟨_, rfl⟩
    have hu : unitsPerOne = 2 ^ s := by rw [unitsPerOne, ← hs]
    have hl : (c * 2 ^ s).log2 = c.log2 + s := by
      have h := log2_fraction (m := c) (d := 1) (r := 0) (by decide) hp.ne' s
      rwa [Nat.mul_one, Nat.add_zero, Nat.div_one] at h
    have hc := (Nat.log2_lt hp.ne').mpr hc
    obtain ⟨e, he⟩ : ∃ e, e = (c * unitsPerOne / 1).log2 - 52 := ⟨_, rfl⟩
    have hes : e ≤ s := by
      rw [Nat.div_one, hu, hl] at he
      omega
    have hr : roundHalfEven (c * unitsPerOne) (1 * 2 ^ e) = c * 2 ^ (s - e) := by
      have h : c * unitsPerOne = c * 2 ^ (s - e) * 2 ^ e := by
        rw [hu, Nat.mul_assoc, ← Nat.pow_add, Nat.sub_add_cancel hes]
      rw [h, Nat.one_mul, roundHalfEven_mul (Nat.two_pow_pos e)]
    have h := (isRounded (x := c * unitsPerOne) (b := 1) (by decide) he).units_eq
    rw [nearest, ← he, h, hr, Nat.mul_assoc, ← Nat.pow_add, Nat.sub_add_cancel hes, hu]

theorem units_nearest_one : units (nearest (10 ^ 0) 1) = unitsPerOne := by
  rw [units_nearest_of_lt (by decide), Nat.pow_zero, Nat.one_mul]

theorem nearest_ten_pow_mono (h : m ≤ n) : nearest (10 ^ m) 1 ≤ nearest (10 ^ n) 1 :=
  nearest_mono (by decide) (by decide)
    (Nat.mul_le_mul_right 1 (Nat.pow_le_pow_right (by decide) h))

theorem unitsPerOne_le_units_nearest_ten_pow (k : Nat) :
    unitsPerOne ≤ units (nearest (10 ^ k) 1) := by
  rw [← units_nearest_one]
  exact units_strictMono.monotone (nearest_ten_pow_mono (Nat.zero_le k))

theorem nearest_ten_pow_pos (k : Nat) : 0 < nearest (10 ^ k) 1 := by
  have h : 0 < nearest (10 ^ 0) 1 := by
    refine Nat.pos_of_ne_zero fun e => unitsPerOne_pos.ne ?_
    rw [← units_nearest_one, e]
    rfl
  exact h.trans_le (nearest_ten_pow_mono (Nat.zero_le k))

end Binary64

namespace Decimal

open Binary64

theorem nearest_topPower_lt_infinity : nearest (10 ^ topPower) 1 < infinity := by
  decide +kernel

theorem nearest_ten_pow_lt_infinity (h : k ≤ topPower) : nearest (10 ^ k) 1 < infinity :=
  (nearest_ten_pow_mono h).trans_lt nearest_topPower_lt_infinity

theorem toNat_toBits_div_powerOfTen (hn : n < infinity) (hk : k ≤ topPower) :
    (ofPattern false n / powerOfTen k).toBits.toNat =
      min (nearest (units n) (units (nearest (10 ^ k) 1))) infinity :=
  toNat_toBits_div hn (nearest_ten_pow_lt_infinity hk) (nearest_ten_pow_pos k)

theorem toNat_toBits_mul_powerOfTen (hn : n < infinity) (hk : k ≤ topPower) :
    (ofPattern false n * powerOfTen k).toBits.toNat =
      min (nearest (units n * units (nearest (10 ^ k) 1)) (unitsPerOne * unitsPerOne)) infinity :=
  toNat_toBits_mul hn (nearest_ten_pow_lt_infinity hk)

-- The pattern to which division by a power of ten leads.
def quotient (n k : Nat) : Nat :=
  nearest (units n) (units (nearest (10 ^ k) 1))

-- Division by a power of ten makes nothing greater.
theorem quotient_le (n k : Nat) : quotient n k ≤ n := by
  have hu := unitsPerOne_le_units_nearest_ten_pow k
  calc nearest (units n) (units (nearest (10 ^ k) 1))
    _ ≤ nearest (units n) unitsPerOne :=
      nearest_mono (unitsPerOne_pos.trans_le hu) unitsPerOne_pos (Nat.mul_le_mul_left _ hu)
    _ = n := nearest_units n

theorem div_powerOfTen (hn : n < infinity) (hk : k ≤ topPower) :
    ofPattern false n / powerOfTen k = ofPattern false (quotient n k) :=
  eq_ofPattern_of_min (toNat_toBits_div_powerOfTen hn hk) ((quotient_le n k).trans_lt hn)

theorem scaleDown_ofPattern (hn : n < infinity) (k : Nat) :
    ∃ m ≤ n, scaleDown (ofPattern false n) k = ofPattern false m := by
  induction k using Nat.strongRecOn generalizing n
  case ind k ih =>
    rw [scaleDown]
    split_ifs with hk hz
    case pos => exact ⟨_, quotient_le n k, div_powerOfTen hn hk⟩
    case pos => exact ⟨n, le_rfl, rfl⟩
    case neg =>
      have hq := quotient_le n topPower
      have hlt : k - topPower < k := by
        unfold topPower at *
        omega
      have ⟨m, hm, e⟩ := ih (k - topPower) hlt (hq.trans_lt hn)
      rw [div_powerOfTen hn le_rfl]
      exact ⟨m, hm.trans hq, e⟩

theorem toFloat_eq (w : UInt64) :
    nearest w.toNat 1 < infinity ∧ w.toFloat = ofPattern false (nearest w.toNat 1) := by
  have hlt : nearest w.toNat 1 < infinity := by
    rw [nearest_lt_infinity_iff (by decide)]
    exact w.toNat_lt.trans (by decide +kernel)
  exact ⟨hlt, eq_ofPattern_of_min (toNat_toBits_toFloat w) hlt⟩

-- What is read by scaling is in the range of doubles.
theorem scaled?_eq_some {d : Decimal} (h : scaled? d = some x) :
    ∃ n < infinity, x = ofPattern false n := by
  have ⟨hlt, hw⟩ := toFloat_eq d.coefficient.toUInt64
  rw [scaled?, hw] at h
  split_ifs at h with he
  case pos =>
    have ⟨m, hm, e⟩ := scaleDown_ofPattern hlt (-d.exponent).toNat
    exact ⟨m, hm.trans_lt hlt, (Option.some.inj h).symm.trans e⟩
  case neg =>
    unfold scaleUp? at h
    dsimp only at h
    split_ifs at h with hk hf hz
    case pos =>
      have hp := toNat_toBits_mul_powerOfTen hlt hk
      have hn := (isFinite_iff_of_min hp).mp hf
      exact ⟨_, hn, (Option.some.inj h).symm.trans (eq_ofPattern_of_min hp hn)⟩
    case pos => exact ⟨_, hlt, (Option.some.inj h).symm⟩

-- The first few powers of ten are doubles.
theorem units_nearest_ten_pow (hk : k ≤ 22) :
    units (nearest (10 ^ k) 1) = 10 ^ k * unitsPerOne := by
  have table : ∀ k < 23, units (nearest (10 ^ k) 1) = 10 ^ k * unitsPerOne := by decide +kernel
  exact table k (by omega)

theorem toFloat_toUInt64 {c : Nat} (hc : c < 2 ^ 64) :
    nearest c 1 < infinity ∧ c.toUInt64.toFloat = ofPattern false (nearest c 1) := by
  have hw : c.toUInt64.toNat = c := Nat.mod_eq_of_lt hc
  have h := toFloat_eq c.toUInt64
  rwa [hw] at h

-- If the digits and the power of ten are doubles themselves, the nearest double is read.
theorem scaled?_of_small {d : Decimal} (hc : d.coefficient < 2 ^ 53)
    (he : d.exponent.natAbs ≤ 22) (h : d.nearest? = some n) :
    scaled? d = some (ofPattern false n) := by
  have ⟨hlt, hw⟩ := toFloat_toUInt64 (c := d.coefficient) (by omega)
  have hu := units_nearest_of_lt hc
  have hU := unitsPerOne_pos
  rw [nearest?_eq] at h
  dsimp only at h
  split_ifs at h with hn
  cases h
  rw [scaled?, hw]
  split_ifs with hs
  case pos =>
    have hz : d.exponent.toNat = 0 := by omega
    have hk : (-d.exponent).toNat ≤ 22 := by omega
    have hp := units_nearest_ten_pow hk
    have hr : nearest (d.coefficient * unitsPerOne) (10 ^ (-d.exponent).toNat * unitsPerOne) =
        nearest (d.coefficient * 10 ^ d.exponent.toNat) (10 ^ (-d.exponent).toNat) := by
      rw [nearest_mul_mul hU, hz, Nat.pow_zero, Nat.mul_one]
    have ht : (-d.exponent).toNat ≤ topPower := by
      unfold topPower
      omega
    rw [scaleDown, if_pos ht, div_powerOfTen hlt ht, quotient, hu, hp, hr]
  case neg =>
    have hz : (-d.exponent).toNat = 0 := by omega
    have hk : d.exponent.toNat ≤ 22 := by omega
    have hp := units_nearest_ten_pow hk
    have hq := toNat_toBits_mul_powerOfTen hlt (k := d.exponent.toNat)
      (by unfold topPower; omega)
    have hr : nearest (d.coefficient * unitsPerOne * (10 ^ d.exponent.toNat * unitsPerOne))
          (unitsPerOne * unitsPerOne) =
        nearest (d.coefficient * 10 ^ d.exponent.toNat) (10 ^ (-d.exponent).toNat) := by
      rw [Nat.mul_mul_mul_comm, hz, Nat.pow_zero]
      nth_rewrite 2 [← Nat.one_mul (unitsPerOne * unitsPerOne)]
      exact nearest_mul_mul (Nat.mul_pos hU hU) ..
    rw [hu, hp, hr] at hq
    rw [scaleUp?, if_pos (by unfold topPower; omega)]
    dsimp only
    rw [if_pos ((isFinite_iff_of_min hq).mpr hn), eq_ofPattern_of_min hq hn]

end Decimal

end Abacus
