import Abacus.Proofs.Nearest

namespace Abacus.Binary64

open Float.Model (Format UnpackedFloat totalExponent)
open Float.Model.UnpackedFloat

variable {a b d m n r s E R : Nat} {e : ℤ} {em : ExtendedMantissa}

-- A mantissa, with two bits that tell what has been cut off, stands for the quotient `a / b`.
structure Represents (em : ExtendedMantissa) (a b : Nat) : Prop where
  mantissa : em.mantissa = a / b
  round    : em.roundBit ↔ b ≤ 2 * (a % b)
  sticky   : em.stickyBit ↔ 2 * (a % b) ≠ 0 ∧ 2 * (a % b) ≠ b

namespace Represents

theorem ofFraction (hr : r < d) (m : Nat) :
    Represents (.ofMantissaAndAccuracy m (accuracyOfFraction r d)) (m * d + r) d := by
  have hd : (m * d + r) / d = m := by
    rw [Nat.mul_comm, Nat.mul_add_div (by omega), Nat.div_eq_of_lt hr, Nat.add_zero]
  have hm : (m * d + r) % d = r := by
    rw [Nat.mul_comm, Nat.mul_add_mod, Nat.mod_eq_of_lt hr]
  unfold accuracyOfFraction
  split_ifs with hz
  case pos => constructor <;> simp [ExtendedMantissa.ofMantissaAndAccuracy, hd, hm] <;> omega
  case neg =>
    cases hc : compare (2 * r) d
    case lt =>
      have := Nat.compare_eq_lt.mp hc
      constructor <;> simp [ExtendedMantissa.ofMantissaAndAccuracy, hd, hm] <;> omega
    case eq =>
      have := Nat.compare_eq_eq.mp hc
      constructor <;> simp [ExtendedMantissa.ofMantissaAndAccuracy, hd, hm] <;> omega
    case gt =>
      have := Nat.compare_eq_gt.mp hc
      constructor <;> simp [ExtendedMantissa.ofMantissaAndAccuracy, hd, hm] <;> omega

theorem shiftRightOne (hb : 0 < b) (h : Represents em a b) :
    Represents em.shiftRightOne a (b * 2) := by
  have hr : a % b < b := Nat.mod_lt a hb
  have hm : a % (b * 2) = a % b + b * (a / b % 2) := Nat.mod_mul
  constructor
  case mantissa => rw [ExtendedMantissa.shiftRightOne, h.mantissa, Nat.div_div_eq_div_mul]
  case round =>
    rw [ExtendedMantissa.shiftRightOne, h.mantissa, hm]
    rcases Nat.mod_two_eq_zero_or_one (a / b) with e | e <;> simp [e] <;> omega
  case sticky =>
    rw [ExtendedMantissa.shiftRightOne, Bool.or_eq_true, h.round, h.sticky, hm]
    rcases Nat.mod_two_eq_zero_or_one (a / b) with e | e <;> simp [e] <;> omega

theorem shiftRight (hb : 0 < b) (h : Represents em a b) (s : Nat) :
    Represents (em >>> s) a (b * 2 ^ s) := by
  change Represents (s.repeat ExtendedMantissa.shiftRightOne em) a (b * 2 ^ s)
  induction s
  case zero => rwa [Nat.pow_zero, Nat.mul_one]
  case succ s ih =>
    rw [Nat.repeat, Nat.pow_succ, ← Nat.mul_assoc]
    exact shiftRightOne (Nat.mul_pos hb (Nat.two_pow_pos s)) ih

theorem roundedMantissa_eq (h : Represents em a b) : em.roundedMantissa = roundHalfEven a b := by
  have hm := h.mantissa
  have hr := h.round
  have hs := h.sticky
  obtain ⟨mantissa, round, sticky⟩ := em
  dsimp only at hm hr hs
  subst hm
  cases round <;> cases sticky <;>
    simp only [ExtendedMantissa.roundedMantissa, ExtendedMantissa.accuracy,
      Accuracy.roundToNearestEven, roundHalfEven] <;>
    simp at hr hs <;> split_ifs <;> omega

end Represents

theorem toNat_packComponents (sign : Sign) (x : BitVec 11) (m : BitVec 52) :
    (packComponents .binary64 sign x m).toNat =
      sign.toBitVec.toNat * 2 ^ 63 + (x.toNat * 2 ^ 52 + m.toNat) := by
  have h : (packComponents .binary64 sign x m).toNat = ((sign.toBitVec ++ x) ++ m).toNat := rfl
  rw [h, BitVec.toNat_append, ← Nat.shiftLeft_add_eq_or_of_lt m.isLt, Nat.shiftLeft_eq,
    BitVec.toNat_append, ← Nat.shiftLeft_add_eq_or_of_lt x.isLt, Nat.shiftLeft_eq]
  omega

-- A mantissa of at most fifty-three bits with an exponent of at least that of the first binade.
theorem toNat_pack_finite (sign : Sign) (hm : 0 < m) (floor : 0 < E → 2 ^ 52 ≤ m)
    (ceil : m < 2 ^ 53) :
    (pack .binary64 (.finite sign m (E - 1074) hm)).toNat =
      sign.toBitVec.toNat * 2 ^ 63 + min (E * 2 ^ 52 + m) infinity := by
  have he : ((E - 1074 : ℤ) + Format.binary64.exponentBias + (52 : Nat)).toNat = E + 1 := by
    have : Format.binary64.exponentBias = 1023 := rfl
    omega
  have hl : m.log2 = 52 ↔ 2 ^ 52 ≤ m := by
    rw [Nat.log2_eq_iff hm.ne']
    omega
  have hb : Format.binary64.mantissaBits = 53 := rfl
  unfold infinity
  rw [pack]
  dsimp only
  rw [he]
  split_ifs with hi hn
  case pos =>
    have h : (-1#11).toNat = 2047 := rfl
    have hz : (0 : BitVec 52).toNat = 0 := rfl
    rw [packedInfinity, toNat_packComponents, h, hz]
    omega
  case pos =>
    have := hl.mp (by omega)
    rw [toNat_packComponents, BitVec.toNat_ofNat, BitVec.toNat_ofNat]
    omega
  case neg =>
    have hn : ¬m.log2 = 52 := by omega
    rw [toNat_packComponents, BitVec.toNat_ofNat, BitVec.toNat_ofNat]
    omega

theorem toNat_positive : Sign.positive.toBitVec.toNat = 0 :=
  rfl

-- What is packed of a mantissa that has been shifted to its exponent.
def ofShifted (x : ExtendedMantissa × ℤ) : UnpackedFloat :=
  if h : x.1.mantissa = 0 then .zero .positive
  else .finite .positive x.1.mantissa x.2 (Nat.pos_of_ne_zero h)

theorem ofShifted_of_pos (hm : 0 < m) (round sticky : Bool) (e : ℤ) :
    ofShifted (⟨m, round, sticky⟩, e) = .finite .positive m e hm :=
  dif_neg hm.ne'

theorem targetExponent_eq (m : Nat) (e : ℤ) :
    Format.binary64.targetExponent (totalExponent m e) = max (m.log2 + e - 52) (-1074) := by
  have hb : Format.binary64.mantissaBits = 53 := rfl
  have hm : Format.binary64.minExponent = -1074 := rfl
  rw [Format.targetExponent, totalExponent, hb, hm]
  omega

theorem shiftToTargetExponent_exact (ceil : R < 2 ^ 53) :
    shiftToTargetExponent .binary64 R (E - 1074) .exact = (⟨R, false, false⟩, (E - 1074 : ℤ)) := by
  have hl : R.log2 ≤ 52 := by
    by_cases hz : R = 0
    case pos => simp [hz]
    case neg => exact Nat.le_of_lt_succ ((Nat.log2_lt hz).mpr ceil)
  have hs : (max ((R.log2 : ℤ) + (E - 1074) - 52) (-1074) - (E - 1074)).toNat = 0 := by omega
  rw [shiftToTargetExponent, targetExponent_eq, shiftToExponent, hs, Int.natCast_zero,
    Int.add_zero]
  rfl

-- A mantissa that has been rounded up to fifty-four bits is shifted once more.
theorem shiftToTargetExponent_carry :
    shiftToTargetExponent .binary64 (2 ^ 53) (E - 1074) .exact =
      (⟨2 ^ 52, false, false⟩, ((E + 1 : Nat) - 1074 : ℤ)) := by
  have hs : (max (((2 ^ 53 : Nat).log2 : ℤ) + (E - 1074) - 52) (-1074) - (E - 1074)).toNat = 1 := by
    rw [Nat.log2_two_pow]
    omega
  have he : (E - 1074 : ℤ) + (1 : Nat) = (E + 1 : Nat) - 1074 := by omega
  rw [shiftToTargetExponent, targetExponent_eq, shiftToExponent, hs, he]
  rfl

theorem toNat_pack_ofShifted (floor : 0 < E → 2 ^ 52 ≤ R) (ceil : R ≤ 2 ^ 53) :
    (pack .binary64 (ofShifted (shiftToTargetExponent .binary64 R (E - 1074) .exact))).toNat =
      min (E * 2 ^ 52 + R) infinity := by
  by_cases hc : R = 2 ^ 53
  case pos =>
    subst hc
    have hm : 0 < 2 ^ 52 := Nat.two_pow_pos 52
    have hp := toNat_pack_finite (E := E + 1) .positive hm (fun _ => le_rfl) (by omega)
    have he : (E + 1) * 2 ^ 52 + 2 ^ 52 = E * 2 ^ 52 + 2 ^ 53 := by omega
    rw [shiftToTargetExponent_carry, ofShifted_of_pos hm, hp, toNat_positive, Nat.zero_mul,
      Nat.zero_add, he]
  case neg =>
    rw [shiftToTargetExponent_exact (by omega)]
    by_cases hz : R = 0
    case pos =>
      subst hz
      have h : (pack .binary64 (.zero .positive)).toNat = 0 := rfl
      refine h.trans ?_
      unfold infinity
      omega
    case neg =>
      have hm := Nat.pos_of_ne_zero hz
      rw [ofShifted_of_pos hm, toNat_pack_finite .positive hm floor (by omega), toNat_positive,
        Nat.zero_mul, Nat.zero_add]

theorem div_congr {a' b' : Nat} (hb : 0 < b) (hb' : 0 < b') (h : a * b' = a' * b) :
    a / b = a' / b' := by
  rw [← Nat.mul_div_mul_right a b hb', h, Nat.mul_comm b, Nat.mul_div_mul_right _ _ hb]

theorem roundHalfEven_congr {a' b' : Nat} (hb : 0 < b) (hb' : 0 < b') (h : a * b' = a' * b) :
    roundHalfEven a b = roundHalfEven a' b' := by
  rw [← roundHalfEven_mul_mul hb' a b, h, Nat.mul_comm b, roundHalfEven_mul_mul hb]

theorem log2_div_two_pow (m j : Nat) : (m / 2 ^ j).log2 = m.log2 - j := by
  induction j
  case zero => rw [Nat.pow_zero, Nat.div_one, Nat.sub_zero]
  case succ j ih =>
    have h : (m / 2 ^ j / 2).log2 = (m / 2 ^ j).log2 - 1 := by
      rw [Nat.log2_def (m / 2 ^ j)]
      split_ifs with hm
      case pos => rfl
      case neg =>
        rw [Nat.div_eq_of_lt (by omega)]
        rfl
    rw [Nat.pow_succ, ← Nat.div_div_eq_div_mul, h, ih, Nat.sub_sub]

theorem log2_fraction (hr : r < d) (hm : m ≠ 0) (j : Nat) :
    ((m * d + r) * 2 ^ j / d).log2 = m.log2 + j := by
  have hd : 0 < d := by omega
  have low : 2 ^ (m.log2 + j) ≤ (m * d + r) * 2 ^ j / d := by
    rw [Nat.le_div_iff_mul_le hd, Nat.pow_add, Nat.mul_right_comm]
    have hl := Nat.mul_le_mul_right d (Nat.log2_self_le hm)
    exact Nat.mul_le_mul_right _ (Nat.le_add_right_of_le hl)
  have high : (m * d + r) * 2 ^ j / d < 2 ^ (m.log2 + j + 1) := by
    rw [Nat.div_lt_iff_lt_mul hd, Nat.add_right_comm, Nat.pow_add, Nat.mul_right_comm]
    refine Nat.mul_lt_mul_of_pos_right ?_ (Nat.two_pow_pos j)
    calc m * d + r
      _ < (m + 1) * d := by rw [Nat.succ_mul]; omega
      _ ≤ 2 ^ (m.log2 + 1) * d := Nat.mul_le_mul_right d Nat.lt_log2_self
  have hne : (m * d + r) * 2 ^ j / d ≠ 0 := (Nat.two_pow_pos _).trans_le low |>.ne'
  exact (Nat.log2_eq_iff hne).mpr ⟨low, high⟩

-- A fraction is shifted to the binade of the quotient that it stands for.
theorem shift_eq (hr : r < d) (hb : 0 < b)
    (he : e ≤ Format.binary64.targetExponent (totalExponent m e))
    (hv : a * unitsPerOne * (d * 2 ^ (-(e + 1074)).toNat) =
      (m * d + r) * 2 ^ (e + 1074).toNat * b) :
    ∃ E s : Nat, E = (a * unitsPerOne / b).log2 - 52 ∧ e + s = E - 1074 ∧
      Format.binary64.targetExponent (totalExponent m e) = E - 1074 ∧
      roundHalfEven (m * d + r) (d * 2 ^ s) = roundHalfEven (a * unitsPerOne) (b * 2 ^ E) := by
  have hd : 0 < d := by omega
  have hp (k : Nat) : 0 < 2 ^ k := Nat.two_pow_pos k
  rw [targetExponent_eq] at he ⊢
  by_cases hk : e + 1074 ≤ 0
  case pos =>
    obtain ⟨j, rfl⟩ : ∃ j : Nat, e = -1074 - j := ⟨(-(e + 1074)).toNat, by omega⟩
    have h₁ : (-(-1074 - (j : ℤ) + 1074)).toNat = j := by omega
    have h₂ : (-1074 - (j : ℤ) + 1074).toNat = 0 := by omega
    rw [h₁, h₂, Nat.pow_zero, Nat.mul_one] at hv
    have hq : a * unitsPerOne / b = m / 2 ^ j := by
      rw [div_congr hb (Nat.mul_pos hd (hp j)) hv, ← Nat.div_div_eq_div_mul, Nat.mul_comm m,
        Nat.mul_add_div hd, Nat.div_eq_of_lt hr, Nat.add_zero]
    refine ⟨m.log2 - j - 52, m.log2 - j - 52 + j, ?_, by omega, by omega, ?_⟩
    · rw [hq, log2_div_two_pow]
    · refine roundHalfEven_congr (Nat.mul_pos hd (hp _)) (Nat.mul_pos hb (hp _)) ?_
      rw [← Nat.mul_assoc, ← hv, Nat.pow_add]
      ring
  case neg =>
    obtain ⟨j, rfl⟩ : ∃ j : Nat, e = j - 1074 := ⟨(e + 1074).toNat, by omega⟩
    have h₁ : (-((j : ℤ) - 1074 + 1074)).toNat = 0 := by omega
    have h₂ : ((j : ℤ) - 1074 + 1074).toNat = j := by omega
    rw [h₁, h₂, Nat.pow_zero, Nat.mul_one] at hv
    -- Above the first binade there are bits enough.
    have hl : 52 ≤ m.log2 := by omega
    have hm : m ≠ 0 := by
      rintro rfl
      rw [Nat.log2_zero] at hl
      omega
    refine ⟨m.log2 + j - 52, m.log2 - 52, ?_, by omega, by omega, ?_⟩
    · rw [div_congr hb hd hv, log2_fraction hr hm]
    · have hs : m.log2 + j - 52 = j + (m.log2 - 52) := by omega
      refine roundHalfEven_congr (Nat.mul_pos hd (hp _)) (Nat.mul_pos hb (hp _)) ?_
      rw [hs, ← Nat.mul_assoc (a * unitsPerOne), hv, Nat.pow_add]
      ring

theorem toNat_pack_roundWithAccuracy (hr : r < d) (hb : 0 < b)
    (he : e ≤ Format.binary64.targetExponent (totalExponent m e))
    (hv : a * unitsPerOne * (d * 2 ^ (-(e + 1074)).toNat) =
      (m * d + r) * 2 ^ (e + 1074).toNat * b) :
    (pack .binary64 (roundWithAccuracy .binary64 .positive m e (accuracyOfFraction r d))).toNat =
      min (nearest a b) infinity := by
  have ⟨E, s, hE, hs, ht, hR⟩ := shift_eq hr hb he hv
  have hrounded := isRounded hb hE
  have hfirst : shiftToTargetExponent .binary64 m e (accuracyOfFraction r d) =
      (ExtendedMantissa.ofMantissaAndAccuracy m (accuracyOfFraction r d) >>> s,
        (E - 1074 : ℤ)) := by
    have hn : (E - 1074 - e : ℤ).toNat = s := by omega
    rw [shiftToTargetExponent, ht, shiftToExponent, hn, hs]
  have hm := ((Represents.ofFraction hr m).shiftRight (by omega) s).roundedMantissa_eq
  have hp := toNat_pack_ofShifted hrounded.floor hrounded.ceil
  have h : roundWithAccuracy .binary64 .positive m e (accuracyOfFraction r d) =
      ofShifted (shiftToTargetExponent .binary64
        (roundHalfEven (a * unitsPerOne) (b * 2 ^ E)) (E - 1074) .exact) := by
    rw [roundWithAccuracy, hfirst]
    dsimp only
    rw [hm, hR]
    rfl
  rw [h, hp, nearest, hE]

-- The mantissa that a pattern is unpacked to, and its exponent is that of its binade.
def significand (n : Nat) : Nat :=
  n - binade n * 2 ^ 52

theorem units_eq_significand (n : Nat) : units n = significand n * 2 ^ binade n :=
  rfl

theorem significand_pos (h : 0 < n) : 0 < significand n := by
  unfold significand binade
  omega

theorem le_significand (h : 0 < binade n) : 2 ^ 52 ≤ significand n :=
  (significand_bounds h).left

theorem finite_congr {m m' : Nat} {e e' : ℤ} (h : m = m') (h' : e = e') (hm : 0 < m)
    (hm' : 0 < m') :
    UnpackedFloat.finite .positive m e hm = .finite .positive m' e' hm' := by
  subst h h'
  rfl

theorem sign_eq_positive {v : BitVec 64} (h : v.toNat < 2 ^ 63) :
    Sign.ofBitVec (@unpackSign .binary64 v) = .positive := by
  refine if_pos ?_
  rw [← BitVec.toNat_inj]
  simp [unpackSign, Nat.shiftRight_eq_div_pow]
  omega

theorem unpack_eq_finite {v : BitVec 64} (h : v.toNat = n) (hn : n < infinity) (hz : 0 < n) :
    unpack .binary64 v =
      .finite .positive (significand n) (binade n - 1074) (significand_pos hz) := by
  have hb : n < 2 ^ 63 := hn.trans (by decide)
  have hp : v.toNat % 2 ^ 63 = n := by rw [h, Nat.mod_eq_of_lt hb]
  have hs := sign_eq_positive (h ▸ hb)
  have hi : ¬@unpackExponent .binary64 v = -1#11 := by
    rw [unpackExponent_eq_allOnes_iff, hp]
    omega
  have hx := toNat_unpackExponent v
  have hm := toNat_unpackMantissa v
  rw [hp] at hx hm
  have hbias : Format.binary64.exponentBias = 1023 := rfl
  rw [UnpackedFloat.unpack]
  dsimp only
  rw [if_neg hi, hs]
  by_cases hl : n < 2 ^ 52
  case pos =>
    have he := unpackExponent_eq_zero_iff.mpr (hp ▸ hl)
    have hz : ¬@unpackMantissa .binary64 v = 0#52 := by
      intro h
      rw [h, BitVec.toNat_zero] at hm
      omega
    rw [if_pos he, dif_neg hz]
    apply finite_congr
    case h =>
      rw [hm, significand, binade]
      omega
    case h' =>
      rw [hx, hbias, binade]
      omega
  case neg =>
    have he : ¬@unpackExponent .binary64 v = 0#11 := fun h =>
      hl (hp ▸ unpackExponent_eq_zero_iff.mp h)
    rw [if_neg he]
    apply finite_congr
    case h =>
      rw [toNat_one_append, hm, significand, binade]
      omega
    case h' =>
      rw [hx, hbias, binade]
      omega

theorem unpack_ofPattern (hn : n < infinity) (hz : 0 < n) :
    (ofPattern false n).toModel.unpack =
      .finite .positive (significand n) (binade n - 1074) (significand_pos hz) :=
  unpack_eq_finite (toNat_toBits_ofPattern hn) hn hz

-- A pattern is packed as it was, with the sign that it is given.
theorem toNat_pack_significand (sign : Sign) (hn : n < infinity) (hz : 0 < n) :
    (pack .binary64 (.finite sign (significand n) (binade n - 1074) (significand_pos hz))).toNat =
      sign.toBitVec.toNat * 2 ^ 63 + n := by
  have he : binade n * 2 ^ 52 + significand n = n := by
    unfold significand binade
    omega
  rw [toNat_pack_finite sign (significand_pos hz) le_significand (significand_lt n), he,
    Nat.min_eq_left hn.le]

theorem unpack_ofPattern_zero : (ofPattern false 0).toModel.unpack = .zero .positive :=
  rfl

theorem ofPattern_ne_zero (hn : n < infinity) (hz : 0 < n) : ¬ofPattern false n == 0.0 := by
  have h : (ofPattern false n == 0.0) =
      (ofPattern false n).toModel.unpack.beq (ofPattern false 0).toModel.unpack := rfl
  rw [h, unpack_ofPattern hn hz, unpack_ofPattern_zero]
  exact Bool.false_ne_true

-- Without a fraction the mantissa is exact.
theorem toNat_pack_exact (hb : 0 < b)
    (he : e ≤ Format.binary64.targetExponent (totalExponent m e))
    (hv : a * unitsPerOne * 2 ^ (-(e + 1074)).toNat = m * 2 ^ (e + 1074).toNat * b) :
    (pack .binary64 (roundWithAccuracy .binary64 .positive m e .exact)).toNat =
      min (nearest a b) infinity :=
  toNat_pack_roundWithAccuracy (r := 0) (d := 1) (by decide) hb he (by simpa using hv)

-- Above the first binade the product of the significands has bits enough.
theorem le_log2_product (pm : 0 < m) (pn : 0 < n) (h : 0 < binade m + binade n) :
    52 ≤ (significand m * significand n).log2 := by
  have sm := significand_pos pm
  have sn := significand_pos pn
  rw [Nat.le_log2 (Nat.mul_pos sm sn).ne']
  rcases Nat.add_pos_iff_pos_or_pos.mp h with h | h
  · exact (le_significand h).trans (Nat.le_mul_of_pos_right _ sn)
  · exact (le_significand h).trans (Nat.le_mul_of_pos_left _ sm)

theorem toNat_toBits_mul_of_pos (hm : m < infinity) (hn : n < infinity) (pm : 0 < m)
    (pn : 0 < n) :
    (ofPattern false m * ofPattern false n).toBits.toNat =
      min (nearest (units m * units n) (unitsPerOne * unitsPerOne)) infinity := by
  change (pack .binary64 (mul .binary64 (ofPattern false m).toModel.unpack
    (ofPattern false n).toModel.unpack)).toNat = _
  rw [unpack_ofPattern hm pm, unpack_ofPattern hn pn]
  refine toNat_pack_exact (Nat.mul_pos unitsPerOne_pos unitsPerOne_pos) ?_ ?_
  case refine_1 =>
    have bits := le_log2_product pm pn
    rw [targetExponent_eq]
    omega
  case refine_2 =>
    obtain ⟨p, hp⟩ : ∃ p, p = (-((binade m - 1074 : ℤ) + (binade n - 1074) + 1074)).toNat :=
      ⟨_, rfl⟩
    obtain ⟨q, hq⟩ : ∃ q, q = ((binade m - 1074 : ℤ) + (binade n - 1074) + 1074).toNat :=
      ⟨_, rfl⟩
    have hk : binade m + binade n + 1074 + p = q + (1074 + 1074) := by omega
    have hk : 2 ^ binade m * 2 ^ binade n * unitsPerOne * 2 ^ p =
        2 ^ q * (unitsPerOne * unitsPerOne) := by
      simp only [unitsPerOne, ← Nat.pow_add, hk]
    rw [← hp, ← hq, units_eq_significand, units_eq_significand]
    calc significand m * 2 ^ binade m * (significand n * 2 ^ binade n) * unitsPerOne * 2 ^ p
      _ = significand m * significand n *
          (2 ^ binade m * 2 ^ binade n * unitsPerOne * 2 ^ p) := by ring
      _ = significand m * significand n * 2 ^ q * (unitsPerOne * unitsPerOne) := by
        rw [hk, ← Nat.mul_assoc]

-- The product of doubles is the double nearest to their product.
theorem toNat_toBits_mul (hm : m < infinity) (hn : n < infinity) :
    (ofPattern false m * ofPattern false n).toBits.toNat =
      min (nearest (units m * units n) (unitsPerOne * unitsPerOne)) infinity := by
  have hzero : min (nearest 0 (unitsPerOne * unitsPerOne)) infinity = 0 := by
    rw [nearest_zero (Nat.mul_pos unitsPerOne_pos unitsPerOne_pos)]
    exact Nat.zero_min _
  have hz : units 0 = 0 := rfl
  have h : (ofPattern false m * ofPattern false n).toBits.toNat =
      (pack .binary64 (mul .binary64 (ofPattern false m).toModel.unpack
        (ofPattern false n).toModel.unpack)).toNat := rfl
  rcases Nat.eq_zero_or_pos m with rfl | pm
  case inl =>
    rw [h, hz, Nat.zero_mul, hzero, unpack_ofPattern_zero]
    rcases Nat.eq_zero_or_pos n with rfl | pn
    case inl => rfl
    case inr =>
      rw [unpack_ofPattern hn pn]
      rfl
  rcases Nat.eq_zero_or_pos n with rfl | pn
  case inl =>
    rw [h, hz, Nat.mul_zero, hzero, unpack_ofPattern_zero, unpack_ofPattern hm pm]
    rfl
  case inr => exact toNat_toBits_mul_of_pos hm hn pm pn

-- A quotient is computed with so many digits that its mantissa has bits enough.
theorem le_log2_quotient {m m' j : Nat} (hm : 0 < m) (hm' : 0 < m')
    (h : m'.log2 + 53 ≤ m.log2 + j) : 52 ≤ (m * 2 ^ j / m').log2 := by
  have low : 2 ^ 52 ≤ m * 2 ^ j / m' := by
    rw [Nat.le_div_iff_mul_le hm']
    calc 2 ^ 52 * m'
      _ ≤ 2 ^ 52 * 2 ^ (m'.log2 + 1) := Nat.mul_le_mul_left _ Nat.lt_log2_self.le
      _ = 2 ^ (m'.log2 + 53) := by rw [← Nat.pow_add]; congr 1; omega
      _ ≤ 2 ^ (m.log2 + j) := Nat.pow_le_pow_right (by decide) h
      _ ≤ m * 2 ^ j := by
        rw [Nat.pow_add]
        exact Nat.mul_le_mul_right _ (Nat.log2_self_le hm.ne')
  have hne : m * 2 ^ j / m' ≠ 0 := (Nat.two_pow_pos _).trans_le low |>.ne'
  exact (Nat.le_log2 hne).mpr low

theorem exists_divCore (m₁ : Nat) (e₁ : ℤ) (m₂ : Nat) (e₂ : ℤ) :
    ∃ (t : ℤ) (j : Nat),
      divCore .binary64 m₁ e₁ m₂ e₂ =
        (m₁ * 2 ^ j / m₂, t, accuracyOfFraction (m₁ * 2 ^ j % m₂) m₂) ∧
      e₁ - e₂ = t + j ∧ (t ≤ -1074 ∨ m₂.log2 + 53 ≤ m₁.log2 + j) := by
  have hb : Format.binary64.mantissaBits = 53 := rfl
  have hm : Format.binary64.minExponent = -1074 := rfl
  rw [divCore, Format.targetExponent, totalExponent, totalExponent, hb, hm, Nat.shiftLeft_eq]
  refine ⟨_, _, rfl, by omega, by omega⟩

-- The quotient of doubles is the double nearest to their quotient.
theorem toNat_toBits_div (hm : m < infinity) (hn : n < infinity) (pn : 0 < n) :
    (ofPattern false m / ofPattern false n).toBits.toNat =
      min (nearest (units m) (units n)) infinity := by
  have hu : 0 < units n := Nat.pos_of_ne_zero fun h => pn.ne' (eq_zero_of_units h)
  change (pack .binary64 (div .binary64 (ofPattern false m).toModel.unpack
    (ofPattern false n).toModel.unpack)).toNat = _
  rcases Nat.eq_zero_or_pos m with rfl | pm
  case inl =>
    have hz : units 0 = 0 := rfl
    rw [hz, nearest_zero hu, unpack_ofPattern_zero, unpack_ofPattern hn pn]
    exact (Nat.zero_min _).symm
  case inr =>
    rw [unpack_ofPattern hm pm, unpack_ofPattern hn pn]
    have sm := significand_pos pm
    have sn := significand_pos pn
    obtain ⟨t, j, hd, he, ht⟩ := exists_divCore (significand m) (binade m - 1074)
      (significand n) (binade n - 1074)
    have hf := Nat.div_add_mod (significand m * 2 ^ j) (significand n)
    rw [Nat.mul_comm (significand n)] at hf
    rw [div, hd]
    refine toNat_pack_roundWithAccuracy (Nat.mod_lt _ sn) hu ?_ ?_
    case refine_1 =>
      rw [targetExponent_eq]
      rcases ht with ht | ht
      · omega
      · have := le_log2_quotient sm sn ht
        omega
    case refine_2 =>
      obtain ⟨p, hp⟩ : ∃ p, p = (-(t + 1074)).toNat := ⟨_, rfl⟩
      obtain ⟨q, hq⟩ : ∃ q, q = (t + 1074).toNat := ⟨_, rfl⟩
      have hk : binade m + 1074 + p = j + q + binade n := by omega
      have hk : 2 ^ binade m * unitsPerOne * 2 ^ p = 2 ^ j * 2 ^ q * 2 ^ binade n := by
        simp only [unitsPerOne, ← Nat.pow_add, hk]
      rw [← hp, ← hq, hf, units_eq_significand, units_eq_significand]
      calc significand m * 2 ^ binade m * unitsPerOne * (significand n * 2 ^ p)
        _ = significand m * significand n * (2 ^ binade m * unitsPerOne * 2 ^ p) := by ring
        _ = significand m * significand n * (2 ^ j * 2 ^ q * 2 ^ binade n) := by rw [hk]
        _ = significand m * 2 ^ j * 2 ^ q * (significand n * 2 ^ binade n) := by ring

-- A whole number becomes the double nearest to it.
theorem toNat_toBits_toFloat (w : UInt64) :
    w.toFloat.toBits.toNat = min (nearest w.toNat 1) infinity := by
  change (pack .binary64 (normalize .binary64 (w.toNat : ℤ) 0 .positive)).toNat = _
  generalize w.toNat = n
  rcases Nat.eq_zero_or_pos n with rfl | pn
  case inl =>
    rw [nearest_zero (by decide)]
    exact (Nat.zero_min _).symm
  case inr =>
    have hr : normalize .binary64 (n : ℤ) 0 .positive = round .binary64 .positive n 0 := by
      have hc : compare (n : ℤ) 0 = .gt := Int.compare_eq_gt.mpr (by omega)
      unfold UnpackedFloat.normalize
      rw [hc]
      rfl
    obtain ⟨s, hs⟩ : ∃ s, s = (0 - max ((n.log2 : ℤ) + 0 - 52) (-1074)).toNat := ⟨_, rfl⟩
    have hd : round .binary64 .positive n 0 =
        roundWithAccuracy .binary64 .positive (n * 2 ^ s) (-s) .exact := by
      rw [UnpackedFloat.round, targetExponent_eq, decreaseExponent, ← hs, Nat.shiftLeft_eq,
        Int.zero_sub]
    rw [hr, hd]
    refine toNat_pack_exact (by decide) ?_ ?_
    case refine_1 =>
      have hl := log2_fraction (m := n) (d := 1) (r := 0) (by decide) pn.ne' s
      rw [Nat.mul_one, Nat.add_zero, Nat.div_one] at hl
      rw [targetExponent_eq, hl]
      omega
    case refine_2 =>
      have hp : (-(-(s : ℤ) + 1074)).toNat = 0 := by omega
      obtain ⟨q, hq⟩ : ∃ q, q = (-(s : ℤ) + 1074).toNat := ⟨_, rfl⟩
      have hk : 1074 = s + q := by omega
      rw [hp, ← hq, Nat.pow_zero, Nat.mul_one, Nat.mul_one, unitsPerOne, Nat.mul_assoc,
        ← Nat.pow_add, hk]

theorem toNat_toBits_neg (hn : n < infinity) :
    (-ofPattern false n).toBits.toNat = 2 ^ 63 + n := by
  change (pack .binary64 (neg (ofPattern false n).toModel.unpack)).toNat = _
  rcases Nat.eq_zero_or_pos n with rfl | hz
  case inl =>
    rw [unpack_ofPattern_zero]
    rfl
  case inr =>
    rw [unpack_ofPattern hn hz]
    exact toNat_pack_significand .negative hn hz

end Abacus.Binary64
