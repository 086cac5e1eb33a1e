import Abacus.Proofs.Rereading
import Mathlib.Algebra.Order.Ring.Pow
import Mathlib.Tactic.FieldSimp
import Mathlib.Tactic.Linarith
import Mathlib.Tactic.Positivity

namespace Abacus

namespace Binary64

variable {a a' b b' i j n : Nat} {p p' q q' : ℚ}

-- What is left of a number that is rounded down as far as possible.
def shrinkage : ℚ :=
  1 - 1 / 2 ^ 53

theorem shrinkage_pos : 0 < shrinkage := by
  norm_num [shrinkage]

theorem shrinkage_pow_pos (i : Nat) : 0 < shrinkage ^ i :=
  pow_pos shrinkage_pos i

theorem le_shrinkage_pow (i : Nat) : 1 - i / 2 ^ 53 ≤ shrinkage ^ i := by
  have h := one_add_mul_le_pow (a := (-(1 / 2 ^ 53) : ℚ)) (by norm_num) i
  have e : (1 : ℚ) + -(1 / 2 ^ 53) = shrinkage := by rw [shrinkage, sub_eq_add_neg]
  rw [e] at h
  linarith

-- Some `i` roundings may lead from one of the positive numbers to the other.
structure Drift (i : Nat) (p q : ℚ) : Prop where
  pos   : 0 < p
  pos'  : 0 < q
  below : shrinkage ^ i * p ≤ q
  above : shrinkage ^ i * q ≤ p

namespace Drift

theorem refl (h : 0 < p) : Drift 0 p p :=
  ⟨h, h, by simp, by simp⟩

theorem symm (h : Drift i p q) : Drift i q p :=
  ⟨h.pos', h.pos, h.above, h.below⟩

theorem trans {r : ℚ} (h : Drift i p q) (h' : Drift j q r) : Drift (i + j) p r where
  pos  := h.pos
  pos' := h'.pos'
  below := by
    rw [pow_add, mul_right_comm]
    calc shrinkage ^ i * p * shrinkage ^ j
      _ ≤ q * shrinkage ^ j := mul_le_mul_of_nonneg_right h.below (shrinkage_pow_pos j).le
      _ ≤ r := mul_comm q _ ▸ h'.below
  above := by
    rw [pow_add, mul_assoc]
    calc shrinkage ^ i * (shrinkage ^ j * r)
      _ ≤ shrinkage ^ i * q := mul_le_mul_of_nonneg_left h'.above (shrinkage_pow_pos i).le
      _ ≤ p := h.above

theorem mul (h : Drift i p q) (h' : Drift j p' q') : Drift (i + j) (p * p') (q * q') where
  pos  := mul_pos h.pos h'.pos
  pos' := mul_pos h.pos' h'.pos'
  below := by
    rw [pow_add, mul_mul_mul_comm]
    exact mul_le_mul h.below h'.below (mul_pos (shrinkage_pow_pos j) h'.pos).le h.pos'.le
  above := by
    rw [pow_add, mul_mul_mul_comm]
    exact mul_le_mul h.above h'.above (mul_pos (shrinkage_pow_pos j) h'.pos').le h.pos.le

theorem inv (h : Drift i p q) : Drift i p⁻¹ q⁻¹ where
  pos  := inv_pos.mpr h.pos
  pos' := inv_pos.mpr h.pos'
  below := by
    rw [← div_eq_mul_inv, div_le_iff₀ h.pos, inv_mul_eq_div, le_div_iff₀ h.pos']
    exact h.above
  above := by
    rw [← div_eq_mul_inv, div_le_iff₀ h.pos', inv_mul_eq_div, le_div_iff₀ h.pos]
    exact h.below

theorem div (h : Drift i p q) (h' : Drift j p' q') : Drift (i + j) (p / p') (q / q') := by
  rw [div_eq_mul_inv, div_eq_mul_inv]
  exact h.mul h'.inv

end Drift

-- The value of a pattern.
def value (n : Nat) : ℚ :=
  units n / unitsPerOne

theorem unitsPerOne_pos' : (0 : ℚ) < unitsPerOne :=
  Nat.cast_pos.mpr unitsPerOne_pos

-- Rounding to a multiple of a step, where the number is many steps.
theorem drift_of_step {s x y : ℚ} (hs : 0 < s) (many : 2 ^ 52 * s ≤ x)
    (above : 2 * x ≤ 2 * y + s) (below : 2 * y ≤ 2 * x + s) : Drift 1 y x := by
  have e : shrinkage ^ 1 = 1 - 1 / 2 ^ 53 := pow_one _
  constructor
  case pos => linarith
  case pos' => linarith
  case below =>
    rw [e]
    linarith
  case above =>
    rw [e]
    linarith

-- Rounding by one part in 2⁵³.
theorem drift_of_part {x y : Nat} (hx : 0 < x) (above : 2 ^ 53 * x ≤ 2 ^ 53 * y + x)
    (below : 2 ^ 53 * y ≤ 2 ^ 53 * x + x) : Drift 1 (y : ℚ) x := by
  have hx : (0 : ℚ) < x := Nat.cast_pos.mpr hx
  have above : (2 ^ 53 * x : ℚ) ≤ 2 ^ 53 * y + x := mod_cast above
  have below : (2 ^ 53 * y : ℚ) ≤ 2 ^ 53 * x + x := mod_cast below
  apply drift_of_step (s := x / 2 ^ 52) <;> linarith

theorem drift_value (hb : 0 < b)
    (h : Drift 1 (units (nearest a b) * b : ℚ) (a * unitsPerOne)) :
    Drift 1 (value (nearest a b)) (a / b) := by
  have h := h.div (.refl (mul_pos (Nat.cast_pos.mpr hb) unitsPerOne_pos'))
  have hb : (b : ℚ) ≠ 0 := Nat.cast_ne_zero.mpr hb.ne'
  rwa [mul_comm (b : ℚ), mul_div_mul_right _ _ hb, mul_comm (unitsPerOne : ℚ),
    mul_div_mul_right _ _ unitsPerOne_pos'.ne'] at h

-- A quotient that is not too small is one rounding away from the nearest double.
theorem drift_nearest (hb : 0 < b) (h : 2 ^ 52 * b ≤ a * unitsPerOne) :
    Drift 1 (value (nearest a b)) (a / b) := by
  obtain ⟨e, he⟩ : ∃ e, e = (a * unitsPerOne / b).log2 - 52 := ⟨_, rfl⟩
  have hr := isRounded hb he
  have many : 2 ^ 52 * (2 ^ e * b) ≤ a * unitsPerOne := by
    rcases Nat.eq_zero_or_pos e with hz | hp
    case inl => rwa [hz, Nat.pow_zero, Nat.one_mul]
    case inr =>
      rw [← Nat.mul_assoc]
      exact hr.bottom hp
  have hu : units (nearest a b) = roundHalfEven (a * unitsPerOne) (b * 2 ^ e) * 2 ^ e := by
    rw [nearest, ← he, hr.units_eq]
  have above := hr.above
  have below := hr.below
  have step : 0 < 2 ^ e * b := Nat.mul_pos (Nat.two_pow_pos e) hb
  rw [← hu] at above below
  exact drift_value hb (drift_of_step (s := 2 ^ e * b) (mod_cast step) (mod_cast many)
    (mod_cast above) (mod_cast below))

theorem binade_mono {m n : Nat} (h : m ≤ n) : binade m ≤ binade n :=
  Nat.sub_le_sub_right (Nat.div_le_div_right h) 1

theorem units_add_le {m n : Nat} (h : m ≤ n) (k : Nat) :
    units n + k * 2 ^ binade m ≤ units (n + k) := by
  induction k
  case zero => simp
  case succ k ih =>
    have hb : 2 ^ binade m ≤ 2 ^ binade (n + k) :=
      Nat.pow_le_pow_right (by decide) (binade_mono (by omega))
    rw [← Nat.add_assoc, units_succ, Nat.succ_mul]
    omega

-- The middle between a pattern and the next one.
def middle (n : Nat) : ℚ :=
  (units n + units (n + 1)) / (2 * unitsPerOne)

-- How far the next pattern is.
def step (n : Nat) : ℚ :=
  2 ^ binade n / unitsPerOne

theorem step_pos (n : Nat) : 0 < step n :=
  div_pos (by positivity) unitsPerOne_pos'

theorem two_mul_unitsPerOne_pos : (0 : ℚ) < 2 * unitsPerOne :=
  mul_pos two_pos unitsPerOne_pos'

theorem middle_add_le (n k : Nat) : middle n + k * step n ≤ middle (n + k) := by
  have h : (units n + k * 2 ^ binade n : ℚ) ≤ units (n + k) := mod_cast units_add_le le_rfl k
  have h' : (units (n + 1) + k * 2 ^ binade n : ℚ) ≤ units (n + 1 + k) :=
    mod_cast units_add_le (Nat.le_succ n) k
  rw [Nat.add_right_comm] at h'
  have hU := unitsPerOne_pos'
  rw [middle, middle, step, le_div_iff₀ two_mul_unitsPerOne_pos]
  field_simp
  linarith

theorem middle_le_step (n : Nat) : middle n ≤ 2 ^ 53 * step n := by
  have h : (units n : ℚ) ≤ 2 ^ 53 * 2 ^ binade n := mod_cast (units_lt n).le
  have h' : (units (n + 1) : ℚ) ≤ 2 ^ 53 * 2 ^ binade n := mod_cast units_succ_le n
  have hU := unitsPerOne_pos'
  rw [middle, step, div_le_iff₀ two_mul_unitsPerOne_pos]
  field_simp
  linarith

theorem quotient_le_middle (hb : 0 < b) (a : Nat) : (a / b : ℚ) ≤ middle (nearest a b) := by
  have h : (2 * (a * unitsPerOne) : ℚ) ≤ (units (nearest a b) + units (nearest a b + 1)) * b :=
    mod_cast le_middle hb (a := a) rfl
  rw [middle, div_le_div_iff₀ (Nat.cast_pos.mpr hb) two_mul_unitsPerOne_pos]
  linarith

theorem middle_le_quotient (hb : 0 < b) (h : n < nearest a b) : middle n ≤ a / b := by
  obtain ⟨k, hk⟩ : ∃ k, k + 1 = nearest a b := ⟨nearest a b - 1, by omega⟩
  have hm := (Nat.mul_le_mul_right b (middle_mono (m := n) (n := k) (by omega))).trans
    (middle_le hb hk)
  have hm : ((units n + units (n + 1)) * b : ℚ) ≤ 2 * (a * unitsPerOne) := mod_cast hm
  rw [middle, div_le_div_iff₀ two_mul_unitsPerOne_pos (Nat.cast_pos.mpr hb)]
  linarith

-- Numbers that few roundings lead to are near each other among the doubles.
theorem nearest_le_of_drift (hb : 0 < b) (hb' : 0 < b') (hi : i * (i + 1) < 2 ^ 53)
    (h : Drift i (a / b : ℚ) (a' / b')) : nearest a b ≤ nearest a' b' + (i + 1) := by
  by_contra hn
  rw [not_le] at hn
  have low := (middle_add_le _ _).trans (middle_le_quotient hb hn)
  have high := quotient_le_middle hb' a'
  have hs := step_pos (nearest a' b')
  have hm := middle_le_step (nearest a' b')
  generalize middle (nearest a' b') = m at low high hm
  generalize step (nearest a' b') = s at low hs hm
  have hw : (1 - i / 2 ^ 53) * (a / b : ℚ) ≤ a' / b' :=
    (mul_le_mul_of_nonneg_right (le_shrinkage_pow i) h.pos.le).trans h.below
  -- A step is more than the roundings take away.
  have hi : (i * (i + 1) : ℚ) < 2 ^ 53 := mod_cast hi
  have hle : (i : ℚ) / 2 ^ 53 ≤ 1 := by
    rw [div_le_one (by positivity)]
    nlinarith [sq_nonneg (i : ℚ)]
  have hq : (1 - i / 2 ^ 53 : ℚ) * (m + (i + 1 : ℕ) * s) ≤ m :=
    ((mul_le_mul_of_nonneg_left low (sub_nonneg.mpr hle)).trans hw).trans high
  have taken : (i / 2 ^ 53 : ℚ) * m ≤ i * s := by
    calc (i / 2 ^ 53 : ℚ) * m
      _ ≤ i / 2 ^ 53 * (2 ^ 53 * s) := mul_le_mul_of_nonneg_left hm (by positivity)
      _ = i * s := by ring
  have taken' : (i / 2 ^ 53 : ℚ) * ((i + 1) * s) < s := by
    calc (i / 2 ^ 53 : ℚ) * ((i + 1) * s)
      _ = i * (i + 1) / 2 ^ 53 * s := by ring
      _ < 1 * s := mul_lt_mul_of_pos_right ((div_lt_one (by positivity)).mpr hi) hs
      _ = s := one_mul s
  push_cast at hq
  linarith

-- Patterns that are five doubles apart at most.
structure IsNear (m n : Nat) : Prop where
  below : m ≤ n + 5
  above : n ≤ m + 5

theorem isNear_of_drift (hb : 0 < b) (hb' : 0 < b') (hi : i ≤ 4)
    (h : Drift i (a / b : ℚ) (a' / b')) : IsNear (nearest a b) (nearest a' b') := by
  have hm : i * (i + 1) ≤ 4 * 5 := Nat.mul_le_mul hi (Nat.succ_le_succ hi)
  have hlt : i * (i + 1) < 2 ^ 53 := hm.trans_lt (by decide)
  constructor
  case below => exact (nearest_le_of_drift hb hb' hlt h).trans (by omega)
  case above => exact (nearest_le_of_drift hb' hb hlt h.symm).trans (by omega)

theorem unitsPerOne_large : 2 ^ 52 ≤ unitsPerOne := by
  unfold unitsPerOne
  apply Nat.pow_le_pow_right <;> decide

theorem drift_nearest_one {c : Nat} (hc : 0 < c) : Drift 1 (value (nearest c 1)) c := by
  have h := drift_nearest (a := c) (b := 1) Nat.one_pos
    (unitsPerOne_large.trans (Nat.le_mul_of_pos_left _ hc))
  rwa [Nat.cast_one, div_one] at h

end Binary64

namespace Decimal

open Binary64

variable {d : Decimal} {c i k n : Nat} {q : ℚ} {x : Float}

theorem nearest_pos (hc : 0 < c) : 0 < nearest c 1 :=
  (nearest_ten_pow_pos 0).trans_le
    (nearest_mono (by decide) (by decide) (Nat.mul_le_mul_right 1 hc))

-- Division by a power of ten adds the rounding of that power to those before.
theorem drift_div_ten_pow (h : Drift i (value n) q) (k : Nat) :
    Drift (i + 1) (units n / units (nearest (10 ^ k) 1) : ℚ) (q / 10 ^ k) := by
  have hd := h.div (drift_nearest_one (ten_pow_pos k))
  rw [value, value, div_div_div_cancel_right₀ unitsPerOne_pos'.ne'] at hd
  exact_mod_cast hd

-- The first step of division by a greater power of ten: for one and two the quotient is small, but
-- exact enough.
theorem quotient_topPower_of_lt : ∀ c < 3, 0 < c →
    let x := units (nearest c 1) * unitsPerOne
    let y := units (quotient (nearest c 1) topPower) * units (nearest (10 ^ topPower) 1)
    2 ^ 53 * x ≤ 2 ^ 53 * y + x ∧ 2 ^ 53 * y ≤ 2 ^ 53 * x + x := by
  decide +kernel

theorem drift_quotient_topPower (hc : 0 < c) :
    Drift 1 (value (quotient (nearest c 1) topPower))
      (units (nearest c 1) / units (nearest (10 ^ topPower) 1) : ℚ) := by
  have hp : 0 < units (nearest (10 ^ topPower) 1) := units_strictMono (nearest_ten_pow_pos _)
  by_cases hs : c < 3
  case pos =>
    have ⟨above, below⟩ := quotient_topPower_of_lt c hs hc
    have hx : 0 < units (nearest c 1) * unitsPerOne :=
      Nat.mul_pos (units_strictMono (nearest_pos hc)) unitsPerOne_pos
    exact drift_value hp (mod_cast drift_of_part hx above below)
  case neg =>
    refine drift_nearest hp ?_
    have h : 2 ^ 52 * units (nearest (10 ^ topPower) 1) ≤ units (nearest 3 1) * unitsPerOne := by
      decide +kernel
    have hm : nearest 3 1 ≤ nearest c 1 :=
      nearest_mono (by decide) (by decide) (Nat.mul_le_mul_right 1 (Nat.not_lt.mp hs))
    exact h.trans (Nat.mul_le_mul_right _ (units_strictMono.monotone hm))

theorem drift_quotient_quotient (hc : 0 < c) (k : Nat) :
    Drift 4 (units (quotient (nearest c 1) topPower) / units (nearest (10 ^ k) 1) : ℚ)
      (c / 10 ^ (topPower + k)) := by
  have h := drift_div_ten_pow (drift_nearest_one hc) topPower
  rw [pow_add, ← div_div]
  exact drift_div_ten_pow ((drift_quotient_topPower hc).trans h) k

theorem exponent_bound (hc : d.coefficient < 2 ^ 64) (h : d.nearest? = some n) (hz : 0 < n) :
    0 < d.coefficient ∧ -346 < d.exponent := by
  have hs : ¬(d.coefficient = 0 ∨ d.exponent + d.width ≤ -324) := by
    intro hs
    rw [nearest?, if_pos hs] at h
    cases h
    contradiction
  have hl : d.coefficient.log2 < 64 := (Nat.log2_lt (by omega)).mpr hc
  unfold width at hs
  omega

theorem isNear_scaleDown (hc : 0 < c) (hlt : nearest c 1 < infinity) (hk : k < 346) :
    ∃ m < infinity, scaleDown (ofPattern false (nearest c 1)) k = ofPattern false m ∧
      IsNear m (nearest c (10 ^ k)) := by
  rw [scaleDown]
  split_ifs with ht hz
  case pos =>
    have h := drift_div_ten_pow (drift_nearest_one hc) k
    refine ⟨_, (quotient_le _ k).trans_lt hlt, div_powerOfTen hlt ht, ?_⟩
    refine isNear_of_drift (units_strictMono (nearest_ten_pow_pos k)) (ten_pow_pos k)
      (i := 2) (by decide) ?_
    exact_mod_cast h
  case pos => exact absurd hz (ofPattern_ne_zero hlt (nearest_pos hc))
  case neg =>
    obtain ⟨j, rfl⟩ : ∃ j, k = topPower + j := ⟨k - topPower, by omega⟩
    have hj : j ≤ topPower := by
      unfold topPower at *
      omega
    have hq := (quotient_le (nearest c 1) topPower).trans_lt hlt
    rw [div_powerOfTen hlt le_rfl, Nat.add_sub_cancel_left, scaleDown, if_pos hj,
      div_powerOfTen hq hj]
    refine ⟨_, (quotient_le _ j).trans_lt hq, rfl, ?_⟩
    refine isNear_of_drift (units_strictMono (nearest_ten_pow_pos j)) (ten_pow_pos _)
      le_rfl ?_
    have h := drift_quotient_quotient hc j
    exact_mod_cast h

theorem isNear_scaleUp? (hc : 0 < c) (hlt : nearest c 1 < infinity)
    (h : scaleUp? (ofPattern false (nearest c 1)) k = some x) :
    ∃ m < infinity, x = ofPattern false m ∧ IsNear m (nearest (c * 10 ^ k) 1) := by
  rw [scaleUp?] at h
  dsimp only at h
  split_ifs at h with hk hf hz
  case pos =>
    have hp := toNat_toBits_mul_powerOfTen hlt hk
    have hn := (isFinite_iff_of_min hp).mp hf
    refine ⟨_, hn, (Option.some.inj h).symm.trans (eq_ofPattern_of_min hp hn), ?_⟩
    have hw := (drift_nearest_one hc).mul (drift_nearest_one (ten_pow_pos k))
    rw [value, value, div_mul_div_comm] at hw
    refine isNear_of_drift (Nat.mul_pos unitsPerOne_pos unitsPerOne_pos) Nat.one_pos
      (i := 2) (by decide) ?_
    rw [Nat.cast_one, div_one]
    exact_mod_cast hw
  case pos => exact absurd hz (ofPattern_ne_zero hlt (nearest_pos hc))

-- What is read by scaling is near the nearest double.
theorem isNear_scaled? (hc : d.coefficient < 2 ^ 64) (h : d.nearest? = some n) (hz : 0 < n)
    (hs : scaled? d = some x) : ∃ m < infinity, x = ofPattern false m ∧ IsNear m n := by
  obtain ⟨hp, hk⟩ := exponent_bound hc h hz
  obtain ⟨hlt, hw⟩ := toFloat_toUInt64 hc
  rw [nearest?_eq] at h
  dsimp only at h
  split_ifs at h with hn
  cases h
  rw [scaled?, hw] at hs
  split_ifs at hs with he
  case pos =>
    have hd : d.exponent.toNat = 0 := by omega
    obtain ⟨m, hm, e, h⟩ := isNear_scaleDown (k := (-d.exponent).toNat) hp hlt (by omega)
    rw [hd, Nat.pow_zero, Nat.mul_one]
    exact ⟨m, hm, (Option.some.inj hs).symm.trans e, h⟩
  case neg =>
    have hd : (-d.exponent).toNat = 0 := by omega
    rw [hd, Nat.pow_zero]
    exact isNear_scaleUp? hp hlt hs

end Decimal

open Json.Number Binary64

variable {x : Float}

-- What is known of the double `y` that comes back for `x`.
structure ComesBackAs (x y : Float) : Prop where
  finite : y.isFinite
  sign   : isNegative y = isNegative x
  near   : IsNear (pattern y) (pattern x)
  short  : IsShort x → y = x

theorem isShort_of_pattern_eq_zero (h : pattern x = 0) : IsShort x := by
  rw [IsShort, decimal_ofDouble_zero h]
  decide

theorem near_reread (hx : x.isFinite) :
    isNegative (reread x) = isNegative x ∧ IsNear (pattern (reread x)) (pattern x) := by
  rcases Nat.eq_zero_or_pos (pattern x) with hz | hz
  case inl =>
    rw [reread_of_isShort hx (isShort_of_pattern_eq_zero hz)]
    exact ⟨rfl, Nat.le_add_right .., Nat.le_add_right ..⟩
  case inr =>
    have hc := coefficient_ofDouble_lt hx
    have ⟨y, hy⟩ := exists_scaled?_ofDouble hx
    have ⟨m, hm, e, near⟩ := Decimal.isNear_scaled? hc (nearest?_decimal_ofDouble hx) hz hy
    have h := toDouble?_ofDouble hx
    rw [toDouble?_eq hc, hy, Option.map_some, negative_ofDouble, e] at h
    rw [← Option.some.inj h]
    split_ifs with hn
    case pos =>
      rw [pattern_neg_ofPattern hm]
      exact ⟨(isNegative_neg_ofPattern hm).trans hn.symm, near⟩
    case neg =>
      rw [pattern_ofPattern hm]
      exact ⟨Bool.eq_iff_iff.mpr (iff_of_false (not_isNegative_ofPattern hm) hn), near⟩

-- Four roundings at most are on the way.
theorem comesBackAs_reread (hx : x.isFinite) : ComesBackAs x (reread x) where
  finite := isFinite_reread hx
  sign   := (near_reread hx).left
  near   := (near_reread hx).right
  short  := reread_of_isShort hx

end Abacus
