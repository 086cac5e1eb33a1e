import Abacus.Decimal
import Abacus.Proofs.Units
import Mathlib.Tactic.Linarith
import Mathlib.Tactic.Ring

namespace Abacus.Binary64

-- The middle between the largest double and the power of two behind it. It rounds to the even one
-- of the two, which is no double.
def overflow : Nat :=
  2 ^ 1024 - 2 ^ 970

theorem overflow_mul_unitsPerOne : overflow * unitsPerOne = (2 ^ 54 - 1) * 2 ^ 2044 := by
  decide +kernel

theorem roundHalfEven_lt_iff {a b m : Nat} (hb : 0 < b) (hm : m % 2 = 0) :
    roundHalfEven a b < m ↔ 2 * a + b < 2 * (m * b) := by
  have ha : a = b * (a / b) + a % b := (Nat.div_add_mod a b).symm
  have hr : a % b < b := Nat.mod_lt a hb
  dsimp only [roundHalfEven]
  generalize a / b = q at *
  generalize a % b = r at *
  subst ha
  -- The quotient is below `m` by at least one, or by at least two, or not below it.
  rcases Nat.lt_trichotomy (q + 1) m with h | h | h
  case inl =>
    have h₁ : (q + 2) * b ≤ m * b := Nat.mul_le_mul_right b h
    have h₂ : 2 * (b * q + r) + b < 2 * ((q + 2) * b) := by nlinarith
    split_ifs <;> omega
  case inr.inl =>
    subst h
    have h₁ : (q + 1) * b = b * q + b := by ring
    rw [h₁]
    split_ifs <;> omega
  case inr.inr =>
    have h₁ : m * b ≤ q * b := Nat.mul_le_mul_right b (by omega)
    have h₂ : q * b = b * q := Nat.mul_comm q b
    split_ifs <;> omega

theorem roundHalfEven_le (a b : Nat) : roundHalfEven a b ≤ a / b + 1 := by
  dsimp only [roundHalfEven]
  split_ifs <;> omega

theorem le_roundHalfEven (a b : Nat) : a / b ≤ roundHalfEven a b := by
  dsimp only [roundHalfEven]
  split_ifs <;> omega

-- The nearest pattern to `x / b`, if `x` counts smallest steps and `e` is its binade. The bound is
-- the first pattern behind binade `k + 1`, and `2 ^ k` is half a step in that binade.
theorem binade_add_roundHalfEven_lt_iff {x b e : Nat} (hb : 0 < b) (he : e = (x / b).log2 - 52)
    (k : Nat) :
    e * 2 ^ 52 + roundHalfEven x (b * 2 ^ e) < (k + 3) * 2 ^ 52 ↔
      x < (2 ^ 54 - 1) * 2 ^ k * b := by
  have hx : x < (x / b + 1) * b := by
    rw [Nat.mul_comm]
    exact Nat.lt_mul_div_succ x hb
  have hx' : x / b * b ≤ x := Nat.div_mul_le_self x b
  have hd : x / (b * 2 ^ e) = x / b / 2 ^ e := (Nat.div_div_eq_div_mul ..).symm
  generalize x / b = q at *
  rcases Nat.lt_trichotomy e (k + 1) with h | h | h
  case inl =>
    have hq : q < 2 ^ (53 + e) := by
      apply Nat.lt_log2_self.trans_le
      exact Nat.pow_le_pow_right Nat.zero_lt_two (by omega)
    have hn : q / 2 ^ e < 2 ^ 53 := by
      rwa [Nat.div_lt_iff_lt_mul (Nat.two_pow_pos _), ← Nat.pow_add]
    have hr := roundHalfEven_le x (b * 2 ^ e)
    rw [hd] at hr
    have ht : q + 1 ≤ (2 ^ 54 - 1) * 2 ^ k :=
      calc q + 1
        _ ≤ 2 ^ (53 + e) := hq
        _ ≤ 2 ^ (53 + k) := Nat.pow_le_pow_right Nat.zero_lt_two (by omega)
        _ = 2 ^ 53 * 2 ^ k := Nat.pow_add ..
        _ ≤ (2 ^ 54 - 1) * 2 ^ k := Nat.mul_le_mul_right _ (by decide)
    exact iff_of_true (by omega) (hx.trans_le (Nat.mul_le_mul_right b ht))
  case inr.inl =>
    -- Here the rounding itself decides.
    have hp : b * 2 ^ e = 2 * (2 ^ k * b) := by
      rw [h, Nat.pow_succ]
      ring
    have hr := roundHalfEven_lt_iff (a := x) (b := b * 2 ^ e) (m := 2 ^ 53)
      (Nat.mul_pos hb (Nat.two_pow_pos _)) (by decide)
    rw [Nat.mul_assoc, hp] at *
    generalize 2 ^ k * b = c at *
    omega
  case inr.inr =>
    have hq : 2 ^ (52 + e) ≤ q := by
      have hl : 52 + e = q.log2 := by omega
      rw [hl]
      apply Nat.log2_self_le
      rintro rfl
      simp at he
      omega
    have hn : 2 ^ 52 ≤ q / 2 ^ e := by
      rwa [Nat.le_div_iff_mul_le (Nat.two_pow_pos _), ← Nat.pow_add]
    have hr := le_roundHalfEven x (b * 2 ^ e)
    rw [hd] at hr
    have ht : (2 ^ 54 - 1) * 2 ^ k ≤ q :=
      calc (2 ^ 54 - 1) * 2 ^ k
        _ ≤ 2 ^ 54 * 2 ^ k := Nat.mul_le_mul_right _ (Nat.sub_le _ _)
        _ = 2 ^ (54 + k) := (Nat.pow_add ..).symm
        _ ≤ 2 ^ (52 + e) := Nat.pow_le_pow_right Nat.zero_lt_two (by omega)
        _ ≤ q := hq
    exact iff_of_false (by omega) (Nat.not_lt.mpr ((Nat.mul_le_mul_right b ht).trans hx'))

theorem nearest_lt_infinity_iff {a b : Nat} (hb : 0 < b) :
    nearest a b < infinity ↔ a < overflow * b := by
  calc nearest a b < infinity
    _ ↔ a * unitsPerOne < (2 ^ 54 - 1) * 2 ^ 2044 * b :=
      binade_add_roundHalfEven_lt_iff hb rfl 2044
    _ ↔ a * unitsPerOne < overflow * b * unitsPerOne := by
      rw [← overflow_mul_unitsPerOne, Nat.mul_right_comm]
    _ ↔ a < overflow * b := Nat.mul_lt_mul_right unitsPerOne_pos

theorem overflow_pos : 0 < overflow := by
  unfold overflow
  apply Nat.sub_pos_of_lt
  apply Nat.pow_lt_pow_right <;> decide

end Abacus.Binary64

namespace Abacus.Decimal

open Binary64

theorem nearest?_isSome_iff (d : Decimal) :
    d.nearest?.isSome ↔
      d.coefficient * 10 ^ d.exponent.toNat < overflow * 10 ^ (-d.exponent).toNat := by
  have hp (k : Nat) : 0 < 10 ^ k := Nat.pow_pos (by decide)
  unfold nearest?
  split_ifs with small large
  case pos =>
    refine iff_of_true rfl ?_
    cases small
    case inl h =>
      rw [h, Nat.zero_mul]
      exact Nat.mul_pos overflow_pos (hp _)
    case inr h =>
      have he : d.exponent.toNat = 0 := by omega
      calc d.coefficient * 10 ^ d.exponent.toNat
        _ = d.coefficient := by rw [he, Nat.pow_zero, Nat.mul_one]
        _ < 10 ^ d.width := d.coefficient_lt
        _ ≤ 10 ^ (-d.exponent).toNat := Nat.pow_le_pow_right (by decide) (by omega)
        _ ≤ overflow * 10 ^ (-d.exponent).toNat := Nat.le_mul_of_pos_left _ overflow_pos
  case pos =>
    refine iff_of_false (by simp) (Nat.not_lt.mpr ?_)
    have he : (-d.exponent).toNat = 0 := by omega
    calc overflow * 10 ^ (-d.exponent).toNat
      _ = overflow := by rw [he, Nat.pow_zero, Nat.mul_one]
      _ ≤ 10 ^ 309 := by decide +kernel
      _ ≤ 10 ^ d.exponent.toNat := Nat.pow_le_pow_right (by decide) (by omega)
      _ ≤ d.coefficient * 10 ^ d.exponent.toNat := Nat.le_mul_of_pos_left _ (by omega)
  case neg =>
    rw [← nearest_lt_infinity_iff (hp _)]
    dsimp only
    split_ifs with finite <;> simp [finite]

end Abacus.Decimal
