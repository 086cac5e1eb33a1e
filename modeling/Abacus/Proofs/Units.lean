import Abacus.Binary64
import Mathlib.Algebra.Group.Nat.Defs

namespace Abacus.Binary64

theorem roundHalfEven_mul {b : Nat} (h : 0 < b) (q : Nat) : roundHalfEven (q * b) b = q := by
  simp [roundHalfEven, Nat.mul_div_cancel _ h, h]

theorem units_of_binade_eq_zero {n : Nat} (h : binade n = 0) : units n = n := by
  simp [units, h]

-- In a binade of its own, a pattern has fifty-three significant bits.
theorem significand_bounds {n : Nat} (h : 0 < binade n) :
    2 ^ 52 ≤ n - binade n * 2 ^ 52 ∧ n - binade n * 2 ^ 52 < 2 ^ 53 := by
  unfold binade at *
  omega

theorem significand_lt (n : Nat) : n - binade n * 2 ^ 52 < 2 ^ 53 := by
  unfold binade
  omega

theorem log2_units {n : Nat} (h : 0 < binade n) : (units n).log2 = 52 + binade n := by
  obtain ⟨low, high⟩ := significand_bounds h
  have pos : n - binade n * 2 ^ 52 ≠ 0 := by omega
  refine (Nat.log2_eq_iff ?_).2 ⟨?_, ?_⟩
  · exact Nat.mul_ne_zero pos (Nat.ne_of_gt (Nat.two_pow_pos _))
  · rw [Nat.pow_add]
    exact Nat.mul_le_mul_right _ low
  · rw [Nat.add_right_comm, Nat.pow_add]
    exact Nat.mul_lt_mul_of_pos_right high (Nat.two_pow_pos _)

theorem log2_units_sub (n : Nat) : (units n).log2 - 52 = binade n := by
  rcases Nat.eq_zero_or_pos (binade n) with h | h
  · have small : (units n).log2 < 53 := by
      rw [units_of_binade_eq_zero h]
      rcases Nat.eq_zero_or_pos n with rfl | pos
      · decide
      · exact (Nat.log2_lt (by omega)).2 (by simpa [h] using significand_lt n)
    omega
  · rw [log2_units h]
    omega

theorem unitsPerOne_pos : 0 < unitsPerOne := by
  unfold unitsPerOne
  apply Nat.pow_pos
  decide

theorem nearest_units (n : Nat) : nearest (units n) unitsPerOne = n := by
  have scale : 0 < unitsPerOne * 2 ^ binade n := Nat.mul_pos unitsPerOne_pos (Nat.two_pow_pos _)
  have value : units n * unitsPerOne = (n - binade n * 2 ^ 52) * (unitsPerOne * 2 ^ binade n) := by
    rw [units, Nat.mul_assoc, Nat.mul_comm (2 ^ binade n)]
  have floor : binade n * 2 ^ 52 ≤ n := by
    unfold binade
    omega
  simp only [nearest, Nat.mul_div_cancel _ unitsPerOne_pos, log2_units_sub]
  rw [value, roundHalfEven_mul scale]
  omega

end Abacus.Binary64
