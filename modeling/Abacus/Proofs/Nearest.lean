import Abacus.Proofs.Double
import Abacus.Proofs.Range

namespace Abacus.Binary64

variable {a a' b b' m n x e : Nat}

-- From one pattern to the next the value grows by a step of its binade.
theorem units_succ (n : Nat) : units (n + 1) = units n + 2 ^ binade n := by
  have floor : binade n * 2 ^ 52 ≤ n := by
    unfold binade
    omega
  by_cases h : binade (n + 1) = binade n
  case pos =>
    rw [units, h, Nat.sub_add_comm floor, Nat.add_mul, Nat.one_mul]
    rfl
  case neg =>
    -- The next pattern is the first one of its binade.
    have hs : binade (n + 1) = binade n + 1 := by
      unfold binade at *
      omega
    have hn : n + 1 - (binade n + 1) * 2 ^ 52 = 2 ^ 52 ∧ n - binade n * 2 ^ 52 + 1 = 2 ^ 53 := by
      unfold binade at *
      omega
    have hu : units n + 2 ^ binade n = (n - binade n * 2 ^ 52 + 1) * 2 ^ binade n := by
      rw [Nat.add_mul, Nat.one_mul]
      rfl
    rw [hu, hn.right, units, hs, hn.left, ← Nat.pow_add, ← Nat.pow_add]
    congr 1
    omega

theorem units_strictMono : StrictMono units :=
  strictMono_nat_of_lt_succ fun n => by
    rw [units_succ]
    exact Nat.lt_add_of_pos_right (Nat.two_pow_pos _)

-- Rounding moves a quotient by half a step at most.
theorem roundHalfEven_bounds (hb : 0 < b) (a : Nat) :
    2 * a ≤ 2 * (roundHalfEven a b * b) + b ∧ 2 * (roundHalfEven a b * b) ≤ 2 * a + b := by
  have ha : b * (a / b) + a % b = a := Nat.div_add_mod a b
  have hr : a % b < b := Nat.mod_lt a hb
  have h₀ : a / b * b = b * (a / b) := Nat.mul_comm ..
  have h₁ : (a / b + 1) * b = b * (a / b) + b := by rw [Nat.succ_mul, h₀]
  dsimp only [roundHalfEven]
  split_ifs
  case pos => omega
  case pos => omega
  case neg =>
    rcases Nat.mod_two_eq_zero_or_one (a / b) with h | h <;> rw [h]
    · rw [Nat.add_zero]
      omega
    · omega

-- The quotient `x / b` rounded to a whole number `r` of the steps in its binade `e`.
structure IsRounded (x b e r : Nat) : Prop where
  -- Behind the first binade there are fifty-three bits.
  bottom : 0 < e → 2 ^ 52 * 2 ^ e * b ≤ x
  floor  : 0 < e → 2 ^ 52 ≤ r
  ceil   : r ≤ 2 ^ 53
  above  : 2 * x ≤ 2 * (r * 2 ^ e * b) + 2 ^ e * b
  below  : 2 * (r * 2 ^ e * b) ≤ 2 * x + 2 ^ e * b

theorem isRounded (hb : 0 < b) (he : e = (x / b).log2 - 52) :
    IsRounded x b e (roundHalfEven x (b * 2 ^ e)) := by
  have hp : 0 < b * 2 ^ e := Nat.mul_pos hb (Nat.two_pow_pos _)
  have hd : x / (b * 2 ^ e) = x / b / 2 ^ e := (Nat.div_div_eq_div_mul ..).symm
  have bits (h : 0 < e) : 2 ^ (52 + e) ≤ x / b := by
    have hl : 52 + e = (x / b).log2 := by omega
    rw [hl]
    apply Nat.log2_self_le
    intro hz
    rw [hz] at he
    simp at he
    omega
  have ⟨above, below⟩ := roundHalfEven_bounds hp x
  constructor
  case bottom =>
    intro h
    rw [← Nat.pow_add]
    exact (Nat.mul_le_mul_right b (bits h)).trans (Nat.div_mul_le_self x b)
  case floor =>
    intro h
    refine le_trans ?_ (le_roundHalfEven ..)
    rw [hd, Nat.le_div_iff_mul_le (Nat.two_pow_pos _), ← Nat.pow_add]
    exact bits h
  case ceil =>
    have hq : x / b < 2 ^ (53 + e) := by
      apply Nat.lt_log2_self.trans_le
      exact Nat.pow_le_pow_right Nat.zero_lt_two (by omega)
    have hn : x / b / 2 ^ e < 2 ^ 53 := by
      rwa [Nat.div_lt_iff_lt_mul (Nat.two_pow_pos _), ← Nat.pow_add]
    have hr := roundHalfEven_le x (b * 2 ^ e)
    rw [hd] at hr
    omega
  case above => rwa [Nat.mul_assoc, Nat.mul_comm (2 ^ e)]
  case below => rwa [Nat.mul_assoc, Nat.mul_comm (2 ^ e)]

namespace IsRounded

variable {r : Nat}

theorem units_eq (h : IsRounded x b e r) : units (e * 2 ^ 52 + r) = r * 2 ^ e := by
  have floor := h.floor
  have ceil := h.ceil
  by_cases hr : r = 2 ^ 53
  case pos =>
    -- Rounding has gone up to the next binade.
    subst hr
    have hb : binade (e * 2 ^ 52 + 2 ^ 53) = e + 1 := by
      unfold binade
      omega
    have hs : e * 2 ^ 52 + 2 ^ 53 - (e + 1) * 2 ^ 52 = 2 ^ 52 := by omega
    rw [units, hb, hs, ← Nat.pow_add, ← Nat.pow_add]
    congr 1
    omega
  case neg =>
    have hb : binade (e * 2 ^ 52 + r) = e := by
      unfold binade
      omega
    rw [units, hb, Nat.add_sub_cancel_left]

theorem binade_le (h : IsRounded x b e r) : e ≤ binade (e * 2 ^ 52 + r) := by
  have floor := h.floor
  unfold binade
  omega

-- At the bottom of a binade the step below is half as large, but there is nothing to round up.
theorem middle_le (h : IsRounded x b e r) (hn : n + 1 = e * 2 ^ 52 + r) :
    (units n + units (n + 1)) * b ≤ 2 * x := by
  have hu := h.units_eq
  have hs := units_succ n
  rw [← hn] at hu
  have floor := h.floor
  have ceil := h.ceil
  by_cases hb : e ≤ binade n
  case pos =>
    have hp : 2 ^ e ≤ 2 ^ binade n := Nat.pow_le_pow_right (by decide) hb
    have hm : (units n + 2 ^ e) * b ≤ units (n + 1) * b := Nat.mul_le_mul_right b (by omega)
    have below := h.below
    rw [← hu] at below
    rw [Nat.add_mul] at hm ⊢
    omega
  case neg =>
    have hr : r = 2 ^ 52 := by
      unfold binade at hb
      omega
    have bottom := h.bottom (by omega)
    rw [← hr, ← hu] at bottom
    have hm : units n * b ≤ units (n + 1) * b :=
      Nat.mul_le_mul_right b (hs ▸ Nat.le_add_right ..)
    rw [Nat.add_mul]
    omega

theorem le_middle (h : IsRounded x b e r) (hn : n = e * 2 ^ 52 + r) :
    2 * x ≤ (units n + units (n + 1)) * b := by
  have hu := h.units_eq
  have hb := h.binade_le
  rw [← hn] at hu hb
  have hp : 2 ^ e ≤ 2 ^ binade n := Nat.pow_le_pow_right (by decide) hb
  have hm : (units n + 2 ^ e) * b ≤ units (n + 1) * b :=
    Nat.mul_le_mul_right b (by rw [units_succ]; omega)
  have above := h.above
  rw [← hu] at above
  rw [Nat.add_mul] at hm ⊢
  omega

end IsRounded

-- The middles between the pattern nearest to a quotient and its neighbours enclose the quotient.
theorem middle_le (hb : 0 < b) (h : n + 1 = nearest a b) :
    (units n + units (n + 1)) * b ≤ 2 * (a * unitsPerOne) :=
  (isRounded hb rfl).middle_le h

theorem le_middle (hb : 0 < b) (h : n = nearest a b) :
    2 * (a * unitsPerOne) ≤ (units n + units (n + 1)) * b :=
  (isRounded hb rfl).le_middle h

-- Middles between neighbours grow with the patterns.
theorem middle_mono (h : m ≤ n) : units m + units (m + 1) ≤ units n + units (n + 1) :=
  Nat.add_le_add (units_strictMono.monotone h) (units_strictMono.monotone (Nat.succ_le_succ h))

-- A quotient below the middle between two patterns does not round to the upper one or beyond.
theorem nearest_le (hb : 0 < b) (h : 2 * (a * unitsPerOne) < (units n + units (n + 1)) * b) :
    nearest a b ≤ n := by
  by_contra hn
  obtain ⟨k, hk⟩ : ∃ k, k + 1 = nearest a b := ⟨nearest a b - 1, by omega⟩
  have hm := Nat.mul_le_mul_right b (middle_mono (m := n) (n := k) (by omega))
  have := middle_le hb hk
  omega

theorem le_nearest (hb : 0 < b) (h : (units n + units (n + 1)) * b < 2 * (a * unitsPerOne)) :
    n + 1 ≤ nearest a b := by
  by_contra hn
  have hm := Nat.mul_le_mul_right b (middle_mono (m := nearest a b) (n := n) (by omega))
  have := le_middle hb (n := nearest a b) (a := a) rfl
  omega

theorem nearest_zero (hb : 0 < b) : nearest 0 b = 0 := by
  have h : 0 * unitsPerOne = 0 * b := by rw [Nat.zero_mul, Nat.zero_mul]
  rw [nearest_congr hb unitsPerOne_pos h]
  exact nearest_units 0

theorem nearest_mono (hb : 0 < b) (hb' : 0 < b') (h : a * b' ≤ a' * b) :
    nearest a b ≤ nearest a' b' := by
  by_contra hn
  -- Both quotients would have to be in the middle between the two patterns.
  obtain ⟨k, hk⟩ : ∃ k, k + 1 = nearest a b := ⟨nearest a b - 1, by omega⟩
  have hm := middle_mono (m := nearest a' b') (n := k) (by omega)
  have low := middle_le hb hk
  have high := le_middle hb' (n := nearest a' b') (a := a') rfl
  have e : 2 * unitsPerOne * (a' * b) ≤ 2 * unitsPerOne * (a * b') := by
    calc 2 * unitsPerOne * (a' * b)
      _ = 2 * (a' * unitsPerOne) * b := by ring
      _ ≤ (units k + units (k + 1)) * b' * b :=
        Nat.mul_le_mul_right b (high.trans (Nat.mul_le_mul_right b' hm))
      _ = (units k + units (k + 1)) * b * b' := Nat.mul_right_comm ..
      _ ≤ 2 * (a * unitsPerOne) * b' := Nat.mul_le_mul_right b' low
      _ = 2 * unitsPerOne * (a * b') := by ring
  have e := Nat.le_of_mul_le_mul_left e (Nat.mul_pos Nat.zero_lt_two unitsPerOne_pos)
  exact hn (nearest_congr hb hb' (h.antisymm e)).le

theorem units_lt (n : Nat) : units n < 2 ^ 53 * 2 ^ binade n :=
  Nat.mul_lt_mul_of_pos_right (significand_lt n) (Nat.two_pow_pos _)

theorem units_succ_le (n : Nat) : units (n + 1) ≤ 2 ^ 53 * 2 ^ binade n := by
  rw [units_succ, units, ← Nat.succ_mul]
  exact Nat.mul_le_mul_right _ (significand_lt n)

-- A quotient that differs from the value of a pattern by less than its 2⁵⁴th part rounds to it.
theorem nearest_eq_of_close (hb : 0 < b) (hn : 0 < n)
    (low : 2 ^ 54 * (units n * b) < 2 ^ 54 * (a * unitsPerOne) + units n * b)
    (high : 2 ^ 54 * (a * unitsPerOne) < 2 ^ 54 * (units n * b) + units n * b) :
    nearest a b = n := by
  apply Nat.le_antisymm
  case h₁ =>
    refine nearest_le hb ?_
    have hu := Nat.mul_lt_mul_of_pos_right (units_lt n) hb
    rw [units_succ]
    rw [Nat.mul_assoc] at hu
    rw [Nat.add_mul, Nat.add_mul]
    omega
  case h₂ =>
    obtain ⟨k, rfl⟩ : ∃ k, n = k + 1 := ⟨n - 1, by omega⟩
    refine le_nearest hb ?_
    have hu := Nat.mul_le_mul_right b (units_succ_le k)
    have hs : units (k + 1) * b = units k * b + 2 ^ binade k * b := by
      rw [units_succ, Nat.add_mul]
    rw [Nat.mul_assoc] at hu
    rw [Nat.add_mul]
    omega

end Abacus.Binary64
