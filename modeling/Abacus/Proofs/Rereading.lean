import Abacus.Proofs.NumberText
import Abacus.Proofs.Scaling

namespace Abacus

open Binary64

namespace Decimal

variable {d : Decimal} {c c' k k' n : Nat} {s t : List Char}

theorem le_ofDigitChars (s : List Char) (n : Nat) : n ≤ Nat.ofDigitChars 10 s n := by
  induction s generalizing n
  case nil => exact le_rfl
  case cons c s ih =>
    rw [Nat.ofDigitChars_cons]
    exact le_trans (by omega) (ih _)

-- Digits that make a word are all taken in.
theorem fillWord_eq (h : Nat.ofDigitChars 10 s n < 2 ^ 64) :
    fillWord n s = (Nat.ofDigitChars 10 s n, []) := by
  induction s generalizing n
  case nil => rfl
  case cons c s ih =>
    rw [Nat.ofDigitChars_cons, Nat.mul_comm] at h
    have hm := (le_ofDigitChars s _).trans_lt h
    rw [fillWord, if_pos hm, ih h, Nat.ofDigitChars_cons, Nat.mul_comm 10]

theorem ofDigits64_eq (h : Nat.ofDigitChars 10 (s ++ t) 0 < 2 ^ 64) :
    ofDigits64 s t = ⟨Nat.ofDigitChars 10 (s ++ t) 0, -t.length⟩ := by
  rw [Nat.ofDigitChars_append] at h
  have hs := fillWord_eq ((le_ofDigitChars t _).trans_lt h)
  simp [ofDigits64, hs, fillWord_eq h, Nat.ofDigitChars_append]

-- The largest double, a whole number.
def largest : Nat :=
  2 ^ 1024 - 2 ^ 971

theorem largest_mul_unitsPerOne : largest * unitsPerOne = units (infinity - 1) := by
  decide +kernel

-- The pattern to which the digits `c` are scaled up by a power of ten.
def scaledUp (c k : Nat) : Nat :=
  nearest (units (nearest c 1) * units (nearest (10 ^ k) 1)) (unitsPerOne * unitsPerOne)

theorem scaledUp_mono (h : c ≤ c') (hk : k ≤ k') : scaledUp c k ≤ scaledUp c' k' := by
  have hU := Nat.mul_pos unitsPerOne_pos unitsPerOne_pos
  have hn : nearest c 1 ≤ nearest c' 1 :=
    nearest_mono (by decide) (by decide) (Nat.mul_le_mul_right 1 h)
  have hu := Nat.mul_le_mul (units_strictMono.monotone hn)
    (units_strictMono.monotone (nearest_ten_pow_mono hk))
  exact nearest_mono hU hU (Nat.mul_le_mul_right _ hu)

theorem scaledUp_lt_iff : scaledUp c k < infinity ↔
    units (nearest c 1) * units (nearest (10 ^ k) 1) < overflow * (unitsPerOne * unitsPerOne) :=
  nearest_lt_infinity_iff (Nat.mul_pos unitsPerOne_pos unitsPerOne_pos)

theorem scaledUp_lt_of_le : scaledUp (10 ^ 17) 291 < infinity := by
  rw [scaledUp_lt_iff]
  decide +kernel

-- The greatest powers of ten leave room for fewer digits.
theorem scaledUp_lt_of_lt : ∀ i < 17, scaledUp (largest / 10 ^ (292 + i)) (292 + i) < infinity := by
  simp only [scaledUp_lt_iff]
  decide +kernel

theorem largest_lt : largest < 10 ^ 309 := by
  decide +kernel

theorem scaledUp_lt (hc : c ≤ 10 ^ 17) (hz : 0 < c) (h : c * 10 ^ k ≤ largest) :
    k ≤ topPower ∧ scaledUp c k < infinity := by
  have hk : k < 309 := by
    refine (Nat.pow_lt_pow_iff_right (a := 10) (by decide)).mp ?_
    calc 10 ^ k
      _ ≤ c * 10 ^ k := Nat.le_mul_of_pos_left _ hz
      _ ≤ largest := h
      _ < 10 ^ 309 := largest_lt
  refine ⟨Nat.le_of_lt_succ hk, ?_⟩
  by_cases hi : k ≤ 291
  case pos => exact (scaledUp_mono hc hi).trans_lt scaledUp_lt_of_le
  case neg =>
    obtain ⟨i, rfl⟩ : ∃ i, k = 292 + i := ⟨k - 292, by omega⟩
    have hm := (Nat.le_div_iff_mul_le (ten_pow_pos (292 + i))).mpr h
    exact (scaledUp_mono hm le_rfl).trans_lt (scaledUp_lt_of_lt i (by omega))

theorem exists_scaled?_of_neg (h : d.exponent < 0) : ∃ x, scaled? d = some x :=
  ⟨_, if_pos h⟩

-- Rounding digits and power of ten beforehand does not lead out of range.
theorem exists_scaled? (hz : 0 < d.coefficient) (hc : d.coefficient ≤ 10 ^ 17)
    (hv : 0 ≤ d.exponent → d.coefficient * 10 ^ d.exponent.toNat ≤ largest) :
    ∃ x, scaled? d = some x := by
  obtain ⟨hlt, hw⟩ := toFloat_toUInt64 (c := d.coefficient) (by omega)
  rw [scaled?, hw]
  split_ifs with hs
  case pos => exact ⟨_, rfl⟩
  case neg =>
    have hv := hv (by omega)
    generalize d.exponent.toNat = k at hv
    obtain ⟨ht, hn⟩ := scaledUp_lt hc hz hv
    have hp := (isFinite_iff_of_min (toNat_toBits_mul_powerOfTen hlt ht)).mpr hn
    rw [scaleUp?, if_pos ht]
    dsimp only
    rw [if_pos hp]
    exact ⟨_, rfl⟩

theorem coefficient_shortest_pos (hz : 0 < n) (hn : n < infinity) :
    0 < (shortest n).coefficient := by
  by_contra h
  have h0 : (shortest n).coefficient = 0 := by omega
  have hs := nearest?_shortest hz hn
  rw [nearest?, if_pos (.inl h0)] at hs
  exact hz.ne (Option.some.inj hs)

theorem shortest_largest_le :
    (shortest (infinity - 1)).coefficient * 10 ^ (shortest (infinity - 1)).exponent.toNat ≤
      largest := by
  decide +kernel

-- The digits of a double are never worth more than the largest double. They could be more than
-- that double and still be nearest to it, but its shortest digits are less.
theorem shortest_le_largest (hz : 0 < n) (hn : n < infinity) (he : 0 ≤ (shortest n).exponent) :
    (shortest n).coefficient * 10 ^ (shortest n).exponent.toNat ≤ largest := by
  by_cases h : n = infinity - 1
  case pos =>
    rw [h]
    exact shortest_largest_le
  case neg =>
    have hs := nearest?_shortest hz hn
    have hk : (-(shortest n).exponent).toNat = 0 := by omega
    rw [nearest?_eq, hk, Nat.pow_zero] at hs
    dsimp only at hs
    split_ifs at hs with hi
    have hs := Option.some.inj hs
    by_contra hc
    have hm : nearest (units (infinity - 1)) unitsPerOne ≤ n := by
      rw [← hs, ← largest_mul_unitsPerOne]
      refine nearest_mono unitsPerOne_pos (by decide) ?_
      rw [Nat.mul_one]
      exact Nat.mul_le_mul_right _ (Nat.le_of_not_le hc)
    rw [nearest_units] at hm
    omega

end Decimal

namespace Json.Number

open Decimal

variable {n : Number} {x y : Float}

-- The number that is written, whatever its sign.
def decimal (n : Number) : Decimal :=
  ⟨n.coefficient, n.exponent.getD 0 - n.places⟩

theorem toDouble?_eq (h : n.coefficient < 2 ^ 64) :
    n.toDouble? = (scaled? n.decimal).map fun x => if n.negative then -x else x := by
  have hd := ofDigits64_eq (s := n.whole) (t := n.fraction) (n.ofDigitChars_whole_fraction.symm ▸ h)
  have he : n.exponent.getD 0 - n.places = -n.places + n.exponent.getD 0 := by omega
  rw [toDouble?, hd, n.ofDigitChars_whole_fraction, n.length_fraction, decimal, he]

-- Whatever is read is finite.
theorem isFinite_of_toDouble? (h : n.toDouble? = some x) : x.isFinite := by
  have ⟨y, hy, e⟩ := Option.map_eq_some_iff.mp h
  have ⟨m, hm, hx⟩ := scaled?_eq_some hy
  subst hx e
  split_ifs
  case pos => exact isFinite_neg_ofPattern hm
  case neg => exact isFinite_ofPattern hm

theorem negative_ofDouble (x : Float) : (ofDouble x).negative = isNegative x := by
  rw [ofDouble]
  dsimp only
  split_ifs <;> rfl

theorem decimal_ofDouble_zero (hz : pattern x = 0) : (ofDouble x).decimal = ⟨0, -1⟩ := by
  rw [ofDouble]
  dsimp only
  rw [if_pos hz]
  rfl

-- A number without exponent has a zero behind the point if it is whole.
theorem decimal_ofDouble (hz : pattern x ≠ 0) {d : Decimal} (hd : shortest (pattern x) = d) :
    (ofDouble x).decimal = d ∨
      0 ≤ d.exponent ∧ d.leadingPower ≤ 15 ∧
      (ofDouble x).decimal = ⟨d.coefficient * 10 ^ (d.exponent.toNat + 1), -1⟩ := by
  have hl : 0 < (Nat.toDigits 10 d.coefficient).length := Nat.length_toDigits_pos
  have hp : d.leadingPower = d.exponent + (Nat.toDigits 10 d.coefficient).length - 1 := rfl
  rw [ofDouble]
  dsimp only
  rw [if_neg hz, hd]
  split_ifs with hk he
  case pos =>
    left
    have e : d.leadingPower - ((Nat.toDigits 10 d.coefficient).length - 1 : Nat) = d.exponent := by
      omega
    rw [decimal]
    dsimp only
    rw [Option.getD_some, e]
  case pos =>
    left
    have e : (0 : ℤ) - ((-d.exponent).toNat : Nat) = d.exponent := by omega
    rw [decimal]
    dsimp only
    rw [Option.getD_none, e]
  case neg =>
    right
    rw [not_or, not_lt, not_lt] at hk
    exact ⟨by omega, hk.right, rfl⟩

theorem toRat_decimal_ofDouble (hz : pattern x ≠ 0) :
    (ofDouble x).decimal.toRat = (shortest (pattern x)).toRat := by
  rcases decimal_ofDouble hz rfl with h | ⟨he, _, h⟩
  case inl => rw [h]
  case inr =>
    rw [h]
    generalize shortest (pattern x) = d at he
    have e : (d.exponent.toNat : ℤ) = d.exponent := by omega
    rw [toRat, toRat]
    dsimp only
    nth_rewrite 2 [← e]
    rw [zpow_natCast, Nat.cast_mul, Nat.cast_pow, pow_succ, zpow_neg_one]
    push_cast
    field_simp

-- Its digits make a word.
theorem coefficient_ofDouble_lt (hx : x.isFinite) : (ofDouble x).decimal.coefficient < 2 ^ 64 := by
  by_cases hz : pattern x = 0
  case pos =>
    rw [decimal_ofDouble_zero hz]
    decide
  case neg =>
    rcases decimal_ofDouble hz rfl with h | ⟨he, hk, h⟩
    case inl =>
      rw [h]
      exact (coefficient_shortest_le (Nat.pos_of_ne_zero hz) (isFinite_iff.mp hx)).trans_lt
        (by decide)
    case inr =>
      rw [h]
      generalize shortest (pattern x) = d at he hk
      have hp : d.leadingPower = d.exponent + (Nat.toDigits 10 d.coefficient).length - 1 := rfl
      calc d.coefficient * 10 ^ (d.exponent.toNat + 1)
        _ < 10 ^ (Nat.toDigits 10 d.coefficient).length * 10 ^ (d.exponent.toNat + 1) :=
          Nat.mul_lt_mul_of_pos_right (lt_pow_length _) (ten_pow_pos _)
        _ ≤ 10 ^ 17 := by
          rw [← Nat.pow_add]
          exact Nat.pow_le_pow_right (by decide) (by omega)
        _ < 2 ^ 64 := by decide

-- What is written identifies the double.
theorem nearest?_decimal_ofDouble (hx : x.isFinite) :
    (ofDouble x).decimal.nearest? = some (pattern x) := by
  by_cases hz : pattern x = 0
  case pos =>
    rw [decimal_ofDouble_zero hz, hz]
    rfl
  case neg =>
    rw [nearest?_congr (toRat_decimal_ofDouble hz)]
    exact nearest?_shortest (Nat.pos_of_ne_zero hz) (isFinite_iff.mp hx)

theorem exists_scaled?_ofDouble (hx : x.isFinite) : ∃ y, scaled? (ofDouble x).decimal = some y := by
  by_cases hz : pattern x = 0
  case pos =>
    rw [decimal_ofDouble_zero hz]
    exact exists_scaled?_of_neg (by decide)
  case neg =>
    have hp := Nat.pos_of_ne_zero hz
    have hn := isFinite_iff.mp hx
    rcases decimal_ofDouble hz rfl with h | ⟨_, _, h⟩
    case inl =>
      rw [h]
      exact exists_scaled? (coefficient_shortest_pos hp hn) (coefficient_shortest_le hp hn)
        (shortest_le_largest hp hn)
    case inr =>
      rw [h]
      exact exists_scaled?_of_neg (by simp)

end Json.Number

open Json

-- The double that a finite one is read as when it has been written.
def reread (x : Float) : Float :=
  ((Number.ofDouble x).toDouble?).getD x

-- The digits and the power of ten that are written for the double are doubles themselves.
def IsShort (x : Float) : Prop :=
  (Number.ofDouble x).decimal.coefficient < 2 ^ 53 ∧
    (Number.ofDouble x).decimal.exponent.natAbs ≤ 22

instance (x : Float) : Decidable (IsShort x) :=
  inferInstanceAs (Decidable (_ ∧ _))

variable {x : Float}

theorem toDouble?_ofDouble (hx : x.isFinite) :
    (Number.ofDouble x).toDouble? = some (reread x) := by
  have ⟨y, hy⟩ := Number.exists_scaled?_ofDouble hx
  have h := Number.toDouble?_eq (Number.coefficient_ofDouble_lt hx)
  rw [hy, Option.map_some] at h
  rw [reread, h, Option.getD_some]

theorem isFinite_reread (hx : x.isFinite) : (reread x).isFinite :=
  Number.isFinite_of_toDouble? (toDouble?_ofDouble hx)

-- Few digits are read as the double for which they have been written.
theorem reread_of_isShort (hx : x.isFinite) (h : IsShort x) : reread x = x := by
  have hs := Decimal.scaled?_of_small h.left h.right (Number.nearest?_decimal_ofDouble hx)
  have hr := toDouble?_ofDouble hx
  rw [Number.toDouble?_eq (Number.coefficient_ofDouble_lt hx), hs, Option.map_some,
    Number.negative_ofDouble] at hr
  have hr := Option.some.inj hr
  split_ifs at hr with hn
  case pos => rw [← hr, ← eq_neg_ofPattern hn hx]
  case neg => rw [← hr, ofPattern_pattern hn]

end Abacus
