import Abacus.Proofs.Closeness

namespace Abacus

namespace Binary64

variable {a b e k m n r x : Nat} {q : ℚ}

-- The number that a finite double stands for.
def toRat (x : Float) : ℚ :=
  if isNegative x then -magnitude x else magnitude x

-- The double nearest to a number, and of two equally near ones the one whose last bit is clear.
structure IsNearest (q : ℚ) (x : Float) : Prop where
  finite : x.isFinite
  least  : ∀ y : Float, y.isFinite → |q - toRat x| ≤ |q - toRat y|
  even   : ∀ y : Float, y.isFinite → y ≠ x → |q - toRat y| = |q - toRat x| → pattern x % 2 = 0

theorem roundHalfEven_half (hb : 0 < b) (h : 2 * a = (2 * m + 1) * b) :
    roundHalfEven a b % 2 = 0 := by
  have hc : Nat.Coprime 2 (2 * m + 1) := by simp
  obtain ⟨c, rfl⟩ : 2 ∣ b := hc.dvd_of_dvd_mul_left ⟨a, h.symm⟩
  obtain rfl : a = 2 * c * m + c := by
    apply Nat.eq_of_mul_eq_mul_left Nat.zero_lt_two
    rw [h]
    ring
  have hd : (2 * c * m + c) / (2 * c) = m := by
    rw [Nat.mul_add_div hb, Nat.div_eq_of_lt (by omega), Nat.add_zero]
  have hr : (2 * c * m + c) % (2 * c) = c := by
    rw [Nat.mul_add_mod, Nat.mod_eq_of_lt (by omega)]
  simp only [roundHalfEven, hd, hr, Nat.lt_irrefl, if_false]
  omega

theorem middle_strictMono : StrictMono fun n => units n + units (n + 1) :=
  fun _ _ h => Nat.add_lt_add (units_strictMono h) (units_strictMono (Nat.succ_lt_succ h))

-- In the middle between two patterns rounding goes to one of the two.
theorem nearest_eq_or_of_middle (hb : 0 < b)
    (h : 2 * (a * unitsPerOne) = (units k + units (k + 1)) * b) :
    nearest a b = k ∨ nearest a b = k + 1 := by
  have hle {m n : Nat} (h : (units m + units (m + 1)) * b ≤ (units n + units (n + 1)) * b) :
      m ≤ n :=
    middle_strictMono.le_iff_le.mp (Nat.le_of_mul_le_mul_right h hb)
  have low : k ≤ nearest a b := hle (h ▸ le_middle hb rfl)
  rcases hn : nearest a b with _ | n
  case zero => omega
  case succ =>
    have high : n ≤ k := hle (h ▸ hn ▸ middle_le hb hn.symm)
    omega

-- Where the step below a pattern is smaller than its own, the pattern is the first of its binade,
-- and its last bit is clear anyway.
theorem IsRounded.even_of_middle (h : IsRounded x b e r) (hb : 0 < b)
    (half : ∀ m, 2 * x = (2 * m + 1) * (b * 2 ^ e) → r % 2 = 0)
    (hx : 2 * x = (units k + units (k + 1)) * b)
    (hk : e * 2 ^ 52 + r = k ∨ e * 2 ^ 52 + r = k + 1) : r % 2 = 0 := by
  have hu := h.units_eq
  have hs := units_succ k
  have floor := h.floor
  have steps {i : Nat} (h : 2 ^ binade k * b ≤ 2 ^ i * b) : binade k ≤ i :=
    (Nat.pow_le_pow_iff_right (by decide)).mp (Nat.le_of_mul_le_mul_right h hb)
  rcases hk with hk | hk
  case inl =>
    rw [hk] at hu
    have hx : 2 * x = 2 * (r * 2 ^ e * b) + 2 ^ binade k * b := by
      rw [hx, hs, hu]
      ring
    have hle : e ≤ binade k := hk ▸ h.binade_le
    have he : binade k = e := Nat.le_antisymm (steps (by have := h.above; omega)) hle
    apply half r
    rw [hx, he]
    ring
  case inr =>
    rw [hk] at hu
    have hx : 2 * x + 2 ^ binade k * b = 2 * (r * 2 ^ e * b) := by
      rw [hx, ← hu, hs]
      ring
    have hle : binade k ≤ e := steps (by have := h.below; omega)
    rcases hle.lt_or_eq with hlt | he
    case inl =>
      unfold binade at hlt
      omega
    case inr =>
      obtain ⟨m, rfl⟩ : ∃ m, r = m + 1 := ⟨r - 1, by omega⟩
      apply half m
      rw [he] at hx
      have e₁ : 2 * ((m + 1) * 2 ^ e * b) = (2 * m + 1) * (b * 2 ^ e) + 2 ^ e * b := by ring
      omega

-- A quotient in the middle between two patterns rounds to the one whose last bit is clear.
theorem nearest_even (hb : 0 < b) (h : 2 * (a * unitsPerOne) = (units k + units (k + 1)) * b) :
    nearest a b % 2 = 0 := by
  have hr := isRounded (x := a * unitsPerOne) hb rfl
  have he := hr.even_of_middle hb (fun m => roundHalfEven_half (Nat.mul_pos hb (Nat.two_pow_pos _)))
    h (nearest_eq_or_of_middle hb h)
  rw [nearest]
  omega

theorem nearest_even_of_eq_middle (hb : 0 < b) (h : (a / b : ℚ) = middle k) :
    nearest a b % 2 = 0 := by
  rw [middle, div_eq_div_iff (Nat.cast_pos.mpr hb).ne' two_mul_unitsPerOne_pos.ne'] at h
  apply nearest_even hb (k := k)
  rw [Nat.mul_left_comm]
  exact_mod_cast h

theorem value_strictMono : StrictMono value := fun _ _ h =>
  (div_lt_div_iff_of_pos_right unitsPerOne_pos').mpr (Nat.cast_lt.mpr (units_strictMono h))

theorem two_mul_middle (n : Nat) : 2 * middle n = value n + value (n + 1) := by
  have hU := unitsPerOne_pos'
  rw [middle, value, value]
  field_simp

-- Another pattern lies beyond the middle on its side.
theorem two_mul_quotient_le (hb : 0 < b) (h : nearest a b < m) :
    2 * (a / b : ℚ) ≤ value (nearest a b) + value (nearest a b + 1) ∧
      value (nearest a b + 1) ≤ value m := by
  have hq := quotient_le_middle hb a
  rw [← two_mul_middle]
  exact ⟨by linarith, value_strictMono.monotone h⟩

theorem exists_le_two_mul_quotient (hb : 0 < b) (h : m < nearest a b) :
    ∃ k, k + 1 = nearest a b ∧ value k + value (nearest a b) ≤ 2 * (a / b : ℚ) ∧
      value m ≤ value k := by
  obtain ⟨k, hk⟩ : ∃ k, k + 1 = nearest a b := ⟨nearest a b - 1, by omega⟩
  have hq := middle_le_quotient hb (a := a) (n := k) (by omega)
  have hm := two_mul_middle k
  rw [hk] at hm
  exact ⟨k, hk, by linarith, value_strictMono.monotone (by omega)⟩

theorem abs_sub_value_le (hb : 0 < b) (a m : Nat) :
    |(a / b : ℚ) - value (nearest a b)| ≤ |(a / b : ℚ) - value m| := by
  rcases Nat.lt_trichotomy m (nearest a b) with h | h | h
  case inl =>
    obtain ⟨k, _, hq, hm⟩ := exists_le_two_mul_quotient hb h
    have hlt := value_strictMono h
    exact (abs_le.mpr ⟨by linarith, by linarith⟩).trans (le_abs_self _)
  case inr.inl => rw [h]
  case inr.inr =>
    obtain ⟨hq, hm⟩ := two_mul_quotient_le hb h
    have hlt := value_strictMono h
    exact (abs_le.mpr ⟨by linarith, by linarith⟩).trans (neg_le_abs _)

theorem nearest_even_of_abs_eq (hb : 0 < b) (hne : m ≠ nearest a b)
    (h : |(a / b : ℚ) - value m| = |(a / b : ℚ) - value (nearest a b)|) :
    nearest a b % 2 = 0 := by
  have hs : 2 * (a / b : ℚ) = value m + value (nearest a b) := by
    rcases abs_eq_abs.mp h with h | h
    · exact absurd (value_strictMono.injective (by linarith)) hne
    · linarith
  rcases Nat.lt_or_gt_of_ne hne with hlt | hlt
  case inl =>
    obtain ⟨k, hk, hq, hm⟩ := exists_le_two_mul_quotient hb hlt
    have hm' := two_mul_middle k
    rw [hk] at hm'
    exact nearest_even_of_eq_middle hb (k := k) (by linarith)
  case inr =>
    obtain ⟨hq, hm⟩ := two_mul_quotient_le hb hlt
    have hm' := two_mul_middle (nearest a b)
    exact nearest_even_of_eq_middle hb (k := nearest a b) (by linarith)

theorem value_zero : value 0 = 0 := by
  rw [value, show units 0 = 0 from rfl, Nat.cast_zero, zero_div]

theorem value_nonneg (n : Nat) : 0 ≤ value n :=
  div_nonneg (Nat.cast_nonneg _) unitsPerOne_pos'.le

theorem toRat_of_not_isNegative {y : Float} (hy : y.isFinite) (h : ¬isNegative y) :
    toRat y = value (pattern y) := by
  rw [toRat, if_neg h, magnitude_eq hy]
  rfl

theorem toRat_of_isNegative {y : Float} (hy : y.isFinite) (h : isNegative y) :
    toRat y = -value (pattern y) := by
  rw [toRat, if_pos h, magnitude_eq hy]
  rfl

-- A number that is not negative is as near to a double as to its negative, or nearer.
theorem abs_sub_le_abs_sub_neg (hq : 0 ≤ q) (n : Nat) : |q - value n| ≤ |q - -value n| := by
  have hv := value_nonneg n
  rw [abs_of_nonneg (by linarith : 0 ≤ q - -value n)]
  exact abs_le.mpr ⟨by linarith, by linarith⟩

theorem isNearest_ofPattern (hb : 0 < b) (hn : nearest a b < infinity) :
    IsNearest (a / b) (ofPattern false (nearest a b)) := by
  have hq : (0 : ℚ) ≤ a / b := by positivity
  have hx : toRat (ofPattern false (nearest a b)) = value (nearest a b) := by
    rw [toRat_of_not_isNegative (isFinite_ofPattern hn) (not_isNegative_ofPattern hn),
      pattern_ofPattern hn]
  have least := abs_sub_value_le hb a
  refine ⟨isFinite_ofPattern hn, fun y hy => ?least, fun y hy hne h => ?even⟩
  case least =>
    rw [hx]
    by_cases hs : isNegative y
    case pos =>
      rw [toRat_of_isNegative hy hs]
      exact (least _).trans (abs_sub_le_abs_sub_neg hq _)
    case neg =>
      rw [toRat_of_not_isNegative hy hs]
      exact least _
  case even =>
    rw [hx] at h
    rw [pattern_ofPattern hn]
    by_cases hs : isNegative y
    case pos =>
      rw [toRat_of_isNegative hy hs] at h
      by_cases hm : pattern y = nearest a b
      case neg =>
        exact nearest_even_of_abs_eq hb hm
          (((abs_sub_le_abs_sub_neg hq _).trans_eq h).antisymm (least _))
      case pos =>
        -- Only zero is no farther than its negative without being nearer.
        rcases Nat.eq_zero_or_pos (nearest a b) with hz | hz
        case inl => rw [hz]
        case inr =>
          have h₀ := least 0
          have hv := value_strictMono hz
          rw [hm, abs_of_nonneg (by linarith [value_nonneg (nearest a b)])] at h
          rw [value_zero, sub_zero, abs_of_nonneg hq] at h₀
          linarith [value_zero]
    case neg =>
      rw [toRat_of_not_isNegative hy hs] at h
      refine nearest_even_of_abs_eq hb (fun hm => hne ?_) h
      rw [← hm, ofPattern_pattern hs]

end Binary64

namespace Decimal

open Binary64

-- ASCII digits with at most one point among them.
structure IsDecimal (s : List Char) : Prop where
  digits : ∀ c ∈ s, c.isDigit ∨ c = '.'
  point  : s.count '.' ≤ 1

-- The number that is written by the digits in front of the point and behind it.
def written (s : List Char) : ℚ :=
  Nat.ofDigitChars 10 (wholeDigits s) 0 +
    Nat.ofDigitChars 10 (fractionDigits s) 0 / 10 ^ (fractionDigits s).length

variable {d : Decimal} {s : List Char} {x : Float}

theorem written_eq (s : List Char) :
    written s = Nat.ofDigitChars 10 (wholeDigits s ++ fractionDigits s) 0 /
      (10 ^ (fractionDigits s).length : Nat) := by
  have hp : (10 ^ (fractionDigits s).length : ℚ) ≠ 0 := by positivity
  rw [Nat.ofDigitChars_append, Nat.ofDigitChars_eq_ofDigitChars_zero, written]
  push_cast
  field_simp

theorem toRat_of_ofLiteral? (h : ofLiteral? s = some d) : d.toRat = written s := by
  simp only [ofLiteral?] at h
  split at h <;> cases h
  rw [toRat_eq_div (by simp), written_eq]
  simp

theorem isReadable_iff (s : List Char) :
    IsReadable s ↔ IsDecimal s ∧ written s < overflow := by
  rw [written_eq, div_lt_iff₀ (by positivity)]
  constructor
  case mp =>
    intro ⟨digits, point, finite⟩
    rw [filter_eq_append point] at finite
    exact ⟨⟨digits, point⟩, by exact_mod_cast finite⟩
  case mpr =>
    intro ⟨⟨digits, point⟩, finite⟩
    refine ⟨digits, point, ?_⟩
    rw [filter_eq_append point]
    exact_mod_cast finite

theorem isNearest_of_doubleOfLiteral? (h : doubleOfLiteral? s = some x) :
    IsNearest (written s) x := by
  obtain ⟨d, hs, hd⟩ := Option.bind_eq_some_iff.mp h
  obtain ⟨n, hn, rfl⟩ := Option.map_eq_some_iff.mp hd
  rw [nearest?_eq] at hn
  dsimp only at hn
  split_ifs at hn with hlt
  rw [← toRat_of_ofLiteral? hs, toRat_eq, ← Option.some.inj hn]
  exact isNearest_ofPattern (ten_pow_pos _) hlt

end Decimal

end Abacus
