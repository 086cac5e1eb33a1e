import Abacus.Decimal.Shortest
import Abacus.Proofs.Double
import Abacus.Proofs.Literal

namespace Abacus.Decimal

open Binary64

def toRat (d : Decimal) : ℚ :=
  d.coefficient * (10 : ℚ) ^ d.exponent

variable {d : Decimal} {n k : Nat}

theorem cast_pow_ne_zero {b : Nat} (h : 0 < b) (k : Nat) : ((b ^ k : Nat) : ℚ) ≠ 0 :=
  Nat.cast_ne_zero.mpr (Nat.pow_pos h).ne'

theorem toRat_eq_div (hd : d.exponent ≤ 0) :
    d.toRat = d.coefficient / (10 ^ (-d.exponent).toNat : Nat) := by
  have h : d.exponent = -((-d.exponent).toNat : ℤ) := by omega
  rw [toRat]
  nth_rewrite 1 [h]
  rw [zpow_neg, zpow_natCast, Nat.cast_pow, div_eq_mul_inv]
  rfl

-- Below 10⁻³²⁴ there is less than one step.
theorem coefficient_mul_unitsPerOne_lt (h : d.exponent + d.width ≤ -324) :
    d.coefficient * unitsPerOne < 10 ^ (-d.exponent).toNat :=
  calc d.coefficient * unitsPerOne
    _ < 10 ^ d.width * 10 ^ 324 := Nat.mul_lt_mul_of_lt_of_lt d.coefficient_lt unitsPerOne_lt
    _ = 10 ^ (d.width + 324) := by rw [Nat.pow_add]
    _ ≤ 10 ^ (-d.exponent).toNat := Nat.pow_le_pow_right (by decide) (by omega)

-- A decimal that is exactly a double is nearest to that double.
theorem nearest?_of_toRat (hd : d.exponent ≤ 0) (hn : n < infinity)
    (h : d.toRat = units n / unitsPerOne) : d.nearest? = some n := by
  have hk : 0 < 10 ^ (-d.exponent).toNat := Nat.pow_pos (by decide)
  have hu : (unitsPerOne : ℚ) ≠ 0 := Nat.cast_ne_zero.mpr unitsPerOne_pos.ne'
  have hc : d.coefficient * unitsPerOne = units n * 10 ^ (-d.exponent).toNat := by
    rw [toRat_eq_div hd, div_eq_div_iff (cast_pow_ne_zero (by decide) _) hu] at h
    exact_mod_cast h
  unfold nearest?
  split_ifs with small large
  case pos =>
    have hz : units n = 0 := by
      rcases small with hz | small
      · rw [hz, Nat.zero_mul] at hc
        exact (Nat.mul_eq_zero.mp hc.symm).resolve_right hk.ne'
      · have hlt := coefficient_mul_unitsPerOne_lt small
        rw [hc] at hlt
        exact Nat.lt_one_iff.mp (Nat.lt_of_mul_lt_mul_right (hlt.trans_eq (Nat.one_mul _).symm))
    rw [eq_zero_of_units hz]
  case pos => omega
  case neg =>
    have he : d.exponent.toNat = 0 := by omega
    have hr : nearest (d.coefficient * 10 ^ d.exponent.toNat) (10 ^ (-d.exponent).toNat) = n := by
      rw [he, Nat.pow_zero, Nat.mul_one, nearest_congr hk unitsPerOne_pos hc, nearest_units]
    rw [hr, if_pos hn]

-- The text is a literal, and the number that it denotes is the one that the double stands for.
def Denotes (s : List Char) (x : Float) : Prop :=
  ∃ d, ofLiteral? s = some d ∧ d.toRat = magnitude x

variable {s whole fraction : List Char} {x : Float}

theorem exponent_of_ofLiteral? (h : ofLiteral? s = some d) : d.exponent ≤ 0 := by
  simp only [ofLiteral?] at h
  split at h <;> cases h
  exact Int.neg_nonpos_of_nonneg (Int.natCast_nonneg _)

theorem Denotes.doubleOfLiteral? (h : Denotes s x) (hx : x.isFinite) (hn : ¬isNegative x) :
    doubleOfLiteral? s = some x := by
  have ⟨d, hs, hd⟩ := h
  rw [magnitude_eq hx] at hd
  have hr := nearest?_of_toRat (exponent_of_ofLiteral? hs) (isFinite_iff.mp hx) hd
  rw [Decimal.doubleOfLiteral?, hs, Option.bind_some, hr, Option.map_some, ofPattern_pattern hn]

theorem isFinite_of_doubleOfLiteral? (h : doubleOfLiteral? s = some x) :
    x.isFinite ∧ ¬isNegative x := by
  have ⟨d, _, hd⟩ := Option.bind_eq_some_iff.mp h
  have ⟨n, hn, e⟩ := Option.map_eq_some_iff.mp hd
  have hn := nearest?_lt hn
  exact e ▸ ⟨isFinite_ofPattern hn, not_isNegative_ofPattern hn⟩

theorem ofLiteral?_append_point (h : ∀ c ∈ whole ++ fraction, c.isDigit)
    (ne : whole ++ fraction ≠ []) :
    ofLiteral? (whole ++ '.' :: fraction) =
      some ⟨Nat.ofDigitChars 10 (whole ++ fraction) 0, -fraction.length⟩ := by
  have hp (c) (hc : c ∈ whole) : c ≠ '.' := by
    rintro rfl
    exact not_isDigit_point (h '.' (List.mem_append_left fraction hc))
  have hw : wholeDigits (whole ++ '.' :: fraction) = whole := by
    rw [wholeDigits, List.takeWhile_append_of_pos (by simpa using hp)]
    simp
  have hf : fractionDigits (whole ++ '.' :: fraction) = fraction := by
    rw [fractionDigits, List.dropWhile_append_of_pos (by simpa using hp)]
    simp
  simp only [ofLiteral?, hw, hf]
  exact if_pos ⟨ne, List.all_eq_true.mpr h⟩

theorem toRat_mul_five_pow (c k : Nat) : toRat ⟨c * 5 ^ k, -k⟩ = c / (2 ^ k : Nat) := by
  have hk : (- -(k : ℤ)).toNat = k := by omega
  have h10 : 10 ^ k = 2 ^ k * 5 ^ k := Nat.mul_pow 2 5 k
  rw [toRat_eq_div (by simp), hk, h10, Nat.cast_mul, Nat.cast_mul,
    mul_div_mul_right _ _ (cast_pow_ne_zero (by decide) k)]

theorem toRat_exact (n : Nat) : (exact n).toRat = units n / unitsPerOne := by
  -- So large a power is better kept from being computed.
  obtain ⟨s, hs⟩ : ∃ s, s = 1074 := ⟨_, rfl⟩
  have hz : (-1074 : ℤ) = -s := by omega
  have hu : unitsPerOne = 2 ^ s := by rw [unitsPerOne, ← hs]
  rw [exact, hz, ← hs, hu]
  exact toRat_mul_five_pow (units n) s

-- Zeros in front of the digits make sure that there are enough for both sides of the point.
theorem exists_ofLiteral? (c k : Nat) :
    ∃ s, s.head? ≠ some '.' ∧ ofLiteral? s = some ⟨c, -k⟩ := by
  let digits := List.replicate k '0' ++ Nat.toDigits 10 c
  have hd : ∀ a ∈ '0' :: digits, a.isDigit := by
    intro a ha
    simp only [digits, List.mem_cons, List.mem_append, List.mem_replicate] at ha
    rcases ha with rfl | ⟨_, rfl⟩ | ha
    · rfl
    · rfl
    · exact Nat.isDigit_of_mem_toDigits (by decide) (by decide) ha
  have hc : Nat.ofDigitChars 10 ('0' :: digits) 0 = c := by
    rw [Nat.ofDigitChars_cons, Nat.ofDigitChars_append, Nat.ofDigitChars_replicate_zero]
    exact Nat.ofDigitChars_ten_toDigits
  have hl : (digits.drop (digits.length - k)).length = k := by
    have : k ≤ digits.length := by simp [digits]
    rw [List.length_drop]
    omega
  let whole := '0' :: digits.take (digits.length - k)
  have hw : whole ++ digits.drop (digits.length - k) = '0' :: digits := by
    simp [whole]
  refine ⟨whole ++ '.' :: digits.drop (digits.length - k), by simp [whole], ?_⟩
  rw [ofLiteral?_append_point (hw ▸ hd) (by simp [whole]), hw, hc, hl]

theorem exists_denotes (h : x.isFinite) : ∃ s, s.head? ≠ some '.' ∧ Denotes s x := by
  have ⟨s, hs, hd⟩ := exists_ofLiteral? (exact (pattern x)).coefficient 1074
  exact ⟨s, hs, exact (pattern x), hd, (toRat_exact _).trans (magnitude_eq h).symm⟩

end Abacus.Decimal
