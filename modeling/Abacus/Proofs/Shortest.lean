import Abacus.Proofs.Exact
import Abacus.Proofs.Nearest

namespace Abacus.Decimal

open Binary64

variable {d d' : Decimal} {n a b k N : Nat} {p : ℤ}

theorem ten_pow_pos (k : Nat) : 0 < 10 ^ k :=
  Nat.pow_pos (by decide)

theorem toRat_eq (d : Decimal) :
    d.toRat = (d.coefficient * 10 ^ d.exponent.toNat : Nat) / (10 ^ (-d.exponent).toNat : Nat) := by
  rcases Int.le_total d.exponent 0 with h | h
  case inl =>
    have hz : d.exponent.toNat = 0 := by omega
    rw [toRat_eq_div h, hz, Nat.pow_zero, Nat.mul_one]
  case inr =>
    have hz : (-d.exponent).toNat = 0 := by omega
    have he : d.exponent = (d.exponent.toNat : ℤ) := by omega
    rw [hz, Nat.pow_zero, Nat.cast_one, div_one, Nat.cast_mul, Nat.cast_pow, toRat]
    nth_rewrite 1 [he]
    rw [zpow_natCast]
    rfl

theorem two_mul_unitsPerOne_lt : 2 * unitsPerOne < 10 ^ 324 := by
  decide +kernel

-- A number below 10⁻³²⁴ is less than half a step.
theorem nearest_of_small (h : d.exponent + d.width ≤ -324) :
    nearest (d.coefficient * 10 ^ d.exponent.toNat) (10 ^ (-d.exponent).toNat) = 0 := by
  have he : d.exponent.toNat = 0 := by omega
  have hlt : 2 * (d.coefficient * unitsPerOne) < 10 ^ (-d.exponent).toNat :=
    calc 2 * (d.coefficient * unitsPerOne)
      _ = d.coefficient * (2 * unitsPerOne) := by ring
      _ < 10 ^ d.width * 10 ^ 324 :=
        Nat.mul_lt_mul_of_lt_of_lt d.coefficient_lt two_mul_unitsPerOne_lt
      _ = 10 ^ (d.width + 324) := by rw [Nat.pow_add]
      _ ≤ 10 ^ (-d.exponent).toNat := Nat.pow_le_pow_right (by decide) (by omega)
  have middle : units 0 + units (0 + 1) = 1 := rfl
  rw [he, Nat.pow_zero, Nat.mul_one]
  refine Nat.le_zero.mp (nearest_le (ten_pow_pos _) ?_)
  rwa [middle, Nat.one_mul]

-- The guards of `nearest?` only save work.
theorem nearest?_eq (d : Decimal) :
    d.nearest? =
      let n := nearest (d.coefficient * 10 ^ d.exponent.toNat) (10 ^ (-d.exponent).toNat)
      if n < infinity then some n else none := by
  have hp := ten_pow_pos (-d.exponent).toNat
  have hs := d.nearest?_isSome_iff
  rw [← nearest_lt_infinity_iff hp] at hs
  have hi : 0 < infinity := by decide
  unfold nearest? at *
  split_ifs at * with small large
  case pos =>
    have hn : nearest (d.coefficient * 10 ^ d.exponent.toNat) (10 ^ (-d.exponent).toNat) = 0 := by
      rcases small with h | h
      · rw [h, Nat.zero_mul, nearest_zero hp]
      · exact nearest_of_small h
    simp [hn, hi]
  case pos => simpa using hs
  case neg => rfl

theorem nearest?_congr (h : d.toRat = d'.toRat) : d.nearest? = d'.nearest? := by
  rw [toRat_eq, toRat_eq, div_eq_div_iff (cast_pow_ne_zero (by decide) _)
    (cast_pow_ne_zero (by decide) _)] at h
  have h : d.coefficient * 10 ^ d.exponent.toNat * 10 ^ (-d'.exponent).toNat =
      d'.coefficient * 10 ^ d'.exponent.toNat * 10 ^ (-d.exponent).toNat := by exact_mod_cast h
  rw [nearest?_eq, nearest?_eq, nearest_congr (ten_pow_pos _) (ten_pow_pos _) h]

theorem pow_trailingZeros_dvd (d : Decimal) : 10 ^ d.trailingZeros ∣ d.coefficient := by
  let digits := Nat.toDigits 10 d.coefficient
  let zeros := digits.reverse.takeWhile (· = '0')
  have hz : zeros = List.replicate d.trailingZeros '0' :=
    List.eq_replicate_iff.mpr
      ⟨rfl, fun c hc => by simpa using List.all_eq_true.mp List.all_takeWhile c hc⟩
  have hd : digits = (digits.reverse.dropWhile (· = '0')).reverse ++ zeros.reverse := by
    rw [← List.reverse_append, List.takeWhile_append_dropWhile, List.reverse_reverse]
  have hn : Nat.ofDigitChars 10 digits 0 = d.coefficient := Nat.ofDigitChars_ten_toDigits
  rw [hd, hz, List.reverse_replicate, Nat.ofDigitChars_append,
    Nat.ofDigitChars_replicate_zero] at hn
  exact ⟨_, hn.symm⟩

theorem toRat_trim (d : Decimal) : d.trim.toRat = d.toRat := by
  have hc := Nat.div_mul_cancel d.pow_trailingZeros_dvd
  rw [trim, toRat, toRat]
  dsimp only
  rw [add_comm, zpow_add₀ (by norm_num), zpow_natCast, ← mul_assoc]
  congr 1
  exact_mod_cast hc

theorem coefficient_trim_le (d : Decimal) : d.trim.coefficient ≤ d.coefficient :=
  Nat.div_le_self _ _

theorem pow_length_le (h : 0 < N) : 10 ^ ((Nat.toDigits 10 N).length - 1) ≤ N := by
  by_contra hn
  have hl : 0 < (Nat.toDigits 10 N).length := Nat.length_toDigits_pos
  by_cases hk : 0 < (Nat.toDigits 10 N).length - 1
  case pos =>
    have := (Nat.length_toDigits_le_iff (by decide) hk).mpr (Nat.not_le.mp hn)
    omega
  case neg =>
    obtain hz : (Nat.toDigits 10 N).length - 1 = 0 := by omega
    rw [hz, Nat.pow_zero] at hn
    omega

theorem lt_pow_length (N : Nat) : N < 10 ^ (Nat.toDigits 10 N).length :=
  (Nat.length_toDigits_le_iff (by decide) Nat.length_toDigits_pos).mp le_rfl

-- The value of a pattern against a power of ten, as `neighbours` compares them.
structure Scale (n : Nat) (p : ℤ) (a b : Nat) : Prop where
  value : a = units n * 10 ^ (-p).toNat
  power : b = unitsPerOne * 10 ^ p.toNat

-- The exponent stays a variable, since no power of it should ever be computed.
theorem unitsPerOne_mul_five_pow {s : Nat} (hs : s = 1074) : unitsPerOne * 5 ^ s = 10 ^ s := by
  rw [unitsPerOne, ← hs, ← Nat.mul_pow]

theorem coefficient_exact {s : Nat} (hs : s = 1074) (n : Nat) :
    (exact n).coefficient = units n * 5 ^ s := by
  rw [exact, ← hs]

namespace Scale

theorem power_eq {s : Nat} (hs : s = 1074) (h : Scale n p a b) (k : Nat) :
    10 ^ k * b * 5 ^ s = 10 ^ (k + s + p.toNat) := by
  calc 10 ^ k * b * 5 ^ s
    _ = 10 ^ k * (unitsPerOne * 5 ^ s) * 10 ^ p.toNat := by
      rw [h.power]
      ring
    _ = 10 ^ (k + s + p.toNat) := by
      rw [unitsPerOne_mul_five_pow hs, ← Nat.pow_add, ← Nat.pow_add]

theorem value_eq {s : Nat} (hs : s = 1074) (h : Scale n p a b) :
    a * 5 ^ s = (exact n).coefficient * 10 ^ (-p).toNat := by
  rw [h.value, Nat.mul_right_comm, coefficient_exact hs]

-- On a grid `k` places below the leading digit a value has `k + 1` digits.
theorem bounds (h : Scale n ((exact n).leadingPower - k) a b) (hn : 0 < units n) :
    10 ^ k * b ≤ a ∧ a < 10 ^ (k + 1) * b := by
  obtain ⟨s, hs⟩ : ∃ s, s = 1074 := ⟨_, rfl⟩
  have h5 : 0 < 5 ^ s := Nat.pow_pos (by decide)
  have hN : 0 < (exact n).coefficient := by
    rw [coefficient_exact hs]
    exact Nat.mul_pos hn h5
  have hl : 0 < (Nat.toDigits 10 (exact n).coefficient).length := Nat.length_toDigits_pos
  have hp : (exact n).leadingPower =
      -1074 + ((Nat.toDigits 10 (exact n).coefficient).length : ℤ) - 1 := rfl
  obtain ⟨p, he⟩ : ∃ p, p = (exact n).leadingPower - k := ⟨_, rfl⟩
  rw [← he] at h
  have low := pow_length_le hN
  have high := lt_pow_length (exact n).coefficient
  generalize (Nat.toDigits 10 (exact n).coefficient).length = l at *
  have hlow : k + s + p.toNat = l - 1 + (-p).toNat := by omega
  have hhigh : k + 1 + s + p.toNat = l + (-p).toNat := by omega
  constructor
  case left =>
    refine Nat.le_of_mul_le_mul_right ?_ h5
    rw [power_eq hs h, value_eq hs h, hlow, Nat.pow_add]
    exact Nat.mul_le_mul_right _ low
  case right =>
    refine Nat.lt_of_mul_lt_mul_right (a := 5 ^ s) ?_
    rw [power_eq hs h, value_eq hs h, hhigh, Nat.pow_add]
    exact Nat.mul_lt_mul_of_pos_right high (ten_pow_pos _)

-- Numbers of seventeen digits are closer to each other than doubles are.
theorem nearest_near (h : Scale n ((exact n).leadingPower - 16) a b) (hz : 0 < n) :
    nearest (roundHalfEven a b * 10 ^ ((exact n).leadingPower - 16).toNat)
      (10 ^ (-((exact n).leadingPower - 16)).toNat) = n := by
  have hu : 0 < units n := Nat.pos_of_ne_zero fun h => hz.ne' (eq_zero_of_units h)
  have hb : 0 < b := by
    rw [h.power]
    exact Nat.mul_pos unitsPerOne_pos (ten_pow_pos _)
  have ⟨low, _⟩ := bounds (k := 16) h hu
  have ⟨above, below⟩ := roundHalfEven_bounds hb a
  have hr : roundHalfEven a b * 10 ^ ((exact n).leadingPower - 16).toNat * unitsPerOne =
      roundHalfEven a b * b := by
    rw [h.power]
    ring
  refine nearest_eq_of_close (ten_pow_pos _) hz ?_ ?_
  all_goals
    rw [hr, ← h.value]
    omega

end Scale

theorem exists_neighbours (n : Nat) (p : ℤ) :
    ∃ a b far, Scale n p a b ∧ far ≤ a / b + 1 ∧
      neighbours n p = [trim ⟨roundHalfEven a b, p⟩, trim ⟨far, p⟩] := by
  refine ⟨_, _, _, ⟨rfl, rfl⟩, ?_, rfl⟩
  split_ifs with h
  case pos => rw [h]
  case neg =>
    have := roundHalfEven_le (units n * 10 ^ (-p).toNat) (unitsPerOne * 10 ^ p.toNat)
    omega

theorem coefficient_neighbours_le (hz : 0 < n)
    (h : d ∈ neighbours n ((exact n).leadingPower - k)) : d.coefficient ≤ 10 ^ (k + 1) := by
  have hu : 0 < units n := Nat.pos_of_ne_zero fun h => hz.ne' (eq_zero_of_units h)
  have ⟨a, b, far, hs, hf, hn⟩ := exists_neighbours n ((exact n).leadingPower - k)
  have ⟨_, high⟩ := hs.bounds hu
  have hq : a / b < 10 ^ (k + 1) := Nat.div_lt_of_lt_mul (Nat.mul_comm b _ ▸ high)
  have hr := roundHalfEven_le a b
  rw [hn] at h
  simp only [List.mem_cons, List.not_mem_nil, or_false] at h
  rcases h with rfl | rfl
  · exact (coefficient_trim_le _).trans (hr.trans hq)
  · exact (coefficient_trim_le _).trans (hf.trans hq)

theorem nearest?_near (hz : 0 < n) (hn : n < infinity) :
    ∃ d ∈ neighbours n ((exact n).leadingPower - 16), d.nearest? = some n := by
  have ⟨a, b, far, hs, _, h⟩ := exists_neighbours n ((exact n).leadingPower - 16)
  refine ⟨trim ⟨roundHalfEven a b, (exact n).leadingPower - 16⟩, by simp [h], ?_⟩
  rw [nearest?_congr (toRat_trim _), nearest?_eq]
  dsimp only
  rw [hs.nearest_near hz, if_pos hn]

-- One of the grids has the number that is looked for.
theorem exists_shortest (hz : 0 < n) (hn : n < infinity) :
    ∃ k < 17, shortest n ∈ neighbours n ((exact n).leadingPower - (k : Nat)) ∧
      (shortest n).nearest? = some n := by
  have hs : shortest n = ((List.range 17).findSome? fun (k : Nat) =>
      (neighbours n ((exact n).leadingPower - k)).find? (·.nearest? = some n)).getD (exact n) := rfl
  cases hf : (List.range 17).findSome? fun (k : Nat) =>
      (neighbours n ((exact n).leadingPower - k)).find? (·.nearest? = some n)
  case none =>
    have ⟨d, hd, hr⟩ := nearest?_near hz hn
    have h := List.findSome?_eq_none_iff.mp hf 16 (by simp)
    have := List.find?_eq_none.mp h d hd
    simp [hr] at this
  case some d =>
    rw [hf, Option.getD_some] at hs
    have ⟨k, hk, hd⟩ := List.exists_of_findSome?_eq_some hf
    rw [hs]
    exact ⟨k, List.mem_range.mp hk, List.mem_of_find?_eq_some hd, by simpa using List.find?_some hd⟩

-- The digits with which a double is written identify it.
theorem nearest?_shortest (hz : 0 < n) (hn : n < infinity) : (shortest n).nearest? = some n := by
  have ⟨_, _, _, h⟩ := exists_shortest hz hn
  exact h

theorem coefficient_shortest_le (hz : 0 < n) (hn : n < infinity) :
    (shortest n).coefficient ≤ 10 ^ 17 := by
  have ⟨k, hk, hm, _⟩ := exists_shortest hz hn
  exact (coefficient_neighbours_le hz hm).trans (Nat.pow_le_pow_right (by decide) (by omega))

end Abacus.Decimal
