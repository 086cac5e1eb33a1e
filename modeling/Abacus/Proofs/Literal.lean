import Abacus.Decimal.Literal
import Abacus.Proofs.Range

namespace Abacus.Decimal

structure IsReadable (s : List Char) : Prop where
  digits : ∀ c ∈ s, c.isDigit ∨ c = '.'
  point  : s.count '.' ≤ 1
  -- The number that all digits write, against as many tens as there are digits behind the point.
  finite : Nat.ofDigitChars 10 (s.filter (· ≠ '.')) 0 <
    Binary64.overflow * 10 ^ (fractionDigits s).length

variable {s t : List Char} {c : Char}

theorem wholeDigits_point (s : List Char) : wholeDigits ('.' :: s) = [] := by
  simp [wholeDigits]

theorem fractionDigits_point (s : List Char) : fractionDigits ('.' :: s) = s := by
  simp [fractionDigits]

theorem wholeDigits_cons (h : c ≠ '.') (s : List Char) :
    wholeDigits (c :: s) = c :: wholeDigits s := by
  simp [wholeDigits, h]

theorem fractionDigits_cons (h : c ≠ '.') (s : List Char) :
    fractionDigits (c :: s) = fractionDigits s := by
  simp [fractionDigits, h]

theorem not_isDigit_point : ¬Char.isDigit '.' := by
  decide

theorem forall_isDigit_iff (s : List Char) :
    (∀ c ∈ s, c.isDigit) ↔ (∀ c ∈ s, c.isDigit ∨ c = '.') ∧ '.' ∉ s where
  mp h := ⟨fun c hc => .inl (h c hc), fun hp => not_isDigit_point (h '.' hp)⟩
  mpr := fun ⟨h, hp⟩ c hc => (h c hc).resolve_right fun e => hp (e ▸ hc)

theorem forall_isDigit_parts_iff (s : List Char) :
    (∀ c ∈ wholeDigits s ++ fractionDigits s, c.isDigit) ↔
      (∀ c ∈ s, c.isDigit ∨ c = '.') ∧ s.count '.' ≤ 1 := by
  induction s
  case nil => simp [wholeDigits, fractionDigits]
  case cons c s ih =>
    by_cases h : c = '.'
    case pos =>
      subst h
      rw [wholeDigits_point, fractionDigits_point, List.nil_append, forall_isDigit_iff]
      simp [List.count_eq_zero]
    case neg =>
      rw [wholeDigits_cons h, fractionDigits_cons h, List.cons_append, List.forall_mem_cons, ih]
      simp [h, and_assoc]

theorem filter_eq_append (h : s.count '.' ≤ 1) :
    s.filter (· ≠ '.') = wholeDigits s ++ fractionDigits s := by
  induction s
  case nil => rfl
  case cons c s ih =>
    by_cases hc : c = '.'
    case pos =>
      subst hc
      rw [wholeDigits_point, fractionDigits_point, List.nil_append]
      have hp : '.' ∉ s := by simpa [List.count_eq_zero] using h
      simp
      exact fun c hs e => hp (e ▸ hs)
    case neg =>
      rw [wholeDigits_cons hc, fractionDigits_cons hc]
      simp [hc] at h ih ⊢
      exact ih h

theorem fractionDigits_append (h : '.' ∈ s) (t : List Char) :
    fractionDigits (s ++ t) = fractionDigits s ++ t := by
  induction s
  case nil => simp at h
  case cons a s ih =>
    by_cases ha : a = '.'
    case pos => rw [ha, List.cons_append, fractionDigits_point, fractionDigits_point]
    case neg =>
      rw [List.cons_append, fractionDigits_cons ha, fractionDigits_cons ha,
        ih (List.mem_of_ne_of_mem (Ne.symm ha) h)]

theorem fractionDigits_append_of_not_mem (h : '.' ∉ s) (t : List Char) :
    fractionDigits (s ++ t) = fractionDigits t := by
  induction s
  case nil => rfl
  case cons a s ih =>
    rw [List.mem_cons, not_or] at h
    rw [List.cons_append, fractionDigits_cons (Ne.symm h.left), ih h.right]

-- Of what is written behind a text, no more than its digits stand behind the point.
theorem length_fractionDigits_append (h : (s ++ t).count '.' ≤ 1) :
    (fractionDigits (s ++ t)).length ≤ (fractionDigits s).length + (t.filter (· ≠ '.')).length := by
  rw [List.count_append] at h
  by_cases hp : '.' ∈ s
  case pos =>
    have hs := List.count_pos_iff.mpr hp
    have ht : '.' ∉ t := List.count_eq_zero.mp (by omega)
    have hf : t.filter (· ≠ '.') = t :=
      List.filter_eq_self.mpr fun a ha => decide_eq_true (ne_of_mem_of_not_mem ha ht)
    rw [fractionDigits_append hp, hf, List.length_append]
  case neg =>
    rw [fractionDigits_append_of_not_mem hp, filter_eq_append (by omega), List.length_append]
    omega

-- What is written behind a text makes its number no smaller.
theorem IsReadable.of_append (h : IsReadable (s ++ t)) : IsReadable s where
  digits c hc := h.digits c (List.mem_append_left _ hc)
  point  := (List.sublist_append_left s t).count_le '.' |>.trans h.point
  finite := by
    have hf := h.finite
    rw [List.filter_append, Nat.ofDigitChars_append, Nat.ofDigitChars_eq_ofDigitChars_zero] at hf
    have hl := Nat.pow_le_pow_right (Nat.zero_lt_succ 9) (length_fractionDigits_append h.point)
    rw [Nat.pow_add] at hl
    refine Nat.lt_of_mul_lt_mul_left (a := 10 ^ (t.filter (· ≠ '.')).length) ?_
    calc 10 ^ (t.filter (· ≠ '.')).length * Nat.ofDigitChars 10 (s.filter (· ≠ '.')) 0
      _ ≤ 10 ^ (t.filter (· ≠ '.')).length * Nat.ofDigitChars 10 (s.filter (· ≠ '.')) 0 +
            Nat.ofDigitChars 10 (t.filter (· ≠ '.')) 0 := Nat.le_add_right _ _
      _ < Binary64.overflow * 10 ^ (fractionDigits (s ++ t)).length := hf
      _ ≤ Binary64.overflow *
            (10 ^ (fractionDigits s).length * 10 ^ (t.filter (· ≠ '.')).length) :=
        Nat.mul_le_mul_left _ hl
      _ = 10 ^ (t.filter (· ≠ '.')).length *
            (Binary64.overflow * 10 ^ (fractionDigits s).length) := by
        rw [← Nat.mul_assoc, Nat.mul_comm]

theorem doubleOfLiteral?_isSome_iff (ne : ∃ c ∈ s, c ≠ '.') :
    (doubleOfLiteral? s).isSome ↔ IsReadable s := by
  have hd := forall_isDigit_parts_iff s
  simp only [doubleOfLiteral?, ofLiteral?, ← List.all_eq_true] at hd ⊢
  by_cases h : (wholeDigits s ++ fractionDigits s).all Char.isDigit
  case neg =>
    have hr : ¬IsReadable s := fun r => h (hd.mpr ⟨r.digits, r.point⟩)
    simp [h, hr]
  case pos =>
    obtain ⟨digits, point⟩ := hd.mp h
    have hf := filter_eq_append point
    have hn : wholeDigits s ++ fractionDigits s ≠ [] := by
      obtain ⟨c, hc, hp⟩ := ne
      exact hf ▸ List.ne_nil_of_mem (List.mem_filter.mpr ⟨hc, decide_eq_true hp⟩)
    have hv := nearest?_isSome_iff
      ⟨Nat.ofDigitChars 10 (s.filter (· ≠ '.')) 0, -(fractionDigits s).length⟩
    simp only [Int.neg_neg, Int.toNat_natCast, Int.toNat_neg_natCast, Nat.pow_zero,
      Nat.mul_one] at hv
    rw [if_pos ⟨hn, h⟩, ← hf, Option.bind_some, Option.isSome_map, hv]
    exact ⟨fun finite => ⟨digits, point, finite⟩, fun r => r.finite⟩

end Abacus.Decimal
