import Abacus.Json.Number
import Abacus.Proofs.Segments
import Mathlib.Algebra.Group.Nat.Defs
import Mathlib.Tactic.SplitIfs

namespace Abacus.Json

def IsDigits (s : List Char) : Prop :=
  s ≠ [] ∧ ∀ c ∈ s, c.isDigit

-- Digits in front of the point: no zero stands in front of others.
def IsWhole (s : List Char) : Prop :=
  IsDigits s ∧ (s.head? = some '0' → s = ['0'])

-- The digits behind the point and how they are written with it.
inductive IsFraction : List Char → List Char → Prop
  | none : IsFraction [] []
  | digits {s : List Char} : IsDigits s → IsFraction s ('.' :: s)

inductive IsExponent : Option Int → List Char → Prop
  | none : IsExponent none []
  | unsigned {l : Char} {s : List Char} :
    l ∈ ['e', 'E'] → IsDigits s → IsExponent (some (Nat.ofDigitChars 10 s 0)) (l :: s)
  | plus {l : Char} {s : List Char} :
    l ∈ ['e', 'E'] → IsDigits s → IsExponent (some (Nat.ofDigitChars 10 s 0)) (l :: '+' :: s)
  | minus {l : Char} {s : List Char} :
    l ∈ ['e', 'E'] → IsDigits s → IsExponent (some (-Nat.ofDigitChars 10 s 0)) (l :: '-' :: s)

def signText (negative : Bool) : List Char :=
  if negative then ['-'] else []

inductive Number.IsSpelled : Number → List Char → Prop
  | parts {whole fraction f e : List Char} {exponent : Option Int} (negative : Bool) :
    IsWhole whole → IsFraction fraction f → IsExponent exponent e →
    IsSpelled
      ⟨negative, Nat.ofDigitChars 10 (whole ++ fraction) 0, fraction.length, exponent⟩
      (signText negative ++ whole ++ f ++ e)

namespace Number

variable {s rest whole fraction f e : List Char} {exponent : Option Int} {n : Number} {k m : Nat}

theorem takeDigits_append (hs : ∀ c ∈ s, c.isDigit) (hr : ∀ c ∈ rest.head?, ¬c.isDigit) :
    (s ++ rest).takeWhile Char.isDigit = s ∧ (s ++ rest).dropWhile Char.isDigit = rest :=
  takeWhile_dropWhile_eq_iff.mpr ⟨rfl, hs, by simpa using hr⟩

theorem takeSign_append (h : IsWhole whole) (negative : Bool) (rest : List Char) :
    takeSign (signText negative ++ (whole ++ rest)) = (negative, whole ++ rest) := by
  have ⟨ne, digits⟩ := h.left
  cases negative
  case true => rfl
  case false =>
    cases whole
    case nil => exact absurd rfl ne
    case cons c whole =>
      have hc : c ≠ '-' := by
        rintro rfl
        exact absurd (digits '-' (by simp)) (by decide)
      change takeSign (c :: (whole ++ rest)) = _
      unfold takeSign
      split
      case h_1 e => exact absurd (List.cons.inj e).left hc
      case h_2 => rfl

theorem takeWhole?_append (h : IsWhole whole) (hr : ∀ c ∈ rest.head?, ¬c.isDigit) :
    takeWhole? (whole ++ rest) = some (whole, rest) := by
  have ⟨⟨ne, digits⟩, zero⟩ := h
  have ⟨ht, hd⟩ := takeDigits_append digits hr
  have hw : ¬(whole = [] ∨ whole.head? = some '0' ∧ whole ≠ ['0']) := by
    rintro (e | ⟨hz, hn⟩)
    · exact ne e
    · exact hn (zero hz)
  simp only [takeWhole?, ht, hd, if_neg hw]

theorem takeFraction?_append (h : IsFraction fraction f)
    (hr : ∀ c ∈ rest.head?, ¬c.isDigit ∧ c ≠ '.') :
    takeFraction? (f ++ rest) = some (fraction, rest) := by
  cases h
  case none =>
    cases rest
    case nil => rfl
    case cons c rest =>
      have ⟨_, hc⟩ := hr c rfl
      change takeFraction? (c :: rest) = _
      unfold takeFraction?
      split
      case h_1 e => exact absurd (List.cons.inj e).left hc
      case h_2 => rfl
  case digits hf =>
    have ⟨ne, digits⟩ := hf
    have ⟨ht, hd⟩ := takeDigits_append digits fun c hc => (hr c hc).left
    simp only [List.cons_append, takeFraction?, ht, hd, if_neg ne]

theorem magnitude?_of_isDigits (h : IsDigits s) :
    magnitude? s = some (Nat.ofDigitChars 10 s 0) :=
  if_pos ⟨h.left, List.all_eq_true.mpr h.right⟩

theorem readExponent?_of_isDigits (h : IsDigits s) :
    readExponent? s = some (Nat.ofDigitChars 10 s 0 : Int) := by
  have hs (c : Char) (hc : ¬c.isDigit) (s' : List Char) : s ≠ c :: s' := by
    rintro rfl
    exact hc (h.right c (by simp))
  unfold readExponent?
  split
  case h_1 => exact absurd rfl (hs '+' (by decide) _)
  case h_2 => exact absurd rfl (hs '-' (by decide) _)
  case h_3 => rw [magnitude?_of_isDigits h]; rfl

theorem readExponent?_plus (h : IsDigits s) :
    readExponent? ('+' :: s) = some (Nat.ofDigitChars 10 s 0 : Int) := by
  rw [readExponent?, magnitude?_of_isDigits h]
  rfl

theorem readExponent?_minus (h : IsDigits s) :
    readExponent? ('-' :: s) = some (-(Nat.ofDigitChars 10 s 0 : Int)) := by
  rw [readExponent?, magnitude?_of_isDigits h]
  rfl

theorem head?_of_isExponent (h : IsExponent exponent e) :
    ∀ c ∈ e.head?, ¬c.isDigit ∧ c ≠ '.' := by
  have table : ∀ c ∈ ['e', 'E'], ¬c.isDigit ∧ c ≠ '.' :=
    List.forall_mem_cons.mpr ⟨by decide, List.forall_mem_singleton.mpr (by decide)⟩
  cases h
  case none => simp
  all_goals
    rename_i l s hl _
    intro c hc
    cases hc
    exact table _ hl

theorem head?_of_isFraction (h : IsFraction fraction f) (he : IsExponent exponent e) :
    ∀ c ∈ (f ++ e).head?, ¬c.isDigit := by
  cases h
  case none => exact fun c hc => (head?_of_isExponent he c hc).left
  case digits =>
    intro c hc
    cases hc
    decide

-- A text of the grammar is read as the number that it spells.
theorem IsSpelled.ofText?_eq (h : n.IsSpelled s) : ofText? s = some n := by
  cases h
  case parts whole fraction f e exponent negative hw hf he =>
    have hs : signText negative ++ whole ++ f ++ e = signText negative ++ (whole ++ (f ++ e)) := by
      simp only [List.append_assoc]
    rw [ofText?, hs, takeSign_append hw]
    simp only [takeWhole?_append hw (head?_of_isFraction hf he),
      takeFraction?_append hf (head?_of_isExponent he), Option.bind_eq_bind, Option.bind_some]
    cases he
    case none => rfl
    case unsigned l s hl hd =>
      have : l = 'e' ∨ l = 'E' := by simpa using hl
      rcases this with rfl | rfl <;> simp only [readExponent?_of_isDigits hd, Option.bind_some]
    case plus l s hl hd =>
      have : l = 'e' ∨ l = 'E' := by simpa using hl
      rcases this with rfl | rfl <;> simp only [readExponent?_plus hd, Option.bind_some]
    case minus l s hl hd =>
      have : l = 'e' ∨ l = 'E' := by simpa using hl
      rcases this with rfl | rfl <;> simp only [readExponent?_minus hd, Option.bind_some]

theorem isDigits_toDigits (k : Nat) : IsDigits (Nat.toDigits 10 k) :=
  ⟨Nat.toDigits_ne_nil, fun _ hc => Nat.isDigit_of_mem_toDigits (by decide) (by decide) hc⟩

theorem head?_toDigits (h : 0 < k) : (Nat.toDigits 10 k).head? ≠ some '0' := by
  induction k using Nat.strongRecOn
  case ind k ih =>
    rw [Nat.toDigits_eq_if (by decide)]
    split_ifs with hk
    case pos =>
      have table : ∀ k < 10, 0 < k → [Nat.digitChar k].head? ≠ some '0' := by decide
      exact table k hk h
    case neg =>
      rw [List.head?_append, Option.or_of_isSome (by simp)]
      exact ih (k / 10) (by omega) (by omega)

theorem isWhole_toDigits (k : Nat) : IsWhole (Nat.toDigits 10 k) := by
  refine ⟨isDigits_toDigits k, fun h => ?_⟩
  by_cases hk : 0 < k
  case pos => exact absurd h (head?_toDigits hk)
  case neg =>
    obtain rfl : k = 0 := by omega
    exact Nat.toDigits_zero 10

theorem length_padded (hk : 0 < k) (h : m < 10 ^ k) : (padded k m).length = k := by
  have hl := (Nat.length_toDigits_le_iff (by decide) hk).mpr h
  rw [padded, List.length_append, List.length_replicate]
  omega

theorem ofDigitChars_padded (k m : Nat) : Nat.ofDigitChars 10 (padded k m) 0 = m := by
  rw [padded, Nat.ofDigitChars_append, Nat.ofDigitChars_replicate_zero, Nat.mul_zero]
  exact Nat.ofDigitChars_ten_toDigits

theorem isDigits_padded (k m : Nat) : IsDigits (padded k m) := by
  have ⟨ne, digits⟩ := isDigits_toDigits m
  refine ⟨List.append_ne_nil_of_right_ne_nil _ ne, fun c hc => ?_⟩
  rcases List.mem_append.mp hc with hc | hc
  · rw [(List.mem_replicate.mp hc).right]
    rfl
  · exact digits c hc

theorem length_fraction (n : Number) : n.fraction.length = n.places := by
  unfold fraction
  split_ifs with h
  case pos => exact h.symm
  case neg =>
    exact length_padded (Nat.pos_of_ne_zero h) (Nat.mod_lt _ (Nat.pow_pos (by decide)))

theorem isFraction_fractionText (n : Number) : IsFraction n.fraction n.fractionText := by
  unfold fractionText
  by_cases h : n.places = 0
  case pos =>
    rw [if_pos h, fraction, if_pos h]
    exact .none
  case neg =>
    rw [if_neg h]
    refine .digits ?_
    rw [fraction, if_neg h]
    exact isDigits_padded ..

theorem isExponent_exponentText (n : Number) : IsExponent n.exponent n.exponentText := by
  unfold exponentText
  split
  case h_1 h => exact h ▸ .none
  case h_2 x h =>
    rw [h]
    have hd := isDigits_toDigits x.natAbs
    have hn : Nat.ofDigitChars 10 (Nat.toDigits 10 x.natAbs) 0 = x.natAbs :=
      Nat.ofDigitChars_ten_toDigits
    split_ifs with hx
    case pos =>
      have e := IsExponent.minus (l := 'e') (by simp) hd
      rwa [hn, Int.ofNat_natAbs_of_nonpos (by omega), Int.neg_neg] at e
    case neg =>
      have e := IsExponent.plus (l := 'e') (by simp) hd
      rwa [hn, Int.natAbs_of_nonneg (by omega)] at e

theorem ofDigitChars_whole_fraction (n : Number) :
    Nat.ofDigitChars 10 (n.whole ++ n.fraction) 0 = n.coefficient := by
  rw [whole, Nat.ofDigitChars_append, Nat.ofDigitChars_ten_toDigits]
  unfold fraction
  split_ifs with h
  case pos => simp [h]
  case neg =>
    have hp : 0 < n.places := Nat.pos_of_ne_zero h
    rw [Nat.ofDigitChars_eq_ofDigitChars_zero, ofDigitChars_padded,
      length_padded hp (Nat.mod_lt _ (Nat.pow_pos (by decide)))]
    exact Nat.div_add_mod ..

-- Numbers are written as the grammar has it.
theorem isSpelled_text (n : Number) : n.IsSpelled n.text := by
  have hw : IsWhole n.whole := isWhole_toDigits _
  have h := IsSpelled.parts n.negative hw n.isFraction_fractionText n.isExponent_exponentText
  rwa [n.ofDigitChars_whole_fraction, n.length_fraction] at h

end Number

end Abacus.Json
