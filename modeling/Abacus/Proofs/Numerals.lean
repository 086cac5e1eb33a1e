import Abacus.Numeral
import Mathlib.Data.List.Forall2
import Mathlib.Data.Nat.Digits.Defs

namespace Abacus

-- The character stands for the value as a digit of the base, in either case.
structure IsDigit (base : Nat) (c : Char) (d : Nat) : Prop where
  lt   : d < base
  char : c = d.digitChar ∨ c = d.digitChar.toUpper

variable {base d n : Nat} {c : Char} {s t u : List Char} {ds : List Nat}

theorem digit?_eq_filter (hb : base ≤ 16) (c : Char) :
    digit? base c = (digit? 16 c).filter (· < base) := by
  unfold digit?
  extract_lets value
  by_cases h : value < base
  case pos => rw [if_pos h, if_pos (h.trans_le hb), Option.filter_some, if_pos (decide_eq_true h)]
  case neg =>
    rw [if_neg h]
    split
    case isTrue => rw [Option.filter_some, if_neg (by simpa using h)]
    case isFalse => rfl

theorem toNat_digitChar (hd : d < 16) :
    d.digitChar.toNat = (if d < 10 then d + 48 else d + 87) ∧
      d.digitChar.toUpper.toNat = if d < 10 then d + 48 else d + 55 := by
  revert d
  decide

theorem isDigit_of_digit?_sixteen (h : digit? 16 c = some d) : IsDigit 16 c d := by
  simp only [digit?, Option.ite_none_right_eq_some, Option.some.injEq] at h
  obtain ⟨lt, rfl⟩ := h
  refine ⟨lt, ?_⟩
  obtain ⟨hl, hu⟩ := toNat_digitChar lt
  rw [← Char.toNat_inj, ← Char.toNat_inj, hl, hu]
  simp only [Char.isDigit, Char.le_def, UInt32.le_iff_toNat_le, Bool.and_eq_true,
    decide_eq_true_eq, ge_iff_le, Char.reduceVal, UInt32.reduceToNat, Char.toNat] at lt ⊢
  split_ifs at lt ⊢ <;> omega

theorem digit?_sixteen_eq_some_iff : digit? 16 c = some d ↔ IsDigit 16 c d where
  mp h := isDigit_of_digit?_sixteen h
  mpr := by
    have h : ∀ d < 16, digit? 16 d.digitChar = some d ∧ digit? 16 d.digitChar.toUpper = some d := by
      decide
    rintro ⟨lt, rfl | rfl⟩
    · exact (h d lt).left
    · exact (h d lt).right

theorem digit?_eq_some_iff (hb : base ≤ 16) : digit? base c = some d ↔ IsDigit base c d := by
  rw [digit?_eq_filter hb, Option.filter_eq_some_iff, digit?_sixteen_eq_some_iff,
    decide_eq_true_iff]
  exact ⟨fun ⟨h, lt⟩ => ⟨lt, h.char⟩, fun h => ⟨⟨h.lt.trans_le hb, h.char⟩, h.lt⟩⟩

theorem digit?_ten (c : Char) :
    digit? 10 c = if c.isDigit then some (c.toNat - '0'.toNat) else none := by
  simp only [digit?, Char.isDigit, Char.le_def, UInt32.le_iff_toNat_le, Bool.and_eq_true,
    decide_eq_true_eq, ge_iff_le, Char.reduceVal, UInt32.reduceToNat, Char.toNat]
  split_ifs <;> first | rfl | omega

namespace Numeral

-- The text is a numeral of the base, for the number `n`. Zeros may stand in front.
structure Writes (base : Nat) (s : List Char) (n : Nat) : Prop where
  ne     : s ≠ []
  digits : ∃ ds, List.Forall₂ (IsDigit base) s ds ∧ n = Nat.ofDigits base ds.reverse

-- The numeral of a number that sixty-four bits can hold.
def IsWord (s : List Char) (n : Nat) : Prop :=
  n < 2 ^ 64 ∧ ∃ t, (s = t ∨ s = '+' :: t) ∧ Writes 10 t n

-- The text does not start with a digit.
def Ends (base : Nat) (s : List Char) : Prop :=
  ∀ c ∈ s.head?, digit? base c = none

theorem takeDigits_append (h : List.Forall₂ (fun c d => digit? base c = some d) u ds)
    (ht : Ends base t) : takeDigits base (u ++ t) = (ds, t) := by
  induction h
  case nil =>
    cases t
    case nil => rfl
    case cons c t => simp only [List.nil_append, takeDigits, ht c rfl]
  case cons hc _ ih => simp only [List.cons_append, takeDigits, hc, ih]

theorem takeDigits_eq_iff :
    takeDigits base s = (ds, t) ↔
      ∃ u, s = u ++ t ∧ List.Forall₂ (fun c d => digit? base c = some d) u ds ∧ Ends base t where
  mp h := by
    induction s generalizing ds
    case nil =>
      cases h
      exact ⟨[], rfl, .nil, nofun⟩
    case cons c s ih =>
      simp only [takeDigits] at h
      split at h <;> cases h
      case h_1 d hc =>
        obtain ⟨u, e, hu, ht⟩ := ih rfl
        exact ⟨c :: u, congrArg (c :: ·) e, .cons hc hu, ht⟩
      case h_2 hc => exact ⟨[], rfl, .nil, fun _ e => Option.some.inj e ▸ hc⟩
  mpr := fun ⟨_, e, hu, ht⟩ => e ▸ takeDigits_append hu ht

theorem ends_cons (h : digit? base c = none) (s : List Char) : Ends base (c :: s) :=
  fun _ e => Option.some.inj e ▸ h

namespace Writes

theorem exists_takeDigits (hb : base ≤ 16) (h : Writes base u n) (ht : Ends base t) :
    ∃ ds, List.Forall₂ (IsDigit base) u ds ∧ takeDigits base (u ++ t) = (ds, t) := by
  obtain ⟨_, ds, hd, _⟩ := h
  exact ⟨ds, hd, takeDigits_append (hd.imp fun _ _ => (digit?_eq_some_iff hb).mpr) ht⟩

theorem not_ends (hb : base ≤ 16) (h : Writes base u n) : ¬Ends base (u ++ t) := by
  obtain ⟨ne, ds, hd, -⟩ := h
  intro he
  rcases hd with _ | ⟨hc, _⟩
  case nil => exact ne rfl
  case cons =>
    have hn := he _ rfl
    rw [(digit?_eq_some_iff hb).mpr hc] at hn
    cases hn

-- Numerals end at the same place if digits of either base do not follow them.
theorem behind_eq (hb : base ≤ 16) {base' m : Nat} {v w : List Char} (h : Writes base u n)
    (ht : Ends base t) (hle : base' ≤ base) (h' : Writes base' v m) (hw : Ends base w)
    (e : u ++ t = v ++ w) : t = w := by
  obtain ⟨_, ds, hd, _⟩ := h'
  have hv := hd.imp fun _ _ h => (digit?_eq_some_iff hb).mpr ⟨h.lt.trans_le hle, h.char⟩
  obtain ⟨_, _, hu⟩ := h.exists_takeDigits hb ht
  rw [e, takeDigits_append hv hw] at hu
  exact (Prod.mk.inj hu).right.symm

end Writes

theorem value_eq_ofDigits (base : Nat) (ds : List Nat) :
    value base ds = Nat.ofDigits base ds.reverse := by
  rw [Nat.ofDigits_eq_foldr, List.foldr_reverse, value]
  congr
  funext n d
  rw [Nat.mul_comm, Nat.add_comm]
  rfl

theorem forall₂_isDigit_ten_iff :
    List.Forall₂ (IsDigit 10) s ds ↔
      (∀ c ∈ s, c.isDigit) ∧ ds = s.map fun c => c.toNat - '0'.toNat := by
  induction s generalizing ds
  case nil => simp [List.forall₂_nil_left_iff]
  case cons c s ih =>
    cases ds
    case nil => simp [List.forall₂_nil_right_iff]
    case cons d ds =>
      rw [List.forall₂_cons, ih, ← digit?_eq_some_iff (by decide), digit?_ten]
      simp only [Option.ite_none_right_eq_some, Option.some.injEq, List.forall_mem_cons,
        List.map_cons, List.cons.injEq, eq_comm (a := d)]
      tauto

theorem writes_ten_iff :
    Writes 10 s n ↔ s ≠ [] ∧ (∀ c ∈ s, c.isDigit) ∧ n = Nat.ofDigitChars 10 s 0 := by
  have hv : Nat.ofDigitChars 10 s 0 =
      Nat.ofDigits 10 (s.map fun c => c.toNat - '0'.toNat).reverse := by
    simp [← value_eq_ofDigits, Nat.ofDigitChars, value, List.foldl_map, Nat.mul_comm]
  constructor
  case mp =>
    rintro ⟨ne, ds, hd, rfl⟩
    obtain ⟨digits, rfl⟩ := forall₂_isDigit_ten_iff.mp hd
    exact ⟨ne, digits, hv.symm⟩
  case mpr =>
    rintro ⟨ne, digits, rfl⟩
    exact ⟨ne, _, forall₂_isDigit_ten_iff.mpr ⟨digits, rfl⟩, hv⟩

theorem not_writes_plus (s : List Char) (n : Nat) : ¬Writes 10 ('+' :: s) n := by
  intro h
  exact absurd ((writes_ten_iff.mp h).right.left '+' List.mem_cons_self) (by decide)

theorem ofText?_eq_some_iff :
    ofText? s = some n ↔ ∃ t, (s = t ∨ s = '+' :: t) ∧ Writes 10 t n := by
  have digits (t : List Char) : (if t ≠ [] ∧ t.all Char.isDigit then
      some (Nat.ofDigitChars 10 t 0) else none) = some n ↔ Writes 10 t n := by
    rw [writes_ten_iff, Option.ite_none_right_eq_some, List.all_eq_true, and_assoc,
      Option.some.injEq, eq_comm (a := n)]
  unfold ofText?
  rw [digits]
  split
  case h_1 s =>
    refine ⟨fun h => ⟨s, .inr rfl, h⟩, ?_⟩
    rintro ⟨t, rfl | e, h⟩
    · exact absurd h (not_writes_plus s n)
    · exact (List.cons.inj e).right ▸ h
  case h_2 plain =>
    refine ⟨fun h => ⟨s, .inl rfl, h⟩, ?_⟩
    rintro ⟨t, rfl | e, h⟩
    · exact h
    · exact absurd e (plain t)

theorem word?_eq_some_iff : word? s = some n ↔ IsWord s n := by
  rw [word?, Option.filter_eq_some_iff, ofText?_eq_some_iff, decide_eq_true_iff, and_comm, IsWord]

example : word? "+007".toList = some 7 ∧ word? "++1".toList = none := by decide

end Numeral

end Abacus
