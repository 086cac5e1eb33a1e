import Abacus.Net.Reading
import Abacus.Proofs.Numerals

namespace Abacus.Net

open Numeral

-- Zeros in front are not allowed.
structure IsOctet (s : List Char) (n : UInt8) : Prop where
  writes : Writes 10 s n.toNat
  zero   : s.head? = some '0' → s = ['0']

inductive IPv4.IsWritten : IPv4 → List Char → Prop
  | octets {a b c d : UInt8} {s t u v : List Char} :
    IsOctet s a → IsOctet t b → IsOctet u c → IsOctet v d →
    IsWritten ⟨a, b, c, d⟩ (s ++ '.' :: (t ++ '.' :: (u ++ '.' :: v)))

structure IsGroup (s : List Char) (g : UInt16) : Prop where
  writes : Writes 16 s g.toNat
  length : s.length ≤ 4

-- At least one group, with a colon between any two. Octets may stand for the last two.
inductive IsRow : Groups → List Char → Prop
  | group {g : UInt16} {s : List Char} : IsGroup s g → IsRow ⟨[g], false⟩ s
  | octets {a : IPv4} {s : List Char} : a.IsWritten s → IsRow ⟨a.groups, true⟩ s
  | cons {g : UInt16} {row : Groups} {s t : List Char} :
    IsGroup s g → IsRow row t → IsRow ⟨g :: row.groups, row.octets⟩ (s ++ ':' :: t)

-- What may stand on either side of `::`.
inductive IsSide : Groups → List Char → Prop
  | empty : IsSide ⟨[], false⟩ []
  | row {row : Groups} {s : List Char} : IsRow row s → IsSide row s

inductive IPv6.IsWritten : IPv6 → List Char → Prop
  | full {a : IPv6} {row : Groups} {s : List Char} :
    IsRow row s → a.groups = row.groups → IsWritten a s
  | short {a : IPv6} {front back : Groups} {s t : List Char} {n : Nat} :
    IsSide front s → front.octets = false → IsSide back t → 0 < n →
    a.groups = front.groups ++ List.replicate n 0 ++ back.groups →
    IsWritten a (s ++ ':' :: ':' :: t)

inductive IsScope : UInt32 → List Char → Prop
  | absent : IsScope 0 []
  | given {scope : UInt32} {s : List Char} : Writes 10 s scope.toNat → IsScope scope ('%' :: s)

inductive Endpoint.IsWritten : Endpoint → List Char → Prop
  | v4 {host : IPv4} {port : UInt16} {s t : List Char} :
    host.IsWritten s → Writes 10 t port.toNat → IsWritten (.v4 host port) (s ++ ':' :: t)
  | v6 {host : IPv6} {scope : UInt32} {port : UInt16} {s t u : List Char} :
    host.IsWritten s → IsScope scope t → Writes 10 u port.toNat →
    IsWritten (.v6 host scope port) ('[' :: (s ++ (t ++ ']' :: ':' :: u)))

variable {c : Char} {s t u v : List Char} {base bound n slots : Nat} {first : Bool} {row : Groups}
  {a : IPv4} {g : UInt16} {port : UInt16} {scope : UInt32}

theorem expect?_eq_some_iff : expect? c s = some t ↔ s = c :: t := by
  cases s
  case nil => simp [expect?]
  case cons d s =>
    rw [expect?, Option.ite_none_right_eq_some, Option.some.injEq, List.cons.injEq]

theorem takeNumber?_eq_some_iff (hb : base ≤ 16) :
    takeNumber? base bound s = some (n, t) ↔
      ∃ u, s = u ++ t ∧ (Writes base u n ∧ n < bound) ∧ Ends base t := by
  have hd {c : Char} {d : Nat} : digit? base c = some d ↔ IsDigit base c d := digit?_eq_some_iff hb
  constructor
  case mp =>
    intro h
    rcases e : takeDigits base s with ⟨ds, r⟩
    simp only [takeNumber?, e, Option.ite_none_right_eq_some, Option.some.injEq,
      Prod.mk.injEq] at h
    obtain ⟨⟨ne, lt⟩, rfl, rfl⟩ := h
    obtain ⟨u, rfl, hu, ht⟩ := takeDigits_eq_iff.mp e
    refine ⟨u, rfl, ⟨⟨?_, ds, hu.imp fun _ _ => hd.mp, value_eq_ofDigits base ds⟩, lt⟩, ht⟩
    rintro rfl
    cases hu
    exact ne rfl
  case mpr =>
    rintro ⟨u, rfl, ⟨⟨ne, ds, hu, rfl⟩, lt⟩, ht⟩
    have nds : ds ≠ [] := by
      rintro rfl
      cases hu
      exact ne rfl
    rw [← value_eq_ofDigits] at lt ⊢
    simp only [takeNumber?, takeDigits_append (hu.imp fun _ _ => hd.mpr) ht]
    exact if_pos ⟨nds, lt⟩

-- The numbers of a type are those below the bound.
structure Counts {α : Type} (bound : Nat) (toNat : α → Nat) (ofNat : Nat → α) : Prop where
  lt          : ∀ x, toNat x < bound
  ofNat_toNat : ∀ x, ofNat (toNat x) = x
  toNat_ofNat : ∀ n < bound, toNat (ofNat n) = n

theorem counts_uint8 : Counts (2 ^ 8) UInt8.toNat Nat.toUInt8 where
  lt            := UInt8.toNat_lt
  ofNat_toNat _ := UInt8.ofNat_toNat
  toNat_ofNat _ := UInt8.toNat_ofNat_of_lt'

theorem counts_uint16 : Counts (2 ^ 16) UInt16.toNat Nat.toUInt16 where
  lt            := UInt16.toNat_lt
  ofNat_toNat _ := UInt16.ofNat_toNat
  toNat_ofNat _ := UInt16.toNat_ofNat_of_lt'

theorem counts_uint32 : Counts (2 ^ 32) UInt32.toNat Nat.toUInt32 where
  lt            := UInt32.toNat_lt
  ofNat_toNat _ := UInt32.ofNat_toNat
  toNat_ofNat _ := UInt32.toNat_ofNat_of_lt'

theorem Counts.takeNumber?_iff {α : Type} {toNat : α → Nat} {ofNat : Nat → α}
    (h : Counts bound toNat ofNat) (hb : base ≤ 16) {x : α} :
    (∃ n, takeNumber? base bound s = some (n, t) ∧ ofNat n = x) ↔
      ∃ u, s = u ++ t ∧ Writes base u (toNat x) ∧ Ends base t := by
  simp only [takeNumber?_eq_some_iff hb]
  constructor
  case mp =>
    rintro ⟨n, ⟨u, e, ⟨hw, lt⟩, ht⟩, rfl⟩
    exact ⟨u, e, (h.toNat_ofNat n lt).symm ▸ hw, ht⟩
  case mpr =>
    rintro ⟨u, e, hw, ht⟩
    exact ⟨toNat x, ⟨u, e, ⟨hw, h.lt x⟩, ht⟩, h.ofNat_toNat x⟩

theorem takePort?_eq_some_iff :
    takePort? s = some (port, t) ↔
      ∃ u, s = ':' :: (u ++ t) ∧ Writes 10 u port.toNat ∧ Ends 10 t := by
  have hn {s : List Char} := counts_uint16.takeNumber?_iff (s := s) (t := t) (x := port)
    (show 10 ≤ 16 by decide)
  simp only [takePort?, bind, Option.bind_eq_some_iff, Prod.exists, expect?_eq_some_iff,
    Option.some.injEq, Prod.mk.injEq]
  constructor
  case mp =>
    rintro ⟨s, rfl, n, _, h, e, rfl⟩
    obtain ⟨u, rfl, hw⟩ := hn.mp ⟨n, h, e⟩
    exact ⟨u, rfl, hw⟩
  case mpr =>
    rintro ⟨u, rfl, hw⟩
    obtain ⟨n, h, e⟩ := hn.mpr ⟨u, rfl, hw⟩
    exact ⟨_, rfl, n, t, h, e, rfl⟩

theorem isDigit_zero_iff {d : Nat} (h : IsDigit 10 c d) : d = 0 ↔ c = '0' := by
  constructor
  case mp =>
    rintro rfl
    exact h.char.elim id id
  case mpr =>
    rintro rfl
    exact Option.some.inj ((digit?_eq_some_iff (by decide)).mpr h).symm

theorem leading_zero_iff {ds : List Nat} (h : List.Forall₂ (IsDigit 10) u ds) :
    ds.head? = some 0 ∧ ds ≠ [0] ↔ u.head? = some '0' ∧ u ≠ ['0'] := by
  cases h
  case nil => simp
  case cons hc hu => cases hu <;> simp [isDigit_zero_iff hc]

theorem takeOctet?_eq_some_iff {o : UInt8} :
    takeOctet? s = some (o, t) ↔ ∃ u, s = u ++ t ∧ IsOctet u o ∧ Ends 10 t := by
  have hb : 10 ≤ 16 := by decide
  have hn := counts_uint8.takeNumber?_iff (s := s) (t := t) (x := o) hb
  simp only [takeOctet?, Option.ite_none_left_eq_some, Option.map_eq_some_iff, Prod.exists,
    Prod.mk.injEq]
  constructor
  case mp =>
    rintro ⟨hz, n, _, h, e, rfl⟩
    obtain ⟨u, rfl, hw, ht⟩ := hn.mp ⟨n, h, e⟩
    obtain ⟨ds, hd, e⟩ := hw.exists_takeDigits hb ht
    rw [e, leading_zero_iff hd] at hz
    exact ⟨u, rfl, ⟨hw, fun h => by_contra fun hn => hz ⟨h, hn⟩⟩, ht⟩
  case mpr =>
    rintro ⟨u, rfl, ⟨hw, hz⟩, ht⟩
    obtain ⟨n, h, e⟩ := hn.mpr ⟨u, rfl, hw, ht⟩
    obtain ⟨ds, hd, e'⟩ := hw.exists_takeDigits hb ht
    rw [e', leading_zero_iff hd]
    exact ⟨fun ⟨h, hn⟩ => hn (hz h), n, t, h, e, rfl⟩

theorem takeIPv4?_eq_some_iff :
    takeIPv4? s = some (a, t) ↔ ∃ u, s = u ++ t ∧ a.IsWritten u ∧ Ends 10 t := by
  simp only [takeIPv4?, bind, Option.bind_eq_some_iff, Prod.exists, expect?_eq_some_iff,
    takeOctet?_eq_some_iff, Option.some.injEq, Prod.mk.injEq]
  constructor
  case mp =>
    rintro ⟨a, _, ⟨s, rfl, ha, _⟩, _, rfl, b, _, ⟨t, rfl, hb, _⟩, _, rfl, c, _, ⟨u, rfl, hc, _⟩,
      _, rfl, d, _, ⟨v, rfl, hd, ht⟩, rfl, rfl⟩
    exact ⟨_, by simp, .octets ha hb hc hd, ht⟩
  case mpr =>
    rintro ⟨_, rfl, @⟨a, b, c, d, s, u, v, w, ha, hb, hc, hd⟩, ht⟩
    have point (s : List Char) : Ends 10 ('.' :: s) := ends_cons (by decide) s
    exact ⟨a, '.' :: (u ++ '.' :: (v ++ '.' :: (w ++ t))), ⟨s, by simp, ha, point _⟩, _, rfl,
      b, _, ⟨u, rfl, hb, point _⟩, _, rfl, c, _, ⟨v, rfl, hc, point _⟩, _, rfl,
      d, t, ⟨w, rfl, hd, ht⟩, rfl, rfl⟩

theorem takeGroup?_eq_some_iff :
    takeGroup? s = some (g, t) ↔ ∃ u, s = u ++ t ∧ IsGroup u g ∧ Ends 16 t := by
  have hn := counts_uint16.takeNumber?_iff (s := s) (t := t) (x := g) le_rfl
  simp only [takeGroup?, Option.ite_none_right_eq_some, Option.map_eq_some_iff, Prod.exists,
    Prod.mk.injEq]
  constructor
  case mp =>
    rintro ⟨hl, n, _, h, e, rfl⟩
    obtain ⟨u, rfl, hw, ht⟩ := hn.mp ⟨n, h, e⟩
    obtain ⟨ds, hd, e⟩ := hw.exists_takeDigits le_rfl ht
    rw [e, ← hd.length_eq] at hl
    exact ⟨u, rfl, ⟨hw, hl⟩, ht⟩
  case mpr =>
    rintro ⟨u, rfl, ⟨hw, hl⟩, ht⟩
    obtain ⟨n, h, e⟩ := hn.mpr ⟨u, rfl, hw, ht⟩
    obtain ⟨ds, hd, e'⟩ := hw.exists_takeDigits le_rfl ht
    rw [e', ← hd.length_eq]
    exact ⟨hl, n, t, h, e, rfl⟩

-- What stands in front of a group.
def separator (first : Bool) : List Char :=
  if first then [] else [':']

theorem ends_ten (h : Ends 16 t) : Ends 10 t := by
  intro c hc
  have hn := h c hc
  rw [digit?_eq_filter (by decide), hn]
  rfl

theorem takeIPv4?_eq_none (h : Ends 10 s) : takeIPv4? s = none := by
  rw [Option.eq_none_iff_forall_not_mem]
  rintro ⟨a, t⟩ ht
  obtain ⟨_, rfl, ⟨ha, _, _, _⟩, _⟩ := takeIPv4?_eq_some_iff.mp ht
  rw [List.append_assoc] at h
  exact ha.writes.not_ends (by decide) h

theorem takeGroup?_eq_none (h : Ends 16 s) : takeGroup? s = none := by
  rw [Option.eq_none_iff_forall_not_mem]
  rintro ⟨g, t⟩ ht
  obtain ⟨u, rfl, hu, _⟩ := takeGroup?_eq_some_iff.mp ht
  exact hu.writes.not_ends le_rfl h

-- A group with no point behind it is not taken for octets.
theorem IsGroup.takeIPv4?_eq_none (h : IsGroup s g) (ht : Ends 16 t) (hp : t.head? ≠ some '.') :
    takeIPv4? (s ++ t) = none := by
  rw [Option.eq_none_iff_forall_not_mem]
  rintro ⟨a, r⟩ hr
  obtain ⟨_, e, ⟨ha, _, _, _⟩, _⟩ := takeIPv4?_eq_some_iff.mp hr
  rw [List.append_assoc, List.cons_append] at e
  have he := h.writes.behind_eq le_rfl ht (by decide) ha.writes (ends_cons (by decide) _) e
  exact hp (he ▸ rfl)

theorem exists_separator_iff :
    (if first then some s else expect? ':' s) = some t ↔ s = separator first ++ t := by
  cases first
  case true => simp [separator]
  case false => simp [separator, expect?_eq_some_iff]

-- Each slot takes a group, or octets and no more, and leaves the rest to the slots behind it.
theorem takeGroups_sound (h : takeGroups slots first s = (row, t)) :
    row.groups.length ≤ slots ∧
      (row = ⟨[], false⟩ ∧ s = t ∨ ∃ u, s = separator first ++ u ++ t ∧ IsRow row u) := by
  induction slots generalizing first s row t
  case zero =>
    cases h
    exact ⟨le_rfl, .inl ⟨rfl, rfl⟩⟩
  case succ slots ih =>
    rw [takeGroups] at h
    split at h
    case h_1 =>
      cases h
      exact ⟨Nat.zero_le _, .inl ⟨rfl, rfl⟩⟩
    case h_2 t₁ hs =>
      rw [exists_separator_iff] at hs
      subst hs
      split at h
      case h_1 a t₂ ha =>
        cases h
        rw [Option.ite_none_left_eq_some, takeIPv4?_eq_some_iff] at ha
        obtain ⟨hz, u, rfl, hu, _⟩ := ha
        refine ⟨?_, .inr ⟨u, by simp, .octets hu⟩⟩
        change 2 ≤ slots + 1
        omega
      case h_2 =>
        split at h
        case h_1 =>
          cases h
          exact ⟨Nat.zero_le _, .inl ⟨rfl, rfl⟩⟩
        case h_2 g t₂ hg =>
          obtain ⟨u, rfl, hu, _⟩ := takeGroup?_eq_some_iff.mp hg
          rcases hm : takeGroups slots false t₂ with ⟨more, t₃⟩
          rw [hm] at h
          cases h
          obtain ⟨hl, hr⟩ := ih hm
          refine ⟨Nat.succ_le_succ hl, .inr ?_⟩
          rcases hr with ⟨rfl, rfl⟩ | ⟨v, rfl, hv⟩
          case inl => exact ⟨u, by simp, .group hu⟩
          case inr => exact ⟨u ++ ':' :: v, by simp [separator], .cons hu hv⟩

-- No group starts where the text goes on.
def NoGroup (first : Bool) (s : List Char) : Prop :=
  ∀ t, s = separator first ++ t → Ends 16 t

theorem NoGroup.takeGroups_eq (h : NoGroup first s) (slots : Nat) :
    takeGroups slots first s = (⟨[], false⟩, s) := by
  cases slots
  case zero => rfl
  case succ slots =>
    rw [takeGroups]
    split
    case h_1 => rfl
    case h_2 t hs =>
      have ht := h t (exists_separator_iff.mp hs)
      rw [takeIPv4?_eq_none (ends_ten ht), takeGroup?_eq_none ht]
      simp

theorem takeGroups_group (hg : IsGroup s g) (ht : Ends 16 t) (hp : t.head? ≠ some '.') :
    takeGroups (slots + 1) first (separator first ++ (s ++ t)) =
      (⟨g :: (takeGroups slots false t).1.groups, (takeGroups slots false t).1.octets⟩,
        (takeGroups slots false t).2) := by
  rw [takeGroups, exists_separator_iff.mpr rfl]
  simp only [hg.takeIPv4?_eq_none ht hp, ite_self, takeGroup?_eq_some_iff.mpr ⟨s, rfl, hg, ht⟩]

theorem IsRow.takeGroups_eq (h : IsRow row u) (hl : row.groups.length ≤ slots) (ht : Ends 16 t)
    (hp : t.head? ≠ some '.') (hn : row.groups.length = slots ∨ NoGroup false t) :
    takeGroups slots first (separator first ++ (u ++ t)) = (row, t) := by
  induction h generalizing slots first
  case group g s hg =>
    obtain ⟨slots, rfl⟩ := Nat.exists_eq_add_of_le' hl
    rw [List.length_singleton, takeGroups_group hg ht hp]
    have he : takeGroups slots false t = (⟨[], false⟩, t) := by
      rcases hn with hn | hn
      case inl =>
        obtain rfl : slots = 0 := by simpa using hn
        rfl
      case inr => exact hn.takeGroups_eq slots
    rw [he]
  case octets a s ha =>
    obtain ⟨slots, rfl⟩ := Nat.exists_eq_add_of_le' hl
    change takeGroups (slots + 1 + 1) _ _ = _
    rw [takeGroups, exists_separator_iff.mpr rfl]
    simp only [takeIPv4?_eq_some_iff.mpr ⟨s, rfl, ha, ends_ten ht⟩, Nat.succ_ne_zero, if_false]
  case cons g row s v hg _ ih =>
    rw [List.length_cons] at hl hn
    obtain ⟨slots, rfl⟩ := Nat.exists_eq_add_of_le' (Nat.one_le_of_lt hl)
    have he : takeGroups slots false (':' :: (v ++ t)) = (row, t) :=
      ih (by omega) (hn.imp_left (by omega))
    rw [List.append_assoc, List.cons_append,
      takeGroups_group hg (ends_cons (by decide) _) (by simp), he]

namespace IsSide

theorem of_takeGroups (h : takeGroups slots true s = (row, t)) :
    row.groups.length ≤ slots ∧ ∃ u, s = u ++ t ∧ IsSide row u := by
  obtain ⟨hl, ⟨rfl, rfl⟩ | ⟨u, rfl, hu⟩⟩ := takeGroups_sound h
  case inl => exact ⟨hl, [], rfl, .empty⟩
  case inr => exact ⟨hl, u, rfl, .row hu⟩

theorem takeGroups_eq (h : IsSide row u) (hl : row.groups.length ≤ slots) (ht : Ends 16 t)
    (hp : t.head? ≠ some '.') (hn : NoGroup false t) :
    takeGroups slots true (u ++ t) = (row, t) := by
  cases h
  case empty =>
    have hn : NoGroup true t := by
      rintro _ rfl
      exact ht
    exact hn.takeGroups_eq slots
  case row h => exact h.takeGroups_eq hl ht hp (.inr hn)

end IsSide

theorem IPv6.ofGroups?_eq_some_iff {a : IPv6} {groups : List UInt16} :
    ofGroups? groups = some a ↔ a.groups = groups where
  mp h := by
    rw [ofGroups?, Option.dite_none_right_eq_some] at h
    obtain ⟨_, h⟩ := h
    exact Option.some.inj h ▸ rfl
  mpr h := h ▸ ofGroups?_groups a

theorem isWritten_of_takeIPv6? {a : IPv6} (h : takeIPv6? s = some (a, t)) :
    ∃ u, s = u ++ t ∧ a.IsWritten u := by
  rcases hf : takeGroups 8 true s with ⟨front, r⟩
  simp only [takeIPv6?, hf] at h
  split_ifs at h with h8 ho
  case pos =>
    obtain ⟨a, ha, e⟩ := Option.map_eq_some_iff.mp h
    cases e
    obtain ⟨_, ⟨rfl, _⟩ | ⟨u, rfl, hu⟩⟩ := takeGroups_sound hf
    case inl => cases h8
    case inr => exact ⟨u, rfl, .full hu (IPv6.ofGroups?_eq_some_iff.mp ha)⟩
  case neg =>
    simp only [bind, Option.bind_eq_some_iff, expect?_eq_some_iff] at h
    obtain ⟨s, ⟨_, rfl, rfl⟩, a, ha, e⟩ := h
    rcases hb : takeGroups (7 - front.groups.length) true s with ⟨back, r⟩
    rw [hb] at ha e
    cases e
    obtain ⟨hl, u, rfl, hu⟩ := IsSide.of_takeGroups hf
    obtain ⟨hl', v, rfl, hv⟩ := IsSide.of_takeGroups hb
    refine ⟨u ++ ':' :: ':' :: v, by simp, .short hu (Bool.not_eq_true _ ▸ ho) hv ?_
      (IPv6.ofGroups?_eq_some_iff.mp ha)⟩
    dsimp only
    omega

-- The text does not go on as an address of groups could.
structure EndsGroups (s : List Char) : Prop where
  digit : Ends 16 s
  point : s.head? ≠ some '.'
  colon : s.head? ≠ some ':'

theorem IPv6.IsWritten.takeIPv6?_eq {a : IPv6} (h : a.IsWritten u) (ht : EndsGroups t) :
    takeIPv6? (u ++ t) = some (a, t) := by
  have hn : NoGroup false t := fun s e => absurd (e ▸ rfl) ht.colon
  cases h
  case full row e hu =>
    have hl : row.groups.length = 8 := e ▸ a.length_groups
    have hf : takeGroups 8 true (u ++ t) = (row, t) :=
      hu.takeGroups_eq hl.le ht.digit ht.point (.inl hl)
    simp only [takeIPv6?, hf, hl, if_true, IPv6.ofGroups?_eq_some_iff.mpr e, Option.map_some]
  case short front back s v n hs ho hv hz e =>
    have hl := congrArg List.length e
    simp only [a.length_groups, List.length_append, List.length_replicate] at hl
    have hf : takeGroups 8 true (s ++ ':' :: ':' :: (v ++ t)) = (front, ':' :: ':' :: (v ++ t)) := by
      refine hs.takeGroups_eq (by omega) (ends_cons (by decide) _) (by simp) fun s e => ?_
      cases e
      exact ends_cons (by decide) _
    have hb : takeGroups (7 - front.groups.length) true (v ++ t) = (back, t) :=
      hv.takeGroups_eq (by omega) ht.digit ht.point hn
    have h8 : front.groups.length ≠ 8 := by omega
    have hz : 8 - front.groups.length - back.groups.length = n := by omega
    rw [List.append_assoc, List.cons_append, List.cons_append]
    simp only [takeIPv6?, hf, h8, ho, if_false, Bool.false_eq_true, expect?, if_true, bind,
      Option.bind_some, hb, hz, IPv6.ofGroups?_eq_some_iff.mpr e]

theorem isScope_takeScope (s : List Char) :
    ∃ u, s = u ++ (takeScope s).2 ∧ IsScope (takeScope s).1 u := by
  have hn {s t : List Char} {scope : UInt32} :=
    counts_uint32.takeNumber?_iff (s := s) (t := t) (x := scope) (show 10 ≤ 16 by decide)
  unfold takeScope
  split
  case h_1 n t h =>
    obtain ⟨r, hr, h⟩ := Option.bind_eq_some_iff.mp h
    obtain ⟨u, rfl, hu, _⟩ := hn.mp ⟨n, h, rfl⟩
    exact ⟨'%' :: u, expect?_eq_some_iff.mp hr, .given hu⟩
  case h_2 => exact ⟨[], rfl, .absent⟩

theorem IsScope.takeScope_eq (h : IsScope scope u) (s : List Char) :
    takeScope (u ++ ']' :: s) = (scope, ']' :: s) := by
  cases h
  case absent => rfl
  case given u hu =>
    have ht : Ends 10 (']' :: s) := ends_cons (by decide) s
    obtain ⟨n, h, rfl⟩ := (counts_uint32.takeNumber?_iff (by decide)).mpr ⟨u, rfl, hu, ht⟩
    simp only [takeScope, List.cons_append, expect?, if_true, Option.bind_some, h]

theorem endsGroups_of_isScope (h : IsScope scope u) (s : List Char) :
    EndsGroups (u ++ ']' :: s) := by
  cases h
  case absent => exact ⟨ends_cons (by decide) s, by simp, by simp⟩
  case given u _ => exact ⟨ends_cons (by decide) _, by simp, by simp⟩

theorem takeEndpoint?_eq_some_iff {e : Endpoint} :
    takeEndpoint? s = some (e, t) ↔ ∃ u, s = u ++ t ∧ e.IsWritten u ∧ Ends 10 t := by
  simp only [takeEndpoint?, bind, Option.or_eq_some_iff, Option.bind_eq_some_iff, Prod.exists,
    expect?_eq_some_iff, takeIPv4?_eq_some_iff, takePort?_eq_some_iff, Option.some.injEq,
    Prod.mk.injEq]
  constructor
  case mp =>
    rintro (⟨host, _, ⟨u, rfl, hu, _⟩, port, _, ⟨v, rfl, hv, ht⟩, rfl, rfl⟩ |
      ⟨_, _, rfl, host, r, hr, _, hs, port, _, ⟨v, rfl, hv, ht⟩, rfl, rfl⟩)
    case inl => exact ⟨_, by simp, .v4 hu hv, ht⟩
    case inr =>
      obtain ⟨u, rfl, hu⟩ := isWritten_of_takeIPv6? hr
      obtain ⟨w, hw, hsc⟩ := isScope_takeScope r
      rw [hs] at hw
      exact ⟨_, by simp [hw], .v6 hu hsc hv, ht⟩
  case mpr =>
    rintro ⟨_, rfl, h, ht⟩
    cases h
    case v4 host port u v hu hv =>
      exact .inl ⟨host, _, ⟨u, by simp, hu, ends_cons (by decide) _⟩, port, t, ⟨v, rfl, hv, ht⟩,
        rfl, rfl⟩
    case v6 host scope port u w v hu hw hv =>
      have h4 : takeIPv4? ('[' :: (u ++ (w ++ ']' :: ':' :: v)) ++ t) = none :=
        takeIPv4?_eq_none (ends_cons (by decide) _)
      have h6 := hu.takeIPv6?_eq (endsGroups_of_isScope hw (':' :: (v ++ t)))
      refine .inr ⟨by rw [h4]; rfl, u ++ (w ++ ']' :: ':' :: (v ++ t)), by simp, host, _, h6, ?_⟩
      rw [hw.takeScope_eq]
      exact ⟨_, rfl, port, t, ⟨v, rfl, hv, ht⟩, rfl, rfl⟩

theorem Endpoint.ofText?_eq_some_iff {e : Endpoint} : ofText? s = some e ↔ e.IsWritten s := by
  have ht : takeEndpoint? s = some (e, []) ↔ e.IsWritten s := by
    rw [takeEndpoint?_eq_some_iff]
    exact ⟨fun ⟨u, h, hu, _⟩ => by simpa [h] using hu, fun h => ⟨s, by simp, h, nofun⟩⟩
  rw [← ht, ofText?]
  split
  case h_1 => simp_all
  case h_2 h =>
    simp only [reduceCtorEq, false_iff]
    exact h e

example : Endpoint.ofText? "[1::2.3.4.5%06]:080".toList =
    some (.v6 ⟨[1, 0, 0, 0, 0, 0, 0x0203, 0x0405], rfl⟩ 6 80) := by
  decide

end Abacus.Net
