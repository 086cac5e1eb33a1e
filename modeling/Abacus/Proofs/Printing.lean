import Abacus.Net.Writing
import Abacus.Proofs.Addresses
import Abacus.Proofs.NumberText

namespace Abacus.Net

open Numeral

theorem writes_toDigits {base : Nat} (hb : 1 < base) (n : Nat) :
    Writes base (Nat.toDigits base n) n := by
  refine ⟨Nat.toDigits_ne_nil, ?_⟩
  induction n using Nat.strongRecOn
  case ind n ih =>
    rw [Nat.toDigits_eq_if hb]
    split_ifs with hn
    case pos => exact ⟨[n], .cons ⟨hn, .inl rfl⟩ .nil, by simp⟩
    case neg =>
      have hq : n / base < n := Nat.div_lt_self (by omega) hb
      have hr : n % base < base := Nat.mod_lt n (by omega)
      obtain ⟨ds, hd, e⟩ := ih _ hq
      refine ⟨ds ++ [n % base], List.rel_append hd (.cons ⟨hr, .inl rfl⟩ .nil), ?_⟩
      rw [List.reverse_append, List.reverse_singleton, List.singleton_append, Nat.ofDigits_cons,
        ← e, Nat.mod_add_div]

theorem isOctet_toDigits (n : UInt8) : IsOctet (Nat.toDigits 10 n.toNat) n where
  writes := writes_toDigits (by decide) _
  zero   := (Json.Number.isWhole_toDigits _).right

theorem isGroup_toDigits (g : UInt16) : IsGroup (Nat.toDigits 16 g.toNat) g where
  writes := writes_toDigits (by decide) _
  length := (Nat.length_toDigits_le_iff (by decide) (by decide)).mpr g.toNat_lt

namespace IPv4

theorem isWritten_text (a : IPv4) : a.IsWritten a.text := by
  have h : a.IsWritten _ := .octets (isOctet_toDigits a.first) (isOctet_toDigits a.second)
    (isOctet_toDigits a.third) (isOctet_toDigits a.fourth)
  simpa [text, List.intercalate_cons_cons] using h

-- A group is made of its two halves.
theorem join_halves (g : UInt16) : (g / 256).toUInt8.toUInt16 * 256 + g.toUInt8.toUInt16 = g := by
  have hg := g.toNat_lt
  apply UInt16.toNat_inj.mp
  simp only [UInt16.toUInt16_toUInt8, UInt16.toNat_add, UInt16.toNat_mul, UInt16.toNat_mod,
    UInt16.toNat_div, UInt16.reduceToNat, Nat.reducePow, Nat.mod_add_mod]
  omega

end IPv4

namespace IPv6

variable {a : IPv6} {b : IPv4} {groups : List UInt16} {z : Stretch} {n i : Nat}

-- The stretch is the first of the longest ones that hold nothing but zeros.
structure IsFirstLongest (groups : List UInt16) (z : Stretch) : Prop where
  zeros   : List.replicate z.length 0 <+: groups.drop z.start
  longest : ∀ i n, List.replicate n 0 <+: groups.drop i → n ≤ z.length
  first   : ∀ i < z.start, ¬List.replicate z.length 0 <+: groups.drop i

theorem replicate_prefix_iff {groups : List UInt16} :
    List.replicate n 0 <+: groups ↔ n ≤ (groups.takeWhile (· = 0)).length := by
  induction groups generalizing n
  case nil => simp
  case cons g groups ih =>
    cases n
    case zero => simp
    case succ n =>
      rw [List.replicate_succ, List.cons_prefix_cons, ih, List.takeWhile_cons]
      by_cases hg : g = 0
      case pos => simp [hg]
      case neg => simp [hg, Ne.symm hg]

theorem zeros_prefix_iff : List.replicate n 0 <+: groups.drop i ↔ n ≤ zerosAt groups i :=
  replicate_prefix_iff

-- The stretch is the first of the longest ones among those that start in front of place `n`.
structure IsBest (groups : List UInt16) (n : Nat) (z : Stretch) : Prop where
  zeros   : z.length ≤ zerosAt groups z.start
  longest : ∀ i < n, zerosAt groups i ≤ z.length
  first   : ∀ i < z.start, zerosAt groups i < z.length

theorem isBest_foldl (groups : List UInt16) (n : Nat) :
    IsBest groups n ((List.range n).foldl
      (fun best i => if best.length < zerosAt groups i then ⟨i, zerosAt groups i⟩ else best)
      ⟨0, 0⟩) := by
  induction n
  case zero => exact ⟨Nat.zero_le _, nofun, nofun⟩
  case succ n ih =>
    obtain ⟨zeros, longest, first⟩ := ih
    rw [List.range_succ, List.foldl_append, List.foldl_cons, List.foldl_nil]
    split_ifs with hn
    case pos =>
      refine ⟨le_rfl, fun i hi => ?_, fun i hi => (longest i hi).trans_lt hn⟩
      rcases Nat.lt_succ_iff_lt_or_eq.mp hi with hi | rfl
      · exact (longest i hi).trans hn.le
      · exact le_rfl
    case neg =>
      refine ⟨zeros, fun i hi => ?_, first⟩
      rcases Nat.lt_succ_iff_lt_or_eq.mp hi with hi | rfl
      · exact longest i hi
      · exact Nat.not_lt.mp hn

theorem isFirstLongest_longestZeros (groups : List UInt16) :
    IsFirstLongest groups (longestZeros groups) := by
  obtain ⟨zeros, longest, first⟩ := isBest_foldl groups groups.length
  constructor
  case zeros => exact zeros_prefix_iff.mpr zeros
  case longest =>
    intro i n h
    rcases Nat.lt_or_ge i groups.length with hi | hi
    case inl => exact (zeros_prefix_iff.mp h).trans (longest i hi)
    case inr =>
      rw [List.drop_eq_nil_of_le hi, List.prefix_nil, List.replicate_eq_nil_iff] at h
      exact h ▸ Nat.zero_le _
  case first =>
    intro i hi h
    exact absurd (zeros_prefix_iff.mp h) (Nat.not_le.mpr (first i hi))

-- The groups that are left out are zeros.
theorem IsFirstLongest.groups_eq (h : IsFirstLongest groups z) :
    groups = groups.take z.start ++ List.replicate z.length 0 ++
      groups.drop (z.start + z.length) := by
  obtain ⟨rest, hz⟩ := h.zeros
  have hr : groups.drop (z.start + z.length) = rest := by
    rw [← List.drop_drop, ← hz, List.drop_left' List.length_replicate]
  rw [hr, List.append_assoc, hz, List.take_append_drop]

theorem isRow_groupsText (h : groups ≠ []) : IsRow ⟨groups, false⟩ (groupsText groups) := by
  induction groups
  case nil => exact absurd rfl h
  case cons g groups ih =>
    cases groups
    case nil =>
      rw [groupsText, List.map_singleton, List.intercalate_singleton]
      exact .group (isGroup_toDigits g)
    case cons =>
      rw [groupsText, List.map_cons, List.map_cons, List.intercalate_cons_cons, List.append_assoc]
      exact .cons (isGroup_toDigits g) (ih (List.cons_ne_nil _ _))

theorem isSide_groupsText (groups : List UInt16) : IsSide ⟨groups, false⟩ (groupsText groups) := by
  cases groups
  case nil => exact .empty
  case cons => exact .row (isRow_groupsText (List.cons_ne_nil _ _))

theorem groups_of_mapped? (h : a.mapped? = some b) :
    a.groups = List.replicate 5 0 ++ 0xFFFF :: b.groups := by
  unfold mapped? at h
  split at h
  case h_1 e =>
    cases h
    rw [e, IPv4.groups, IPv4.join_halves, IPv4.join_halves]
    rfl
  case h_2 => cases h

theorem isWritten_text (a : IPv6) : a.IsWritten a.text := by
  unfold text
  split
  case h_1 b h =>
    have hf : IsGroup "ffff".toList 0xFFFF := isGroup_toDigits 0xFFFF
    have hb : IsRow ⟨0xFFFF :: b.groups, true⟩ ("ffff:".toList ++ b.text) :=
      .cons hf (.octets b.isWritten_text)
    exact .short (n := 5) .empty rfl (.row hb) (by decide) (groups_of_mapped? h)
  case h_2 =>
    extract_lets zeros
    split_ifs with hl
    case pos =>
      refine .full (isRow_groupsText ?_) rfl
      exact List.ne_nil_of_length_pos (by simp [a.length_groups])
    case neg =>
      have h : IsFirstLongest a.groups zeros := isFirstLongest_longestZeros a.groups
      rw [List.append_assoc]
      exact .short (isSide_groupsText _) rfl (isSide_groupsText _) (by omega) h.groups_eq

end IPv6

theorem isScope_scopeText (scope : UInt32) : IsScope scope (Endpoint.scopeText scope) := by
  unfold Endpoint.scopeText
  split_ifs with h
  case pos => exact h ▸ .absent
  case neg => exact .given (writes_toDigits (by decide) _)

-- What is printed for an endpoint writes it.
theorem Endpoint.isWritten_text (e : Endpoint) : e.IsWritten e.text.toList := by
  cases e
  case v4 host port =>
    rw [text, String.toList_ofList]
    exact .v4 host.isWritten_text (writes_toDigits (by decide) _)
  case v6 host scope port =>
    have h : (v6 host scope port).IsWritten _ :=
      .v6 host.isWritten_text (isScope_scopeText scope) (writes_toDigits (by decide) _)
    rw [text, String.toList_ofList]
    simpa only [portText, List.cons_append, List.append_assoc] using h

end Abacus.Net
