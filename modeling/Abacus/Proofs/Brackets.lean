import Abacus.Token
import Mathlib.Data.List.Induction

namespace Abacus

class Bracketed (α : Type) where
  opens  : α → Bool
  closes : α → Bool
  closes_of_opens {a : α} : opens a → closes a = false

export Bracketed (opens closes)

instance : Bracketed Char where
  opens c  := c == '('
  closes c := c == ')'
  closes_of_opens := by simp

instance : Bracketed Token where
  opens t  := t == .opening
  closes t := t == .closing
  closes_of_opens := by simp

@[simp]
theorem opens_char (c : Char) : opens c = (c == '(') :=
  rfl

@[simp]
theorem closes_char (c : Char) : closes c = (c == ')') :=
  rfl

variable {α : Type} [Bracketed α]

def opened (l : List α) : Nat :=
  l.countP opens

def closed (l : List α) : Nat :=
  l.countP closes

-- Nothing is closed that is not open, and in the end all is closed.
structure Balanced (l : List α) : Prop where
  prefixes : ∀ s, s <+: l → closed s ≤ opened s
  total    : opened l = closed l

variable {l l' r r' s t : List α} {a c c' o : α}

@[simp]
theorem opened_nil : opened ([] : List α) = 0 :=
  rfl

@[simp]
theorem closed_nil : closed ([] : List α) = 0 :=
  rfl

@[simp]
theorem opened_append (l r : List α) : opened (l ++ r) = opened l + opened r :=
  List.countP_append ..

@[simp]
theorem closed_append (l r : List α) : closed (l ++ r) = closed l + closed r :=
  List.countP_append ..

@[simp]
theorem opened_cons (a : α) (l : List α) :
    opened (a :: l) = opened l + if opens a then 1 else 0 :=
  List.countP_cons ..

@[simp]
theorem closed_cons (a : α) (l : List α) :
    closed (a :: l) = closed l + if closes a then 1 else 0 :=
  List.countP_cons ..

theorem opens_of_closes (h : closes a) : opens a = false := by
  cases ho : opens a
  case false => rfl
  case true => simp [Bracketed.closes_of_opens ho] at h

omit [Bracketed α] in
theorem prefix_append_cases (h : s <+: l ++ r) : s <+: l ∨ ∃ t, t <+: r ∧ s = l ++ t := by
  cases List.prefix_or_prefix_of_prefix h (List.prefix_append l r)
  case inl h => exact .inl h
  case inr hl =>
    have ⟨t, ht⟩ := hl
    subst ht
    exact .inr ⟨t, (List.prefix_append_right_inj l).mp h, rfl⟩

-- In front of a bracket that closes something, something is open.
theorem closed_lt_opened (hc : closes c) (h : ∀ s, s <+: l ++ c :: r → closed s ≤ opened s) :
    closed l < opened l := by
  have := h (l ++ [c]) ((List.prefix_append_right_inj l).mpr ⟨r, rfl⟩)
  simp [hc, opens_of_closes hc] at this
  omega

namespace Balanced

theorem nil : Balanced ([] : List α) where
  prefixes := by simp
  total    := rfl

theorem single (ho : opens a = false) (hc : closes a = false) : Balanced [a] where
  prefixes s hs := by
    cases List.prefix_cons_iff.mp hs
    case inl e => simp [e]
    case inr hs =>
      have ⟨t, e, ht⟩ := hs
      simp [e, List.prefix_nil.mp ht, ho, hc]
  total := by simp [ho, hc]

theorem append (h : Balanced l) (h' : Balanced r) : Balanced (l ++ r) where
  prefixes s hs := by
    cases prefix_append_cases hs
    case inl hs => exact h.prefixes s hs
    case inr hs =>
      have ⟨t, ht, e⟩ := hs
      have := h.total
      have := h'.prefixes t ht
      simp [e]
      omega
  total := by simp [h.total, h'.total]

theorem group (ho : opens o) (hc : closes c) (h : Balanced l) : Balanced (o :: l ++ [c]) where
  prefixes s hs := by
    have h₁ := Bracketed.closes_of_opens ho
    have h₂ := opens_of_closes hc
    have := h.total
    cases List.prefix_concat_iff.mp hs
    case inl e =>
      simp [e, ho, hc, h₁, h₂]
      omega
    case inr hs =>
      cases List.prefix_cons_iff.mp hs
      case inl e => simp [e]
      case inr hs =>
        have ⟨t, e, ht⟩ := hs
        have := h.prefixes t ht
        simp [e, ho, h₁]
        omega
  total := by
    have h₁ := Bracketed.closes_of_opens ho
    have h₂ := opens_of_closes hc
    have := h.total
    simp [ho, hc, h₁, h₂]
    omega

theorem of_neutral (h : ∀ a ∈ l, opens a = false ∧ closes a = false) : Balanced l := by
  induction l
  case nil => exact nil
  case cons a l ih =>
    have ⟨ho, hc⟩ := h a List.mem_cons_self
    exact (single ho hc).append (ih fun b hb => h b (List.mem_cons_of_mem a hb))

theorem of_append_right (h : Balanced (l ++ r)) (hl : Balanced l) : Balanced r where
  prefixes s hs := by
    have := h.prefixes (l ++ s) ((List.prefix_append_right_inj l).mpr hs)
    have := hl.total
    simp at *
    omega
  total := by
    have := h.total
    have := hl.total
    simp at *
    omega

theorem not_append_closes (h : Balanced l) (hc : closes c) : ¬Balanced (l ++ c :: r) := by
  intro h'
  have := closed_lt_opened hc h'.prefixes
  have := h.total
  omega

-- A balanced sequence ends where the surplus closing bracket behind it stands.
theorem eq_of_closes (h : Balanced l) (h' : Balanced l') (hc : closes c) (hc' : closes c')
    (e : l ++ c :: r = l' ++ c' :: r') : l = l' := by
  cases List.append_eq_append_iff.mp e
  case inl h₁ =>
    have ⟨t, hl, hr⟩ := h₁
    cases t
    case nil => simp [hl]
    case cons a t =>
      cases hr
      exact absurd (hl ▸ h') (h.not_append_closes hc)
  case inr h₁ =>
    have ⟨t, hl, hr⟩ := h₁
    cases t
    case nil => simp [hl]
    case cons a t =>
      cases hr
      exact absurd (hl ▸ h) (h'.not_append_closes hc')

end Balanced

-- Where a sequence first closes more than it opens, it has been balanced before.
theorem exists_of_excess (h : ∃ s, s <+: l ∧ opened s < closed s) :
    ∃ m c r, l = m ++ c :: r ∧ closes c ∧ Balanced m := by
  induction l using List.reverseRecOn
  case nil => simp at h
  case append_singleton l a ih =>
    by_cases hl : ∃ s, s <+: l ∧ opened s < closed s
    case pos =>
      have ⟨m, c, r, e, hc, hm⟩ := ih hl
      exact ⟨m, c, r ++ [a], by simp [e], hc, hm⟩
    case neg =>
      have hp (s : List α) (hs : s <+: l) : closed s ≤ opened s :=
        Nat.not_lt.mp fun hlt => hl ⟨s, hs, hlt⟩
      have ⟨s, hs, excess⟩ := h
      cases List.prefix_concat_iff.mp hs
      case inr hs => exact absurd (hp s hs) (Nat.not_le.mpr excess)
      case inl e =>
        have ht := hp l (List.prefix_refl l)
        simp [e] at excess
        have hc : closes a := by
          by_contra hc
          simp [hc] at excess
          omega
        simp [hc, opens_of_closes hc] at excess
        exact ⟨l, a, [], rfl, hc, hp, by omega⟩

-- Where a sequence last opens more than it closes, it is balanced from there on.
theorem exists_of_deficit (h : ∃ s, s <:+ l ∧ closed s < opened s) :
    ∃ r o m, l = r ++ o :: m ∧ opens o ∧ Balanced m := by
  induction l
  case nil => simp at h
  case cons a l ih =>
    by_cases hl : ∃ s, s <:+ l ∧ closed s < opened s
    case pos =>
      obtain ⟨r, o, m, e, ho, hm⟩ := ih hl
      exact ⟨a :: r, o, m, by simp [e], ho, hm⟩
    case neg =>
      have hp (s : List α) (hs : s <:+ l) : opened s ≤ closed s :=
        Nat.not_lt.mp fun hlt => hl ⟨s, hs, hlt⟩
      obtain ⟨s, hs, deficit⟩ := h
      cases List.suffix_cons_iff.mp hs
      case inr hs => exact absurd (hp s hs) (Nat.not_le.mpr deficit)
      case inl e =>
        have ht := hp l List.suffix_rfl
        simp [e] at deficit
        have ho : opens a := by
          by_contra ho
          simp [ho] at deficit
          omega
        simp [ho, Bracketed.closes_of_opens ho] at deficit
        refine ⟨[], a, l, rfl, ho, fun s hs => ?_, by omega⟩
        obtain ⟨t, rfl⟩ := hs
        have := hp t (List.suffix_append s t)
        simp only [opened_append, closed_append] at *
        omega

-- The group in front of a balanced sequence.
theorem Balanced.exists_group (ho : opens o) (h : Balanced (o :: l)) :
    ∃ m c r, l = m ++ c :: r ∧ closes c ∧ Balanced m ∧ Balanced r := by
  have ht := h.total
  simp [ho, Bracketed.closes_of_opens ho] at ht
  have ⟨m, c, r, e, hc, hm⟩ := exists_of_excess ⟨l, List.prefix_refl l, by omega⟩
  subst e
  have hg := Balanced.group ho hc hm
  have he : o :: (m ++ c :: r) = (o :: m ++ [c]) ++ r := by simp
  exact ⟨m, c, r, rfl, hc, hm, (he ▸ h).of_append_right hg⟩

-- No more than `n` are open at once.
def Nests (n : Nat) (l : List α) : Prop :=
  ∀ s, s <+: l → opened s ≤ closed s + n

namespace Nests

variable {n : Nat}

theorem of_neutral (h : ∀ a ∈ l, opens a = false) : Nests n l := by
  intro s hs
  have hz : opened s = 0 := List.countP_eq_zero.mpr fun a ha => by simp [h a (hs.mem ha)]
  omega

theorem append_iff (h : Balanced l) : Nests n (l ++ r) ↔ Nests n l ∧ Nests n r where
  mp hn := by
    refine ⟨fun s hs => hn s (hs.trans (List.prefix_append l r)), fun s hs => ?_⟩
    have := hn (l ++ s) ((List.prefix_append_right_inj l).mpr hs)
    have := h.total
    simp at *
    omega
  mpr := fun ⟨hl, hr⟩ s hs => by
    cases prefix_append_cases hs
    case inl hs => exact hl s hs
    case inr hs =>
      have ⟨t, ht, e⟩ := hs
      have := hr t ht
      have := h.total
      simp [e]
      omega

theorem opened_lt (ho : opens o) (h : Nests n (l ++ o :: r)) : opened l < closed l + n := by
  have := h (l ++ [o]) ((List.prefix_append_right_inj l).mpr ⟨r, rfl⟩)
  simp [ho, Bracketed.closes_of_opens ho] at this
  omega

theorem not_group (ho : opens o) : ¬Nests 0 (o :: l) := by
  intro h
  have := h [o] ⟨l, rfl⟩
  simp [ho, Bracketed.closes_of_opens ho] at this

theorem group_iff (ho : opens o) (hc : closes c) (h : Balanced l) :
    Nests (n + 1) (o :: l ++ [c]) ↔ Nests n l where
  mp hn := by
    intro s hs
    have hp : o :: s <+: o :: l ++ [c] :=
      List.cons_prefix_cons.mpr ⟨rfl, hs.trans (List.prefix_append l [c])⟩
    have := hn (o :: s) hp
    simp [ho, Bracketed.closes_of_opens ho] at this
    omega
  mpr hn := by
    intro s hs
    cases List.prefix_concat_iff.mp hs
    case inl e =>
      have := (h.group ho hc).total
      rw [e]
      omega
    case inr hs =>
      cases List.prefix_cons_iff.mp hs
      case inl e => simp [e]
      case inr hs =>
        have ⟨t, e, ht⟩ := hs
        have := hn t ht
        simp [e, ho, Bracketed.closes_of_opens ho]
        omega

end Nests

end Abacus
