import Abacus.Proofs.Pairing

namespace Abacus

-- What stands in front of the first bracket that opens a group too many: as many groups are open as
-- the limit allows, no earlier bracket has found so many, and all that is closed has been open and
-- has a value.
structure Fills (limit : Nat) (before : List (Spanned Token)) : Prop where
  full     : opened before = closed before + limit
  first    : ∀ s place t, before = s ++ ⟨.opening, place⟩ :: t → opened s ≠ closed s + limit
  prefixes : ∀ s, s <+: before → closed s ≤ opened s
  groups   : ∀ s place inner last t,
    before = s ++ ⟨.opening, place⟩ :: (inner ++ ⟨.closing, last⟩ :: t) → Balanced inner →
    ∃ x, HasValue limit inner x

def IsCutOff (limit : Nat) (tokens : List (Spanned Token)) (place : Span) : Prop :=
  ∃ before behind, tokens = before ++ ⟨.opening, place⟩ :: behind ∧ Fills limit before

namespace Machine

variable {m m' outer : Machine} {limit limit' : Nat} {place : Span} {t : Spanned Token}
  {tokens before : List (Spanned Token)} {x : Float}

theorem length_groups_le_step (hl : m.groups.length ≤ limit) (h : m.step limit t = .ok m') :
    m'.groups.length ≤ limit := by
  obtain ⟨value, place⟩ := t
  cases value
  case operator o =>
    have : m.groups.length = m'.groups.length := length_groups_step h
    omega
  case number y =>
    have : m.groups.length = m'.groups.length := length_groups_step h
    omega
  case closing =>
    have : m.groups.length = m'.groups.length + 1 := length_groups_step h
    omega
  case opening =>
    simp only [step] at h
    split at h
    case isTrue => cases h
    case isFalse hn =>
      cases h
      exact Nat.lt_of_le_of_ne hl hn

theorem length_groups_le_feed (hl : m.groups.length ≤ limit) (h : m.feed limit tokens = .ok m') :
    m'.groups.length ≤ limit := by
  induction tokens generalizing m
  case nil =>
    cases h
    exact hl
  case cons t tokens ih =>
    obtain ⟨m₁, hs, hf⟩ := feed_cons_ok_iff.mp h
    exact ih (length_groups_le_step hl hs) hf

-- A limit that is reached later does the same as long as the first one is not in the way.
theorem step_mono (hl : m.groups.length ≤ limit) (hle : limit ≤ limit')
    (h : ∀ place, m.step limit t ≠ .error ⟨.nestedTooDeeply, place⟩) :
    m.step limit' t = m.step limit t := by
  obtain ⟨value, place⟩ := t
  cases value
  case opening =>
    have hn : m.groups.length ≠ limit := fun e => h place (if_pos e)
    have hn' : m.groups.length ≠ limit' := by omega
    simp only [step, if_neg hn, if_neg hn']
  all_goals rfl

theorem feed_mono (hl : m.groups.length ≤ limit) (hle : limit ≤ limit')
    (h : ∀ place, m.feed limit tokens ≠ .error ⟨.nestedTooDeeply, place⟩) :
    m.feed limit' tokens = m.feed limit tokens := by
  induction tokens generalizing m
  case nil => rfl
  case cons t tokens ih =>
    rw [feed_cons] at h
    have hs : m.step limit' t = m.step limit t :=
      step_mono hl hle fun place e => h place (by rw [e]; rfl)
    rw [feed_cons, feed_cons, hs]
    cases e : m.step limit t
    case error => rfl
    case ok m₁ =>
      rw [e] at h
      exact ih (length_groups_le_step hl e) h

-- Inside a group the machine does nothing else than outside, until the group closes.
theorem step_of_inside (hl : (outer.inside place m).groups.length ≤ limit)
    (hc : closed [t] ≤ m.groups.length) (h : (outer.inside place m).step limit t = .ok m') :
    ∃ m₁, m.step limit t = .ok m₁ ∧ m' = outer.inside place m₁ := by
  obtain ⟨value, span⟩ := t
  cases value
  case operator o =>
    cases h
    exact ⟨_, rfl, (outer.inside_append place m _).symm⟩
  case number y =>
    cases h
    exact ⟨_, rfl, (outer.inside_append place m _).symm⟩
  case opening =>
    simp only [step] at h
    split at h
    case isTrue => cases h
    case isFalse =>
      cases h
      have hn : m.groups.length ≠ limit := by
        simp [inside] at hl
        omega
      exact ⟨m.push span, if_neg hn, rfl⟩
  case closing =>
    obtain ⟨base, groups⟩ := m
    cases groups
    case nil => exact absurd hc (Nat.not_succ_le_zero 0)
    case cons g groups =>
      have hclose : (outer.inside place ⟨base, g :: groups⟩).close span = .ok m' := h
      obtain ⟨_, _, y, hg, hy, rfl⟩ := close_ok hclose
      cases hg
      refine ⟨_, ?_, (outer.inside_append place ⟨base, groups⟩ _).symm⟩
      simp only [step, close, hy]

-- The tokens close no group that is not open in `m`, so the group around them stays open.
theorem feed_of_inside (hl : (outer.inside place m).groups.length ≤ limit)
    (hc : ∀ s, s <+: tokens → closed s ≤ m.groups.length + opened s)
    (h : (outer.inside place m).feed limit tokens = .ok m') :
    ∃ m₁, m.feed limit tokens = .ok m₁ ∧ m' = outer.inside place m₁ := by
  induction tokens generalizing m
  case nil =>
    cases h
    exact ⟨m, rfl, rfl⟩
  case cons t tokens ih =>
    obtain ⟨_, hs, hf⟩ := feed_cons_ok_iff.mp h
    have ht : closed [t] ≤ m.groups.length := by
      have ht := hc [t] ⟨tokens, rfl⟩
      by_cases ho : opens t
      case pos => simp [Bracketed.closes_of_opens ho]
      case neg => simpa [ho] using ht
    obtain ⟨m₁, hs', rfl⟩ := step_of_inside hl ht hs
    have hc' (s) (hp : s <+: tokens) : closed s ≤ m₁.groups.length + opened s := by
      have hts := hc ([t] ++ s) (List.cons_prefix_cons.mpr ⟨rfl, hp⟩)
      have := length_groups_step hs'
      rw [opened_append, closed_append] at hts
      omega
    obtain ⟨m₂, hf', e⟩ := ih (length_groups_le_step hl hs) hc' hf
    exact ⟨m₂, feed_cons_ok_iff.mpr ⟨m₁, hs', hf'⟩, e⟩

theorem hasValue_of_feed (h : feed limit {} tokens = .ok m) (hg : m.groups = [])
    (hx : passes m.base.reverse = .ok x) : ∃ x, HasValue limit tokens x := by
  by_cases hn : tokens = []
  case pos => exact ⟨0.0, hn ▸ .empty⟩
  case neg =>
    refine ⟨x, .evaluated ?_⟩
    rw [evaluate_eq_run hn, run_eq_feed, h]
    simpa [Bind.bind, Except.bind, finish, hg] using hx

-- Where a bracket has nothing behind it that is left open, the innermost open group is its group.
-- This can be closed if what it holds has a value.
theorem exists_group_of_feed (hb : Balanced tokens)
    (h : feed limit {} (before ++ ⟨.opening, place⟩ :: tokens) = .ok m) :
    ∃ g outer, m.groups = g :: outer ∧
      ((∃ x, passes g.items.reverse = .ok x) ↔ ∃ x, HasValue limit tokens x) := by
  obtain ⟨m₁, hbefore, h⟩ := feed_append_ok_iff.mp h
  obtain ⟨m₂, hs, h⟩ := feed_cons_ok_iff.mp h
  have hl : m₂.groups.length ≤ limit :=
    length_groups_le_step (length_groups_le_feed (Nat.zero_le _) hbefore) hs
  -- The bracket starts a new machine inside of the one in front of it.
  have hm : m₂ = m₁.inside place {} := by
    simp only [step] at hs
    split at hs <;> cases hs
    rfl
  subst hm
  obtain ⟨m', hf, rfl⟩ := feed_of_inside hl (by simpa using hb.prefixes) h
  have hg : m'.groups = [] := by
    have ht := hb.total
    have hl := opened_of_feed hf
    exact List.length_eq_zero_iff.mp (by omega)
  refine ⟨⟨place, m'.base⟩, m₁.groups, by simp [inside, hg], ?_⟩
  constructor
  case mp =>
    rintro ⟨x, hx⟩
    exact hasValue_of_feed hf hg hx
  case mpr =>
    rintro ⟨x, hx⟩
    obtain ⟨m'', hf', _, hx⟩ := exists_feed_of_hasValue hx
    cases hf.symm.trans hf'
    exact ⟨x, hx⟩

theorem finish_ne_tooDeep (m : Machine) (place : Span) :
    m.finish ≠ .error ⟨.nestedTooDeeply, place⟩ := by
  intro h
  unfold finish at h
  split at h
  case h_1 => cases passes_error h <;> contradiction
  case h_2 => cases h

theorem fills_of_feed (h : feed limit {} before = .ok m) (hl : m.groups.length = limit) :
    Fills limit before where
  full := by rw [opened_of_feed h, hl, Nat.add_comm]
  first := by
    rintro s place t rfl e
    obtain ⟨m₁, hf, h⟩ := feed_append_ok_iff.mp h
    obtain ⟨m₂, hs, _⟩ := feed_cons_ok_iff.mp h
    have hl : m₁.groups.length = limit := by
      have := opened_of_feed hf
      omega
    rw [step, if_pos hl] at hs
    cases hs
  prefixes s hs := closed_le_of_feed h hs
  groups := by
    rintro s place inner last t rfl hb
    have hsplit : s ++ ⟨.opening, place⟩ :: (inner ++ ⟨.closing, last⟩ :: t) =
        (s ++ ⟨.opening, place⟩ :: inner) ++ ⟨.closing, last⟩ :: t := by simp
    obtain ⟨m₁, hf, h⟩ := feed_append_ok_iff.mp (hsplit ▸ h)
    obtain ⟨m₂, hs, _⟩ := feed_cons_ok_iff.mp h
    obtain ⟨g, outer, hg, hx⟩ := exists_group_of_feed hb hf
    obtain ⟨g', outer', x, hg', hx', _⟩ := close_ok hs
    cases hg.symm.trans hg'
    exact hx.mp ⟨x, hx'⟩

-- What stands at levels that are still open has not been looked at.
theorem exists_feed_of_fills (h : Fills limit before) :
    ∃ m, feed limit {} before = .ok m ∧ m.groups.length = limit := by
  cases hf : feed limit {} before
  case ok m =>
    have := h.full
    have := opened_of_feed hf
    exact ⟨m, rfl, by omega⟩
  case error e =>
    obtain ⟨front, t, back, m, rfl, hfront, hr⟩ := exists_refused hf
    have hl := opened_of_feed hfront
    cases hr
    case tooDeep place full => exact absurd (by omega) (h.first front place back rfl)
    case surplus place hg =>
      have hlt : closed front < opened front := closed_lt_opened rfl h.prefixes
      simp [hg] at hl
      omega
    case group g outer f last outermost hg hx =>
      -- The group that fails starts at the last bracket that is open here.
      have deficit : closed front < opened front := by
        simp [hg] at hl
        omega
      obtain ⟨s, ⟨value, place⟩, inner, rfl, ho, hb⟩ :=
        exists_of_deficit ⟨front, List.suffix_rfl, deficit⟩
      obtain rfl : value = .opening := eq_of_beq ho
      obtain ⟨g', outer', hg', hx'⟩ := exists_group_of_feed hb hfront
      cases hg.symm.trans hg'
      obtain ⟨x, hx''⟩ := hx'.mpr (h.groups s place inner last back (by simp) hb)
      cases hx.symm.trans hx''

end Machine

theorem evaluate_eq_tooDeep_iff {limit : Nat} {tokens : List (Spanned Token)} {place : Span} :
    evaluate limit tokens = .error ⟨.nestedTooDeeply, place⟩ ↔ IsCutOff limit tokens place where
  mp h := by
    have hn : tokens ≠ [] := by
      rintro rfl
      cases h
    rw [evaluate_eq_run hn, Machine.run_eq_feed, Except.bind_eq_error_iff] at h
    rcases h with h | ⟨m, _, h⟩
    case inr => exact absurd h (m.finish_ne_tooDeep place)
    case inl =>
      obtain ⟨before, t, behind, m, rfl, hf, hr⟩ := Machine.exists_refused h
      cases hr
      case tooDeep full => exact ⟨before, behind, rfl, Machine.fills_of_feed hf full⟩
  mpr := by
    rintro ⟨before, behind, rfl, h⟩
    obtain ⟨m, hf, hl⟩ := Machine.exists_feed_of_fills h
    rw [evaluate_eq_run (by simp), Machine.run_append, hf]
    exact Machine.run_opening_full hl place behind

-- A limit that is not in the way makes no difference, none is that is as high as brackets nest, and
-- one is in the way where it cuts the tokens off. Nothing is asked of what stands behind that place
-- or at the levels that are open there.
theorem evaluate_limit (limit : Nat) (tokens : List (Spanned Token)) :
    (∀ limit', limit ≤ limit' →
      (∀ place, evaluate limit tokens ≠ .error ⟨.nestedTooDeeply, place⟩) →
      evaluate limit' tokens = evaluate limit tokens) ∧
    (Nests limit tokens → ∀ place, evaluate limit tokens ≠ .error ⟨.nestedTooDeeply, place⟩) ∧
    ∀ place, evaluate limit tokens = .error ⟨.nestedTooDeeply, place⟩ ↔
      IsCutOff limit tokens place := by
  refine ⟨?mono, ?nests, fun place => evaluate_eq_tooDeep_iff⟩
  case mono =>
    intro limit' hle h
    by_cases hn : tokens = []
    case pos =>
      subst hn
      rfl
    case neg =>
      simp only [evaluate_eq_run hn, Machine.run_eq_feed] at h ⊢
      rw [Machine.feed_mono (Nat.zero_le _) hle fun place e => h place (by rw [e]; rfl)]
  case nests =>
    intro hn place h
    obtain ⟨before, behind, rfl, hf⟩ := evaluate_eq_tooDeep_iff.mp h
    have hlt : opened before < closed before + limit := hn.opened_lt rfl
    have := hf.full
    omega

-- In `(1)/(*(` an operand is missing and brackets are left open, but a low limit is met first.
theorem evaluate_limit_low :
    let tokens : List (Spanned Token) :=
      [⟨.opening, 0, 1⟩, ⟨.number 1.0, 1, 2⟩, ⟨.closing, 2, 3⟩, ⟨.operator .divide, 3, 4⟩,
        ⟨.opening, 4, 5⟩, ⟨.operator .times, 5, 6⟩, ⟨.opening, 6, 7⟩]
    (evaluate 1 tokens = .error ⟨.nestedTooDeeply, 6, 7⟩ ∧ IsCutOff 1 tokens ⟨6, 7⟩) ∧
    (Nests 3 tokens ∧ ∀ place, evaluate 3 tokens ≠ .error ⟨.nestedTooDeeply, place⟩) ∧
    3 ≤ 256 ∧ evaluate 256 tokens = evaluate 3 tokens := by
  intro tokens
  have low : evaluate 1 tokens = .error ⟨.nestedTooDeeply, 6, 7⟩ := by decide +kernel
  have nests : Nests 3 tokens := fun s hs => Nat.le_add_left_of_le hs.sublist.countP_le
  obtain ⟨-, -, cut⟩ := evaluate_limit 1 tokens
  obtain ⟨mono, reaches, -⟩ := evaluate_limit 3 tokens
  exact ⟨⟨low, (cut ⟨6, 7⟩).mp low⟩, ⟨nests, reaches nests⟩, by decide,
    mono 256 (by decide) (reaches nests)⟩

end Abacus
