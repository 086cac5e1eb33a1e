import Abacus.Proofs.Brackets
import Abacus.Proofs.Layer
import Abacus.Proofs.Machine

namespace Abacus

instance {α : Type} [Bracketed α] : Bracketed (Spanned α) where
  opens x  := opens x.value
  closes x := closes x.value
  closes_of_opens := Bracketed.closes_of_opens

-- How many groups are open behind one more bracket. One that closes without a partner closes none.
def openAfter {α : Type} [Bracketed α] (n : Nat) (a : α) : Nat :=
  if opens a then n + 1 else if closes a then n - 1 else n

-- How many groups a sequence leaves open.
def leftOpen {α : Type} [Bracketed α] (l : List α) : Nat :=
  l.foldl openAfter 0

-- What the inside of a group comes to.
inductive HasValue (limit : Nat) : List (Spanned Token) → Float → Prop
  | empty : HasValue limit [] 0.0
  | evaluated {tokens : List (Spanned Token)} {x : Float} :
    evaluate limit tokens = .ok x → HasValue limit tokens x

namespace Machine

variable {m m' outer : Machine} {limit k n : Nat} {place last : Span} {t : Spanned Token}
  {tokens : List (Spanned Token)} {x : Float}

-- The machine behind the tokens, if it fails at none of them.
def feed (limit : Nat) (m : Machine) (tokens : List (Spanned Token)) :
    Except (Spanned Fault) Machine :=
  tokens.foldlM (step limit) m

theorem feed_cons (limit : Nat) (m : Machine) (t : Spanned Token) (tokens : List (Spanned Token)) :
    m.feed limit (t :: tokens) = m.step limit t >>= (·.feed limit tokens) :=
  List.foldlM_cons

theorem run_append (m : Machine) (limit : Nat) (tokens rest : List (Spanned Token)) :
    m.run limit (tokens ++ rest) = m.feed limit tokens >>= (·.run limit rest) := by
  induction tokens generalizing m
  case nil => rfl
  case cons t tokens ih =>
    rw [List.cons_append, feed_cons, run]
    cases m.step limit t
    case error e => rfl
    case ok m' => exact ih m'

theorem run_eq_feed (m : Machine) (limit : Nat) (tokens : List (Spanned Token)) :
    m.run limit tokens = m.feed limit tokens >>= finish := by
  have h := m.run_append limit tokens []
  rwa [List.append_nil] at h

theorem length_groups_append (m : Machine) (item : Spanned Item) :
    (m.append item).groups.length = m.groups.length :=
  m.length_groups_setLevel _

-- A group that closes has been open.
theorem close_ok (h : m.close last = .ok m') :
    ∃ g groups x, m.groups = g :: groups ∧ passes g.items.reverse = .ok x ∧
      m' = { m with groups := groups }.append ⟨.number x, g.place.cover last⟩ := by
  unfold close at h
  split at h
  case h_1 => cases h
  case h_2 g groups hg =>
    split at h
    case h_1 x hx => exact ⟨g, groups, x, hg, hx, (Except.ok.inj h).symm⟩
    case h_2 => cases h

-- Brackets are all that opens and closes groups, one at a time.
theorem length_groups_step (h : m.step limit t = .ok m') :
    m.groups.length + opened [t] = m'.groups.length + closed [t] := by
  obtain ⟨value, span⟩ := t
  cases value
  case operator o =>
    cases h
    exact (m.length_groups_append _).symm
  case number y =>
    cases h
    exact (m.length_groups_append _).symm
  case opening =>
    simp only [step] at h
    split at h
    case isTrue => cases h
    case isFalse =>
      cases h
      rfl
  case closing =>
    obtain ⟨g, groups, y, hg, _, e⟩ := close_ok h
    rw [e, length_groups_append, hg]
    rfl

theorem length_groups_eq_openAfter (h : m.step limit t = .ok m') :
    m'.groups.length = openAfter m.groups.length t := by
  have hl := length_groups_step h
  unfold openAfter
  simp only [opened_cons, opened_nil, closed_cons, closed_nil] at hl
  split_ifs at hl ⊢ with ho hc
  case pos => simp [Bracketed.closes_of_opens ho] at hc
  all_goals omega

theorem length_groups_feed (h : m.feed limit tokens = .ok m') :
    m'.groups.length = tokens.foldl openAfter m.groups.length := by
  induction tokens generalizing m
  case nil =>
    cases h
    rfl
  case cons t tokens ih =>
    rw [feed_cons, Except.bind_eq_ok_iff] at h
    have ⟨m₁, hs, hf⟩ := h
    rw [ih hf, length_groups_eq_openAfter hs]
    rfl

-- The machine `m` at work on what stands inside a group of the machine `outer`.
def inside (outer : Machine) (place : Span) (m : Machine) : Machine where
  base   := outer.base
  groups := m.groups ++ ⟨place, m.base⟩ :: outer.groups

theorem inside_append (outer : Machine) (place : Span) (m : Machine) (item : Spanned Item) :
    outer.inside place (m.append item) = (outer.inside place m).append item := by
  have ⟨base, groups⟩ := m
  cases groups <;> rfl

-- Inside a group the machine does what it does outside, as long as there is room for groups.
theorem step_inside (h : m.step k t = .ok m')
    (room : opens t → m.groups.length + 1 + outer.groups.length < limit) :
    (outer.inside place m).step limit t = .ok (outer.inside place m') := by
  obtain ⟨value, span⟩ := t
  cases value
  case operator o =>
    cases h
    exact congrArg Except.ok (outer.inside_append place m _).symm
  case number y =>
    cases h
    exact congrArg Except.ok (outer.inside_append place m _).symm
  case opening =>
    simp only [step] at h
    split at h
    case isTrue => cases h
    case isFalse =>
      cases h
      have hl : (outer.inside place m).groups.length ≠ limit := by
        have := room rfl
        simp [inside]
        omega
      exact if_neg hl
  case closing =>
    obtain ⟨g, groups, y, hg, hy, e⟩ := close_ok h
    subst e
    simp only [step, close, inside, hg, List.cons_append, hy]
    exact congrArg Except.ok (outer.inside_append place { m with groups := groups } _).symm

-- The room is reckoned with the groups that are open in front of the tokens.
theorem feed_inside (h : m.feed k tokens = .ok m')
    (nests : ∀ s, s <+: tokens → opened s + m.groups.length ≤ closed s + n)
    (room : outer.groups.length + 1 + n ≤ limit) :
    (outer.inside place m).feed limit tokens = .ok (outer.inside place m') := by
  induction tokens generalizing m
  case nil =>
    cases h
    rfl
  case cons t tokens ih =>
    rw [feed_cons, Except.bind_eq_ok_iff] at h
    have ⟨m₁, hs, hf⟩ := h
    have hstep : (outer.inside place m).step limit t = .ok (outer.inside place m₁) := by
      refine step_inside hs fun ho => ?_
      have ht := nests [t] ⟨tokens, rfl⟩
      simp [ho, Bracketed.closes_of_opens ho] at ht
      omega
    have hnests (s) (hp : s <+: tokens) : opened s + m₁.groups.length ≤ closed s + n := by
      have hc := nests ([t] ++ s) (List.cons_prefix_cons.mpr ⟨rfl, hp⟩)
      have hl := length_groups_step hs
      rw [opened_append, closed_append] at hc
      omega
    rw [feed_cons, hstep]
    exact ih hf hnests

-- The machine behind tokens that have a value has no group open.
theorem exists_feed_of_hasValue (h : HasValue k tokens x) :
    ∃ m', feed k {} tokens = .ok m' ∧ m'.groups = [] ∧ passes m'.base.reverse = .ok x := by
  cases h
  case empty => exact ⟨{}, rfl, rfl, rfl⟩
  case evaluated h =>
    have hn : tokens ≠ [] := by
      rintro rfl
      cases h
    rw [evaluate_eq_run hn, run_eq_feed, Except.bind_eq_ok_iff] at h
    have ⟨m', hf, h⟩ := h
    unfold finish at h
    split at h
    case h_1 hg => exact ⟨m', hf, hg, h⟩
    case h_2 => cases h

-- A group that has a value does to the machine what the number does.
theorem run_group (h : HasValue k tokens x) (nests : Nests n tokens)
    (room : m.groups.length + 1 + n ≤ limit) (place last : Span) (rest : List (Spanned Token)) :
    m.run limit (⟨.opening, place⟩ :: (tokens ++ ⟨.closing, last⟩ :: rest)) =
      m.run limit (⟨.number x, place.cover last⟩ :: rest) := by
  have ⟨m', hf, hg, hx⟩ := exists_feed_of_hasValue h
  have hopen : m.step limit ⟨.opening, place⟩ = .ok (m.inside place {}) :=
    if_neg (by omega)
  have hinside : (m.inside place {}).feed limit tokens = .ok (m.inside place m') :=
    feed_inside hf nests room
  have hclose : (m.inside place m').step limit ⟨.closing, last⟩ =
      .ok (m.append ⟨.number x, place.cover last⟩) := by
    simp only [step, close, inside, hg, List.nil_append, hx]
  rw [run_ok hopen, run_append, hinside]
  exact (run_ok hclose rest).trans (run_ok rfl rest).symm

end Machine

-- Tokens with a value have partners for all their brackets, so this is not asked of them; nor does
-- it matter under which limit the value has been found.
theorem evaluate_replace_group {limit k n : Nat} {before tokens : List (Spanned Token)} {x : Float}
    (h : HasValue k tokens x) (nests : Nests n tokens) (room : leftOpen before + 1 + n ≤ limit)
    (place last : Span) (behind : List (Spanned Token)) :
    evaluate limit (before ++ ⟨.opening, place⟩ :: (tokens ++ ⟨.closing, last⟩ :: behind)) =
      evaluate limit (before ++ ⟨.number x, place.cover last⟩ :: behind) := by
  rw [evaluate_eq_run (by simp), evaluate_eq_run (by simp), Machine.run_append, Machine.run_append]
  cases hf : Machine.feed limit {} before
  case error e => rfl
  case ok m =>
    have hl : m.groups.length = leftOpen before := Machine.length_groups_feed hf
    exact Machine.run_group h nests (hl ▸ room) place last behind

-- The group stands behind a bracket that nothing closes, and a surplus one follows.
theorem evaluate_replace_group_unbalanced :
    let tokens : List (Spanned Token) :=
      [⟨.opening, 9, 3⟩, ⟨.closing, 1, 1⟩, ⟨.operator .minus, 4, 5⟩, ⟨.number 2.0, 5, 6⟩]
    let before : List (Spanned Token) := [⟨.opening, 0, 1⟩, ⟨.operator .divide, 1, 2⟩]
    let behind : List (Spanned Token) := [⟨.closing, 7, 8⟩, ⟨.closing, 8, 9⟩]
    HasValue 1 tokens (-2.0) ∧ Nests 1 tokens ∧ leftOpen before + 1 + 1 ≤ 3 ∧
      evaluate 3 (before ++ ⟨.opening, 2, 3⟩ :: (tokens ++ ⟨.closing, 6, 7⟩ :: behind)) =
        evaluate 3 (before ++ ⟨.number (-2.0), 2, 7⟩ :: behind) := by
  intro tokens before behind
  have h : HasValue 1 tokens (-2.0) := .evaluated (by decide +kernel)
  have nests : Nests 1 tokens := by
    let o : Spanned Token := ⟨.opening, 9, 3⟩
    let c : Spanned Token := ⟨.closing, 1, 1⟩
    have hb : Balanced [o, c] := Balanced.group (o := o) (c := c) rfl rfl .nil
    have hg : Nests 1 [o, c] :=
      (Nests.group_iff (o := o) (c := c) rfl rfl .nil).mpr (.of_neutral (by simp))
    exact (Nests.append_iff hb).mpr ⟨hg, .of_neutral (by decide)⟩
  exact ⟨h, nests, by decide, evaluate_replace_group h nests (by decide) ⟨2, 3⟩ ⟨6, 7⟩ behind⟩

end Abacus
