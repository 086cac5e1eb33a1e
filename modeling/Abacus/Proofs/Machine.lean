import Abacus.Group
import Abacus.Proofs.Passes

namespace Abacus

-- A group that has not met its closing bracket yet.
structure OpenGroup where
  place : Span
  -- What the group holds so far, newest first.
  items : List (Spanned Item) := []

structure Machine where
  -- What stands outside of all groups so far, newest first.
  base : List (Spanned Item) := []
  -- The innermost group comes first.
  groups : List OpenGroup := []

namespace Machine

-- What the innermost open group holds.
def level (m : Machine) : List (Spanned Item) :=
  match m.groups with
  | [] => m.base
  | g :: _ => g.items

def setLevel (m : Machine) (items : List (Spanned Item)) : Machine :=
  match m.groups with
  | [] => { m with base := items }
  | g :: outer => { m with groups := { g with items := items } :: outer }

def append (m : Machine) (item : Spanned Item) : Machine :=
  m.setLevel (item :: m.level)

def push (m : Machine) (place : Span) : Machine :=
  { m with groups := { place } :: m.groups }

def close (m : Machine) (place : Span) : Except (Spanned Fault) Machine :=
  match m.groups with
  | [] => .error ⟨.unpairedBracket, place⟩
  | g :: outer =>
    match passes g.items.reverse with
    | .ok x => .ok <| { m with groups := outer }.append ⟨.number x, g.place.cover place⟩
    | .error _ =>
      let outermost := (g :: outer).getLast (List.cons_ne_nil g outer)
      .error ⟨.invalidExpression, outermost.place⟩

def step (limit : Nat) (m : Machine) (token : Spanned Token) : Except (Spanned Fault) Machine :=
  match token.value with
  | .operator o => .ok (m.append ⟨.operator o, token.span⟩)
  | .number x => .ok (m.append ⟨.number x, token.span⟩)
  | .closing => m.close token.span
  | .opening =>
    if m.groups.length = limit then
      .error ⟨.nestedTooDeeply, token.span⟩
    else
      .ok (m.push token.span)

def finish (m : Machine) : Except (Spanned Fault) Float :=
  match m.groups with
  | [] => passes m.base.reverse
  | g :: _ => .error ⟨.unpairedBracket, g.place⟩

def run (limit : Nat) (m : Machine) : List (Spanned Token) → Except (Spanned Fault) Float
  | [] => m.finish
  | token :: rest =>
    match m.step limit token with
    | .ok m => m.run limit rest
    | .error e => .error e

end Machine

def scan (limit : Nat) (tokens : List (Spanned Token)) : Except (Spanned Fault) Float :=
  match tokens with
  | [] => .error ⟨.invalidExpression, .before 0⟩
  | tokens => Machine.run limit {} tokens

namespace Fault

-- Faults that a group around them does not hide.
def AboutBrackets (f : Fault) : Prop :=
  f = .nestedTooDeeply ∨ f = .unpairedBracket

theorem outside_of_aboutBrackets {e : Spanned Fault} (h : e.value.AboutBrackets) (place : Span) :
    outside place e = e := by
  cases h
  all_goals
    rename_i h
    simp [outside, h]

theorem outside_of_not_aboutBrackets {e : Spanned Fault} (h : ¬e.value.AboutBrackets)
    (place : Span) : outside place e = ⟨.invalidExpression, place⟩ := by
  unfold outside
  split
  case h_1 hv => exact (h (.inl hv)).elim
  case h_2 hv => exact (h (.inr hv)).elim
  case h_3 => rfl

theorem not_aboutBrackets_of_levelValue {items : List (Spanned Item)} {e : Spanned Fault}
    (h : levelValue items = .error e) : ¬e.value.AboutBrackets := by
  cases Tally.fault_of_run h
  case inl h => simp [AboutBrackets, h]
  case inr h => simp [AboutBrackets, h]

end Fault

namespace Machine

variable {m : Machine} {limit : Nat} {place : Span} {e : Spanned Fault}

-- A fault inside the innermost open group as it looks from outside of all groups.
def report (m : Machine) (e : Spanned Fault) : Spanned Fault :=
  m.groups.foldl (fun e g => Fault.outside g.place e) e

theorem report_push (m : Machine) (place : Span) (e : Spanned Fault) :
    (m.push place).report e = m.report (Fault.outside place e) :=
  rfl

theorem report_of_aboutBrackets (m : Machine) (h : e.value.AboutBrackets) : m.report e = e := by
  unfold report
  induction m.groups
  case nil => rfl
  case cons g outer ih => rw [List.foldl_cons, Fault.outside_of_aboutBrackets h, ih]

theorem report_of_not_aboutBrackets {g : OpenGroup} {outer : List OpenGroup}
    (hg : m.groups = g :: outer) (h : ¬e.value.AboutBrackets) :
    m.report e = ⟨.invalidExpression, ((g :: outer).getLast (List.cons_ne_nil g outer)).place⟩ := by
  unfold report
  rw [hg]
  clear hg
  induction outer generalizing g e
  case nil => exact Fault.outside_of_not_aboutBrackets h _
  case cons g' outer ih =>
    rw [List.foldl_cons, Fault.outside_of_not_aboutBrackets h, List.getLast_cons_cons]
    exact ih (by simp [Fault.AboutBrackets])

theorem level_setLevel (m : Machine) (items : List (Spanned Item)) :
    (m.setLevel items).level = items := by
  cases h : m.groups <;> simp [level, setLevel, h]

theorem setLevel_level (m : Machine) : m.setLevel m.level = m := by
  have ⟨base, groups⟩ := m
  cases groups <;> rfl

theorem setLevel_setLevel (m : Machine) (items items' : List (Spanned Item)) :
    (m.setLevel items).setLevel items' = m.setLevel items' := by
  cases h : m.groups <;> simp [setLevel, h]

theorem length_groups_setLevel (m : Machine) (items : List (Spanned Item)) :
    (m.setLevel items).groups.length = m.groups.length := by
  cases h : m.groups <;> simp [setLevel, h]

theorem report_setLevel (m : Machine) (items : List (Spanned Item)) (e : Spanned Fault) :
    (m.setLevel items).report e = m.report e := by
  cases h : m.groups <;> simp [setLevel, report, h]

theorem run_error {token : Spanned Token} (h : m.step limit token = .error e)
    (rest : List (Spanned Token)) : m.run limit (token :: rest) = .error e := by
  rw [run, h]

theorem run_ok {token : Spanned Token} {m' : Machine} (h : m.step limit token = .ok m')
    (rest : List (Spanned Token)) : m.run limit (token :: rest) = m'.run limit rest := by
  rw [run, h]

theorem run_opening (h : m.groups.length < limit) (place : Span) (rest : List (Spanned Token)) :
    m.run limit (⟨.opening, place⟩ :: rest) = (m.push place).run limit rest := by
  apply run_ok
  exact if_neg (Nat.ne_of_lt h)

theorem run_opening_full (h : m.groups.length = limit) (place : Span)
    (rest : List (Spanned Token)) :
    m.run limit (⟨.opening, place⟩ :: rest) = .error ⟨.nestedTooDeeply, place⟩ := by
  apply run_error
  exact if_pos h

theorem run_closing_push (m : Machine) (limit : Nat) (place last : Span)
    (items : List (Spanned Item)) (rest : List (Spanned Token)) :
    ((m.push place).setLevel items.reverse).run limit (⟨.closing, last⟩ :: rest) =
      match levelValue items with
      | .ok x => (m.append ⟨.number x, place.cover last⟩).run limit rest
      | .error e => .error (m.report (Fault.outside place e)) := by
  have hp := levelValue_eq_passes items
  have hg : ((m.push place).setLevel items.reverse).groups = ⟨place, items.reverse⟩ :: m.groups :=
    rfl
  cases h : levelValue items <;> rw [h] at hp
  case ok x =>
    apply run_ok
    simp only [step, close, hg, List.reverse_reverse, ← hp]
    rfl
  case error e =>
    have hr := report_of_not_aboutBrackets hg (Fault.not_aboutBrackets_of_levelValue h)
    rw [report_setLevel, report_push] at hr
    apply run_error
    simp only [step, close, hg, List.reverse_reverse, ← hp, hr]

-- What the machine does on the tokens of the level it is in, where `result` is what is read of that
-- level once `consumed` of its tokens have been read before.
def Follows (m : Machine) (limit consumed : Nat) (tokens : List (Spanned Token)) :
    Except (Spanned Fault) Layer → Prop
  | .error e => m.run limit tokens = .error (m.report e)
  | .ok ⟨items, none, _⟩ => m.run limit tokens = (m.setLevel items.reverse).finish
  | .ok ⟨items, some close, n⟩ =>
    consumed < n ∧ m.run limit tokens =
      (m.setLevel items.reverse).run limit (⟨.closing, close⟩ :: tokens.drop (n - consumed))

theorem Follows.of_run {tokens : List (Spanned Token)} {items : List (Spanned Item)}
    {consumed k : Nat} {result : Except (Spanned Fault) Layer}
    (hr : m.run limit tokens = (m.setLevel items).run limit (tokens.drop k))
    (h : (m.setLevel items).Follows limit (consumed + k) (tokens.drop k) result) :
    m.Follows limit consumed tokens result := by
  match result with
  | .error e =>
    simp only [Follows, report_setLevel] at h ⊢
    exact hr.trans h
  | .ok ⟨items', none, _⟩ =>
    simp only [Follows, setLevel_setLevel] at h ⊢
    exact hr.trans h
  | .ok ⟨items', some close, n⟩ =>
    simp only [Follows, setLevel_setLevel, List.drop_drop] at h ⊢
    have hn : k + (n - (consumed + k)) = n - consumed := by omega
    rw [hn] at h
    exact ⟨by omega, hr.trans h.right⟩

theorem follows_readLayer (limit depth : Nat) (items : List (Spanned Item)) (consumed : Nat)
    (tokens : List (Spanned Token)) (m : Machine) (hd : m.groups.length = depth)
    (hl : depth ≤ limit) (hi : m.level = items) :
    m.Follows limit consumed tokens (readLayer limit depth items consumed tokens) := by
  fun_induction readLayer limit depth items consumed tokens generalizing m
  case case1 depth items consumed =>
    simp [Follows, run, ← hi, setLevel_level]
  case case2 depth items consumed place rest =>
    simp [Follows, ← hi, setLevel_level]
  case case3 depth items consumed o place rest ih =>
    subst hi
    apply Follows.of_run (k := 1) (run_ok rfl rest)
    exact ih _ ((length_groups_setLevel _ _).trans hd) hl (level_setLevel _ _)
  case case4 depth items consumed x place rest ih =>
    subst hi
    apply Follows.of_run (k := 1) (run_ok rfl rest)
    exact ih _ ((length_groups_setLevel _ _).trans hd) hl (level_setLevel _ _)
  case case5 depth items consumed place rest full =>
    have hr := m.report_of_aboutBrackets (e := ⟨.nestedTooDeeply, place⟩) (.inl rfl)
    exact (run_opening_full (by omega) place rest).trans (congrArg _ hr.symm)
  case case6 depth items consumed place rest room e he ih =>
    have inner := ih (m.push place) (congrArg (· + 1) hd) (by omega) rfl
    rw [he] at inner
    exact (run_opening (by omega) place rest).trans inner
  case case7 depth items consumed place rest room items' n he ih =>
    have inner := ih (m.push place) (congrArg (· + 1) hd) (by omega) rfl
    rw [he] at inner
    have hr := m.report_of_aboutBrackets (e := ⟨.unpairedBracket, place⟩) (.inr rfl)
    have hu := inner.trans (congrArg Except.error hr.symm)
    exact (run_opening (by omega) place rest).trans hu
  case case8 depth items consumed place rest room items' close n he e hv ih =>
    have inner := ih (m.push place) (congrArg (· + 1) hd) (by omega) rfl
    rw [he] at inner
    have hc := m.run_closing_push limit place close items' (rest.drop n)
    rw [hv] at hc
    exact (run_opening (by omega) place rest).trans (inner.right.trans hc)
  case case9 depth items consumed place rest room items' close n he x hv ih ih' =>
    have inner := ih (m.push place) (congrArg (· + 1) hd) (by omega) rfl
    rw [he] at inner
    have hc := m.run_closing_push limit place close items' (rest.drop n)
    rw [hv] at hc
    subst hi
    apply Follows.of_run (k := n + 1)
    case hr => exact (run_opening (by omega) place rest).trans (inner.right.trans hc)
    case h =>
      have hn : consumed + (n + 1) = consumed + 1 + n := by omega
      rw [hn]
      exact ih' _ ((length_groups_setLevel _ _).trans hd) hl (level_setLevel _ _)

end Machine

theorem evaluate_eq_run {tokens : List (Spanned Token)} (h : tokens ≠ []) (limit : Nat) :
    evaluate limit tokens = Machine.run limit {} tokens := by
  have hf := Machine.follows_readLayer limit 0 [] 0 tokens {} rfl (Nat.zero_le _) rfl
  simp only [evaluate, List.isEmpty_iff, h, if_false]
  match readLayer limit 0 [] 0 tokens, hf with
  | .error _, hf => exact hf.symm
  | .ok ⟨_, some _, _⟩, hf => exact hf.right.symm
  | .ok ⟨items, none, _⟩, hf =>
    have hp := levelValue_eq_passes items
    have hl : ({} : Machine).setLevel items.reverse = { base := items.reverse } := rfl
    simp only [Machine.Follows, hl, Machine.finish, List.reverse_reverse] at hf
    exact hp.trans hf.symm

-- The recursive evaluator and the machine agree, value or fault with its place.
theorem evaluate_eq_scan (limit : Nat) (tokens : List (Spanned Token)) :
    evaluate limit tokens = scan limit tokens := by
  cases tokens
  case nil => rfl
  case cons token rest => exact evaluate_eq_run (List.cons_ne_nil token rest) limit

end Abacus
