import Abacus.Proofs.Expression
import Abacus.Proofs.Passes
import Mathlib.Algebra.Ring.Parity
import Mathlib.Data.List.Basic
import Mathlib.Order.Bounds.Basic

namespace Abacus

-- What `*` or `/` joins to a chain.
inductive Factor where
  | times (y : Float)
  | divide (y : Float)

namespace Factor

def items : Factor → List Item
  | times y => [.operator .times, .number y]
  | divide y => [.operator .divide, .number y]

def apply (x : Float) : Factor → Float
  | times y => x * y
  | divide y => x / y

end Factor

-- Signs stand between chains, so a chain goes on as far as `*` and `/` do.
structure Chain where
  first   : Float
  factors : List Factor := []

namespace Chain

def items (c : Chain) : List Item :=
  .number c.first :: c.factors.flatMap Factor.items

def value (c : Chain) : Float :=
  c.factors.foldl Factor.apply c.first

end Chain

def Sign.item (s : Sign) : Item :=
  .operator s.operator

-- Whether signs take away what stands behind them.
def Negates (signs : List Sign) : Prop :=
  Odd (signs.count .minus)

instance (signs : List Sign) : Decidable (Negates signs) :=
  inferInstanceAs (Decidable (Odd _))

-- A chain with the signs between it and the chain in front of it.
structure Summand where
  signs : List Sign
  chain : Chain

namespace Summand

def items (s : Summand) : List Item :=
  s.signs.map Sign.item ++ s.chain.items

def value (s : Summand) : Float :=
  s.chain.value * if Negates s.signs then -1.0 else 1.0

end Summand

structure SignedSum where
  summands : List Summand := []
  -- The signs behind the last chain, which have no effect.
  trailing : List Sign := []

namespace SignedSum

def items (l : SignedSum) : List Item :=
  l.summands.flatMap Summand.items ++ l.trailing.map Sign.item

def value (l : SignedSum) : Float :=
  l.summands.foldl (fun x s => x + s.value) 0.0

end SignedSum

def IsNumber (i : Option Item) : Prop :=
  ∃ x, i = some (.number x)

-- What is wrong with the `*` or `/` that stands first behind the items `front`.
inductive Fails (front : List (Spanned Item)) : List (Spanned Item) → Spanned Fault → Prop
  | missing {o : Operator} {place : Span} {back : List (Spanned Item)} :
    o = .times ∨ o = .divide →
    ¬(IsNumber (front.map (·.value)).getLast? ∧ IsNumber (back.map (·.value)).head?) →
    Fails front (⟨.operator o, place⟩ :: back) ⟨.missingOperand, place⟩
  | zero {place right : Span} {y : Float} {back : List (Spanned Item)} :
    IsNumber (front.map (·.value)).getLast? → y == 0.0 →
    Fails front (⟨.operator .divide, place⟩ :: ⟨.number y, right⟩ :: back)
      ⟨.divisionByZero, right⟩

def FailsAt (items : List (Spanned Item)) (i : Nat) (e : Spanned Fault) : Prop :=
  Fails (items.take i) (items.drop i) e

inductive Amounts (items : List (Spanned Item)) : Except (Spanned Fault) Float → Prop
  | fails {i : Nat} {e : Spanned Fault} :
    IsLeast {i | ∃ e, FailsAt items i e} i → FailsAt items i e → Amounts items (.error e)
  | sums {l : SignedSum} :
    (∀ i e, ¬FailsAt items i e) → l.items = items.map (·.value) → Amounts items (.ok l.value)

variable {items front rest : List (Spanned Item)} {it : Spanned Item} {e e' : Spanned Fault}
  {k : Nat} {place right : Span} {x y : Float} {o : Operator} {t : Tally} {l l' : SignedSum}

theorem isNumber_number (x : Float) : IsNumber (some (.number x)) :=
  ⟨x, rfl⟩

theorem not_isNumber_operator (o : Operator) : ¬IsNumber (some (.operator o)) :=
  nofun

theorem not_isNumber_none : ¬IsNumber none :=
  nofun

namespace Fails

theorem unique (h : Fails front rest e) (h' : Fails front rest e') : e = e' := by
  cases h <;> cases h'
  case missing.missing => rfl
  case missing.zero hf _ _ missing => exact absurd ⟨hf, isNumber_number _⟩ missing
  case zero.missing hf _ _ missing => exact absurd ⟨hf, isNumber_number _⟩ missing
  case zero.zero => rfl

theorem not_nil : ¬Fails front [] e :=
  nofun

theorem not_number : ¬Fails front (⟨.number x, place⟩ :: rest) e :=
  nofun

theorem not_sign (ho : ¬(o = .times ∨ o = .divide)) :
    ¬Fails front (⟨.operator o, place⟩ :: rest) e := by
  intro h
  cases h
  case missing h _ => exact ho h
  case zero => exact ho (.inr rfl)

theorem not_factor (hf : IsNumber (front.map (·.value)).getLast?)
    (hy : o = .divide → ¬y == 0.0) :
    ¬Fails front (⟨.operator o, place⟩ :: ⟨.number y, right⟩ :: rest) e := by
  intro h
  cases h
  case missing missing => exact missing ⟨hf, isNumber_number y⟩
  case zero zero => exact hy rfl zero

end Fails

theorem failsAt_append : FailsAt (front ++ rest) front.length e ↔ Fails front rest e := by
  simp [FailsAt]

namespace SignedSum

def sign (l : SignedSum) (s : Sign) : SignedSum :=
  { l with trailing := l.trailing ++ [s] }

def number (l : SignedSum) (x : Float) : SignedSum where
  summands := l.summands ++ [⟨l.trailing, { first := x }⟩]

theorem items_sign (l : SignedSum) (s : Sign) : (l.sign s).items = l.items ++ [s.item] := by
  simp [items, sign]

theorem items_number (l : SignedSum) (x : Float) :
    (l.number x).items = l.items ++ [.number x] := by
  simp [items, number, Summand.items, Chain.items]

theorem value_append (ss : List Summand) (s : Summand) :
    value ⟨ss ++ [s], []⟩ = value ⟨ss, []⟩ + s.value := by
  simp [value]

end SignedSum

def Summand.join (s : Summand) (f : Factor) : Summand :=
  { s with chain := { s.chain with factors := s.chain.factors ++ [f] } }

theorem Summand.items_join (s : Summand) (f : Factor) : (s.join f).items = s.items ++ f.items := by
  simp [items, join, Chain.items]

theorem Summand.chain_join (s : Summand) (f : Factor) :
    (s.join f).chain.value = f.apply s.chain.value := by
  simp [join, Chain.value]

theorem negates_minus (signs : List Sign) : Negates (signs ++ [.minus]) ↔ ¬Negates signs := by
  simp [Negates, Nat.odd_add_one]

theorem negates_plus (signs : List Sign) : Negates (signs ++ [.plus]) ↔ Negates signs := by
  simp [Negates]

theorem isNumber_getLast?_chain (is : List Item) (c : Chain) :
    IsNumber (is ++ c.items).getLast? := by
  obtain ⟨x, fs⟩ := c
  cases fs using List.reverseRecOn
  case nil => simp [Chain.items, isNumber_number]
  case append_singleton fs f _ =>
    cases f <;> simp [Chain.items, Factor.items, List.getLast?_cons, isNumber_number]

namespace Tally

-- What the tally has read is the signed sum `l`.
inductive Counts (t : Tally) : SignedSum → Prop
  | settled {l : SignedSum} :
    t.chain = none → t.sum = l.value → (t.negative ↔ Negates l.trailing) →
    ¬IsNumber l.items.getLast? → Counts t l
  | chain {ss : List Summand} {s : Summand} :
    t.chain = some s.chain.value → t.sum = SignedSum.value ⟨ss, []⟩ →
    (t.negative ↔ Negates s.signs) → Counts t ⟨ss ++ [s], []⟩

namespace Counts

theorem nil : Counts {} {} :=
  .settled rfl rfl (by simp [Negates]) not_isNumber_none

theorem sum_settle (h : t.Counts l) : t.settle.sum = l.value := by
  cases h
  case settled h sum _ _ => simp [settle, h, sum]
  case chain ss s h sum sign =>
    rw [SignedSum.value_append, Summand.value, ← sum]
    simp [settle, h, Tally.sign, ← sign]

theorem negative_settle (h : t.Counts l) : t.settle.negative ↔ Negates l.trailing := by
  cases h
  case settled h _ sign _ => simpa [settle, h] using sign
  case chain h _ _ => simp [settle, h, Negates]

theorem isNumber_iff (h : t.Counts l) : IsNumber l.items.getLast? ↔ ∃ x, t.chain = some x := by
  cases h
  case settled h _ _ last => simp [h, last]
  case chain ss s h _ _ =>
    have hs : SignedSum.items ⟨ss ++ [s], []⟩ =
        (ss.flatMap Summand.items ++ s.signs.map Sign.item) ++ s.chain.items := by
      simp [SignedSum.items, Summand.items]
    rw [hs]
    exact iff_of_true (isNumber_getLast?_chain _ _) ⟨_, h⟩

theorem number (h : t.Counts l) (x : Float) :
    Counts { t.settle with chain := some x } (l.number x) :=
  .chain rfl h.sum_settle h.negative_settle

theorem plus (h : t.Counts l) : t.settle.Counts (l.sign .plus) := by
  refine .settled t.settle_chain h.sum_settle ?_ ?_
  · exact h.negative_settle.trans (negates_plus _).symm
  · simpa [SignedSum.items_sign, Sign.item] using not_isNumber_operator _

theorem minus (h : t.Counts l) : t.settle.negate.Counts (l.sign .minus) := by
  refine .settled t.settle_chain h.sum_settle ?_ ?_
  · rw [SignedSum.sign, negates_minus, ← h.negative_settle]
    simp [negate]
  · simpa [SignedSum.items_sign, Sign.item] using not_isNumber_operator _

theorem factor (h : t.Counts l) (hx : t.chain = some x) (f : Factor) :
    ∃ l', l'.items = l.items ++ f.items ∧ Counts { t with chain := some (f.apply x) } l' := by
  cases h
  case settled h _ _ _ => simp [hx] at h
  case chain ss s h sum sign =>
    cases hx.symm.trans h
    refine ⟨⟨ss ++ [s.join f], []⟩, ?_, .chain ?_ sum sign⟩
    · simp [SignedSum.items, Summand.items_join]
    · rw [Summand.chain_join]

end Counts

end Tally

-- What is true of a level if behind its first `k` items it comes to `result`.
def Ends (items : List (Spanned Item)) (k : Nat) : Except (Spanned Fault) Float → Prop
  | .error e => ∃ i, IsLeast {i | k ≤ i ∧ ∃ e, FailsAt items i e} i ∧ FailsAt items i e
  | .ok x =>
    (∀ i e, k ≤ i → ¬FailsAt items i e) ∧
    ∃ l : SignedSum, l.items = items.map (·.value) ∧ l.value = x

namespace Ends

variable {result : Except (Spanned Fault) Float}

theorem of_fails (h : Fails front rest e) : Ends (front ++ rest) front.length (.error e) :=
  have hi := failsAt_append.mpr h
  ⟨front.length, ⟨⟨Nat.le_refl _, e, hi⟩, fun _ => And.left⟩, hi⟩

theorem of_succ (h : ∀ e, ¬FailsAt items k e) (hr : Ends items (k + 1) result) :
    Ends items k result := by
  have hk {i} {e} (hi : k ≤ i) (he : FailsAt items i e) : k + 1 ≤ i :=
    Nat.lt_of_le_of_ne hi fun hik => h e (hik ▸ he)
  match result, hr with
  | .error e, ⟨i, ⟨⟨hi, hie⟩, least⟩, he⟩ =>
    exact ⟨i, ⟨⟨Nat.le_of_succ_le hi, hie⟩, fun j ⟨hj, e, hje⟩ => least ⟨hk hj hje, e, hje⟩⟩, he⟩
  | .ok x, ⟨sound, hl⟩ => exact ⟨fun i e hi he => sound i e (hk hi he) he, hl⟩

theorem of_cons (h : ∀ e, ¬Fails front (it :: rest) e)
    (hr : Ends (front ++ [it] ++ rest) (front ++ [it]).length result) :
    Ends (front ++ it :: rest) front.length result := by
  rw [List.append_assoc, List.singleton_append, List.length_append, List.length_singleton] at hr
  exact of_succ (fun e he => h e (failsAt_append.mp he)) hr

end Ends

namespace Tally.Counts

theorem fails_missing (h : t.Counts l) (hf : front.map (·.value) = l.items)
    (ho : o = .times ∨ o = .divide)
    (missing : ∀ x y right rest', t.chain = some x → rest = ⟨.number y, right⟩ :: rest' → False) :
    Fails front (⟨.operator o, place⟩ :: rest) ⟨.missingOperand, place⟩ := by
  refine .missing ho fun ⟨hl, y, hr⟩ => ?_
  obtain ⟨x, hx⟩ := h.isNumber_iff.mp (hf ▸ hl)
  obtain ⟨_, hr⟩ := List.head?_eq_some_iff.mp hr
  obtain ⟨⟨_, right⟩, rest', rfl, rfl, _⟩ := List.map_eq_cons_iff.mp hr
  exact missing x y right rest' hx rfl

-- The induction goes along the run. What is in front has been counted, and what fails is next.
theorem ends (h : t.Counts l) (hf : front.map (·.value) = l.items) :
    Ends (front ++ rest) front.length (t.run rest) := by
  fun_induction run t rest generalizing front l
  case case1 t =>
    refine ⟨fun i e hi he => ?_, l, by simp [hf], h.sum_settle.symm⟩
    have hd : (front ++ []).drop i = [] := by simpa using hi
    rw [FailsAt, hd] at he
    exact Fails.not_nil he
  case case2 t x place rest ih =>
    refine .of_cons (fun _ => Fails.not_number) (ih (h.number x) ?_)
    simp [hf, SignedSum.items_number]
  case case3 t place rest ih =>
    refine .of_cons (fun _ => Fails.not_sign (by simp)) (ih h.plus ?_)
    simp [hf, SignedSum.items_sign, Sign.item, Sign.operator]
  case case4 t place rest ih =>
    refine .of_cons (fun _ => Fails.not_sign (by simp)) (ih h.minus ?_)
    simp [hf, SignedSum.items_sign, Sign.item, Sign.operator]
  case case5 t place x y right rest hx ih =>
    have hn : IsNumber (front.map (·.value)).getLast? := hf ▸ h.isNumber_iff.mpr ⟨x, hx⟩
    obtain ⟨l', hl, h'⟩ := h.factor hx (.times y)
    refine .of_cons (fun _ => Fails.not_factor hn (by simp)) (.of_cons (fun _ => Fails.not_number) ?_)
    exact ih h' (by simp [hf, hl, Factor.items])
  case case6 t place rest missing => exact .of_fails (h.fails_missing hf (.inl rfl) missing)
  case case7 t place x y right rest hx zero =>
    have hn : IsNumber (front.map (·.value)).getLast? := hf ▸ h.isNumber_iff.mpr ⟨x, hx⟩
    exact .of_fails (.zero hn zero)
  case case8 t place x y right rest hx nonzero ih =>
    have hn : IsNumber (front.map (·.value)).getLast? := hf ▸ h.isNumber_iff.mpr ⟨x, hx⟩
    obtain ⟨l', hl, h'⟩ := h.factor hx (.divide y)
    refine .of_cons (fun _ => Fails.not_factor hn fun _ => nonzero)
      (.of_cons (fun _ => Fails.not_number) ?_)
    exact ih h' (by simp [hf, hl, Factor.items])
  case case9 t place rest missing => exact .of_fails (h.fails_missing hf (.inr rfl) missing)

end Tally.Counts

-- Where no code starts with another one and what follows starts with none, a list of codes can be
-- told from what follows.
theorem flatMap_append_cancel {α β : Type} {code : α → List β} {as as' : List α} {r r' : List β}
    (hc : ∀ a a' s s', code a ++ s = code a' ++ s' → a = a' ∧ s = s')
    (hr : ∀ a s, r ≠ code a ++ s) (hr' : ∀ a s, r' ≠ code a ++ s)
    (h : as.flatMap code ++ r = as'.flatMap code ++ r') : as = as' ∧ r = r' := by
  induction as generalizing as'
  case nil =>
    cases as'
    case nil => exact ⟨rfl, h⟩
    case cons a as' =>
      rw [List.flatMap_cons, List.append_assoc] at h
      exact absurd h (hr a _)
  case cons a as ih =>
    cases as'
    case nil =>
      rw [List.flatMap_cons, List.append_assoc] at h
      exact absurd h.symm (hr' a _)
    case cons a' as' =>
      simp only [List.flatMap_cons, List.append_assoc] at h
      obtain ⟨ha, h⟩ := hc _ _ _ _ h
      obtain ⟨has, h⟩ := ih h
      exact ⟨by rw [ha, has], h⟩

theorem Sign.item_injective : Function.Injective Sign.item := by
  intro s s' h
  cases s <;> cases s' <;> first | rfl | cases h

theorem Sign.item_ne_number (s : Sign) (x : Float) : s.item ≠ .number x :=
  nofun

theorem Sign.append_cancel {ss ss' : List Sign} {r r' : List Item}
    (hr : ∀ (s : Sign) t, r ≠ s.item :: t) (hr' : ∀ (s : Sign) t, r' ≠ s.item :: t)
    (h : ss.map Sign.item ++ r = ss'.map Sign.item ++ r') : ss = ss' ∧ r = r' := by
  rw [List.map_eq_flatMap, List.map_eq_flatMap] at h
  refine flatMap_append_cancel ?_ hr hr' h
  intro s s' t t' h
  obtain ⟨hs, h⟩ := List.cons.inj h
  exact ⟨item_injective hs, h⟩

theorem Sign.number_append_cancel {ss ss' : List Sign} {x x' : Float} {r r' : List Item}
    (h : ss.map Sign.item ++ .number x :: r = ss'.map Sign.item ++ .number x' :: r') :
    ss = ss' ∧ x = x' ∧ r = r' := by
  have hn (x : Float) (r) (s : Sign) (t) : Item.number x :: r ≠ s.item :: t :=
    fun h => s.item_ne_number x (List.cons.inj h).left.symm
  obtain ⟨hs, h⟩ := append_cancel (hn x r) (hn x' r') h
  obtain ⟨hx, h⟩ := List.cons.inj h
  exact ⟨hs, Item.number.inj hx, h⟩

theorem Factor.append_cancel {fs fs' : List Factor} {r r' : List Item}
    (hr : ∀ (f : Factor) s, r ≠ f.items ++ s) (hr' : ∀ (f : Factor) s, r' ≠ f.items ++ s)
    (h : fs.flatMap Factor.items ++ r = fs'.flatMap Factor.items ++ r') : fs = fs' ∧ r = r' := by
  refine flatMap_append_cancel ?_ hr hr' h
  intro f f' s s' h
  cases f <;> cases f' <;> simp_all [Factor.items]

namespace SignedSum

variable {ss ss' : List Summand} {tr tr' : List Sign}

theorem items_nil (tr : List Sign) : SignedSum.items ⟨[], tr⟩ = tr.map Sign.item :=
  rfl

theorem items_cons (s : Summand) (ss : List Summand) (tr : List Sign) :
    SignedSum.items ⟨s :: ss, tr⟩ = s.signs.map Sign.item ++ .number s.chain.first ::
      (s.chain.factors.flatMap Factor.items ++ SignedSum.items ⟨ss, tr⟩) := by
  simp [SignedSum.items, Summand.items, Chain.items]

theorem items_ne_factor (l : SignedSum) (f : Factor) (s : List Item) : l.items ≠ f.items ++ s := by
  obtain ⟨ss, tr⟩ := l
  intro h
  cases ss
  case nil =>
    rw [items_nil] at h
    cases tr with
    | nil => cases f <;> cases h
    | cons s tr => cases s <;> cases f <;> cases h
  case cons s ss =>
    rw [items_cons] at h
    obtain ⟨signs, x, fs⟩ := s
    cases signs with
    | nil => cases f <;> cases h
    | cons s signs => cases s <;> cases f <;> cases h

theorem items_nil_ne_cons (s : Summand) :
    SignedSum.items ⟨[], tr⟩ ≠ SignedSum.items ⟨s :: ss, tr'⟩ := by
  rw [items_nil, items_cons]
  intro h
  have hm : Item.number s.chain.first ∈ tr.map Sign.item := h ▸ by simp
  obtain ⟨s', _, hs⟩ := List.mem_map.mp hm
  exact s'.item_ne_number _ hs

-- There is just one way to cut items into chains with signs between them.
theorem items_injective (h : l.items = l'.items) : l = l' := by
  obtain ⟨ss, tr⟩ := l
  obtain ⟨ss', tr'⟩ := l'
  induction ss generalizing ss'
  case nil =>
    cases ss'
    case nil => exact congrArg (SignedSum.mk []) (List.map_injective_iff.mpr Sign.item_injective h)
    case cons s' ss' => exact absurd h (items_nil_ne_cons s')
  case cons s ss ih =>
    cases ss'
    case nil => exact absurd h.symm (items_nil_ne_cons s)
    case cons s' ss' =>
      obtain ⟨signs, x, fs⟩ := s
      obtain ⟨signs', x', fs'⟩ := s'
      rw [items_cons, items_cons] at h
      obtain ⟨hs, hx, hr⟩ := Sign.number_append_cancel h
      obtain ⟨hf, ht⟩ := Factor.append_cancel (items_ne_factor _) (items_ne_factor _) hr
      cases ih ss' ht
      cases hs
      cases hx
      cases hf
      rfl

end SignedSum

namespace Amounts

variable {result result' : Except (Spanned Fault) Float}

theorem of_ends (h : Ends items 0 result) : Amounts items result := by
  match result, h with
  | .error e, ⟨i, least, he⟩ => exact .fails (by simpa using least) he
  | .ok _, ⟨sound, l, hl, rfl⟩ => exact .sums (fun i e => sound i e (Nat.zero_le i)) hl

theorem unique (h : Amounts items result) (h' : Amounts items result') : result = result' := by
  cases h <;> cases h'
  case fails.fails least he _ _ least' he' =>
    cases least.unique least'
    rw [Fails.unique he he']
  case fails.sums he _ sound _ => exact absurd he (sound _ _)
  case sums.fails sound _ _ _ _ he => exact absurd he (sound _ _)
  case sums.sums hl _ _ hl' => rw [SignedSum.items_injective (hl.trans hl'.symm)]

end Amounts

-- The two passes and the tally come to the same, and this is what the level amounts to.
theorem levelValue_eq_iff (items : List (Spanned Item)) (result : Except (Spanned Fault) Float) :
    (levelValue items = result ↔ Amounts items result) ∧ passes items = levelValue items := by
  have hn : Ends ([] ++ items) 0 (levelValue items) := Tally.Counts.nil.ends rfl
  have h : Amounts items (levelValue items) := .of_ends hn
  exact ⟨⟨fun e => e ▸ h, h.unique⟩, (levelValue_eq_passes items).symm⟩

end Abacus
