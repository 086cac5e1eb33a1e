import Abacus.Fault
import Abacus.Token

namespace Abacus

-- What a level is made of once its groups have values.
inductive Item where
  | operator (o : Operator)
  | number (x : Float)
  deriving DecidableEq

-- What a level comes to as far as it has been read.
structure Tally where
  sum : Float := 0.0
  -- Whether the next chain is taken away.
  negative : Bool := false
  -- The value of the chain that `*` and `/` may still extend.
  chain : Option Float := none

namespace Tally

def sign (t : Tally) : Float :=
  if t.negative then -1.0 else 1.0

-- Ends the chain, if there is one, and adds it to the sum.
def settle (t : Tally) : Tally :=
  match t.chain with
  | some x => { sum := t.sum + x * t.sign }
  | none => t

theorem settle_of_chain {t : Tally} (h : t.chain = none) : t.settle = t := by
  simp only [settle, h]

theorem settle_chain (t : Tally) : t.settle.chain = none := by
  unfold settle
  split
  · rfl
  · assumption

def negate (t : Tally) : Tally :=
  { t with negative := !t.negative }

-- The value of a level from where the tally stands. Signs without a chain behind them have no
-- effect.
def run (t : Tally) : List (Spanned Item) → Except (Spanned Fault) Float
  | [] => .ok t.settle.sum
  -- A number right behind another starts a chain of its own, so the two are added.
  | ⟨.number x, _⟩ :: rest => { t.settle with chain := some x }.run rest
  | ⟨.operator .plus, _⟩ :: rest => t.settle.run rest
  | ⟨.operator .minus, _⟩ :: rest => t.settle.negate.run rest
  -- `*` and `/` take a number on either side; the one in front is the chain so far.
  | ⟨.operator .times, place⟩ :: rest =>
    match t.chain, rest with
    | some x, ⟨.number y, _⟩ :: rest => { t with chain := some (x * y) }.run rest
    | _, _ => .error ⟨.missingOperand, place⟩
  | ⟨.operator .divide, place⟩ :: rest =>
    match t.chain, rest with
    | some x, ⟨.number y, divisor⟩ :: rest =>
      -- Zero of either sign; an undefined divisor compares equal to nothing.
      if y == 0.0 then
        .error ⟨.divisionByZero, divisor⟩
      else
        { t with chain := some (x / y) }.run rest
    | _, _ => .error ⟨.missingOperand, place⟩

theorem run_times {t : Tally} {x : Float} (h : t.chain = some x) (y : Float) (place right : Span)
    (rest : List (Spanned Item)) :
    t.run (⟨.operator .times, place⟩ :: ⟨.number y, right⟩ :: rest) =
      { t with chain := some (x * y) }.run rest := by
  rw [run.eq_def]
  simp only [h]

theorem run_divide {t : Tally} {x : Float} (h : t.chain = some x) (y : Float) (place right : Span)
    (rest : List (Spanned Item)) :
    t.run (⟨.operator .divide, place⟩ :: ⟨.number y, right⟩ :: rest) =
      if y == 0.0 then .error ⟨.divisionByZero, right⟩
      else { t with chain := some (x / y) }.run rest := by
  rw [run.eq_def]
  simp only [h]

-- `*` and `/` fail unless a chain is in front of them and a number behind them.
theorem run_missing {t : Tally} {o : Operator} {rest : List (Spanned Item)}
    (ho : o = .times ∨ o = .divide)
    (h : ∀ x y right rest', t.chain = some x → rest = ⟨.number y, right⟩ :: rest' → False)
    (place : Span) :
    t.run (⟨.operator o, place⟩ :: rest) = .error ⟨.missingOperand, place⟩ := by
  rw [run.eq_def]
  cases ho
  case inl ho =>
    subst ho
    simp only
  case inr ho =>
    subst ho
    simp only

-- A level fails for want of an operand or for a zero divisor.
theorem fault_of_run {t : Tally} {items : List (Spanned Item)} {e : Spanned Fault}
    (h : t.run items = .error e) : e.value = .missingOperand ∨ e.value = .divisionByZero := by
  fun_induction run t items
  case case1 => cases h
  case case2 ih | case3 ih | case4 ih | case5 ih | case8 ih => exact ih h
  case case6 | case9 =>
    cases h
    exact .inl rfl
  case case7 =>
    cases h
    exact .inr rfl

end Tally

def levelValue (items : List (Spanned Item)) : Except (Spanned Fault) Float :=
  Tally.run {} items

end Abacus
