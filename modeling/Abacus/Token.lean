import Abacus.Span

namespace Abacus

inductive Operator where
  | plus
  | minus
  | times
  | divide
  deriving DecidableEq, Repr

namespace Operator

def char : Operator → Char
  | plus => '+'
  | minus => '-'
  | times => '*'
  | divide => '/'

def ofChar? : Char → Option Operator
  | '+' => some plus
  | '-' => some minus
  | '*' => some times
  | '/' => some divide
  | _ => none

theorem ofChar?_char (o : Operator) : ofChar? o.char = some o := by
  cases o <;> rfl

theorem char_of_ofChar? {c : Char} {o : Operator} (h : ofChar? c = some o) : o.char = c := by
  unfold ofChar? at h
  split at h <;> cases h <;> rfl

end Operator

inductive Token where
  | operator (o : Operator)
  | opening
  | closing
  | number (x : Float)
  deriving DecidableEq

namespace Token

def isOperator : Token → Bool
  | operator _ => true
  | _ => false

theorem isOperator_iff {t : Token} : t.isOperator ↔ ∃ o, t = operator o := by
  cases t <;> simp [isOperator]

end Token

end Abacus
