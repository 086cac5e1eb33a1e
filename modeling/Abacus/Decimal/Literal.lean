import Abacus.Decimal

namespace Abacus.Decimal

-- The digits in front of the point.
def wholeDigits (s : List Char) : List Char :=
  s.takeWhile (· ≠ '.')

-- What stands behind the first point.
def fractionDigits (s : List Char) : List Char :=
  (s.dropWhile (· ≠ '.')).drop 1

def ofLiteral? (s : List Char) : Option Decimal :=
  let digits := wholeDigits s ++ fractionDigits s
  if digits ≠ [] ∧ digits.all Char.isDigit then
    some ⟨Nat.ofDigitChars 10 digits 0, -(fractionDigits s).length⟩
  else
    none

-- The double nearest to what the literal denotes, if the literal is one and the double finite.
def doubleOfLiteral? (s : List Char) : Option Float :=
  (ofLiteral? s).bind fun d => d.nearest?.map (Binary64.ofPattern false)

end Abacus.Decimal
