import Abacus.Decimal

namespace Abacus.Decimal

-- Powers are those of the core library, whatever other instances are in scope.
attribute [local instance (20000)] instPowNat

-- Appends digits to a number as long as sixty-four bits can hold it; also the digits left over.
def fillWord (n : Nat) : List Char → Nat × List Char
  | [] => (n, [])
  | c :: s =>
    let m := n * 10 + (c.toNat - '0'.toNat)
    -- The first digit that does not fit ends the significand, even if a later one would fit.
    if m < 2 ^ (64 : Nat) then fillWord m s else (n, c :: s)

-- The digits in front of and behind a point, as many as sixty-four bits can hold. Whole digits
-- that are left out still count as places; digits behind the point do not.
def ofDigits64 (whole fraction : List Char) : Decimal :=
  let (n, lost) := fillWord 0 whole
  let (m, rest) := fillWord n fraction
  ⟨m, lost.length - (fraction.length - rest.length : Nat)⟩

-- The greatest power of ten among the doubles.
def topPower : Nat :=
  308

def powerOfTen (k : Nat) : Float :=
  Binary64.ofPattern false (Binary64.nearest (10 ^ k) 1)

-- Divides by `10 ^ k`, in several steps if that is no double.
def scaleDown (x : Float) (k : Nat) : Float :=
  if k ≤ topPower then x / powerOfTen k
  else if x == 0.0 then x
  else scaleDown (x / powerOfTen topPower) (k - topPower)
termination_by k
decreasing_by
  unfold topPower at *
  omega

-- Multiplies by `10 ^ k`, if the product is within the range of doubles.
def scaleUp? (x : Float) (k : Nat) : Option Float :=
  if k ≤ topPower then
    let y := x * powerOfTen k
    if y.isFinite then some y else none
  else if x == 0.0 then some x
  else none

-- Every step rounds, so this is a double near the number, but not always the nearest one.
def scaled? (d : Decimal) : Option Float :=
  let x := d.coefficient.toUInt64.toFloat
  if d.exponent < 0 then some (scaleDown x (-d.exponent).toNat)
  else scaleUp? x d.exponent.toNat

end Abacus.Decimal
