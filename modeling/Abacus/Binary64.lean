import Abacus.Numeral

namespace Abacus.Binary64

-- Powers are those of the core library, whatever other instances are in scope.
attribute [local instance (20000)] instPowNat

-- How often the distance between neighbours has doubled at the pattern `n`, counted from the
-- smallest one.
def binade (n : Nat) : Nat :=
  n / 2 ^ (52 : Nat) - 1

-- How many of the smallest steps make one.
def unitsPerOne : Nat :=
  2 ^ (1074 : Nat)

-- The value of the pattern `n`, which has no sign bit, in smallest steps. Patterns are ordered as
-- their values are.
def units (n : Nat) : Nat :=
  (n - binade n * 2 ^ (52 : Nat)) * 2 ^ binade n

-- The first pattern beyond the finite ones.
def infinity : Nat :=
  2047 * 2 ^ (52 : Nat)

-- The whole number nearest to `a / b`, and of two equally near ones the even.
def roundHalfEven (a b : Nat) : Nat :=
  let q := a / b
  let r := a % b
  if 2 * r < b then q else if b < 2 * r then q + 1 else q + q % 2

-- The pattern nearest to `a / b`, as if patterns had no end: from `infinity` on they say that the
-- quotient is out of range.
def nearest (a b : Nat) : Nat :=
  let x := a * unitsPerOne
  let e := Nat.log2 (x / b) - 52
  e * 2 ^ (52 : Nat) + roundHalfEven x (b * 2 ^ e)

-- The double of a sign and a pattern.
def ofPattern (negative : Bool) (n : Nat) : Float :=
  Float.ofBits (if negative then n + 2 ^ (63 : Nat) else n).toUInt64

-- The pattern of a double without its sign.
def pattern (x : Float) : Nat :=
  x.toBits.toNat % 2 ^ (63 : Nat)

def isNegative (x : Float) : Bool :=
  2 ^ (63 : Nat) ≤ x.toBits.toNat

end Abacus.Binary64
