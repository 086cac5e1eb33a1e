import Abacus.Binary64

namespace Abacus

-- The number `coefficient · 10 ^ exponent`.
structure Decimal where
  coefficient : Nat
  exponent : Int
  deriving DecidableEq, Repr

namespace Decimal

-- Powers are those of the core library, whatever other instances are in scope.
attribute [local instance (20000)] instPowNat

-- An upper bound on the number of digits of the coefficient.
def width (d : Decimal) : Nat :=
  d.coefficient.log2 / 3 + 1

theorem coefficient_lt (d : Decimal) : d.coefficient < 10 ^ d.width := by
  have := Nat.lt_log2_self (n := d.coefficient)
  calc d.coefficient < 2 ^ (d.coefficient.log2 + 1) := this
    _ ≤ 2 ^ (3 * d.width) := Nat.pow_le_pow_right (by decide) (by unfold width; omega)
    _ = 8 ^ d.width := by rw [Nat.pow_mul]
    _ ≤ 10 ^ d.width := Nat.pow_le_pow_left (by decide) _

-- The pattern of the double nearest to the number. A number of 10³⁰⁹ or more is beyond them all,
-- and one below 10⁻³²⁴ is nearest to zero, so no larger power is ever computed.
def nearest? (d : Decimal) : Option Nat :=
  if d.coefficient = 0 ∨ d.exponent + d.width ≤ -324 then
    some 0
  else if 309 ≤ d.exponent then
    none
  else
    let n := Binary64.nearest (d.coefficient * 10 ^ d.exponent.toNat) (10 ^ (-d.exponent).toNat)
    if n < Binary64.infinity then some n else none

theorem nearest?_lt {d : Decimal} {n : Nat} (h : d.nearest? = some n) : n < Binary64.infinity := by
  unfold nearest? at h
  split at h
  · cases h
    decide
  · split at h
    · contradiction
    · dsimp only at h
      split at h
      next finite => exact Option.some.inj h ▸ finite
      next => contradiction

end Decimal

end Abacus
