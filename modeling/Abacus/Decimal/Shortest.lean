import Abacus.Decimal

namespace Abacus.Decimal

-- Powers are those of the core library, whatever other instances are in scope.
attribute [local instance (20000)] instPowNat

-- How many zeros the coefficient ends with.
def trailingZeros (d : Decimal) : Nat :=
  ((Nat.toDigits 10 d.coefficient).reverse.takeWhile (· = '0')).length

-- The same number without zeros at the end of its coefficient.
def trim (d : Decimal) : Decimal :=
  ⟨d.coefficient / 10 ^ d.trailingZeros, d.exponent + d.trailingZeros⟩

-- The power of ten that the leading digit counts.
def leadingPower (d : Decimal) : Int :=
  d.exponent + (Nat.toDigits 10 d.coefficient).length - 1

-- All digits of the pattern's value: a smallest step is 5¹⁰⁷⁴ · 10⁻¹⁰⁷⁴.
def exact (n : Nat) : Decimal :=
  ⟨Binary64.units n * 5 ^ (1074 : Nat), -1074⟩

-- The two multiples of `10 ^ p` around the pattern's value, the nearer one first.
def neighbours (n : Nat) (p : Int) : List Decimal :=
  let a := Binary64.units n * 10 ^ (-p).toNat
  let b := Binary64.unitsPerOne * 10 ^ p.toNat
  let near := Binary64.roundHalfEven a b
  let far := if near = a / b then near + 1 else near - 1
  [trim ⟨near, p⟩, trim ⟨far, p⟩]

-- The shortest decimal that reads back as the pattern `n`. No grid finer than that of seventeen
-- digits is ever needed.
def shortest (n : Nat) : Decimal :=
  let top := (exact n).leadingPower
  let found := (List.range 17).findSome? fun (d : Nat) =>
    (neighbours n (top - d)).find? (·.nearest? = some n)
  found.getD (exact n)

end Abacus.Decimal
