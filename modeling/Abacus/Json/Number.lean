import Abacus.Decimal.Scaled
import Abacus.Decimal.Shortest

namespace Abacus.Json

-- The number `coefficient · 10 ^ (exponent - places)`, written with `places` digits behind the
-- point; without an exponent if there is none.
structure Number where
  negative : Bool
  coefficient : Nat
  places : Nat
  exponent : Option Int
  deriving DecidableEq, Repr

namespace Number

-- Powers are those of the core library, whatever other instances are in scope.
attribute [local instance (20000)] instPowNat

-- The digits of `n` behind as many zeros as it takes to have at least `width`.
def padded (width n : Nat) : List Char :=
  let digits := Nat.toDigits 10 n
  List.replicate (width - digits.length) '0' ++ digits

-- The digits in front of the point.
def whole (n : Number) : List Char :=
  Nat.toDigits 10 (n.coefficient / 10 ^ n.places)

-- The digits behind the point.
def fraction (n : Number) : List Char :=
  if n.places = 0 then [] else padded n.places (n.coefficient % 10 ^ n.places)

-- The number as a double, if scaling does not leave the range of doubles. Zero keeps its sign.
def toDouble? (n : Number) : Option Float :=
  let d := Decimal.ofDigits64 n.whole n.fraction
  let x := Decimal.scaled? ⟨d.coefficient, d.exponent + n.exponent.getD 0⟩
  x.map fun x => if n.negative then -x else x

-- The number if it is a plain row of digits worth at most 2⁶⁴ - 1.
def toNat? (n : Number) : Option Nat :=
  if n.negative = false ∧ n.places = 0 ∧ n.exponent = none ∧ n.coefficient < 2 ^ (64 : Nat) then
    some n.coefficient
  else
    none

def ofNat (n : Nat) : Number :=
  ⟨false, n, 0, none⟩

theorem toNat?_ofNat {n : Nat} (h : n < 2 ^ (64 : Nat)) : (ofNat n).toNat? = some n :=
  if_pos ⟨rfl, rfl, rfl, h⟩

def takeSign : List Char → Bool × List Char
  | '-' :: s => (true, s)
  | s => (false, s)

-- The digits in front: either a single zero, or any number of them that starts with no zero.
def takeWhole? (s : List Char) : Option (List Char × List Char) :=
  let digits := s.takeWhile Char.isDigit
  if digits = [] ∨ digits.head? = some '0' ∧ digits ≠ ['0'] then
    none
  else
    some (digits, s.dropWhile Char.isDigit)

-- The digits behind a point, if there is one.
def takeFraction? : List Char → Option (List Char × List Char)
  | '.' :: s =>
    let digits := s.takeWhile Char.isDigit
    if digits = [] then none else some (digits, s.dropWhile Char.isDigit)
  | s => some ([], s)

-- The power of ten that the text is, if it is one.
def magnitude? (digits : List Char) : Option Nat :=
  if digits ≠ [] ∧ digits.all Char.isDigit then some (Nat.ofDigitChars 10 digits 0) else none

def readExponent? : List Char → Option Int
  | '+' :: s => (magnitude? s).map Int.ofNat
  | '-' :: s => (magnitude? s).map fun e => -(e : Int)
  | s => (magnitude? s).map Int.ofNat

def ofText? (s : List Char) : Option Number := do
  let (negative, s) := takeSign s
  let (whole, s) ← takeWhole? s
  let (fraction, s) ← takeFraction? s
  let coefficient := Nat.ofDigitChars 10 (whole ++ fraction) 0
  match s with
  | [] => some ⟨negative, coefficient, fraction.length, none⟩
  | 'e' :: s | 'E' :: s =>
    let exponent ← readExponent? s
    some ⟨negative, coefficient, fraction.length, some exponent⟩
  | _ => none

def fractionText (n : Number) : List Char :=
  if n.places = 0 then [] else '.' :: n.fraction

def exponentText (n : Number) : List Char :=
  match n.exponent with
  | none => []
  | some e => 'e' :: (if e < 0 then '-' else '+') :: Nat.toDigits 10 e.natAbs

def text (n : Number) : List Char :=
  (if n.negative then ['-'] else []) ++ n.whole ++ n.fractionText ++ n.exponentText

-- Which powers of ten a leading digit may count in a number that is written without exponent.
structure PlainRange where
  least : Int
  most : Int

-- Numbers from 10⁻⁵ to below 10¹⁶ are written without exponent.
def plainRange : PlainRange :=
  ⟨-5, 15⟩

-- How a finite double is written: with a digit behind the point at least, or with an exponent and
-- one digit in front of the point.
def ofDouble (x : Float) : Number :=
  let negative := Binary64.isNegative x
  let n := Binary64.pattern x
  if n = 0 then
    ⟨negative, 0, 1, none⟩
  else
    let d := Decimal.shortest n
    -- With one digit in front of the point, `k` is the power of ten.
    let k := d.leadingPower
    if k < plainRange.least ∨ plainRange.most < k then
      ⟨negative, d.coefficient, (Nat.toDigits 10 d.coefficient).length - 1, some k⟩
    else if d.exponent < 0 then
      ⟨negative, d.coefficient, (-d.exponent).toNat, none⟩
    else
      ⟨negative, d.coefficient * 10 ^ (d.exponent.toNat + 1), 1, none⟩

end Number

end Abacus.Json
