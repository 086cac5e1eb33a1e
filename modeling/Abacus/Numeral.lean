namespace Abacus

-- The value of a character as a digit of the base. Digits above nine are letters of either case.
def digit? (base : Nat) (c : Char) : Option Nat :=
  let value :=
    if c.isDigit then c.toNat - '0'.toNat
    else if 'a' ≤ c ∧ c ≤ 'f' then c.toNat - 'a'.toNat + 10
    else if 'A' ≤ c ∧ c ≤ 'F' then c.toNat - 'A'.toNat + 10
    else 16
  if value < base then some value else none

namespace Numeral

-- Powers are those of the core library, whatever other instances are in scope.
attribute [local instance (20000)] instPowNat

-- The digits in front of a text, by their values, and what follows them.
def takeDigits (base : Nat) : List Char → List Nat × List Char
  | [] => ([], [])
  | c :: s =>
    match digit? base c with
    | some d => (d :: (takeDigits base s).1, (takeDigits base s).2)
    | none => ([], c :: s)

def value (base : Nat) (digits : List Nat) : Nat :=
  digits.foldl (fun n d => n * base + d) 0

-- The number that a whole text writes in ASCII digits, a `+` in front of them allowed.
def ofText? (s : List Char) : Option Nat :=
  let digits := match s with
    | '+' :: s => s
    | s => s
  if digits ≠ [] ∧ digits.all Char.isDigit then
    some (Nat.ofDigitChars 10 digits 0)
  else
    none

-- As `ofText?`, for numbers that sixty-four bits can hold.
def word? (s : List Char) : Option Nat :=
  (ofText? s).filter (· < 2 ^ (64 : Nat))

end Numeral

end Abacus
