import Abacus.Net.Endpoint
import Abacus.Numeral

namespace Abacus.Net

-- Powers are those of the core library, whatever other instances are in scope.
attribute [local instance (20000)] instPowNat

-- Reads the given character.
def expect? (c : Char) : List Char → Option (List Char)
  | d :: s => if d = c then some s else none
  | [] => none

-- Reads a number below `bound` in all the digits that there are.
def takeNumber? (base bound : Nat) (s : List Char) : Option (Nat × List Char) :=
  let (digits, rest) := Numeral.takeDigits base s
  if digits ≠ [] ∧ Numeral.value base digits < bound then
    some (Numeral.value base digits, rest)
  else
    none

def takePort? (s : List Char) : Option (UInt16 × List Char) := do
  let s ← expect? ':' s
  let (n, s) ← takeNumber? 10 (2 ^ (16 : Nat)) s
  some (n.toUInt16, s)

-- An octet has no zeros in front.
def takeOctet? (s : List Char) : Option (UInt8 × List Char) :=
  let digits := (Numeral.takeDigits 10 s).1
  if digits.head? = some 0 ∧ digits ≠ [0] then
    none
  else
    (takeNumber? 10 (2 ^ (8 : Nat)) s).map fun (n, s) => (n.toUInt8, s)

def takeIPv4? (s : List Char) : Option (IPv4 × List Char) := do
  let (a, s) ← takeOctet? s
  let s ← expect? '.' s
  let (b, s) ← takeOctet? s
  let s ← expect? '.' s
  let (c, s) ← takeOctet? s
  let s ← expect? '.' s
  let (d, s) ← takeOctet? s
  some (⟨a, b, c, d⟩, s)

-- A group has at most four digits.
def takeGroup? (s : List Char) : Option (UInt16 × List Char) :=
  if (Numeral.takeDigits 16 s).1.length ≤ 4 then
    (takeNumber? 16 (2 ^ (16 : Nat)) s).map fun (n, s) => (n.toUInt16, s)
  else
    none

-- A row of groups, and whether octets end it.
structure Groups where
  groups : List UInt16
  octets : Bool

-- Reads as many groups as there are, up to `slots`, with a colon in front of each but the first.
def takeGroups (slots : Nat) (first : Bool) (s : List Char) : Groups × List Char :=
  match slots with
  | 0 => (⟨[], false⟩, s)
  | slots + 1 =>
    match if first then some s else expect? ':' s with
    | none => (⟨[], false⟩, s)
    | some t =>
      -- Octets take up two groups, so they do not fit into the last slot.
      match if slots = 0 then none else takeIPv4? t with
      | some (a, t) => (⟨a.groups, true⟩, t)
      | none =>
        match takeGroup? t with
        | none => (⟨[], false⟩, s)
        | some (g, t) =>
          let (more, t) := takeGroups slots false t
          (⟨g :: more.groups, more.octets⟩, t)

def takeIPv6? (s : List Char) : Option (IPv6 × List Char) :=
  let (front, s) := takeGroups 8 true s
  if front.groups.length = 8 then
    (IPv6.ofGroups? front.groups).map (·, s)
  else if front.octets then
    none
  else do
    let s ← (expect? ':' s).bind (expect? ':')
    -- One slot less than there is room for: `::` is never empty.
    let (back, s) := takeGroups (7 - front.groups.length) true s
    let zeros := List.replicate (8 - front.groups.length - back.groups.length) 0
    let a ← IPv6.ofGroups? (front.groups ++ zeros ++ back.groups)
    some (a, s)

-- Reads a scope, if there is one.
def takeScope (s : List Char) : UInt32 × List Char :=
  match (expect? '%' s).bind (takeNumber? 10 (2 ^ (32 : Nat))) with
  | some (n, s) => (n.toUInt32, s)
  | none => (0, s)

def takeEndpoint? (s : List Char) : Option (Endpoint × List Char) :=
  let v4 := do
    let (host, s) ← takeIPv4? s
    let (port, s) ← takePort? s
    some (Endpoint.v4 host port, s)
  v4.or do
    let s ← expect? '[' s
    let (host, s) ← takeIPv6? s
    let (scope, s) := takeScope s
    let s ← expect? ']' s
    let (port, s) ← takePort? s
    some (Endpoint.v6 host scope port, s)

-- The endpoint that a whole text writes.
def Endpoint.ofText? (s : List Char) : Option Endpoint :=
  match takeEndpoint? s with
  | some (e, []) => some e
  | _ => none

end Abacus.Net
