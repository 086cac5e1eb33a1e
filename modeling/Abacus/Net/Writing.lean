import Abacus.Net.Endpoint

namespace Abacus.Net

namespace IPv4

def text (a : IPv4) : List Char :=
  ['.'].intercalate ([a.first, a.second, a.third, a.fourth].map fun n => Nat.toDigits 10 n.toNat)

end IPv4

namespace IPv6

-- A row of groups that are next to each other.
structure Stretch where
  start : Nat
  length : Nat

-- How many groups of zero stand at place `i` and right behind it.
def zerosAt (groups : List UInt16) (i : Nat) : Nat :=
  ((groups.drop i).takeWhile (· = 0)).length

-- The first of the longest stretches of zero.
def longestZeros (groups : List UInt16) : Stretch :=
  (List.range groups.length).foldl
    (fun best i => if best.length < zerosAt groups i then ⟨i, zerosAt groups i⟩ else best) ⟨0, 0⟩

def groupsText (groups : List UInt16) : List Char :=
  [':'].intercalate (groups.map fun g => Nat.toDigits 16 g.toNat)

def text (a : IPv6) : List Char :=
  match a.mapped? with
  | some b => "::ffff:".toList ++ b.text
  | none =>
    let zeros := longestZeros a.groups
    if zeros.length < 2 then
      groupsText a.groups
    else
      groupsText (a.groups.take zeros.start) ++ "::".toList ++
        groupsText (a.groups.drop (zeros.start + zeros.length))

end IPv6

namespace Endpoint

def portText (port : UInt16) : List Char :=
  ':' :: Nat.toDigits 10 port.toNat

def scopeText (scope : UInt32) : List Char :=
  if scope = 0 then [] else '%' :: Nat.toDigits 10 scope.toNat

def text : Endpoint → String
  | v4 host port => String.ofList (host.text ++ portText port)
  | v6 host scope port =>
    String.ofList ('[' :: host.text ++ scopeText scope ++ ']' :: portText port)

end Endpoint

end Abacus.Net
