namespace Abacus.Net

structure IPv4 where
  first : UInt8
  second : UInt8
  third : UInt8
  fourth : UInt8
  deriving DecidableEq, Repr

structure IPv6 where
  groups : List UInt16
  length_groups : groups.length = 8
  deriving DecidableEq, Repr

inductive Endpoint where
  | v4 (host : IPv4) (port : UInt16)
  -- The scope says by which interface of this machine the host is reached; zero leaves it open.
  | v6 (host : IPv6) (scope : UInt32) (port : UInt16)
  deriving DecidableEq, Repr

namespace IPv4

-- The address as the last two groups of a longer one.
def groups (a : IPv4) : List UInt16 :=
  [a.first.toUInt16 * 256 + a.second.toUInt16, a.third.toUInt16 * 256 + a.fourth.toUInt16]

end IPv4

namespace IPv6

def ofGroups? (groups : List UInt16) : Option IPv6 :=
  if h : groups.length = 8 then some ⟨groups, h⟩ else none

theorem ofGroups?_groups (a : IPv6) : ofGroups? a.groups = some a := by
  simp [ofGroups?, a.length_groups]

-- The address of the older kind that this one stands for, if it does.
def mapped? (a : IPv6) : Option IPv4 :=
  match a.groups with
  | [0, 0, 0, 0, 0, 0xFFFF, g, h] =>
    some ⟨(g / 256).toUInt8, g.toUInt8, (h / 256).toUInt8, h.toUInt8⟩
  | _ => none

end IPv6

end Abacus.Net
