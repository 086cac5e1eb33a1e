import Abacus.Level

namespace Abacus

-- One bracket level in front of a token list.
structure Layer where
  items : List (Spanned Item)
  -- The bracket that ends the level; there is none if the tokens end first.
  closing : Option Span
  -- How many tokens the level takes up, its closing bracket included.
  consumed : Nat

-- How a fault inside a group that opens at `place` looks from outside.
def Fault.outside (place : Span) (e : Spanned Fault) : Spanned Fault :=
  match e.value with
  | .nestedTooDeeply | .unpairedBracket => e
  | _ => ⟨.invalidExpression, place⟩

-- A fault of the arithmetic of a group makes it an invalid expression.
theorem Fault.outside_of_levelValue {items : List (Spanned Item)} {e : Spanned Fault}
    (h : levelValue items = .error e) (place : Span) :
    outside place e = ⟨.invalidExpression, place⟩ := by
  cases Tally.fault_of_run h
  case inl h => rw [outside, h]
  case inr h => rw [outside, h]

-- Reads a level inside `depth` groups, of which `items` (newest first) and `consumed` tokens have
-- been read. Brackets and the limit are at fault as soon as they are met, arithmetic only when its
-- level is complete.
def readLayer (limit depth : Nat) (items : List (Spanned Item)) (consumed : Nat) :
    List (Spanned Token) → Except (Spanned Fault) Layer
  | [] => .ok ⟨items.reverse, none, consumed⟩
  | ⟨.closing, place⟩ :: _ => .ok ⟨items.reverse, some place, consumed + 1⟩
  | ⟨.operator o, place⟩ :: rest =>
    readLayer limit depth (⟨.operator o, place⟩ :: items) (consumed + 1) rest
  | ⟨.number x, place⟩ :: rest =>
    readLayer limit depth (⟨.number x, place⟩ :: items) (consumed + 1) rest
  | ⟨.opening, place⟩ :: rest =>
    if limit ≤ depth then
      .error ⟨.nestedTooDeeply, place⟩
    else
      match readLayer limit (depth + 1) [] 0 rest with
      | .error e => .error (Fault.outside place e)
      -- The tokens ended inside the group. Its arithmetic is not looked at then.
      | .ok ⟨_, none, _⟩ => .error ⟨.unpairedBracket, place⟩
      | .ok ⟨inner, some close, n⟩ =>
        match levelValue inner with
        | .error e => .error (Fault.outside place e)
        | .ok x =>
          -- From here on the group is a number that takes up all of its place.
          readLayer limit depth (⟨.number x, place.cover close⟩ :: items) (consumed + 1 + n)
            (rest.drop n)
termination_by tokens => tokens.length
decreasing_by
  · exact Nat.lt_succ_self _
  · exact Nat.lt_succ_self _
  · exact Nat.lt_succ_self _
  · exact Nat.lt_succ_of_le (List.length_drop ▸ Nat.sub_le _ _)

-- A level with a group in front goes on with the value of that group.
theorem readLayer_group {limit depth consumed n : Nat} {items inner : List (Spanned Item)}
    {rest : List (Spanned Token)} {place close : Span} (room : ¬limit ≤ depth)
    (h : readLayer limit (depth + 1) [] 0 rest = .ok ⟨inner, some close, n⟩) :
    readLayer limit depth items consumed (⟨.opening, place⟩ :: rest) =
      match levelValue inner with
      | .error e => .error (Fault.outside place e)
      | .ok x =>
        readLayer limit depth (⟨.number x, place.cover close⟩ :: items) (consumed + 1 + n)
          (rest.drop n) := by
  rw [readLayer, if_neg room, h]

-- The value of a token list whose brackets nest at most `limit` deep.
def evaluate (limit : Nat) (tokens : List (Spanned Token)) : Except (Spanned Fault) Float :=
  if tokens.isEmpty then
    .error ⟨.invalidExpression, .before 0⟩
  else
    match readLayer limit 0 [] 0 tokens with
    | .error e => .error e
    | .ok ⟨_, some place, _⟩ => .error ⟨.unpairedBracket, place⟩
    | .ok ⟨items, none, _⟩ => levelValue items

end Abacus
