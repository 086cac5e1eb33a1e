import Abacus.Level

namespace Abacus

-- The first pass. What is done has its newest item first, so that the number in front of an
-- operator is the head.
def reduceProducts (done : List (Spanned Item)) :
    List (Spanned Item) → Except (Spanned Fault) (List (Spanned Item))
  | [] => .ok done.reverse
  | ⟨.number x, place⟩ :: rest => reduceProducts (⟨.number x, place⟩ :: done) rest
  | ⟨.operator .plus, place⟩ :: rest => reduceProducts (⟨.operator .plus, place⟩ :: done) rest
  | ⟨.operator .minus, place⟩ :: rest => reduceProducts (⟨.operator .minus, place⟩ :: done) rest
  | ⟨.operator .times, place⟩ :: rest =>
    match done, rest with
    | ⟨.number x, left⟩ :: done, ⟨.number y, right⟩ :: rest =>
      reduceProducts (⟨.number (x * y), left.cover right⟩ :: done) rest
    | _, _ => .error ⟨.missingOperand, place⟩
  | ⟨.operator .divide, place⟩ :: rest =>
    match done, rest with
    | ⟨.number x, left⟩ :: done, ⟨.number y, right⟩ :: rest =>
      if y == 0.0 then
        .error ⟨.divisionByZero, right⟩
      else
        reduceProducts (⟨.number (x / y), left.cover right⟩ :: done) rest
    | _, _ => .error ⟨.missingOperand, place⟩

-- The second pass, from a sum and the sign of the next number on.
def reduceSum (sum sign : Float) : List (Spanned Item) → Except (Spanned Fault) Float
  | [] => .ok sum
  | ⟨.number x, _⟩ :: rest => reduceSum (sum + x * sign) 1.0 rest
  | ⟨.operator .plus, _⟩ :: rest => reduceSum sum sign rest
  | ⟨.operator .minus, _⟩ :: rest => reduceSum sum (-sign) rest
  | ⟨_, place⟩ :: _ => .error ⟨.foreignCharacter, place⟩

def passes (items : List (Spanned Item)) : Except (Spanned Fault) Float :=
  reduceProducts [] items >>= reduceSum 0.0 1.0

namespace Tally

-- What the second pass makes of the items that are done: it stands where the tally does.
def Summed (t : Tally) (done : List (Spanned Item)) : Prop :=
  ∀ rest, reduceSum 0.0 1.0 (done.reverse ++ rest) = reduceSum t.sum t.sign rest

-- The tally is as far as the first pass that has done `done`. A chain is the number at its head,
-- which the second pass has not seen yet.
inductive Tracks (t : Tally) : List (Spanned Item) → Prop
  | chain {x : Float} {place : Span} {done : List (Spanned Item)} :
    t.chain = some x → t.Summed done → Tracks t (⟨.number x, place⟩ :: done)
  | settled {done : List (Spanned Item)} :
    t.chain = none → t.Summed done → (∀ x place rest, done ≠ ⟨.number x, place⟩ :: rest) →
    Tracks t done

variable {t : Tally} {done rest : List (Spanned Item)}

theorem sign_negate (t : Tally) : t.negate.sign = -t.sign := by
  cases h : t.negative <;> simp [negate, sign, h]
  rfl

theorem sum_negate (t : Tally) : t.negate.sum = t.sum :=
  rfl

namespace Tracks

theorem summed_settle (h : t.Tracks done) : t.settle.Summed done := by
  cases h
  case chain x place done h sum =>
    intro rest
    have hs := sum (⟨.number x, place⟩ :: rest)
    simpa [settle, h, sign, reduceSum] using hs
  case settled h sum _ => simpa [settle, h] using sum

theorem number (h : t.Tracks done) (x : Float) (place : Span) :
    Tracks { t.settle with chain := some x } (⟨.number x, place⟩ :: done) :=
  .chain rfl h.summed_settle

theorem plus (h : t.Tracks done) (place : Span) :
    t.settle.Tracks (⟨.operator .plus, place⟩ :: done) := by
  refine .settled t.settle_chain ?summed (by simp)
  intro rest
  have hs := h.summed_settle (⟨.operator .plus, place⟩ :: rest)
  simpa [reduceSum] using hs

theorem minus (h : t.Tracks done) (place : Span) :
    t.settle.negate.Tracks (⟨.operator .minus, place⟩ :: done) := by
  refine .settled t.settle_chain ?summed (by simp)
  intro rest
  have hs := h.summed_settle (⟨.operator .minus, place⟩ :: rest)
  simpa [reduceSum, sign_negate, sum_negate] using hs

theorem chain_of_head {x : Float} {place : Span} (h : t.Tracks (⟨.number x, place⟩ :: done)) :
    t.chain = some x := by
  cases h
  case chain h _ => exact h
  case settled head => exact (head _ _ _ rfl).elim

theorem run_eq (h : t.Tracks done) (items : List (Spanned Item)) :
    t.run items = reduceProducts done items >>= reduceSum 0.0 1.0 := by
  fun_induction run t items generalizing done
  case case1 t =>
    have hs := h.summed_settle []
    simp only [List.append_nil, reduceSum] at hs
    exact hs.symm
  case case2 t x place rest ih => exact ih (h.number x place)
  case case3 t place rest ih => exact ih (h.plus place)
  case case4 t place rest ih => exact ih (h.minus place)
  case case5 t place x y right rest hx ih =>
    cases h
    case chain x' left done hx' sum =>
      cases hx.symm.trans hx'
      exact ih (.chain rfl sum)
    case settled h _ _ => simp [h] at hx
  case case6 t place rest missing =>
    unfold reduceProducts
    split
    case h_1 => exact (missing _ _ _ _ h.chain_of_head rfl).elim
    case h_2 => rfl
  case case7 t place x y right rest hx zero =>
    cases h
    case chain x' left done _ _ =>
      unfold reduceProducts
      simp only [if_pos zero]
      rfl
    case settled h _ _ => simp [h] at hx
  case case8 t place x y right rest hx nonzero ih =>
    cases h
    case chain x' left done hx' sum =>
      cases hx.symm.trans hx'
      unfold reduceProducts
      simp only [if_neg nonzero]
      exact ih (.chain rfl sum)
    case settled h _ _ => simp [h] at hx
  case case9 t place rest missing =>
    unfold reduceProducts
    split
    case h_1 => exact (missing _ _ _ _ h.chain_of_head rfl).elim
    case h_2 => rfl

end Tracks

theorem tracks_nil : Tracks {} [] :=
  .settled rfl (fun _ => rfl) (by simp)

end Tally

theorem levelValue_eq_passes (items : List (Spanned Item)) : levelValue items = passes items :=
  Tally.tracks_nil.run_eq items

end Abacus
