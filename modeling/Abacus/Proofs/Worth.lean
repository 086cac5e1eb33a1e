import Abacus.Proofs.Layer
import Abacus.Proofs.Places

namespace Abacus

-- The value of a level from where the tally stands, wherever the items stand.
def Tally.worth (t : Tally) (items : List Item) : Except Fault Float :=
  (t.run (items.map .bare)).mapError (·.value)

def levelWorth (items : List Item) : Except Fault Float :=
  Tally.worth {} items

-- The value of a group. It has none if a group in it has none.
def groupWorth (items : Option (List Item)) : Option Float :=
  items.bind fun items => (levelWorth items).toOption

namespace Phrase

-- What a level behind the token `last` holds once its groups have values.
def items (last : Option Token) : Phrase → Option (List Item)
  | nil => some []
  | operator o rest => (rest.items (some (.operator o))).map (.operator o :: ·)
  | literal l rest =>
    (rest.items (some (.number l.value))).map
      ((implied last).map .operator ++ .number l.value :: ·)
  | group inner rest =>
    (groupWorth (inner.items (some .opening))).bind fun x =>
      (rest.items (some .closing)).map ((implied last).map .operator ++ .number x :: ·)

def worth (φ : Phrase) : Except Fault Float :=
  match φ.items none with
  | some items => levelWorth items
  | none => .error .invalidExpression

end Phrase

namespace Tally

variable {t : Tally} {x y : Float} {items : List Item}

theorem worth_number (t : Tally) (x : Float) (items : List Item) :
    t.worth (.number x :: items) = { t.settle with chain := some x }.worth items :=
  rfl

theorem worth_plus (t : Tally) (items : List Item) :
    t.worth (.operator .plus :: items) = t.settle.worth items :=
  rfl

theorem worth_minus (t : Tally) (items : List Item) :
    t.worth (.operator .minus :: items) = t.settle.negate.worth items :=
  rfl

theorem worth_times (h : t.chain = some x) (y : Float) (items : List Item) :
    t.worth (.operator .times :: .number y :: items) =
      { t with chain := some (x * y) }.worth items := by
  have hr := run_times h y (.before 0) (.before 0) (items.map .bare)
  exact congrArg (Except.mapError (·.value)) hr

theorem worth_divide (h : t.chain = some x) (hy : ¬y == 0.0) (items : List Item) :
    t.worth (.operator .divide :: .number y :: items) =
      { t with chain := some (x / y) }.worth items := by
  have hr := run_divide h y (.before 0) (.before 0) (items.map .bare)
  exact congrArg (Except.mapError (·.value)) (hr.trans (if_neg hy))

theorem worth_divide_zero (h : t.chain = some x) (hy : y == 0.0) (items : List Item) :
    t.worth (.operator .divide :: .number y :: items) = .error .divisionByZero := by
  have hr := run_divide h y (.before 0) (.before 0) (items.map .bare)
  exact congrArg (Except.mapError (·.value)) (hr.trans (if_pos hy))

end Tally

theorem levelWorth_map_value (is : List (Spanned Item)) :
    levelWorth (is.map (·.value)) = (levelValue is).mapError (·.value) := by
  have hm := levelValue_move (g := fun _ => .before 0) is
  rw [Spanned.move_const, ← List.map_map] at hm
  rw [levelWorth, Tally.worth, ← levelValue, hm]
  cases levelValue is <;> rfl

theorem groupWorth_map_value (is : List (Spanned Item)) :
    groupWorth (some (is.map (·.value))) = (levelValue is).toOption := by
  rw [groupWorth, Option.bind_some, levelWorth_map_value]
  cases levelValue is <;> rfl

namespace Phrase

variable {φ : Phrase} {limit room p : Nat} {last : Option Token} {is : List (Spanned Item)}
  {e : Spanned Fault} {tokens : List (Spanned Token)}

theorem items_of_layer (h : φ.layer room last p = .ok is) :
    φ.items last = some (is.map (·.value)) ∧ φ.depth ≤ room := by
  induction φ generalizing room last p is
  case nil =>
    cases h
    exact ⟨rfl, Nat.zero_le room⟩
  case operator o rest ih =>
    obtain ⟨is, hr, rfl⟩ := Except.map_eq_ok_iff.mp h
    obtain ⟨hi, hd⟩ := ih hr
    exact ⟨by simp [items, hi], hd⟩
  case literal l rest ih =>
    obtain ⟨is, hr, rfl⟩ := Except.map_eq_ok_iff.mp h
    obtain ⟨hi, hd⟩ := ih hr
    exact ⟨by simp [items, hi], hd⟩
  case group inner rest ih ih' =>
    obtain ⟨n, is', x, rfl, hx, hr, rfl⟩ := layer_group_ok h
    obtain ⟨is, hs, hx⟩ := Except.bind_eq_ok_iff.mp hx
    obtain ⟨hi, hd⟩ := ih hs
    obtain ⟨hi', hd'⟩ := ih' hr
    have hw : groupWorth (inner.items (some .opening)) = some x := by
      rw [hi, groupWorth_map_value, hx]
      rfl
    refine ⟨by simp [items, hw, hi'], ?_⟩
    rw [depth]
    omega

-- Within the limit, a level cannot be read if a group in it has no value.
theorem items_of_layer_error (h : φ.layer room last p = .error e) (hd : φ.depth ≤ room) :
    φ.items last = none ∧ e.value = .invalidExpression := by
  induction φ generalizing room last p e
  case nil => cases h
  case operator o rest ih =>
    obtain ⟨hi, hv⟩ := ih (Except.map_eq_error_iff.mp h) hd
    exact ⟨by simp [items, hi], hv⟩
  case literal l rest ih =>
    obtain ⟨hi, hv⟩ := ih (Except.map_eq_error_iff.mp h) hd
    exact ⟨by simp [items, hi], hv⟩
  case group inner rest ih ih' =>
    rw [depth] at hd
    rcases layer_group_error h with ⟨rfl, _⟩ | ⟨n, e', rfl, he, rfl⟩ | ⟨n, x, rfl, _, hr⟩
    case inl => omega
    case inr.inl =>
      rcases Except.bind_eq_error_iff.mp he with he | ⟨is, hs, he⟩
      · obtain ⟨hi, hv⟩ := ih he (by omega)
        exact ⟨by simp [items, groupWorth, hi], by rw [Fault.outside, hv]⟩
      · have hw : groupWorth (inner.items (some .opening)) = none := by
          rw [(items_of_layer hs).left, groupWorth_map_value, he]
          rfl
        exact ⟨by simp [items, hw], by rw [Fault.outside_of_levelValue he]⟩
    case inr.inr =>
      obtain ⟨hi, hv⟩ := ih' hr (by omega)
      exact ⟨by simp [items, hi], hv⟩

theorem evaluate_layer (ht : tokens.map (·.value) = φ.tokens none) (hn : φ ≠ nil) (limit : Nat) :
    (evaluate limit tokens).mapError (·.value) =
      (φ.layer limit none 0 >>= levelValue).mapError (·.value) := by
  rw [evaluate_bare, ht, ← φ.map_value_placed none 0, ← evaluate_bare, evaluate_placed hn]

theorem evaluate_phrase (ht : tokens.map (·.value) = φ.tokens none) (hn : φ ≠ nil)
    (hd : φ.depth ≤ limit) : (evaluate limit tokens).mapError (·.value) = φ.worth := by
  rw [evaluate_layer ht hn limit, worth]
  cases hl : φ.layer limit none 0
  case error e =>
    obtain ⟨hi, hv⟩ := items_of_layer_error hl hd
    rw [hi]
    exact congrArg Except.error hv
  case ok is =>
    rw [(items_of_layer hl).left]
    exact (levelWorth_map_value is).symm

theorem evaluate_deep (ht : tokens.map (·.value) = φ.tokens none) (hd : limit < φ.depth)
    (x : Float) : evaluate limit tokens ≠ .ok x := by
  have hn : φ ≠ nil := by
    rintro rfl
    exact Nat.not_lt_zero limit hd
  intro hx
  have hl := evaluate_layer ht hn limit
  rw [hx] at hl
  have ⟨is, hs, _⟩ := Except.bind_eq_ok_iff.mp (Except.mapError_eq_ok_iff.mp hl.symm)
  exact Nat.not_le.mpr hd (items_of_layer hs).right

end Phrase

end Abacus
