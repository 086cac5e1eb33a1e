import Abacus.Group

namespace Abacus

namespace Spanned

variable {α β : Type}

def move (g : Span → Span) (x : Spanned α) : Spanned α :=
  ⟨x.value, g x.span⟩

-- A thing at no place in particular.
def bare (x : α) : Spanned α :=
  ⟨x, .before 0⟩

theorem move_const : move (fun _ => .before 0) = bare ∘ Spanned.value (α := α) :=
  rfl

end Spanned

-- What keeps the smallest place that holds two others.
def KeepsCovers (g : Span → Span) : Prop :=
  ∀ s t, g (s.cover t) = (g s).cover (g t)

variable {g : Span → Span} {items : List (Spanned Item)}

namespace Tally

theorem missing_map {chain : Option Float}
    (h : ∀ x y right rest, chain = some x → items = ⟨.number y, right⟩ :: rest → False)
    (x y : Float) (right : Span) (rest : List (Spanned Item)) (hx : chain = some x)
    (hr : items.map (.move g) = ⟨.number y, right⟩ :: rest) : False := by
  have ⟨⟨_, _⟩, _, e, hv, _⟩ := List.map_eq_cons_iff.mp hr
  cases hv
  exact h _ _ _ _ hx e

theorem run_move (t : Tally) (items : List (Spanned Item)) :
    t.run (items.map (.move g)) = (t.run items).mapError (.move g) := by
  fun_induction run t items
  case case1 => rfl
  case case2 ih => exact ih
  case case3 ih => exact ih
  case case4 ih => exact ih
  case case5 hx ih => exact (run_times hx ..).trans ih
  case case6 place rest missing => exact run_missing (.inl rfl) (missing_map missing) (g place)
  case case7 hx zero => exact (run_divide hx ..).trans (if_pos zero)
  case case8 hx nonzero ih => exact (run_divide hx ..).trans ((if_neg nonzero).trans ih)
  case case9 place rest missing => exact run_missing (.inr rfl) (missing_map missing) (g place)

end Tally

theorem levelValue_move (items : List (Spanned Item)) :
    levelValue (items.map (.move g)) = (levelValue items).mapError (.move g) :=
  Tally.run_move {} items

theorem Fault.outside_move (place : Span) (e : Spanned Fault) :
    outside (g place) (e.move g) = (outside place e).move g := by
  cases e
  case mk f _ => cases f <;> rfl

def Layer.move (g : Span → Span) (l : Layer) : Layer where
  items    := l.items.map (.move g)
  closing  := l.closing.map g
  consumed := l.consumed

theorem readLayer_move (hg : KeepsCovers g) (limit depth : Nat) (items : List (Spanned Item))
    (consumed : Nat) (tokens : List (Spanned Token)) :
    readLayer limit depth (items.map (.move g)) consumed (tokens.map (.move g)) =
      ((readLayer limit depth items consumed tokens).map (.move g)).mapError (.move g) := by
  fun_induction readLayer limit depth items consumed tokens
  case case1 =>
    rw [List.map_nil, readLayer, ← List.map_reverse]
    rfl
  case case2 =>
    rw [List.map_cons, Spanned.move, readLayer, ← List.map_reverse]
    rfl
  case case3 ih =>
    rw [List.map_cons, Spanned.move, readLayer]
    exact ih
  case case4 ih =>
    rw [List.map_cons, Spanned.move, readLayer]
    exact ih
  case case5 full =>
    rw [List.map_cons, Spanned.move, readLayer, if_pos full]
    rfl
  case case6 room e he ih =>
    rw [he] at ih
    rw [List.map_cons, Spanned.move, readLayer, if_neg room]
    simp only [List.map_nil] at ih
    rw [ih]
    exact congrArg Except.error (Fault.outside_move _ e)
  case case7 room items' n he ih =>
    rw [he] at ih
    rw [List.map_cons, Spanned.move, readLayer, if_neg room]
    simp only [List.map_nil] at ih
    rw [ih]
    rfl
  case case8 room items' close n he e hv ih =>
    rw [he] at ih
    have hl := levelValue_move (g := g) items'
    rw [hv] at hl
    rw [List.map_cons, Spanned.move, readLayer_group room ih, hl]
    exact congrArg Except.error (Fault.outside_move _ e)
  case case9 room items' close n he x hv ih ih' =>
    rw [he] at ih
    have hl := levelValue_move (g := g) items'
    rw [hv] at hl
    rw [List.map_cons, Spanned.move, readLayer_group room ih, hl, ← List.map_drop, ← hg]
    exact ih'

theorem evaluate_move (hg : KeepsCovers g) (limit : Nat) {tokens : List (Spanned Token)}
    (h : tokens ≠ []) :
    evaluate limit (tokens.map (.move g)) = (evaluate limit tokens).mapError (.move g) := by
  have hm := readLayer_move hg limit 0 [] 0 tokens
  simp only [evaluate, List.isEmpty_iff, List.map_eq_nil_iff, h, if_false]
  rw [List.map_nil] at hm
  rw [hm]
  match readLayer limit 0 [] 0 tokens with
  | .error _ => rfl
  | .ok ⟨_, some _, _⟩ => rfl
  | .ok ⟨items, none, _⟩ => exact levelValue_move items

-- The value of a token list, or the kind of its fault, wherever the tokens stand.
theorem evaluate_bare (limit : Nat) (tokens : List (Spanned Token)) :
    (evaluate limit tokens).mapError (·.value) =
      (evaluate limit ((tokens.map (·.value)).map .bare)).mapError (·.value) := by
  cases tokens
  case nil => rfl
  case cons token rest =>
    have hm := evaluate_move (g := fun _ => .before 0) (fun _ _ => (Span.cover_self _).symm) limit
      (List.cons_ne_nil token rest)
    rw [List.map_map, ← Spanned.move_const, hm]
    cases evaluate limit (token :: rest) <;> rfl

end Abacus
