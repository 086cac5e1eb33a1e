import Abacus.Group
import Abacus.Proofs.Outcome
import Abacus.Proofs.Phrase

namespace Abacus

namespace Phrase

-- What a level behind the token `last` holds once its groups have values, if the phrase starts at
-- `p` and no more than `room` of its groups may be open at once.
def layer (room : Nat) (last : Option Token) (p : Nat) :
    Phrase → Except (Spanned Fault) (List (Spanned Item))
  | nil => .ok []
  | operator o rest =>
    (rest.layer room (some (.operator o)) (p + 1)).map (⟨.operator o, .single p⟩ :: ·)
  | literal l rest =>
    (rest.layer room (some (.number l.value)) (p + l.text.length)).map
      ((implied last).map (⟨.operator ·, .before p⟩) ++
        ⟨.number l.value, p, p + l.text.length⟩ :: ·)
  | group inner rest =>
    match room with
    | 0 => .error ⟨.nestedTooDeeply, .single p⟩
    | room + 1 =>
      (inner.layer room (some .opening) (p + 1) >>= levelValue).mapError
        (Fault.outside (.single p)) >>= fun x =>
      (rest.layer (room + 1) (some .closing) (p + 1 + inner.text.length + 1)).map
        ((implied last).map (⟨.operator ·, .before p⟩) ++
          ⟨.number x, p, p + 1 + inner.text.length + 1⟩ :: ·)

end Phrase

theorem Span.cover_single {p q : Nat} (h : p ≤ q) :
    (single p).cover (single q) = ⟨p, q + 1⟩ := by
  simp [cover, single, h]

variable {limit depth room consumed p q : Nat} {before : List (Spanned Item)}
  {rest : List (Spanned Token)} {last : Option Token} {φ inner : Phrase}

theorem readLayer_implied (limit depth : Nat) (last : Option Token) (p : Nat)
    (before : List (Spanned Item)) (consumed : Nat) (rest : List (Spanned Token)) :
    readLayer limit depth before consumed
        ((implied last).map (⟨.operator ·, .before p⟩) ++ rest) =
      readLayer limit depth (((implied last).map (⟨.operator ·, .before p⟩)).reverse ++ before)
        (consumed + (implied last).length) rest := by
  unfold implied
  split
  case isTrue =>
    rw [List.map_singleton, List.singleton_append, readLayer]
    rfl
  case isFalse => rfl

-- A group whose tokens come to `result` is one number with its place, or one fault.
theorem readLayer_enclosed {ts : List (Spanned Token)}
    {result : Except (Spanned Fault) (List (Spanned Item))} (hroom : ¬limit ≤ depth)
    (h : ∀ rest, readLayer limit (depth + 1) [] 0 (ts ++ rest) =
      result >>= fun is => readLayer limit (depth + 1) is.reverse ts.length rest)
    (place close : Span) :
    readLayer limit depth before consumed (⟨.opening, place⟩ :: (ts ++ ⟨.closing, close⟩ :: rest)) =
      (result >>= levelValue).mapError (Fault.outside place) >>= fun x =>
        readLayer limit depth (⟨.number x, place.cover close⟩ :: before)
          (consumed + 1 + (ts.length + 1)) rest := by
  specialize h (⟨.closing, close⟩ :: rest)
  cases result
  case error e =>
    rw [readLayer, if_neg hroom, h]
    rfl
  case ok is =>
    have hr : readLayer limit (depth + 1) [] 0 (ts ++ ⟨.closing, close⟩ :: rest) =
        .ok ⟨is, some close, ts.length + 1⟩ := by
      refine h.trans ?_
      change readLayer limit (depth + 1) is.reverse ts.length (⟨.closing, close⟩ :: rest) = _
      rw [readLayer, List.reverse_reverse]
    have hd : (ts ++ ⟨.closing, close⟩ :: rest).drop (ts.length + 1) = rest := by
      rw [List.append_cons]
      exact List.drop_left' (by simp)
    rw [readLayer_group hroom hr, hd]
    change _ = (levelValue is).mapError (Fault.outside place) >>= _
    cases levelValue is <;> rfl

namespace Phrase

theorem placed_group_append (inner φ : Phrase) (last : Option Token) (p : Nat)
    (rest : List (Spanned Token)) :
    (group inner φ).placed last p ++ rest =
      (implied last).map (⟨.operator ·, .before p⟩) ++
        ⟨.opening, .single p⟩ :: (inner.placed (some .opening) (p + 1) ++
          ⟨.closing, .single (p + 1 + inner.text.length)⟩ ::
            (φ.placed (some .closing) (p + 1 + inner.text.length + 1) ++ rest)) := by
  simp [placed]

theorem length_placed_group (inner φ : Phrase) (last : Option Token) (p : Nat) :
    ((group inner φ).placed last p).length =
      (implied last).length + 1 + ((inner.placed (some .opening) (p + 1)).length + 1) +
        (φ.placed (some .closing) (p + 1 + inner.text.length + 1)).length := by
  simp only [placed, List.length_append, List.length_cons, List.length_map]
  omega

theorem readLayer_placed (φ : Phrase) (room depth : Nat) (last : Option Token) (p : Nat)
    (before : List (Spanned Item)) (consumed : Nat) (rest : List (Spanned Token)) :
    readLayer (depth + room) depth before consumed (φ.placed last p ++ rest) =
      φ.layer room last p >>= fun is =>
        readLayer (depth + room) depth (is.reverse ++ before)
          (consumed + (φ.placed last p).length) rest := by
  induction φ generalizing room depth last p before consumed rest
  case nil => rfl
  case operator o φ ih =>
    rw [placed, List.cons_append, readLayer, ih, layer, List.length_cons,
      Nat.add_right_comm, Nat.add_assoc]
    cases φ.layer room (some (.operator o)) (p + 1)
    case error e => rfl
    case ok is => simp [Except.map, bind, Except.bind]
  case literal l φ ih =>
    rw [placed, List.append_assoc, readLayer_implied, List.cons_append, readLayer, ih,
      layer]
    have hn (n : Nat) : consumed + (implied last).length + 1 + n =
        consumed + ((implied last).length + (n + 1)) := by
      omega
    cases φ.layer room (some (.number l.value)) (p + l.text.length)
    case error e => rfl
    case ok is => simp [Except.map, bind, Except.bind, hn]
  case group inner φ ih ih' =>
    rw [placed_group_append, readLayer_implied]
    cases room
    case zero =>
      rw [readLayer, layer]
      exact if_pos (Nat.le_refl depth)
    case succ room =>
      have hroom : ¬depth + (room + 1) ≤ depth := by omega
      have hi (rest) := ih room (depth + 1) (some .opening) (p + 1) [] 0 rest
      rw [Nat.add_right_comm, Nat.add_assoc] at hi
      simp only [List.append_nil, Nat.zero_add] at hi
      have hc : (Span.single p).cover (.single (p + 1 + inner.text.length)) =
          ⟨p, p + 1 + inner.text.length + 1⟩ :=
        Span.cover_single (by omega)
      rw [readLayer_enclosed hroom hi, hc, layer]
      cases (inner.layer room (some .opening) (p + 1) >>= levelValue).mapError
        (Fault.outside (.single p))
      case error e => rfl
      case ok x =>
        change readLayer _ _ _ _ _ = _
        rw [ih']
        cases φ.layer (room + 1) (some .closing) (p + 1 + inner.text.length + 1)
        case error e => rfl
        case ok is =>
          simp [Except.map, bind, Except.bind, length_placed_group, Nat.add_assoc]

theorem tokens_eq_nil_iff : φ.tokens last = [] ↔ φ = nil := by
  cases φ <;> simp [tokens]

theorem placed_eq_nil_iff : φ.placed last p = [] ↔ φ = nil := by
  rw [← tokens_eq_nil_iff, ← φ.map_value_placed last p, List.map_eq_nil_iff]

-- The tokens of a phrase are evaluated along the phrase.
theorem evaluate_placed (hn : φ ≠ nil) (limit : Nat) :
    evaluate limit (φ.placed last p) = φ.layer limit last p >>= levelValue := by
  have he : (φ.placed last p).isEmpty = false := by
    rw [List.isEmpty_eq_false_iff]
    exact fun h => hn (placed_eq_nil_iff.mp h)
  have hr := φ.readLayer_placed limit 0 last p [] 0 []
  simp only [Nat.zero_add, List.append_nil] at hr
  cases hl : φ.layer limit last p
  case error e =>
    rw [hl] at hr
    rw [evaluate, he, if_neg Bool.false_ne_true, hr]
    rfl
  case ok is =>
    have hr : readLayer limit 0 [] 0 (φ.placed last p) =
        .ok ⟨is, none, (φ.placed last p).length⟩ := by
      simpa [hl, bind, Except.bind, readLayer] using hr
    rw [evaluate, he, if_neg Bool.false_ne_true, hr]
    rfl

variable {is : List (Spanned Item)} {e : Spanned Fault}

theorem layer_group_ok (h : (group inner φ).layer room last p = .ok is) :
    ∃ n is' x, room = n + 1 ∧ inner.layer n (some .opening) (p + 1) >>= levelValue = .ok x ∧
      φ.layer room (some .closing) (p + 1 + inner.text.length + 1) = .ok is' ∧
      is = (implied last).map (⟨.operator ·, .before p⟩) ++
        ⟨.number x, p, p + 1 + inner.text.length + 1⟩ :: is' := by
  cases room
  case zero => cases h
  case succ n =>
    rw [layer, Except.bind_eq_ok_iff] at h
    obtain ⟨x, hx, h⟩ := h
    obtain ⟨is', hi, rfl⟩ := Except.map_eq_ok_iff.mp h
    exact ⟨n, is', x, rfl, Except.mapError_eq_ok_iff.mp hx, hi, rfl⟩

theorem layer_group_error (h : (group inner φ).layer room last p = .error e) :
    room = 0 ∧ e = ⟨.nestedTooDeeply, .single p⟩ ∨
    (∃ n e', room = n + 1 ∧ inner.layer n (some .opening) (p + 1) >>= levelValue = .error e' ∧
      e = Fault.outside (.single p) e') ∨
    ∃ n x, room = n + 1 ∧ inner.layer n (some .opening) (p + 1) >>= levelValue = .ok x ∧
      φ.layer room (some .closing) (p + 1 + inner.text.length + 1) = .error e := by
  cases room
  case zero =>
    cases h
    exact .inl ⟨rfl, rfl⟩
  case succ n =>
    rw [layer, Except.bind_eq_error_iff] at h
    rcases h with h | ⟨x, hx, h⟩
    · obtain ⟨e', he, rfl⟩ := Except.mapError_eq_error_iff.mp h
      exact .inr (.inl ⟨n, e', rfl, he, rfl⟩)
    · exact .inr (.inr ⟨n, x, rfl, Except.mapError_eq_ok_iff.mp hx, Except.map_eq_error_iff.mp h⟩)

end Phrase

end Abacus
