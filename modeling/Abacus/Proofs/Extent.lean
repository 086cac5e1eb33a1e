import Abacus.Proofs.Replacement

namespace Abacus

-- What a level comes to that opens at `place`, with the number of tokens it takes up. Only what is
-- outside of all groups ends with the tokens, and only that does.
def Layer.result (depth : Nat) (place : Span) (l : Layer) : Except (Spanned Fault) (Nat × Float) :=
  match depth, l.closing with
  | 0, some last => .error ⟨.unpairedBracket, last⟩
  | _ + 1, none => .error ⟨.unpairedBracket, place⟩
  | 0, none | _ + 1, some _ => (levelValue l.items).map (l.consumed, ·)

-- A group on its own, where `tokens` are all that stands behind its opening bracket. At depth zero
-- there is no bracket, and `place` is where the tokens start.
def evaluateGroup (limit depth : Nat) (place : Span) (tokens : List (Spanned Token)) :
    Except (Spanned Fault) (Nat × Float) :=
  if limit < depth then
    .error ⟨.nestedTooDeeply, place⟩
  else
    readLayer limit depth [] 0 tokens >>= Layer.result depth place

-- The `n`-th token is the partner of a bracket that opens right in front of the tokens.
structure ClosesGroup (tokens : List (Spanned Token)) (n : Nat) : Prop where
  positive : 1 ≤ n
  inside   : n ≤ tokens.length
  closing  : ∃ last, tokens[n - 1]? = some ⟨.closing, last⟩
  balanced : Balanced (tokens.take (n - 1))

-- Where a level ends of which `consumed` tokens have been read before.
inductive LevelEnds (consumed : Nat) : List (Spanned Token) → Option Span → Nat → Prop
  | atEnd {tokens : List (Spanned Token)} :
    Balanced tokens → LevelEnds consumed tokens none (consumed + tokens.length)
  | atClosing {inner rest : List (Spanned Token)} {last : Span} :
    Balanced inner →
    LevelEnds consumed (inner ++ ⟨.closing, last⟩ :: rest) (some last) (consumed + inner.length + 1)

variable {limit depth consumed n m : Nat} {place last : Span} {x : Float} {e : Spanned Fault}
  {front rest tokens : List (Spanned Token)} {items : List (Spanned Item)} {l : Layer}

namespace ClosesGroup

theorem iff_exists : ClosesGroup tokens n ↔
    ∃ inner last rest, tokens = inner ++ ⟨.closing, last⟩ :: rest ∧ Balanced inner ∧
      n = inner.length + 1 where
  mp := by
    rintro ⟨positive, inside, ⟨last, hl⟩, balanced⟩
    have hd : tokens.drop (n - 1) = ⟨.closing, last⟩ :: tokens.drop n := by
      rw [List.drop_eq_getElem?_toList_append, hl, Nat.sub_add_cancel positive]
      rfl
    refine ⟨tokens.take (n - 1), last, tokens.drop n, ?split, balanced, ?count⟩
    case split => rw [← hd, List.take_append_drop]
    case count =>
      rw [List.length_take]
      omega
  mpr := by
    rintro ⟨inner, last, rest, rfl, balanced, rfl⟩
    exact ⟨by simp, by simp, ⟨last, by simp⟩, by simpa using balanced⟩

-- A bracket has one partner.
theorem unique (h : ClosesGroup tokens n) (h' : ClosesGroup tokens m) : m = n := by
  obtain ⟨inner, last, rest, rfl, hb, rfl⟩ := iff_exists.mp h
  obtain ⟨inner', last', rest', e, hb', rfl⟩ := iff_exists.mp h'
  rw [hb'.eq_of_closes hb rfl rfl e.symm]

end ClosesGroup

namespace LevelEnds

variable {close : Option Span}

-- A balanced sequence in front does not end a level.
theorem append (hf : Balanced front) (h : LevelEnds (consumed + front.length) rest close n) :
    LevelEnds consumed (front ++ rest) close n := by
  cases h
  case atEnd h =>
    rw [Nat.add_assoc, ← List.length_append]
    exact .atEnd (hf.append h)
  case atClosing inner rest last h =>
    rw [← List.append_assoc, Nat.add_assoc consumed, ← List.length_append]
    exact .atClosing (hf.append h)

theorem cons {t : Spanned Token} (ho : opens t = false) (hc : closes t = false)
    (h : LevelEnds (consumed + 1) rest close n) : LevelEnds consumed (t :: rest) close n :=
  have hf : Balanced [t] := .single ho hc
  append hf h

theorem group (hi : LevelEnds 0 rest (some last) m)
    (h : LevelEnds (consumed + 1 + m) (rest.drop m) close n) :
    LevelEnds consumed (⟨.opening, place⟩ :: rest) close n := by
  cases hi
  case atClosing inner rest hb =>
    let o : Spanned Token := ⟨.opening, place⟩
    let c : Spanned Token := ⟨.closing, last⟩
    have hg : Balanced (o :: inner ++ [c]) := .group rfl rfl hb
    have hl : consumed + 1 + (0 + inner.length + 1) = consumed + (o :: inner ++ [c]).length := by
      simp
      omega
    have hd : (inner ++ c :: rest).drop (0 + inner.length + 1) = rest := by simp
    have he : o :: (inner ++ c :: rest) = (o :: inner ++ [c]) ++ rest := by simp
    rw [hl, hd] at h
    exact he ▸ append hg h

theorem closesGroup (h : LevelEnds 0 tokens (some last) n) : ClosesGroup tokens n := by
  cases h
  case atClosing inner rest h =>
    exact ClosesGroup.iff_exists.mpr ⟨inner, last, rest, rfl, h, by simp⟩

end LevelEnds

-- The count of a level is that of its tokens.
theorem levelEnds_readLayer (h : readLayer limit depth items consumed tokens = .ok l) :
    LevelEnds consumed tokens l.closing l.consumed := by
  fun_induction readLayer limit depth items consumed tokens generalizing l
  case case1 =>
    cases h
    exact .atEnd .nil
  case case2 =>
    cases h
    exact .atClosing .nil
  case case3 ih => exact .cons rfl rfl (ih h)
  case case4 ih => exact .cons rfl rfl (ih h)
  case case5 | case6 | case7 | case8 => cases h
  -- A group with a value is in front. It ends where its own reading ends, and the level goes on.
  case case9 he _ _ ih ih' => exact .group (ih he) (ih' h)

theorem evaluateGroup_ok (h : evaluateGroup limit depth place tokens = .ok (n, x)) :
    depth ≤ limit ∧ ∃ l, readLayer limit depth [] 0 tokens = .ok l ∧ l.consumed = n ∧
      levelValue l.items = .ok x ∧ (l.closing = none ↔ depth = 0) := by
  unfold evaluateGroup at h
  split_ifs at h with hl
  obtain ⟨l, hr, h⟩ := Except.bind_eq_ok_iff.mp h
  refine ⟨Nat.not_lt.mp hl, l, hr, ?_⟩
  obtain ⟨items, closing, m⟩ := l
  cases depth <;> cases closing
  case zero.some | succ.none => cases h
  all_goals
    obtain ⟨y, hy, e⟩ := Except.map_eq_ok_iff.mp h
    cases e
    exact ⟨rfl, hy, by simp⟩

theorem extent_of_evaluateGroup (h : evaluateGroup limit depth place tokens = .ok (n, x)) :
    (depth = 0 → n = tokens.length ∧ Balanced tokens) ∧ (0 < depth → ClosesGroup tokens n) := by
  obtain ⟨_, l, hr, rfl, _, hc⟩ := evaluateGroup_ok h
  have he := levelEnds_readLayer hr
  refine ⟨fun hd => ?outermost, fun hd => ?group⟩
  case outermost =>
    rw [hc.mpr hd] at he
    generalize l.consumed = n at he
    cases he
    case atEnd hb => exact ⟨by simp, hb⟩
  case group =>
    obtain ⟨last, hl⟩ := Option.ne_none_iff_exists'.mp (mt hc.mp hd.ne')
    exact (hl ▸ he).closesGroup

-- At the outermost level of a token list.
theorem evaluate_cons (limit : Nat) (t : Spanned Token) (rest : List (Spanned Token)) :
    evaluate limit (t :: rest) = (evaluateGroup limit 0 t.span (t :: rest)).map (·.2) := by
  unfold evaluate evaluateGroup
  simp only [List.isEmpty_cons, Bool.false_eq_true, if_false, Nat.not_lt_zero]
  match readLayer limit 0 [] 0 (t :: rest) with
  | .error _ => rfl
  | .ok ⟨_, some _, _⟩ => rfl
  | .ok ⟨items, none, n⟩ =>
    change levelValue items = ((levelValue items).map (n, ·)).map (·.2)
    cases levelValue items <;> rfl

-- Inside of a level, a group is evaluated with what is behind its bracket.
theorem readLayer_opening_error (h : evaluateGroup limit (depth + 1) place rest = .error e) :
    readLayer limit depth items consumed (⟨.opening, place⟩ :: rest) =
      .error (Fault.outside place e) := by
  unfold evaluateGroup at h
  by_cases full : limit ≤ depth
  case pos =>
    rw [if_pos (Nat.lt_succ_of_le full)] at h
    cases h
    rw [readLayer, if_pos full]
    rfl
  case neg =>
    rw [if_neg (Nat.not_lt.mpr (Nat.lt_of_not_le full)), Except.bind_eq_error_iff] at h
    rcases h with hr | ⟨⟨inner, closing, m⟩, hr, h⟩
    case inl => rw [readLayer, if_neg full, hr]
    case inr =>
      cases closing
      case none =>
        cases h
        rw [readLayer, if_neg full, hr]
        rfl
      case some last =>
        have hv : levelValue inner = .error e := Except.map_eq_error_iff.mp h
        rw [readLayer_group full hr, hv]

theorem readLayer_opening_ok (h : evaluateGroup limit (depth + 1) place rest = .ok (n, x))
    (items : List (Spanned Item)) (consumed : Nat) :
    ∃ last, rest[n - 1]? = some ⟨.closing, last⟩ ∧
      readLayer limit depth items consumed (⟨.opening, place⟩ :: rest) =
        readLayer limit depth (⟨.number x, place.cover last⟩ :: items) (consumed + 1 + n)
          (rest.drop n) := by
  obtain ⟨room, ⟨inner, closing, m⟩, hr, rfl, hv, hc⟩ := evaluateGroup_ok h
  cases closing
  case none => simp at hc
  case some last =>
    refine ⟨last, ?last, ?rest⟩
    case last =>
      cases levelEnds_readLayer hr
      case atClosing => simp
    case rest => rw [readLayer_group (Nat.not_le.mpr room) hr, hv]

end Abacus
