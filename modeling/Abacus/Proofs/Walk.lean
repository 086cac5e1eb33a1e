import Abacus.Proofs.Extent
import Mathlib.Logic.Function.Iterate

namespace Abacus

-- A level that is under way.
structure OpenLevel where
  -- The tokens behind the bracket that opens the level at `place`.
  tokens : List (Spanned Token)
  place  : Span
  depth  : Nat
  -- How many of the tokens have been read.
  index  : Nat := 0
  -- What the level holds so far, newest first.
  items  : List (Spanned Item) := []

-- Evaluation by index, one step at a time.
inductive Walk where
  -- A level is about to be read. The `outer` ones are around it, the innermost first.
  | entering (v : OpenLevel) (outer : List OpenLevel)
  | reading (v : OpenLevel) (outer : List OpenLevel)
  -- The level that opens at `place` is done.
  | leaving (place : Span) (result : Except (Spanned Fault) (Nat × Float))
    (outer : List OpenLevel)
  -- An index was out of range.
  | astray

namespace OpenLevel

-- The level behind `n` more tokens that come to `item`.
def read (v : OpenLevel) (n : Nat) (item : Spanned Item) : OpenLevel :=
  { v with index := v.index + n, items := item :: v.items }

-- The level while a group is evaluated. Only the opening bracket of the group has been read.
def waiting (v : OpenLevel) : OpenLevel :=
  { v with index := v.index + 1 }

-- What a level comes to that ends behind `n` tokens.
def value (v : OpenLevel) (n : Nat) : Except (Spanned Fault) (Nat × Float) :=
  (levelValue v.items.reverse).map (n, ·)

theorem index_lt {v : OpenLevel} {t : Spanned Token} (h : v.tokens[v.index]? = some t) :
    v.index < v.tokens.length :=
  (List.getElem?_eq_some_iff.mp h).1

theorem value_ok {v : OpenLevel} {n m : Nat} {x : Float} (h : v.value n = .ok (m, x)) : m = n := by
  obtain ⟨_, _, h⟩ := Except.map_eq_ok_iff.mp h
  exact (congrArg Prod.fst h).symm

-- Hands what is behind the next token to the group that it opens.
def enter (v : OpenLevel) (place : Span) (outer : List OpenLevel) : Walk :=
  if v.index + 1 ≤ v.tokens.length then
    .entering { tokens := v.tokens.drop (v.index + 1), place, depth := v.depth + 1 }
      (v.waiting :: outer)
  else
    .astray

theorem enter_of_lt {v : OpenLevel} (h : v.index < v.tokens.length) (place : Span)
    (outer : List OpenLevel) : v.enter place outer =
      .entering { tokens := v.tokens.drop (v.index + 1), place, depth := v.depth + 1 }
        (v.waiting :: outer) :=
  if_pos h

def next (v : OpenLevel) (outer : List OpenLevel) : Walk :=
  match v.tokens[v.index]? with
  | none =>
    .leaving v.place (if 0 < v.depth then .error ⟨.unpairedBracket, v.place⟩ else v.value v.index)
      outer
  | some ⟨.opening, place⟩ => v.enter place outer
  | some ⟨.closing, last⟩ =>
    .leaving v.place
      (if v.depth = 0 then .error ⟨.unpairedBracket, last⟩ else v.value (v.index + 1)) outer
  | some ⟨.operator o, place⟩ => .reading (v.read 1 ⟨.operator o, place⟩) outer
  | some ⟨.number x, place⟩ => .reading (v.read 1 ⟨.number x, place⟩) outer

-- Goes on behind the `n` tokens of the group that opens at `place`. The last of them closes it.
def resume (v : OpenLevel) (place : Span) (n : Nat) (x : Float) (outer : List OpenLevel) : Walk :=
  if v.index + n = 0 then
    .astray
  else
    match v.tokens[v.index + n - 1]? with
    | none => .astray
    | some close => .reading (v.read n ⟨.number x, place.cover close.span⟩) outer

end OpenLevel

namespace Walk

def start (depth : Nat) (place : Span) (tokens : List (Spanned Token)) : Walk :=
  entering { tokens, place, depth } []

def step (limit : Nat) : Walk → Walk
  | entering v outer =>
    if limit < v.depth then leaving v.place (.error ⟨.nestedTooDeeply, v.place⟩) outer
    else reading v outer
  | reading v outer => v.next outer
  | leaving place (.ok (n, x)) (v :: outer) => v.resume place n x outer
  | leaving place (.error e) (v :: outer) =>
    leaving v.place (.error (Fault.outside place e)) outer
  | leaving place result [] => leaving place result []
  | astray => astray

-- A level hands to a group the tokens behind its index, less than it has been handed itself.
structure HandedBy (tokens : List (Spanned Token)) (v : OpenLevel) : Prop where
  inside  : v.index ≤ v.tokens.length
  slice   : tokens = v.tokens.drop v.index
  shorter : tokens.length < v.tokens.length

-- The outer levels wait for one that has been handed `tokens`.
def Awaited (tokens : List (Spanned Token)) : List OpenLevel → Prop
  | [] => True
  | v :: outer => HandedBy tokens v ∧ Awaited v.tokens outer

-- What has been read is there, and so is the token that closes a group.
inductive InRange : Walk → Prop
  | entering {v : OpenLevel} {outer : List OpenLevel} :
    v.index ≤ v.tokens.length → Awaited v.tokens outer → InRange (.entering v outer)
  | reading {v : OpenLevel} {outer : List OpenLevel} :
    v.index ≤ v.tokens.length → Awaited v.tokens outer → InRange (.reading v outer)
  | returning {place : Span} {n : Nat} {x : Float} {tokens : List (Spanned Token)} {v : OpenLevel}
    {outer : List OpenLevel} :
    0 < v.index + n → v.index + n - 1 < v.tokens.length → Awaited tokens (v :: outer) →
    InRange (.leaving place (.ok (n, x)) (v :: outer))
  | failing {place : Span} {e : Spanned Fault} {tokens : List (Spanned Token)}
    {outer : List OpenLevel} :
    Awaited tokens outer → InRange (.leaving place (.error e) outer)
  | done {place : Span} {result : Except (Spanned Fault) (Nat × Float)} :
    InRange (.leaving place result [])

-- The walk comes from `w` to `w'`.
def Reaches (limit : Nat) (w w' : Walk) : Prop :=
  ∃ k, (step limit)^[k] w = w'

end Walk

open Walk

variable {limit n : Nat} {v : OpenLevel} {outer : List OpenLevel} {tokens : List (Spanned Token)}
  {place : Span} {x : Float} {e : Spanned Fault}
  {result : Except (Spanned Fault) (Nat × Float)} {w w' w'' : Walk}

namespace Walk.InRange

-- A level takes up no more than it has been handed, so the level around it does not either.
theorem leaving (h : Awaited tokens outer) (hn : n ≤ tokens.length)
    (hr : ∀ m x, result = .ok (m, x) → m = n) : InRange (.leaving place result outer) := by
  match result, outer with
  | .error e, _ => exact .failing h
  | .ok _, [] => exact .done
  | .ok (m, x), v :: outer =>
    obtain rfl := hr m x rfl
    obtain ⟨⟨inside, slice, shorter⟩, ho⟩ := h
    have hl : tokens.length = v.tokens.length - v.index := by rw [slice, List.length_drop]
    exact .returning (by omega) (by omega) ⟨⟨inside, slice, shorter⟩, ho⟩

theorem next (inside : v.index ≤ v.tokens.length) (h : Awaited v.tokens outer) :
    InRange (v.next outer) := by
  unfold OpenLevel.next
  split
  case h_1 =>
    refine .leaving h inside fun m x e => ?_
    split_ifs at e
    exact OpenLevel.value_ok e
  -- In all other cases there is a token at the index, so the next index is in range as well.
  all_goals
    rename_i ht
    have hlt := OpenLevel.index_lt ht
  case h_2 place =>
    have handed : HandedBy (v.tokens.drop (v.index + 1)) v.waiting :=
      ⟨hlt, rfl, by simp only [List.length_drop, OpenLevel.waiting]; omega⟩
    rw [OpenLevel.enter_of_lt hlt]
    exact .entering (Nat.zero_le _) ⟨handed, h⟩
  case h_3 =>
    refine .leaving h hlt fun m x e => ?_
    split_ifs at e
    exact OpenLevel.value_ok e
  case h_4 => exact .reading hlt h
  case h_5 => exact .reading hlt h

theorem resume (positive : 0 < v.index + n) (inside : v.index + n - 1 < v.tokens.length)
    (h : Awaited v.tokens outer) : InRange (v.resume place n x outer) := by
  have hn : v.index + n ≤ v.tokens.length := by omega
  rw [OpenLevel.resume, if_neg positive.ne', List.getElem?_eq_getElem inside]
  exact .reading hn h

theorem step (h : w.InRange) : (w.step limit).InRange := by
  cases h
  case entering v outer inside h =>
    change InRange (if limit < v.depth then _ else _)
    split
    case isTrue => exact .failing h
    case isFalse => exact .reading inside h
  case reading inside h => exact next inside h
  case returning positive inside h => exact resume positive inside h.right
  case failing outer h =>
    match outer with
    | [] => exact .done
    | v :: outer => exact .failing h.right
  case done result => cases result <;> exact .done

theorem iterate (h : w.InRange) (k : Nat) : ((Walk.step limit)^[k] w).InRange :=
  Function.Iterate.rec InRange h (fun _ => step) k

theorem start (depth : Nat) (place : Span) (tokens : List (Spanned Token)) :
    (start depth place tokens).InRange :=
  .entering (Nat.zero_le _) trivial

end Walk.InRange

namespace Walk.Reaches

theorem refl : Reaches limit w w :=
  ⟨0, rfl⟩

theorem head (h : Reaches limit (w.step limit) w') : Reaches limit w w' := by
  obtain ⟨k, h⟩ := h
  exact ⟨k + 1, h⟩

theorem trans (h : Reaches limit w w') (h' : Reaches limit w' w'') : Reaches limit w w'' := by
  obtain ⟨k, rfl⟩ := h
  obtain ⟨j, rfl⟩ := h'
  exact ⟨j + k, Function.iterate_add_apply ..⟩

end Walk.Reaches

namespace OpenLevel

-- What the level comes to, from where it stands.
def outcome (limit : Nat) (v : OpenLevel) : Except (Spanned Fault) (Nat × Float) :=
  readLayer limit v.depth v.items v.index (v.tokens.drop v.index) >>= Layer.result v.depth v.place

theorem drop_eq_cons {t : Spanned Token} (h : v.tokens[v.index]? = some t) :
    v.tokens.drop v.index = t :: v.tokens.drop (v.index + 1) := by
  rw [List.drop_eq_getElem?_toList_append, h]
  rfl

theorem outcome_of_end (h : v.tokens[v.index]? = none) : v.outcome limit =
    if 0 < v.depth then .error ⟨.unpairedBracket, v.place⟩ else v.value v.index := by
  have hd : v.tokens.drop v.index = [] := List.drop_eq_nil_iff.mpr (List.getElem?_eq_none_iff.mp h)
  obtain ⟨tokens, place, depth, index, items⟩ := v
  rw [outcome, hd, readLayer]
  cases depth <;> rfl

theorem outcome_of_closing {last : Span} (h : v.tokens[v.index]? = some ⟨.closing, last⟩) :
    v.outcome limit =
      if v.depth = 0 then .error ⟨.unpairedBracket, last⟩ else v.value (v.index + 1) := by
  have hd := drop_eq_cons h
  obtain ⟨tokens, place, depth, index, items⟩ := v
  rw [outcome, hd, readLayer]
  cases depth <;> rfl

theorem outcome_of_operator {o : Operator} (h : v.tokens[v.index]? = some ⟨.operator o, place⟩) :
    v.outcome limit = (v.read 1 ⟨.operator o, place⟩).outcome limit := by
  rw [outcome, drop_eq_cons h, readLayer]
  rfl

theorem outcome_of_number (h : v.tokens[v.index]? = some ⟨.number x, place⟩) :
    v.outcome limit = (v.read 1 ⟨.number x, place⟩).outcome limit := by
  rw [outcome, drop_eq_cons h, readLayer]
  rfl

theorem outcome_of_group_error (h : v.tokens[v.index]? = some ⟨.opening, place⟩)
    (hg : evaluateGroup limit (v.depth + 1) place (v.tokens.drop (v.index + 1)) = .error e) :
    v.outcome limit = .error (Fault.outside place e) := by
  rw [outcome, drop_eq_cons h, readLayer_opening_error hg]
  rfl

-- The group takes up at least its closing bracket, so that is what the walk looks up.
theorem outcome_of_group_ok (h : v.tokens[v.index]? = some ⟨.opening, place⟩)
    (hg : evaluateGroup limit (v.depth + 1) place (v.tokens.drop (v.index + 1)) = .ok (n, x))
    (outer : List OpenLevel) :
    ∃ g, v.waiting.resume place n x outer = .reading g outer ∧ g.tokens = v.tokens ∧
      v.index < g.index ∧ g.place = v.place ∧ v.outcome limit = g.outcome limit := by
  have positive : 1 ≤ n := ((extent_of_evaluateGroup hg).right (Nat.succ_pos _)).positive
  obtain ⟨last, hc, hr⟩ := readLayer_opening_ok hg v.items v.index
  have hi : v.index + 1 + (n - 1) = v.index + 1 + n - 1 := by omega
  rw [List.getElem?_drop, hi] at hc
  refine ⟨v.waiting.read n ⟨.number x, place.cover last⟩, ?resume, rfl, ?index, rfl, ?outcome⟩
  case resume =>
    have hn : v.waiting.index + n ≠ 0 := by omega
    have hc' : v.waiting.tokens[v.waiting.index + n - 1]? = some ⟨.closing, last⟩ := hc
    rw [resume, if_neg hn, hc']
  case index =>
    change v.index < v.index + 1 + n
    omega
  case outcome =>
    rw [outcome, drop_eq_cons h, hr, List.drop_drop]
    rfl

end OpenLevel

theorem reaches_of_entering {depth : Nat}
    (h : Reaches limit (.reading { tokens, place, depth } outer)
      (.leaving place (OpenLevel.outcome limit { tokens, place, depth }) outer)) :
    Reaches limit (.entering { tokens, place, depth } outer)
      (.leaving place (evaluateGroup limit depth place tokens) outer) := by
  apply Reaches.head
  change Reaches limit (if limit < depth then _ else _) _
  unfold evaluateGroup
  split
  case isTrue => exact .refl
  case isFalse => exact h

-- The walk leaves a level with what the level comes to. With each token there is less left to read,
-- inside of a group as well as behind it.
theorem reaches_leaving (limit : Nat) (v : OpenLevel) (outer : List OpenLevel) :
    Reaches limit (.reading v outer) (.leaving v.place (v.outcome limit) outer) := by
  apply Reaches.head
  change Reaches limit (v.next outer) _
  unfold OpenLevel.next
  split
  case h_1 h =>
    rw [OpenLevel.outcome_of_end h]
    exact .refl
  case h_2 place h =>
    have hlt := OpenLevel.index_lt h
    -- The group is evaluated first, and where it has a value the level goes on behind it.
    rw [OpenLevel.enter_of_lt hlt]
    refine (reaches_of_entering (reaches_leaving limit _ _)).trans (.head ?_)
    cases hg : evaluateGroup limit (v.depth + 1) place (v.tokens.drop (v.index + 1))
    case error e =>
      rw [OpenLevel.outcome_of_group_error h hg]
      exact .refl
    case ok r =>
      obtain ⟨g, hr, ht, hi, hp, ho⟩ := OpenLevel.outcome_of_group_ok h hg outer
      change Reaches limit (v.waiting.resume place r.1 r.2 outer) _
      rw [hr, ho, ← hp]
      exact reaches_leaving limit g outer
  case h_3 h =>
    rw [OpenLevel.outcome_of_closing h]
    exact .refl
  case h_4 h =>
    have hlt := OpenLevel.index_lt h
    rw [OpenLevel.outcome_of_operator h]
    exact reaches_leaving limit _ outer
  case h_5 h =>
    have hlt := OpenLevel.index_lt h
    rw [OpenLevel.outcome_of_number h]
    exact reaches_leaving limit _ outer
termination_by v.tokens.length - v.index
decreasing_by
  · rw [List.length_drop]
    omega
  · rw [ht]
    omega
  · exact Nat.sub_succ_lt_self _ _ hlt
  · exact Nat.sub_succ_lt_self _ _ hlt

-- A group takes up the tokens as far as the partner of its bracket. Outside of all groups this is
-- all tokens. The walk stays in range all the way, and where it ends it has found what the group
-- comes to.
theorem evaluateGroup_exact (limit depth : Nat) (place : Span) (tokens : List (Spanned Token)) :
    (∀ n x, evaluateGroup limit depth place tokens = .ok (n, x) →
      (depth = 0 → n = tokens.length ∧ Balanced tokens) ∧
      (0 < depth → ClosesGroup tokens n ∧ ∀ m, ClosesGroup tokens m → m = n)) ∧
    (∀ first rest, tokens = first :: rest →
      evaluate limit tokens = (evaluateGroup limit 0 first.span tokens).map (·.2)) ∧
    (∀ k, ((step limit)^[k] (.start depth place tokens)).InRange) ∧
    ∃ k, (step limit)^[k] (.start depth place tokens) =
      .leaving place (evaluateGroup limit depth place tokens) [] := by
  refine ⟨?extent, ?outermost, (InRange.start depth place tokens).iterate, ?finish⟩
  case extent =>
    intro n x h
    obtain ⟨outermost, group⟩ := extent_of_evaluateGroup h
    exact ⟨outermost, fun hd => ⟨group hd, fun _ => (group hd).unique⟩⟩
  case outermost =>
    rintro first rest rfl
    exact evaluate_cons limit first rest
  case finish => exact reaches_of_entering (reaches_leaving limit { tokens, place, depth } [])

-- In `(-(2)))` the group ends in front of a surplus bracket, and `-(2)` on its own is balanced.
theorem evaluateGroup_exact_surplus :
    let level : List (Spanned Token) :=
      [⟨.operator .minus, 1, 2⟩, ⟨.opening, 2, 3⟩, ⟨.number 2.0, 3, 4⟩, ⟨.closing, 4, 5⟩]
    let tokens : List (Spanned Token) := level ++ [⟨.closing, 5, 6⟩, ⟨.closing, 6, 7⟩]
    (evaluateGroup 2 1 ⟨0, 1⟩ tokens = .ok (5, -2.0) ∧ 0 < 1 ∧
      ClosesGroup tokens 5 ∧ ∀ m, ClosesGroup tokens m → m = 5) ∧
    (evaluateGroup 1 0 ⟨1, 2⟩ level = .ok (4, -2.0) ∧ 4 = level.length ∧ Balanced level) ∧
    evaluate 1 level = (evaluateGroup 1 0 ⟨1, 2⟩ level).map (·.2) ∧
    (∀ k, ((step 2)^[k] (.start 1 ⟨0, 1⟩ tokens)).InRange) ∧
    ∃ k, (step 2)^[k] (.start 1 ⟨0, 1⟩ tokens) =
      .leaving ⟨0, 1⟩ (evaluateGroup 2 1 ⟨0, 1⟩ tokens) [] := by
  intro level tokens
  have hg : evaluateGroup 2 1 ⟨0, 1⟩ tokens = .ok (5, -2.0) := by decide +kernel
  have hl : evaluateGroup 1 0 ⟨1, 2⟩ level = .ok (4, -2.0) := by decide +kernel
  obtain ⟨extent, -, inRange, finish⟩ := evaluateGroup_exact 2 1 ⟨0, 1⟩ tokens
  obtain ⟨extent', outermost, -, -⟩ := evaluateGroup_exact 1 0 ⟨1, 2⟩ level
  exact ⟨⟨hg, Nat.one_pos, (extent 5 (-2.0) hg).right Nat.one_pos⟩,
    ⟨hl, (extent' 4 (-2.0) hl).left rfl⟩, outermost _ _ rfl, inRange, finish⟩

end Abacus
