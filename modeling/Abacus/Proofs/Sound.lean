import Abacus.Proofs.Worth

namespace Abacus

-- Whether a level has a value as far as these items of it go, with a number in front of them or
-- not.
def Completes (chained : Bool) : List Item → Prop
  | [] => True
  | .number _ :: is => Completes true is
  | .operator .plus :: is => Completes false is
  | .operator .minus :: is => Completes false is
  | .operator .times :: .number _ :: is => chained ∧ Completes true is
  | .operator .divide :: .number y :: is => chained ∧ ¬y == 0.0 ∧ Completes true is
  | _ => False

namespace Tally

variable {u : Tally} {x : Float}

theorem worth_missing {o : Operator} {is : List Item} (ho : o = .times ∨ o = .divide)
    (h : ∀ x y is', u.chain = some x → is = .number y :: is' → False) :
    u.worth (.operator o :: is) = .error .missingOperand := by
  have hm (x y right rest) (hx : u.chain = some x)
      (hr : is.map .bare = (⟨.number y, right⟩ : Spanned Item) :: rest) : False := by
    have ⟨_, is', e, hi, _⟩ := List.map_eq_cons_iff.mp hr
    cases hi
    exact h x y is' hx e
  exact congrArg (Except.mapError (·.value)) (run_missing ho hm (.before 0))

theorem not_worth_missing {o : Operator} {is : List Item} (ho : o = .times ∨ o = .divide)
    (h : ∀ x y is', u.chain = some x → is = .number y :: is' → False) :
    ¬∃ x, u.worth (.operator o :: is) = .ok x := by
  rw [worth_missing ho h]
  exact nofun

theorem worth_ok_iff (u : Tally) (is : List Item) :
    (∃ x, u.worth is = .ok x) ↔ Completes u.chain.isSome is := by
  generalize hc : u.chain.isSome = chained
  fun_induction Completes chained is generalizing u
  case case1 => exact ⟨fun _ => trivial, fun _ => ⟨_, rfl⟩⟩
  case case2 y is ih => exact ih _ rfl
  case case3 is ih => exact ih _ (Option.isSome_eq_false_iff.mpr (by simp [settle_chain]))
  case case4 is ih => exact ih _ (Option.isSome_eq_false_iff.mpr (by simp [negate, settle_chain]))
  case case5 y is ih =>
    cases hx : u.chain
    case none =>
      rw [hx] at hc
      exact iff_of_false (not_worth_missing (.inl rfl) (by simp [hx])) (by simp [← hc])
    case some x =>
      rw [hx] at hc
      rw [worth_times hx, ih _ rfl, ← hc]
      simp
  case case6 y is ih =>
    cases hx : u.chain
    case none =>
      rw [hx] at hc
      exact iff_of_false (not_worth_missing (.inr rfl) (by simp [hx])) (by simp [← hc])
    case some x =>
      rw [hx] at hc
      by_cases hy : y == 0.0
      case pos =>
        rw [worth_divide_zero hx hy]
        simp [hy]
      case neg =>
        rw [worth_divide hx hy, ih _ rfl, ← hc]
        simp [hy]
  case case7 is _ nil number plus minus times divide =>
    apply iff_of_false ?_ id
    match is with
    | [] => exact (nil rfl).elim
    | .number x :: is => exact (number x is rfl).elim
    | .operator .plus :: is => exact (plus is rfl).elim
    | .operator .minus :: is => exact (minus is rfl).elim
    | .operator .times :: is =>
      exact not_worth_missing (.inl rfl) fun _ y is' _ e => times y is' (e ▸ rfl)
    | .operator .divide :: is =>
      exact not_worth_missing (.inr rfl) fun _ y is' _ e => divide y is' (e ▸ rfl)

end Tally

theorem levelWorth_ok_iff (is : List Item) : (∃ x, levelWorth is = .ok x) ↔ Completes false is :=
  Tally.worth_ok_iff {} is

theorem groupWorth_ok_iff {is : Option (List Item)} :
    (∃ x, groupWorth is = some x) ↔ ∃ is', is = some is' ∧ Completes false is' := by
  cases is
  case none => simp [groupWorth]
  case some is =>
    simp only [groupWorth, Option.bind_some, Option.some.injEq, exists_eq_left']
    rw [← levelWorth_ok_iff]
    cases levelWorth is <;> simp [Except.toOption]

def isOperand : Option Token → Bool
  | some (.number _) => true
  | some .closing => true
  | _ => false

@[simp]
theorem isOperand_none : isOperand none = false :=
  rfl

@[simp]
theorem isOperand_operator (o : Operator) : isOperand (some (.operator o)) = false :=
  rfl

@[simp]
theorem isOperand_opening : isOperand (some .opening) = false :=
  rfl

@[simp]
theorem isOperand_closing : isOperand (some .closing) = true :=
  rfl

@[simp]
theorem isOperand_number (x : Float) : isOperand (some (.number x)) = true :=
  rfl

-- An implied star completes any level.
theorem completes_implied (last : Option Token) (x : Float) (is : List Item) :
    Completes (isOperand last) ((implied last).map .operator ++ .number x :: is) ↔
      Completes true is := by
  unfold implied
  split
  case isTrue h => simp [h, Completes]
  case isFalse => rfl

namespace Phrase

-- The value of the operand that the phrase starts with.
def operand : Phrase → Option Float
  | literal l _ => some l.value
  | group inner _ => groupWorth (inner.items (some .opening))
  | _ => none

-- What an operator asks for if it stands between the token `last` and the phrase `rest`.
structure Fits (last : Option Token) (o : Operator) (rest : Phrase) : Prop where
  left    : o = .times ∨ o = .divide → isOperand last
  right   : o = .times ∨ o = .divide → rest ≠ nil
  divisor : o = .divide → ∀ y, rest.operand = some y → ¬y == 0.0

-- The phrase `ψ` behind the token `last'` is the rest of a level of the phrase `φ` behind `last`.
inductive Within : Option Token → Phrase → Option Token → Phrase → Prop
  | refl {last : Option Token} {φ : Phrase} : Within last φ last φ
  | operator {last last' : Option Token} {o : Operator} {rest ψ : Phrase} :
    Within (some (.operator o)) rest last' ψ → Within last (operator o rest) last' ψ
  | literal {last last' : Option Token} {l : Literal} {rest ψ : Phrase} :
    Within (some (.number l.value)) rest last' ψ → Within last (literal l rest) last' ψ
  | inner {last last' : Option Token} {inner rest ψ : Phrase} :
    Within (some .opening) inner last' ψ → Within last (group inner rest) last' ψ
  | rest {last last' : Option Token} {inner rest ψ : Phrase} :
    Within (some .closing) rest last' ψ → Within last (group inner rest) last' ψ

-- Each operator of the phrase has what it asks for.
def Sound (last : Option Token) (φ : Phrase) : Prop :=
  ∀ last' o rest, Within last φ last' (operator o rest) → Fits last' o rest

variable {φ ψ rest inner : Phrase} {last last' : Option Token} {o : Operator} {l : Literal}
  {is : List Item}

theorem sound_nil : Sound last nil := by
  intro last' o rest h
  cases h

theorem sound_operator :
    Sound last (operator o rest) ↔ Fits last o rest ∧ Sound (some (.operator o)) rest where
  mp h := ⟨h _ _ _ .refl, fun _ _ _ h' => h _ _ _ h'.operator⟩
  mpr := fun ⟨hf, h⟩ last' o' rest' h' => by
    cases h'
    case refl => exact hf
    case operator h' => exact h _ _ _ h'

theorem sound_literal : Sound last (literal l rest) ↔ Sound (some (.number l.value)) rest where
  mp h _ _ _ h' := h _ _ _ h'.literal
  mpr h _ _ _ h' := by
    cases h'
    case literal h' => exact h _ _ _ h'

theorem sound_group :
    Sound last (group inner rest) ↔ Sound (some .opening) inner ∧ Sound (some .closing) rest where
  mp h := ⟨fun _ _ _ h' => h _ _ _ h'.inner, fun _ _ _ h' => h _ _ _ h'.rest⟩
  mpr := fun ⟨hi, hr⟩ _ _ _ h' => by
    cases h'
    case inner h' => exact hi _ _ _ h'
    case rest h' => exact hr _ _ _ h'

-- Behind an operator a phrase starts with a number, if with anything.
theorem items_behind_operator (hp : rest.Proper (some (.operator o))) (hn : rest ≠ nil)
    (hi : rest.items (some (.operator o)) = some is) :
    ∃ y is', is = .number y :: is' ∧ rest.operand = some y := by
  cases rest
  case nil => exact absurd rfl hn
  case operator => exact absurd rfl (hp.left o)
  case literal l rest =>
    have ⟨is', _, e⟩ := Option.map_eq_some_iff.mp hi
    exact ⟨_, is', by simpa [implied] using e.symm, rfl⟩
  case group inner rest =>
    have ⟨x, hx, hi⟩ := Option.bind_eq_some_iff.mp hi
    have ⟨is', _, e⟩ := Option.map_eq_some_iff.mp hi
    exact ⟨x, is', by simpa [implied] using e.symm, hx⟩

theorem fits_sign (last : Option Token) (rest : Phrase) (ho : ¬(o = .times ∨ o = .divide)) :
    Fits last o rest where
  left h    := absurd h ho
  right h   := absurd h ho
  divisor h := absurd (.inr h) ho

theorem not_fits_nil (ho : o = .times ∨ o = .divide) : ¬Fits last o nil :=
  fun h => h.right ho rfl

theorem completes_operator (hp : rest.Proper (some (.operator o)))
    (hi : rest.items (some (.operator o)) = some is) :
    Completes (isOperand last) (.operator o :: is) ↔ Fits last o rest ∧ Completes false is := by
  have hs (ho : ¬(o = .times ∨ o = .divide)) := fits_sign last rest ho
  by_cases hn : rest = nil
  case pos =>
    subst hn
    cases hi
    cases o
    case plus | minus => simp_all [Completes]
    case times | divide => simp [Completes, not_fits_nil]
  case neg =>
    have ⟨y, is', e, hy⟩ := items_behind_operator hp hn hi
    subst e
    cases o
    case plus | minus => simp_all [Completes]
    case times =>
      constructor
      case mp => exact fun ⟨hl, hc⟩ => ⟨⟨fun _ => hl, fun _ => hn, nofun⟩, hc⟩
      case mpr => exact fun ⟨hf, hc⟩ => ⟨hf.left (.inl rfl), hc⟩
    case divide =>
      constructor
      case mp =>
        intro ⟨hl, hz, hc⟩
        have hd (x) (hx : rest.operand = some x) : ¬x == 0.0 := by
          cases hy.symm.trans hx
          exact hz
        exact ⟨⟨fun _ => hl, fun _ => hn, fun _ => hd⟩, hc⟩
      case mpr => exact fun ⟨hf, hc⟩ => ⟨hf.left (.inr rfl), hf.divisor rfl y hy, hc⟩

theorem completes_iff (φ : Phrase) (last : Option Token) (hp : φ.Proper last) :
    (∃ is, φ.items last = some is ∧ Completes (isOperand last) is) ↔ φ.Sound last := by
  induction φ generalizing last
  case nil => simp [items, Completes, sound_nil]
  case operator o rest ih =>
    have hr := ih (some (.operator o)) hp.right
    rw [isOperand_operator] at hr
    rw [sound_operator, ← hr]
    simp only [items, Option.map_eq_some_iff]
    constructor
    case mp =>
      rintro ⟨_, ⟨is, hi, e⟩, hc⟩
      obtain ⟨hf, hc⟩ := (completes_operator hp.right hi).mp (e ▸ hc)
      exact ⟨hf, is, hi, hc⟩
    case mpr =>
      rintro ⟨hf, is, hi, hc⟩
      exact ⟨_, ⟨is, hi, rfl⟩, (completes_operator hp.right hi).mpr ⟨hf, hc⟩⟩
  case literal l rest ih =>
    have hr := ih (some (.number l.value)) hp.right
    rw [sound_literal, ← hr]
    simp [items, completes_implied]
  case group inner rest ih ih' =>
    have hi := ih (some .opening) hp.left
    have hr := ih' (some .closing) hp.right
    rw [isOperand_opening, ← groupWorth_ok_iff] at hi
    rw [sound_group, ← hi, ← hr]
    cases hx : groupWorth (inner.items (some .opening)) <;> simp [items, hx, completes_implied]

theorem worth_ok_iff (hp : φ.Proper none) : (∃ x, φ.worth = .ok x) ↔ φ.Sound none := by
  rw [← completes_iff φ none hp, worth]
  cases φ.items none
  case none => simp
  case some is => simpa using levelWorth_ok_iff is

end Phrase

end Abacus
