import Abacus.Calculator
import Abacus.Proofs.Worth

namespace Abacus

inductive Sign where
  | plus
  | minus
  deriving DecidableEq, Repr

namespace Sign

def operator : Sign → Operator
  | plus => .plus
  | minus => .minus

def factor : Sign → Float
  | plus => 1.0
  | minus => -1.0

end Sign

inductive Category where
  | factor
  | term
  | expression

inductive Tree : Category → Type where
  | literal (l : Literal) : Tree .factor
  | group (e : Tree .expression) : Tree .factor
  | single (f : Tree .factor) : Tree .term
  | times (t : Tree .term) (f : Tree .factor) : Tree .term
  | divide (t : Tree .term) (f : Tree .factor) : Tree .term
  | first (s : Sign) (t : Tree .term) : Tree .expression
  | add (e : Tree .expression) (s : Sign) (t : Tree .term) : Tree .expression

namespace Tree

variable {c : Category}

-- The value that a tree means. A division by zero has a value here as well.
def value {c : Category} : Tree c → Float
  | literal l => l.value
  | group e => e.value
  | single f => f.value
  | times t f => t.value * f.value
  | divide t f => t.value / f.value
  | first s t => 0.0 + t.value * s.factor
  | add e s t => e.value + t.value * s.factor

def depth {c : Category} : Tree c → Nat
  | literal _ => 0
  | group e => e.depth + 1
  | single f => f.depth
  | times t f => max t.depth f.depth
  | divide t f => max t.depth f.depth
  | first _ t => t.depth
  | add e _ t => max e.depth t.depth

-- Whether a divisor outside of all groups of the tree compares equal to zero.
def failsHere {c : Category} : Tree c → Bool
  | literal _ => false
  | group _ => false
  | single _ => false
  | times t _ => t.failsHere
  | divide t f => t.failsHere || f.value == 0.0
  | first _ t => t.failsHere
  | add e _ t => e.failsHere || t.failsHere

-- Whether a divisor in a group of the tree compares equal to zero, at any depth.
def failsInside {c : Category} : Tree c → Bool
  | literal _ => false
  | group e => e.failsHere || e.failsInside
  | single f => f.failsInside
  | times t f => t.failsInside || f.failsInside
  | divide t f => t.failsInside || f.failsInside
  | first _ t => t.failsInside
  | add e _ t => e.failsInside || t.failsInside

def outcome (e : Tree .expression) : Except Fault Float :=
  if e.failsInside then .error .invalidExpression
  else if e.failsHere then .error .divisionByZero
  else .ok e.value

-- Whether the last factor of the tree is bracketed.
def endsInGroup {c : Category} : Tree c → Bool
  | literal _ => false
  | group _ => true
  | single f => f.endsInGroup
  | times _ f => f.endsInGroup
  | divide _ f => f.endsInGroup
  | first _ t => t.endsInGroup
  | add _ _ t => t.endsInGroup

-- The texts of a tree.
inductive Written : {c : Category} → Tree c → List Char → Prop
  | literal {l : Literal} : Written (literal l) l.text
  | group {e : Tree .expression} {s : List Char} :
    Written e s → Written (group e) ('(' :: s ++ [')'])
  | single {f : Tree .factor} {s : List Char} : Written f s → Written (single f) s
  | times {t : Tree .term} {f : Tree .factor} {s r : List Char} :
    Written t s → Written f r → Written (times t f) (s ++ '*' :: r)
  | juxtaposed {t : Tree .term} {f : Tree .factor} {s r : List Char} :
    t.endsInGroup → Written t s → Written f r → Written (times t f) (s ++ r)
  | divide {t : Tree .term} {f : Tree .factor} {s r : List Char} :
    Written t s → Written f r → Written (divide t f) (s ++ '/' :: r)
  | first {sign : Sign} {t : Tree .term} {s : List Char} :
    Written t s → Written (first sign t) (sign.operator.char :: s)
  | unsigned {t : Tree .term} {s : List Char} : Written t s → Written (first .plus t) s
  | add {e : Tree .expression} {sign : Sign} {t : Tree .term} {s r : List Char} :
    Written e s → Written t r → Written (add e sign t) (s ++ sign.operator.char :: r)

-- The level that a tree stands for, with all signs and stars.
def items {c : Category} : Tree c → List Item
  | literal l => [.number l.value]
  | group e => [.number e.value]
  | single f => f.items
  | times t f => t.items ++ .operator .times :: f.items
  | divide t f => t.items ++ .operator .divide :: f.items
  | first s t => .operator s.operator :: t.items
  | add e s t => e.items ++ .operator s.operator :: t.items

theorem items_factor (f : Tree .factor) : f.items = [.number f.value] := by
  cases f <;> rfl

theorem worth_term (t : Tree .term) (u : Tally) (rest : List Item) :
    u.worth (t.items ++ rest) =
      if t.failsHere then .error .divisionByZero
      else { u.settle with chain := some t.value }.worth rest := by
  match t with
  | single f =>
    rw [items, items_factor]
    exact u.worth_number f.value rest
  | times t f =>
    rw [items, items_factor, List.append_assoc, t.worth_term, failsHere]
    cases t.failsHere
    case false => exact Tally.worth_times rfl ..
    case true => rfl
  | divide t f =>
    rw [items, items_factor, List.append_assoc, t.worth_term, failsHere]
    cases t.failsHere
    case false =>
      cases hz : f.value == 0.0
      case false => exact Tally.worth_divide rfl (Bool.not_eq_true _ ▸ hz) _
      case true => exact Tally.worth_divide_zero rfl hz _
    case true => rfl

-- The tally behind a sign, which has settled what is in front of it.
def signed (u : Tally) : Sign → Tally
  | .plus => u.settle
  | .minus => u.settle.negate

theorem worth_sign (u : Tally) (s : Sign) (rest : List Item) :
    u.worth (.operator s.operator :: rest) = (signed u s).worth rest := by
  cases s
  case plus => exact u.worth_plus rest
  case minus => exact u.worth_minus rest

theorem settle_signed (u : Tally) (s : Sign) : (signed u s).settle = signed u s := by
  cases s <;> exact Tally.settle_of_chain u.settle_chain

theorem settle_term {u : Tally} {x : Float} (h : u.settle = { sum := x }) (s : Sign) (y : Float) :
    Tally.settle { signed u s with chain := some y } = { sum := x + y * s.factor } := by
  cases s <;> simp only [signed, h] <;> rfl

-- Behind an expression the tally has its value as soon as the last term is settled.
theorem worth_expression (e : Tree .expression) :
    ∃ u : Tally, u.settle = { sum := e.value } ∧ ∀ rest,
      Tally.worth {} (e.items ++ rest) =
        if e.failsHere then .error .divisionByZero else u.worth rest := by
  match e with
  | first s t =>
    refine ⟨{ signed {} s with chain := some t.value }, settle_term rfl s t.value, ?_⟩
    intro rest
    rw [items, List.cons_append, worth_sign, worth_term, settle_signed]
    rfl
  | add e s t =>
    have ⟨u, hu, hw⟩ := e.worth_expression
    refine ⟨{ signed u s with chain := some t.value }, settle_term hu s t.value, ?_⟩
    intro rest
    rw [items, List.append_assoc, List.cons_append, hw, worth_sign, worth_term, settle_signed,
      failsHere]
    cases e.failsHere <;> rfl

theorem levelWorth_items (e : Tree .expression) :
    levelWorth e.items = if e.failsHere then .error .divisionByZero else .ok e.value := by
  have ⟨u, hu, hw⟩ := e.worth_expression
  have h := hw []
  rw [List.append_nil] at h
  have hv : u.worth [] = .ok u.settle.sum := rfl
  rw [levelWorth, h, hv, hu]

-- The last token of the texts of a tree.
def final {c : Category} : Tree c → Token
  | literal l => .number l.value
  | group _ => .closing
  | single f => f.final
  | times _ f => f.final
  | divide _ f => f.final
  | first _ t => t.final
  | add _ _ t => t.final

-- A text of an expression may spell its items without a leading plus.
def Spells (is : List Item) : {c : Category} → Tree c → Prop
  | .expression, e => is = e.items ∨ .operator .plus :: is = e.items
  | _, t => is = t.items

-- The phrase `φ` is the text `s` of the tree with the phrase `ψ` behind it.
structure Attaches (t : Tree c) (s : List Char) (is : List Item) (last : Option Token)
    (ψ φ : Phrase) : Prop where
  text   : φ.text = s ++ ψ.text
  proper : φ.Proper last
  depth  : φ.depth = max t.depth ψ.depth
  items  : φ.items last =
    if t.failsInside then none
    else (ψ.items (some t.final)).map ((implied last).map .operator ++ is ++ ·)

end Tree

-- The token that a tree of the category may stand behind.
def Category.Follows (last : Option Token) : Category → Prop
  | expression => last = none ∨ last = some .opening
  | _ => ∀ x, last ≠ some (.number x)

namespace Tree

variable {c : Category}

theorem final_ne_operator (t : Tree c) (o : Operator) : some t.final ≠ some (.operator o) := by
  induction t <;> simp_all [final]

theorem final_of_endsInGroup {t : Tree c} (h : t.endsInGroup) : t.final = .closing := by
  induction t <;> simp_all [final, endsInGroup]

theorem implied_operator (o : Operator) : implied (some (.operator o)) = [] := by
  simp [implied]

theorem levelWorth_plus (is : List Item) : levelWorth (.operator .plus :: is) = levelWorth is :=
  rfl

theorem Spells.append {e : Tree .expression} {is : List Item} (h : e.Spells is) (s : Sign)
    (t : Tree .term) : (add e s t).Spells (is ++ .operator s.operator :: t.items) := by
  cases h
  case inl h => exact .inl (h ▸ rfl)
  case inr h => exact .inr (by rw [items, ← h, List.cons_append])

theorem Spells.levelWorth_eq {e : Tree .expression} {is : List Item} (h : e.Spells is) :
    levelWorth is = if e.failsHere then .error .divisionByZero else .ok e.value := by
  rw [← levelWorth_items]
  cases h
  case inl h => rw [h]
  case inr h => rw [← h, levelWorth_plus]

theorem Spells.groupWorth_eq {e : Tree .expression} {is : List Item} (h : e.Spells is) :
    groupWorth (if e.failsInside then none else some is) =
      if e.failsHere || e.failsInside then none else some e.value := by
  have hw := h.levelWorth_eq
  cases e.failsInside <;> cases hf : e.failsHere <;>
    simp [groupWorth, hw, hf, Except.toOption]

namespace Attaches

variable {c' c'' : Category} {t : Tree c} {s r : List Char} {is is' : List Item}
  {last : Option Token} {φ φ' ψ : Phrase} {o : Operator}

theorem operator {f : Tree c'} {w : Tree c''} (hf : Attaches f r is' (some (.operator o)) ψ φ')
    (ht : Attaches t s is last (.operator o φ') φ) (hd : w.depth = max t.depth f.depth)
    (hi : w.failsInside = (t.failsInside || f.failsInside)) (hl : w.final = f.final) :
    Attaches w (s ++ o.char :: r) (is ++ .operator o :: is') last ψ φ where
  text   := by simp [ht.text, Phrase.text, hf.text]
  proper := ht.proper
  depth  := by simp [ht.depth, Phrase.depth, hf.depth, hd, Nat.max_assoc]
  items  := by
    rw [ht.items, Phrase.items, hf.items, hi, hl, implied_operator]
    cases t.failsInside <;> cases f.failsInside <;> simp [Function.comp_def]

theorem literal {l : Literal} (hl : ∀ x, last ≠ some (.number x))
    (hψ : ψ.Proper (some (.number l.value))) :
    Attaches (.literal l) l.text [.number l.value] last ψ (.literal l ψ) where
  text   := rfl
  proper := ⟨hl, hψ⟩
  depth  := (Nat.zero_max _).symm
  items  := by simp [Phrase.items, failsInside, final]

theorem group {e : Tree .expression} (h : Attaches e s is (some .opening) .nil φ)
    (his : e.Spells is) (hψ : ψ.Proper (some .closing)) :
    Attaches (.group e) ('(' :: s ++ [')']) [.number e.value] last ψ (.group φ ψ) where
  text   := by simp [Phrase.text, h.text]
  proper := ⟨h.proper, hψ⟩
  depth  := by simp [Phrase.depth, h.depth, Tree.depth]
  items  := by
    have hi : φ.items (some .opening) = if e.failsInside then none else some is := by
      simp [h.items, implied, Phrase.items]
    rw [Phrase.items, hi, his.groupWorth_eq, failsInside, final]
    cases e.failsHere <;> cases e.failsInside <;> simp

theorem single {f : Tree .factor} (h : Attaches f s is last ψ φ) :
    Attaches (.single f) s is last ψ φ :=
  ⟨h.text, h.proper, h.depth, h.items⟩

theorem juxtaposed {t : Tree .term} {f : Tree .factor} (hg : t.endsInGroup)
    (hf : Attaches f r is' (some .closing) ψ φ') (ht : Attaches t s is last φ' φ) :
    Attaches (.times t f) (s ++ r) (is ++ .operator .times :: is') last ψ φ where
  text   := by simp [ht.text, hf.text]
  proper := ht.proper
  depth  := by simp [ht.depth, hf.depth, Tree.depth, Nat.max_assoc]
  items  := by
    rw [ht.items, final_of_endsInGroup hg, hf.items, failsInside, final]
    cases t.failsInside <;> cases f.failsInside <;> simp [Function.comp_def, implied]

theorem first {t : Tree .term} {sign : Sign} (hl : last = none ∨ last = some .opening)
    (h : Attaches t s is (some (.operator sign.operator)) ψ φ) :
    Attaches (.first sign t) (sign.operator.char :: s) (.operator sign.operator :: is) last ψ
      (.operator sign.operator φ) where
  text   := by simp [Phrase.text, h.text]
  proper := ⟨by rcases hl with rfl | rfl <;> simp, h.proper⟩
  depth  := h.depth
  items  := by
    have hi : implied last = [] := by rcases hl with rfl | rfl <;> simp [implied]
    rw [Phrase.items, h.items, hi, implied_operator, failsInside, final]
    cases t.failsInside <;> simp [Function.comp_def]

theorem unsigned {t : Tree .term} (h : Attaches t s is last ψ φ) :
    Attaches (.first .plus t) s is last ψ φ :=
  ⟨h.text, h.proper, h.depth, h.items⟩

end Attaches

-- The text `s` of the tree is that of a phrase with the items `is`, wherever the tree may stand.
def Attachable (t : Tree c) (s : List Char) (is : List Item) : Prop :=
  ∀ last ψ, c.Follows last → ψ.Proper (some t.final) → ∃ φ, t.Attaches s is last ψ φ

namespace Attachable

variable {c' : Category} {s r : List Char} {is is' : List Item}

theorem literal {l : Literal} : Attachable (.literal l) l.text [.number l.value] :=
  fun _ _ hl hψ => ⟨_, .literal hl hψ⟩

theorem group {e : Tree .expression} (h : e.Attachable s is) (his : e.Spells is) :
    Attachable (.group e) ('(' :: s ++ [')']) [.number e.value] := by
  intro last ψ _ hψ
  have ⟨φ, hφ⟩ := h (some .opening) .nil (.inr rfl) trivial
  exact ⟨_, hφ.group his hψ⟩

theorem single {f : Tree .factor} (h : f.Attachable s is) : Attachable (.single f) s is := by
  intro last ψ hl hψ
  have ⟨φ, hφ⟩ := h last ψ hl hψ
  exact ⟨φ, hφ.single⟩

-- The tree on the right is read first, since the phrase on the left goes on with its phrase.
theorem operator {t w : Tree c} {f : Tree c'} (o : Operator) (ht : t.Attachable s is)
    (hf : f.Attachable r is') (ho : c'.Follows (some (.operator o)))
    (hd : w.depth = max t.depth f.depth)
    (hi : w.failsInside = (t.failsInside || f.failsInside)) (hw : w.final = f.final) :
    w.Attachable (s ++ o.char :: r) (is ++ .operator o :: is') := by
  intro last ψ hl hψ
  have ⟨φ', hφ'⟩ := hf (some (.operator o)) ψ ho (hw ▸ hψ)
  have ⟨φ, hφ⟩ := ht last (.operator o φ') hl ⟨t.final_ne_operator, hφ'.proper⟩
  exact ⟨φ, hφ'.operator hφ hd hi hw⟩

theorem juxtaposed {t : Tree .term} {f : Tree .factor} (hg : t.endsInGroup)
    (ht : t.Attachable s is) (hf : f.Attachable r is') :
    Attachable (.times t f) (s ++ r) (is ++ .operator .times :: is') := by
  intro last ψ hl hψ
  have ⟨φ', hφ'⟩ := hf (some .closing) ψ nofun hψ
  have ⟨φ, hφ⟩ := ht last φ' hl (final_of_endsInGroup hg ▸ hφ'.proper)
  exact ⟨φ, .juxtaposed hg hφ' hφ⟩

theorem first {t : Tree .term} {sign : Sign} (h : t.Attachable s is) :
    Attachable (.first sign t) (sign.operator.char :: s) (.operator sign.operator :: is) := by
  intro last ψ hl hψ
  have ⟨φ, hφ⟩ := h (some (.operator sign.operator)) ψ nofun hψ
  exact ⟨_, .first hl hφ⟩

theorem unsigned {t : Tree .term} (h : t.Attachable s is) :
    Attachable (.first .plus t) s is := by
  intro last ψ hl hψ
  have ⟨φ, hφ⟩ := h last ψ (by rcases hl with rfl | rfl <;> nofun) hψ
  exact ⟨φ, hφ.unsigned⟩

end Attachable

theorem Written.attachable {t : Tree c} {s : List Char} (h : Written t s) :
    ∃ is, t.Spells is ∧ t.Attachable s is := by
  induction h
  case literal l => exact ⟨_, rfl, .literal⟩
  case group ih =>
    have ⟨_, his, h⟩ := ih
    exact ⟨_, rfl, h.group his⟩
  case single ih =>
    have ⟨_, rfl, h⟩ := ih
    exact ⟨_, rfl, h.single⟩
  case times ih ih' =>
    have ⟨_, rfl, h⟩ := ih
    have ⟨_, rfl, h'⟩ := ih'
    exact ⟨_, rfl, h.operator .times h' nofun rfl rfl rfl⟩
  case juxtaposed hg _ _ ih ih' =>
    have ⟨_, rfl, h⟩ := ih
    have ⟨_, rfl, h'⟩ := ih'
    exact ⟨_, rfl, h.juxtaposed hg h'⟩
  case divide ih ih' =>
    have ⟨_, rfl, h⟩ := ih
    have ⟨_, rfl, h'⟩ := ih'
    exact ⟨_, rfl, h.operator .divide h' nofun rfl rfl rfl⟩
  case first ih =>
    have ⟨_, rfl, h⟩ := ih
    exact ⟨_, .inl rfl, h.first⟩
  case unsigned ih =>
    have ⟨_, rfl, h⟩ := ih
    exact ⟨_, .inr rfl, h.unsigned⟩
  case add ih ih' =>
    have ⟨_, his, h⟩ := ih
    have ⟨_, rfl, h'⟩ := ih'
    exact ⟨_, his.append _ _, h.operator _ h' nofun rfl rfl rfl⟩

theorem Written.ne_nil {t : Tree c} {s : List Char} (h : Written t s) : s ≠ [] := by
  induction h
  case literal l =>
    have ⟨c, r, hl, _⟩ := l.exists_cons
    simp [hl]
  case single ih => exact ih
  case unsigned ih => exact ih
  all_goals simp_all

end Tree

-- A text of an expression evaluates to what the expression means, or fails where that divides by
-- zero.
theorem calculate_written {e : Tree .expression} {source : String} (h : e.Written source.toList)
    {limit : Nat} (hd : e.depth ≤ limit) :
    ({ maxDepth := limit } : Calculator).calculate source = e.outcome := by
  obtain ⟨is, his, hs⟩ := h.attachable
  obtain ⟨φ, hφ⟩ := hs none .nil (.inl rfl) trivial
  have ht : φ.text = source.toList := by simp [hφ.text, Phrase.text]
  obtain ⟨tokens, htok, hv⟩ := Phrase.tokenize_text hφ.proper
  have hn : φ ≠ .nil := by
    intro hn
    exact h.ne_nil (by rw [← ht, hn, Phrase.text])
  have hl : φ.depth ≤ limit := by simpa [hφ.depth, Phrase.depth] using hd
  have he := Phrase.evaluate_phrase hv hn hl
  have hi : φ.items none = if e.failsInside then none else some is := by
    simp [hφ.items, implied, Phrase.items]
  have hw : φ.worth = e.outcome := by
    rw [Phrase.worth, hi, Tree.outcome]
    cases e.failsInside
    case false => exact his.levelWorth_eq
    case true => rfl
  rw [Calculator.calculate, Calculator.evaluate, ← ht, htok]
  exact he.trans hw

theorem calculate_written_juxtaposed :
    ∃ e : Tree .expression, e.Written "-(2)3".toList ∧ e.depth ≤ 1 ∧
      ({ maxDepth := 1 } : Calculator).calculate "-(2)3" = .ok (-6.0) := by
  let two : Literal := ⟨['2'], 2.0, by decide, by decide +kernel⟩
  let three : Literal := ⟨['3'], 3.0, by decide, by decide +kernel⟩
  let g : Tree .factor := .group (.first .plus (.single (.literal two)))
  let e : Tree .expression := .first .minus (.times (.single g) (.literal three))
  have hg : g.Written ['(', '2', ')'] := .group (.unsigned (.single .literal))
  have hw : e.Written "-(2)3".toList := .first (.juxtaposed rfl (.single hg) .literal)
  exact ⟨e, hw, by decide, (calculate_written hw (by decide)).trans (by decide +kernel)⟩

end Abacus
