import Abacus.Proofs.Evaluable
import Abacus.Proofs.Runs

namespace Abacus

-- Behind the text `n` brackets are open, and nothing in it closes one that is not.
structure LeavesOpen (n : Nat) (s : List Char) : Prop where
  prefixes : ∀ t, t <+: s → closed t ≤ opened t
  total    : opened s = closed s + n

-- The character at `p` closes a group that nothing in front of it opens.
structure IsSurplus (source : List Char) (p : Nat) : Prop where
  bracket : source[p]? = some ')'
  front   : ∀ s, s <:+ source.take p → opened s ≤ closed s

structure IsFirstSurplus (source : List Char) (p : Nat) : Prop extends IsSurplus source p where
  first : ∀ q, IsSurplus source q → p ≤ q

-- The text `t` between `a` and `b` is a whole literal or a whole group, and `x` is its value.
inductive IsOperand (limit : Nat) (a t b : List Char) (x : Float) : Prop
  | literal : IsRun a t b → Decimal.doubleOfLiteral? t = some x → IsOperand limit a t b x
  | group {m : List Char} :
    t = '(' :: m ++ [')'] → Balanced m → GroupValue limit m x → IsOperand limit a t b x

-- What is wrong with the text `t` between `a` and `b` if it is to blame for a fault.
inductive Blames (limit : Nat) : List Char → List Char → List Char → Fault → Prop
  | foreign {a b : List Char} {c : Char} :
    Unicode.isNumeric c = false → c ∉ marks → Blames limit a [c] b .foreignCharacter
  | unreadable {a r b : List Char} : IsRun a r b → Blames limit a r b .unreadableNumber
  | adjacent {a b : List Char} {c d : Char} :
    a.getLast? = some d → d ∈ operators → c ∈ operators → Blames limit a [c] b .missingOperand
  | outermost {a b : List Char} {c : Char} :
    c ∈ products → a = [] ∨ b = [] → Blames limit a [c] b .missingOperand
  | surplus {a b : List Char} :
    IsFirstSurplus (a ++ ')' :: b) a.length → Blames limit a [')'] b .unpairedBracket
  | unmatched {a b : List Char} :
    IsLastUnmatched (a ++ '(' :: b) a.length → Blames limit a ['('] b .unpairedBracket
  | tooDeep {a b : List Char} :
    LeavesOpen limit a → (∀ s, s ++ ['('] <+: a → ¬LeavesOpen limit s) →
    Blames limit a ['('] b .nestedTooDeeply
  | group {a b : List Char} : LeavesOpen 0 a → Blames limit a ['('] b .invalidExpression
  | divisor {a t b : List Char} {x : Float} :
    LeavesOpen 0 a → IsOperand limit (a ++ ['/']) t b x → x == 0.0 →
    Blames limit (a ++ ['/']) t b .divisionByZero

variable {source s t u v a b : List Char} {limit room p n : Nat} {place : Span} {e : Spanned Fault}

theorem Span.Holds.append_left (h : place.Holds s a t b) (u : List Char) :
    (place.shift u.length).Holds (u ++ s) (u ++ a) t b where
  text  := by simp [h.text]
  start := by simp [shift, h.start, Nat.add_comm]
  stop  := by simp [shift, h.stop]; omega

theorem Span.Holds.append_right (h : place.Holds s a t b) (v : List Char) :
    place.Holds (s ++ v) a t (b ++ v) where
  text  := by simp [h.text]
  start := h.start
  stop  := h.stop

-- The fault lies at a part of the text `s`, which starts at `p`, and `why` says what is wrong with
-- that part.
def Lies (p : Nat) (s : List Char) (why : List Char → List Char → List Char → Fault → Prop)
    (e : Spanned Fault) : Prop :=
  ∃ (place : Span) (a t b : List Char),
    e.span = place.shift p ∧ place.Holds s a t b ∧ why a t b e.value

namespace Lies

variable {why why' : List Char → List Char → List Char → Fault → Prop}

theorem append_left (h : Lies (p + u.length) s why e)
    (hw : ∀ a t b, s = a ++ t ++ b → why a t b e.value → why' (u ++ a) t b e.value) :
    Lies p (u ++ s) why' e := by
  have ⟨place, a, t, b, he, hp, h⟩ := h
  refine ⟨place.shift u.length, u ++ a, t, b, ?_, hp.append_left u, hw a t b hp.text h⟩
  simp only [he, Span.shift, Span.mk.injEq]
  omega

theorem append_right (h : Lies p s why e)
    (hw : ∀ a t b, why a t b e.value → why' a t (b ++ v) e.value) : Lies p (s ++ v) why' e := by
  have ⟨place, a, t, b, he, hp, h⟩ := h
  exact ⟨place, a, t, b ++ v, he, hp.append_right v, hw a t b h⟩

theorem front (h : why [] t b e.value) (he : e.span = ⟨p, p + t.length⟩) :
    Lies p (t ++ b) why e :=
  ⟨⟨0, t.length⟩, [], t, b, by simp [he, Span.shift, Nat.add_comm], ⟨rfl, rfl, by simp⟩, h⟩

theorem cons {c : Char} (h : Lies (p + 1) s why e)
    (hw : ∀ a t b, s = a ++ t ++ b → why a t b e.value → why' (c :: a) t b e.value) :
    Lies p (c :: s) why' e :=
  append_left (u := [c]) h hw

theorem mark {c : Char} (h : why [] [c] b e.value) (he : e.span = .single p) :
    Lies p (c :: b) why e :=
  front (t := [c]) h he

end Lies

namespace LeavesOpen

theorem of_balanced (h : Balanced s) : LeavesOpen 0 s where
  prefixes := h.prefixes
  total    := h.total

theorem append_left (h : LeavesOpen n s) (hu : Balanced u) : LeavesOpen n (u ++ s) where
  prefixes t ht := by
    cases prefix_append_cases ht
    case inl ht => exact hu.prefixes t ht
    case inr ht =>
      have ⟨t, ht, e⟩ := ht
      have := h.prefixes t ht
      have := hu.total
      simp only [e, opened_append, closed_append]
      omega
  total := by
    have := h.total
    have := hu.total
    simp only [opened_append, closed_append]
    omega

theorem opening (h : LeavesOpen n s) : LeavesOpen (n + 1) ('(' :: s) where
  prefixes t ht := by
    cases List.prefix_cons_iff.mp ht
    case inl e => simp [e]
    case inr ht =>
      have ⟨t, e, ht⟩ := ht
      have := h.prefixes t ht
      simp [e]
      omega
  total := by
    have := h.total
    simp
    omega

-- Where no more than `n` brackets are open, an opening bracket has fewer than `n` in front of it.
theorem not_append_opening (h : LeavesOpen n s) (hs : s ++ ['('] <+: t) : ¬Nests n t := by
  intro ht
  have := ht _ hs
  have := h.total
  simp at *
  omega

end LeavesOpen

theorem Nests.opening (h : Nests n s) : Nests (n + 1) ('(' :: s) := by
  intro t ht
  cases List.prefix_cons_iff.mp ht
  case inl e => simp [e]
  case inr ht =>
    have ⟨t, e, ht⟩ := ht
    have := h t ht
    simp [e]
    omega

-- What is wrong with an opening bracket if the group behind it stops the reading of a level that
-- has room for `room` more groups in each other.
inductive BlamesOpening (room : Nat) : List Char → List Char → List Char → Fault → Prop
  | group {a b : List Char} : Balanced a → BlamesOpening room a ['('] b .invalidExpression
  | tooDeep {a b : List Char} :
    LeavesOpen room a → Nests room a → BlamesOpening room a ['('] b .nestedTooDeeply

namespace BlamesOpening

variable {f : Fault}

theorem append_left (h : BlamesOpening room a t b f) (hu : Balanced u) (hn : Nests room u) :
    BlamesOpening room (u ++ a) t b f := by
  cases h
  case group h => exact .group (hu.append h)
  case tooDeep h hn' => exact .tooDeep (h.append_left hu) ((Nests.append_iff hu).mpr ⟨hn, hn'⟩)

theorem append_right (h : BlamesOpening room a t b f) : BlamesOpening room a t (b ++ v) f := by
  cases h
  case group h => exact .group h
  case tooDeep h hn => exact .tooDeep h hn

theorem opening (h : BlamesOpening room a t b .nestedTooDeeply) :
    BlamesOpening (room + 1) ('(' :: a) t b .nestedTooDeeply := by
  cases h
  case tooDeep h hn => exact .tooDeep h.opening hn.opening

theorem blames (h : BlamesOpening limit a t b f) : Blames limit a t b f := by
  cases h
  case group h => exact .group (.of_balanced h)
  case tooDeep h hn => exact .tooDeep h fun s hs hl => hl.not_append_opening hs hn

end BlamesOpening

theorem Lies.value_of_opening (h : Lies p s (BlamesOpening room) e) :
    e.value = .invalidExpression ∨ e.value = .nestedTooDeeply := by
  have ⟨_, a, t, b, _, _, h⟩ := h
  generalize e.value = f at h
  cases h
  case group => exact .inl rfl
  case tooDeep => exact .inr rfl

namespace Phrase

variable {φ inner rest : Phrase} {last : Option Token}

-- The value of a group is that of the phrase inside.
theorem worth_of_layer {x : Float}
    (h : inner.layer room (some .opening) p >>= levelValue = .ok x) :
    inner.worth = .ok x ∧ inner.depth ≤ room := by
  obtain ⟨is, hs, hx⟩ := Except.bind_eq_ok_iff.mp h
  obtain ⟨hi, hd⟩ := items_of_layer hs
  have ho : (group inner nil).operand = some x := by
    rw [operand, hi, groupWorth_map_value, hx]
    rfl
  exact ⟨operand_group.mp ho, hd⟩

theorem nests_group (hd : inner.depth ≤ n) : Nests (n + 1) ('(' :: inner.text ++ [')']) :=
  (Nests.group_iff rfl rfl inner.balanced_text).mpr (inner.nests_text_iff.mpr hd)

theorem group_stop (inner : Phrase) (p : Nat) :
    p + 1 + inner.text.length + 1 = p + ('(' :: inner.text ++ [')']).length := by
  simp only [List.length_append, List.length_cons, List.length_nil]
  omega

theorem blamesOpening_of_layer (h : φ.layer room last p = .error e) :
    Lies p φ.text (BlamesOpening room) e := by
  induction φ generalizing room last p e
  case nil => cases h
  case operator o rest ih =>
    have hr := ih (Except.map_eq_error_iff.mp h)
    exact hr.cons fun a t b _ h => h.append_left o.balanced (o.nests room)
  case literal l rest ih =>
    have hr := ih (Except.map_eq_error_iff.mp h)
    exact hr.append_left fun a t b _ h => h.append_left l.balanced (l.nests room)
  case group inner rest ih ih' =>
    rcases layer_group_error h with ⟨rfl, rfl⟩ | ⟨n, e', rfl, he, rfl⟩ | ⟨n, x, rfl, hx, hr⟩
    case inl => exact .mark (.tooDeep (.of_balanced .nil) (.of_neutral nofun)) rfl
    case inr.inl =>
      have hf : Lies p (group inner rest).text (BlamesOpening (n + 1))
          ⟨.invalidExpression, .single p⟩ :=
        .mark (.group .nil) rfl
      rcases Except.bind_eq_error_iff.mp he with he | ⟨is, _, he⟩
      case inr => exact Fault.outside_of_levelValue he _ ▸ hf
      case inl =>
        have hi := ih he
        rcases hi.value_of_opening with hv | hv
        case inl =>
          rw [Fault.outside, hv]
          exact hf
        case inr =>
          rw [Fault.outside, hv]
          have hi := hi.append_right (v := ')' :: rest.text) fun a t b h => h.append_right
          exact hi.cons fun a t b _ h => hv ▸ (hv ▸ h).opening
    case inr.inr =>
      rw [group_stop] at hr
      rw [text_group]
      exact (ih' hr).append_left fun a t b _ h =>
        h.append_left inner.balanced_group (nests_group (worth_of_layer hx).right)

end Phrase

namespace Tally

variable {t u : Tally} {items : List (Spanned Item)}

theorem exists_chain {x : Float} (hx : t.chain = some x)
    (hc : t.chain.isSome = u.chain.isSome) : ∃ y, u.chain = some y :=
  Option.isSome_iff_exists.mp (hc ▸ hx ▸ rfl)

-- A run fails at the same item whatever the numbers in front are.
theorem run_error_congr (h : t.run items = .error e) (hc : t.chain.isSome = u.chain.isSome) :
    u.run items = .error e := by
  fun_induction run t items generalizing u
  case case1 => cases h
  case case2 ih => exact ih h rfl
  case case3 ih => exact ih h (by simp [settle_chain])
  case case4 ih => exact ih h (by simp [negate, settle_chain])
  case case5 hx ih =>
    obtain ⟨x', hx'⟩ := exists_chain hx hc
    rw [run_times hx']
    exact ih h (by simp)
  case case6 missing =>
    refine (run_missing (.inl rfl) (fun x y right rest' hx => ?_) _).trans h
    obtain ⟨x', hx'⟩ := exists_chain hx hc.symm
    exact missing x' y right rest' hx'
  case case7 hx zero =>
    obtain ⟨x', hx'⟩ := exists_chain hx hc
    rw [run_divide hx', if_pos zero]
    exact h
  case case8 hx nonzero ih =>
    obtain ⟨x', hx'⟩ := exists_chain hx hc
    rw [run_divide hx', if_neg nonzero]
    exact ih h (by simp)
  case case9 missing =>
    refine (run_missing (.inr rfl) (fun x y right rest' hx => ?_) _).trans h
    obtain ⟨x', hx'⟩ := exists_chain hx hc.symm
    exact missing x' y right rest' hx'

-- Between two numbers, an operator fails at a zero divisor or leaves the failure to what follows.
theorem run_product_error {o : Operator} {place right : Span} {x y : Float}
    (ho : o = .times ∨ o = .divide) (hx : t.chain = some x)
    (h : t.run (⟨.operator o, place⟩ :: ⟨.number y, right⟩ :: items) = .error e) :
    o = .divide ∧ y == 0.0 ∧ e = ⟨.divisionByZero, right⟩ ∨
      Tally.run {} (⟨.number y, right⟩ :: items) = .error e := by
  have rest {u : Tally} (hu : u.chain.isSome) (h : u.run items = .error e) :
      Tally.run {} (⟨.number y, right⟩ :: items) = .error e :=
    run_error_congr (u := { chain := some y }) h hu
  cases ho
  case inl ho =>
    subst ho
    rw [run_times hx] at h
    exact .inr (rest rfl h)
  case inr ho =>
    subst ho
    rw [run_divide hx] at h
    split at h
    case isTrue zero =>
      cases h
      exact .inl ⟨rfl, zero, rfl⟩
    case isFalse => exact .inr (rest rfl h)

-- An implied star never fails.
theorem run_implied_error {last : Option Token} {y : Float} {right : Span}
    (hc : t.chain.isSome = isOperand last)
    (h : t.run ((implied last).map (⟨.operator ·, .before p⟩) ++ ⟨.number y, right⟩ :: items) =
      .error e) : ∃ u : Tally, u.chain.isSome ∧ u.run items = .error e := by
  unfold implied at h
  split at h
  case isTrue hl =>
    subst hl
    have ⟨x, hx⟩ := Option.isSome_iff_exists.mp hc
    exact ⟨_, rfl, (run_times hx y _ right items).symm.trans h⟩
  case isFalse => exact ⟨{ t.settle with chain := some y }, rfl, h⟩

end Tally

-- What is wrong with a part of a level behind the token `last` if the level has no value.
inductive BlamesLevel (limit : Nat) (last : Option Token) :
    List Char → List Char → List Char → Fault → Prop
  | first {b : List Char} {c : Char} :
    c ∈ products → isOperand last = false → BlamesLevel limit last [] [c] b .missingOperand
  | last {a : List Char} {c : Char} :
    c ∈ products → BlamesLevel limit last a [c] [] .missingOperand
  | divisor {a t b : List Char} {x : Float} :
    Balanced a → IsOperand limit (a ++ ['/']) t b x → x == 0.0 →
    BlamesLevel limit last (a ++ ['/']) t b .divisionByZero

theorem IsOperand.append_left {x : Float} (h : IsOperand limit (a ++ ['/']) t b x)
    (u : List Char) : IsOperand limit (u ++ (a ++ ['/'])) t b x := by
  cases h
  case group ht hm hx => exact .group ht hm hx
  case literal hr hx =>
    refine .literal ⟨hr.numeric, hr.whole, ?_, hr.behind⟩ hx
    simpa [List.getLast?_append] using hr.front

theorem BlamesLevel.append_left {last last' : Option Token} {f : Fault}
    (h : BlamesLevel limit last' a t b f) (hu : Balanced u)
    (hf : ∀ c, c ∈ products → a ++ t ++ b = c :: b → isOperand last') :
    BlamesLevel limit last (u ++ a) t b f := by
  cases h
  case first c hc hl => simp [hf c hc rfl] at hl
  case last c hc => exact .last hc
  case divisor a x ha hx ho =>
    rw [← List.append_assoc]
    exact .divisor (hu.append ha) (by simpa using ho.append_left u) hx

namespace Phrase

variable {φ inner rest : Phrase} {last : Option Token} {is : List (Spanned Item)} {o : Operator}

theorem products_of_operator (ho : o = .times ∨ o = .divide) : o.char ∈ products :=
  mem_products_iff.mpr ⟨o, ho, rfl⟩

-- Behind an operator a phrase starts with an operand, if with anything.
theorem layer_behind_operator (hp : rest.Proper (some (.operator o))) (hn : rest ≠ nil)
    (hl : rest.layer limit (some (.operator o)) p = .ok is) :
    ∃ x t b is', is = ⟨.number x, p, p + t.length⟩ :: is' ∧ rest.text = t ++ b ∧
      IsOperand limit ['/'] t b x := by
  cases rest
  case nil => exact absurd rfl hn
  case operator => exact absurd rfl (hp.left o)
  case literal l rest =>
    obtain ⟨is', _, e⟩ := Except.map_eq_ok_iff.mp hl
    refine ⟨l.value, l.text, rest.text, is', by simpa [implied] using e.symm, rfl, ?_⟩
    have hs : Stops (rest.text ++ []) := stops_text hp.right stops_nil
    rw [List.append_nil] at hs
    have hc (c) (hc : c ∈ ['/'].getLast?) : continuesRun c = false := by
      cases hc
      exact not_continuesRun_of_mem_marks (by decide)
    exact .literal (l.isRun hc hs) l.reads
  case group inner rest =>
    obtain ⟨n, is', x, hn, hx, _, e⟩ := layer_group_ok hl
    obtain ⟨hw, hd⟩ := worth_of_layer hx
    have hv := (groupValue_iff hp.left (show inner.depth ≤ limit by omega)).mpr hw
    refine ⟨x, '(' :: inner.text ++ [')'], rest.text, is', ?_, text_group, ?_⟩
    · simpa [implied, Nat.add_assoc, Nat.add_comm 1] using e
    · exact .group rfl inner.balanced_text hv

-- A fault behind an operator is no fault of the operator.
theorem lies_behind_operator (hp : rest.Proper (some (.operator o)))
    (h : Lies (p + 1) rest.text (BlamesLevel limit (some (.operator o))) e) :
    Lies p (operator o rest).text (BlamesLevel limit last) e := by
  refine h.cons fun a t b hs h =>
    BlamesLevel.append_left (u := [o.char]) h o.balanced fun c hc e => ?_
  obtain ⟨o', _, ho'⟩ := mem_products_iff.mp hc
  have hn : rest ≠ nil := by
    rintro rfl
    simp [text, e] at hs
  have ht : o'.char :: b = rest.text ++ [] := by rw [ho', hs, e, List.append_nil]
  obtain ⟨_, hrest, _⟩ := exists_eq_operator hn ht
  exact absurd rfl ((hrest ▸ hp).left o)

-- A `*` or `/` fails for want of an operand or for a zero divisor, or what follows fails.
theorem blamesLevel_of_product {t : Tally} (ho : o = .times ∨ o = .divide)
    (hp : rest.Proper (some (.operator o)))
    (hr : rest.layer limit (some (.operator o)) (p + 1) = .ok is)
    (ht : t.chain.isSome = isOperand last)
    (h : t.run (⟨.operator o, .single p⟩ :: is) = .error e) :
    Lies p (operator o rest).text (BlamesLevel limit last) e ∨ Tally.run {} is = .error e := by
  have hm := products_of_operator ho
  cases hx : t.chain
  case none =>
    rw [Tally.run_missing ho (by simp [hx])] at h
    cases h
    exact .inl (.mark (.first hm (by rw [← ht, hx]; rfl)) rfl)
  case some x =>
    by_cases hn : rest = nil
    case pos =>
      subst hn
      cases hr
      rw [Tally.run_missing ho (by simp)] at h
      cases h
      exact .inl (.mark (.last hm) rfl)
    case neg =>
      obtain ⟨y, s, b, is, rfl, hs, hy⟩ := layer_behind_operator hp hn hr
      rcases Tally.run_product_error ho hx h with ⟨rfl, zero, rfl⟩ | h
      case inr => exact .inr h
      case inl =>
        have hf : Lies (p + 1) (s ++ b) (fun a t b f => BlamesLevel limit last ('/' :: a) t b f)
            ⟨.divisionByZero, p + 1, p + 1 + s.length⟩ :=
          .front (.divisor (a := []) .nil hy zero) rfl
        rw [text, hs]
        exact .inl (hf.cons fun a t b _ h => h)

theorem blamesLevel_of_run {t : Tally} (hp : φ.Proper last) (hl : φ.layer limit last p = .ok is)
    (ht : t.chain.isSome = isOperand last) (h : t.run is = .error e) :
    Lies p φ.text (BlamesLevel limit last) e := by
  induction φ generalizing last p is t
  case nil =>
    cases hl
    cases h
  case operator o rest ih =>
    obtain ⟨is, hr, rfl⟩ := Except.map_eq_ok_iff.mp hl
    have hi {u : Tally} (hu : u.chain.isSome = false) (h : u.run is = .error e) :
        Lies p (operator o rest).text (BlamesLevel limit last) e :=
      lies_behind_operator hp.right (ih hp.right hr hu h)
    cases o
    case plus => exact hi (by simp [Tally.settle_chain]) h
    case minus => exact hi (by simp [Tally.negate, Tally.settle_chain]) h
    case times => exact (blamesLevel_of_product (.inl rfl) hp.right hr ht h).elim id (hi rfl)
    case divide => exact (blamesLevel_of_product (.inr rfl) hp.right hr ht h).elim id (hi rfl)
  case literal l rest ih =>
    obtain ⟨is, hr, rfl⟩ := Except.map_eq_ok_iff.mp hl
    obtain ⟨u, hu, h⟩ := Tally.run_implied_error ht h
    exact (ih hp.right hr hu h).append_left fun a t b _ h =>
      h.append_left l.balanced fun _ _ _ => rfl
  case group inner rest _ ih =>
    obtain ⟨n, is, x, hn, hx, hr, rfl⟩ := layer_group_ok hl
    obtain ⟨u, hu, h⟩ := Tally.run_implied_error ht h
    rw [group_stop] at hr
    rw [text_group]
    exact (ih hp.right hr hu h).append_left fun a t b _ h =>
      h.append_left inner.balanced_group fun _ _ _ => rfl

end Phrase

namespace Piece

variable {before : List Char} {ps : List Piece} {c : Char}

theorem FirstBreak.exists_split (h : FirstBreak before ps e) :
    ∃ front p back f, ps = front ++ p :: back ∧ Unbroken before front ∧
      p.Breaks (before ++ texts front) f ∧
      e = ⟨f, (before ++ texts front).length, (before ++ texts front).length + p.text.length⟩ := by
  induction h
  case head p ps f hb => exact ⟨[], p, ps, f, rfl, .nil, by simpa [texts] using hb, by simp [texts]⟩
  case tail p ps e hp _ ih =>
    obtain ⟨front, q, back, f, hps, hu, hb, he⟩ := ih
    exact ⟨p :: front, q, back, f, by simp [hps], .cons hp hu, by simpa [texts] using hb,
      by simpa [texts] using he⟩

theorem Fits.closed_le {p : Piece} (h : p.Fits before) (hb : closed before ≤ opened before)
    (ht : t <+: p.text) : closed (before ++ t) ≤ opened (before ++ t) := by
  cases p
  case run r =>
    have hr : Decimal.IsReadable r := by
      by_contra hn
      exact h _ (.unreadable hn)
    have := hr.balanced.prefixes t ht
    simp only [opened_append, closed_append]
    omega
  case mark c =>
    rcases List.prefix_cons_iff.mp ht with rfl | ⟨v, rfl, hv⟩
    · simpa using hb
    · rw [List.prefix_nil.mp hv]
      by_cases hc : c = ')'
      · subst hc
        exact Nat.not_lt.mp fun excess => h _ (.unpaired excess)
      · simp [hc]
        omega

-- Pieces that fit close nothing that is not open.
theorem Unbroken.closed_le (h : Unbroken before ps)
    (hb : ∀ s, s <+: before → closed s ≤ opened s) :
    ∀ s, s <+: before ++ texts ps → closed s ≤ opened s := by
  induction h
  case nil => simpa [texts] using hb
  case cons before p ps hp _ ih =>
    have ht : before ++ texts (p :: ps) = before ++ p.text ++ texts ps := by simp [texts]
    rw [ht]
    apply ih
    intro s hs
    cases prefix_append_cases hs
    case inl hs => exact hb s hs
    case inr hs =>
      obtain ⟨t, ht, rfl⟩ := hs
      exact hp.closed_le (hb before (List.prefix_refl before)) ht

theorem not_isNumeric_of_ofText (h : mark c ∈ ofText source) : Unicode.isNumeric c = false := by
  fun_induction pieces 0 source
  case case1 => simp [ofText_nil] at h
  case case2 n a s ha r ih =>
    rw [ofText_run ha] at h
    exact ih (List.mem_of_ne_of_mem (by simp) h)
  case case3 n a s ha ih =>
    have ha := Bool.not_eq_true _ ▸ ha
    rw [ofText_mark ha] at h
    cases List.mem_cons.mp h
    case inl e =>
      cases e
      exact ha
    case inr h => exact ih h

end Piece

theorem isFirstSurplus_of_excess (hp : ∀ s, s <+: a → closed s ≤ opened s)
    (excess : opened (a ++ [')']) < closed (a ++ [')'])) (b : List Char) :
    IsFirstSurplus (a ++ ')' :: b) a.length := by
  have ht : (a ++ ')' :: b).take a.length = a := by simp
  simp at excess
  refine ⟨⟨by simp, ?front⟩, ?first⟩
  case front =>
    intro s hs
    rw [ht] at hs
    obtain ⟨u, rfl⟩ := hs
    have := hp u (List.prefix_append u s)
    simp at excess
    omega
  case first =>
    intro q hq
    by_contra hlt
    have hlt := Nat.not_le.mp hlt
    have hb := hq.bracket
    rw [List.getElem?_append_left hlt] at hb
    have hf := hq.front _ (List.suffix_refl _)
    rw [List.take_append_of_le_length hlt.le] at hf
    have hs : a.take (q + 1) = a.take q ++ [')'] := by
      rw [List.take_add_one, hb]
      rfl
    have := hp _ (List.take_prefix (q + 1) a)
    rw [hs] at this
    simp at this
    omega

open Piece in
theorem blames_of_firstDefect (limit : Nat) (h : FirstDefect source e) :
    Lies 0 source (Blames limit) e := by
  cases h
  case broken h =>
    obtain ⟨front, p, back, f, ho, hu, hb, rfl⟩ := h.exists_split
    rw [List.nil_append] at *
    refine ⟨⟨(texts front).length, (texts front).length + p.text.length⟩, texts front, p.text,
      texts back, (Span.shift_zero _).symm, ⟨source_of_ofText ho, rfl, rfl⟩, ?_⟩
    cases hb
    case foreign c hm =>
      have hc : mark c ∈ ofText source := ho ▸ List.mem_append_right front List.mem_cons_self
      exact .foreign (not_isNumeric_of_ofText hc) hm
    case unreadable r hr =>
      refine .unreadable (isRun_of_ofText ho fun c hc => ?_)
      exact not_continuesRun_of_mem_marks (hu.mem_marks hc)
    case adjacent b c hl hb hc => exact .adjacent hl hb hc
    case unpaired excess =>
      have hp := hu.closed_le (by simp)
      exact .surplus (isFirstSurplus_of_excess hp excess _)
  case unmatched p _ hp =>
    have ht : (source.take p).length = p := List.length_take_of_le hp.lt_length.le
    have hs := hp.take_append
    refine ⟨.single p, source.take p, ['('], source.drop (p + 1), (Span.shift_zero _).symm,
      ⟨by simpa using hs.symm, ht.symm, by simp [Span.single, ht]⟩, .unmatched ?_⟩
    rw [hs, ht]
    exact hp

theorem IsRun.ne_nil {r : List Char} (h : IsRun a r b) : r ≠ [] := by
  have ⟨c, hc, _⟩ := h.numeric
  exact List.ne_nil_of_mem (List.mem_of_mem_head? hc)

theorem IsOperand.ne_nil {x : Float} (h : IsOperand limit a t b x) : t ≠ [] := by
  cases h
  case literal hr _ => exact hr.ne_nil
  case group ht _ _ => simp [ht]

theorem Blames.ne_nil {f : Fault} (h : Blames limit a t b f) : t ≠ [] := by
  cases h
  case unreadable hr => exact hr.ne_nil
  case divisor ho => exact ho.ne_nil
  all_goals simp

theorem BlamesLevel.blames {last : Option Token} {f : Fault} (h : BlamesLevel limit last a t b f) :
    Blames limit a t b f := by
  cases h
  case first hc _ => exact .outermost hc (.inl rfl)
  case last hc => exact .outermost hc (.inr rfl)
  case divisor ha hx ho => exact .divisor (.of_balanced ha) ho hx

theorem Lies.imp {why why' : List Char → List Char → List Char → Fault → Prop}
    (h : Lies p s why e) (hw : ∀ a t b, why a t b e.value → why' a t b e.value) :
    Lies p s why' e := by
  have ⟨place, a, t, b, he, hp, h⟩ := h
  exact ⟨place, a, t, b, he, hp, hw a t b h⟩

theorem blames_of_placed {φ : Phrase} (hn : φ ≠ .nil) (hp : φ.Proper none)
    (h : evaluate limit (φ.placed none 0) = .error e) : Lies 0 φ.text (Blames limit) e := by
  rw [Phrase.evaluate_placed hn] at h
  rcases Except.bind_eq_error_iff.mp h with h | ⟨is, hl, h⟩
  · exact (Phrase.blamesOpening_of_layer h).imp fun a t b h => h.blames
  · exact (Phrase.blamesLevel_of_run hp hl rfl h).imp fun a t b h => h.blames

-- The place of a fault holds what is to blame for it, at least one character. Only the empty
-- expression has none.
theorem blames_of_evaluate (calculator : Calculator) {source : String} {e : Spanned Fault}
    (h : calculator.evaluate source = .error e) :
    (source = "" → e = ⟨.invalidExpression, 0, 0⟩) ∧
    (source ≠ "" → e.span.start < e.span.stop ∧ e.span.stop ≤ source.toList.length ∧
      ∃ a t b, e.span.Holds source.toList a t b ∧ Blames calculator.maxDepth a t b e.value) := by
  constructor
  case left =>
    rintro rfl
    have ht : tokenize "".toList = .ok [] := by decide +kernel
    rw [Calculator.evaluate, ht] at h
    cases h
    rfl
  case right =>
    intro hs
    have hb : Lies 0 source.toList (Blames calculator.maxDepth) e := by
      rw [Calculator.evaluate] at h
      split at h
      case h_1 tokens ht =>
        obtain ⟨φ, hφ, hp, rfl⟩ := exists_placed ht
        have hn : φ ≠ .nil := by
          rintro rfl
          exact hs (String.toList_inj.mp hφ.symm)
        exact hφ ▸ blames_of_placed hn hp h
      case h_2 e' he =>
        cases h
        have hj := judges_tokenize source.toList
        rw [he] at hj
        exact blames_of_firstDefect _ hj
    obtain ⟨place, a, t, b, he, hp, hb⟩ := hb
    rw [Span.shift_zero] at he
    have := List.length_pos_iff.mpr hb.ne_nil
    have := congrArg List.length hp.text
    rw [List.length_append, List.length_append] at this
    have := hp.start
    have := hp.stop
    refine ⟨?_, ?_, a, t, b, he ▸ hp, hb⟩ <;> rw [he] <;> omega

theorem blames_zero_divisor :
    ∃ a t b, (⟨2, 5⟩ : Span).Holds "1/(0)".toList a t b ∧ Blames 1 a t b .divisionByZero :=
  have h : Calculator.evaluate ⟨1⟩ "1/(0)" = .error ⟨.divisionByZero, 2, 5⟩ := by decide +kernel
  ((blames_of_evaluate ⟨1⟩ h).right (by decide)).right.right

end Abacus
