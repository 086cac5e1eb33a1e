import Abacus.Calculator
import Abacus.Proofs.Levels

namespace Abacus

def products : List Char :=
  ['*', '/']

-- The value of what stands inside a pair of brackets.
inductive GroupValue (limit : Nat) : List Char → Float → Prop
  | empty : GroupValue limit [] 0.0
  | evaluated {m : List Char} {tokens : List (Spanned Token)} {x : Float} :
    tokenize m = .ok tokens → evaluate limit tokens = .ok x → GroupValue limit m x

-- The value of the literal or of the group that the text starts with.
inductive OperandValue (limit : Nat) : List Char → Float → Prop
  | literal {s r : List Char} {x : Float} :
    (Piece.ofText s).head? = some (.run r) → Decimal.doubleOfLiteral? r = some x →
    OperandValue limit s x
  | group {m s : List Char} {x : Float} :
    Balanced m → GroupValue limit m x → OperandValue limit ('(' :: (m ++ ')' :: s)) x

structure Evaluable (limit : Nat) (source : List Char) : Prop where
  nonempty : source ≠ []
  nesting  : Nests limit source
  first    : ∀ m, IsLevel source m → ∀ c ∈ m.head?, c ∉ products
  last     : ∀ m, IsLevel source m → ∀ c ∈ m.getLast?, c ∉ products
  divisors : ∀ a s x, source = a ++ '/' :: s → OperandValue limit s x → ¬x == 0.0

variable {limit : Nat} {c : Char} {s t m : List Char} {x : Float} {o : Operator}

theorem mem_products_iff :
    c ∈ products ↔ ∃ o : Operator, (o = .times ∨ o = .divide) ∧ o.char = c := by
  simp [products, Operator.char, eq_comm]

namespace Phrase

variable {φ ψ rest inner : Phrase} {last : Option Token}

theorem groupWorth_items (φ : Phrase) :
    groupWorth (φ.items (some .opening)) = φ.worth.toOption := by
  have hi : φ.items (some .opening) = φ.items none := by
    cases φ <;> simp [items, implied]
  rw [hi, worth]
  cases φ.items none <;> rfl

theorem evaluate_eq_ok_iff {tokens : List (Spanned Token)}
    (ht : tokens.map (·.value) = φ.tokens none) (hn : φ ≠ nil) (hd : φ.depth ≤ limit) :
    evaluate limit tokens = .ok x ↔ φ.worth = .ok x := by
  rw [← evaluate_phrase ht hn hd]
  cases evaluate limit tokens
  case error e => exact iff_of_false nofun nofun
  case ok y =>
    constructor
    case mp => exact fun h => Except.ok.inj h ▸ rfl
    case mpr => exact fun h => Except.ok.inj h ▸ rfl

theorem worth_nil : nil.worth = .ok 0.0 :=
  rfl

theorem groupValue_iff (hp : inner.Proper (some .opening)) (hd : inner.depth ≤ limit) :
    GroupValue limit inner.text x ↔ inner.worth = .ok x := by
  have ⟨tokens, ht, hv⟩ := tokenize_text (proper_opening.mp hp)
  have he (hn : inner ≠ nil) := evaluate_eq_ok_iff (x := x) hv hn hd
  constructor
  case mp =>
    intro h
    generalize hm : inner.text = m at h ht
    cases h
    case empty => rw [text_eq_nil_iff.mp hm, worth_nil]
    case evaluated tokens' ht' hx =>
      cases ht.symm.trans ht'
      by_cases hn : inner = nil
      case neg => exact (he hn).mp hx
      case pos =>
        have : tokens = [] := by simpa [hn, Phrase.tokens] using hv
        rw [this] at hx
        cases hx
  case mpr =>
    intro h
    by_cases hn : inner = nil
    case pos =>
      rw [hn, worth_nil] at h
      cases h
      exact text_eq_nil_iff.mpr hn ▸ .empty
    case neg => exact .evaluated ht ((he hn).mpr h)

theorem operand_group : operand (group inner rest) = some x ↔ inner.worth = .ok x := by
  rw [operand, groupWorth_items]
  cases inner.worth <;> simp [Except.toOption]

theorem head?_ofText_literal (l : Literal) (h : Stops s) :
    (Piece.ofText (l.text ++ s)).head? = some (.run l.text) := by
  rw [l.ofText_append h]
  rfl

theorem head?_ofText_mark (h : c ∈ marks) (s : List Char) :
    (Piece.ofText (c :: s)).head? = some (.mark c) := by
  have hn := not_isNumeric_of_not_continuesRun (not_continuesRun_of_mem_marks h)
  rw [Piece.ofText_mark hn]
  rfl

end Phrase

namespace OperandValue

theorem not_atEnd (h : OperandValue limit s x) : ¬AtEnd s := by
  intro hs
  cases h
  case literal r hr _ =>
    rcases hs with rfl | ⟨b, rfl⟩
    · simp [Piece.ofText_nil] at hr
    · simp [Phrase.head?_ofText_mark (c := ')') (by decide)] at hr
  case group => rcases hs with hs | ⟨b, hs⟩ <;> simp at hs

theorem eq_literal {l : Literal} (h : OperandValue limit (l.text ++ s) x) (hs : Stops s) :
    x = l.value := by
  generalize e : l.text ++ s = t at h
  cases h
  case literal r hr hx =>
    rw [← e, Phrase.head?_ofText_literal l hs] at hr
    cases hr
    exact Option.some.inj (hx.symm.trans l.reads)
  case group =>
    have ⟨c, r, hl, hc⟩ := l.exists_cons
    rw [hl] at e
    cases (List.cons.inj e).left
    exact absurd hc (by decide +kernel)

theorem of_group (h : OperandValue limit ('(' :: (m ++ ')' :: s)) x) (hm : Balanced m) :
    GroupValue limit m x := by
  generalize e : '(' :: (m ++ ')' :: s) = t at h
  cases h
  case literal r hr _ =>
    rw [← e, Phrase.head?_ofText_mark (by decide)] at hr
    cases hr
  case group m' s' hm' hx =>
    have hi := hm.eq_of_closes hm' rfl rfl (List.cons.inj e).right
    exact hi ▸ hx

end OperandValue

namespace Phrase

variable {φ ψ rest inner : Phrase} {last : Option Token}

theorem operandValue_iff (hp : rest.Proper (some (.operator o))) (hd : rest.depth ≤ limit)
    (hs : AtEnd s) : OperandValue limit (rest.text ++ s) x ↔ rest.operand = some x := by
  cases rest
  case nil => exact iff_of_false (fun h => h.not_atEnd hs) nofun
  case operator => exact absurd rfl (hp.left _)
  case literal l rest =>
    have hs' : Stops s := by
      rcases hs with rfl | ⟨b, rfl⟩
      · exact nofun
      · exact stops_of_mem_marks (by decide) b
    have hr := stops_text hp.right hs'
    rw [text, List.append_assoc]
    constructor
    case mp => exact fun h => congrArg some (h.eq_literal hr).symm
    case mpr =>
      intro h
      cases h
      exact .literal (head?_ofText_literal l hr) l.reads
  case group inner rest =>
    have hi : inner.depth ≤ limit := by
      rw [depth] at hd
      omega
    have ht : (group inner rest).text ++ s = '(' :: (inner.text ++ ')' :: (rest.text ++ s)) := by
      simp [text]
    rw [ht, operand_group, ← groupValue_iff hp.left hi]
    exact ⟨fun h => h.of_group inner.balanced_text, .group inner.balanced_text⟩

theorem isOperand_of_mid (hm : Mid last) (ho : ∀ o, last ≠ some (.operator o)) :
    isOperand last := by
  match last with
  | none => exact absurd rfl hm.left
  | some .opening => exact absurd rfl hm.right
  | some (.operator o) => exact absurd rfl (ho o)
  | some .closing => rfl
  | some (.number x) => rfl

theorem evaluable_of_sound (hp : φ.Proper none) (hn : φ ≠ nil) (hd : φ.depth ≤ limit)
    (h : φ.Sound none) : Evaluable limit φ.text where
  nonempty := mt text_eq_nil_iff.mp hn
  nesting  := φ.nests_text_iff.mpr hd
  first m hm c hc hcp := by
    obtain ⟨o, ho, e⟩ := mem_products_iff.mp hcp
    obtain ⟨last, ψ, hw, hl, hψ⟩ := φ.exists_within_level hm
    obtain ⟨t, ht⟩ := List.head?_eq_some_iff.mp hc
    have hψn : ψ ≠ nil := by
      rintro rfl
      simp [text, ← hψ] at ht
    obtain ⟨rest, hψ, _⟩ := exists_eq_operator (s := t) (t := []) (o := o) hψn (by simp [hψ, ht, e])
    have hf := (h _ _ _ (hψ ▸ hw)).left ho
    rcases hl with rfl | rfl <;> simp at hf
  last m hm c hc hcp := by
    obtain ⟨o, ho, e⟩ := mem_products_iff.mp hcp
    obtain ⟨last, ψ, hw, _, hψ⟩ := φ.exists_within_level hm
    have he : ψ.text.getLast? = some o.char := by
      rw [hψ, e]
      exact hc
    obtain ⟨last', hw'⟩ := ψ.exists_within_last last he
    exact not_fits_nil ho (h _ _ _ (hw.trans hw'))
  divisors a s x e hx := by
    obtain ⟨last, rest, y, hw, hs, hy⟩ := φ.exists_within_operator (o := .divide) none e
    have hr := (hw.proper hp).right
    have hrd : rest.depth ≤ limit := hw.depth_le.trans hd
    exact (h _ _ _ hw).divisor rfl x ((operandValue_iff hr hrd hy).mp (hs ▸ hx))

theorem sound_of_evaluable (hp : φ.Proper none) (h : Evaluable limit φ.text) : φ.Sound none := by
  intro last o rest hw
  have hd := φ.nests_text_iff.mp h.nesting
  obtain ⟨m, a, hm, e, ha⟩ := hw.endsLevel.exists_level
  obtain ⟨hl, hr⟩ := hw.proper hp
  constructor
  case left =>
    intro ho
    rcases ha with rfl | ha
    case inl =>
      have hc : o.char ∈ m.head? := by simp [e, text]
      exact absurd (mem_products_iff.mpr ⟨o, ho, rfl⟩) (h.first m hm _ hc)
    case inr => exact isOperand_of_mid ha hl
  case right =>
    intro ho hn
    have hc : o.char ∈ m.getLast? := by simp [e, text, hn]
    exact absurd (mem_products_iff.mpr ⟨o, ho, rfl⟩) (h.last m hm _ hc)
  case divisor =>
    intro ho x hx
    subst ho e
    obtain ⟨a', y, hs, hy⟩ := hm.exists_end
    have hrd : rest.depth ≤ limit := hw.depth_le.trans hd
    exact h.divisors a' (rest.text ++ y) x hs ((operandValue_iff hr hrd hy).mpr hx)

theorem evaluable_iff (hp : φ.Proper none) :
    Evaluable limit φ.text ↔ φ ≠ nil ∧ φ.depth ≤ limit ∧ φ.Sound none where
  mp h :=
    have hn := mt text_eq_nil_iff.mpr h.nonempty
    ⟨hn, φ.nests_text_iff.mp h.nesting, sound_of_evaluable hp h⟩
  mpr := fun ⟨hn, hd, h⟩ => evaluable_of_sound hp hn hd h

end Phrase

theorem exists_evaluate_eq_ok_iff {tokens : List (Spanned Token)} {φ : Phrase}
    (hv : tokens.map (·.value) = φ.tokens none) :
    (∃ x, evaluate limit tokens = .ok x) ↔ φ ≠ .nil ∧ φ.depth ≤ limit ∧ ∃ x, φ.worth = .ok x := by
  by_cases hn : φ = .nil
  case pos =>
    have ht : tokens = [] := by simpa [hn, Phrase.tokens] using hv
    subst ht
    exact iff_of_false (by simp [evaluate]) fun h => h.left hn
  case neg =>
    by_cases hd : φ.depth ≤ limit
    case pos => simp [Phrase.evaluate_eq_ok_iff hv hn hd, hn, hd]
    case neg =>
      have hdeep := Phrase.evaluate_deep hv (Nat.not_le.mp hd)
      exact iff_of_false (not_exists.mpr hdeep) fun h => hd h.right.left

-- Of the texts that have tokens, these are the ones that have a value.
theorem evaluate_ok_iff (calculator : Calculator) {source : String} {tokens : List (Spanned Token)}
    (h : tokenize source.toList = .ok tokens) :
    (∃ x, calculator.evaluate source = .ok x) ↔ Evaluable calculator.maxDepth source.toList := by
  obtain ⟨φ, ht, hp, hv⟩ := exists_phrase h
  have hc : calculator.evaluate source = evaluate calculator.maxDepth tokens := by
    rw [Calculator.evaluate, h]
  rw [hc, exists_evaluate_eq_ok_iff hv, ← ht, Phrase.evaluable_iff hp, Phrase.worth_ok_iff hp]

theorem evaluable_juxtaposed : Evaluable 1 "2(3)".toList := by
  let tokens : List (Spanned Token) :=
    [⟨.number 2.0, 0, 1⟩, ⟨.opening, 1, 2⟩, ⟨.number 3.0, 2, 3⟩, ⟨.closing, 3, 4⟩]
  have h : tokenize "2(3)".toList = .ok tokens := by decide +kernel
  exact (evaluate_ok_iff ⟨1⟩ h).mp ⟨5.0, by decide +kernel⟩

end Abacus
