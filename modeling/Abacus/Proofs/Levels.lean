import Abacus.Proofs.Sound

namespace Abacus

-- What stands inside a pair of brackets.
def Inside (source m : List Char) : Prop :=
  ∃ a b, source = a ++ '(' :: m ++ ')' :: b ∧ Balanced m

def IsLevel (source m : List Char) : Prop :=
  m = source ∨ Inside source m

-- Nothing of a level is left.
def AtEnd (s : List Char) : Prop :=
  s = [] ∨ ∃ b, s = ')' :: b

-- The token is neither missing nor an opening bracket, so a level has started in front of it.
def Mid (last : Option Token) : Prop :=
  last ≠ none ∧ last ≠ some .opening

variable {source s t m a : List Char} {c : Char} {last last' last'' : Option Token}

theorem Inside.append_left (h : Inside t m) (s : List Char) : Inside (s ++ t) m := by
  have ⟨a, b, e, hm⟩ := h
  exact ⟨s ++ a, b, by simp [e], hm⟩

theorem Inside.append_right (h : Inside t m) (s : List Char) : Inside (t ++ s) m := by
  have ⟨a, b, e, hm⟩ := h
  exact ⟨a, b ++ s, by simp [e], hm⟩

theorem IsLevel.exists_end (h : IsLevel source (s ++ t)) :
    ∃ a y, source = a ++ (t ++ y) ∧ AtEnd y := by
  cases h
  case inl h => exact ⟨s, [], by simp [h], .inl rfl⟩
  case inr h =>
    have ⟨a, b, e, _⟩ := h
    exact ⟨a ++ '(' :: s, ')' :: b, by simp [e], .inr ⟨b, rfl⟩⟩

theorem AtEnd.append_closing (h : AtEnd s) (t : List Char) : AtEnd (s ++ ')' :: t) := by
  cases h
  case inl h => exact .inr ⟨t, by simp [h]⟩
  case inr h =>
    have ⟨b, e⟩ := h
    exact .inr ⟨b ++ ')' :: t, by simp [e]⟩

namespace Operator

theorem balanced (o : Operator) : Balanced [o.char] :=
  have ⟨ho, hc⟩ := neutral_of_mem_operators o.char_mem_operators
  .single ho hc

theorem nests (o : Operator) (n : Nat) : Nests n [o.char] := by
  have ⟨ho, _⟩ := neutral_of_mem_operators o.char_mem_operators
  exact .of_neutral (by simpa using ho)

end Operator

namespace Literal

theorem balanced (l : Literal) : Balanced l.text :=
  l.isReadable.balanced

theorem nests (l : Literal) (n : Nat) : Nests n l.text :=
  .of_neutral fun _ hc => (l.isReadable.neutral hc).left

end Literal

namespace Phrase

variable {φ ψ χ rest inner : Phrase} {o : Operator} {n : Nat}

theorem text_eq_nil_iff : φ.text = [] ↔ φ = nil := by
  cases φ
  case literal l rest =>
    have ⟨c, r, e, _⟩ := l.exists_cons
    simp [text, e]
  all_goals simp [text]

theorem balanced_text (φ : Phrase) : Balanced φ.text := by
  induction φ
  case nil => exact .nil
  case operator o rest ih => exact o.balanced.append ih
  case literal l rest ih => exact l.balanced.append ih
  case group inner rest ih ih' =>
    have hg : Balanced ('(' :: inner.text ++ [')']) := .group rfl rfl ih
    exact text_group ▸ hg.append ih'

theorem balanced_group (inner : Phrase) : Balanced ('(' :: inner.text ++ [')']) :=
  .group rfl rfl inner.balanced_text

theorem nests_text_iff (φ : Phrase) : Nests n φ.text ↔ φ.depth ≤ n := by
  induction φ generalizing n
  case nil => exact iff_of_true (.of_neutral (by simp [text])) (Nat.zero_le n)
  case operator o rest ih =>
    have ha := Nests.append_iff (n := n) (r := rest.text) o.balanced
    exact ha.trans ((and_iff_right (o.nests n)).trans ih)
  case literal l rest ih =>
    exact (Nests.append_iff l.balanced).trans ((and_iff_right (l.nests n)).trans ih)
  case group inner rest ih ih' =>
    rw [text_group, Nests.append_iff inner.balanced_group, ih', depth]
    cases n
    case zero => simp [Nests.not_group]
    case succ n =>
      rw [Nests.group_iff rfl rfl inner.balanced_text, ih]
      omega

namespace Within

theorem trans (h : Within last φ last' ψ) (h' : Within last' ψ last'' χ) :
    Within last φ last'' χ := by
  induction h
  case refl => exact h'
  case operator ih => exact .operator (ih h')
  case literal ih => exact .literal (ih h')
  case inner ih => exact .inner (ih h')
  case rest ih => exact .rest (ih h')

theorem proper (h : Within last φ last' ψ) (hp : φ.Proper last) : ψ.Proper last' := by
  induction h
  case refl => exact hp
  case operator ih => exact ih hp.right
  case literal ih => exact ih hp.right
  case inner ih => exact ih hp.left
  case rest ih => exact ih hp.right

theorem depth_le (h : Within last φ last' ψ) : ψ.depth ≤ φ.depth := by
  induction h
  case refl => exact Nat.le_refl _
  all_goals
    rw [Phrase.depth]
    omega

end Within

end Phrase

-- The text `t` behind the token `last'` ends the level `source` behind `last`, or a level inside.
def EndsLevel (source : List Char) (last : Option Token) (t : List Char) (last' : Option Token) :
    Prop :=
  (∃ a, source = a ++ t ∧ (a = [] ∧ last' = last ∨ Mid last')) ∨
  ∃ m, Inside source m ∧ ∃ a, m = a ++ t ∧ (a = [] ∨ Mid last')

namespace EndsLevel

theorem append_left (h : EndsLevel source last t last') (hm : Mid last) (s : List Char)
    (last₀ : Option Token) : EndsLevel (s ++ source) last₀ t last' := by
  cases h
  case inl h =>
    have ⟨a, e, ha⟩ := h
    exact .inl ⟨s ++ a, by simp [e], .inr (ha.elim (fun ⟨_, e⟩ => e ▸ hm) id)⟩
  case inr h =>
    have ⟨m, hi, ha⟩ := h
    exact .inr ⟨m, hi.append_left s, ha⟩

theorem group (h : EndsLevel m (some .opening) t last') (hm : Balanced m) (s : List Char)
    (last : Option Token) : EndsLevel ('(' :: m ++ ')' :: s) last t last' := by
  cases h
  case inl h =>
    have ⟨a, e, ha⟩ := h
    exact .inr ⟨m, ⟨[], s, rfl, hm⟩, a, e, ha.imp_left And.left⟩
  case inr h =>
    have ⟨m', hi, ha⟩ := h
    exact .inr ⟨m', (hi.append_left ['(']).append_right (')' :: s), ha⟩

theorem exists_level (h : EndsLevel source last t last') :
    ∃ m a, IsLevel source m ∧ m = a ++ t ∧ (a = [] ∨ Mid last') := by
  cases h
  case inl h =>
    have ⟨a, e, ha⟩ := h
    exact ⟨source, a, .inl rfl, e, ha.imp_left And.left⟩
  case inr h =>
    have ⟨m, hi, a, e, ha⟩ := h
    exact ⟨m, a, .inr hi, e, ha⟩

end EndsLevel

namespace Phrase

variable {φ ψ rest inner : Phrase}

theorem Within.endsLevel (h : Within last φ last' ψ) : EndsLevel φ.text last ψ.text last' := by
  induction h
  case refl => exact .inl ⟨[], rfl, .inl ⟨rfl, rfl⟩⟩
  case operator o rest ψ _ ih => exact ih.append_left (by simp [Mid]) [o.char] _
  case literal l rest ψ _ ih => exact ih.append_left (by simp [Mid]) l.text _
  case inner inner rest ψ _ ih => exact ih.group inner.balanced_text _ _
  case rest inner rest ψ _ ih =>
    exact text_group ▸ ih.append_left (by simp [Mid]) _ _

-- Where an operator or an opening bracket stands in the text, a rest of a level starts.
theorem exists_within (φ : Phrase) (last : Option Token) (hm : c ∈ marks) (hc : c ≠ ')')
    (e : φ.text = a ++ c :: s) :
    ∃ last' ψ y, Within last φ last' ψ ∧ ψ ≠ nil ∧ c :: s = ψ.text ++ y ∧ AtEnd y := by
  induction φ generalizing last a s
  case nil => simp [text] at e
  case operator o rest ih =>
    cases a
    case nil => exact ⟨_, _, [], .refl, by simp, by simp [e], .inl rfl⟩
    case cons b a =>
      obtain ⟨last', ψ, y, h, hy⟩ := ih (some (.operator o)) (List.cons.inj e).right
      exact ⟨last', ψ, y, h.operator, hy⟩
  case literal l rest ih =>
    have hr : ∃ a', rest.text = a' ++ c :: s := by
      rcases List.append_eq_append_iff.mp e with ⟨t, _, hr⟩ | ⟨t, hl, hs⟩
      case inl => exact ⟨t, hr⟩
      case inr =>
        cases t
        case nil => exact ⟨[], by simpa using hs.symm⟩
        case cons b t =>
          have hb := (List.cons.inj hs).left
          exact absurd (hb ▸ hm) (l.isReadable.not_mem_marks (hl ▸ by simp))
    obtain ⟨_, e⟩ := hr
    obtain ⟨last', ψ, y, h, hy⟩ := ih (some (.number l.value)) e
    exact ⟨last', ψ, y, h.literal, hy⟩
  case group inner rest ih ih' =>
    cases a
    case nil => exact ⟨_, _, [], .refl, by simp, by simp [e], .inl rfl⟩
    case cons b a =>
      rcases List.append_eq_append_iff.mp (List.cons.inj e).right with ⟨t, _, hr⟩ | ⟨t, hi, hs⟩
      case inl =>
        cases t
        case nil => exact absurd (List.cons.inj hr).left.symm hc
        case cons b t =>
          obtain ⟨last', ψ, y, h, hy⟩ := ih' (some .closing) (List.cons.inj hr).right
          exact ⟨last', ψ, y, h.rest, hy⟩
      case inr =>
        cases t
        case nil => exact absurd (List.cons.inj hs).left hc
        case cons b t =>
          obtain ⟨hb, hs⟩ := List.cons.inj hs
          obtain ⟨last', ψ, y, h, hn, hy, he⟩ := ih (some .opening) (hb ▸ hi)
          have hs : c :: s = ψ.text ++ (y ++ ')' :: rest.text) := by
            rw [← List.append_assoc, ← hy, hs]
            rfl
          exact ⟨last', ψ, _, h.inner, hn, hs, he.append_closing rest.text⟩

theorem literal_text_ne {l : Literal} (hm : c ∈ marks) : (literal l rest).text ++ t ≠ c :: s := by
  intro e
  have ⟨b, r, hl, _⟩ := l.exists_cons
  rw [text, hl] at e
  have hb : c ∈ l.text := by simp [hl, (List.cons.inj e).left]
  exact l.isReadable.not_mem_marks hb hm

-- A phrase whose text starts with an operator starts with it as well.
theorem exists_eq_operator {o : Operator} (hn : φ ≠ nil) (e : o.char :: s = φ.text ++ t) :
    ∃ rest, φ = operator o rest ∧ s = rest.text ++ t := by
  cases φ
  case nil => exact absurd rfl hn
  case operator o' rest =>
    have ⟨ho, hs⟩ := List.cons.inj e
    exact ⟨rest, by rw [o.char_injective ho], hs⟩
  case literal l rest => exact absurd e.symm (literal_text_ne o.char_mem_marks)
  case group inner rest => exact absurd (List.cons.inj e).left (o.char_ne (by decide))

theorem exists_within_operator {o : Operator} (φ : Phrase) (last : Option Token)
    (e : φ.text = a ++ o.char :: s) :
    ∃ last' rest y, Within last φ last' (operator o rest) ∧ s = rest.text ++ y ∧ AtEnd y := by
  have hc : o.char ≠ ')' := o.char_ne (by decide)
  have ⟨last', ψ, y, h, hn, hs, hy⟩ := φ.exists_within last o.char_mem_marks hc e
  have ⟨rest, hψ, hs⟩ := exists_eq_operator hn hs
  exact ⟨last', rest, y, hψ ▸ h, hs, hy⟩

theorem exists_within_group (φ : Phrase) (last : Option Token) (e : φ.text = a ++ '(' :: s) :
    ∃ last' inner rest y, Within last φ last' (group inner rest) ∧
      s = inner.text ++ ')' :: (rest.text ++ y) := by
  have ⟨last', ψ, y, h, hn, hs, hy⟩ := φ.exists_within last (by decide) (by decide) e
  cases ψ
  case nil => exact absurd rfl hn
  case operator o rest => exact absurd (List.cons.inj hs).left.symm (o.char_ne (by decide))
  case literal l rest => exact absurd hs.symm (literal_text_ne (by decide))
  case group inner rest => exact ⟨last', inner, rest, y, h, by simpa [text] using hs⟩

-- Every bracket level of the text is the text of a phrase.
theorem exists_within_level {m : List Char} (φ : Phrase) (h : IsLevel φ.text m) :
    ∃ last ψ, Within none φ last ψ ∧ (last = none ∨ last = some .opening) ∧ ψ.text = m := by
  cases h
  case inl h => exact ⟨none, φ, .refl, .inl rfl, h.symm⟩
  case inr h =>
    have ⟨a, b, e, hm⟩ := h
    rw [List.append_assoc, List.cons_append] at e
    have ⟨last', inner, rest, y, h, hs⟩ := φ.exists_within_group none e
    have hi := hm.eq_of_closes inner.balanced_text rfl rfl hs
    exact ⟨some .opening, inner, h.trans (.inner .refl), .inr rfl, hi.symm⟩

theorem getLast?_append_text (s : List Char) (hn : φ ≠ nil) :
    (s ++ φ.text).getLast? = φ.text.getLast? := by
  have h : φ.text ≠ [] := mt text_eq_nil_iff.mp hn
  simp [List.getLast?_append, List.getLast?_eq_some_getLast h]

-- An operator at the end of a text has nothing behind it in the phrase.
theorem exists_within_last {o : Operator} (φ : Phrase) (last : Option Token)
    (h : φ.text.getLast? = some o.char) : ∃ last', Within last φ last' (operator o nil) := by
  induction φ generalizing last
  case nil => simp [text] at h
  case operator o' rest ih =>
    by_cases hn : rest = nil
    case pos =>
      have ho : o'.char = o.char := by simpa [text, hn] using h
      exact ⟨last, hn ▸ o'.char_injective ho ▸ .refl⟩
    case neg =>
      have hr := getLast?_append_text [o'.char] hn
      obtain ⟨last', h⟩ := ih (some (.operator o')) (hr.symm.trans h)
      exact ⟨last', h.operator⟩
  case literal l rest ih =>
    by_cases hn : rest = nil
    case pos =>
      have hl : l.text.getLast? = some o.char := by simpa [text, hn] using h
      exact absurd o.char_mem_operators (l.isReadable.not_mem_operators (List.mem_of_getLast? hl))
    case neg =>
      have hr := getLast?_append_text l.text hn
      obtain ⟨last', h⟩ := ih (some (.number l.value)) (hr.symm.trans h)
      exact ⟨last', h.literal⟩
  case group inner rest _ ih =>
    rw [text_group] at h
    by_cases hn : rest = nil
    case pos =>
      rw [hn, text, List.append_nil, List.getLast?_concat] at h
      exact absurd (Option.some.inj h).symm (o.char_ne (by decide))
    case neg =>
      have hr := getLast?_append_text ('(' :: inner.text ++ [')']) hn
      obtain ⟨last', h⟩ := ih (some .closing) (hr.symm.trans h)
      exact ⟨last', h.rest⟩

end Phrase

end Abacus
