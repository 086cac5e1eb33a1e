import Abacus.Proofs.Exact
import Abacus.Proofs.Tiling
import Abacus.Proofs.Unplaced

namespace Abacus

open Piece

-- The second token may stand right behind the first.
structure Token.Admits (t u : Token) : Prop where
  operators : t.isOperator → ¬u.isOperator
  numbers   : ∀ x y, t = .number x → u ≠ .number y
  closing   : t = .closing → ¬u.startsOperand

structure WellFormed (ts : List Token) : Prop where
  balanced : Balanced ts
  adjacent : ts.IsChain Token.Admits
  values   : ∀ x, .number x ∈ ts → x.isFinite ∧ ¬Binary64.isNegative x

-- The texts of a single token. A number is written as any literal that denotes it exactly, unless
-- the literal starts with the point.
inductive Token.IsSpelled : Token → List Char → Prop
  | opening : IsSpelled .opening ['(']
  | closing : IsSpelled .closing [')']
  | operator (o : Operator) : IsSpelled (.operator o) [o.char]
  | number {x : Float} {r : List Char} :
    r.head? ≠ some '.' → Decimal.Denotes r x → IsSpelled (.number x) r

-- The texts of the tokens stand one behind another.
inductive AreSpelled : List Token → List Char → Prop
  | nil : AreSpelled [] []
  | cons {t : Token} {r : List Char} {ts : List Token} {s : List Char} :
    t.IsSpelled r → AreSpelled ts s → AreSpelled (t :: ts) (r ++ s)

namespace Token.Admits

variable {t u : Token} {o : Operator} {x : Float}

theorem closing_right (t : Token) : t.Admits .closing where
  operators := by simp [isOperator]
  numbers   := by simp
  closing   := by simp [startsOperand]

theorem operator_right (h : ∀ o, t ≠ .operator o) (o : Operator) : t.Admits (.operator o) where
  operators := fun ht => have ⟨o, e⟩ := isOperator_iff.mp ht; absurd e (h o)
  numbers   := by simp
  closing   := by simp [startsOperand]

theorem operator_left (h : ¬u.isOperator) (o : Operator) : (Token.operator o).Admits u where
  operators := fun _ => h
  numbers   := by simp
  closing   := by simp

theorem of_startsOperand (hu : u.startsOperand) (ht : t ≠ .closing)
    (hx : ∀ x y, t = .number x → u ≠ .number y) : t.Admits u where
  operators := by cases u <;> simp_all [startsOperand, isOperator]
  numbers   := hx
  closing   := fun e => absurd e ht

end Token.Admits

namespace Phrase

variable {φ : Phrase} {last : Option Token} {t : Token} {ts : List Token} {x : Float}

theorem balanced_implied (last : Option Token) : Balanced ((implied last).map Token.operator) := by
  refine .of_neutral fun t ht => ?_
  have ⟨o, _, e⟩ := List.mem_map.mp ht
  exact e ▸ ⟨rfl, rfl⟩

theorem balanced_tokens (φ : Phrase) (last : Option Token) : Balanced (φ.tokens last) := by
  induction φ generalizing last
  case nil => exact .nil
  case operator o rest ih => exact (Balanced.single rfl rfl).append (ih _)
  case literal l rest ih =>
    exact (balanced_implied last).append ((Balanced.single rfl rfl).append (ih _))
  case group inner rest ih ih' =>
    have hg := Balanced.group (o := Token.opening) (c := Token.closing) rfl rfl (ih (some .opening))
    simpa [tokens] using (balanced_implied last).append (hg.append (ih' (some .closing)))

-- The implied star parts a closing bracket from the operand behind it.
theorem isChain_implied (ht : t.startsOperand) (h : (t :: ts).IsChain Token.Admits)
    (hx : ∀ x y, last = some (.number x) → t ≠ .number y) :
    (last.toList ++ ((implied last).map Token.operator ++ t :: ts)).IsChain Token.Admits := by
  cases last
  case none => simpa [implied] using h
  case some a =>
    by_cases ha : a = .closing
    case pos =>
      have ho : ¬t.isOperator := by cases t <;> simp_all [Token.startsOperand, Token.isOperator]
      have hs : (Token.closing :: .operator .times :: t :: ts).IsChain Token.Admits :=
        .cons_cons (.operator_right (by simp) _) (.cons_cons (.operator_left ho _) h)
      simpa [implied, ha] using hs
    case neg =>
      have ha' : a.Admits t := .of_startsOperand ht ha fun x y e => hx x y (congrArg some e)
      simpa [implied, ha] using h.cons_cons ha'

theorem isChain_tokens (h : φ.Proper last) :
    (last.toList ++ φ.tokens last).IsChain Token.Admits := by
  induction φ generalizing last
  case nil => cases last <;> simp [tokens]
  case operator o rest ih =>
    have hr := ih h.right
    cases last
    case none => exact hr
    case some a => exact hr.cons_cons (.operator_right (fun o e => h.left o (congrArg some e)) o)
  case literal l rest ih =>
    exact isChain_implied rfl (ih h.right) fun x _ e => absurd e (h.left x)
  case group inner rest ih ih' =>
    have hi : (Token.opening :: inner.tokens (some .opening)).IsChain Token.Admits := ih h.left
    have hr : (Token.closing :: rest.tokens (some .closing)).IsChain Token.Admits := ih' h.right
    have hg := List.isChain_append.mpr ⟨hi, hr, fun a _ c hc => by
      cases hc
      exact .closing_right a⟩
    have hc := isChain_implied rfl hg fun x y (_ : last = some (.number x)) => by simp
    simpa [tokens] using hc

theorem values_of_tokens (h : Token.number x ∈ φ.tokens last) :
    x.isFinite ∧ ¬Binary64.isNegative x := by
  induction φ generalizing last
  case nil => simp [tokens] at h
  case operator o rest ih => exact ih (by simpa [tokens] using h)
  case literal l rest ih =>
    have h : x = l.value ∨ Token.number x ∈ rest.tokens (some (.number l.value)) := by
      simpa [tokens] using h
    rcases h with rfl | h
    · exact Decimal.isFinite_of_doubleOfLiteral? l.reads
    · exact ih h
  case group inner rest ih ih' =>
    have h : Token.number x ∈ inner.tokens (some .opening) ∨
        Token.number x ∈ rest.tokens (some .closing) := by
      simpa [tokens] using h
    exact h.elim ih ih'

theorem wellFormed_tokens (h : φ.Proper none) : WellFormed (φ.tokens none) where
  balanced := φ.balanced_tokens none
  adjacent := isChain_tokens h
  values _ := values_of_tokens

end Phrase

theorem Token.IsSpelled.exists_literal {x : Float} {r : List Char}
    (h : (Token.number x).IsSpelled r) (hx : x.isFinite) (hn : ¬Binary64.isNegative x) :
    ∃ l : Literal, l.text = r ∧ l.value = x := by
  cases h
  case number hp hd =>
    have hr := hd.doubleOfLiteral? hx hn
    cases r
    case nil => cases hr
    case cons c r =>
      have hc : c ≠ '.' := fun e => hp (congrArg some e)
      have hm : c ∈ c :: r := List.mem_cons_self
      have hi := (Decimal.doubleOfLiteral?_isSome_iff ⟨c, hm, hc⟩).mp (hr ▸ rfl)
      have hnum := Unicode.isNumeric_of_isDigit ((hi.digits c hm).resolve_right hc)
      exact ⟨⟨c :: r, x, hnum, hr⟩, rfl, rfl⟩

namespace AreSpelled

variable {ts : List Token} {s : List Char}

theorem stops (h : AreSpelled ts s) (hx : ∀ x, ts.head? ≠ some (.number x)) : Stops s := by
  cases h
  case nil => exact nofun
  case cons t r ts s ht _ =>
    cases ht
    case opening => exact Phrase.stops_of_mem_marks (by decide) s
    case closing => exact Phrase.stops_of_mem_marks (by decide) s
    case operator o => exact Phrase.stops_of_mem_marks o.char_mem_marks s
    case number x _ _ => exact absurd rfl (hx x)

-- Each token is a piece of its own.
theorem names (h : AreSpelled ts s) (ha : ts.IsChain Token.Admits)
    (hv : ∀ x, .number x ∈ ts → x.isFinite ∧ ¬Binary64.isNegative x) :
    List.Forall₂ Piece.Names (ofText s) ts := by
  induction h
  case nil =>
    rw [ofText_nil]
    exact .nil
  case cons t r ts s ht hs ih =>
    obtain ⟨hh, ha⟩ := List.isChain_cons.mp ha
    have ih := ih ha fun x hx => hv x (List.mem_cons_of_mem t hx)
    cases ht
    case opening =>
      rw [List.singleton_append, ofText_mark (by decide +kernel)]
      exact .cons .opening ih
    case closing =>
      rw [List.singleton_append, ofText_mark (by decide +kernel)]
      exact .cons .closing ih
    case operator o =>
      have hn := not_isNumeric_of_not_continuesRun (not_continuesRun_of_mem_marks o.char_mem_marks)
      rw [List.singleton_append, ofText_mark hn]
      exact .cons (.operator o) ih
    case number x hp hd =>
      have ⟨hx, hn⟩ := hv x List.mem_cons_self
      obtain ⟨l, rfl, rfl⟩ := (Token.IsSpelled.number hp hd).exists_literal hx hn
      have hs := hs.stops fun y hy => (hh _ hy).numbers _ y rfl rfl
      rw [l.ofText_append hs]
      exact .cons (.number l.reads) ih

end AreSpelled

namespace Scan

variable {s : Scan} {p : Piece} {t : Token} {ps : List Piece} {ts : List Token}

theorem imply_of_admits (ha : ∀ a ∈ s.last?, a.Admits t) (ht : t.startsOperand) (n : Nat) :
    s.imply n = s := by
  rw [imply, if_neg]
  exact fun hc => (ha _ hc).closing rfl ht

-- A piece adds its token and nothing else if that token may stand there.
theorem step_of_names (h : p.Names t) (ha : ∀ a ∈ s.last?, a.Admits t)
    (hc : t = .closing → s.unclosed ≠ []) :
    ∃ s', s.step (.bare p) = .ok s' ∧ s'.tokens = .bare t :: s.tokens ∧
      s'.unclosed.length + closed [t] = s.unclosed.length + opened [t] := by
  cases h
  case opening =>
    refine ⟨s.opening (.before 0), rfl, ?_⟩
    rw [opening, imply_of_admits ha rfl]
    exact ⟨rfl, rfl⟩
  case closing =>
    obtain ⟨place, outer, hu⟩ := List.exists_cons_of_ne_nil (hc rfl)
    refine ⟨{ s.push .closing (.before 0) with unclosed := outer }, ?_, rfl, ?_⟩
    · change s.closing (.before 0) = _
      rw [closing, hu]
    · rw [hu]
      rfl
  case operator o =>
    have hl : ¬s.last?.any Token.isOperator := by
      rw [Option.any_eq_true]
      rintro ⟨a, hl, ho⟩
      exact (ha a hl).operators ho rfl
    have hs : s.operator o (.before 0) = .ok (s.push (.operator o) (.before 0)) := if_neg hl
    refine ⟨s.push (.operator o) (.before 0), ?_, rfl, rfl⟩
    cases o <;> exact hs
  case number r x hx =>
    refine ⟨s.push (.number x) (.before 0), ?_, rfl, rfl⟩
    change s.number r (.before 0) = _
    rw [number, hx]
    exact congrArg (fun s : Scan => Except.ok (s.push (.number x) (.before 0)))
      (imply_of_admits ha rfl 0)

theorem foldlM_of_names (h : List.Forall₂ Piece.Names ps ts)
    (ha : (s.last?.toList ++ ts).IsChain Token.Admits)
    (hb : ∀ front, front <+: ts → closed front ≤ opened front + s.unclosed.length) :
    ∃ s', (ps.map .bare).foldlM step s = .ok s' ∧ s'.tokens = (ts.map .bare).reverse ++ s.tokens ∧
      s'.unclosed.length + closed ts = s.unclosed.length + opened ts := by
  induction h generalizing s
  case nil => exact ⟨s, rfl, rfl, rfl⟩
  case cons p t ps ts hp _ ih =>
    have hat (a) (hl : a ∈ s.last?) : a.Admits t := by
      rw [hl] at ha
      exact List.rel_of_isChain_cons_cons ha
    have hct : t = .closing → s.unclosed ≠ [] := by
      rintro rfl hu
      have := hb [.closing] ⟨ts, rfl⟩
      rw [hu] at this
      exact absurd this (by decide)
    obtain ⟨s₁, hs, ht, hu⟩ := step_of_names hp hat hct
    have hl : s₁.last? = some t := last?_of_tokens ht
    have ha : (s₁.last?.toList ++ ts).IsChain Token.Admits :=
      hl ▸ (List.isChain_append.mp ha).right.left
    have hb (front) (hf : front <+: ts) : closed front ≤ opened front + s₁.unclosed.length := by
      have := hb (t :: front) (List.cons_prefix_cons.mpr ⟨rfl, hf⟩)
      simp only [opened_cons, closed_cons, opened_nil, closed_nil] at this hu
      omega
    obtain ⟨s', hs', ht', hu'⟩ := ih ha hb
    refine ⟨s', ?_, ?_, ?_⟩
    · rw [List.map_cons, List.foldlM_cons, hs]
      exact hs'
    · simp [ht', ht]
    · simp only [opened_cons, closed_cons, opened_nil, closed_nil] at *
      omega

end Scan

theorem AreSpelled.unplaced_tokenize {ts : List Token} {s : List Char} (h : AreSpelled ts s)
    (hw : WellFormed ts) : unplaced (tokenize s) = .ok ts := by
  have hn := h.names hw.adjacent hw.values
  have ⟨s', hf, ht, hu⟩ := Scan.foldlM_of_names (s := {}) hn hw.adjacent hw.balanced.prefixes
  have hu : s'.unclosed = [] := by
    have := hw.balanced.total
    apply List.length_eq_zero_iff.mp
    simp only [List.length_nil] at hu
    omega
  have hb : Spanned.value ∘ Spanned.bare = (id : Token → Token) := rfl
  have he : tokenizePieces ((ofText s).map .bare) = .ok (ts.map .bare) := by
    rw [tokenizePieces, hf]
    change s'.finish = _
    simp [Scan.finish, hu, ht]
  rw [Abacus.unplaced_tokenize, he]
  simp [unplaced, Except.map, Except.mapError, hb]

theorem Token.exists_isSpelled (t : Token) (h : ∀ x, t = .number x → x.isFinite) :
    ∃ r, t.IsSpelled r := by
  cases t
  case operator o => exact ⟨_, .operator o⟩
  case opening => exact ⟨_, .opening⟩
  case closing => exact ⟨_, .closing⟩
  case number x =>
    have ⟨r, hr, hd⟩ := Decimal.exists_denotes (h x rfl)
    exact ⟨r, .number hr hd⟩

theorem exists_areSpelled {ts : List Token} (h : ∀ x, .number x ∈ ts → x.isFinite) :
    ∃ s, AreSpelled ts s := by
  induction ts
  case nil => exact ⟨[], .nil⟩
  case cons t ts ih =>
    have ⟨r, hr⟩ := t.exists_isSpelled fun x e => h x (e ▸ List.mem_cons_self)
    have ⟨s, hs⟩ := ih fun x hx => h x (List.mem_cons_of_mem t hx)
    exact ⟨r ++ s, .cons hr hs⟩

-- The well-formed token lists are the ones that texts have. Any text that spells such a list, and
-- there is one, has the tokens of the list.
theorem wellFormed_iff_exists_tokenize (ts : List Token) :
    ((∃ source tokens, tokenize source = .ok tokens ∧ tokens.map (·.value) = ts) ↔
      WellFormed ts) ∧
    (WellFormed ts → (∃ s, AreSpelled ts s) ∧
      ∀ s, AreSpelled ts s → ∃ tokens, tokenize s = .ok tokens ∧ tokens.map (·.value) = ts) := by
  have hs (hw : WellFormed ts) : ∃ s, AreSpelled ts s :=
    exists_areSpelled fun x hx => (hw.values x hx).left
  have ht (hw : WellFormed ts) (s) (h : AreSpelled ts s) :
      ∃ tokens, tokenize s = .ok tokens ∧ tokens.map (·.value) = ts :=
    unplaced_tokenize_eq_ok_iff.mp (h.unplaced_tokenize hw)
  refine ⟨⟨?mp, ?mpr⟩, fun hw => ⟨hs hw, ht hw⟩⟩
  case mp =>
    rintro ⟨source, tokens, h, rfl⟩
    have ⟨φ, _, hp, hv⟩ := exists_phrase h
    exact hv ▸ Phrase.wellFormed_tokens hp
  case mpr =>
    intro hw
    have ⟨s, h⟩ := hs hw
    exact ⟨s, ht hw s h⟩

theorem wellFormed_juxtaposed :
    let ts : List Token := [.opening, .number 2.0, .closing, .operator .times, .number 3.0]
    WellFormed ts ∧ (∃ s, AreSpelled ts s) ∧
      ∀ s, AreSpelled ts s → ∃ tokens, tokenize s = .ok tokens ∧ tokens.map (·.value) = ts := by
  intro ts
  let tokens : List (Spanned Token) :=
    [⟨.opening, 0, 1⟩, ⟨.number 2.0, 1, 2⟩, ⟨.closing, 2, 3⟩, ⟨.operator .times, 3, 3⟩,
      ⟨.number 3.0, 3, 4⟩]
  have h : tokenize "(2)3".toList = .ok tokens := by decide +kernel
  have hw : WellFormed ts := (wellFormed_iff_exists_tokenize ts).left.mp ⟨_, tokens, h, rfl⟩
  exact ⟨hw, (wellFormed_iff_exists_tokenize ts).right hw⟩

end Abacus
