import Abacus.Proofs.Reading

namespace Abacus

-- A numeric run that has a value.
structure Literal where
  text    : List Char
  value   : Float
  numeric : text.head?.any Unicode.isNumeric
  reads   : Decimal.doubleOfLiteral? text = some value

-- What one bracket level holds, with a phrase for the inside of each group.
inductive Phrase where
  | nil
  | operator (o : Operator) (rest : Phrase)
  | literal (l : Literal) (rest : Phrase)
  | group (inner rest : Phrase)

-- The `*` that a closing bracket implies when an operand follows it.
def implied (last : Option Token) : List Operator :=
  if last = some .closing then [.times] else []

namespace Phrase

def text : Phrase → List Char
  | nil => []
  | operator o rest => o.char :: rest.text
  | literal l rest => l.text ++ rest.text
  | group inner rest => '(' :: inner.text ++ ')' :: rest.text

-- How many groups of it are open at once.
def depth : Phrase → Nat
  | nil => 0
  | operator _ rest => rest.depth
  | literal _ rest => rest.depth
  | group inner rest => max (inner.depth + 1) rest.depth

-- The tokens of a phrase behind the token `last`.
def tokens (last : Option Token) : Phrase → List Token
  | nil => []
  | operator o rest => .operator o :: rest.tokens (some (.operator o))
  | literal l rest =>
    (implied last).map .operator ++ .number l.value :: rest.tokens (some (.number l.value))
  | group inner rest =>
    (implied last).map .operator ++ .opening :: inner.tokens (some .opening) ++
      .closing :: rest.tokens (some .closing)

-- As `tokens`, with their places in a text in which the phrase starts at `p`.
def placed (last : Option Token) (p : Nat) : Phrase → List (Spanned Token)
  | nil => []
  | operator o rest => ⟨.operator o, .single p⟩ :: rest.placed (some (.operator o)) (p + 1)
  | literal l rest =>
    (implied last).map (⟨.operator ·, .before p⟩) ++ ⟨.number l.value, p, p + l.text.length⟩ ::
      rest.placed (some (.number l.value)) (p + l.text.length)
  | group inner rest =>
    (implied last).map (⟨.operator ·, .before p⟩) ++
      ⟨.opening, .single p⟩ :: inner.placed (some .opening) (p + 1) ++
      ⟨.closing, .single (p + 1 + inner.text.length)⟩ ::
        rest.placed (some .closing) (p + 1 + inner.text.length + 1)

-- Behind the token `last`, no operator of the phrase is right behind another, and no literal is.
def Proper (last : Option Token) : Phrase → Prop
  | nil => True
  | operator o rest => (∀ o, last ≠ some (.operator o)) ∧ rest.Proper (some (.operator o))
  | literal l rest => (∀ x, last ≠ some (.number x)) ∧ rest.Proper (some (.number l.value))
  | group inner rest => inner.Proper (some .opening) ∧ rest.Proper (some .closing)

end Phrase

theorem Operator.char_mem_operators (o : Operator) : o.char ∈ operators :=
  mem_operators_iff.mpr ⟨o, o.ofChar?_char⟩

theorem Operator.char_mem_marks (o : Operator) : o.char ∈ marks :=
  mem_marks_iff.mpr (.inr (.inr o.char_mem_operators))

theorem Operator.char_ne (o : Operator) {c : Char} (h : c ∉ operators) : o.char ≠ c :=
  fun e => h (e ▸ o.char_mem_operators)

theorem Operator.char_injective (o : Operator) {o' : Operator} (h : o.char = o'.char) : o = o' := by
  have := congrArg ofChar? h
  simpa [ofChar?_char] using this

namespace Literal

theorem exists_cons (l : Literal) : ∃ c r, l.text = c :: r ∧ Unicode.isNumeric c := by
  have h := l.numeric
  match ht : l.text with
  | [] => simp [ht] at h
  | c :: r => exact ⟨c, r, rfl, by simpa [ht] using h⟩

theorem isReadable (l : Literal) : Decimal.IsReadable l.text := by
  have ⟨c, r, ht, hc⟩ := l.exists_cons
  have hm : c ∈ l.text := ht ▸ List.mem_cons_self
  have hr := Decimal.doubleOfLiteral?_isSome_iff ⟨c, hm, ne_point_of_isNumeric hc⟩
  exact hr.mp (l.reads ▸ rfl)

theorem continuesRun {l : Literal} {c : Char} (hc : c ∈ l.text) : continuesRun c := by
  simp only [Abacus.continuesRun, Bool.or_eq_true, decide_eq_true_eq]
  exact (l.isReadable.digits c hc).imp_left Unicode.isNumeric_of_isDigit

theorem exists_text {c : Char} {r : List Char} (hc : Unicode.isNumeric c)
    (hr : Decimal.IsReadable (c :: r)) : ∃ l : Literal, l.text = c :: r := by
  have hm : ∃ a ∈ c :: r, a ≠ '.' := ⟨c, List.mem_cons_self, ne_point_of_isNumeric hc⟩
  have ⟨x, hx⟩ := Option.isSome_iff_exists.mp ((Decimal.doubleOfLiteral?_isSome_iff hm).mpr hr)
  exact ⟨⟨c :: r, x, hc, hx⟩, rfl⟩

theorem ofText_append (l : Literal) {cs : List Char} (h : Stops cs) :
    Piece.ofText (l.text ++ cs) = .run l.text :: Piece.ofText cs := by
  have ⟨c, r, ht, hc⟩ := l.exists_cons
  have hr (a) (ha : a ∈ r) : Abacus.continuesRun a :=
    l.continuesRun (ht ▸ List.mem_cons_of_mem c ha)
  rw [ht, List.cons_append, Piece.ofText_run hc, takeWhile_append_stops hr h,
    dropWhile_append_stops hr h]

end Literal

namespace Scan

-- The second scan has read on from the first by the tokens `ts`, in which all brackets have
-- partners.
structure Extends (s : Scan) (ts : List (Spanned Token)) (s' : Scan) : Prop where
  tokens   : s'.tokens = ts.reverse ++ s.tokens
  unclosed : s'.unclosed = s.unclosed

variable {s s' s'' : Scan} {ts ts' : List (Spanned Token)} {c : Char} {cs r : List Char}
  {φ : Phrase}

theorem Extends.nil : s.Extends [] s where
  tokens   := rfl
  unclosed := rfl

theorem Extends.trans (h : s.Extends ts s') (h' : s'.Extends ts' s'') :
    s.Extends (ts ++ ts') s'' where
  tokens   := by simp [h'.tokens, h.tokens]
  unclosed := h'.unclosed.trans h.unclosed

theorem Extends.push (h : s.Extends ts s') (t : Token) (place : Span) :
    s.Extends (ts ++ [⟨t, place⟩]) (s'.push t place) where
  tokens   := by simp [Scan.push, h.tokens]
  unclosed := h.unclosed

theorem extends_imply (s : Scan) (p : Nat) :
    s.Extends ((implied s.last?).map (⟨.operator ·, .before p⟩)) (s.imply p) := by
  unfold implied imply
  split
  case isTrue => exact Extends.nil.push ..
  case isFalse => exact .nil

theorem run_mark (h : Unicode.isNumeric c = false) (p : Nat) (cs : List Char) :
    s.run p (c :: cs) =
      match s.mark c (.single p) with
      | .ok s => s.run (p + 1) cs
      | .error e => .error e := by
  rw [run, h]
  exact if_neg Bool.false_ne_true

theorem run_literal (s : Scan) (l : Literal) (h : Stops cs) (p : Nat) :
    s.run p (l.text ++ cs) =
      ((s.imply p).push (.number l.value) ⟨p, p + l.text.length⟩).run (p + l.text.length) cs := by
  have ⟨c, r, ht, hc⟩ := l.exists_cons
  have hr (a) (ha : a ∈ r) : continuesRun a := l.continuesRun (ht ▸ List.mem_cons_of_mem c ha)
  have hn : s.number (c :: r) ⟨p, p + (c :: r).length⟩ =
      .ok ((s.imply p).push (.number l.value) ⟨p, p + (c :: r).length⟩) := by
    simp only [number, ← ht, l.reads]
  rw [ht, List.cons_append, run, if_pos hc, takeWhile_append_stops hr h,
    dropWhile_append_stops hr h]
  simp only [hn]

theorem run_operator (h : ∀ o, s.last? ≠ some (.operator o)) (o : Operator) (p : Nat)
    (cs : List Char) :
    s.run p (o.char :: cs) = (s.push (.operator o) (.single p)).run (p + 1) cs := by
  have hl : ¬s.last?.any Token.isOperator := by
    rw [Option.any_eq_true]
    rintro ⟨t, ht, hto⟩
    have ⟨o, e⟩ := Token.isOperator_iff.mp hto
    exact h o (e ▸ ht)
  have hm : s.mark o.char (.single p) = .ok (s.push (.operator o) (.single p)) := by
    have ho : s.operator o (.single p) = .ok (s.push (.operator o) (.single p)) := if_neg hl
    cases o <;> exact ho
  have hn := not_isNumeric_of_not_continuesRun (not_continuesRun_of_mem_marks o.char_mem_marks)
  rw [run_mark hn, hm]

theorem run_opening (s : Scan) (p : Nat) (cs : List Char) :
    s.run p ('(' :: cs) = (s.opening (.single p)).run (p + 1) cs := by
  rw [run_mark (by decide +kernel)]
  rfl

theorem run_closing {place : Span} {outer : List Span} (h : s.unclosed = place :: outer) (p : Nat)
    (cs : List Char) :
    s.run p (')' :: cs) =
      { s.push .closing (.single p) with unclosed := outer }.run (p + 1) cs := by
  have hc : s.mark ')' (.single p) =
      .ok { s.push .closing (.single p) with unclosed := outer } := by
    simp only [mark, closing, h]
  rw [run_mark (by decide +kernel), hc]

theorem Extends.group {place : Span} (h : (s.opening place).Extends ts s') (p : Nat)
    (cs : List Char) :
    ∃ s'', s.Extends ((implied s.last?).map (⟨.operator ·, .before place.start⟩) ++
        ⟨.opening, place⟩ :: ts ++ [⟨.closing, .single p⟩]) s'' ∧
      s''.last? = some .closing ∧ s'.run p (')' :: cs) = s''.run (p + 1) cs := by
  have hi := s.extends_imply place.start
  have hu : s'.unclosed = place :: s.unclosed := by
    rw [h.unclosed, ← hi.unclosed]
    rfl
  refine ⟨{ s'.push .closing (.single p) with unclosed := s.unclosed }, ⟨?tokens, rfl⟩, rfl, ?run⟩
  case tokens => simp [Scan.push, Scan.opening, h.tokens, hi.tokens]
  case run => exact run_closing hu p cs

end Scan

namespace Phrase

variable {φ ψ inner rest : Phrase} {last : Option Token} {s : Scan} {cs : List Char} {x : Float}

theorem proper_opening : φ.Proper (some .opening) ↔ φ.Proper none := by
  cases φ <;> simp [Proper]

theorem text_group : (group inner rest).text = ('(' :: inner.text ++ [')']) ++ rest.text := by
  simp [text]

theorem stops_of_mem_marks {c : Char} (h : c ∈ marks) (cs : List Char) : Stops (c :: cs) :=
  stops_cons (not_continuesRun_of_mem_marks h) cs

theorem stops_text (h : φ.Proper (some (.number x))) (hcs : Stops cs) : Stops (φ.text ++ cs) := by
  cases φ
  case nil => exact hcs
  case operator o rest => exact stops_of_mem_marks o.char_mem_marks _
  case literal => exact absurd rfl (h.left x)
  case group => exact stops_of_mem_marks (by decide) _

theorem map_value_placed (φ : Phrase) (last : Option Token) (p : Nat) :
    (φ.placed last p).map (·.value) = φ.tokens last := by
  induction φ generalizing last p <;> simp_all [placed, tokens]

theorem run_text (φ : Phrase) (h : φ.Proper s.last?) (hcs : Stops cs) (p : Nat) :
    ∃ s', s.Extends (φ.placed s.last? p) s' ∧
      s.run p (φ.text ++ cs) = s'.run (p + φ.text.length) cs := by
  induction φ generalizing s p cs
  case nil => exact ⟨s, .nil, rfl⟩
  case operator o rest ih =>
    have ⟨s', hs, hr⟩ := ih (s := s.push (.operator o) (.single p)) h.right hcs (p + 1)
    have he := (Scan.Extends.nil (s := s)).push (.operator o) (.single p)
    refine ⟨s', he.trans hs, (Scan.run_operator h.left ..).trans (hr.trans ?_)⟩
    rw [text, List.length_cons, Nat.add_assoc, Nat.add_comm 1]
  case literal l rest ih =>
    have ⟨s', hs, hr⟩ :=
      ih (s := (s.imply p).push (.number l.value) ⟨p, p + l.text.length⟩) h.right hcs
        (p + l.text.length)
    have he := (s.extends_imply p).push (.number l.value) ⟨p, p + l.text.length⟩
    refine ⟨s', ?_, ?_⟩
    · simpa [placed] using he.trans hs
    · rw [text, List.append_assoc, Scan.run_literal s l (stops_text h.right hcs), hr,
        List.length_append, Nat.add_assoc]
  case group inner rest ih ih' =>
    have hc : Stops (')' :: (rest.text ++ cs)) := stops_of_mem_marks (by decide) _
    have ⟨s₁, hi, hr⟩ := ih (s := s.opening (.single p)) h.left hc (p + 1)
    have ⟨s₂, hg, hl, hr₁⟩ := hi.group (p + 1 + inner.text.length) (rest.text ++ cs)
    have ⟨s', hs, hr'⟩ :=
      ih' (s := s₂) (hl ▸ h.right) hcs (p + 1 + inner.text.length + 1)
    refine ⟨s', ?_, ?_⟩
    · simpa [placed, hl, Span.single] using hg.trans hs
    · have ht : (group inner rest).text ++ cs =
          '(' :: (inner.text ++ ')' :: (rest.text ++ cs)) := by simp [text]
      have hl : p + (group inner rest).text.length =
          p + 1 + inner.text.length + 1 + rest.text.length := by
        simp only [text, List.cons_append, List.length_cons, List.length_append]
        omega
      rw [ht, Scan.run_opening, hr, hr₁, hr', hl]

theorem tokenize_eq_placed (h : φ.Proper none) :
    tokenize φ.text = .ok (φ.placed none 0) := by
  have ⟨s, hs, hr⟩ := φ.run_text (s := {}) h stops_nil 0
  have ht : s.tokens = (φ.placed none 0).reverse ++ [] := hs.tokens
  rw [List.append_nil, Scan.run] at hr
  simp only [tokenize, hr, Scan.finish, hs.unclosed, ht, List.append_nil, List.reverse_reverse]

theorem tokenize_text (h : φ.Proper none) :
    ∃ tokens, tokenize φ.text = .ok tokens ∧ tokens.map (·.value) = φ.tokens none :=
  ⟨_, tokenize_eq_placed h, φ.map_value_placed none 0⟩

end Phrase

namespace InLanguage

variable {source t m r : List Char} {p : Piece} {c : Char}

open Piece

theorem of_pieces (h : InLanguage source) (hi : t <:+: source) (hp : ofText t ⊆ ofText source)
    (hb : Balanced t) : InLanguage t where
  marks c hc := h.marks c (hp hc)
  runs r hr := h.runs r (hp hr)
  apart a b hab := h.apart a b (hab.trans hi)
  balanced := hb

theorem operator (h : InLanguage (c :: t)) (hc : c ∈ operators) : InLanguage t := by
  have hm := mem_marks_iff.mpr (.inr (.inr hc))
  have hn := not_isNumeric_of_not_continuesRun (not_continuesRun_of_mem_marks hm)
  have ⟨ho, hcl⟩ := neutral_of_mem_operators hc
  refine h.of_pieces (List.suffix_cons c t).isInfix ?_ ?_
  · rw [ofText_mark hn]
    exact List.subset_cons_self _ _
  · exact h.balanced.of_append_right (l := [c]) (.single ho hcl)

theorem literal (h : InLanguage (c :: t)) (hc : Unicode.isNumeric c) :
    Decimal.IsReadable (c :: t.takeWhile continuesRun) ∧ InLanguage (t.dropWhile continuesRun) := by
  have hp := ofText_run hc t
  have hr := h.runs (c :: t.takeWhile continuesRun) (hp ▸ List.mem_cons_self)
  have ht : c :: t.takeWhile continuesRun ++ t.dropWhile continuesRun = c :: t := by simp
  refine ⟨hr, h.of_pieces ?_ ?_ ?_⟩
  · exact ((List.dropWhile_suffix _).trans (List.suffix_cons c t)).isInfix
  · rw [hp]
    exact List.subset_cons_self _ _
  · exact (ht ▸ h.balanced).of_append_right hr.balanced

theorem group (h : InLanguage ('(' :: t)) :
    ∃ m r, t = m ++ ')' :: r ∧ InLanguage m ∧ InLanguage r := by
  have ⟨m, c, r, e, hc, hm, hr⟩ := h.balanced.exists_group rfl
  have hc : c = ')' := by simpa using hc
  subst e hc
  have hp : ofText ('(' :: (m ++ ')' :: r)) = mark '(' :: (ofText m ++ mark ')' :: ofText r) := by
    rw [ofText_mark (by decide +kernel), ofText_append_cons (by decide +kernel)]
  refine ⟨m, r, rfl, h.of_pieces ?_ ?_ hm, h.of_pieces ?_ ?_ hr⟩
  · exact ⟨['('], ')' :: r, by simp⟩
  · intro p hp'
    simp [hp, hp']
  · exact ⟨'(' :: m ++ [')'], [], by simp⟩
  · intro p hp'
    simp [hp, hp']

-- Every text of the language is the text of a phrase, behind any token that it may stand behind.
theorem exists_phrase (h : InLanguage source) (last : Option Token)
    (ho : ∀ o, last = some (.operator o) → ∀ c ∈ source.head?, c ∉ operators)
    (hx : ∀ x, last = some (.number x) → Stops source) :
    ∃ φ : Phrase, φ.text = source ∧ φ.Proper last := by
  induction hn : source.length using Nat.strong_induction_on generalizing source last
  case h n ih =>
    cases source
    case nil => exact ⟨.nil, rfl, trivial⟩
    case cons c t =>
      rw [List.length_cons] at hn
      by_cases hc : Unicode.isNumeric c
      case pos =>
        obtain ⟨hr, ht⟩ := h.literal hc
        obtain ⟨l, hl⟩ := Literal.exists_text hc hr
        have hlt : (t.dropWhile continuesRun).length < n := by
          have := (t.dropWhile_suffix continuesRun).length_le
          omega
        obtain ⟨φ, hφ, hpφ⟩ := ih _ hlt ht (some (.number l.value)) (by simp)
          (fun _ _ => stops_dropWhile t) rfl
        have hlast (x) (e : last = some (.number x)) : False := by
          have := hx x e c rfl
          simp [continuesRun, hc] at this
        exact ⟨.literal l φ, by simp [Phrase.text, hl, hφ], hlast, hpφ⟩
      case neg =>
        have hn' := Bool.not_eq_true _ ▸ hc
        have hm : c ∈ Abacus.marks := h.marks c (ofText_mark hn' t ▸ List.mem_cons_self)
        rcases mem_marks_iff.mp hm with rfl | rfl | hco
        case inl =>
          obtain ⟨m, r, e, hm, hr⟩ := h.group
          have hl := congrArg List.length e
          rw [List.length_append, List.length_cons] at hl
          obtain ⟨φ, hφ, hpφ⟩ :=
            ih m.length (by omega) hm (some .opening) (by simp) (by simp) rfl
          obtain ⟨ψ, hψ, hpψ⟩ :=
            ih r.length (by omega) hr (some .closing) (by simp) (by simp) rfl
          exact ⟨.group φ ψ, by simp [Phrase.text, hφ, hψ, e], hpφ, hpψ⟩
        case inr.inl => exact absurd h.balanced (Balanced.nil.not_append_closes rfl)
        case inr.inr =>
          obtain ⟨o, e⟩ := mem_operators_iff.mp hco
          have ha (a) (hat : a ∈ t.head?) : a ∉ operators := by
            obtain ⟨t', et⟩ := List.head?_eq_some_iff.mp hat
            exact h.apart c a ⟨[], t', by simp [et]⟩ hco
          obtain ⟨φ, hφ, hpφ⟩ := ih t.length (by omega) (h.operator hco) (some (.operator o))
            (fun _ _ => ha) (by simp) rfl
          refine ⟨.operator o φ, ?_, fun o e => ho o e c rfl hco, hpφ⟩
          rw [Phrase.text, Operator.char_of_ofChar? e, hφ]

end InLanguage

theorem exists_placed {source : List Char} {tokens : List (Spanned Token)}
    (h : tokenize source = .ok tokens) :
    ∃ φ : Phrase, φ.text = source ∧ φ.Proper none ∧ tokens = φ.placed none 0 := by
  have hj := judges_tokenize source
  rw [h] at hj
  have ⟨φ, ht, hp⟩ := InLanguage.exists_phrase hj none nofun nofun
  have h' := Phrase.tokenize_eq_placed hp
  rw [ht, h] at h'
  exact ⟨φ, ht, hp, Except.ok.inj h'⟩

theorem exists_phrase {source : List Char} {tokens : List (Spanned Token)}
    (h : tokenize source = .ok tokens) :
    ∃ φ : Phrase, φ.text = source ∧ φ.Proper none ∧ tokens.map (·.value) = φ.tokens none := by
  have ⟨φ, ht, hp, e⟩ := exists_placed h
  exact ⟨φ, ht, hp, e ▸ φ.map_value_placed none 0⟩

end Abacus
