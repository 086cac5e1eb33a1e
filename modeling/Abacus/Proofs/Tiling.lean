import Abacus.Proofs.Runs
import Mathlib.Data.List.Chain

namespace Abacus

open Piece

-- The token that a piece stands for.
inductive Piece.Names : Piece → Token → Prop
  | opening : Names (mark '(') .opening
  | closing : Names (mark ')') .closing
  | operator (o : Operator) : Names (mark o.char) (.operator o)
  | number {r : List Char} {x : Float} :
    Decimal.doubleOfLiteral? r = some x → Names (run r) (.number x)

-- Whether a literal or a group starts with the character.
def startsOperand (c : Char) : Bool :=
  c = '(' || Unicode.isNumeric c

def Token.startsOperand : Token → Bool
  | .opening => true
  | .number _ => true
  | _ => false

def Piece.startsOperand : Piece → Bool
  | run _ => true
  | mark c => c = '('

-- The tokens of the pieces behind the token `last`, in reading order.
inductive Laid : Option Token → List (Spanned Piece) → List (Spanned Token) → Prop
  | nil {last : Option Token} : Laid last [] []
  | cons {last : Option Token} {p : Spanned Piece} {t : Token} {ps : List (Spanned Piece)}
    {ts : List (Spanned Token)} :
    p.value.Names t → ¬(last = some .closing ∧ t.startsOperand) → Laid (some t) ps ts →
    Laid last (p :: ps) (⟨t, p.span⟩ :: ts)
  | implied {p : Spanned Piece} {t : Token} {ps : List (Spanned Piece)}
    {ts : List (Spanned Token)} :
    p.value.Names t → t.startsOperand → Laid (some t) ps ts →
    Laid (some .closing) (p :: ps)
      (⟨.operator .times, .before p.span.start⟩ :: ⟨t, p.span⟩ :: ts)

-- The text `t` between `a` and `b` is that of the token.
def Token.IsWritten (a t b : List Char) : Token → Prop
  | .operator o => t = [o.char]
  | .opening => t = ['(']
  | .closing => t = [')']
  | .number x => IsRun a t b ∧ Decimal.doubleOfLiteral? t = some x

-- Right behind a closing bracket, an operand starts at `p`.
def IsJuxtaposed (source : List Char) (p : Nat) : Prop :=
  ∃ a c b, source = a ++ ')' :: c :: b ∧ p = a.length + 1 ∧ startsOperand c

-- The token between `front` and `back` is the `*` that the brackets around it imply.
structure IsImplied (front : List (Spanned Token)) (t : Spanned Token)
    (back : List (Spanned Token)) : Prop where
  times  : t.value = .operator .times
  front  : ∃ c ∈ front.getLast?, c.value = .closing ∧ t.span = .before c.span.stop
  behind : ∃ c ∈ back.head?, c.value.startsOperand ∧ t.span = .before c.span.start

structure Tiling (source : List Char) (tokens : List (Spanned Token)) : Prop where
  tiles   : Tiles 0 source.length ((tokens.filter (¬·.span.IsEmpty)).map (·.span))
  written : ∀ t ∈ tokens, ¬t.span.IsEmpty →
    ∃ a r b, t.span.Holds source a r b ∧ t.value.IsWritten a r b
  implied : ∀ front t back, tokens = front ++ t :: back →
    (t.span.IsEmpty ↔ IsImplied front t back)
  stars   : ∀ p, ⟨.operator .times, .before p⟩ ∈ tokens ↔ IsJuxtaposed source p
  nodup   : (tokens.map (·.span)).Nodup

namespace Piece.Names

variable {p : Piece} {t : Token} {c : Char}

theorem mem_marks (h : Names (mark c) t) : c ∈ marks := by
  cases h
  case opening => decide
  case closing => decide
  case operator o => exact o.char_mem_marks

theorem startsOperand_eq (h : p.Names t) : p.startsOperand = t.startsOperand := by
  cases h
  case operator o => cases o <;> rfl
  all_goals rfl

theorem eq_closing_iff (h : p.Names t) : p = mark ')' ↔ t = .closing := by
  cases h
  case operator o => cases o <;> simp [Operator.char]
  all_goals simp

theorem isWritten {a b : List Char} (h : p.Names t) (hr : ∀ r, p = run r → IsRun a r b) :
    t.IsWritten a p.text b := by
  cases h
  case number r x hx => exact ⟨hr r rfl, hx⟩
  all_goals rfl

end Piece.Names

namespace Scan

variable {s s' : Scan} {p : Spanned Piece} {ps : List (Spanned Piece)} {r : List Char} {c : Char}
  {place : Span}

theorem last?_of_tokens {t : Token} {place : Span} {ts : List (Spanned Token)}
    (h : s.tokens = ⟨t, place⟩ :: ts) : s.last? = some t := by
  rw [last?, h]
  rfl

-- What is in front of the token that a piece adds.
def behind (s : Scan) (t : Token) (p : Nat) : Scan :=
  if t.startsOperand then s.imply p else s

theorem number_ok (h : s.number r place = .ok s') :
    ∃ t, Piece.Names (.run r) t ∧ s'.tokens = ⟨t, place⟩ :: (s.behind t place.start).tokens := by
  unfold number at h
  split at h <;> cases h
  case h_1 x hx => exact ⟨_, .number hx, rfl⟩

theorem mark_ok (h : s.mark c place = .ok s') :
    ∃ t, Piece.Names (.mark c) t ∧ s'.tokens = ⟨t, place⟩ :: (s.behind t place.start).tokens := by
  unfold Scan.mark at h
  split at h
  case h_1 =>
    cases h
    exact ⟨_, .opening, rfl⟩
  case h_2 =>
    unfold closing at h
    split at h <;> cases h
    exact ⟨_, .closing, rfl⟩
  case h_3 =>
    split at h
    case h_1 o ho =>
      unfold operator at h
      split at h <;> cases h
      exact ⟨_, Operator.char_of_ofChar? ho ▸ .operator o, rfl⟩
    case h_2 => cases h

theorem step_ok (h : s.step p = .ok s') :
    ∃ t, p.value.Names t ∧ s'.tokens = ⟨t, p.span⟩ :: (s.behind t p.span.start).tokens := by
  have ⟨piece, place⟩ := p
  cases piece
  case run r => exact number_ok h
  case mark c => exact mark_ok h

theorem laid_of_foldlM (h : ps.foldlM step s = .ok s') :
    ∃ ts, Laid s.last? ps ts ∧ s'.tokens = ts.reverse ++ s.tokens := by
  induction ps generalizing s
  case nil =>
    cases h
    exact ⟨[], .nil, rfl⟩
  case cons p ps ih =>
    rw [List.foldlM_cons] at h
    cases hs : s.step p
    case error e =>
      rw [hs] at h
      cases h
    case ok s₁ =>
      rw [hs] at h
      obtain ⟨t, hp, ht⟩ := step_ok hs
      obtain ⟨ts, hl, he⟩ := ih h
      rw [last?_of_tokens ht] at hl
      rw [ht] at he
      by_cases hi : s.last? = some .closing ∧ t.startsOperand
      case pos =>
        have hb : s.behind t p.span.start = s.push (.operator .times) (.before p.span.start) := by
          rw [behind, if_pos hi.right, imply, if_pos hi.left]
        refine ⟨_, hi.left ▸ Laid.implied hp hi.right hl, ?_⟩
        simp [he, hb, push]
      case neg =>
        have hb : s.behind t p.span.start = s := by
          rw [behind, imply]
          split_ifs with ho hc
          · exact absurd ⟨hc, ho⟩ hi
          · rfl
          · rfl
        exact ⟨_, .cons hp hi hl, by simp [he, hb]⟩

end Scan

theorem laid_of_tokenize {source : List Char} {tokens : List (Spanned Token)}
    (h : tokenize source = .ok tokens) : Laid none (pieces 0 source) tokens := by
  unfold tokenize at h
  split at h
  case h_2 => cases h
  case h_1 s hs =>
    rw [Scan.run_eq_foldlM] at hs
    obtain ⟨ts, hl, he⟩ := Scan.laid_of_foldlM hs
    have ht : s.tokens.reverse = ts := by simp [he]
    unfold Scan.finish at h
    split at h <;> cases h
    exact ht ▸ hl

-- The second place is somewhere behind the first.
structure Span.Precedes (s t : Span) : Prop where
  order   : t.start ≤ t.stop
  apart   : s.stop ≤ t.start
  advance : s.start < t.stop

-- The second token is right behind the first.
structure Spanned.Touches (t u : Spanned Token) : Prop extends t.span.Precedes u.span where
  meet   : t.span.stop = u.span.start
  front  : t.span.IsEmpty → u.value.startsOperand
  behind : u.span.IsEmpty → t.value = .closing ∧ u.value = .operator .times

instance : Trans Span.Precedes Span.Precedes Span.Precedes where
  trans {s t u} hst htu := by
    have ⟨_, _, _⟩ := hst
    have ⟨_, _, _⟩ := htu
    constructor <;> omega

namespace Laid

variable {last : Option Token} {ps : List (Spanned Piece)} {ts : List (Spanned Token)} {n m : Nat}

theorem places (h : Laid last ps ts) (hp : ∀ p ∈ ps, ¬p.span.IsEmpty) :
    (ts.filter (¬·.span.IsEmpty)).map (·.span) = ps.map (·.span) := by
  induction h
  case nil => rfl
  case cons ih =>
    rw [List.forall_mem_cons] at hp
    simpa [hp.left] using ih hp.right
  case implied ih =>
    rw [List.forall_mem_cons] at hp
    simpa [hp.left, Span.before_isEmpty] using ih hp.right

theorem exists_names {p : Spanned Piece} (h : Laid last ps ts) (hp : p ∈ ps) :
    ∃ t, p.value.Names t := by
  induction h
  case nil => simp at hp
  case cons hn _ _ ih | implied hn _ _ ih =>
    cases List.mem_cons.mp hp
    case inl e => exact ⟨_, e ▸ hn⟩
    case inr hp => exact ih hp

theorem exists_piece {t : Spanned Token} (h : Laid last ps ts) (ht : t ∈ ts)
    (he : ¬t.span.IsEmpty) : ∃ p ∈ ps, p.value.Names t.value ∧ t.span = p.span := by
  induction h
  case nil => simp at ht
  case cons p _ _ _ hn _ _ ih =>
    cases List.mem_cons.mp ht
    case inl e => exact ⟨p, List.mem_cons_self, e ▸ hn, e ▸ rfl⟩
    case inr ht =>
      have ⟨q, hq, h⟩ := ih ht
      exact ⟨q, List.mem_cons_of_mem p hq, h⟩
  case implied p _ _ _ hn _ _ ih =>
    cases List.mem_cons.mp ht
    case inl e => exact absurd (e ▸ Span.before_isEmpty _) he
    case inr ht =>
      cases List.mem_cons.mp ht
      case inl e => exact ⟨p, List.mem_cons_self, e ▸ hn, e ▸ rfl⟩
      case inr ht =>
        have ⟨q, hq, h⟩ := ih ht
        exact ⟨q, List.mem_cons_of_mem p hq, h⟩

theorem isChain_cons {t : Spanned Token} (h : Laid (some t.value) ps ts)
    (hp : Tiles n m (ps.map (·.span))) (hs : t.span.stop = n) (ht : t.span.start < n) :
    (t :: ts).IsChain Spanned.Touches := by
  have he : ¬t.span.IsEmpty := Nat.ne_of_lt (hs ▸ ht)
  generalize hl : some t.value = last at h
  induction h generalizing t n
  case nil => exact .singleton t
  case cons p u ps ts _ _ _ ih =>
    rw [List.map_cons] at hp
    generalize p.span = place at hp ⊢
    cases hp
    case cons k hlt hp =>
      have hu : ¬(⟨n, k⟩ : Span).IsEmpty := Nat.ne_of_lt hlt
      have hc := ih (t := ⟨u, n, k⟩) hp rfl hlt hu rfl
      refine .cons_cons ⟨⟨?_, ?_, ?_⟩, hs, fun h => absurd h he, fun h => absurd h hu⟩ hc
      all_goals dsimp only
      all_goals omega
  case implied p u ps ts _ ho _ ih =>
    rw [List.map_cons] at hp
    generalize p.span = place at hp ⊢
    cases hp
    case cons k hlt hp =>
      have hu : ¬(⟨n, k⟩ : Span).IsEmpty := Nat.ne_of_lt hlt
      have hv := Option.some.inj hl
      have hc := ih (t := ⟨u, n, k⟩) hp rfl hlt hu rfl
      have hi : Spanned.Touches ⟨.operator .times, .before n⟩ ⟨u, n, k⟩ :=
        ⟨⟨hlt.le, le_rfl, hlt⟩, rfl, fun _ => ho, fun h => absurd h hu⟩
      exact .cons_cons ⟨⟨le_rfl, hs.le, ht⟩, hs, fun h => absurd h he, fun _ => ⟨hv, rfl⟩⟩
        (.cons_cons hi hc)

theorem isChain (h : Laid none ps ts) (hp : Tiles n m (ps.map (·.span))) :
    ts.IsChain Spanned.Touches := by
  cases h
  case nil => exact .nil
  case cons p t _ _ _ h _ =>
    rw [List.map_cons] at hp
    generalize p.span = place at hp ⊢
    cases hp
    case cons k hlt hp => exact h.isChain_cons (t := ⟨t, n, k⟩) hp rfl hlt

theorem not_isEmpty_head? (h : Laid none ps ts) (hp : ∀ p ∈ ps, ¬p.span.IsEmpty) :
    ∀ t ∈ ts.head?, ¬t.span.IsEmpty := by
  intro t ht
  cases h
  case nil => simp at ht
  case cons p _ _ _ _ _ _ =>
    cases ht
    exact hp p List.mem_cons_self

theorem not_isEmpty_getLast? (h : Laid last ps ts) (hp : ∀ p ∈ ps, ¬p.span.IsEmpty) :
    ∀ t ∈ ts.getLast?, ¬t.span.IsEmpty := by
  intro t ht
  induction h
  case nil => simp at ht
  case cons p u ps ts _ _ _ ih | implied p u ps ts _ _ _ ih =>
    rw [List.forall_mem_cons] at hp
    cases ts
    case nil =>
      cases ht
      exact hp.left
    case cons => exact ih hp.right (by simpa using ht)

end Laid

-- Among the pieces behind the token `last`, an operand starts at `n` right behind a closing
-- bracket.
def JoinsAt (n : Nat) (last : Option Token) (ps : List (Spanned Piece)) : Prop :=
  ∃ p : Spanned Piece, p.span.start = n ∧ p.value.startsOperand ∧
    (last = some .closing ∧ p ∈ ps.head? ∨
      ∃ c : Spanned Piece, c.value = mark ')' ∧ [c, p] <:+: ps)

theorem pair_infix_cons_iff {α : Type} {a b c : α} {l : List α} :
    [a, b] <:+: c :: l ↔ a = c ∧ b ∈ l.head? ∨ [a, b] <:+: l := by
  rw [List.infix_cons_iff, List.cons_prefix_cons]
  cases l <;> simp [List.cons_prefix_cons, @eq_comm _ b]

theorem joinsAt_cons_iff {n : Nat} {last : Option Token} {p : Spanned Piece} {t : Token}
    {ps : List (Spanned Piece)} (hn : p.value.Names t) :
    JoinsAt n last (p :: ps) ↔
      last = some .closing ∧ p.span.start = n ∧ t.startsOperand ∨ JoinsAt n (some t) ps := by
  have hc := hn.eq_closing_iff
  have hs := hn.startsOperand_eq
  simp only [JoinsAt, pair_infix_cons_iff, List.head?_cons]
  constructor
  case mp =>
    rintro ⟨q, hq, ho, ⟨hl, e⟩ | ⟨c, hv, ⟨rfl, hh⟩ | hi⟩⟩
    · cases e
      exact .inl ⟨hl, hq, hs ▸ ho⟩
    · exact .inr ⟨q, hq, ho, .inl ⟨congrArg some (hc.mp hv), hh⟩⟩
    · exact .inr ⟨q, hq, ho, .inr ⟨c, hv, hi⟩⟩
  case mpr =>
    rintro (⟨hl, hq, ho⟩ | ⟨q, hq, ho, ⟨hl, hh⟩ | ⟨c, hv, hi⟩⟩)
    · exact ⟨p, hq, hs ▸ ho, .inl ⟨hl, rfl⟩⟩
    · exact ⟨q, hq, ho, .inr ⟨p, hc.mpr (Option.some.inj hl), .inl ⟨rfl, hh⟩⟩⟩
    · exact ⟨q, hq, ho, .inr ⟨c, hv, .inr hi⟩⟩

theorem Laid.mem_star_iff {last : Option Token} {ps : List (Spanned Piece)}
    {ts : List (Spanned Token)} (h : Laid last ps ts) (hp : ∀ p ∈ ps, ¬p.span.IsEmpty) (n : Nat) :
    ⟨.operator .times, .before n⟩ ∈ ts ↔ JoinsAt n last ps := by
  have hne {p : Spanned Piece} (hp : ¬p.span.IsEmpty) (t : Token) :
      (⟨.operator .times, .before n⟩ : Spanned Token) ≠ ⟨t, p.span⟩ := by
    intro e
    rw [← congrArg Spanned.span e] at hp
    exact hp (Span.before_isEmpty n)
  induction h
  case nil => simp [JoinsAt]
  case cons hn ho _ ih =>
    rw [List.forall_mem_cons] at hp
    simp only [List.mem_cons, hne hp.left, ih hp.right, joinsAt_cons_iff hn]
    simp_all
  case implied hn ho _ ih =>
    rw [List.forall_mem_cons] at hp
    simp only [List.mem_cons, hne hp.left, ih hp.right, joinsAt_cons_iff hn]
    simp [ho, Span.before, eq_comm]

theorem Piece.exists_text_of_startsOperand {p : Piece} {source : List Char} (h : p ∈ ofText source)
    (ho : p.startsOperand) : ∃ c s, p.text = c :: s ∧ Abacus.startsOperand c := by
  cases p
  case mark c => exact ⟨c, [], rfl, by simp_all [startsOperand, Abacus.startsOperand]⟩
  case run r =>
    have ⟨⟨c, hc, hn⟩, _⟩ := numeric_of_ofText h
    have ⟨s, hs⟩ := List.head?_eq_some_iff.mp hc
    exact ⟨c, s, hs, by simp [Abacus.startsOperand, hn]⟩

theorem Piece.exists_ofText_cons (c : Char) (s : List Char) :
    ∃ p ps, ofText (c :: s) = p :: ps ∧ p.startsOperand = Abacus.startsOperand c := by
  cases hc : Unicode.isNumeric c
  case true => exact ⟨_, _, ofText_run hc s, by simp [startsOperand, Abacus.startsOperand, hc]⟩
  case false => exact ⟨_, _, ofText_mark hc s, by simp [startsOperand, Abacus.startsOperand, hc]⟩

theorem joinsAt_pieces_iff (source : List Char) (n : Nat) :
    JoinsAt n none (pieces 0 source) ↔ IsJuxtaposed source n where
  mp h := by
    obtain ⟨p, hn, ho, h⟩ := h
    obtain ⟨c, hc, front, back, e⟩ := h.resolve_left (by simp)
    have hv : ofText source =
        (front.map (·.value) ++ [mark ')']) ++ p.value :: back.map (·.value) := by
      simp [ofText, ← e, hc]
    have hp : pieces 0 source = (front ++ [c]) ++ p :: back := by simp [← e]
    have hm : p.value ∈ ofText source := by simp [hv]
    obtain ⟨d, s, hd, hdo⟩ := exists_text_of_startsOperand hm ho
    have hs := source_of_ofText hv
    have ht := (span_of_pieces hp).left
    rw [hd] at hs
    refine ⟨texts (front.map (·.value)), d, s ++ texts (back.map (·.value)), ?_, ?_, hdo⟩
    · simpa [texts, text] using hs
    · simpa [← hn, texts, text, hc] using ht
  mpr h := by
    obtain ⟨a, c, b, e, hn, hc⟩ := h
    obtain ⟨p, ps, hp, ho⟩ := exists_ofText_cons c b
    have hv := ofText_append_cons (c := ')') (by decide +kernel) a (c :: b)
    rw [← e, hp, ofText] at hv
    obtain ⟨front, l, e', hf, hl⟩ := List.map_eq_append_iff.mp hv
    obtain ⟨q, l, hl', hq, hl⟩ := List.map_eq_cons_iff.mp hl
    obtain ⟨p', back, hl'', hp', _⟩ := List.map_eq_cons_iff.mp hl
    subst hl' hl''
    have hs : pieces 0 source = (front ++ [q]) ++ p' :: back := by simp [e']
    have ht := (span_of_pieces hs).left
    have hf : texts (front.map (·.value)) = a := by rw [hf, texts_ofText]
    refine ⟨p', ?_, hp' ▸ ho.trans hc, .inr ⟨q, hq, front, back, by simp [e']⟩⟩
    simpa [texts, text, hq, hn, ← hf] using ht

namespace Laid

variable {source : List Char} {tokens : List (Spanned Token)} {ps : List (Spanned Piece)}
  {ts : List (Spanned Token)} {n m : Nat}

theorem written (h : Laid none (pieces 0 source) tokens) {t : Spanned Token} (ht : t ∈ tokens)
    (he : ¬t.span.IsEmpty) : ∃ a r b, t.span.Holds source a r b ∧ t.value.IsWritten a r b := by
  obtain ⟨p, hp, hn, hs⟩ := h.exists_piece ht he
  obtain ⟨front, back, e, hh⟩ := exists_holds hp
  refine ⟨_, _, _, hs ▸ hh, hn.isWritten fun r hr => isRun_of_ofText (hr ▸ e) fun c hc => ?_⟩
  have hm : mark c ∈ ofText source := e ▸ List.mem_append_left _ hc
  obtain ⟨q, hq, hqc⟩ := List.mem_map.mp hm
  obtain ⟨t, ht⟩ := h.exists_names hq
  exact not_continuesRun_of_mem_marks (hqc ▸ ht).mem_marks

theorem isImplied (h : Laid none (pieces 0 source) tokens) {front back : List (Spanned Token)}
    {t : Spanned Token} (e : tokens = front ++ t :: back) (he : t.span.IsEmpty) :
    IsImplied front t back := by
  have hp (p) (hp : p ∈ pieces 0 source) := not_isEmpty_of_mem_pieces hp
  have hc := h.isChain (tiles_pieces 0 source)
  rw [e, List.isChain_append, List.isChain_cons] at hc
  obtain ⟨_, ⟨hback, _⟩, hfront⟩ := hc
  cases hf : front.getLast?
  case none =>
    have hn := List.getLast?_eq_none_iff.mp hf
    exact absurd he (h.not_isEmpty_head? hp t (by simp [e, hn]))
  case some u =>
    cases hb : back.head?
    case none =>
      have hn := List.head?_eq_none_iff.mp hb
      exact absurd he (h.not_isEmpty_getLast? hp t (by simp [e, hn]))
    case some v =>
      have hu := hfront u hf t rfl
      have hv := hback v hb
      have hs : t.span = .before t.span.start := Span.ext rfl (Eq.symm he)
      obtain ⟨hc, ht⟩ := hu.behind he
      have he' : t.span.start = v.span.start := Eq.trans he hv.meet
      exact ⟨ht, ⟨u, hf, hc, hu.meet ▸ hs⟩, ⟨v, hb, hv.front he, he' ▸ hs⟩⟩

theorem exists_isJuxtaposed (h : Laid none (pieces 0 source) tokens) {t : Spanned Token}
    (ht : t ∈ tokens) (he : t.span.IsEmpty) : ∃ n, IsJuxtaposed source n := by
  have hp (p) (hp : p ∈ pieces 0 source) := not_isEmpty_of_mem_pieces hp
  have ⟨front, back, e⟩ := List.append_of_mem ht
  have hi := h.isImplied e he
  have ⟨c, _, _, hs⟩ := hi.front
  have hstar : t = ⟨.operator .times, .before c.span.stop⟩ := Spanned.ext hi.times hs
  exact ⟨_, (joinsAt_pieces_iff source _).mp ((h.mem_star_iff hp _).mp (hstar ▸ ht))⟩

theorem nodup (h : Laid none ps ts) (hp : Tiles n m (ps.map (·.span))) :
    (ts.map (·.span)).Nodup := by
  have hc : (ts.map (·.span)).IsChain Span.Precedes :=
    (List.isChain_map _).mpr ((h.isChain hp).imp fun _ _ h => h.toPrecedes)
  refine hc.pairwise.imp fun {s t} hst e => ?_
  subst e
  exact absurd hst.advance (Nat.not_lt.mpr hst.apart)

end Laid

theorem IsImplied.isEmpty {front back : List (Spanned Token)} {t : Spanned Token}
    (h : IsImplied front t back) : t.span.IsEmpty := by
  have ⟨c, _, _, hs⟩ := h.front
  exact hs ▸ Span.before_isEmpty _

-- The tokens of a text, the implied ones among them, stand in it without a gap.
theorem tiling_of_tokenize {source : List Char} {tokens : List (Spanned Token)}
    (h : tokenize source = .ok tokens) : Tiling source tokens := by
  have hl := laid_of_tokenize h
  have hp (p) (hp : p ∈ pieces 0 source) := not_isEmpty_of_mem_pieces hp
  have ht := tiles_pieces 0 source
  constructor
  case tiles =>
    rw [hl.places hp, ← Nat.zero_add source.length]
    exact ht
  case written => exact fun t => hl.written
  case implied => exact fun front t back e => ⟨hl.isImplied e, fun hi => hi.isEmpty⟩
  case stars => exact fun n => (hl.mem_star_iff hp n).trans (joinsAt_pieces_iff source n)
  case nodup => exact hl.nodup ht

theorem tiling_juxtaposed : ∃ tokens, tokenize "(2)3".toList = .ok tokens ∧
    Tiling "(2)3".toList tokens := by
  let tokens : List (Spanned Token) :=
    [⟨.opening, 0, 1⟩, ⟨.number 2.0, 1, 2⟩, ⟨.closing, 2, 3⟩, ⟨.operator .times, 3, 3⟩,
      ⟨.number 3.0, 3, 4⟩]
  have h : tokenize "(2)3".toList = .ok tokens := by decide +kernel
  exact ⟨tokens, h, tiling_of_tokenize h⟩

end Abacus
