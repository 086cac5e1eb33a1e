import Abacus.Fault
import Abacus.Proofs.Brackets
import Abacus.Proofs.Cuts
import Abacus.Proofs.Literal

namespace Abacus

def operators : List Char :=
  ['+', '-', '*', '/']

def marks : List Char :=
  '(' :: ')' :: operators

namespace Piece

def ofText (s : List Char) : List Piece :=
  (pieces 0 s).map (·.value)

def texts (ps : List Piece) : List Char :=
  ps.flatMap text

-- What is wrong with a piece that stands behind the text `before`.
inductive Breaks (before : List Char) : Piece → Fault → Prop
  | foreign {c : Char} : c ∉ marks → Breaks before (mark c) .foreignCharacter
  | unreadable {r : List Char} : ¬Decimal.IsReadable r → Breaks before (run r) .unreadableNumber
  | adjacent {b c : Char} :
    before.getLast? = some b → b ∈ operators → c ∈ operators →
    Breaks before (mark c) .missingOperand
  | unpaired :
    opened (before ++ [')']) < closed (before ++ [')']) →
    Breaks before (mark ')') .unpairedBracket

def Fits (before : List Char) (p : Piece) : Prop :=
  ∀ f, ¬p.Breaks before f

-- No piece breaks behind the text and the pieces in front of it.
inductive Unbroken : List Char → List Piece → Prop
  | nil {before : List Char} : Unbroken before []
  | cons {before : List Char} {p : Piece} {ps : List Piece} :
    p.Fits before → Unbroken (before ++ p.text) ps → Unbroken before (p :: ps)

-- The fault of the first piece that breaks, at the place of that piece.
inductive FirstBreak : List Char → List Piece → Spanned Fault → Prop
  | head {before : List Char} {p : Piece} {ps : List Piece} {f : Fault} :
    p.Breaks before f →
    FirstBreak before (p :: ps) ⟨f, before.length, before.length + p.text.length⟩
  | tail {before : List Char} {p : Piece} {ps : List Piece} {e : Spanned Fault} :
    p.Fits before → FirstBreak (before ++ p.text) ps e → FirstBreak before (p :: ps) e

end Piece

-- The character at `p` opens a group that nothing behind it closes.
structure IsUnmatched (source : List Char) (p : Nat) : Prop where
  bracket : source[p]? = some '('
  behind  : ∀ s, s <+: source.drop (p + 1) → closed s ≤ opened s

structure IsLastUnmatched (source : List Char) (p : Nat) : Prop extends IsUnmatched source p where
  last : ∀ q, IsUnmatched source q → q ≤ p

-- A bracket that is left open is a defect only if no piece breaks.
inductive FirstDefect (source : List Char) : Spanned Fault → Prop
  | broken {e : Spanned Fault} :
    Piece.FirstBreak [] (Piece.ofText source) e → FirstDefect source e
  | unmatched {p : Nat} :
    Piece.Unbroken [] (Piece.ofText source) → IsLastUnmatched source p →
    FirstDefect source ⟨.unpairedBracket, .single p⟩

structure InLanguage (source : List Char) : Prop where
  marks    : ∀ c, .mark c ∈ Piece.ofText source → c ∈ marks
  runs     : ∀ r, .run r ∈ Piece.ofText source → Decimal.IsReadable r
  apart    : ∀ a b, [a, b] <:+: source → a ∈ operators → b ∉ operators
  balanced : Balanced source

variable {c : Char} {s before source : List Char}

theorem mem_operators_iff : c ∈ operators ↔ ∃ o, Operator.ofChar? c = some o where
  mp h := by
    simp only [operators, List.mem_cons, List.not_mem_nil, or_false] at h
    rcases h with rfl | rfl | rfl | rfl <;> exact ⟨_, rfl⟩
  mpr := fun ⟨o, h⟩ => by
    rw [← Operator.char_of_ofChar? h]
    cases o <;> decide

theorem mem_marks_iff : c ∈ marks ↔ c = '(' ∨ c = ')' ∨ c ∈ operators := by
  simp [marks]

theorem neutral_of_mem_operators (h : c ∈ operators) : opens c = false ∧ closes c = false := by
  have ho : operators.all fun c => !opens c && !closes c := by decide
  simpa using List.all_eq_true.mp ho c h

theorem not_continuesRun_of_mem_marks (h : c ∈ marks) : continuesRun c = false := by
  have hm : marks.all (!continuesRun ·) := by decide +kernel
  simpa using List.all_eq_true.mp hm c h

theorem not_isNumeric_of_not_continuesRun (h : continuesRun c = false) :
    Unicode.isNumeric c = false := by
  simp [continuesRun] at h
  exact h.left

theorem ne_point_of_isNumeric (h : Unicode.isNumeric c) : c ≠ '.' := by
  rintro rfl
  revert h
  decide +kernel

theorem not_mem_marks_of_isDigit (h : c.isDigit ∨ c = '.') : c ∉ marks := by
  intro hcm
  have hm : marks.all fun c => !c.isDigit && c != '.' := by decide
  have hd := List.all_eq_true.mp hm c hcm
  simp at hd
  exact h.elim (by simp [hd]) hd.right

namespace Decimal.IsReadable

variable {r : List Char}

theorem not_mem_marks (h : IsReadable r) (hc : c ∈ r) : c ∉ marks :=
  not_mem_marks_of_isDigit (h.digits c hc)

theorem not_mem_operators (h : IsReadable r) (hc : c ∈ r) : c ∉ operators :=
  fun ho => h.not_mem_marks hc (mem_marks_iff.mpr (.inr (.inr ho)))

theorem neutral (h : IsReadable r) (hc : c ∈ r) : opens c = false ∧ closes c = false := by
  have hm := h.not_mem_marks hc
  simp only [mem_marks_iff, not_or] at hm
  simp [hm]

theorem balanced (h : IsReadable r) : Balanced r :=
  .of_neutral fun _ => h.neutral

end Decimal.IsReadable

namespace Piece

variable {p : Piece} {ps front back : List Piece} {f f' : Fault} {e e' : Spanned Fault}

theorem map_value_pieces (m n : Nat) (s : List Char) :
    (pieces m s).map (·.value) = (pieces n s).map (·.value) := by
  fun_induction pieces m s generalizing n
  case case1 => simp [pieces]
  case case2 m c s hc r ih =>
    rw [pieces, if_pos hc, List.map_cons, List.map_cons, ih]
  case case3 m c s hc ih =>
    rw [pieces, if_neg hc, List.map_cons, List.map_cons, ih]

theorem ofText_nil : ofText [] = [] := by
  simp [ofText, pieces]

theorem ofText_run (h : Unicode.isNumeric c) (s : List Char) :
    ofText (c :: s) = run (c :: s.takeWhile continuesRun) :: ofText (s.dropWhile continuesRun) := by
  rw [ofText, pieces, if_pos h, List.map_cons, map_value_pieces _ 0]
  rfl

theorem ofText_mark (h : Unicode.isNumeric c = false) (s : List Char) :
    ofText (c :: s) = mark c :: ofText s := by
  rw [ofText, pieces, h, if_neg Bool.false_ne_true, List.map_cons, map_value_pieces _ 0]
  rfl

theorem texts_ofText (s : List Char) : texts (ofText s) = s := by
  rw [texts, ofText, List.flatMap_map]
  exact flatMap_text_pieces 0 s

theorem ofText_append {u v : List Char} (h : Parts u v) :
    ofText (u ++ v) = ofText u ++ ofText v := by
  rw [ofText, pieces_append h, List.map_append, map_value_pieces _ 0 v]
  rfl

theorem ofText_append_cons (h : continuesRun c = false) (u v : List Char) :
    ofText (u ++ c :: v) = ofText u ++ mark c :: ofText v := by
  rw [ofText_append (.inr (stops_cons h v)), ofText_mark (not_isNumeric_of_not_continuesRun h)]

theorem Breaks.unique (h : p.Breaks before f) (h' : p.Breaks before f') : f = f' := by
  have hc : ')' ∈ marks := by decide
  have ho : ')' ∉ operators := by decide
  cases h <;> cases h'
  case foreign.adjacent hf _ _ _ hm => exact absurd (mem_marks_iff.mpr (.inr (.inr hm))) hf
  case adjacent.foreign _ _ _ hm hf => exact absurd (mem_marks_iff.mpr (.inr (.inr hm))) hf
  all_goals first | rfl | contradiction

theorem FirstBreak.unique (h : FirstBreak before ps e) (h' : FirstBreak before ps e') : e = e' := by
  induction h <;> cases h'
  case head.head h _ h' => rw [h.unique h']
  case head.tail h hf _ => exact absurd h (hf _)
  case tail.head hf _ _ h _ => exact absurd h (hf _)
  case tail.tail ih _ h => exact ih h

theorem Unbroken.not_firstBreak (h : Unbroken before ps) : ¬FirstBreak before ps e := by
  intro h'
  induction h <;> cases h'
  case cons.head hf _ _ h _ => exact hf _ h
  case cons.tail ih _ h => exact ih h

theorem unbroken_append_iff :
    Unbroken before (front ++ back) ↔
      Unbroken before front ∧ Unbroken (before ++ texts front) back := by
  induction front generalizing before
  case nil => simp [texts, Unbroken.nil]
  case cons p front ih =>
    constructor
    case mp =>
      intro h
      cases h
      case cons hp h =>
        have ⟨hf, hb⟩ := ih.mp h
        exact ⟨.cons hp hf, by simpa [texts] using hb⟩
    case mpr =>
      intro ⟨h, hb⟩
      cases h
      case cons hp hf => exact .cons hp (ih.mpr ⟨hf, by simpa [texts] using hb⟩)

theorem Unbroken.fits (h : Unbroken before (front ++ p :: back)) :
    p.Fits (before ++ texts front) := by
  have ⟨_, h⟩ := unbroken_append_iff.mp h
  cases h
  case cons hp _ => exact hp

theorem Unbroken.mem_marks {c : Char} (h : Unbroken before ps) (hc : mark c ∈ ps) :
    c ∈ marks := by
  have ⟨front, back, e⟩ := List.append_of_mem hc
  by_contra hm
  exact (e ▸ h).fits _ (.foreign hm)

theorem unbroken_of_forall
    (h : ∀ front p back, ps = front ++ p :: back → p.Fits (before ++ texts front)) :
    Unbroken before ps := by
  induction ps generalizing before
  case nil => exact .nil
  case cons p ps ih =>
    have hp := h [] p ps rfl
    simp only [texts, List.flatMap_nil, List.append_nil] at hp
    refine .cons hp (ih fun front q back e => ?_)
    have hq := h (p :: front) q back (congrArg (p :: ·) e)
    simpa [texts] using hq

end Piece

namespace IsUnmatched

variable {a t : List Char} {q : Nat}

theorem lt_length (h : IsUnmatched source q) : q < source.length :=
  (List.getElem?_eq_some_iff.mp h.bracket).fst

theorem take_append (h : IsUnmatched source q) :
    source.take q ++ '(' :: source.drop (q + 1) = source := by
  have ⟨_, he⟩ := List.getElem?_eq_some_iff.mp h.bracket
  rw [← he, List.getElem_cons_drop, List.take_append_drop]

theorem not_balanced (h : IsUnmatched source q) : ¬Balanced source := by
  intro hb
  have hs := h.take_append
  have := hb.prefixes _ (List.take_prefix q source)
  have := h.behind _ (List.prefix_refl _)
  have := hb.total
  rw [← hs] at this
  simp at this
  omega

theorem of_append (h : IsUnmatched (a ++ t) (a.length + q)) : IsUnmatched t q where
  bracket := by simpa [List.getElem?_append_right] using h.bracket
  behind  := by simpa [Nat.add_assoc] using h.behind

theorem append_cons_iff (ht : Balanced t) :
    IsUnmatched (a ++ '(' :: t) q ↔ q = a.length ∨ IsUnmatched a q where
  mp h := by
    rcases Nat.lt_trichotomy q a.length with hlt | he | hgt
    case inl =>
      refine .inr ⟨?bracket, fun s hs => h.behind s ?behind⟩
      case bracket => exact List.getElem?_append_left hlt ▸ h.bracket
      case behind =>
        rw [List.drop_append_of_le_length hlt]
        exact hs.trans (List.prefix_append ..)
    case inr.inl => exact .inl he
    case inr.inr =>
      have hs : a ++ '(' :: t = (a ++ ['(']) ++ t := by simp
      have hq : q = (a ++ ['(']).length + (q - a.length - 1) := by simp; omega
      rw [hs, hq] at h
      exact absurd ht h.of_append.not_balanced
  mpr h := by
    rcases h with rfl | h
    case inl => exact ⟨by simp, by simpa using ht.prefixes⟩
    case inr =>
      refine ⟨List.getElem?_append_left h.lt_length ▸ h.bracket, fun s hs => ?_⟩
      rw [List.drop_append_of_le_length h.lt_length] at hs
      rcases prefix_append_cases hs with hs | ⟨s', hs', rfl⟩
      case inl => exact h.behind s hs
      case inr =>
        have := h.behind _ (List.prefix_refl _)
        rcases List.prefix_cons_iff.mp hs' with rfl | ⟨s, rfl, hst⟩
        case inl => simpa
        case inr =>
          have := ht.prefixes s hst
          simp
          omega

end IsUnmatched

-- The opening brackets without a partner in a text that closes no more than it opens, the last one
-- first. Between two of them, in front of the first and behind the last, the text is balanced.
inductive Unclosed : List Span → List Char → Prop
  | nil {t : List Char} : Balanced t → Unclosed [] t
  | cons {outer : List Span} {a t : List Char} :
    Unclosed outer a → Balanced t → Unclosed (.single a.length :: outer) (a ++ '(' :: t)

namespace Unclosed

variable {outer places : List Span} {place : Span} {t t' : List Char}

theorem append (h : Unclosed places t) (hb : Balanced t') : Unclosed places (t ++ t') := by
  cases h
  case nil h => exact .nil (h.append hb)
  case cons h ht =>
    rw [List.append_assoc, List.cons_append]
    exact .cons h (ht.append hb)

theorem balanced (h : Unclosed [] t) : Balanced t := by
  cases h
  case nil h => exact h

theorem opening (h : Unclosed places t) : Unclosed (.single t.length :: places) (t ++ ['(']) :=
  .cons h .nil

theorem closing (h : Unclosed (place :: outer) t) : Unclosed outer (t ++ [')']) := by
  cases h
  case cons a t ht h =>
    have hg : Balanced ('(' :: t ++ [')']) := .group rfl rfl ht
    simpa using h.append hg

theorem closed_le (h : Unclosed places t) : closed t ≤ opened t := by
  induction h
  case nil h => exact h.total.ge
  case cons ht ih =>
    have := ht.total
    simp
    omega

theorem isLastUnmatched (h : Unclosed (place :: outer) source) :
    ∃ p, IsLastUnmatched source p ∧ place = .single p := by
  cases h
  case cons a t ht _ =>
    have hu {q : Nat} : IsUnmatched (a ++ '(' :: t) q ↔ q = a.length ∨ IsUnmatched a q :=
      IsUnmatched.append_cons_iff ht
    refine ⟨a.length, ⟨hu.mpr (.inl rfl), fun q hq => ?_⟩, rfl⟩
    rcases hu.mp hq with rfl | hq
    case inl => exact le_rfl
    case inr => exact hq.lt_length.le

end Unclosed

namespace InLanguage

open Piece

theorem unbroken (h : InLanguage source) : Unbroken [] (ofText source) := by
  apply unbroken_of_forall
  intro front p back e f hf
  have hp : p ∈ ofText source := e ▸ List.mem_append_right front List.mem_cons_self
  have hs : source = texts front ++ (p.text ++ texts back) := by
    rw [← texts_ofText source, e]
    simp [texts]
  cases hf
  case foreign hm => exact hm (h.marks _ hp)
  case unreadable hn => exact hn (h.runs _ hp)
  case adjacent b c hlast hb hc =>
    have ⟨u, hu⟩ := List.getLast?_eq_some_iff.mp hlast
    rw [List.nil_append] at hu
    have hi : [b, c] <:+: source := ⟨u, texts back, by simp [hs, hu, text]⟩
    exact h.apart b c hi hb hc
  case unpaired excess =>
    have hi : texts front ++ [')'] <+: source := ⟨texts back, by simp [hs, text]⟩
    exact Nat.not_lt.mpr (h.balanced.prefixes _ hi) excess

theorem of_unbroken (h : Unbroken [] (ofText source)) (hb : Balanced source) :
    InLanguage source where
  marks _ := h.mem_marks
  runs r hr := by
    have ⟨front, back, e⟩ := List.append_of_mem hr
    by_contra hn
    exact (e ▸ h).fits _ (.unreadable hn)
  apart a b hab ha hb := by
    have ⟨u, v, e⟩ := hab
    have hm := mem_marks_iff.mpr (.inr (.inr hb))
    have hs : source = (u ++ [a]) ++ b :: v := by simp [← e]
    rw [hs, ofText_append_cons (not_continuesRun_of_mem_marks hm)] at h
    apply h.fits _ (.adjacent ?_ ha hb)
    simp [texts_ofText]
  balanced := hb

theorem not_firstDefect {e : Spanned Fault} (h : InLanguage source) : ¬FirstDefect source e := by
  intro hd
  cases hd
  case broken hb => exact h.unbroken.not_firstBreak hb
  case unmatched hp => exact hp.not_balanced h.balanced

end InLanguage

theorem FirstDefect.unique {e e' : Spanned Fault} (h : FirstDefect source e)
    (h' : FirstDefect source e') : e = e' := by
  cases h <;> cases h'
  case broken.broken h h' => exact h.unique h'
  case broken.unmatched h _ hu _ => exact absurd h hu.not_firstBreak
  case unmatched.broken hu _ h => exact absurd h hu.not_firstBreak
  case unmatched.unmatched p _ hp q _ hq =>
    have := Nat.le_antisymm (hq.last p hp.toIsUnmatched) (hp.last q hq.toIsUnmatched)
    rw [this]

end Abacus
