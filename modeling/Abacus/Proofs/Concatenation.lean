import Abacus.Proofs.Cuts
import Abacus.Proofs.Enclosure
import Abacus.Proofs.Tiling

namespace Abacus

open Piece

-- An operator at the end of the first text, and one at the start of the second.
def OperatorsMeet (a b : List Char) : Prop :=
  (∃ c ∈ a.getLast?, c ∈ operators) ∧ ∃ c ∈ b.head?, c ∈ operators

-- A number at the end of the first text, and one at the start of the second.
def NumbersMeet (a b : List Char) : Prop :=
  (∃ c ∈ a.getLast?, c.isDigit ∨ c = '.') ∧ ∃ c ∈ b.head?, c.isDigit

-- What is implied between the two texts.
def joint (a b : List Char) : List (Spanned Token) :=
  if a.getLast? = some ')' ∧ b.head?.any (fun c => c = '(' || c.isDigit) then
    [⟨.operator .times, .before a.length⟩]
  else
    []

-- A text of the token can end in the character.
def Token.EndsIn : Token → Char → Prop
  | .operator o, c => c = o.char
  | .opening, c => c = '('
  | .closing, c => c = ')'
  | .number _, c => c.isDigit ∨ c = '.'

-- The text that has been read ends as its last token does.
def Scan.EndsWith (s : Scan) (a : List Char) : Prop :=
  Option.Rel Token.EndsIn s.last? a.getLast?

variable {a b source : List Char} {c : Char} {p : Piece} {t : Token} {s : Scan}
  {ta tb : List (Spanned Token)}

namespace Token.EndsIn

theorem mem_marks (h : t.EndsIn c) (hn : ¬(c.isDigit ∨ c = '.')) : c ∈ marks := by
  cases t
  case operator o => exact h ▸ o.char_mem_marks
  case opening => exact h ▸ by decide
  case closing => exact h ▸ by decide
  case number => exact absurd h hn

theorem eq_closing_iff (h : t.EndsIn c) : t = .closing ↔ c = ')' := by
  cases t
  case operator o => simpa [show c = o.char from h] using o.char_ne (by decide)
  case opening => simp [show c = '(' from h]
  case closing => simp [show c = ')' from h]
  case number =>
    simp only [reduceCtorEq, false_iff]
    rintro rfl
    exact not_mem_marks_of_isDigit h (by decide)

theorem isOperator_iff (h : t.EndsIn c) : t.isOperator ↔ c ∈ operators := by
  cases t
  case operator o => simpa [isOperator, show c = o.char from h] using o.char_mem_operators
  case opening => simpa [isOperator, show c = '(' from h] using by decide
  case closing => simpa [isOperator, show c = ')' from h] using by decide
  case number =>
    have hm := not_mem_marks_of_isDigit h
    simpa [isOperator] using fun ho => hm (mem_marks_iff.mpr (.inr (.inr ho)))

end Token.EndsIn

namespace Piece

theorem text_ne_nil (h : p ∈ ofText source) : p.text ≠ [] := by
  cases p
  case mark => simp [text]
  case run r =>
    obtain ⟨⟨c, hc, _⟩, _⟩ := numeric_of_ofText h
    exact List.ne_nil_of_mem (List.mem_of_mem_head? hc)

theorem Names.endsIn (h : p.Names t) (hc : c ∈ p.text.getLast?) : t.EndsIn c := by
  cases h
  case opening | closing | operator =>
    cases hc
    rfl
  case number r x hx =>
    have hm : c ∈ r := List.mem_of_getLast? hc
    by_cases hp : c = '.'
    case pos => exact .inr hp
    case neg => exact ((Decimal.doubleOfLiteral?_isSome_iff ⟨c, hm, hp⟩).mp (hx ▸ rfl)).digits c hm

end Piece

namespace Scan

theorem endsWith_of_run (h : run {} 0 a = .ok s) : s.EndsWith a := by
  have hs := flatMap_text_pieces 0 a
  rw [run_eq_foldlM] at h
  rcases List.eq_nil_or_concat' (pieces 0 a) with e | ⟨ps, q, e⟩
  case inl =>
    rw [e] at h hs
    cases h
    exact hs ▸ .none
  case inr =>
    have hq : q.value ∈ ofText a := by simp [ofText, e]
    rw [e, List.foldlM_append, Except.bind_eq_ok_iff] at h
    obtain ⟨s₁, _, h⟩ := h
    rw [List.foldlM_cons, Except.bind_eq_ok_iff] at h
    obtain ⟨s₂, h, e'⟩ := h
    cases e'
    obtain ⟨t, hn, ht⟩ := step_ok h
    obtain ⟨c, hc⟩ := Option.ne_none_iff_exists'.mp
      (mt List.getLast?_eq_none_iff.mp (text_ne_nil hq))
    have hl : a.getLast? = some c := by
      rw [← hs, e, List.flatMap_append, List.flatMap_singleton, List.getLast?_append, hc]
      rfl
    rw [EndsWith, last?_of_tokens ht, hl]
    exact .some (hn.endsIn hc)

namespace EndsWith

variable (h : s.EndsWith a)

include h

theorem exists_char (hl : s.last? = some t) : ∃ c ∈ a.getLast?, t.EndsIn c := by
  rw [EndsWith, hl] at h
  cases hc : a.getLast?
  case none => simp [hc] at h
  case some c => exact ⟨c, rfl, by simpa [hc] using h⟩

theorem exists_token (hc : c ∈ a.getLast?) : ∃ t, s.last? = some t ∧ t.EndsIn c := by
  rw [EndsWith, hc] at h
  cases hl : s.last?
  case none => simp [hl] at h
  case some t => exact ⟨t, rfl, by simpa [hl] using h⟩

theorem isOperator_iff : s.last?.any Token.isOperator ↔ ∃ c ∈ a.getLast?, c ∈ operators := by
  rw [EndsWith] at h
  generalize s.last? = last, a.getLast? = char at h
  cases h
  case none => simp
  case some h => simpa using h.isOperator_iff

theorem eq_closing_iff : s.last? = some .closing ↔ a.getLast? = some ')' := by
  rw [EndsWith] at h
  generalize s.last? = last, a.getLast? = char at h
  cases h
  case none => simp
  case some h => simpa using h.eq_closing_iff

end EndsWith

end Scan

theorem InLanguage.mem_marks_or_isDigit (h : InLanguage source) (hc : c ∈ source.head?) :
    c ∈ Abacus.marks ∨ c.isDigit := by
  obtain ⟨cs, rfl⟩ := List.head?_eq_some_iff.mp hc
  by_cases hn : Unicode.isNumeric c
  case pos =>
    have hd := (h.literal hn).left.digits c List.mem_cons_self
    exact .inr (hd.resolve_right (ne_point_of_isNumeric hn))
  case neg => exact .inl (h.marks c (ofText_mark (Bool.not_eq_true _ ▸ hn) cs ▸ List.mem_cons_self))

namespace Phrase

variable {φ : Phrase} {last : Option Token}

theorem Proper.atStart (h : φ.Proper last) : φ.Proper none := by
  cases φ
  case nil => trivial
  case operator => exact ⟨nofun, h.right⟩
  case literal => exact ⟨nofun, h.right⟩
  case group => exact h

theorem placed_eq_append (φ : Phrase) (last : Option Token) (p : Nat) :
    φ.placed last p =
      (if φ.text.head?.any startsOperand then (implied last).map (⟨.operator ·, .before p⟩)
        else []) ++ φ.placed none p := by
  cases φ
  case nil => rfl
  case operator o rest => cases o <;> rfl
  case literal l rest =>
    obtain ⟨c, r, ht, hc⟩ := l.exists_cons
    simp [placed, implied, text, ht, startsOperand, hc]
  case group => simp [placed, implied, text, startsOperand]

end Phrase

namespace InLanguage

variable (h : InLanguage b)

include h

theorem stops (hd : ∀ c ∈ b.head?, ¬c.isDigit) : Stops b := fun c hc =>
  not_continuesRun_of_mem_marks ((h.mem_marks_or_isDigit hc).resolve_right (hd c hc))

theorem any_startsOperand :
    b.head?.any startsOperand = b.head?.any fun c => c = '(' || c.isDigit := by
  cases hc : b.head?
  case none => rfl
  case some c =>
    simp only [Option.any_some, startsOperand]
    rcases h.mem_marks_or_isDigit hc with hm | hd
    case inl =>
      have hd : c.isDigit = false := by
        by_contra hd
        exact not_mem_marks_of_isDigit (.inl (by simpa using hd)) hm
      rw [hd, not_isNumeric_of_not_continuesRun (not_continuesRun_of_mem_marks hm)]
    case inr => rw [hd, Unicode.isNumeric_of_isDigit hd]

-- No run goes across the cut if no number does.
theorem parts (ha : s.EndsWith a) (hn : ¬NumbersMeet a b) : Parts a b := by
  by_cases hd : ∃ c ∈ a.getLast?, c.isDigit ∨ c = '.'
  case pos => exact .inr (h.stops fun c hc hcd => hn ⟨hd, c, hc, hcd⟩)
  case neg =>
    refine .inl fun c hc => ?_
    obtain ⟨t, _, ht⟩ := ha.exists_token hc
    exact not_continuesRun_of_mem_marks (ht.mem_marks fun h => hd ⟨c, hc, h⟩)

-- The second text is that of a phrase that may stand behind the first.
theorem exists_behind (ha : s.EndsWith a) (ho : ¬OperatorsMeet a b) (hn : ¬NumbersMeet a b) :
    ∃ φ : Phrase, φ.text = b ∧ φ.Proper s.last? := by
  refine h.exists_phrase s.last? (fun o hl c hc hco => ?_) fun x hl => ?_
  · obtain ⟨d, hd, rfl⟩ := ha.exists_char hl
    exact ho ⟨⟨o.char, hd, o.char_mem_operators⟩, c, hc, hco⟩
  · have hd := ha.exists_char hl
    exact h.stops fun c hc hcd => hn ⟨hd, c, hc, hcd⟩

end InLanguage

theorem Scan.run_operators_meet (hl : s.last?.any Token.isOperator) (hc : c ∈ operators) (n : Nat)
    (cs : List Char) : s.run n (c :: cs) = .error ⟨.missingOperand, .single n⟩ := by
  obtain ⟨o, ho⟩ := mem_operators_iff.mp hc
  obtain rfl := Operator.char_of_ofChar? ho
  have hm : s.mark o.char (.single n) = .error ⟨.missingOperand, .single n⟩ := by
    have he : s.operator o (.single n) = .error ⟨.missingOperand, .single n⟩ := if_pos hl
    cases o <;> exact he
  rw [run_mark (not_isNumeric_of_not_continuesRun (not_continuesRun_of_mem_marks o.char_mem_marks)),
    hm]

theorem joint_eq (ha : s.EndsWith a) (hb : InLanguage b) :
    joint a b = if b.head?.any startsOperand then
      (implied s.last?).map (⟨.operator ·, .before a.length⟩) else [] := by
  simp only [joint, implied, ha.eq_closing_iff, hb.any_startsOperand]
  split_ifs <;> simp_all

-- Two operators that meet are one too many. Otherwise, unless a number goes on across the cut, the
-- second text has the tokens that it has alone.
theorem tokenize_append (ha : tokenize a = .ok ta) (hb : tokenize b = .ok tb) :
    (OperatorsMeet a b → tokenize (a ++ b) = .error ⟨.missingOperand, .single a.length⟩) ∧
    (¬OperatorsMeet a b → ¬NumbersMeet a b →
      tokenize (a ++ b) = .ok (ta ++ joint a b ++ tb.map (·.shift a.length))) := by
  obtain ⟨s, hs, hu, ht⟩ := Scan.exists_of_tokenize ha
  have hl := Scan.endsWith_of_run hs
  have hj := judges_tokenize b
  rw [hb] at hj
  have run_eq (h : Parts a b) : tokenize (a ++ b) = s.run a.length b >>= Scan.finish := by
    rw [tokenize_eq_run, Scan.run_append h, hs, Nat.zero_add]
    rfl
  refine ⟨fun ⟨⟨d, hd, hdo⟩, c, hc, hco⟩ => ?meet, fun ho hn => ?apart⟩
  case meet =>
    have hso := hl.isOperator_iff.mpr ⟨d, hd, hdo⟩
    obtain ⟨cs, rfl⟩ := List.head?_eq_some_iff.mp hc
    have hp : Parts a (c :: cs) :=
      .inr (Phrase.stops_of_mem_marks (mem_marks_iff.mpr (.inr (.inr hco))) cs)
    rw [run_eq hp, Scan.run_operators_meet hso hco]
    rfl
  case apart =>
    obtain ⟨φ, rfl, hφ⟩ := InLanguage.exists_behind hj hl ho hn
    obtain rfl : tb = φ.placed none 0 :=
      Except.ok.inj (hb.symm.trans (Phrase.tokenize_eq_placed hφ.atStart))
    obtain ⟨s', he, hr⟩ := φ.run_text hφ stops_nil a.length
    rw [List.append_nil, Scan.run] at hr
    have hm : (φ.placed none 0).map (·.shift a.length) = φ.placed none a.length := by
      rw [← Nat.zero_add a.length, ← Phrase.placed_shift, Nat.zero_add]
      rfl
    rw [run_eq (InLanguage.parts hj hl hn), hr, joint_eq hl hj, hm, List.append_assoc,
      ← Phrase.placed_eq_append]
    simp [Bind.bind, Except.bind, Scan.finish, he.unclosed, hu, he.tokens, ht]

-- A star is implied between the first two texts, and the last two do not go together.
theorem tokenize_append_juxtaposed :
    let group : List (Spanned Token) := [⟨.opening, 0, 1⟩, ⟨.number 1.0, 1, 2⟩, ⟨.closing, 2, 3⟩]
    let number : List (Spanned Token) := [⟨.number 2.0, 0, 1⟩]
    let sum : List (Spanned Token) := [⟨.number 1.0, 0, 1⟩, ⟨.operator .plus, 1, 2⟩]
    let negated : List (Spanned Token) := [⟨.operator .minus, 0, 1⟩, ⟨.number 2.0, 1, 2⟩]
    (tokenize "(1)".toList = .ok group ∧ tokenize "2".toList = .ok number ∧
      ¬OperatorsMeet "(1)".toList "2".toList ∧ ¬NumbersMeet "(1)".toList "2".toList ∧
      tokenize ("(1)".toList ++ "2".toList) =
        .ok (group ++ joint "(1)".toList "2".toList ++ number.map (·.shift 3)) ∧
      joint "(1)".toList "2".toList = [⟨.operator .times, 3, 3⟩]) ∧
    tokenize "1+".toList = .ok sum ∧ tokenize "-2".toList = .ok negated ∧
      OperatorsMeet "1+".toList "-2".toList ∧
      tokenize ("1+".toList ++ "-2".toList) = .error ⟨.missingOperand, 2, 3⟩ := by
  intro group number sum negated
  have hg : tokenize "(1)".toList = .ok group := by decide +kernel
  have hn : tokenize "2".toList = .ok number := by decide +kernel
  have hs : tokenize "1+".toList = .ok sum := by decide +kernel
  have hm : tokenize "-2".toList = .ok negated := by decide +kernel
  have ho : ¬OperatorsMeet "(1)".toList "2".toList := by
    rintro ⟨⟨_, ⟨⟩, hc⟩, _⟩
    exact absurd hc (by decide)
  have hx : ¬NumbersMeet "(1)".toList "2".toList := by
    rintro ⟨⟨_, ⟨⟩, hc⟩, _⟩
    exact absurd hc (by decide)
  have hom : OperatorsMeet "1+".toList "-2".toList :=
    ⟨⟨'+', rfl, by decide⟩, '-', rfl, by decide⟩
  exact ⟨⟨hg, hn, ho, hx, (tokenize_append hg hn).right ho hx, by decide +kernel⟩, hs, hm, hom,
    (tokenize_append hs hm).left hom⟩

end Abacus
