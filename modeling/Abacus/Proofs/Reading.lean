import Abacus.Proofs.Language
import Abacus.Token.Scan

namespace Abacus

open Piece

namespace Scan

-- What a scan knows of the text that it has read.
structure Reads (s : Scan) (before : List Char) : Prop where
  last     : s.last?.any Token.isOperator ↔ ∃ b, before.getLast? = some b ∧ b ∈ operators
  unclosed : Unclosed s.unclosed before

-- What reading the piece `p` behind `before` results in.
def Follows (before : List Char) (p : Piece) : Except (Spanned Fault) Scan → Prop
  | .ok s => p.Fits before ∧ s.Reads (before ++ p.text)
  | .error e =>
    ∃ f, p.Breaks before f ∧ e = ⟨f, before.length, before.length + p.text.length⟩

variable {s : Scan} {before r : List Char} {c : Char} {o : Operator} {place : Span}

theorem reads_nil : Reads {} [] where
  last     := by simp [last?]
  unclosed := .nil .nil

@[simp]
theorem last?_push (s : Scan) (t : Token) (place : Span) : (s.push t place).last? = some t :=
  rfl

@[simp]
theorem last?_opening (s : Scan) (place : Span) : (s.opening place).last? = some .opening :=
  rfl

theorem unclosed_imply (s : Scan) (p : Nat) : (s.imply p).unclosed = s.unclosed := by
  unfold imply
  split <;> rfl

-- A text is read on by a piece that ends in a character of the same kind as the token it adds.
theorem Reads.of_push {t : Token} {u : List Span} (hl : r.getLast? = some c)
    (ht : t.isOperator ↔ c ∈ operators) (hu : Unclosed u (before ++ r)) :
    Reads { s.push t place with unclosed := u } (before ++ r) where
  last     := by simp [last?, push, List.getLast?_append, hl, ht]
  unclosed := hu

namespace Reads

theorem number (h : s.Reads before) (hr : ∃ c ∈ r, c ≠ '.') :
    Follows before (.run r) (s.number r ⟨before.length, before.length + r.length⟩) := by
  have hd := Decimal.doubleOfLiteral?_isSome_iff hr
  unfold Scan.number
  split
  case h_1 x hx =>
    have hn := hd.mp (hx ▸ rfl)
    constructor
    case left =>
      intro f hf
      cases hf
      case unreadable h => exact h hn
    case right =>
      have ⟨c, hc, _⟩ := hr
      have hl := List.getLast?_eq_some_getLast (List.ne_nil_of_mem hc)
      have ho := hn.not_mem_operators (List.mem_of_getLast? hl)
      have hu := unclosed_imply s before.length ▸ h.unclosed.append hn.balanced
      exact .of_push hl (by simp [Token.isOperator, ho]) hu
  case h_2 hx =>
    have hn : ¬Decimal.IsReadable r := fun h => by simpa [hx] using hd.mpr h
    exact ⟨_, .unreadable hn, rfl⟩

theorem opening (h : s.Reads before) :
    Follows before (.mark '(') (.ok (s.opening (.single before.length))) := by
  constructor
  case left =>
    intro f hf
    cases hf
    case foreign hm => exact hm (by decide)
    case adjacent ho => exact absurd ho (by decide)
  case right =>
    have hu := unclosed_imply s before.length ▸ h.unclosed.opening
    exact .of_push rfl (by decide) hu

theorem closing (h : s.Reads before) :
    Follows before (.mark ')') (s.closing (.single before.length)) := by
  have hu := h.unclosed
  unfold Scan.closing
  split
  case h_1 hn =>
    have := (hn ▸ hu).balanced.total
    exact ⟨_, .unpaired (by simp; omega), rfl⟩
  case h_2 place outer hn =>
    have hc := (hn ▸ hu).closing
    refine ⟨?fits, .of_push rfl (by decide) hc⟩
    intro f hf
    cases hf
    case foreign hm => exact hm (by decide)
    case adjacent ho => exact absurd ho (by decide)
    case unpaired excess => exact Nat.not_lt.mpr hc.closed_le excess

theorem operator (h : s.Reads before) (hc : Operator.ofChar? c = some o) :
    Follows before (.mark c) (s.operator o (.single before.length)) := by
  have ho := mem_operators_iff.mpr ⟨o, hc⟩
  have ⟨hopen, hclose⟩ := neutral_of_mem_operators ho
  unfold Scan.operator
  split
  case isTrue hl =>
    have ⟨b, hb, hbo⟩ := h.last.mp hl
    exact ⟨_, .adjacent hb hbo ho, rfl⟩
  case isFalse hl =>
    refine ⟨?fits, .of_push rfl (by simp [Token.isOperator, ho]) ?unclosed⟩
    case unclosed => exact h.unclosed.append (.single hopen hclose)
    case fits =>
      intro f hf
      cases hf
      case foreign hm => exact hm (mem_marks_iff.mpr (.inr (.inr ho)))
      case adjacent b hb hbo _ => exact hl (h.last.mpr ⟨b, hb, hbo⟩)
      case unpaired => simp at hclose

theorem mark (h : s.Reads before) (c : Char) :
    Follows before (.mark c) (s.mark c (.single before.length)) := by
  unfold Scan.mark
  split
  case h_1 => exact h.opening
  case h_2 => exact h.closing
  case h_3 ho hc =>
    split
    case h_1 o h' => exact h.operator h'
    case h_2 h' =>
      have hm : c ∉ marks := by
        rw [mem_marks_iff, mem_operators_iff, h']
        rintro (h | h | ⟨_, h⟩)
        · exact ho h
        · exact hc h
        · cases h
      exact ⟨_, .foreign hm, rfl⟩

end Reads

-- What reading on through `cs` behind `before` results in.
def Ends (before cs : List Char) : Except (Spanned Fault) Scan → Prop
  | .ok s => Unbroken before (ofText cs) ∧ s.Reads (before ++ cs)
  | .error e => FirstBreak before (ofText cs) e

theorem Ends.of_ok {p : Piece} {cs : List Char} {result : Except (Spanned Fault) Scan}
    (hp : p.Fits before) (h : Ends (before ++ p.text) cs result) (hc : ofText r = p :: ofText cs)
    (he : r = p.text ++ cs) : Ends before r result := by
  match result, h with
  | .ok s, ⟨hu, hs⟩ => exact ⟨hc ▸ .cons hp hu, by simpa [he] using hs⟩
  | .error e, h =>
    rw [Ends, hc]
    exact .tail hp h

theorem Ends.of_error {p : Piece} {cs : List Char} {e : Spanned Fault}
    (hf : Follows before p (.error e)) (hc : ofText r = p :: ofText cs) :
    Ends before r (.error e) := by
  have ⟨f, hb, he⟩ := hf
  rw [Ends, hc, he]
  exact .head hb

theorem Reads.run (h : s.Reads before) (cs : List Char) :
    Ends before cs (s.run before.length cs) := by
  generalize hp : before.length = p
  fun_induction Scan.run s p cs generalizing before
  case case1 => exact ⟨ofText_nil ▸ .nil, by simpa using h⟩
  case case2 s p c cs hc r s' hs ih =>
    subst hp
    have hf := h.number (r := r) ⟨c, List.mem_cons_self, ne_point_of_isNumeric hc⟩
    rw [hs] at hf
    refine .of_ok hf.left (ih hf.right ?_) (ofText_run hc cs) ?_
    · simp [text]
    · simp [text, r]
  case case3 s p c cs hc r e hs =>
    subst hp
    have hf := h.number (r := r) ⟨c, List.mem_cons_self, ne_point_of_isNumeric hc⟩
    exact .of_error (hs ▸ hf) (ofText_run hc cs)
  case case4 s p c cs hc s' hs ih =>
    subst hp
    have hf := h.mark c
    rw [hs] at hf
    refine .of_ok hf.left (ih hf.right ?_) (ofText_mark (Bool.not_eq_true _ ▸ hc) cs) ?_
    · simp [text]
    · simp [text]
  case case5 s p c cs hc e hs =>
    subst hp
    exact .of_error (hs ▸ h.mark c) (ofText_mark (Bool.not_eq_true _ ▸ hc) cs)

theorem ends_run (source : List Char) : Ends [] source (run {} 0 source) :=
  reads_nil.run source

end Scan

-- What a text has if reading it results in tokens or in a fault.
def Judges (source : List Char) : Except (Spanned Fault) (List (Spanned Token)) → Prop
  | .ok _ => InLanguage source
  | .error e => FirstDefect source e

theorem judges_tokenize (source : List Char) : Judges source (tokenize source) := by
  have h := Scan.ends_run source
  unfold tokenize
  split
  case h_1 s hs =>
    rw [hs] at h
    obtain ⟨hu, hr⟩ := h
    have hr := hr.unclosed
    unfold Scan.finish
    split
    case h_1 hn => exact .of_unbroken hu (hn ▸ hr).balanced
    case h_2 place outer hn =>
      obtain ⟨p, hp, e⟩ := (hn ▸ hr).isLastUnmatched
      exact e ▸ .unmatched hu hp
  case h_2 e he =>
    rw [he] at h
    exact .broken h

-- The texts of the language are the ones that have tokens, and the fault of any other text is its
-- first defect.
theorem tokenize_iff (source : List Char) :
    ((∃ tokens, tokenize source = .ok tokens) ↔ InLanguage source) ∧
    ∀ e, tokenize source = .error e ↔ FirstDefect source e := by
  have h := judges_tokenize source
  match ht : tokenize source with
  | .ok tokens =>
    rw [ht] at h
    have hd (e) : ¬FirstDefect source e := InLanguage.not_firstDefect h
    exact ⟨⟨fun _ => h, fun _ => ⟨tokens, rfl⟩⟩, fun e => ⟨nofun, fun he => absurd he (hd e)⟩⟩
  | .error e =>
    rw [ht] at h
    have hl : ¬InLanguage source := fun hl => hl.not_firstDefect h
    refine ⟨⟨nofun, fun h' => absurd h' hl⟩, fun e' => ⟨?mp, ?mpr⟩⟩
    case mp => exact fun he => Except.error.inj he ▸ h
    case mpr => exact fun he => congrArg Except.error (FirstDefect.unique h he)

end Abacus
