import Abacus.Proofs.Tiling
import Abacus.Proofs.Unplaced

namespace Abacus

open Piece

-- The text with a `*` between each closing bracket and an operand right behind it.
def writeOut : List Char → List Char
  | [] => []
  | c :: s =>
    if c = ')' ∧ s.head?.any startsOperand then c :: '*' :: writeOut s else c :: writeOut s

-- As `writeOut`, for the pieces of a text.
def Piece.writeOut : List Piece → List Piece
  | [] => []
  | p :: ps =>
    if p = mark ')' ∧ ps.head?.any startsOperand then p :: mark '*' :: writeOut ps
    else p :: writeOut ps

theorem head?_writeOut (s : List Char) : (writeOut s).head? = s.head? := by
  cases s
  case nil => rfl
  case cons =>
    unfold writeOut
    split <;> rfl

theorem writeOut_cons {c : Char} (h : c ≠ ')') (s : List Char) :
    writeOut (c :: s) = c :: writeOut s := by
  rw [writeOut, if_neg fun hc => h hc.left]

theorem writeOut_append {r : List Char} (h : ')' ∉ r) (s : List Char) :
    writeOut (r ++ s) = r ++ writeOut s := by
  induction r
  case nil => rfl
  case cons c r ih =>
    rw [List.mem_cons, not_or] at h
    rw [List.cons_append, writeOut_cons (Ne.symm h.left), ih h.right, List.cons_append]

theorem head?_ofText_any (s : List Char) :
    (ofText s).head?.any Piece.startsOperand = s.head?.any startsOperand := by
  cases s
  case nil => simp [ofText_nil]
  case cons c s =>
    have ⟨p, ps, hp, ho⟩ := exists_ofText_cons c s
    simp [hp, ho]

theorem ofText_writeOut (s : List Char) : ofText (writeOut s) = Piece.writeOut (ofText s) := by
  fun_induction pieces 0 s
  case case1 => simp [writeOut, ofText_nil, Piece.writeOut]
  case case2 c s hc r ih =>
    have hr (a) (ha : a ∈ s.takeWhile continuesRun) : continuesRun a := List.mem_takeWhile_imp ha
    have hb : ')' ∉ c :: s.takeWhile continuesRun := by
      intro hb
      have hn : ¬continuesRun ')' := by decide +kernel
      cases List.mem_cons.mp hb
      case inl e =>
        subst e
        exact absurd hc (by decide +kernel)
      case inr hb => exact hn (hr _ hb)
    have hs : Stops (writeOut (s.dropWhile continuesRun)) := by
      rw [Stops, head?_writeOut]
      exact stops_dropWhile s
    have e : writeOut (c :: s) =
        c :: (s.takeWhile continuesRun ++ writeOut (s.dropWhile continuesRun)) := by
      rw [← List.cons_append, ← writeOut_append hb, List.cons_append,
        List.takeWhile_append_dropWhile]
    rw [e, ofText_run hc, takeWhile_append_stops hr hs, dropWhile_append_stops hr hs, ih,
      ofText_run hc, Piece.writeOut, if_neg (by simp)]
  case case3 c s hc ih =>
    have hc := Bool.not_eq_true _ ▸ hc
    rw [ofText_mark hc, Piece.writeOut, head?_ofText_any, writeOut]
    simp only [mark.injEq]
    split
    case isTrue => rw [ofText_mark hc, ofText_mark (by decide +kernel), ih]
    case isFalse => rw [ofText_mark hc, ih]

namespace Scan

variable {s s' : Scan} {p : Piece}

theorem imply_imply (s : Scan) (m n : Nat) : (s.imply m).imply n = s.imply m := by
  unfold imply
  split
  case isTrue => simp
  case isFalse => rfl

-- What starts an operand brings the implied star with it.
theorem step_imply (h : p.startsOperand) (s : Scan) :
    (s.imply 0).step (.bare p) = s.step (.bare p) := by
  have hi := s.imply_imply 0 0
  cases p
  case run r =>
    change (s.imply 0).number r (.before 0) = s.number r (.before 0)
    simp only [number, Span.before, hi]
  case mark c =>
    have hc : c = '(' := by simpa [Piece.startsOperand] using h
    subst hc
    change Except.ok ((s.imply 0).opening (.before 0)) = .ok (s.opening (.before 0))
    simp only [opening, Span.before, hi]

-- Behind a closing bracket, a star that is written does the same as one that is implied.
theorem step_star (h : s.last? = some .closing) :
    s.step (.bare (.mark '*')) = .ok (s.imply 0) := by
  change s.operator .times (.before 0) = .ok (s.imply 0)
  rw [operator, imply, h]
  rfl

theorem foldlM_writeOut (ps : List Piece) (s : Scan) :
    ((Piece.writeOut ps).map .bare).foldlM step s = (ps.map .bare).foldlM step s := by
  induction ps generalizing s
  case nil => rfl
  case cons p ps ih =>
    unfold Piece.writeOut
    split
    case isFalse =>
      simp only [List.map_cons, List.foldlM_cons, ih]
    case isTrue h =>
      obtain ⟨hp, ho⟩ := h
      simp only [List.map_cons, List.foldlM_cons, ih]
      cases hs : s.step (.bare p)
      case error e => rfl
      case ok s₁ =>
        obtain ⟨t, hn, ht⟩ := step_ok hs
        have hl := last?_of_tokens ht
        rw [hn.eq_closing_iff.mp hp] at hl
        obtain ⟨q, hq, hqo⟩ := (Option.any_eq_true _ _).mp ho
        obtain ⟨ps', rfl⟩ := List.head?_eq_some_iff.mp hq
        have hstar : s₁.step (.bare (.mark '*')) = .ok (s₁.imply 0) := step_star hl
        calc s₁.step (.bare (.mark '*')) >>= ((q :: ps').map .bare).foldlM step
          _ = ((q :: ps').map .bare).foldlM step (s₁.imply 0) := by rw [hstar]; rfl
          _ = ((q :: ps').map .bare).foldlM step s₁ := by
            rw [List.map_cons, List.foldlM_cons, List.foldlM_cons, step_imply hqo]

end Scan

theorem unplaced_tokenize_writeOut (source : List Char) :
    unplaced (tokenize (writeOut source)) = unplaced (tokenize source) := by
  rw [unplaced_tokenize, unplaced_tokenize, ofText_writeOut, tokenizePieces, tokenizePieces,
    Scan.foldlM_writeOut]

theorem not_pair_infix_writeOut {c : Char} (h : startsOperand c) (s : List Char) :
    ¬[')', c] <:+: writeOut s := by
  induction s
  case nil => simp [writeOut]
  case cons a s ih =>
    unfold writeOut
    split
    case isTrue ha =>
      simp only [pair_infix_cons_iff, ih, List.head?_cons, Option.mem_some_iff]
      rintro (⟨_, e⟩ | ⟨e, _⟩ | h)
      · exact absurd (e ▸ h) (by decide +kernel)
      · exact absurd e (by decide)
      · exact h
    case isFalse ha =>
      rw [pair_infix_cons_iff, head?_writeOut]
      rintro (⟨e, hc⟩ | hi)
      · exact ha ⟨e.symm, (Option.any_eq_true _ _).mpr ⟨c, hc, h⟩⟩
      · exact ih hi

theorem not_isJuxtaposed_writeOut (s : List Char) (n : Nat) : ¬IsJuxtaposed (writeOut s) n := by
  rintro ⟨a, c, b, e, _, hc⟩
  exact not_pair_infix_writeOut hc s ⟨a, b, by simp [e]⟩

-- With the implied stars written out a text has the same value, or fails for the same reason. It
-- has the same tokens, and none of them is implied.
theorem calculate_writeOut (calculator : Calculator) (source : String) :
    calculator.calculate (.ofList (writeOut source.toList)) = calculator.calculate source ∧
    ∀ tokens, tokenize source.toList = .ok tokens →
      ∃ tokens', tokenize (writeOut source.toList) = .ok tokens' ∧
        tokens'.map (·.value) = tokens.map (·.value) ∧ ∀ t ∈ tokens', ¬t.span.IsEmpty := by
  have hu := unplaced_tokenize_writeOut source.toList
  constructor
  case left => rw [calculate_eq_unplaced, calculate_eq_unplaced, String.toList_ofList, hu]
  case right =>
    intro tokens h
    have ht := unplaced_tokenize_eq_ok_iff.mpr ⟨tokens, h, rfl⟩
    have ⟨tokens', h', hv⟩ := unplaced_tokenize_eq_ok_iff.mp (hu.trans ht)
    refine ⟨tokens', h', hv, fun t ht he => ?_⟩
    have ⟨n, hn⟩ := (laid_of_tokenize h').exists_isJuxtaposed ht he
    exact not_isJuxtaposed_writeOut source.toList n hn

theorem writeOut_juxtaposed : ∃ tokens, tokenize "(2)3".toList = .ok tokens ∧
    ∃ tokens', tokenize "(2)*3".toList = .ok tokens' ∧
      tokens'.map (·.value) = tokens.map (·.value) ∧ ∀ t ∈ tokens', ¬t.span.IsEmpty := by
  let tokens : List (Spanned Token) :=
    [⟨.opening, 0, 1⟩, ⟨.number 2.0, 1, 2⟩, ⟨.closing, 2, 3⟩, ⟨.operator .times, 3, 3⟩,
      ⟨.number 3.0, 3, 4⟩]
  have h : tokenize "(2)3".toList = .ok tokens := by decide +kernel
  have hw : writeOut "(2)3".toList = "(2)*3".toList := by decide +kernel
  exact ⟨tokens, h, hw ▸ (calculate_writeOut {} "(2)3").right tokens h⟩

end Abacus
