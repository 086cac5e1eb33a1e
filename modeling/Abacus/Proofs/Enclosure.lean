import Abacus.Proofs.DepthLimit

namespace Abacus

-- What the text comes to once brackets are put around it.
inductive Enclosed : Except (Spanned Fault) Float → Except (Spanned Fault) Float → Prop
  | value {x : Float} : Enclosed (.ok x) (.ok (0.0 + x * 1.0))
  | tooDeep {p : Nat} :
    Enclosed (.error ⟨.nestedTooDeeply, .single p⟩) (.error ⟨.nestedTooDeeply, .single (p + 1)⟩)
  | fault {e : Spanned Fault} :
    e.value ≠ .nestedTooDeeply → Enclosed (.error e) (.error ⟨.invalidExpression, .single 0⟩)

theorem Span.keepsCovers_shift (n : Nat) : KeepsCovers (·.shift n) :=
  fun s t => s.shift_cover t n

theorem Span.single_shift (p n : Nat) : (single p).shift n = single (p + n) := by
  simp [single, shift, Nat.add_right_comm]

namespace Phrase

variable {φ : Phrase} {last : Option Token} {p : Nat} {place : Span}

theorem placed_shift (φ : Phrase) (last : Option Token) (p n : Nat) :
    (φ.placed last p).map (.move (·.shift n)) = φ.placed last (p + n) := by
  have hs (v : Token) (place : Span) :
      Spanned.move (·.shift n) ⟨v, place⟩ = ⟨v, place.shift n⟩ := rfl
  have hi (p) : (Span.before p).shift n = .before (p + n) := rfl
  have hp (p k) := Nat.add_right_comm p n k
  induction φ generalizing last p
  case nil => rfl
  case operator o rest ih => simp [placed, hs, Span.single_shift, ih, hp]
  case literal l rest ih =>
    have hl : Span.shift ⟨p, p + l.text.length⟩ n = ⟨p + n, p + l.text.length + n⟩ := rfl
    simp [placed, hs, hi, hl, ih, hp]
  case group inner rest ih ih' =>
    simp [placed, hs, hi, Span.single_shift, ih, ih', hp]

-- Behind an opening bracket a phrase has the tokens that it has at the start of a text.
theorem placed_opening (φ : Phrase) (p : Nat) : φ.placed (some .opening) p = φ.placed none p := by
  cases φ <;> rfl

theorem exists_single (h : ⟨.opening, place⟩ ∈ φ.placed last p) : ∃ q, place = .single q := by
  induction φ generalizing last p
  case nil => cases h
  case operator o rest ih => exact ih (by simpa [placed] using h)
  case literal l rest ih => exact ih (by simpa [placed] using h)
  case group inner rest ih ih' =>
    simp [placed] at h
    rcases h with rfl | h | h
    case inl => exact ⟨p, rfl⟩
    case inr.inl => exact ih h
    case inr.inr => exact ih' h

-- What the phrase comes to is seen from outside of a group that starts in front of it.
theorem evaluate_group (hn : φ ≠ nil) (limit : Nat) :
    evaluate (limit + 1) ((group φ nil).placed none 0) =
      ((evaluate limit (φ.placed none 0)).mapError (.move (·.shift 1))).mapError
          (Fault.outside (.single 0)) >>= fun x => .ok (0.0 + x * 1.0) := by
  have hm : evaluate limit (φ.placed (some .opening) 1) =
      (evaluate limit (φ.placed none 0)).mapError (.move (·.shift 1)) := by
    have hne : φ.placed none 0 ≠ [] := fun h => hn (placed_eq_nil_iff.mp h)
    rw [placed_opening, ← evaluate_move (Span.keepsCovers_shift 1) limit hne, placed_shift]
  have hl : evaluate limit (φ.placed (some .opening) 1) =
      φ.layer limit (some .opening) 1 >>= levelValue :=
    evaluate_placed hn limit
  rw [← hm, hl, evaluate_placed (by simp), layer]
  cases (φ.layer limit (some .opening) 1 >>= levelValue).mapError (Fault.outside (.single 0)) <;>
    rfl

end Phrase

theorem fault_of_evaluate {source : List Char} {tokens : List (Spanned Token)} {limit : Nat}
    {e : Spanned Fault} (ht : tokenize source = .ok tokens)
    (h : evaluate limit tokens = .error e) :
    (∃ p, e = ⟨.nestedTooDeeply, .single p⟩) ∨ ¬e.value.AboutBrackets := by
  obtain ⟨value, place⟩ := e
  by_cases hv : value = .nestedTooDeeply
  case pos =>
    subst hv
    obtain ⟨before, behind, rfl, _⟩ := evaluate_eq_tooDeep_iff.mp h
    obtain ⟨φ, _, _, he⟩ := exists_placed ht
    have hm : ⟨.opening, place⟩ ∈ φ.placed none 0 := he ▸ by simp
    obtain ⟨p, rfl⟩ := Phrase.exists_single hm
    exact .inl ⟨p, rfl⟩
  case neg =>
    refine .inr fun hb => ?_
    rcases hb with hb | rfl
    case inl => exact hv hb
    case inr =>
      have hs : Settles tokens (.error ⟨.unpairedBracket, place⟩) :=
        h ▸ settles_evaluate limit tokens
      exact hs.not_balanced (balanced_of_tokenize ht)

-- The limit is one higher, so that the brackets leave as much room for groups as there was.
theorem evaluate_enclosed (m : Nat) {source : String} {tokens : List (Spanned Token)}
    (hn : source ≠ "") (h : tokenize source.toList = .ok tokens) :
    Enclosed (Calculator.evaluate ⟨m⟩ source)
      (Calculator.evaluate ⟨m + 1⟩ ("(" ++ source ++ ")")) := by
  obtain ⟨φ, ht, hp, rfl⟩ := exists_placed h
  have hφ : φ ≠ .nil := by
    rintro rfl
    exact hn (String.toList_eq_nil_iff.mp ht.symm)
  have hg : (Phrase.group φ .nil).Proper none := ⟨Phrase.proper_opening.mpr hp, trivial⟩
  have htext : ("(" ++ source ++ ")").toList = (Phrase.group φ .nil).text := by
    simp [Phrase.text, ht]
  have hi : Calculator.evaluate ⟨m⟩ source = evaluate m (φ.placed none 0) := by
    simp only [Calculator.evaluate, h]
  have ho : Calculator.evaluate ⟨m + 1⟩ ("(" ++ source ++ ")") =
      evaluate (m + 1) ((Phrase.group φ .nil).placed none 0) := by
    simp only [Calculator.evaluate, htext, Phrase.tokenize_eq_placed hg]
  rw [hi, ho, Phrase.evaluate_group hφ]
  cases he : evaluate m (φ.placed none 0)
  case ok x => exact .value
  case error e =>
    rcases fault_of_evaluate h he with ⟨p, rfl⟩ | hv
    case inl => exact .tooDeep
    case inr =>
      have hf := Fault.outside_of_not_aboutBrackets (e := e.move (·.shift 1)) hv (.single 0)
      have hv : e.value ≠ .nestedTooDeeply := fun h => hv (.inl h)
      simpa [Except.mapError, Bind.bind, Except.bind, hf] using Enclosed.fault hv

-- The inner brackets need the room that the outer ones leave.
theorem evaluate_enclosed_juxtaposed :
    let tokens : List (Spanned Token) :=
      [⟨.number 2.0, 0, 1⟩, ⟨.opening, 1, 2⟩, ⟨.number 3.0, 2, 3⟩, ⟨.closing, 3, 4⟩]
    "2(3)" ≠ "" ∧ tokenize "2(3)".toList = .ok tokens ∧
      (Calculator.evaluate ⟨0⟩ "2(3)" = .error ⟨.nestedTooDeeply, .single 1⟩ ∧
        Enclosed (.error ⟨.nestedTooDeeply, .single 1⟩)
          (Calculator.evaluate ⟨1⟩ ("(" ++ "2(3)" ++ ")"))) ∧
      Calculator.evaluate ⟨1⟩ "2(3)" = .ok 5.0 ∧
        Enclosed (.ok 5.0) (Calculator.evaluate ⟨2⟩ ("(" ++ "2(3)" ++ ")")) := by
  intro tokens
  have hn : "2(3)" ≠ "" := by decide
  have ht : tokenize "2(3)".toList = .ok tokens := by decide +kernel
  have low : Calculator.evaluate ⟨0⟩ "2(3)" = .error ⟨.nestedTooDeeply, .single 1⟩ := by
    decide +kernel
  have high : Calculator.evaluate ⟨1⟩ "2(3)" = .ok 5.0 := by decide +kernel
  exact ⟨hn, ht, ⟨low, low ▸ evaluate_enclosed 0 hn ht⟩, high, high ▸ evaluate_enclosed 1 hn ht⟩

end Abacus
