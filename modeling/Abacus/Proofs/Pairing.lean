import Abacus.Proofs.Replacement
import Abacus.Proofs.WellFormed

namespace Abacus

namespace Machine

variable {m m' : Machine} {limit : Nat} {t : Spanned Token}
  {tokens front : List (Spanned Token)} {e : Spanned Fault}

-- Why the machine does not go on with the token.
inductive Refuses (limit : Nat) (m : Machine) : Spanned Token → Spanned Fault → Prop
  | tooDeep {place : Span} :
    m.groups.length = limit → Refuses limit m ⟨.opening, place⟩ ⟨.nestedTooDeeply, place⟩
  | surplus {place : Span} :
    m.groups = [] → Refuses limit m ⟨.closing, place⟩ ⟨.unpairedBracket, place⟩
  | group {g : OpenGroup} {outer : List OpenGroup} {f : Spanned Fault} {place outermost : Span} :
    m.groups = g :: outer → passes g.items.reverse = .error f →
    Refuses limit m ⟨.closing, place⟩ ⟨.invalidExpression, outermost⟩

theorem refuses_of_step (h : m.step limit t = .error e) : m.Refuses limit t e := by
  obtain ⟨value, place⟩ := t
  cases value
  case operator o => cases h
  case number x => cases h
  case opening =>
    simp only [step] at h
    split at h
    case isTrue full =>
      cases h
      exact .tooDeep full
    case isFalse => cases h
  case closing =>
    simp only [step, close] at h
    split at h
    case h_1 hg =>
      cases h
      exact .surplus hg
    case h_2 g outer hg =>
      split at h
      case h_1 => cases h
      case h_2 f hf =>
        cases h
        exact .group hg hf

-- Where the machine fails, it has come up to a token that it does not go on with.
theorem exists_refused (h : m.feed limit tokens = .error e) :
    ∃ front t back m', tokens = front ++ t :: back ∧ m.feed limit front = .ok m' ∧
      m'.Refuses limit t e := by
  induction tokens generalizing m
  case nil => cases h
  case cons t tokens ih =>
    rw [feed_cons, Except.bind_eq_error_iff] at h
    rcases h with h | ⟨m₁, hs, h⟩
    case inl => exact ⟨[], t, tokens, m, rfl, rfl, refuses_of_step h⟩
    case inr =>
      obtain ⟨front, t', back, m', rfl, hf, hr⟩ := ih h
      refine ⟨t :: front, t', back, m', rfl, ?_, hr⟩
      rw [feed_cons, hs]
      exact hf

theorem feed_cons_ok_iff : m.feed limit (t :: tokens) = .ok m' ↔
    ∃ m₁, m.step limit t = .ok m₁ ∧ m₁.feed limit tokens = .ok m' := by
  rw [feed_cons, Except.bind_eq_ok_iff]

theorem feed_append_ok_iff : m.feed limit (front ++ tokens) = .ok m' ↔
    ∃ m₁, m.feed limit front = .ok m₁ ∧ m₁.feed limit tokens = .ok m' := by
  rw [feed, List.foldlM_append, Except.bind_eq_ok_iff]
  rfl

theorem length_groups_add (h : m.feed limit tokens = .ok m') :
    m.groups.length + opened tokens = m'.groups.length + closed tokens := by
  induction tokens generalizing m
  case nil =>
    cases h
    rfl
  case cons t tokens ih =>
    obtain ⟨m₁, hs, hf⟩ := feed_cons_ok_iff.mp h
    have ht := length_groups_step hs
    have hr := ih hf
    simp only [opened_cons, opened_nil, closed_cons, closed_nil] at *
    omega

theorem opened_of_feed (h : feed limit {} tokens = .ok m) :
    opened tokens = m.groups.length + closed tokens := by
  simpa using length_groups_add h

-- Nothing has been closed that was not open.
theorem closed_le_of_feed (h : feed limit {} tokens = .ok m) (hf : front <+: tokens) :
    closed front ≤ opened front := by
  obtain ⟨back, rfl⟩ := hf
  obtain ⟨m₁, h, _⟩ := feed_append_ok_iff.mp h
  have := opened_of_feed h
  omega

end Machine

theorem passes_error {items : List (Spanned Item)} {e : Spanned Fault}
    (h : passes items = .error e) : e.value = .missingOperand ∨ e.value = .divisionByZero :=
  Tally.fault_of_run ((levelValue_eq_passes items).trans h)

-- How the evaluation of tokens ends. The arithmetic outside of all groups comes last.
inductive Settles (tokens : List (Spanned Token)) : Except (Spanned Fault) Float → Prop
  | tooDeep {place : Span} : Settles tokens (.error ⟨.nestedTooDeeply, place⟩)
  | group {place : Span} : Settles tokens (.error ⟨.invalidExpression, place⟩)
  | unpaired {place : Span} :
    ¬Balanced tokens → Settles tokens (.error ⟨.unpairedBracket, place⟩)
  | level {items : List (Spanned Item)} {result : Except (Spanned Fault) Float} :
    Balanced tokens → passes items = result → Settles tokens result

namespace Settles

variable {m m' : Machine} {limit : Nat} {t : Spanned Token}
  {tokens front back : List (Spanned Token)} {e : Spanned Fault}

theorem of_refuses (hf : Machine.feed limit {} front = .ok m) (h : m.Refuses limit t e) :
    Settles (front ++ t :: back) (.error e) := by
  cases h
  case tooDeep => exact .tooDeep
  case group => exact .group
  case surplus place hg =>
    refine .unpaired fun hb => ?_
    have hl : opened front = closed front := by simpa [hg] using Machine.opened_of_feed hf
    have hlt : closed front < opened front := closed_lt_opened rfl hb.prefixes
    omega

theorem of_feed (h : Machine.feed limit {} tokens = .ok m) : Settles tokens m.finish := by
  have hl := Machine.opened_of_feed h
  unfold Machine.finish
  split
  case h_1 hg =>
    exact .level ⟨fun s hs => Machine.closed_le_of_feed h hs, by simpa [hg] using hl⟩ rfl
  case h_2 g outer hg =>
    refine .unpaired fun hb => ?_
    have := hb.total
    simp [hg] at hl
    omega

theorem not_balanced {place : Span} (h : Settles tokens (.error ⟨.unpairedBracket, place⟩)) :
    ¬Balanced tokens := by
  cases h
  case unpaired h => exact h
  case level h => cases passes_error h <;> contradiction

theorem exists_error {result : Except (Spanned Fault) Float} (h : Settles tokens result)
    (hb : ¬Balanced tokens) : ∃ e, result = .error e ∧
      e.value ∈ [.unpairedBracket, .nestedTooDeeply, .invalidExpression] := by
  cases h
  case tooDeep => exact ⟨_, rfl, by simp⟩
  case group => exact ⟨_, rfl, by simp⟩
  case unpaired => exact ⟨_, rfl, by simp⟩
  case level h _ => exact absurd h hb

theorem not_lexical (h : Settles tokens (.error e)) :
    e.value ≠ .foreignCharacter ∧ e.value ≠ .unreadableNumber := by
  cases h
  case level h => cases passes_error h <;> simp_all
  all_goals simp

end Settles

theorem settles_evaluate (limit : Nat) (tokens : List (Spanned Token)) :
    Settles tokens (evaluate limit tokens) := by
  by_cases hn : tokens = []
  case pos =>
    subst hn
    exact .group
  case neg =>
    rw [evaluate_eq_run hn, Machine.run_eq_feed]
    cases h : Machine.feed limit {} tokens
    case ok m => exact .of_feed h
    case error e =>
      obtain ⟨front, t, back, m, rfl, hf, hr⟩ := Machine.exists_refused h
      exact .of_refuses hf hr

theorem Balanced.of_map_value {tokens : List (Spanned Token)}
    (h : Balanced (tokens.map (·.value))) : Balanced tokens := by
  have ho (l : List (Spanned Token)) : opened (l.map (·.value)) = opened l := List.countP_map
  have hc (l : List (Spanned Token)) : closed (l.map (·.value)) = closed l := List.countP_map
  exact ⟨fun s hs => ho s ▸ hc s ▸ h.prefixes _ (hs.map _), ho tokens ▸ hc tokens ▸ h.total⟩

theorem balanced_of_tokenize {source : List Char} {tokens : List (Spanned Token)}
    (h : tokenize source = .ok tokens) : Balanced tokens := by
  obtain ⟨φ, _, _, hv⟩ := exists_phrase h
  exact .of_map_value (hv ▸ φ.balanced_tokens none)

-- Unpaired brackets are not found where there are none, and where there are some the tokens have no
-- value and no fault of arithmetic outside of all groups. The second pass over a level never meets
-- what it can not add up. So what `tokenize` refuses is refused by nothing else.
theorem evaluate_pairing (limit : Nat) (tokens : List (Spanned Token)) :
    (Balanced tokens → ∀ place, evaluate limit tokens ≠ .error ⟨.unpairedBracket, place⟩) ∧
    (¬Balanced tokens → ∃ e, evaluate limit tokens = .error e ∧
      e.value ∈ [.unpairedBracket, .nestedTooDeeply, .invalidExpression]) ∧
    (∀ e, evaluate limit tokens = .error e →
      e.value ≠ .foreignCharacter ∧ e.value ≠ .unreadableNumber) ∧
    (∀ items place, passes items ≠ .error ⟨.foreignCharacter, place⟩) ∧
    ∀ (calculator : Calculator) (source : String) (e : Spanned Fault),
      calculator.evaluate source = .error e →
      e.value ∈ [.unpairedBracket, .foreignCharacter, .unreadableNumber] →
      tokenize source.toList = .error e := by
  have hs := settles_evaluate limit tokens
  refine ⟨?balanced, hs.exists_error, fun e he => (he ▸ hs).not_lexical, ?sum, ?source⟩
  case balanced => exact fun hb place he => (he ▸ hs).not_balanced hb
  case sum =>
    intro items place h
    cases passes_error h <;> contradiction
  case source =>
    -- Tokens of a text are balanced.
    intro calculator source e he hv
    rw [Calculator.evaluate] at he
    cases ht : tokenize source.toList
    case error e' =>
      rw [ht] at he
      exact congrArg Except.error (Except.error.inj he)
    case ok tokens' =>
      rw [ht] at he
      have hs : Settles tokens' (.error e) := he ▸ settles_evaluate calculator.maxDepth tokens'
      obtain ⟨value, place⟩ := e
      simp only [List.mem_cons, List.not_mem_nil, or_false] at hv
      rcases hv with rfl | hv | hv
      · exact absurd (balanced_of_tokenize ht) hs.not_balanced
      · exact absurd hv hs.not_lexical.left
      · exact absurd hv hs.not_lexical.right

-- One list pairs its brackets. The other one closes what is not open, behind a division by zero.
theorem evaluate_pairing_surplus :
    let paired : List (Spanned Token) :=
      [⟨.number 1.0, 0, 1⟩, ⟨.operator .divide, 1, 2⟩, ⟨.opening, 2, 3⟩, ⟨.closing, 3, 4⟩]
    let surplus : List (Spanned Token) := paired ++ [⟨.closing, 4, 5⟩]
    let e : Spanned Fault := ⟨.unpairedBracket, 4, 5⟩
    let text : Spanned Fault := ⟨.foreignCharacter, 1, 2⟩
    (Balanced paired ∧ ∀ place, evaluate 1 paired ≠ .error ⟨.unpairedBracket, place⟩) ∧
    (¬Balanced surplus ∧ ∃ e, evaluate 1 surplus = .error e ∧
      e.value ∈ [.unpairedBracket, .nestedTooDeeply, .invalidExpression]) ∧
    (evaluate 1 surplus = .error e ∧
      e.value ≠ .foreignCharacter ∧ e.value ≠ .unreadableNumber) ∧
    (∀ items place, passes items ≠ .error ⟨.foreignCharacter, place⟩) ∧
    Calculator.evaluate ⟨1⟩ "1a" = .error text ∧
      text.value ∈ [.unpairedBracket, .foreignCharacter, .unreadableNumber] ∧
      tokenize "1a".toList = .error text := by
  intro paired surplus e text
  have hb : Balanced paired := by
    let o : Spanned Token := ⟨.opening, 2, 3⟩
    let c : Spanned Token := ⟨.closing, 3, 4⟩
    have hg : Balanced [o, c] := Balanced.group (o := o) (c := c) rfl rfl .nil
    have hn : Balanced (paired.take 2) := (Balanced.single rfl rfl).append (.single rfl rfl)
    exact hn.append hg
  have hs : ¬Balanced surplus := fun h => absurd h.total (by decide)
  have he : evaluate 1 surplus = .error e := by decide +kernel
  have hc : Calculator.evaluate ⟨1⟩ "1a" = .error text := by decide +kernel
  have hk : text.value ∈ [.unpairedBracket, .foreignCharacter, .unreadableNumber] := by simp [text]
  obtain ⟨paired_ok, -, -, sum, -⟩ := evaluate_pairing 1 paired
  obtain ⟨-, surplus_error, lexical, -, source⟩ := evaluate_pairing 1 surplus
  exact ⟨⟨hb, paired_ok hb⟩, ⟨hs, surplus_error hs⟩, ⟨he, lexical e he⟩, sum, hc, hk,
    source ⟨1⟩ "1a" text hc hk⟩

end Abacus
