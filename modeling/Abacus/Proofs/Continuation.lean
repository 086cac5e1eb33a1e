import Abacus.Proofs.NumericRuns
import Mathlib.Data.Set.Card

namespace Abacus

open Piece

-- The fault is that of a bracket which is still open where the text ends.
structure EndsOpen (source : List Char) (e : Spanned Fault) : Prop where
  fault   : e.value = .unpairedBracket
  bracket : source[e.span.start]? = some '('

-- The second fault is the first one, found in a text that goes on behind `n`.
structure Persists (n : Nat) (e e' : Spanned Fault) : Prop where
  fault : e'.value = e.value
  start : e'.span.start = e.span.start
  stop  : e'.span.stop = e.span.stop ∨
    e.value = .unreadableNumber ∧ e.span.stop = n ∧ e.span.stop ≤ e'.span.stop

variable {source before a b t cs r : List Char} {s s' : Scan} {p q n : Nat} {e : Spanned Fault}
  {ps : List Piece} {c : Char}

theorem Persists.refl (n : Nat) (e : Spanned Fault) : Persists n e e where
  fault := rfl
  start := rfl
  stop  := .inl rfl

theorem isRun_cons (h : Unicode.isNumeric c) (cs : List Char) :
    IsRun [] (c :: cs.takeWhile continuesRun) (cs.dropWhile continuesRun) where
  numeric  := ⟨c, rfl, h⟩
  whole d hd := by
    rcases List.mem_cons.mp hd with rfl | hd
    case inl => simp [continuesRun, h]
    case inr => exact List.mem_takeWhile_imp hd
  front    := nofun
  behind   := stops_dropWhile cs

theorem IsRun.append (h : IsRun a r b) (hb : b ≠ []) (more : List Char) : IsRun a r (b ++ more) := by
  obtain ⟨c, b, rfl⟩ := List.exists_cons_of_ne_nil hb
  exact { h with behind := h.behind }

namespace Scan

-- Reading does not look past the end of a text, except for how far its last run goes.
theorem run_continued (h : s.run p cs = .error e) (more : List Char) :
    ∃ e', s.run p (cs ++ more) = .error e' ∧ Persists (p + cs.length) e e' := by
  fun_induction run s p cs
  case case1 => cases h
  case case2 s p c cs hc r s' hs ih =>
    have hr := isRun_cons hc cs
    have ht : cs.dropWhile continuesRun ≠ [] := by
      intro ht
      rw [ht, run] at h
      cases h
    have hl : r ++ cs.dropWhile continuesRun = c :: cs := by simp [r]
    obtain ⟨e', he, hp⟩ := ih h
    refine ⟨e', ?_, ?_⟩
    · rw [← hl, List.append_assoc, run_numericRun (hr.append ht more), hs]
      exact he
    · rwa [Nat.add_assoc, ← List.length_append, hl] at hp
  case case3 s p c cs hc r e hs =>
    cases h
    have hr := isRun_cons hc cs
    have hl : r ++ cs.dropWhile continuesRun = c :: cs := by simp [r]
    obtain ⟨hn, rfl⟩ :=
      (number_eq_error_iff ⟨c, List.mem_cons_self, ne_point_of_isNumeric hc⟩).mp hs
    by_cases ht : cs.dropWhile continuesRun = []
    case neg =>
      rw [← hl, List.append_assoc]
      exact ⟨_, run_unreadable (hr.append ht more) hn s p, .refl ..⟩
    case pos =>
      -- The run takes in what it can of the further text, and is not readable for that.
      rw [ht, List.append_nil] at hl
      have hw := List.dropWhile_eq_nil_iff.mp ht
      have hr' : IsRun [] (r ++ more.takeWhile continuesRun) (more.dropWhile continuesRun) := by
        have hr' := isRun_cons hc (cs ++ more)
        rw [List.takeWhile_append_of_pos hw, List.dropWhile_append_of_pos hw] at hr'
        exact hl ▸ hr'
      have he := run_unreadable hr' (fun h => hn h.of_append) s p
      rw [List.append_assoc, List.takeWhile_append_dropWhile, hl] at he
      exact ⟨_, he, rfl, rfl, .inr ⟨rfl, hl ▸ rfl, by simp [hl]⟩⟩
  case case4 s p c cs hc s' hs ih =>
    obtain ⟨e', he, hp⟩ := ih h
    refine ⟨e', ?_, by simpa [Nat.add_assoc, Nat.add_comm 1] using hp⟩
    rw [List.cons_append, run_mark (Bool.not_eq_true _ ▸ hc), hs]
    exact he
  case case5 s p c cs hc e' hs =>
    cases h
    refine ⟨e, ?_, .refl ..⟩
    rw [List.cons_append, run_mark (Bool.not_eq_true _ ▸ hc), hs]

theorem exists_closed (s : Scan) (p : Nat) :
    ∃ s', s.run p (List.replicate s.unclosed.length ')') = .ok s' ∧ s'.unclosed = [] := by
  induction hu : s.unclosed generalizing s p
  case nil => exact ⟨s, run.eq_1 .., hu⟩
  case cons place outer ih =>
    rw [List.length_cons, List.replicate_succ, run_closing hu]
    exact ih _ _ rfl

end Scan

-- A closing bracket without a partner stands at its own place.
theorem Piece.FirstBreak.closing (h : FirstBreak before ps e) (he : e.value = .unpairedBracket) :
    (before ++ texts ps)[e.span.start]? = some ')' := by
  induction h
  case head hb =>
    cases hb <;> cases he
    simp [texts, text]
  case tail ih => simpa [texts] using ih he

theorem Unclosed.ncard_eq {places : List Span} (h : Unclosed places source) :
    {p | IsUnmatched source p}.ncard = places.length := by
  induction h
  case nil t hb =>
    have he : {p | IsUnmatched t p} = ∅ :=
      Set.eq_empty_iff_forall_notMem.mpr fun p hp => hp.not_balanced hb
    rw [he, Set.ncard_empty, List.length_nil]
  case cons outer a t _ ht ih =>
    have he : {p | IsUnmatched (a ++ '(' :: t) p} = insert a.length {p | IsUnmatched a p} :=
      Set.ext fun p => IsUnmatched.append_cons_iff ht
    have hn : a.length ∉ {p | IsUnmatched a p} := fun h => lt_irrefl _ h.lt_length
    have hf : {p | IsUnmatched a p}.Finite :=
      (Set.finite_lt_nat a.length).subset fun p h => h.lt_length
    rw [he, Set.ncard_insert_of_notMem hn hf, ih, List.length_cons]

-- The only faults that are not found on the way are those of brackets left open.
theorem endsOpen_iff (h : tokenize source = .error e) :
    EndsOpen source e ↔ ∃ s, Scan.run {} 0 source = .ok s := by
  have hj := Scan.ends_run source
  rw [tokenize_eq_run, Except.bind_eq_error_iff] at h
  rcases h with h | ⟨s, h, hf⟩ <;> rw [h] at hj ⊢
  case inl =>
    refine ⟨fun ho => ?_, nofun⟩
    have hc := Piece.FirstBreak.closing hj ho.fault
    rw [List.nil_append, texts_ofText, ho.bracket] at hc
    cases hc
  case inr =>
    refine ⟨fun _ => ⟨s, rfl⟩, fun _ => ?_⟩
    obtain ⟨_, hr⟩ := hj
    have hu := hr.unclosed
    unfold Scan.finish at hf
    split at hf <;> cases hf
    case h_2 place outer he =>
      obtain ⟨p, hp, rfl⟩ := (he ▸ hu).isLastUnmatched
      exact ⟨rfl, hp.bracket⟩

theorem stops_closings (n : Nat) : Stops (List.replicate n ')') := by
  cases n
  case zero => exact stops_nil
  case succ n => exact Phrase.stops_of_mem_marks (by decide) _

theorem tokenize_continued (h : tokenize source = .error e) :
    (¬EndsOpen source e →
      ∀ more, ∃ e', tokenize (source ++ more) = .error e' ∧ Persists source.length e e') ∧
    (EndsOpen source e →
      ∃ tokens, tokenize
        (source ++ List.replicate {p | IsUnmatched source p}.ncard ')') = .ok tokens) := by
  refine ⟨fun ho more => ?found, fun ho => ?leftOpen⟩
  case found =>
    rw [endsOpen_iff h] at ho
    rw [tokenize_eq_run, Except.bind_eq_error_iff] at h
    have hr := h.resolve_right fun ⟨s, hs, _⟩ => ho ⟨s, hs⟩
    obtain ⟨e', he, hp⟩ := Scan.run_continued hr more
    exact ⟨e', by rw [tokenize_eq_run, he]; rfl, Nat.zero_add source.length ▸ hp⟩
  case leftOpen =>
    obtain ⟨s, hs⟩ := (endsOpen_iff h).mp ho
    have hr := Scan.ends_run source
    rw [hs] at hr
    obtain ⟨s', hs', hu⟩ := s.exists_closed source.length
    refine ⟨s'.tokens.reverse, ?_⟩
    have hk : {p | IsUnmatched source p}.ncard = s.unclosed.length := hr.right.unclosed.ncard_eq
    rw [hk, tokenize_eq_run, Scan.run_append (.inr (stops_closings _)), hs, Nat.zero_add]
    simp only [Bind.bind, Except.bind, hs', Scan.finish, hu]

-- The run at the end of one text can only get longer, and two brackets close the other one.
theorem tokenize_continued_points :
    let points : Spanned Fault := ⟨.unreadableNumber, 1, 4⟩
    let unpaired : Spanned Fault := ⟨.unpairedBracket, 1, 2⟩
    (tokenize "(1..".toList = .error points ∧ ¬EndsOpen "(1..".toList points ∧
      ∀ more, ∃ e', tokenize ("(1..".toList ++ more) = .error e' ∧ Persists 4 points e') ∧
    tokenize "((1".toList = .error unpaired ∧ EndsOpen "((1".toList unpaired ∧
      {p | IsUnmatched "((1".toList p}.ncard = 2 ∧
      ∃ tokens, tokenize ("((1".toList ++ List.replicate 2 ')') = .ok tokens := by
  intro points unpaired
  have hp : tokenize "(1..".toList = .error points := by decide +kernel
  have hu : tokenize "((1".toList = .error unpaired := by decide +kernel
  have hn : ¬EndsOpen "(1..".toList points := fun h => nomatch h.fault
  have ho : EndsOpen "((1".toList unpaired := ⟨rfl, rfl⟩
  have hl : Unclosed [.single 1, .single 0] "((1".toList :=
    .cons (a := ['(']) (.cons (a := []) (.nil .nil) .nil) (.single (by decide) (by decide))
  refine ⟨⟨hp, hn, (tokenize_continued hp).left hn⟩, hu, ho, hl.ncard_eq, ?_⟩
  have h := (tokenize_continued hu).right ho
  rwa [hl.ncard_eq] at h

end Abacus
