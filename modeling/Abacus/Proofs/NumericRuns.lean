import Abacus.Proofs.Cuts
import Abacus.Proofs.NearestDouble
import Abacus.Proofs.Replacement
import Abacus.Proofs.Tiling

namespace Abacus

open Binary64 Decimal

-- Reading the text comes with the scan `s` to the numeric run `r`, which stands between `a` and
-- `b`.
structure Scan.Meets (s : Scan) (source a r b : List Char) : Prop where
  text  : source = a ++ (r ++ b)
  isRun : IsRun a r b
  read  : Scan.run {} 0 a = .ok s

-- The run `r` behind `a` gets the token of the number `x`, and keeps it if the text has tokens.
structure BecomesNumber (source a r : List Char) (x : Float) : Prop where
  pushed : ∃ s, Scan.run {} 0 (a ++ r) = .ok s ∧
    s.tokens.head? = some ⟨.number x, a.length, a.length + r.length⟩
  kept   : ∀ tokens, tokenize source = .ok tokens →
    ⟨.number x, a.length, a.length + r.length⟩ ∈ tokens

variable {source a r b cs : List Char} {s s' : Scan} {p : Nat} {e : Spanned Fault} {x : Float}

theorem IsRun.exists_ne_point (h : IsRun a r b) : ∃ c ∈ r, c ≠ '.' :=
  have ⟨c, hc, hn⟩ := h.numeric
  ⟨c, List.mem_of_mem_head? hc, ne_point_of_isNumeric hn⟩

namespace Scan

theorem run_numericRun (h : IsRun a r b) (s : Scan) (p : Nat) :
    s.run p (r ++ b) = s.number r ⟨p, p + r.length⟩ >>= fun s => s.run (p + r.length) b := by
  obtain ⟨c, hc, hn⟩ := h.numeric
  obtain ⟨r, rfl⟩ := List.head?_eq_some_iff.mp hc
  have hr (d) (hd : d ∈ r) := h.whole d (List.mem_cons_of_mem c hd)
  rw [List.cons_append, run, if_pos hn, takeWhile_append_stops hr h.behind,
    dropWhile_append_stops hr h.behind]
  dsimp only
  cases s.number (c :: r) ⟨p, p + (c :: r).length⟩ <;> rfl

theorem number_eq_error_iff {place : Span} (hc : ∃ c ∈ r, c ≠ '.') :
    s.number r place = .error e ↔ ¬IsReadable r ∧ e = ⟨.unreadableNumber, place⟩ := by
  rw [← doubleOfLiteral?_isSome_iff hc, number]
  cases doubleOfLiteral? r <;> simp [eq_comm]

theorem run_unreadable (hr : IsRun a r b) (hn : ¬IsReadable r) (s : Scan) (p : Nat) :
    s.run p (r ++ b) = .error ⟨.unreadableNumber, p, p + r.length⟩ := by
  have he : s.number r ⟨p, p + r.length⟩ = .error ⟨.unreadableNumber, p, p + r.length⟩ :=
    (number_eq_error_iff hr.exists_ne_point).mpr ⟨hn, rfl⟩
  rw [run_numericRun hr, he]
  rfl

theorem span_of_number_error {place : Span} (h : s.number r place = .error e) : e.span = place := by
  unfold number at h
  split at h <;> cases h
  rfl

theorem span_of_mark_error {c : Char} {place : Span} (h : s.mark c place = .error e) :
    e.span = place := by
  simp only [mark, closing, operator] at h
  split at h
  case h_1 => cases h
  case h_2 => split at h <;> cases h; rfl
  case h_3 =>
    split at h
    case h_1 => split at h <;> cases h; rfl
    case h_2 => cases h; rfl

-- A fault lies in what is read.
theorem le_start_of_run_error (h : s.run p cs = .error e) : p ≤ e.span.start := by
  fun_induction run s p cs
  case case1 => cases h
  case case2 ih => exact (Nat.le_add_right ..).trans (ih h)
  case case3 hs =>
    cases h
    exact (span_of_number_error hs ▸ le_rfl)
  case case4 ih => exact (Nat.le_succ _).trans (ih h)
  case case5 hs =>
    cases h
    exact (span_of_mark_error hs ▸ le_rfl)

theorem tokens_suffix_of_run (h : s.run p cs = .ok s') : s.tokens <:+ s'.tokens := by
  rw [run_eq_foldlM] at h
  obtain ⟨ts, _, he⟩ := laid_of_foldlM h
  exact ⟨ts.reverse, he.symm⟩

-- What is in front of the run has been read.
theorem Meets.run_eq (h : s.Meets source a r b) :
    Scan.run {} 0 source = s.number r ⟨a.length, a.length + r.length⟩ >>=
      fun s => s.run (a.length + r.length) b := by
  rw [h.text, run_append (.inl h.isRun.front), h.read]
  exact (congrArg (s.run · (r ++ b)) (Nat.zero_add _)).trans (run_numericRun h.isRun s a.length)

theorem Meets.run_eq_number (h : s.Meets source a r b) :
    Scan.run {} 0 (a ++ r) = s.number r ⟨a.length, a.length + r.length⟩ := by
  have hr : IsRun a r [] := { h.isRun with behind := stops_nil }
  have hm : s.Meets (a ++ r) a r [] := ⟨by rw [List.append_nil], hr, h.read⟩
  rw [hm.run_eq]
  cases s.number r ⟨a.length, a.length + r.length⟩
  case error => rfl
  case ok s' => exact run.eq_1 ..

namespace Meets

theorem isSome_iff (h : s.Meets source a r b) : (doubleOfLiteral? r).isSome ↔ IsReadable r :=
  doubleOfLiteral?_isSome_iff h.isRun.exists_ne_point

theorem length_pos (h : s.Meets source a r b) : 0 < r.length :=
  have ⟨_, hc, _⟩ := h.isRun.exists_ne_point
  List.length_pos_of_mem hc

-- A run without a value is where the text is refused.
theorem tokenize_eq (h : s.Meets source a r b) (hr : ¬IsReadable r) :
    tokenize source = .error ⟨.unreadableNumber, a.length, a.length + r.length⟩ := by
  rw [tokenize_eq_run, h.run_eq, (number_eq_error_iff h.isRun.exists_ne_point).mpr ⟨hr, rfl⟩]
  rfl

-- Behind a run with a value reading goes on, and no fault is found at the run any more.
theorem tokenize_ne (h : s.Meets source a r b) (hr : IsReadable r) :
    tokenize source ≠ .error ⟨.unreadableNumber, a.length, a.length + r.length⟩ := by
  obtain ⟨x, hx⟩ := Option.isSome_iff_exists.mp (h.isSome_iff.mpr hr)
  intro ht
  rw [tokenize_eq_run, Except.bind_eq_error_iff] at ht
  rcases ht with ht | ⟨s', _, hf⟩
  case inl =>
    rw [h.run_eq, number, hx] at ht
    have hle : a.length + r.length ≤ a.length := le_start_of_run_error ht
    have := h.length_pos
    omega
  case inr =>
    unfold finish at hf
    split at hf <;> cases hf

theorem becomesNumber (h : s.Meets source a r b) (hx : doubleOfLiteral? r = some x) :
    BecomesNumber source a r x where
  pushed := by
    rw [h.run_eq_number, number, hx]
    exact ⟨_, rfl, rfl⟩
  kept tokens ht := by
    obtain ⟨s', hs, _, hts⟩ := exists_of_tokenize ht
    rw [h.run_eq, number, hx] at hs
    have hm := (tokens_suffix_of_run hs).subset List.mem_cons_self
    exact List.mem_reverse.mp (hts ▸ hm)

end Meets

end Scan

-- A run that is no decimal is refused, and so is one from the middle between the largest double and
-- the power of two behind it on. Any other one becomes the number that is nearest to it.
theorem tokenize_numericRun (h : s.Meets source a r b) :
    (IsDecimal r →
      (tokenize source = .error ⟨.unreadableNumber, a.length, a.length + r.length⟩ ↔
        overflow ≤ written r) ∧
      (written r < overflow → ∃ x, ¬isNegative x ∧ IsNearest (written r) x ∧
        BecomesNumber source a r x)) ∧
    (¬IsDecimal r →
      tokenize source = .error ⟨.unreadableNumber, a.length, a.length + r.length⟩) := by
  refine ⟨fun hd => ⟨⟨fun ht => ?refused, fun ho => ?large⟩, fun ho => ?small⟩, fun hd => ?other⟩
  case refused =>
    by_contra ho
    exact h.tokenize_ne ((isReadable_iff r).mpr ⟨hd, not_le.mp ho⟩) ht
  case large => exact h.tokenize_eq fun hr => not_le.mpr ((isReadable_iff r).mp hr).right ho
  case small =>
    obtain ⟨x, hx⟩ := Option.isSome_iff_exists.mp
      (h.isSome_iff.mpr ((isReadable_iff r).mpr ⟨hd, ho⟩))
    exact ⟨x, (isFinite_of_doubleOfLiteral? hx).right, isNearest_of_doubleOfLiteral? hx,
      h.becomesNumber hx⟩
  case other => exact h.tokenize_eq fun hr => hd ((isReadable_iff r).mp hr).left

-- One run is halfway between two doubles, and the other has a point too many.
theorem numericRun_halfway :
    let s : Scan := Scan.opening {} (.single 0)
    let halfway := "9007199254740993".toList
    let points := "1.2.3".toList
    (s.Meets ('(' :: (halfway ++ [')'])) ['('] halfway [')'] ∧
      IsDecimal halfway ∧ written halfway < overflow ∧
      ∃ x, ¬isNegative x ∧ IsNearest (written halfway) x ∧
        BecomesNumber ('(' :: (halfway ++ [')'])) ['('] halfway x) ∧
    s.Meets ('(' :: points) ['('] points [] ∧ ¬IsDecimal points ∧
      tokenize ('(' :: points) = .error ⟨.unreadableNumber, 1, 6⟩ := by
  intro s halfway points
  have hs : Scan.run {} 0 ['('] = .ok s := (Scan.run_opening {} 0 []).trans (Scan.run.eq_1 ..)
  have front (c) (hc : c ∈ ['('].getLast?) : continuesRun c = false := by
    cases hc
    exact not_continuesRun_of_mem_marks (by decide)
  have whole {r : List Char} (h : r.all continuesRun) (c) (hc : c ∈ r) : continuesRun c :=
    List.all_eq_true.mp h c hc
  have hm : s.Meets ('(' :: (halfway ++ [')'])) ['('] halfway [')'] :=
    ⟨rfl, ⟨⟨'9', rfl, by decide +kernel⟩, whole (by decide +kernel), front,
      Phrase.stops_of_mem_marks (by decide) []⟩, hs⟩
  have hm' : s.Meets ('(' :: points) ['('] points [] :=
    ⟨by simp, ⟨⟨'1', rfl, by decide +kernel⟩, whole (by decide +kernel), front, stops_nil⟩, hs⟩
  have hr : (doubleOfLiteral? halfway).isSome := by decide +kernel
  obtain ⟨hd, ho⟩ := (isReadable_iff halfway).mp (hm.isSome_iff.mp hr)
  have hp : ¬IsDecimal points := fun h => absurd h.point (by decide)
  exact ⟨⟨hm, hd, ho, ((tokenize_numericRun hm).left hd).right ho⟩, hm', hp,
    (tokenize_numericRun hm').right hp⟩

end Abacus
