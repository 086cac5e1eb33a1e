import Abacus.Proofs.Phrase

namespace Abacus

-- The places take up all from `p` to `q`, one behind another and none of them empty.
inductive Tiles : Nat → Nat → List Span → Prop
  | nil {p : Nat} : Tiles p p []
  | cons {p m q : Nat} {places : List Span} :
    p < m → Tiles m q places → Tiles p q (⟨p, m⟩ :: places)

-- The text `t` stands at the place, with `a` in front of it and `b` behind.
structure Span.Holds (place : Span) (source a t b : List Char) : Prop where
  text  : source = a ++ t ++ b
  start : place.start = a.length
  stop  : place.stop = a.length + t.length

-- The numeric run `r` between `a` and `b` goes on as far as it can on both sides.
structure IsRun (a r b : List Char) : Prop where
  numeric : ∃ c ∈ r.head?, Unicode.isNumeric c
  whole   : ∀ c ∈ r, continuesRun c
  front   : ∀ c ∈ a.getLast?, continuesRun c = false
  behind  : Stops b

theorem Literal.isRun (l : Literal) {a b : List Char}
    (ha : ∀ c ∈ a.getLast?, Abacus.continuesRun c = false) (hb : Stops b) : IsRun a l.text b where
  numeric :=
    have ⟨c, _, e, hc⟩ := l.exists_cons
    ⟨c, e ▸ rfl, hc⟩
  whole _ := l.continuesRun
  front   := ha
  behind  := hb

namespace Piece

variable {p : Spanned Piece} {front back : List Piece} {source r : List Char} {n : Nat}

theorem tiles_pieces (n : Nat) (s : List Char) :
    Tiles n (n + s.length) ((pieces n s).map (·.span)) := by
  fun_induction pieces n s
  case case1 => exact .nil
  case case2 n c s hc r ih =>
    have hs : r.length + (s.dropWhile continuesRun).length = (c :: s).length := by
      rw [← List.length_append, List.cons_append, List.takeWhile_append_dropWhile]
    rw [Nat.add_assoc, hs] at ih
    exact .cons (by simp [r]) ih
  case case3 n c s hc ih =>
    rw [Nat.add_assoc, Nat.add_comm 1] at ih
    exact .cons n.lt_succ_self ih

theorem not_isEmpty_of_mem_pieces {s : List Char} (h : p ∈ pieces n s) : ¬p.span.IsEmpty := by
  fun_induction pieces n s
  case case1 => simp at h
  case case2 n c s hc r ih =>
    cases List.mem_cons.mp h
    case inl e => simp [e, Span.IsEmpty, r]
    case inr h => exact ih h
  case case3 n c s hc ih =>
    cases List.mem_cons.mp h
    case inl e => simp [e, Span.single, Span.IsEmpty]
    case inr h => exact ih h

theorem span_of_pieces {s : List Char} {before behind : List (Spanned Piece)}
    (h : pieces n s = before ++ p :: behind) :
    p.span.start = n + (texts (before.map (·.value))).length ∧
      p.span.stop = p.span.start + p.value.text.length := by
  fun_induction pieces n s generalizing before
  case case1 => simp at h
  case case2 n c s hc r ih =>
    cases before
    case nil =>
      cases (List.cons.inj h).left
      exact ⟨rfl, rfl⟩
    case cons q before =>
      obtain ⟨hq, h⟩ := List.cons.inj h
      have hp := ih h
      simpa [← hq, texts, text, Nat.add_assoc] using hp
  case case3 n c s hc ih =>
    cases before
    case nil =>
      cases (List.cons.inj h).left
      exact ⟨rfl, rfl⟩
    case cons q before =>
      obtain ⟨hq, h⟩ := List.cons.inj h
      have hp := ih h
      simpa [← hq, texts, text, Nat.add_assoc, Nat.add_comm 1] using hp

theorem source_of_ofText {p : Piece} (h : ofText source = front ++ p :: back) :
    source = texts front ++ p.text ++ texts back := by
  rw [← texts_ofText source, h]
  simp [texts]

theorem exists_holds (h : p ∈ pieces 0 source) :
    ∃ front back, ofText source = front ++ p.value :: back ∧
      p.span.Holds source (texts front) p.value.text (texts back) := by
  have ⟨before, behind, e⟩ := List.append_of_mem h
  have ⟨start, stop⟩ := span_of_pieces e
  have ho : ofText source = before.map (·.value) ++ p.value :: behind.map (·.value) := by
    simp [ofText, e]
  rw [Nat.zero_add] at start
  exact ⟨_, _, ho, source_of_ofText ho, start, start ▸ stop⟩

theorem numeric_of_ofText (h : run r ∈ ofText source) :
    (∃ c ∈ r.head?, Unicode.isNumeric c) ∧ ∀ c ∈ r, continuesRun c := by
  fun_induction pieces 0 source
  case case1 => simp [ofText_nil] at h
  case case2 c s hc r' ih =>
    rw [ofText_run hc] at h
    cases List.mem_cons.mp h
    case inr h => exact ih h
    case inl e =>
      cases e
      refine ⟨⟨c, rfl, hc⟩, fun a ha => ?_⟩
      cases List.mem_cons.mp ha
      case inl e => simp [e, continuesRun, hc]
      case inr ha => exact List.mem_takeWhile_imp ha
  case case3 c s hc ih =>
    rw [ofText_mark (Bool.not_eq_true _ ▸ hc)] at h
    exact ih (List.mem_of_ne_of_mem (by simp) h)

theorem stops_of_ofText (h : ofText source = front ++ run r :: back) : Stops (texts back) := by
  fun_induction pieces 0 source generalizing front
  case case1 => simp [ofText_nil] at h
  case case2 c s hc r' ih =>
    rw [ofText_run hc] at h
    cases front
    case nil =>
      rw [← (List.cons.inj h).right, texts_ofText]
      exact stops_dropWhile s
    case cons q front => exact ih (List.cons.inj h).right
  case case3 c s hc ih =>
    rw [ofText_mark (Bool.not_eq_true _ ▸ hc)] at h
    cases front
    case nil => cases (List.cons.inj h).left
    case cons q front => exact ih (List.cons.inj h).right

-- Only a point that belongs to no run could stand in front of a run that does not start early
-- enough.
theorem isRun_of_ofText (h : ofText source = front ++ run r :: back)
    (hm : ∀ c, mark c ∈ front → continuesRun c = false) : IsRun (texts front) r (texts back) := by
  obtain ⟨numeric, whole⟩ := numeric_of_ofText (h ▸ List.mem_append_right front List.mem_cons_self)
  refine ⟨numeric, whole, ?front, stops_of_ofText h⟩
  intro c hc
  cases hl : front.getLast?
  case none => simp [List.getLast?_eq_none_iff.mp hl, texts] at hc
  case some q =>
    obtain ⟨front, rfl⟩ := List.getLast?_eq_some_iff.mp hl
    cases q
    case mark c' =>
      have e : c' = c := by simpa [texts, text] using hc
      exact hm c (by simp [e])
    case run r' =>
      -- Two runs would be one.
      obtain ⟨d, hd, hn⟩ := numeric
      obtain ⟨r₀, hr⟩ := List.head?_eq_some_iff.mp hd
      rw [List.append_assoc] at h
      have hs := stops_of_ofText h d (by simp [texts, text, hr])
      simp [continuesRun, hn] at hs

end Piece

end Abacus
