import Abacus.Proofs.Outcome
import Abacus.Proofs.Segments
import Abacus.Token.Scan

namespace Abacus

-- Nothing in front of the text goes on into it.
def Stops (cs : List Char) : Prop :=
  ∀ c ∈ cs.head?, continuesRun c = false

-- No numeric run goes on from the first text into the second.
def Parts (u v : List Char) : Prop :=
  (∀ c ∈ u.getLast?, continuesRun c = false) ∨ Stops v

variable {u v w r cs : List Char} {c : Char}

theorem stops_nil : Stops [] :=
  nofun

theorem stops_cons (h : continuesRun c = false) (cs : List Char) : Stops (c :: cs) := by
  rintro a ⟨⟩
  exact h

theorem stops_dropWhile (s : List Char) : Stops (s.dropWhile continuesRun) :=
  head?_dropWhile continuesRun s

theorem takeWhile_append_stops (hr : ∀ a ∈ r, continuesRun a) (h : Stops cs) :
    (r ++ cs).takeWhile continuesRun = r :=
  (takeWhile_dropWhile_eq_iff.mpr ⟨rfl, hr, h⟩).left

theorem dropWhile_append_stops (hr : ∀ a ∈ r, continuesRun a) (h : Stops cs) :
    (r ++ cs).dropWhile continuesRun = cs :=
  (takeWhile_dropWhile_eq_iff.mpr ⟨rfl, hr, h⟩).right

theorem takeWhile_append_parts (h : (∃ c ∈ u, continuesRun c = false) ∨ Stops v) :
    (u ++ v).takeWhile continuesRun = u.takeWhile continuesRun ∧
      (u ++ v).dropWhile continuesRun = u.dropWhile continuesRun ++ v := by
  induction u
  case nil =>
    have hv : Stops v := h.resolve_left (by simp)
    have ht := takeWhile_append_stops (r := []) (by simp) hv
    have hd := dropWhile_append_stops (r := []) (by simp) hv
    exact ⟨ht, hd⟩
  case cons a u ih =>
    rw [List.cons_append, List.takeWhile_cons, List.takeWhile_cons, List.dropWhile_cons,
      List.dropWhile_cons]
    split
    case isFalse => exact ⟨rfl, rfl⟩
    case isTrue ha =>
      have hu : (∃ c ∈ u, continuesRun c = false) ∨ Stops v := by
        refine h.imp_left fun ⟨c, hc, hn⟩ => ⟨c, ?_, hn⟩
        refine (List.mem_cons.mp hc).resolve_left ?_
        rintro rfl
        simp [ha] at hn
      obtain ⟨ht, hd⟩ := ih hu
      exact ⟨congrArg (a :: ·) ht, hd⟩

namespace Parts

theorem of_suffix (h : Parts u v) (hw : w <:+ u) : Parts w v := by
  refine h.imp_left fun h c hc => h c ?_
  obtain ⟨t, rfl⟩ := hw
  simp [List.getLast?_append, Option.mem_def.mp hc]

-- A run that starts in front of the cut ends in front of it.
theorem exists_of_isNumeric (h : Parts (c :: u) v) (hc : Unicode.isNumeric c) :
    (∃ d ∈ u, continuesRun d = false) ∨ Stops v := by
  refine h.imp_left fun h => ?_
  cases hu : u.getLast?
  case none =>
    have := h c (by simp [List.getLast?_eq_none_iff.mp hu])
    simp [continuesRun, hc] at this
  case some d => exact ⟨d, List.mem_of_getLast? hu, h d (by simp [List.getLast?_cons, hu])⟩

end Parts

namespace Piece

theorem pieces_append (h : Parts u v) (p : Nat) :
    pieces p (u ++ v) = pieces p u ++ pieces (p + u.length) v := by
  fun_induction pieces p u
  case case1 => simp
  case case2 p c u hc r ih =>
    obtain ⟨ht, hd⟩ := takeWhile_append_parts (h.exists_of_isNumeric hc)
    have hs : u.dropWhile continuesRun <:+ c :: u :=
      (List.dropWhile_suffix _).trans (List.suffix_cons c u)
    have hl : p + r.length + (u.dropWhile continuesRun).length = p + (c :: u).length := by
      rw [Nat.add_assoc, ← List.length_append, List.cons_append, List.takeWhile_append_dropWhile]
    have ih := ih (h.of_suffix hs)
    rw [hl] at ih
    rw [List.cons_append, pieces, if_pos hc, ht, hd]
    exact congrArg (_ :: ·) ih
  case case3 p c u hc ih =>
    rw [List.cons_append, pieces, if_neg hc, ih (h.of_suffix (List.suffix_cons c u)),
      Nat.add_assoc, Nat.add_comm 1]
    rfl

end Piece

theorem tokenize_eq_run (source : List Char) :
    tokenize source = Scan.run {} 0 source >>= Scan.finish := by
  rw [tokenize]
  cases Scan.run {} 0 source <;> rfl

theorem Scan.exists_of_tokenize {source : List Char} {tokens : List (Spanned Token)}
    (h : tokenize source = .ok tokens) :
    ∃ s, run {} 0 source = .ok s ∧ s.unclosed = [] ∧ s.tokens = tokens.reverse := by
  rw [tokenize_eq_run, Except.bind_eq_ok_iff] at h
  obtain ⟨s, hs, hf⟩ := h
  unfold finish at hf
  split at hf <;> cases hf
  case h_1 hu => exact ⟨s, hs, hu, s.tokens.reverse_reverse.symm⟩

theorem Scan.run_append (h : Parts u v) (s : Scan) (p : Nat) :
    s.run p (u ++ v) = s.run p u >>= fun s => s.run (p + u.length) v := by
  simp only [run_eq_foldlM, Piece.pieces_append h, List.foldlM_append]

end Abacus
