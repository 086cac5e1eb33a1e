import Abacus.Proofs.Loading
import Abacus.Proofs.Printing

namespace Abacus

namespace Unicode

open Numeral

variable {front s t back : List Char} {n : Nat}

theorem isTrimmed_self (first : ∀ c ∈ t.head?, isWhiteSpace c = false)
    (last : ∀ c ∈ t.getLast?, isWhiteSpace c = false) : IsTrimmed t t where
  around := ⟨[], [], by simp, List.forall_mem_nil _⟩
  first  := first
  last   := last

theorem IsTrimmed.pad (h : IsTrimmed t t) (hw : ∀ c ∈ front ++ back, isWhiteSpace c) :
    IsTrimmed (front ++ t ++ back) t where
  around := ⟨front, back, rfl, hw⟩
  first  := h.first
  last   := h.last

theorem not_isWhiteSpace_of_writes (h : Writes 10 s n) : ∀ c ∈ s, isWhiteSpace c = false :=
  fun c hc => isWhiteSpace_eq_false_of_isDigit ((writes_ten_iff.mp h).right.left c hc)

theorem first_of_writes (h : Writes 10 s n) (t : List Char) :
    ∀ c ∈ (s ++ t).head?, isWhiteSpace c = false := by
  intro c hc
  rw [List.head?_append_of_ne_nil s h.ne] at hc
  exact not_isWhiteSpace_of_writes h c (List.mem_of_mem_head? hc)

theorem last_of_writes (h : Writes 10 s n) (t : List Char) :
    ∀ c ∈ (t ++ s).getLast?, isWhiteSpace c = false := by
  intro c hc
  rw [List.getLast?_append_of_ne_nil t h.ne] at hc
  exact not_isWhiteSpace_of_writes h c (List.mem_of_mem_getLast? hc)

theorem isTrimmed_of_writes (h : Writes 10 s n) : IsTrimmed s s := by
  have first := first_of_writes h []
  rw [List.append_nil] at first
  exact isTrimmed_self first (last_of_writes h [])

-- An endpoint starts with a digit or a bracket and ends with the digits of its port.
theorem isTrimmed_of_isWritten {e : Net.Endpoint} (h : e.IsWritten t) : IsTrimmed t t := by
  cases h
  case v4 host port u v hu hv =>
    refine isTrimmed_self ?_ ?_
    case refine_1 =>
      cases hu
      case octets ha _ _ _ =>
        rw [List.append_assoc]
        exact first_of_writes ha.writes _
    case refine_2 =>
      have last := last_of_writes hv (u ++ [':'])
      rwa [List.append_assoc] at last
  case v6 host scope port u w v _ _ hv =>
    refine isTrimmed_self ?_ ?_
    case refine_1 =>
      intro c hc
      cases hc
      decide
    case refine_2 =>
      have last := last_of_writes hv ('[' :: (u ++ (w ++ [']', ':'])))
      simpa using last

end Unicode

namespace Service

open Unicode Numeral

namespace Settings

-- What is printed for a setting.
def text (s : Settings) : Setting → String
  | .address => s.address.text
  | .maxBodyBytes => s.maxBodyBytes.repr
  | .maxDepth => s.calculator.maxDepth.repr

-- Each variable is set to what is printed, with any white space in front of it and behind it.
def IsWrittenIn (s : Settings) (lookup : Setting → Option String) : Prop :=
  ∀ key, ∃ front back : String, (∀ c ∈ front.toList ++ back.toList, isWhiteSpace c) ∧
    lookup key = some (front ++ s.text key ++ back)

end Settings

variable {lookup : Setting → Option String} {s : Settings} {α : Type} {x default : α}
  {writes : α → List Char → Prop} {value : Option String} {front t back : String} {n m : Nat}

theorem loaded_of_padded (ht : IsTrimmed t.toList t.toList) (hx : writes x t.toList)
    (hw : ∀ c ∈ front.toList ++ back.toList, isWhiteSpace c) :
    Loaded writes default (some (front ++ t ++ back)) x := by
  refine .set ?_ hx
  rw [String.toList_append, String.toList_append]
  exact ht.pad hw

theorem loaded_repr (hn : n < 2 ^ 64) (hw : ∀ c ∈ front.toList ++ back.toList, isWhiteSpace c) :
    Loaded (fun n t => IsWord t n) m (some (front ++ n.repr ++ back)) n := by
  have h : Writes 10 n.repr.toList n := Nat.toList_repr ▸ Net.writes_toDigits (by decide) n
  exact loaded_of_padded (isTrimmed_of_writes h) ⟨hn, _, .inl rfl, h⟩ hw

-- What is loaded fits into sixty-four bits if the default does.
theorem Loaded.lt (h : Loaded (fun n t => IsWord t n) m value n) (hm : m < 2 ^ 64) :
    n < 2 ^ 64 := by
  cases h
  case unset => exact hm
  case set hn => exact hn.left

theorem Loads.of_isWrittenIn (h : Loads lookup s) {back : Setting → Option String}
    (hb : s.IsWrittenIn back) : Loads back s where
  address := by
    obtain ⟨front, behind, hw, e⟩ := hb .address
    have ht := s.address.isWritten_text
    exact e ▸ loaded_of_padded (isTrimmed_of_isWritten ht) ht hw
  maxBodyBytes := by
    obtain ⟨front, behind, hw, e⟩ := hb .maxBodyBytes
    exact e ▸ loaded_repr (h.maxBodyBytes.lt (by decide)) hw
  maxDepth := by
    obtain ⟨front, behind, hw, e⟩ := hb .maxDepth
    exact e ▸ loaded_repr (h.maxDepth.lt (by decide)) hw

namespace Settings

-- Printed settings are written in variables that are set to nothing else.
theorem isWrittenIn_text (s : Settings) : s.IsWrittenIn fun key => some (s.text key) :=
  fun key => ⟨"", "", List.forall_mem_nil _, by simp⟩

-- Settings that have been loaded are loaded again from what is printed for them, so no others are
-- printed in the same way.
theorem load_written (h : load lookup = .ok s) :
    (∀ back, s.IsWrittenIn back → load back = .ok s) ∧
      ∀ lookup' s', load lookup' = .ok s' → s'.text = s.text → s' = s := by
  have written {lookup : Setting → Option String} {s : Settings} (h : load lookup = .ok s)
      {back : Setting → Option String} (hb : s.IsWrittenIn back) : load back = .ok s :=
    load_eq_ok_iff.mpr ((load_eq_ok_iff.mp h).of_isWrittenIn hb)
  refine ⟨fun back hb => written h hb, fun lookup' s' h' e => ?_⟩
  have hs := written h s.isWrittenIn_text
  have hs' := written h' s'.isWrittenIn_text
  rw [e, hs] at hs'
  exact (Except.ok.inj hs').symm

-- Of two stretches of zero that are equally long, the first is left out.
theorem load_written_compressed :
    let given : Setting → Option String
      | .address => some " [0:0:1:0:0:2:0:0%07]:0080\n"
      | .maxBodyBytes => some "+007"
      | .maxDepth => none
    let back : Setting → Option String
      | .address => some "\u3000[::1:0:0:2:0:0%7]:80"
      | .maxBodyBytes => some "7\u0085"
      | .maxDepth => some "256"
    let s : Settings := ⟨.v6 ⟨[0, 0, 1, 0, 0, 2, 0, 0], rfl⟩ 7 80, 7, ⟨256⟩⟩
    load given = .ok s ∧ s.IsWrittenIn back ∧ load back = .ok s := by
  intro given back s
  have h : load given = .ok s := by decide +kernel
  have hb : s.IsWrittenIn back
    | .address => ⟨"\u3000", "", List.all_eq_true.mp (by decide), by decide +kernel⟩
    | .maxBodyBytes => ⟨"", "\u0085", List.all_eq_true.mp (by decide), by decide +kernel⟩
    | .maxDepth => ⟨"", "", List.forall_mem_nil _, by decide +kernel⟩
  exact ⟨h, hb, (load_written h).left back hb⟩

end Settings

end Service

end Abacus
