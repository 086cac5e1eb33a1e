import Abacus.Proofs.Addresses
import Abacus.Proofs.Outcome
import Abacus.Proofs.Segments
import Abacus.Service.Settings
import Mathlib.Data.List.DropRight

namespace Abacus

namespace Unicode

-- The text `t` is what is left of `s` without the white space at its two ends.
structure IsTrimmed (s t : List Char) : Prop where
  around : ∃ front back, s = front ++ t ++ back ∧ ∀ c ∈ front ++ back, isWhiteSpace c
  first  : ∀ c ∈ t.head?, isWhiteSpace c = false
  last   : ∀ c ∈ t.getLast?, isWhiteSpace c = false

variable {s t : List Char}

theorem isTrimmed_trim (s : List Char) : IsTrimmed s (trim s) where
  around := by
    refine ⟨s.takeWhile isWhiteSpace, (s.dropWhile isWhiteSpace).rtakeWhile isWhiteSpace, ?_, ?_⟩
    · have hr : trim s ++ (s.dropWhile isWhiteSpace).rtakeWhile isWhiteSpace =
          s.dropWhile isWhiteSpace := List.rdropWhile_append_rtakeWhile
      rw [List.append_assoc, hr, List.takeWhile_append_dropWhile]
    · rw [List.forall_mem_append]
      exact ⟨fun _ => List.mem_takeWhile_imp, fun _ => List.mem_rtakeWhile_imp⟩
  first c hc := by
    have hp : trim s <+: s.dropWhile isWhiteSpace := List.rdropWhile_prefix _ _
    obtain ⟨t, ht⟩ := List.head?_eq_some_iff.mp hc
    rw [ht, List.cons_prefix_iff] at hp
    obtain ⟨r, hr, _⟩ := hp
    exact head?_dropWhile _ s c (hr ▸ rfl)
  last c hc := by
    rw [trim, List.getLast?_reverse] at hc
    exact head?_dropWhile _ _ c hc

theorem dropWhile_eq_self (h : ∀ c ∈ t.head?, isWhiteSpace c = false) :
    t.dropWhile isWhiteSpace = t := by
  cases t
  case nil => rfl
  case cons c t => rw [List.dropWhile_cons, h c rfl, if_neg Bool.false_ne_true]

theorem IsTrimmed.trim_eq (h : IsTrimmed s t) : trim s = t := by
  obtain ⟨⟨front, back, rfl, hw⟩, first, last⟩ := h
  rw [List.forall_mem_append] at hw
  obtain ⟨hf, hb⟩ := hw
  rw [trim, List.append_assoc, List.dropWhile_append_of_pos hf]
  cases t
  case nil =>
    have hn : back.dropWhile isWhiteSpace = [] := List.dropWhile_eq_nil_iff.mpr hb
    simp [hn]
  case cons c t =>
    have hr : ∀ d ∈ (c :: t).reverse.head?, isWhiteSpace d = false := by
      rwa [List.head?_reverse]
    rw [dropWhile_eq_self (t := c :: t ++ back) first, List.reverse_append,
      List.dropWhile_append_of_pos (by simpa using hb), dropWhile_eq_self hr, List.reverse_reverse]

theorem trim_eq_iff : trim s = t ↔ IsTrimmed s t :=
  ⟨fun h => h ▸ isTrimmed_trim s, fun h => h.trim_eq⟩

end Unicode

namespace Service

open Unicode Numeral

-- What is loaded from a variable that may be unset.
inductive Loaded {α : Type} (writes : α → List Char → Prop) (default : α) : Option String → α → Prop
  | unset : Loaded writes default none default
  | set {value : String} {t : List Char} {x : α} :
    IsTrimmed value.toList t → writes x t → Loaded writes default (some value) x

structure Loads (lookup : Setting → Option String) (s : Settings) : Prop where
  address      : Loaded Net.Endpoint.IsWritten ({} : Settings).address (lookup .address) s.address
  maxBodyBytes : Loaded (fun n t => IsWord t n) ({} : Settings).maxBodyBytes (lookup .maxBodyBytes)
    s.maxBodyBytes
  maxDepth     : Loaded (fun n t => IsWord t n) ({} : Settings).calculator.maxDepth
    (lookup .maxDepth) s.calculator.maxDepth

-- The texts that a setting can be given by.
inductive Setting.Accepts : Setting → List Char → Prop
  | address {e : Net.Endpoint} {t : List Char} : e.IsWritten t → Accepts .address t
  | maxBodyBytes {n : Nat} {t : List Char} : IsWord t n → Accepts .maxBodyBytes t
  | maxDepth {n : Nat} {t : List Char} : IsWord t n → Accepts .maxDepth t

-- The variable is set to a value that the setting can not have.
structure IsBad (lookup : Setting → Option String) (key : Setting) (value : String) : Prop where
  set      : lookup key = some value
  unusable : ∀ t, IsTrimmed value.toList t → ¬key.Accepts t

-- The order in which the variables are loaded.
def Setting.order : List Setting :=
  [.address, .maxBodyBytes, .maxDepth]

structure IsFirstBad (lookup : Setting → Option String) (key : Setting) (value : String) : Prop
    extends IsBad lookup key value where
  first : ∀ other, [other, key].Sublist Setting.order → ∀ value, ¬IsBad lookup other value

-- The reader takes the texts that the setting can be given by, each for the value that it writes.
structure Reads {α : Type} (key : Setting) (ofText? : List Char → Option α)
    (writes : α → List Char → Prop) : Prop where
  ofText?_iff : ∀ t x, ofText? t = some x ↔ writes x t
  accepts_iff : ∀ t, key.Accepts t ↔ ∃ x, writes x t

theorem reads_address : Reads .address Net.Endpoint.ofText? Net.Endpoint.IsWritten where
  ofText?_iff _ _ := Net.Endpoint.ofText?_eq_some_iff
  accepts_iff _   := ⟨fun | .address h => ⟨_, h⟩, fun ⟨_, h⟩ => .address h⟩

theorem reads_maxBodyBytes : Reads .maxBodyBytes word? fun n t => IsWord t n where
  ofText?_iff _ _ := word?_eq_some_iff
  accepts_iff _   := ⟨fun | .maxBodyBytes h => ⟨_, h⟩, fun ⟨_, h⟩ => .maxBodyBytes h⟩

theorem reads_maxDepth : Reads .maxDepth word? fun n t => IsWord t n where
  ofText?_iff _ _ := word?_eq_some_iff
  accepts_iff _   := ⟨fun | .maxDepth h => ⟨_, h⟩, fun ⟨_, h⟩ => .maxDepth h⟩

variable {lookup : Setting → Option String} {key : Setting} {value : String} {f : Failure}
  {s : Settings} {α : Type} {x default : α} {writes : α → List Char → Prop}
  {ofText? : List Char → Option α}

namespace Reads

variable (h : Reads key ofText? writes)

include h

theorem isBad_iff :
    IsBad lookup key value ↔ lookup key = some value ∧ ofText? (trim value.toList) = none := by
  have hn : ofText? (trim value.toList) = none ↔
      ∀ t, IsTrimmed value.toList t → ¬key.Accepts t := by
    simp only [← trim_eq_iff, forall_eq', h.accepts_iff, ← h.ofText?_iff, not_exists,
      Option.eq_none_iff_forall_ne_some, ne_eq]
  rw [hn]
  exact ⟨fun ⟨set, unusable⟩ => ⟨set, unusable⟩, fun ⟨set, unusable⟩ => ⟨set, unusable⟩⟩

theorem not_isBad (hl : Loaded writes default (lookup key) x) : ¬IsBad lookup key value := by
  intro ⟨set, unusable⟩
  rw [set] at hl
  cases hl
  case set ht hx => exact unusable _ ht ((h.accepts_iff _).mpr ⟨_, hx⟩)

theorem read_eq_ok_iff :
    Settings.read lookup key ofText? default = .ok x ↔
      Loaded writes default (lookup key) x := by
  unfold Settings.read
  split
  case h_1 hl =>
    rw [hl, Except.ok.injEq]
    constructor
    case mp => exact fun e => e ▸ .unset
    case mpr => exact fun | .unset => rfl
  case h_2 value hl =>
    have he : ofText? (trim value.toList) = some x ↔ Loaded writes default (some value) x := by
      constructor
      case mp => exact fun hx => .set (isTrimmed_trim _) ((h.ofText?_iff _ x).mp hx)
      case mpr => exact fun | .set ht hx => ht.trim_eq ▸ (h.ofText?_iff _ x).mpr hx
    rw [hl, ← he]
    split
    case h_1 hx => rw [hx, Except.ok.injEq, Option.some.injEq]
    case h_2 hx => simp [hx]

theorem read_eq_error_iff :
    Settings.read lookup key ofText? default = .error f ↔
      ∃ value, f = .setting key value ∧ IsBad lookup key value := by
  simp only [h.isBad_iff]
  unfold Settings.read
  split
  case h_1 hl => simp [hl]
  case h_2 value hl =>
    split
    case h_1 hx => simp [hl, hx]
    case h_2 hx => simp [hl, hx, eq_comm]

theorem exists_read_iff :
    (∃ x, Settings.read lookup key ofText? default = .ok x) ↔
      ∀ value, ¬IsBad lookup key value := by
  constructor
  case mp => exact fun ⟨x, hx⟩ value => h.not_isBad (h.read_eq_ok_iff.mp hx)
  case mpr =>
    intro hn
    cases hr : Settings.read lookup key ofText? default
    case ok x => exact ⟨x, rfl⟩
    case error f =>
      obtain ⟨value, _, hb⟩ := h.read_eq_error_iff.mp hr
      exact absurd hb (hn value)

-- Reading one variable in front of a step that fails in the same way whatever is read.
theorem bind_eq_error_iff {β : Type} {g : α → Except Failure β} {P : Prop}
    (hg : ∀ x, g x = .error f ↔ P) :
    (Settings.read lookup key ofText? default >>= g) = .error f ↔
      (∃ value, f = .setting key value ∧ IsBad lookup key value) ∨
      (∀ value, ¬IsBad lookup key value) ∧ P := by
  rw [Except.bind_eq_error_iff, h.read_eq_error_iff]
  simp only [hg, exists_and_right, h.exists_read_iff]

end Reads

namespace Settings

theorem load_eq_ok_iff : load lookup = .ok s ↔ Loads lookup s := by
  simp only [load, Except.bind_eq_ok_iff, reads_address.read_eq_ok_iff,
    reads_maxBodyBytes.read_eq_ok_iff, reads_maxDepth.read_eq_ok_iff]
  constructor
  case mp =>
    rintro ⟨address, ha, maxBodyBytes, hb, maxDepth, hd, e⟩
    cases e
    exact ⟨ha, hb, hd⟩
  case mpr => exact fun ⟨ha, hb, hd⟩ => ⟨_, ha, _, hb, _, hd, rfl⟩

-- How loading fails, one variable after the other.
theorem load_eq_error_iff_or :
    load lookup = .error f ↔
      (∃ value, f = .setting .address value ∧ IsBad lookup .address value) ∨
      (∀ value, ¬IsBad lookup .address value) ∧
        ((∃ value, f = .setting .maxBodyBytes value ∧ IsBad lookup .maxBodyBytes value) ∨
        (∀ value, ¬IsBad lookup .maxBodyBytes value) ∧
          ∃ value, f = .setting .maxDepth value ∧ IsBad lookup .maxDepth value) := by
  refine reads_address.bind_eq_error_iff fun _ => reads_maxBodyBytes.bind_eq_error_iff fun _ => ?_
  rw [Except.bind_eq_error_iff, reads_maxDepth.read_eq_error_iff]
  exact or_iff_left nofun

theorem load_eq_error_iff :
    load lookup = .error f ↔ ∃ key value, f = .setting key value ∧ IsFirstBad lookup key value := by
  rw [load_eq_error_iff_or]
  constructor
  case mp =>
    rintro (⟨value, rfl, hb⟩ | ⟨ha, ⟨value, rfl, hb⟩ | ⟨hm, value, rfl, hb⟩⟩)
    · refine ⟨_, value, rfl, hb, fun other ho => ?_⟩
      cases other <;> exact absurd ho (by decide)
    · refine ⟨_, value, rfl, hb, fun other ho => ?_⟩
      cases other
      case address => exact ha
      all_goals exact absurd ho (by decide)
    · refine ⟨_, value, rfl, hb, fun other ho => ?_⟩
      cases other
      case address => exact ha
      case maxBodyBytes => exact hm
      case maxDepth => exact absurd ho (by decide)
  case mpr =>
    rintro ⟨key, value, rfl, hb, first⟩
    cases key
    case address => exact .inl ⟨value, rfl, hb⟩
    case maxBodyBytes => exact .inr ⟨first _ (by decide), .inl ⟨value, rfl, hb⟩⟩
    case maxDepth =>
      exact .inr ⟨first _ (by decide), .inr ⟨first _ (by decide), value, rfl, hb⟩⟩

-- Loading fails exactly if there is a bad variable, and says which one is the first and what it was
-- set to. Otherwise all that is set is loaded.
theorem load_iff (lookup : Setting → Option String) :
    ((∃ f, load lookup = .error f) ↔ ∃ key value, IsBad lookup key value) ∧
    (∀ f, load lookup = .error f ↔
      ∃ key value, f = .setting key value ∧ IsFirstBad lookup key value) ∧
    ∀ s, load lookup = .ok s ↔ Loads lookup s := by
  refine ⟨?fails, fun f => load_eq_error_iff, fun s => load_eq_ok_iff⟩
  constructor
  case mp =>
    rintro ⟨f, hf⟩
    obtain ⟨key, value, _, hb⟩ := load_eq_error_iff.mp hf
    exact ⟨key, value, hb.toIsBad⟩
  case mpr =>
    rintro ⟨key, value, hb⟩
    cases hl : load lookup
    case error f => exact ⟨f, rfl⟩
    case ok s =>
      obtain ⟨address, maxBodyBytes, maxDepth⟩ := load_eq_ok_iff.mp hl
      cases key
      case address => exact absurd hb (reads_address.not_isBad address)
      case maxBodyBytes => exact absurd hb (reads_maxBodyBytes.not_isBad maxBodyBytes)
      case maxDepth => exact absurd hb (reads_maxDepth.not_isBad maxDepth)

end Settings

end Service

end Abacus
