import Abacus.Proofs.Loading
import Abacus.Proofs.Quotation

namespace Abacus

theorem fromUTF8?_eq_some_iff {bytes : List UInt8} {s : String} :
    String.fromUTF8? ⟨bytes.toArray⟩ = some s ↔ bytes = utf8 s.toList where
  mp h := by
    rw [String.fromUTF8?, Option.dite_none_right_eq_some] at h
    obtain ⟨_, h⟩ := h
    cases h
    rw [utf8_toList]
    rfl
  mpr h := h ▸ fromUTF8?_utf8 s

namespace Service

open Unicode Numeral

-- The text gives the setting the value that it has.
def Settings.IsGivenBy (s : Settings) : Setting → List Char → Prop
  | .address, t => s.address.IsWritten t
  | .maxBodyBytes, t => IsWord t s.maxBodyBytes
  | .maxDepth, t => IsWord t s.calculator.maxDepth

-- The bytes are a text that has the property without the white space around it.
def IsTextWith (P : List Char → Prop) (bytes : List UInt8) : Prop :=
  ∃ value : String, bytes = utf8 value.toList ∧ ∃ t, IsTrimmed value.toList t ∧ P t

namespace Settings

-- No variable that is set is passed over: what is loaded is what they say, and a value that can not
-- be used is a reason to fail.
structure Heeds (environment : Setting → Option (List UInt8)) : Prop where
  used {s : Settings} {key : Setting} {bytes : List UInt8} :
    ofEnvironment environment = .ok s → environment key = some bytes →
    IsTextWith (s.IsGivenBy key) bytes
  reported {key : Setting} {bytes : List UInt8} :
    environment key = some bytes → ¬IsTextWith key.Accepts bytes →
    ∃ other value, environment other ≠ none ∧
      ofEnvironment environment = .error (.setting other value)

end Settings

-- The values that are texts.
def texts (environment : Setting → Option (List UInt8)) (key : Setting) : Option String :=
  (environment key).bind fun bytes => String.fromUTF8? ⟨bytes.toArray⟩

variable {environment : Setting → Option (List UInt8)} {lookup : Setting → Option String}
  {key : Setting} {value : String} {s : Settings} {bytes : List UInt8}

theorem texts_eq_some_iff :
    texts environment key = some value ↔ environment key = some (utf8 value.toList) := by
  simp only [texts, Option.bind_eq_some_iff, fromUTF8?_eq_some_iff]
  exact ⟨fun ⟨bytes, h, e⟩ => e ▸ h, fun h => ⟨_, h, rfl⟩⟩

theorem Loaded.exists_isTrimmed {α : Type} {writes : α → List Char → Prop} {default x : α}
    (h : Loaded writes default (some value) x) : ∃ t, IsTrimmed value.toList t ∧ writes x t := by
  cases h
  case set t ht hx => exact ⟨t, ht, hx⟩

namespace Loads

theorem exists_isGivenBy (h : Loads lookup s) (hl : lookup key = some value) :
    ∃ t, IsTrimmed value.toList t ∧ s.IsGivenBy key t := by
  cases key
  case address => exact (hl ▸ h.address).exists_isTrimmed
  case maxBodyBytes => exact (hl ▸ h.maxBodyBytes).exists_isTrimmed
  case maxDepth => exact (hl ▸ h.maxDepth).exists_isTrimmed

theorem not_isBad (h : Loads lookup s) : ¬IsBad lookup key value := by
  cases key
  case address => exact reads_address.not_isBad h.address
  case maxBodyBytes => exact reads_maxBodyBytes.not_isBad h.maxBodyBytes
  case maxDepth => exact reads_maxDepth.not_isBad h.maxDepth

end Loads

namespace Settings

theorem ofEnvironment_eq_load (environment : Setting → Option (List UInt8)) :
    ofEnvironment environment = load (texts environment) :=
  rfl

theorem reported_of_isBad (h : IsBad (texts environment) key value) :
    ∃ other value, environment other ≠ none ∧
      ofEnvironment environment = .error (.setting other value) := by
  rw [ofEnvironment_eq_load]
  cases hl : load (texts environment)
  case ok s => exact absurd h (load_eq_ok_iff.mp hl).not_isBad
  case error f =>
    obtain ⟨other, value, rfl, hb⟩ := load_eq_error_iff.mp hl
    exact ⟨other, value, by simp [texts_eq_some_iff.mp hb.set], rfl⟩

theorem heeds_of_texts (h : ∀ key bytes, environment key = some bytes →
    ∃ value : String, bytes = utf8 value.toList) : Heeds environment where
  used {s key bytes} hs hk := by
    obtain ⟨value, rfl⟩ := h key bytes hk
    exact ⟨value, rfl, (load_eq_ok_iff.mp hs).exists_isGivenBy (texts_eq_some_iff.mpr hk)⟩
  reported {key bytes} hk hu := by
    obtain ⟨value, rfl⟩ := h key bytes hk
    refine reported_of_isBad ⟨texts_eq_some_iff.mpr hk, fun t ht ha => ?_⟩
    exact hu ⟨value, rfl, t, ht, ha⟩

-- Whatever the reason to fail is, nothing is passed over then.
theorem heeds_of_isBad (h : IsBad (texts environment) key value) : Heeds environment where
  used hs _     := absurd h (load_eq_ok_iff.mp hs).not_isBad
  reported _ _  := reported_of_isBad h

-- What is set is heeded exactly if it is text, or if some text can not be used, which is reported.
theorem heeds_iff (environment : Setting → Option (List UInt8)) :
    Heeds environment ↔
      (∀ key bytes, environment key = some bytes → ∃ value : String, bytes = utf8 value.toList) ∨
        ∃ key value, IsBad (texts environment) key value := by
  constructor
  case mp =>
    intro h
    by_contra hn
    rw [not_or] at hn
    obtain ⟨hn, hb⟩ := hn
    refine hn fun key bytes hk => ?_
    by_cases hu : IsTextWith key.Accepts bytes
    case pos =>
      obtain ⟨value, e, _⟩ := hu
      exact ⟨value, e⟩
    case neg =>
      obtain ⟨other, value, _, he⟩ := h.reported hk hu
      obtain ⟨other, value, _, hf⟩ := load_eq_error_iff.mp he
      exact absurd ⟨other, value, hf.toIsBad⟩ hb
  case mpr =>
    rintro (ht | ⟨key, value, hb⟩)
    case inl => exact heeds_of_texts ht
    case inr => exact heeds_of_isBad hb

-- An address that is no text is passed over, and the service listens where it does by default.
theorem not_heeds_undecodable :
    let environment : Setting → Option (List UInt8)
      | .address => some [0xFF]
      | _ => none
    ofEnvironment environment = .ok {} ∧ ¬Heeds environment := by
  intro environment
  have hl : ofEnvironment environment = .ok {} := by decide +kernel
  refine ⟨hl, fun h => ?_⟩
  have hu : IsTextWith (Settings.IsGivenBy {} .address) [0xFF] := h.used hl rfl
  obtain ⟨value, e, _⟩ := hu
  have hn : String.fromUTF8? ⟨[0xFF].toArray⟩ = none := by decide +kernel
  rw [fromUTF8?_eq_some_iff.mpr e] at hn
  cases hn

end Settings

end Service

end Abacus
