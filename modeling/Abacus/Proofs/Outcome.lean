import Mathlib.Logic.Basic

namespace Abacus

namespace Except

variable {ε α β : Type} {x : Except ε α} {f : α → β} {g : α → Except ε β} {b : β} {e : ε}

theorem map_eq_ok_iff : x.map f = .ok b ↔ ∃ a, x = .ok a ∧ f a = b := by
  cases x <;> simp [Except.map]

theorem map_eq_error_iff : x.map f = .error e ↔ x = .error e := by
  cases x <;> simp [Except.map]

theorem bind_eq_ok_iff : x >>= g = .ok b ↔ ∃ a, x = .ok a ∧ g a = .ok b := by
  cases x <;> simp [bind, Except.bind]

theorem bind_eq_error_iff :
    x >>= g = .error e ↔ x = .error e ∨ ∃ a, x = .ok a ∧ g a = .error e := by
  cases x <;> simp [bind, Except.bind]

theorem mapError_eq_ok_iff {h : ε → β} {a : α} : x.mapError h = .ok a ↔ x = .ok a := by
  cases x
  case error => exact ⟨nofun, nofun⟩
  case ok b =>
    change Except.ok b = .ok a ↔ _
    simp

theorem mapError_eq_error_iff {h : ε → β} :
    x.mapError h = .error b ↔ ∃ e, x = .error e ∧ h e = b := by
  cases x
  case error e =>
    change Except.error (h e) = .error b ↔ _
    simp
  case ok => exact ⟨nofun, nofun⟩

end Except

end Abacus
