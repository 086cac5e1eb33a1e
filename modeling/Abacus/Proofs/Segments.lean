import Mathlib.Data.List.TakeWhile

namespace Abacus

variable {α : Type} {q : α → Bool} {l u v : List α}

theorem head?_dropWhile (q : α → Bool) (l : List α) : ∀ a ∈ (l.dropWhile q).head?, q a = false := by
  intro a ha
  have h := List.head?_dropWhile_not q l
  rwa [ha] at h

theorem takeWhile_dropWhile_eq_iff :
    l.takeWhile q = u ∧ l.dropWhile q = v ↔
      l = u ++ v ∧ (∀ a ∈ u, q a) ∧ ∀ a ∈ v.head?, q a = false where
  mp := by
    rintro ⟨rfl, rfl⟩
    exact ⟨List.takeWhile_append_dropWhile.symm, fun _ => List.mem_takeWhile_imp,
      head?_dropWhile q l⟩
  mpr := by
    rintro ⟨rfl, hu, hv⟩
    rw [List.takeWhile_append_of_pos hu, List.dropWhile_append_of_pos hu]
    cases v
    case nil => simp
    case cons a v => simp [hv a rfl]

end Abacus
