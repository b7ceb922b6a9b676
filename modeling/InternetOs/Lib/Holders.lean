import Mathlib.Data.Fintype.Card
import Mathlib.Data.Finset.Card

/-!
# Counting the places that hold a value

`holders g b` is the number of places `x` with `g x = b`; writing one place changes it by at most one.
-/

namespace InternetOs

open Function Finset

section
variable {α β : Type} [Fintype α] [DecidableEq β] {g : α → β} {a : α} {b c : β}

/-- The number of places that hold `b`. -/
def holders (g : α → β) (b : β) : Nat := (univ.filter fun x => g x = b).card

theorem holders_pos (h : g a = b) : 0 < holders g b :=
  card_pos.mpr ⟨a, mem_filter.mpr ⟨mem_univ a, h⟩⟩

theorem exists_of_holders_pos (h : 0 < holders g b) : ∃ a, g a = b := by
  obtain ⟨a, ha⟩ := card_pos.mp h
  exact ⟨a, (mem_filter.mp ha).2⟩

theorem holders_unique (h : holders g b ≤ 1) {x y : α} (hx : g x = b) (hy : g y = b) : x = y :=
  card_le_one.mp h x (mem_filter.mpr ⟨mem_univ x, hx⟩) y
    (mem_filter.mpr ⟨mem_univ y, hy⟩)

theorem holders_congr {g' : α → β} (h : ∀ x, g' x = b ↔ g x = b) : holders g' b = holders g b := by
  unfold holders
  congr 1
  ext x
  simp [h x]

variable [DecidableEq α]

theorem holders_update_of_ne (ha : g a ≠ b) (hc : c ≠ b) : holders (update g a c) b = holders g b := by
  refine holders_congr fun x => ?_
  by_cases hx : x = a
  · subst hx
    simp [ha, hc]
  · simp [hx]

theorem holders_update_self (ha : g a ≠ b) : holders (update g a b) b = holders g b + 1 := by
  have h : (univ.filter fun x => update g a b x = b) = insert a (univ.filter fun x => g x = b) := by
    ext x
    by_cases hx : x = a
    · subst hx
      simp
    · simp [hx]
  unfold holders
  rw [h, card_insert_of_notMem (by simp [ha])]

theorem holders_update_clear (ha : g a = b) (hc : c ≠ b) : holders (update g a c) b + 1 = holders g b := by
  have hne : update g a c a ≠ b := by simpa using hc
  have h := holders_update_self hne
  rw [update_idem, ← ha, update_eq_self] at h
  exact (ha ▸ h).symm

end

end InternetOs
