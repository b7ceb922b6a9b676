import Mathlib.Tactic

/-!
# Numbers modulo 2³²

Counters that wrap are compared by how far one is ahead of the other.  A window `[a, a + w)` of such
numbers can be tested by plain comparisons exactly as long as its end does not wrap.

    a + w < 2³² → (a ≤ x ∧ x < a + w ↔ ahead a x < w)                        (inWindow_iff)
    2³² ≤ a + w → ¬ (a ≤ x ∧ x < a + w)                                     (not_inWindow)
-/

namespace InternetOs.SeqNum

/-- How far `x` is ahead of `a`. -/
def ahead (a x : UInt32) : Nat := (x - a).toNat

section
variable (a x k w : UInt32)

@[simp] theorem ahead_self : ahead a a = 0 := by simp [ahead]

theorem ahead_eq : ahead a x = (2 ^ 32 - a.toNat + x.toNat) % 2 ^ 32 := by rw [ahead, UInt32.toNat_sub]

@[simp] theorem ahead_add_right : ahead (a + k) (x + k) = ahead a x := by
  have ha := a.toNat_lt
  rw [ahead_eq, ahead_eq, UInt32.toNat_add, UInt32.toNat_add]
  omega

theorem ahead_eq_zero : ahead a x = 0 ↔ x = a := by
  have ha := a.toNat_lt
  have hx := x.toNat_lt
  rw [ahead_eq, ← UInt32.toNat_inj]
  omega

/-- The plain test for a window, whose end may wrap. -/
def inWindow : Bool := a ≤ x && x < a + w

variable {a x w}

theorem inWindow_iff (h : a.toNat + w.toNat < 2 ^ 32) : inWindow a x w = true ↔ ahead a x < w.toNat := by
  have hx := x.toNat_lt
  simp only [inWindow, Bool.and_eq_true, decide_eq_true_eq, UInt32.le_iff_toNat_le, UInt32.lt_iff_toNat_lt,
    UInt32.toNat_add, Nat.mod_eq_of_lt h, ahead_eq]
  omega

theorem not_inWindow (h : 2 ^ 32 ≤ a.toNat + w.toNat) : inWindow a x w = false := by
  have hw := w.toNat_lt
  rw [Bool.eq_false_iff]
  simp only [inWindow, ne_eq, Bool.and_eq_true, decide_eq_true_eq, UInt32.le_iff_toNat_le,
    UInt32.lt_iff_toNat_lt, UInt32.toNat_add]
  omega

end

end InternetOs.SeqNum
