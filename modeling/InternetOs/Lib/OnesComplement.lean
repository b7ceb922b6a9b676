import Mathlib.Tactic

/-!
# The 16-bit one's-complement checksum

`wordSum b n i` is the sum of the big-endian words of the `n` bytes from `i`; an odd last byte is
the upper half of a word.  `fold` adds the carry back in; two folds bring any 32-bit sum to 16 bits.

    fold (fold (s + (65535 - fold (fold s)))) = 65535      (fold_complement)
    fold (fold (ws.sum)) = sum16 ws                         (folds_fold, folds_sum16)

A sum that contains its own complement therefore folds to all ones.  `sum16` adds one word at a time
and adds the carry back in after each; `Folds` says which 16-bit word stands for a sum.
-/

namespace InternetOs.OnesComplement

/-! ## Folding -/

def fold (s : Nat) : Nat := s % 65536 + s / 65536

theorem fold_mod (s : Nat) : fold s % 65535 = s % 65535 := by
  unfold fold
  omega

theorem fold_fold_le {s : Nat} (h : s < 2 ^ 32) : fold (fold s) ≤ 65535 := by
  unfold fold
  omega

theorem fold_pos {s : Nat} (h : 0 < s) : 0 < fold s := by
  unfold fold
  omega

/-- Of the two representations of zero, a sum that is not 0 folds to all ones. -/
theorem fold_fold_of_dvd {s : Nat} (h : s < 2 ^ 32) (hpos : 0 < s) (hmod : s % 65535 = 0) :
    fold (fold s) = 65535 := by
  have hle := fold_fold_le h
  have hp := fold_pos (fold_pos hpos)
  have hm : fold (fold s) % 65535 = 0 := by rw [fold_mod, fold_mod, hmod]
  omega

theorem fold_complement {s : Nat} (h : s + 65535 < 2 ^ 32) :
    fold (fold (s + (65535 - fold (fold s)))) = 65535 := by
  have hs : s < 2 ^ 32 := by omega
  have hle := fold_fold_le hs
  have hm : fold (fold s) % 65535 = s % 65535 := by rw [fold_mod, fold_mod]
  have hzero : s = 0 → fold (fold s) = 0 := by
    rintro rfl
    rfl
  refine fold_fold_of_dvd (by omega) ?_ (by omega)
  by_cases h0 : s = 0
  · omega
  · omega

/-! ## Words -/

def wordSum (b : Nat → UInt8) : Nat → Nat → Nat
  | 0, _ => 0
  | 1, i => (b i).toNat * 256
  | n + 2, i => (b i).toNat * 256 + (b (i + 1)).toNat + wordSum b n (i + 2)

theorem wordSum_le (b : Nat → UInt8) (n i : Nat) : wordSum b n i ≤ 65535 * ((n + 1) / 2) := by
  fun_induction wordSum b n i with
  | case1 => exact Nat.zero_le _
  | case2 i =>
    have := (b i).toNat_lt
    omega
  | case3 n i ih =>
    have h0 := (b i).toNat_lt
    have h1 := (b (i + 1)).toNat_lt
    omega

/-- Only the bytes of the range matter, not where they stand. -/
theorem wordSum_congr {b b' : Nat → UInt8} {n i i' : Nat} (h : ∀ j, j < n → b (i + j) = b' (i' + j)) :
    wordSum b n i = wordSum b' n i' := by
  fun_induction wordSum b n i generalizing i' with
  | case1 => rfl
  | case2 i =>
    have h0 : b i = b' i' := h 0 (by omega)
    rw [wordSum, h0]
  | case3 n i ih =>
    have h0 : b i = b' i' := h 0 (by omega)
    have h1 : b (i + 1) = b' (i' + 1) := h 1 (by omega)
    have hrest : ∀ j, j < n → b (i + 2 + j) = b' (i' + 2 + j) := by
      intro j hj
      have := h (j + 2) (by omega)
      rw [show i + 2 + j = i + (j + 2) by omega, show i' + 2 + j = i' + (j + 2) by omega]
      exact this
    rw [wordSum, h0, h1, ih hrest]

theorem wordSum_add (b : Nat → UInt8) (k r i : Nat) :
    wordSum b (2 * k + r) i = wordSum b (2 * k) i + wordSum b r (i + 2 * k) := by
  induction k generalizing i with
  | zero => simp [wordSum]
  | succ k ih =>
    rw [show 2 * (k + 1) + r = 2 * k + r + 2 by omega, show 2 * (k + 1) = 2 * k + 2 by omega, wordSum, wordSum,
      ih (i + 2), show i + 2 + 2 * k = i + (2 * k + 2) by omega]
    omega

theorem wordSum_at (b : Nat → UInt8) (k r i : Nat) :
    wordSum b (2 * k + (2 + r)) i = wordSum b (2 * k) i + ((b (i + 2 * k)).toNat * 256 + (b (i + 2 * k + 1)).toNat) +
        wordSum b r (i + 2 * k + 2) := by
  rw [wordSum_add, show 2 + r = r + 2 by omega, wordSum]
  omega

/-! ## The one's-complement sum -/

/-- The words that `wordSum` adds. -/
def words (b : Nat → UInt8) : Nat → Nat → List Nat
  | 0, _ => []
  | 1, i => [(b i).toNat * 256]
  | n + 2, i => ((b i).toNat * 256 + (b (i + 1)).toNat) :: words b n (i + 2)

theorem sum_words (b : Nat → UInt8) (n i : Nat) : (words b n i).sum = wordSum b n i := by
  fun_induction words b n i with
  | case1 => rfl
  | case2 i => rw [List.sum_singleton, wordSum]
  | case3 n i ih => rw [List.sum_cons, ih, wordSum]

theorem words_le (b : Nat → UInt8) (n i : Nat) : ∀ w ∈ words b n i, w ≤ 65535 := by
  fun_induction words b n i with
  | case1 => simp
  | case2 i =>
    have := (b i).toNat_lt
    simp
    omega
  | case3 n i ih =>
    have h0 := (b i).toNat_lt
    have h1 := (b (i + 1)).toNat_lt
    refine List.forall_mem_cons.mpr ⟨?_, ih⟩
    omega

def sum16 (ws : List Nat) : Nat := ws.foldl (fun s w => fold (s + w)) 0

/-- `s` is the word for the sum `t`: a positive multiple of 65535 is all ones, not 0. -/
structure Folds (s t : Nat) : Prop where
  le : s ≤ 65535
  mod : s % 65535 = t % 65535
  zero : s = 0 ↔ t = 0

theorem Folds.unique {s s' t : Nat} (h : Folds s t) (h' : Folds s' t) : s = s' := by
  have hle := h.le
  have hle' := h'.le
  have hm := h.mod.trans h'.mod.symm
  have hz := h.zero.trans h'.zero.symm
  omega

theorem folds_fold {t : Nat} (h : t < 2 ^ 32) : Folds (fold (fold t)) t := by
  refine ⟨fold_fold_le h, by rw [fold_mod, fold_mod], ?_⟩
  unfold fold
  omega

theorem Folds.add {s t w : Nat} (h : Folds s t) (hw : w ≤ 65535) : Folds (fold (s + w)) (t + w) := by
  have hle := h.le
  have hm := h.mod
  have hz := h.zero
  refine ⟨?_, by rw [fold_mod]; omega, ?_⟩
  · unfold fold
    omega
  · unfold fold
    omega

theorem folds_sum16 {ws : List Nat} (h : ∀ w ∈ ws, w ≤ 65535) : Folds (sum16 ws) ws.sum := by
  have key : ∀ (ws : List Nat) (s t : Nat), (∀ w ∈ ws, w ≤ 65535) → Folds s t →
      Folds (ws.foldl (fun s w => fold (s + w)) s) (t + ws.sum) := by
    intro ws
    induction ws with
    | nil => exact fun s t _ hs => hs
    | cons w ws ih =>
      intro s t hws hs
      obtain ⟨hw, hws⟩ := List.forall_mem_cons.mp hws
      rw [List.sum_cons, ← add_assoc]
      exact ih _ _ hws (hs.add hw)
  have hsum := key ws 0 0 h ⟨by omega, rfl, Iff.rfl⟩
  rwa [zero_add] at hsum

end InternetOs.OnesComplement
