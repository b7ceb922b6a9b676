import InternetOs.Lib.SeqNum

/-!
# Circular buffers

The `k` cells of a buffer of `size` cells from a position on, which may be a number far beyond `size`.

    k < size → cells (buf with c at start + k) start (k + 1) = cells buf start k ++ [c]   (cells_push)
    cells buf start (k + 1) = buf (start % size) :: cells buf (start + 1) k               (cells_cons)

The positions may be counters that run on and wrap modulo 2³², a multiple of `size`: the buffer is filled at `w` and
emptied at `r`, and what is in it lies between them.

    ahead r w < size → contents (buf with c at w) r (w + 1) = contents buf r w ++ [c]     (contents_push)
    r ≠ w → contents buf r w = buf (r % size) :: contents buf (r + 1) w                   (contents_pop)
    ahead r w ≤ ahead r e → contents buf r e = contents buf r w ++ contents buf w e       (contents_split)
-/

namespace InternetOs.Circular

open SeqNum Function List

/-! ## Cells -/

variable {α : Type}

/-- The `k` cells from `start` on. -/
def cells (size : Nat) (buf : Nat → α) (start k : Nat) : List α :=
  (range k).map fun i => buf ((start + i) % size)

section
variable {size : Nat} {buf : Nat → α} {start j k : Nat}

@[simp] theorem cells_zero : cells size buf start 0 = [] := rfl

@[simp] theorem cells_length : (cells size buf start k).length = k := by simp [cells]

theorem cells_congr {start' : Nat} (h : start % size = start' % size) :
    cells size buf start k = cells size buf start' k := by
  refine map_congr_left fun i _ => congrArg buf ?_
  rw [Nat.add_mod, h, ← Nat.add_mod]

theorem cells_add : cells size buf start (j + k) = cells size buf start j ++ cells size buf (start + j) k := by
  unfold cells
  rw [range_add, map_append, map_map]
  exact congrArg _ (map_congr_left fun i _ => congrArg buf (by rw [add_assoc]))

theorem cells_cons : cells size buf start (k + 1) = buf (start % size) :: cells size buf (start + 1) k := by
  rw [add_comm, cells_add]
  rfl

theorem cells_concat : cells size buf start (k + 1) = cells size buf start k ++ [buf ((start + k) % size)] := by
  rw [cells_add]
  rfl

/-- The cell behind less than `size` others is none of them. -/
theorem cells_update (h : j ≤ k) (hk : k < size) (c : α) :
    cells size (update buf ((start + k) % size) c) start j = cells size buf start j := by
  refine map_congr_left fun i hi => update_of_ne (fun heq => ?_) _ _
  have hi := mem_range.mp hi
  have hmod : i ≡ k [MOD size] := Nat.ModEq.add_left_cancel' _ heq
  have := hmod.eq_of_lt_of_lt (by omega) hk
  omega

theorem cells_push (h : k < size) (c : α) :
    cells size (update buf ((start + k) % size) c) start (k + 1) = cells size buf start k ++ [c] := by
  rw [cells_concat, cells_update (le_rfl) h, update_self]

end

/-! ## Counters -/

section
variable {r w e : UInt32}

theorem ahead_succ (h : ahead r w + 1 < 2 ^ 32) : ahead r (w + 1) = ahead r w + 1 := by
  rw [ahead_eq] at h ⊢
  rw [ahead_eq, UInt32.toNat_add, UInt32.toNat_one]
  omega

theorem ahead_pred (h : r ≠ w) : ahead r (w - 1) + 1 = ahead r w := by
  have hr := r.toNat_lt
  have hw := w.toNat_lt
  have hne : r.toNat ≠ w.toNat := fun he => h (UInt32.toNat_inj.mp he)
  rw [ahead_eq, ahead_eq, UInt32.toNat_sub, UInt32.toNat_one]
  omega

theorem ahead_succ_left (h : r ≠ w) : ahead (r + 1) w + 1 = ahead r w := by
  have hr := r.toNat_lt
  have hw := w.toNat_lt
  have hne : r.toNat ≠ w.toNat := fun he => h (UInt32.toNat_inj.mp he)
  rw [ahead_eq, ahead_eq, UInt32.toNat_add, UInt32.toNat_one]
  omega

theorem ahead_add_ahead (h : ahead r w ≤ ahead r e) : ahead r w + ahead w e = ahead r e := by
  have hw := w.toNat_lt
  rw [ahead_eq, ahead_eq] at h
  rw [ahead_eq, ahead_eq, ahead_eq]
  omega

theorem ahead_eq_iff {k : UInt32} : ahead r w = k.toNat ↔ w = r + k := by
  have hr := r.toNat_lt
  have hw := w.toNat_lt
  have hk := k.toNat_lt
  rw [ahead_eq, ← UInt32.toNat_inj, UInt32.toNat_add]
  omega

end

/-! ## Contents -/

/-- The cells from `r` up to `w`. -/
def contents (size : Nat) (buf : Nat → α) (r w : UInt32) : List α := cells size buf r.toNat (ahead r w)

section
variable {size : Nat} {buf : Nat → α} {r w e : UInt32}

@[simp] theorem contents_length : (contents size buf r w).length = ahead r w := cells_length

@[simp] theorem contents_self : contents size buf r r = [] := by simp [contents]

theorem slot_ahead (hdvd : size ∣ 2 ^ 32) : (r.toNat + ahead r w) % size = w.toNat % size := by
  have hr := r.toNat_lt
  have hmod : (r.toNat + ahead r w) % 2 ^ 32 = w.toNat % 2 ^ 32 := by
    rw [ahead_eq]
    omega
  rw [← Nat.mod_mod_of_dvd _ hdvd, hmod, Nat.mod_mod_of_dvd _ hdvd]

theorem contents_last (buf : Nat → α) (hdvd : size ∣ 2 ^ 32) (h : r ≠ w) :
    contents size buf r w = contents size buf r (w - 1) ++ [buf ((w - 1).toNat % size)] := by
  unfold contents
  rw [← ahead_pred h, cells_concat, slot_ahead hdvd]

theorem contents_pop (buf : Nat → α) (hdvd : size ∣ 2 ^ 32) (h : r ≠ w) :
    contents size buf r w = buf (r.toNat % size) :: contents size buf (r + 1) w := by
  have hmod : (r.toNat + 1) % size = (r + 1).toNat % size := by
    rw [UInt32.toNat_add, UInt32.toNat_one, Nat.mod_mod_of_dvd _ hdvd]
  unfold contents
  rw [← ahead_succ_left h, cells_cons, cells_congr hmod]

theorem contents_split (hdvd : size ∣ 2 ^ 32) (h : ahead r w ≤ ahead r e) :
    contents size buf r e = contents size buf r w ++ contents size buf w e := by
  unfold contents
  rw [← ahead_add_ahead h, cells_add, cells_congr (slot_ahead hdvd)]

/-- The cell of a counter that is less than `size` ahead is none of those before it. -/
theorem contents_update (hdvd : size ∣ 2 ^ 32) (h : ahead r w ≤ ahead r e) (he : ahead r e < size) (c : α) :
    contents size (update buf (e.toNat % size) c) r w = contents size buf r w := by
  unfold contents
  rw [← slot_ahead (r := r) hdvd, cells_update h he]

theorem contents_push (hdvd : size ∣ 2 ^ 32) (hsize : size < 2 ^ 32) (h : ahead r w < size) (c : α) :
    contents size (update buf (w.toNat % size) c) r (w + 1) = contents size buf r w ++ [c] := by
  unfold contents
  rw [← slot_ahead (r := r) hdvd, ahead_succ (by omega), cells_push h]

end

end InternetOs.Circular
