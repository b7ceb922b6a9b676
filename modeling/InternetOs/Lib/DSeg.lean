import InternetOs.Lib.Chain

/-!
# Segments of doubly linked lists

`DSeg next prev a p l b q`: following `next` from `p` visits the nodes `l` and arrives
at `q`, and following `prev` leads back from there; `a` is what the first node has as its
predecessor, `b` the last node visited (`a` when `l` is empty).  A null-terminated list
with head `p` is a segment from `(0, p)` to some `(b, 0)`; a ring around a sentinel `s` is
one from `(s, next s)` to `(prev s, s)`.

    DSeg a p (l₁ ++ l₂) b q ↔ ∃ c r, DSeg a p l₁ c r ∧ DSeg c r l₂ b q        (DSeg.append_iff)
-/

namespace InternetOs

open List

def DSeg (next prev : Nat → Nat) : Nat → Nat → List Nat → Nat → Nat → Prop
  | a, p, [], b, q => b = a ∧ q = p
  | a, p, x :: l, b, q => p = x ∧ prev x = a ∧ DSeg next prev x (next x) l b q

section
variable {next prev next' prev' : Nat → Nat} {a p b q x t : Nat} {l l1 l2 : List Nat}

theorem DSeg.congr (h : DSeg next prev a p l b q)
    (heq : ∀ y ∈ l, next' y = next y ∧ prev' y = prev y) : DSeg next' prev' a p l b q := by
  induction l generalizing a p with
  | nil => exact h
  | cons x l ih =>
    obtain ⟨rfl, hp, hl⟩ := h
    obtain ⟨hn, hv⟩ := heq p mem_cons_self
    refine ⟨rfl, hv.trans hp, ?_⟩
    rw [hn]
    exact ih hl fun y hy => heq y (mem_cons_of_mem p hy)

theorem DSeg.append_iff :
    DSeg next prev a p (l1 ++ l2) b q ↔ ∃ c r, DSeg next prev a p l1 c r ∧ DSeg next prev c r l2 b q := by
  induction l1 generalizing a p with
  | nil =>
    constructor
    · intro h
      exact ⟨a, p, ⟨rfl, rfl⟩, h⟩
    · rintro ⟨c, r, ⟨rfl, rfl⟩, h⟩
      exact h
  | cons x l ih =>
    constructor
    · rintro ⟨hp, hv, h⟩
      obtain ⟨c, r, h1, h2⟩ := ih.mp h
      exact ⟨c, r, ⟨hp, hv, h1⟩, h2⟩
    · rintro ⟨c, r, ⟨hp, hv, h1⟩, h2⟩
      exact ⟨hp, hv, ih.mpr ⟨c, r, h1, h2⟩⟩

theorem DSeg.chain (h : DSeg next prev a p l b 0) (h0 : ∀ x ∈ l, x ≠ 0) : Chain next p l := by
  induction l generalizing a p with
  | nil => exact h.2.symm
  | cons x l ih =>
    exact ⟨h.1, h0 x mem_cons_self, ih h.2.2 fun y hy => h0 y (mem_cons_of_mem x hy)⟩

theorem DSeg.last (h : DSeg next prev a p (l ++ [t]) b q) : b = t ∧ q = next t := by
  obtain ⟨c, r, -, -, -, hb, hq⟩ := DSeg.append_iff.mp h
  exact ⟨hb, hq⟩

theorem DSeg.setEnd {r : Nat} (h : DSeg next prev a p (l ++ [t]) b q) (ht : next' t = r)
    (hn : ∀ y ∈ l, next' y = next y) (hv : ∀ y ∈ l ++ [t], prev' y = prev y) :
    DSeg next' prev' a p (l ++ [t]) t r := by
  obtain ⟨c, s, h1, hs, hc, -⟩ := DSeg.append_iff.mp h
  refine DSeg.append_iff.mpr ⟨c, s, h1.congr fun y hy => ?_, hs, ?_, rfl, ht.symm⟩
  · exact ⟨hn y hy, hv y (mem_append_left _ hy)⟩
  · rw [hv t (mem_append_right _ mem_cons_self)]
    exact hc

theorem DSeg.setStart {c : Nat} (h : DSeg next prev a p (x :: l) b q) (hx : prev' x = c)
    (hn : ∀ y ∈ x :: l, next' y = next y) (hv : ∀ y ∈ l, prev' y = prev y) :
    DSeg next' prev' c x (x :: l) b q := by
  obtain ⟨rfl, -, h⟩ := h
  refine ⟨rfl, hx, ?_⟩
  rw [hn p mem_cons_self]
  exact h.congr fun y hy => ⟨hn y (mem_cons_of_mem p hy), hv y hy⟩

theorem DSeg.split (h : DSeg next prev a p (l1 ++ x :: l2) b q) :
    DSeg next prev a p l1 (prev x) x ∧ DSeg next prev x (next x) l2 b q := by
  obtain ⟨c, r, h1, rfl, hv, h2⟩ := DSeg.append_iff.mp h
  rw [hv]
  exact ⟨h1, h2⟩

/-- **Removal.**  The node before `x` is linked to the node after it, both ways. -/
theorem DSeg.remove (next' prev' : Nat → Nat) (h : DSeg next prev a p (l1 ++ x :: l2) b q)
    (hn1 : ∀ y ∈ l1, next' y = if y = prev x then next x else next y) (hv1 : ∀ y ∈ l1, prev' y = prev y)
    (hn2 : ∀ y ∈ l2, next' y = next y) (hv2 : ∀ y ∈ l2, prev' y = if y = next x then prev x else prev y)
    (hnd : (l1 ++ x :: l2).Nodup) :
    DSeg next' prev' a (if l1 = [] then next x else p) (l1 ++ l2) (if l2 = [] then prev x else b) q := by
  obtain ⟨h1, h2⟩ := h.split
  obtain ⟨hnd1, hnd2, -⟩ := nodup_append.mp hnd
  -- the part before `x` now ends at the node after it
  have hfront : DSeg next' prev' a (if l1 = [] then next x else p) l1 (prev x) (next x) := by
    rcases eq_nil_or_concat' l1 with rfl | ⟨l, z, rfl⟩
    · exact ⟨h1.1, rfl⟩
    · have hz : prev x = z := h1.last.1
      rw [if_neg (by simp)]
      rw [hz] at h1 hn1 ⊢
      refine h1.setEnd ?_ (fun y hy => ?_) hv1
      · rw [hn1 z (by simp), if_pos rfl]
      · have hyz : y ≠ z := by
          rintro rfl
          exact (nodup_append.mp hnd1).2.2 y hy y mem_cons_self rfl
        rw [hn1 y (mem_append_left _ hy), if_neg hyz]
  refine DSeg.append_iff.mpr ⟨_, _, hfront, ?_⟩
  cases l2 with
  | nil => exact ⟨rfl, h2.2⟩
  | cons y l =>
    have hy : next x = y := h2.1
    rw [hy] at h2 hv2 ⊢
    refine h2.setStart ?_ hn2 (fun w hw => ?_)
    · rw [hv2 y mem_cons_self, if_pos rfl]
    · have hwy : w ≠ y := by
        rintro rfl
        exact (nodup_cons.mp (nodup_cons.mp hnd2).2).1 hw
      rw [hv2 w (mem_cons_of_mem y hw), if_neg hwy]

theorem DSeg.neighbours (h : DSeg next prev 0 p (l1 ++ x :: l2) b 0) :
    (prev x = 0 ∧ l1 = [] ∨ prev x ∈ l1) ∧ (next x = 0 ∧ l2 = [] ∨ next x ∈ l2) := by
  obtain ⟨h1, h2⟩ := h.split
  constructor
  · rcases eq_nil_or_concat' l1 with rfl | ⟨l, z, rfl⟩
    · exact .inl ⟨h1.1, rfl⟩
    · rw [h1.last.1]
      exact .inr (by simp)
  · cases l2 with
    | nil => exact .inl ⟨h2.2.symm, rfl⟩
    | cons y l =>
      rw [h2.1]
      exact .inr mem_cons_self

theorem DSeg.not_neighbour (h : DSeg next prev 0 p (l1 ++ x :: l2) b 0) (hq : q ∉ l1 ++ x :: l2) (h0 : q ≠ 0) :
    q ≠ prev x ∧ q ≠ next x := by
  obtain ⟨hp, hn⟩ := h.neighbours
  constructor
  · rintro rfl
    rcases hp with ⟨hz, -⟩ | hm
    · exact h0 hz
    · exact hq (mem_append_left _ hm)
  · rintro rfl
    rcases hn with ⟨hz, -⟩ | hm
    · exact h0 hz
    · exact hq (mem_append_right _ (mem_cons_of_mem x hm))

theorem DSeg.unlink (next' prev' : Nat → Nat) (h : DSeg next prev 0 p (l1 ++ x :: l2) b 0)
    (h0 : ∀ y ∈ l1 ++ x :: l2, y ≠ 0) (hnd : (l1 ++ x :: l2).Nodup)
    (hn : ∀ y, y ≠ 0 → next' y = if y = prev x then next x else next y)
    (hv : ∀ y, y ≠ 0 → prev' y = if y = next x then prev x else prev y) :
    DSeg next' prev' 0 (if l1 = [] then next x else p) (l1 ++ l2) (if l2 = [] then prev x else b) 0 := by
  obtain ⟨hp, hx⟩ := h.neighbours
  have hdisj := (nodup_append.mp hnd).2.2
  have h1 : ∀ y ∈ l1, y ≠ 0 := fun y hy => h0 y (mem_append_left _ hy)
  have h2 : ∀ y ∈ l2, y ≠ 0 := fun y hy => h0 y (mem_append_right _ (mem_cons_of_mem x hy))
  refine h.remove next' prev' (fun y hy => hn y (h1 y hy)) (fun y hy => ?_) (fun y hy => ?_)
    (fun y hy => hv y (h2 y hy)) hnd
  · rw [hv y (h1 y hy)]
    refine if_neg ?_
    rintro rfl
    rcases hx with ⟨hx, -⟩ | hx
    · exact h1 _ hy hx
    · exact hdisj _ hy _ (mem_cons_of_mem x hx) rfl
  · rw [hn y (h2 y hy)]
    refine if_neg ?_
    rintro rfl
    rcases hp with ⟨hp, -⟩ | hp
    · exact h2 _ hy hp
    · exact hdisj _ hp _ (mem_cons_of_mem x hy) rfl

end

end InternetOs
