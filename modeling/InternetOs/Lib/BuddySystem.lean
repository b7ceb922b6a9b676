import Mathlib.Tactic

/-!
# The binary buddy system

A page is a complete binary tree of blocks: block `i` of order `k` covers the `2 ^ k` leaves
`i * 2 ^ k, …`, and its halves are the blocks `2 * i` and `2 * i + 1` of order `k - 1`.  The
state of an allocator is a label for every block of every page.  A `hole` is a block that
an operation in progress holds: it is on no list and nobody has it.

    the labels are those of a forest of split blocks                      (Labels.WF)
    splitting a hole, merging it with a free buddy, relabelling it        (WF.splitHole, WF.mergeHole, WF.relabel)
    two blocks in use, free or held that share a leaf are the same        (WF.eq_of_leaf)
    every leaf of a page is in such a block                               (WF.cover)
    a page of which nothing is in use is one free block                   (WF.free_of_idle)
-/

namespace InternetOs

inductive Label where
  | absent
  | free
  | live
  | hole
  | split
  deriving DecidableEq

/-- The label of a block that is handed out or managed as one piece. -/
def Label.Whole (v : Label) : Prop := v = .free ∨ v = .live ∨ v = .hole

theorem Label.Whole.ne {v : Label} (h : v.Whole) : v ≠ .absent ∧ v ≠ .split := by
  rcases h with rfl | rfl | rfl <;> decide

theorem Label.whole_of_ne {v : Label} (ha : v ≠ .absent) (hs : v ≠ .split) : v.Whole := by
  cases v with
  | absent => exact absurd rfl ha
  | split => exact absurd rfl hs
  | free => exact .inl rfl
  | live => exact .inr (.inl rfl)
  | hole => exact .inr (.inr rfl)

/-- The label of each page's blocks, by order and index. -/
abbrev Labels (P : Type) := P → Nat → Nat → Label

/-- The other half of the parent of block `i`. -/
def buddyOf (i : Nat) : Nat := if i % 2 = 0 then i + 1 else i - 1

theorem buddyOf_div (i : Nat) : buddyOf i / 2 = i / 2 := by
  unfold buddyOf
  split <;> omega

theorem buddyOf_ne (i : Nat) : buddyOf i ≠ i := by
  unfold buddyOf
  split <;> omega

theorem eq_or_buddyOf {i j : Nat} (h : j / 2 = i / 2) : j = i ∨ j = buddyOf i := by
  unfold buddyOf
  split <;> omega

namespace Labels

variable {P : Type}

/-- The labels describe a forest: a block is there if its parent is split, leaves are not
split, and two free halves of one block have been merged. -/
structure WF (top : Nat) (L : Labels P) : Prop where
  above : ∀ pg k i, top < k → L pg k i = .absent
  root : ∀ pg i, i ≠ 0 → L pg top i = .absent
  child : ∀ pg k i, k < top → (L pg k i ≠ .absent ↔ L pg (k + 1) (i / 2) = .split)
  leaf : ∀ pg i, L pg 0 i ≠ .split
  apart : ∀ pg k i, k < top → ¬ (L pg k i = .free ∧ L pg k (buddyOf i) = .free)

/-- The blocks as an operation sees them before any page is added. -/
def empty : Labels P := fun _ _ _ => .absent

theorem WF.empty {top : Nat} : WF top (empty : Labels P) where
  above _ _ _ _ := rfl
  root _ _ _ := rfl
  child _ _ _ _ := ⟨fun h => absurd rfl h, fun h => by cases h⟩
  leaf _ _ h := by cases h
  apart _ _ _ _ h := by cases h.1

section
variable {top : Nat} {L : Labels P} {pg : P} {k i : Nat} {v : Label}

section
variable (h : L.WF top)
include h

theorem WF.le_top (hb : L pg k i ≠ .absent) : k ≤ top := by
  by_contra hk
  exact hb (h.above pg k i (by omega))

theorem WF.parent (hb : L pg k i ≠ .absent) (hk : k < top) :
    L pg (k + 1) (i / 2) = .split := (h.child pg k i hk).mp hb

theorem WF.buddy_present (hb : L pg k i ≠ .absent) (hk : k < top) : L pg k (buddyOf i) ≠ .absent := by
  rw [h.child pg k _ hk, buddyOf_div]
  exact h.parent hb hk

/-- All blocks around a block are split. -/
theorem WF.ancestor (hb : L pg k i ≠ .absent) (d : Nat) (hd : k + d < top) :
    L pg (k + d + 1) (i / 2 ^ (d + 1)) = .split := by
  induction d with
  | zero =>
    exact h.parent hb hd
  | succ d ih =>
    have hsplit := ih (by omega)
    have hpres : L pg (k + d + 1) (i / 2 ^ (d + 1)) ≠ .absent := by
      rw [hsplit]
      decide
    have := h.parent hpres (by omega)
    rw [Nat.div_div_eq_div_mul] at this
    exact this

/-- The root of a block's page is there, and the block lies inside it. -/
theorem WF.page (hb : L pg k i ≠ .absent) : L pg top 0 ≠ .absent ∧ i < 2 ^ (top - k) := by
  rcases Nat.lt_or_ge k top with hk | hk
  · obtain ⟨d, rfl⟩ : ∃ d, top = k + d + 1 := ⟨top - k - 1, by omega⟩
    have hsplit := h.ancestor hb d (by omega)
    have hzero : i / 2 ^ (d + 1) = 0 := by
      by_contra hne
      rw [h.root pg _ hne] at hsplit
      cases hsplit
    rw [hzero] at hsplit
    refine ⟨by rw [hsplit]; decide, ?_⟩
    rw [show k + d + 1 - k = d + 1 by omega]
    exact (Nat.div_eq_zero_iff_lt (Nat.two_pow_pos _)).mp hzero
  · have hk' : k = top := le_antisymm (h.le_top hb) hk
    subst hk'
    have hi : i = 0 := by
      by_contra hne
      exact hb (h.root pg i hne)
    subst hi
    exact ⟨hb, by simp⟩

theorem WF.below (hb : L pg k i ≠ .split) {k' j : Nat} (hk : k' < k) (hkt : k ≤ top)
    (hj : j / 2 ^ (k - k') = i) : L pg k' j = .absent := by
  by_contra hne
  have := h.ancestor hne (k - k' - 1) (by omega)
  rw [show k' + (k - k' - 1) + 1 = k by omega, show k - k' - 1 + 1 = k - k' by omega, hj] at this
  exact hb this

/-- The halves of a block that is not split are not there. -/
theorem WF.half_absent (hb : L pg (k + 1) i = .hole) (j : Nat) (hj : j / 2 = i) : L pg k j = .absent := by
  refine h.below (by rw [hb]; decide) (Nat.lt_succ_self k) (h.le_top (by rw [hb]; decide)) ?_
  rw [show k + 1 - k = 1 by omega]
  exact hj

/-- **Disjointness.**  Two whole blocks of a page that share a leaf are the same block. -/
theorem WF.eq_of_leaf {k' i' j : Nat} (hb : (L pg k i).Whole)
    (hb' : (L pg k' i').Whole) (hj : j / 2 ^ k = i) (hj' : j / 2 ^ k' = i') : k = k' ∧ i = i' := by
  -- the smaller block would lie below the larger one
  have key : ∀ {k i k' i' : Nat}, (L pg k i).Whole → (L pg k' i').Whole → j / 2 ^ k = i →
      j / 2 ^ k' = i' → ¬ k < k' := by
    intro k i k' i' hb hb' hj hj' hlt
    refine hb.ne.1 (h.below hb'.ne.2 hlt (h.le_top hb'.ne.1) ?_)
    rw [← hj, Nat.div_div_eq_div_mul, ← pow_add, show k + (k' - k) = k' by omega]
    exact hj'
  have hkk : k = k' := le_antisymm (not_lt.mp (key hb' hb hj' hj)) (not_lt.mp (key hb hb' hj hj'))
  subst hkk
  exact ⟨rfl, hj.symm.trans hj'⟩

/-- **Conservation.**  Every leaf of a page is in a whole block. -/
theorem WF.cover (hpg : L pg top 0 ≠ .absent) (j : Nat) (hj : j < 2 ^ top) :
    ∃ k ≤ top, (L pg k (j / 2 ^ k)).Whole := by
  -- descend from the root as long as the block around `j` is split
  have descend : ∀ k, k ≤ top → L pg k (j / 2 ^ k) ≠ .absent → ∃ k ≤ top, (L pg k (j / 2 ^ k)).Whole := by
    intro k
    induction k with
    | zero =>
      intro hk hb
      exact ⟨0, hk, Label.whole_of_ne hb (h.leaf pg _)⟩
    | succ k ih =>
      intro hk hb
      by_cases hs : L pg (k + 1) (j / 2 ^ (k + 1)) = .split
      · refine ih (by omega) ((h.child pg k _ hk).mpr ?_)
        rw [Nat.div_div_eq_div_mul]
        exact hs
      · exact ⟨k + 1, hk, Label.whole_of_ne hb hs⟩
  refine descend top le_rfl ?_
  rw [Nat.div_eq_of_lt hj]
  exact hpg

/-- **Coalescing.**  A page of which no block is live or held is one free block. -/
theorem WF.free_of_idle (hpg : L pg top 0 ≠ .absent) (hidle : ∀ k i, L pg k i ≠ .live ∧ L pg k i ≠ .hole) :
    L pg top 0 = .free ∧ ∀ k i, L pg k i ≠ .split := by
  have free : ∀ k i, L pg k i ≠ .absent → L pg k i ≠ .split → L pg k i = .free := by
    intro k i ha hs
    rcases Label.whole_of_ne ha hs with h1 | h1 | h1
    · exact h1
    · exact absurd h1 (hidle k i).1
    · exact absurd h1 (hidle k i).2
  -- the halves of a smallest split block would both be free
  have hns : ∀ k i, L pg k i ≠ .split := by
    intro k
    induction k with
    | zero => exact h.leaf pg
    | succ k ih =>
      intro i hs
      have hk : k < top := by
        have hle : k + 1 ≤ top := h.le_top (by rw [hs]; decide)
        omega
      have half : ∀ j, j / 2 = i → L pg k j = .free := by
        intro j hj
        have hpres : L pg k j ≠ .absent := (h.child pg k j hk).mpr (by rw [hj]; exact hs)
        exact free _ _ hpres (ih j)
      refine h.apart pg k (2 * i) hk ⟨half _ (by omega), half _ ?_⟩
      rw [buddyOf_div]
      omega
  exact ⟨free _ _ hpg (hns top 0), hns⟩

end

variable [DecidableEq P]

def set (L : Labels P) (pg : P) (k i : Nat) (v : Label) : Labels P := fun pg' k' i' =>
  if pg' = pg ∧ k' = k ∧ i' = i then v else L pg' k' i'

@[simp] theorem set_self (L : Labels P) (pg : P) (k i : Nat) (v : Label) :
    L.set pg k i v pg k i = v := if_pos ⟨rfl, rfl, rfl⟩

theorem set_of_ne (L : Labels P) {pg pg' : P} {k k' i i' : Nat} (v : Label)
    (h : ¬ (pg' = pg ∧ k' = k ∧ i' = i)) : L.set pg k i v pg' k' i' = L pg' k' i' := if_neg h

section
variable {pg' : P} {k' i' : Nat} {w : Label}

theorem set_eq_self_iff : L.set pg k i w pg' k' i' = w ↔ L pg' k' i' = w ∨ (pg' = pg ∧ k' = k ∧ i' = i) := by
  unfold set
  split_ifs with h <;> simp [h]

theorem set_eq_iff_and (hv : v ≠ w) :
    L.set pg k i v pg' k' i' = w ↔ L pg' k' i' = w ∧ ¬ (pg' = pg ∧ k' = k ∧ i' = i) := by
  unfold set
  split_ifs with h <;> simp [h, hv]

theorem set_eq_iff_of_ne (hv : v ≠ w) (hL : L pg k i ≠ w) : L.set pg k i v pg' k' i' = w ↔ L pg' k' i' = w := by
  rw [set_eq_iff_and hv, and_iff_left_iff_imp]
  rintro hw ⟨rfl, rfl, rfl⟩
  exact hL hw

end

/-- A whole block changes hands; it may become free if its buddy is not. -/
theorem WF.relabel (h : L.WF top) (hb : (L pg k i).Whole) (hv : v.Whole)
    (hfree : v = .free → k < top → L pg k (buddyOf i) ≠ .free) : (L.set pg k i v).WF top := by
  -- which blocks are there and which are split is as before
  have habs : ∀ pg' k' i', L.set pg k i v pg' k' i' = .absent ↔ L pg' k' i' = .absent :=
    fun _ _ _ => set_eq_iff_of_ne hv.ne.1 hb.ne.1
  have hsplit : ∀ pg' k' i', L.set pg k i v pg' k' i' = .split ↔ L pg' k' i' = .split :=
    fun _ _ _ => set_eq_iff_of_ne hv.ne.2 hb.ne.2
  refine ⟨fun pg' k' i' hk => (habs ..).mpr (h.above pg' k' i' hk),
    fun pg' i' hi => (habs ..).mpr (h.root pg' i' hi), fun pg' k' i' hk => ?_,
    fun pg' i' hc => h.leaf pg' i' ((hsplit ..).mp hc), fun pg' k' i' hk => ?_⟩
  · rw [Ne, habs, hsplit]
    exact h.child pg' k' i' hk
  · rintro ⟨h1, h2⟩
    by_cases he : pg' = pg ∧ k' = k ∧ i' = i
    · obtain ⟨rfl, rfl, rfl⟩ := he
      rw [set_self] at h1
      rw [set_of_ne L v (fun hc => buddyOf_ne _ hc.2.2)] at h2
      exact hfree h1 hk h2
    · rw [set_of_ne L v he] at h1
      by_cases he' : pg' = pg ∧ k' = k ∧ buddyOf i' = i
      · obtain ⟨rfl, rfl, rfl⟩ := he'
        rw [set_self] at h2
        refine hfree h2 hk ?_
        have : buddyOf (buddyOf i') = i' := by
          unfold buddyOf
          split <;> split <;> omega
        rw [this]
        exact h1
      · rw [set_of_ne L v he'] at h2
        exact h.apart pg' k' i' hk ⟨h1, h2⟩

theorem WF.addPage (h : L.WF top) (hpg : L pg top 0 = .absent) (hv : v.Whole) : (L.set pg top 0 v).WF top := by
  have hv' : v ≠ .split := hv.ne.2
  have hroot : L pg top 0 ≠ .split := by
    rw [hpg]
    decide
  refine ⟨fun pg' k' i' hk => ?_, fun pg' i' hi => ?_, fun pg' k' i' hk => ?_, fun pg' i' hc => ?_,
    fun pg' k' i' hk => ?_⟩
  · rw [set_of_ne L v (fun hc => absurd hc.2.1 (by omega))]
    exact h.above pg' k' i' hk
  · rw [set_of_ne L v (fun hc => hi hc.2.2)]
    exact h.root pg' i' hi
  · rw [set_of_ne L v (fun hc => absurd hc.2.1 (by omega)), h.child pg' k' i' hk]
    exact (set_eq_iff_of_ne hv' hroot).symm
  · exact h.leaf pg' i' ((set_eq_iff_of_ne hv' hroot).mp hc)
  · rw [set_of_ne L v (fun hc => absurd hc.2.1 (by omega)), set_of_ne L v (fun hc => absurd hc.2.1 (by omega))]
    exact h.apart pg' k' i' hk

/-- The hole is split: the lower half is the new hole, the upper half is free. -/
def splitHole (L : Labels P) (pg : P) (k i : Nat) : Labels P := fun pg' k' i' =>
  if pg' = pg ∧ k' = k + 1 ∧ i' = i then .split
  else if pg' = pg ∧ k' = k ∧ i' = 2 * i then .hole
  else if pg' = pg ∧ k' = k ∧ i' = 2 * i + 1 then .free
  else L pg' k' i'

/-- The hole and its free buddy become one hole. -/
def mergeHole (L : Labels P) (pg : P) (k i : Nat) : Labels P := fun pg' k' i' =>
  if pg' = pg ∧ k' = k + 1 ∧ i' = i / 2 then .hole
  else if pg' = pg ∧ k' = k ∧ i' / 2 = i / 2 then .absent
  else L pg' k' i'

section
variable {pg' : P} {k' i' : Nat}

theorem splitHole_absent (hb : L pg (k + 1) i = .hole) :
    L.splitHole pg k i pg' k' i' = .absent ↔ L pg' k' i' = .absent ∧ ¬ (pg' = pg ∧ k' = k ∧ i' / 2 = i) := by
  unfold splitHole
  grind

theorem splitHole_split (hhalf : ∀ j, j / 2 = i → L pg k j = .absent) :
    L.splitHole pg k i pg' k' i' = .split ↔ L pg' k' i' = .split ∨ (pg' = pg ∧ k' = k + 1 ∧ i' = i) := by
  unfold splitHole
  grind

theorem splitHole_free (hb : L pg (k + 1) i = .hole) (hhalf : ∀ j, j / 2 = i → L pg k j = .absent) :
    L.splitHole pg k i pg' k' i' = .free ↔ L pg' k' i' = .free ∨ (pg' = pg ∧ k' = k ∧ i' = 2 * i + 1) := by
  unfold splitHole
  grind

theorem splitHole_live (hb : L pg (k + 1) i = .hole) (hhalf : ∀ j, j / 2 = i → L pg k j = .absent) :
    L.splitHole pg k i pg' k' i' = .live ↔ L pg' k' i' = .live := by
  unfold splitHole
  grind

theorem splitHole_hole (hhalf : ∀ j, j / 2 = i → L pg k j = .absent) :
    L.splitHole pg k i pg' k' i' = .hole ↔ (L pg' k' i' = .hole ∧ ¬ (pg' = pg ∧ k' = k + 1 ∧ i' = i)) ∨
        (pg' = pg ∧ k' = k ∧ i' = 2 * i) := by
  unfold splitHole
  grind

theorem mergeHole_absent (hpar : L pg (k + 1) (i / 2) = .split) :
    L.mergeHole pg k i pg' k' i' = .absent ↔ L pg' k' i' = .absent ∨ (pg' = pg ∧ k' = k ∧ i' / 2 = i / 2) := by
  unfold mergeHole
  grind

theorem mergeHole_split (hb : L pg k i = .hole) (hbuddy : L pg k (buddyOf i) = .free) :
    L.mergeHole pg k i pg' k' i' = .split ↔ L pg' k' i' = .split ∧ ¬ (pg' = pg ∧ k' = k + 1 ∧ i' = i / 2) := by
  have hhalf := @eq_or_buddyOf i i'
  unfold mergeHole
  grind

theorem mergeHole_free (hb : L pg k i = .hole) (hpar : L pg (k + 1) (i / 2) = .split) :
    L.mergeHole pg k i pg' k' i' = .free ↔ L pg' k' i' = .free ∧ ¬ (pg' = pg ∧ k' = k ∧ i' = buddyOf i) := by
  have hhalf := @eq_or_buddyOf i i'
  have hdiv := buddyOf_div i
  unfold mergeHole
  grind

theorem mergeHole_live (hb : L pg k i = .hole) (hbuddy : L pg k (buddyOf i) = .free)
    (hpar : L pg (k + 1) (i / 2) = .split) : L.mergeHole pg k i pg' k' i' = .live ↔ L pg' k' i' = .live := by
  have hhalf := @eq_or_buddyOf i i'
  unfold mergeHole
  grind

theorem mergeHole_hole (hbuddy : L pg k (buddyOf i) = .free) :
    L.mergeHole pg k i pg' k' i' = .hole ↔ (L pg' k' i' = .hole ∧ ¬ (pg' = pg ∧ k' = k ∧ i' = i)) ∨
        (pg' = pg ∧ k' = k + 1 ∧ i' = i / 2) := by
  have hhalf := @eq_or_buddyOf i i'
  unfold mergeHole
  grind

end

theorem WF.splitHole (h : L.WF top) (hb : L pg (k + 1) i = .hole) : (L.splitHole pg k i).WF top := by
  have hkt : k + 1 ≤ top := h.le_top (by rw [hb]; decide)
  have hhalf := h.half_absent hb
  refine ⟨fun pg' k' i' hk => ?_, fun pg' i' hi => ?_, fun pg' k' i' hk => ?_, fun pg' i' hc => ?_,
    fun pg' k' i' hk => ?_⟩
  · exact (splitHole_absent hb).mpr ⟨h.above pg' k' i' hk, fun hc => absurd hc.2.1 (by omega)⟩
  · exact (splitHole_absent hb).mpr ⟨h.root pg' i' hi, fun hc => absurd hc.2.1 (by omega)⟩
  · rw [Ne, splitHole_absent hb, splitHole_split hhalf, ← h.child pg' k' i' hk]
    constructor
    · intro hc
      by_cases hold : L pg' k' i' = .absent
      · obtain ⟨rfl, rfl, rfl⟩ := not_not.mp (fun hn => hc ⟨hold, hn⟩)
        exact .inr ⟨rfl, rfl, rfl⟩
      · exact .inl hold
    · rintro (h1 | ⟨h1, h2, h3⟩) ⟨h4, h5⟩
      · exact h1 h4
      · exact h5 ⟨h1, by omega, h3⟩
  · rcases (splitHole_split hhalf).mp hc with h1 | ⟨-, h1, -⟩
    · exact h.leaf pg' i' h1
    · omega
  · rintro ⟨h1, h2⟩
    -- the buddy of the new free half is the hole, which is new as well
    have hnew : ∀ j, j / 2 = i → L pg k j ≠ .free := by
      intro j hj
      rw [hhalf j hj]
      decide
    rcases (splitHole_free hb hhalf).mp h1 with f1 | ⟨rfl, rfl, rfl⟩
    · rcases (splitHole_free hb hhalf).mp h2 with f2 | ⟨rfl, rfl, f2⟩
      · exact h.apart pg' k' i' hk ⟨f1, f2⟩
      · refine hnew i' ?_ f1
        rw [← buddyOf_div]
        omega
    · rcases (splitHole_free hb hhalf).mp h2 with f2 | ⟨-, -, f2⟩
      · exact hnew _ (by rw [buddyOf_div]; omega) f2
      · exact buddyOf_ne _ f2

theorem WF.mergeHole (h : L.WF top) (hk : k < top) (hb : L pg k i = .hole)
    (hbuddy : L pg k (buddyOf i) = .free) : (L.mergeHole pg k i).WF top := by
  have hpar : L pg (k + 1) (i / 2) = .split := h.parent (by rw [hb]; decide) hk
  refine ⟨fun pg' k' i' hk' => ?_, fun pg' i' hi => ?_, fun pg' k' i' hk' => ?_, fun pg' i' hc => ?_,
    fun pg' k' i' hk' hc => ?_⟩
  · exact (mergeHole_absent hpar).mpr (.inl (h.above pg' k' i' hk'))
  · exact (mergeHole_absent hpar).mpr (.inl (h.root pg' i' hi))
  · rw [Ne, mergeHole_absent hpar, mergeHole_split hb hbuddy, ← h.child pg' k' i' hk', not_or]
    constructor
    · rintro ⟨h1, h2⟩
      exact ⟨h1, fun hc => h2 ⟨hc.1, by omega, hc.2.2⟩⟩
    · rintro ⟨h1, h2⟩
      exact ⟨h1, fun hc => h2 ⟨hc.1, by omega, hc.2.2⟩⟩
  · exact h.leaf pg' i' ((mergeHole_split hb hbuddy).mp hc).1
  · exact h.apart pg' k' i' hk' ⟨((mergeHole_free hb hpar).mp hc.1).1, ((mergeHole_free hb hpar).mp hc.2).1⟩

end

end Labels

end InternetOs
