import InternetOs.Lib.Ring
import InternetOs.Mem.Buddy

/-!
# What the tables and lists of an allocator say about its blocks

`Rep` relates the bits, the page table and the free lists in memory to the labels of the
buddy system.  Each statement of the allocators is then one step on labels:

    lst_pop            a free block becomes the hole                       (Rep.pop)
    splitting          the hole becomes its lower half                     (Rep.splitHole)
    lst_remove, merge  the hole and its free buddy become one hole         (Rep.mergeHole)
    lst_push           the hole becomes a free block                       (Rep.push)
-/

namespace InternetOs.Mem

open Function Links

/-! ## `list.c` -/

namespace Links

variable (m : Links) (e v y : Nat)

theorem next_setNext : (m.setNext e v y).next = if y = e then v else (m y).next := by
  unfold setNext
  by_cases h : y = e
  · subst h
    rw [update_self, if_pos rfl]
  · rw [update_of_ne h, if_neg h]

theorem prev_setNext : (m.setNext e v y).prev = (m y).prev := by
  unfold setNext
  by_cases h : y = e
  · subst h
    rw [update_self]
  · rw [update_of_ne h]

theorem prev_setPrev : (m.setPrev e v y).prev = if y = e then v else (m y).prev := by
  unfold setPrev
  by_cases h : y = e
  · subst h
    rw [update_self, if_pos rfl]
  · rw [update_of_ne h, if_neg h]

theorem next_setPrev : (m.setPrev e v y).next = (m y).next := by
  unfold setPrev
  by_cases h : y = e
  · subst h
    rw [update_self]
  · rw [update_of_ne h]

/-- The lists `F` on the heads `s` in the memory `m`. -/
def Rings {ι : Type} (m : Links) (s : ι → Nat) (F : ι → List Nat) : Prop :=
  InternetOs.Rings (fun x => (m x).next) (fun x => (m x).prev) s F

end Links

section
variable {ι : Type} {m : Links} {s : ι → Nat} {F : ι → List Nat}

theorem lstEmpty_iff (h : m.Rings s F) (x : ι) : lstEmpty (s x) m = true ↔ F x = [] := by
  unfold lstEmpty
  rw [beq_iff_eq]
  exact (h.ring x).nil_iff (h.sent x x)

variable [DecidableEq ι]

theorem lstPush_rings (h : m.Rings s F) (x : ι) {e : Nat} (he : ∀ y, e ≠ s y ∧ e ∉ F y) (hs : s x ≠ 0) (h0 : e ≠ 0) :
    ∃ m', lstPush (s x) e m = some m' ∧ m'.Rings s (update F x (e :: F x)) := by
  have hse : s x ≠ e := fun heq => (he x).1 heq.symm
  refine ⟨_, by rw [lstPush, if_neg hs, if_neg h0], InternetOs.Rings.push h x e he ?_ ?_⟩
  · intro y
    rw [next_setNext, next_setPrev, next_setPrev, next_setNext]
  · intro y
    rw [prev_setNext, prev_setPrev, prev_setPrev, prev_setNext,
      next_setPrev, next_setNext, if_neg hse]

theorem lstRemove_rings (h : m.Rings s F) {x : ι} {e : Nat} (he : e ∈ F x) (hs : s x ≠ 0) (h0 : ∀ y ∈ F x, y ≠ 0) :
    ∃ m', lstRemove e m = some m' ∧ m'.Rings s (update F x ((F x).erase e)) := by
  obtain ⟨hp, hn⟩ : ((m e).prev = s x ∨ (m e).prev ∈ F x) ∧ ((m e).next = s x ∨ (m e).next ∈ F x) :=
    InternetOs.Rings.neighbours h he
  have hself : e ≠ (m e).prev := Ne.symm (InternetOs.Rings.prev_ne h he)
  have hp0 : (m e).prev ≠ 0 := by
    rcases hp with hp | hp
    · rwa [hp]
    · exact h0 _ hp
  have hn0 : (m e).next ≠ 0 := by
    rcases hn with hn | hn
    · rwa [hn]
    · exact h0 _ hn
  refine ⟨_, by rw [lstRemove, if_neg (h0 e he), if_neg hp0, if_neg hn0], InternetOs.Rings.remove h x e he ?_ ?_⟩
  · intro y
    rw [next_setPrev, next_setNext]
  · intro y
    rw [prev_setPrev, prev_setNext, prev_setNext, next_setNext, if_neg hself]

/-- `lst_remove` leaves the pointers of the element that it takes out. -/
theorem lstRemove_node {m' : Links} {e : Nat} (h : lstRemove e m = some m') : m' e = m e := by
  unfold lstRemove at h
  split_ifs at h
  cases h
  ext
  · rw [prev_setPrev, prev_setNext]
    exact ite_self _
  · rw [next_setPrev, next_setNext]
    exact ite_self _

/-- `lst_push` writes to the element, the head and what was first in the list. -/
theorem lstPush_other {m' : Links} {lst e y : Nat} (h : lstPush lst e m = some m') (he : y ≠ e) (hl : y ≠ lst)
    (hn : y ≠ (m lst).next) : m' y = m y := by
  unfold lstPush at h
  split_ifs at h
  cases h
  have hfirst : (((m.setNext e (m lst).next).setPrev e lst) lst).next = (m lst).next := by
    rw [next_setPrev, next_setNext]
    exact ite_self _
  ext
  · rw [prev_setNext, prev_setPrev, hfirst, if_neg hn, prev_setPrev, if_neg he, prev_setNext]
  · rw [next_setNext, if_neg hl, next_setPrev, next_setPrev, next_setNext, if_neg he]

theorem lstPop_rings (h : m.Rings s F) {x : ι} {e : Nat} {l : List Nat} (hF : F x = e :: l)
    (hs : s x ≠ 0) (h0 : ∀ y ∈ F x, y ≠ 0) :
    ∃ m', lstPop (s x) m = some (e, m') ∧ m'.Rings s (update F x l) ∧ m' e = m e := by
  have he : e ∈ F x := hF ▸ List.mem_cons_self
  have hnext : (m (s x)).next = e := by
    have hr := h.ring x
    rw [hF] at hr
    exact hr.head
  obtain ⟨m', hm, hr⟩ := lstRemove_rings h he hs h0
  rw [hF, List.erase_cons_head] at hr
  refine ⟨m', ?_, hr, lstRemove_node hm⟩
  unfold lstPop
  rw [hnext, if_neg (h0 e he), hm]
  rfl

end

/-! ## Blocks -/

namespace Buddy

section
variable (c : Buddy)

/-- `x` is the address of a byte of block `i` of order `k` of the page at `base`. -/
def InBlk (base k i x : Nat) : Prop := base ≤ x ∧ (x - base) / c.blkSize k = i

theorem nodeSize_le_leaf : nodeSize ≤ c.leaf := by
  obtain ⟨m, hm, h4, -⟩ := c.leaf_pow
  rw [hm]
  show 2 ^ 4 ≤ 2 ^ m
  exact Nat.pow_le_pow_right (by norm_num) h4

theorem leaf_pos : 0 < c.leaf := lt_of_lt_of_le (by decide) c.nodeSize_le_leaf

theorem blkSize_pos (k : Nat) : 0 < c.blkSize k := Nat.mul_pos (Nat.two_pow_pos k) c.leaf_pos

theorem nodeSize_le_blkSize (k : Nat) : nodeSize ≤ c.blkSize k :=
  c.nodeSize_le_leaf.trans (Nat.le_mul_of_pos_left _ (Nat.two_pow_pos k))

theorem blkSize_succ (k : Nat) : c.blkSize (k + 1) = c.blkSize k * 2 := by
  unfold blkSize
  ring

theorem blkSize_mul {k : Nat} (hk : k ≤ c.maxSize) : 2 ^ (c.maxSize - k) * c.blkSize k = c.pageSize := by
  unfold pageSize blkSize
  rw [← mul_assoc, ← pow_add, Nat.sub_add_cancel hk]

theorem inBlk_iff {base k i x : Nat} :
    c.InBlk base k i x ↔ c.addr k i base ≤ x ∧ x < c.addr k i base + c.blkSize k := by
  unfold InBlk addr
  have hpos := c.blkSize_pos k
  constructor
  · rintro ⟨hle, hi⟩
    have h1 := Nat.div_mul_le_self (x - base) (c.blkSize k)
    have h2 := Nat.lt_div_mul_add (a := x - base) hpos
    rw [hi] at h1 h2
    omega
  · rintro ⟨hle, hlt⟩
    refine ⟨by omega, ?_⟩
    rw [Nat.div_eq_iff hpos]
    omega

theorem inBlk_addr (base k i : Nat) : c.InBlk base k i (c.addr k i base) :=
  c.inBlk_iff.mpr ⟨le_rfl, Nat.lt_add_of_pos_right (c.blkSize_pos k)⟩

theorem blkIndex_addr (base k i : Nat) : c.blkIndex k (c.addr k i base) base = i :=
  (c.inBlk_addr base k i).2

theorem blkIndex_succ (k p base : Nat) : c.blkIndex (k + 1) p base = c.blkIndex k p base / 2 := by
  unfold blkIndex
  rw [blkSize_succ, Nat.div_div_eq_div_mul]

theorem addr_succ (base k i : Nat) : c.addr (k + 1) i base = c.addr k (2 * i) base := by
  unfold addr
  rw [blkSize_succ]
  ring

theorem addr_upper (base k i : Nat) : c.addr (k + 1) i base + c.blkSize k = c.addr k (2 * i + 1) base := by
  unfold addr
  rw [blkSize_succ]
  ring

theorem InBlk.parent {c : Buddy} {base k i x : Nat} (h : c.InBlk base k i x) : c.InBlk base (k + 1) (i / 2) x := by
  refine ⟨h.1, ?_⟩
  rw [blkSize_succ, ← Nat.div_div_eq_div_mul, h.2]

theorem lt_nsizes {k : Nat} (h : k ≤ c.maxSize) : k < c.nsizes := by
  have := c.nsizes_pos
  unfold maxSize at h
  omega

/-- All list heads in the memory, with those of the allocator among them; they lie below the
address `lim`, from which on there may be pages. -/
structure Heads (ι : Type) where
  s : ι → Nat
  r : Fin c.nsizes → ι
  lim : Nat
  head : ∀ k, s (r k) = c.freelist k
  inj : Function.Injective r
  pos : ∀ x, s x ≠ 0
  low : ∀ x, s x + nodeSize ≤ lim

/-- The page table with `count` pages and the free lists `F` are those of the labels `L`. -/
structure Owns {ι : Type} (H : c.Heads ι) (plist : Nat → Pagelist) (count : Nat) (L : Labels Nat)
    (F : ι → List Nat) : Prop where
  wf : L.WF c.maxSize
  count_le : count ≤ c.npages
  page : ∀ pg, L pg c.maxSize 0 ≠ .absent ↔ pg < count
  used : ∀ pg, (plist pg).pageaddr ≠ 0 ↔ pg < count
  ram : ∀ pg < count, kernbase ≤ (plist pg).pageaddr ∧ (plist pg).pageaddr + c.pageSize ≤ phystop
  low : ∀ pg < count, H.lim ≤ (plist pg).pageaddr
  disj : ∀ pg < count, ∀ pg' < count, pg ≠ pg' → (plist pg).pageaddr + c.pageSize ≤ (plist pg').pageaddr ∨
      (plist pg').pageaddr + c.pageSize ≤ (plist pg).pageaddr
  split : ∀ pg k i, 0 < k → k ≤ c.maxSize → ((plist pg).split k i = true ↔ L pg k i = .split)
  alloc : ∀ pg k i, k < c.maxSize → L pg k i ≠ .hole →
    ((plist pg).alloc k i = true ↔ L pg k i = .live ∨ L pg k i = .split)
  lists : ∀ k e, e ∈ F (H.r k) ↔ ∃ pg i, L pg k i = .free ∧ e = c.addr k i (plist pg).pageaddr

/-- The allocator's tables, lists and memory.  Nodes of other lists may lie in its live blocks,
but in no other block. -/
structure Rep {ι : Type} (H : c.Heads ι) (a : Arena) (count : Nat) (L : Labels Nat)
    (F : ι → List Nat) : Prop extends Owns c H a.plist count L F where
  rings : a.mem.Rings H.s F
  foreign : ∀ x, (∀ k, x ≠ H.r k) → ∀ e ∈ F x, ∀ pg k i, L pg k i = .free ∨ L pg k i = .hole →
    ¬ c.InBlk (a.plist pg).pageaddr k i e

end

section
variable {c : Buddy} {ι : Type} {H : c.Heads ι} {plist : Nat → Pagelist} {count : Nat}
  {L : Labels Nat} {F : ι → List Nat} {pg k i x : Nat}

section
variable (h : Owns c H plist count L F)
include h

theorem Owns.inPage (hb : L pg k i ≠ .absent) (hx : c.InBlk (plist pg).pageaddr k i x) :
    pg < count ∧ (plist pg).pageaddr ≤ x ∧ x < (plist pg).pageaddr + c.pageSize := by
  obtain ⟨hroot, hi⟩ := h.wf.page hb
  refine ⟨(h.page pg).mp hroot, hx.1, ?_⟩
  have hlt : x - (plist pg).pageaddr < 2 ^ (c.maxSize - k) * c.blkSize k := by
    rw [← Nat.div_lt_iff_lt_mul (c.blkSize_pos k), hx.2]
    exact hi
  rw [c.blkSize_mul (h.wf.le_top hb)] at hlt
  omega

theorem Owns.block_inside (hb : L pg k i ≠ .absent) :
    pg < count ∧ (plist pg).pageaddr ≤ c.addr k i (plist pg).pageaddr ∧
      c.addr k i (plist pg).pageaddr + c.blkSize k ≤ (plist pg).pageaddr + c.pageSize := by
  obtain ⟨hc, hlo, -⟩ := h.inPage hb (c.inBlk_addr _ _ _)
  have hpos := c.blkSize_pos k
  -- the last byte of the block is in the page as well
  have hlast : c.InBlk (plist pg).pageaddr k i (c.addr k i (plist pg).pageaddr + c.blkSize k - 1) := by
    rw [c.inBlk_iff]
    omega
  obtain ⟨-, -, hhi⟩ := h.inPage hb hlast
  exact ⟨hc, hlo, by omega⟩

/-- **Disjointness.**  Whole blocks that share a byte are the same. -/
theorem Owns.block_eq {pg' k' i' : Nat} (hb : (L pg k i).Whole)
    (hb' : (L pg' k' i').Whole) (hx : c.InBlk (plist pg).pageaddr k i x)
    (hx' : c.InBlk (plist pg').pageaddr k' i' x) : pg = pg' ∧ k = k' ∧ i = i' := by
  obtain ⟨hc, hlo, hhi⟩ := h.inPage hb.ne.1 hx
  obtain ⟨hc', hlo', hhi'⟩ := h.inPage hb'.ne.1 hx'
  have hpg : pg = pg' := by
    by_contra hne
    rcases h.disj pg hc pg' hc' hne with hd | hd <;> omega
  subst hpg
  refine ⟨rfl, h.wf.eq_of_leaf (j := (x - (plist pg).pageaddr) / c.leaf) hb hb' ?_ ?_⟩
  · rw [Nat.div_div_eq_div_mul, mul_comm]
    exact hx.2
  · rw [Nat.div_div_eq_div_mul, mul_comm]
    exact hx'.2

theorem Owns.addr_inj {pg' i' : Nat} (hb : (L pg k i).Whole) (hb' : (L pg' k i').Whole)
    (heq : c.addr k i (plist pg).pageaddr = c.addr k i' (plist pg').pageaddr) : pg = pg' ∧ i = i' := by
  obtain ⟨h1, -, h2⟩ := h.block_eq hb hb' (c.inBlk_addr _ k i) (heq ▸ c.inBlk_addr _ k i')
  exact ⟨h1, h2⟩

theorem Owns.addr_pos (hb : L pg k i ≠ .absent) : c.addr k i (plist pg).pageaddr ≠ 0 := by
  obtain ⟨hc, hlo, -⟩ := h.inPage hb (c.inBlk_addr _ k i)
  have hram := (h.ram pg hc).1
  have : 0 < kernbase := by decide
  omega

theorem Owns.nodes_pos (k : Fin c.nsizes) : ∀ e ∈ F (H.r k), e ≠ 0 := by
  intro e he
  obtain ⟨pg, i, hf, rfl⟩ := (h.lists k e).mp he
  exact h.addr_pos (by rw [hf]; decide)

end

/-- **Freshness.**  No list has a node in the hole. -/
theorem Rep.fresh {a : Arena} (h : Rep c H a count L F) (hb : L pg k i = .hole)
    (hx : c.InBlk (a.plist pg).pageaddr k i x) (y : ι) : x ≠ H.s y ∧ x ∉ F y := by
  obtain ⟨hc, hlo, -⟩ := h.inPage (by rw [hb]; decide) hx
  refine ⟨?_, fun hm => ?_⟩
  · have h1 := h.low pg hc
    have h2 := H.low y
    have h3 : 0 < nodeSize := by decide
    omega
  · by_cases hy : ∃ k', y = H.r k'
    · obtain ⟨k', rfl⟩ := hy
      obtain ⟨pg', i', hf, rfl⟩ := (h.lists k' x).mp hm
      obtain ⟨rfl, rfl, rfl⟩ := h.block_eq (.inr (.inr hb)) (.inl hf) hx (c.inBlk_addr _ _ _)
      rw [hb] at hf
      cases hf
    · push Not at hy
      exact h.foreign y hy x hm pg k i (.inr hb) hx

/-- `lst_push` of another block leaves the nodes in the hole alone. -/
theorem Rep.push_other {a : Arena} (h : Rep c H a count L F) (hb : L pg k i = .hole)
    (hx : c.InBlk (a.plist pg).pageaddr k i x) {j : Fin c.nsizes} {e : Nat} {m' : Links}
    (hm : lstPush (c.freelist j) e a.mem = some m') (he : x ≠ e) : m' x = a.mem x := by
  obtain ⟨hs, hF⟩ := h.fresh hb hx (H.r j)
  rw [H.head] at hs
  refine lstPush_other hm he hs ?_
  have hr := h.rings.ring (H.r j)
  rw [H.head] at hr
  cases hl : F (H.r j) with
  | nil =>
    rw [hl] at hr
    exact fun hc => hs (hc.trans hr.2.symm)
  | cons y l =>
    rw [hl] at hr hF
    rintro rfl
    exact hF (hr.head ▸ List.mem_cons_self)

end

end Buddy

end InternetOs.Mem
