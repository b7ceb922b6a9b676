import InternetOs.Mem.BuddySpec

/-!
# An allocator and the blocks it has handed out

`live` lists the pointers handed out and not taken back, each with the size that was asked
for.  `Inv` ties it to the labels: the live blocks are exactly those of the list.  Each call
keeps it.  What it says about the bytes of the pages is `Conserved`.

    every byte of a page is in exactly one free or live block            (Inv.tile)
    two buddies are never both free                                      (Inv.apart)
    the alloc bit of a half is set iff the half is live or split          (Inv.bits)
    a page without live blocks is one free block                         (Inv.idle)
-/

namespace InternetOs.Mem

open List Arena

namespace Buddy

variable {c : Buddy} {ι : Type} {H : c.Heads ι}

/-- A leaf whose bit of `split[0]` is set is live. -/
def Marks (plist : Nat → Pagelist) (L : Labels Nat) : Prop :=
  ∀ pg i, (plist pg).split 0 i = true → L pg 0 i = .live

structure Inv (H : c.Heads ι) (a : Arena) (live : List (Nat × Int)) (count : Nat) (L : Labels Nat)
    (F : ι → List Nat) : Prop where
  rep : Rep c H a count L F
  none : NoHole L
  owned : ∀ b ∈ live, ∃ pg k i, c.firstk b.2 = some k ∧ L pg k i = .live ∧ b.1 = c.addr k i (a.plist pg).pageaddr
  listed : ∀ pg k i, L pg k i = .live → ∃ n, (c.addr k i (a.plist pg).pageaddr, n) ∈ live ∧ c.firstk n = some k
  nodup : (live.map Prod.fst).Nodup
  marks : Marks a.plist L

section
variable {a : Arena} {live : List (Nat × Int)} {count : Nat} {L : Labels Nat} {F : ι → List Nat} {p : Nat} {n : Int}

theorem Inv.entry_eq (h : Inv H a live count L F) {b b' : Nat × Int} (hb : b ∈ live) (hb' : b' ∈ live)
    (heq : b.1 = b'.1) : b = b' :=
  inj_on_of_nodup_map h.nodup hb hb' heq

theorem Inv.addr_inj (h : Inv H a live count L F) {pg k i pg' k' i' : Nat} (hb : L pg k i = .live)
    (hb' : L pg' k' i' = .live) (heq : c.addr k i (a.plist pg).pageaddr = c.addr k' i' (a.plist pg').pageaddr) :
    pg = pg' ∧ k = k' ∧ i = i' :=
  h.rep.block_eq (Or.inr (Or.inl hb)) (Or.inr (Or.inl hb')) (c.inBlk_addr _ k i)
    (heq ▸ c.inBlk_addr _ k' i')

/-- The entry of a live block, its page and its order, as `free` finds them. -/
theorem Inv.found (h : Inv H a live count L F) (hb : (p, n) ∈ live) :
    ∃ pg k i, c.firstk n = some k ∧ L pg k i = .live ∧ p = c.addr k i (a.plist pg).pageaddr ∧
      pg < count ∧ c.getPageIndex a.plist p = some pg ∧ c.sizeIndex (a.plist pg) p = k := by
  obtain ⟨pg, k, i, hk, hl, hp⟩ := h.owned _ hb
  have hpres : L pg k i ≠ .absent := by
    rw [hl]
    decide
  obtain ⟨hc, hlo, hhi⟩ := h.rep.inPage hpres (c.inBlk_addr _ _ _)
  rw [← hp] at hlo hhi
  exact ⟨pg, k, i, hk, hl, hp, hc, h.rep.getPageIndex_spec hc hlo hhi, h.rep.sizeIndex_spec (.inr (.inl hl)) hp⟩

variable [DecidableEq ι]

theorem Inv.alloc (h : Inv H a live count L F) {fk : Nat} (hfk : c.firstk n = some fk) :
    (c.alloc n a = some (0, a) ∧ ∀ kf : Fin c.nsizes, fk ≤ kf → F (H.r kf) = []) ∨
    ∃ p a' L' F', c.alloc n a = some (p, a') ∧ p ≠ 0 ∧ Inv H a' ((p, n) :: live) count L' F' ∧
      (∀ pg, (a'.plist pg).pageaddr = (a.plist pg).pageaddr) ∧
      (∀ pg i, (a'.plist pg).split 0 i = (a.plist pg).split 0 i) ∧
      (∀ x, (∀ k, x ≠ H.r k) → F' x = F x) ∧
      (∀ pg k i, L pg k i = .live → L' pg k i = .live) ∧
      ∃ k : Fin c.nsizes, OnList (H.s (H.r k)) (F (H.r k)) (a'.mem p) := by
  rcases alloc_spec h.rep h.none hfk with hnull | ⟨p, a', pg, i, L', F', hrun, hp, ht⟩
  · exact .inl hnull
  refine .inr ⟨p, a', L', F', hrun, hp, ⟨ht.rep, ht.none, ?_, ?_, ?_, ?_⟩, ht.base, ht.mark,
    ht.foreign, fun pg' k' i' hl => (ht.live ..).mpr (.inl hl), ht.node⟩
  · intro b hb
    rcases mem_cons.mp hb with rfl | hb
    · exact ⟨pg, fk, i, hfk, (ht.live ..).mpr (.inr ⟨rfl, rfl, rfl⟩), by rw [ht.base]; exact ht.addr⟩
    · obtain ⟨pg', k', i', h1, h2, h3⟩ := h.owned b hb
      exact ⟨pg', k', i', h1, (ht.live ..).mpr (.inl h2), by rw [ht.base]; exact h3⟩
  · intro pg' k' i' hl
    rw [ht.base]
    rcases (ht.live ..).mp hl with hl | ⟨rfl, rfl, rfl⟩
    · obtain ⟨n', hn', hk'⟩ := h.listed pg' k' i' hl
      exact ⟨n', mem_cons_of_mem _ hn', hk'⟩
    · exact ⟨n, by rw [← ht.addr]; exact mem_cons_self, hfk⟩
  · -- an older entry with this pointer would be the same block
    rw [map_cons, nodup_cons]
    refine ⟨?_, h.nodup⟩
    intro hin
    obtain ⟨b, hb, hbp⟩ := mem_map.mp hin
    obtain ⟨pg', k', i', -, h2, h3⟩ := h.owned b hb
    have h2' := (ht.live pg' k' i').mpr (.inl h2)
    have hnew := (ht.live pg fk i).mpr (.inr ⟨rfl, rfl, rfl⟩)
    have heq : c.addr k' i' (a'.plist pg').pageaddr = c.addr fk i (a'.plist pg).pageaddr := by
      rw [ht.base, ht.base, ← h3, ← ht.addr]
      exact hbp
    obtain ⟨rfl, rfl, rfl⟩ := ht.rep.block_eq (.inr (.inl h2')) (.inr (.inl hnew))
      (c.inBlk_addr _ k' i') (heq ▸ c.inBlk_addr _ fk i)
    exact ht.fresh h2
  · intro pg' i' hm
    rw [ht.mark] at hm
    exact (ht.live ..).mpr (.inl (h.marks pg' i' hm))

theorem Inv.freeAt (h : Inv H a live count L F) (hb : (p, n) ∈ live) {pg k i : Nat}
    (hk : c.firstk n = some k) (hl : L pg k i = .live) (hp : p = c.addr k i (a.plist pg).pageaddr)
    (hmark : k = 0 → (a.plist pg).split 0 i = false)
    (hfor : ∀ x, (∀ k, x ≠ H.r k) → ∀ e ∈ F x, ¬ c.InBlk (a.plist pg).pageaddr k i e) :
    ∃ a' L' F', c.freeAt p pg a = some a' ∧ Inv H a' (live.erase (p, n)) count L' F' ∧
      (∀ pg, (a'.plist pg).pageaddr = (a.plist pg).pageaddr) ∧
      (∀ pg i, (a'.plist pg).split 0 i = (a.plist pg).split 0 i) ∧
      (∀ x, (∀ k, x ≠ H.r k) → F' x = F x) ∧ ∀ pg k i, L' pg k i = .live → L pg k i = .live := by
  obtain ⟨a', L', F', hrun, hr⟩ := freeAt_spec h.rep h.none hl hp hfor
  have hnd : live.Nodup := List.Nodup.of_map _ h.nodup
  refine ⟨a', L', F', hrun, ⟨hr.rep, hr.none, ?_, ?_, ?_, ?_⟩, hr.base, hr.mark, hr.foreign,
    fun pg' k' i' hl' => ((hr.live ..).mp hl').1⟩
  · intro b hb'
    obtain ⟨hne, hin⟩ := hnd.mem_erase_iff.mp hb'
    obtain ⟨pg', k', i', h1, h2, h3⟩ := h.owned b hin
    refine ⟨pg', k', i', h1, (hr.live ..).mpr ⟨h2, ?_⟩, by rw [hr.base]; exact h3⟩
    rintro ⟨rfl, rfl, rfl⟩
    exact hne (h.entry_eq hin hb (h3.trans hp.symm))
  · intro pg' k' i' hl'
    obtain ⟨hold, hne⟩ := (hr.live ..).mp hl'
    obtain ⟨n', hn', hk'⟩ := h.listed pg' k' i' hold
    rw [hr.base]
    refine ⟨n', hnd.mem_erase_iff.mpr ⟨?_, hn'⟩, hk'⟩
    intro heq
    have hpp : c.addr k' i' (a.plist pg').pageaddr = c.addr k i (a.plist pg).pageaddr := by
      rw [← hp]
      exact congrArg Prod.fst heq
    exact hne (h.addr_inj hold hl hpp)
  · exact h.nodup.sublist (List.Sublist.map _ erase_sublist)
  · intro pg' i' hm
    rw [hr.mark] at hm
    refine (hr.live ..).mpr ⟨h.marks pg' i' hm, ?_⟩
    rintro ⟨rfl, rfl, rfl⟩
    rw [hmark rfl] at hm
    cases hm

theorem Inv.putPage (h : Inv H a live count L F) (hnew : NewPage c H a count F p) :
    ∃ a' L' F', c.putPage p count a = some a' ∧ Inv H a' live (count + 1) L' F' ∧
      (∀ pg, (a'.plist pg).pageaddr = if pg = count then p else (a.plist pg).pageaddr) ∧
      (∀ pg i, (a'.plist pg).split 0 i = (a.plist pg).split 0 i) ∧
      (∀ x, (∀ k, x ≠ H.r k) → F' x = F x) ∧ L' count c.maxSize 0 = .free := by
  obtain ⟨a', L', F', hrun, ha⟩ := putPage_spec h.rep h.none hnew
  -- the pages that have live blocks are older
  have hold : ∀ pg k i, L pg k i = .live → (a'.plist pg).pageaddr = (a.plist pg).pageaddr := by
    intro pg k i hl
    have hlt : pg < count := (h.rep.page pg).mp (h.rep.wf.page (by rw [hl]; decide)).1
    rw [ha.base, if_neg (by omega)]
  refine ⟨a', L', F', hrun, ⟨ha.rep, ha.none, ?_, ?_, h.nodup, ?_⟩, ha.base, ha.mark, ha.foreign, ha.root⟩
  · intro b hb
    obtain ⟨pg, k, i, h1, h2, h3⟩ := h.owned b hb
    exact ⟨pg, k, i, h1, (ha.live ..).mpr h2, by rw [hold pg k i h2]; exact h3⟩
  · intro pg k i hl
    have hl' := (ha.live ..).mp hl
    rw [hold pg k i hl']
    exact h.listed pg k i hl'
  · intro pg i hm
    rw [ha.mark] at hm
    exact (ha.live ..).mpr (h.marks pg i hm)

end

section
variable {a : Arena} {live : List (Nat × Int)} {count : Nat} {L : Labels Nat} {F F' : ι → List Nat}

/-- The memory and the other lists may change as long as the allocator's own lists stay. -/
theorem Inv.reheads (h : Inv H a live count L F) {κ : Type} {H' : c.Heads κ} {F' : κ → List Nat} {m : Links}
    (hlim : H'.lim = H.lim) (hr : m.Rings H'.s F') (hown : ∀ k, F' (H'.r k) = F (H.r k))
    (hfor : ∀ x, (∀ k, x ≠ H'.r k) → ∀ e ∈ F' x, ∀ pg k i, L pg k i = .free ∨ L pg k i = .hole →
      ¬ c.InBlk (a.plist pg).pageaddr k i e) :
    Inv H' { a with mem := m } live count L F' where
  rep :=
    { wf := h.rep.wf, count_le := h.rep.count_le, page := h.rep.page, used := h.rep.used
      ram := h.rep.ram, disj := h.rep.disj, split := h.rep.split
      alloc := h.rep.alloc, rings := hr, foreign := hfor
      low := by
        rw [hlim]
        exact h.rep.low
      lists := by
        intro k e
        rw [hown]
        exact h.rep.lists k e }
  none := h.none
  owned := h.owned
  listed := h.listed
  nodup := h.nodup
  marks := h.marks

theorem Inv.frame (h : Inv H a live count L F) {m : Links} (hr : m.Rings H.s F') (hown : ∀ k, F' (H.r k) = F (H.r k))
    (hfor : ∀ x, (∀ k, x ≠ H.r k) → ∀ e ∈ F' x, ∀ pg k i, L pg k i = .free ∨ L pg k i = .hole →
      ¬ c.InBlk (a.plist pg).pageaddr k i e) :
    Inv H { a with mem := m } live count L F' :=
  h.reheads rfl hr hown hfor

theorem Inv.perm (h : Inv H a live count L F) {live' : List (Nat × Int)} (hp : live.Perm live') :
    Inv H a live' count L F where
  rep := h.rep
  none := h.none
  owned b hb := h.owned b (hp.mem_iff.mpr hb)
  listed pg k i hl := by
    obtain ⟨n, hn, hk⟩ := h.listed pg k i hl
    exact ⟨n, hp.mem_iff.mp hn, hk⟩
  nodup := (hp.map _).nodup_iff.mp h.nodup
  marks := h.marks

theorem Inv.mark (h : Inv H a live count L F) {pg i : Nat} (hl : L pg 0 i = .live) :
    Inv H (a.setSplit pg 0 i true) live count L F where
  rep :=
    { wf := h.rep.wf, count_le := h.rep.count_le, page := h.rep.page, rings := h.rep.rings
      used := by
        intro pg'
        rw [pageaddr_setSplit]
        exact h.rep.used pg'
      ram := by
        intro pg' hpg
        rw [pageaddr_setSplit]
        exact h.rep.ram pg' hpg
      low := by
        intro pg' hpg
        rw [pageaddr_setSplit]
        exact h.rep.low pg' hpg
      disj := by
        intro pg' hpg' pg'' hpg'' hne
        rw [pageaddr_setSplit, pageaddr_setSplit]
        exact h.rep.disj pg' hpg' pg'' hpg'' hne
      split := by
        intro pg' k' i' hk hk'
        rw [split_setSplit, if_neg (by omega)]
        exact h.rep.split pg' k' i' hk hk'
      alloc := by
        intro pg' k' i' hk hh
        rw [alloc_setSplit]
        exact h.rep.alloc pg' k' i' hk hh
      lists := by
        intro k e
        rw [h.rep.lists]
        simp only [pageaddr_setSplit]
      foreign := by
        intro x hx e he pg' k' i' hl'
        rw [pageaddr_setSplit]
        exact h.rep.foreign x hx e he pg' k' i' hl' }
  none := h.none
  owned b hb := by
    simp only [pageaddr_setSplit]
    exact h.owned b hb
  listed pg' k' i' hl' := by
    simp only [pageaddr_setSplit]
    exact h.listed pg' k' i' hl'
  nodup := h.nodup
  marks pg' i' hm := by
    rw [split_setSplit] at hm
    split_ifs at hm with hc
    · obtain ⟨rfl, -, rfl⟩ := hc
      exact hl
    · exact h.marks pg' i' hm

end

/-! ## The bytes of the pages -/

/-- The free blocks on the lists `F` and the live blocks, each as its address and order. -/
def pieces (c : Buddy) (F : Fin c.nsizes → List Nat) (live : List (Nat × Int)) : List (Nat × Nat) :=
  ((List.finRange c.nsizes).flatMap fun k => (F k).map fun p => (p, (k : Nat))) ++
    live.filterMap fun b => (c.firstk b.2).map fun k => (b.1, k)

/-- The byte at `x` belongs to the block. -/
def covers (c : Buddy) (x : Nat) (b : Nat × Nat) : Bool := decide (b.1 ≤ x ∧ x < b.1 + c.blkSize b.2)

section
variable {a : Arena} {live : List (Nat × Int)} {count : Nat} {L : Labels Nat} {F : ι → List Nat} {pg i : Nat}

section
variable (h : Inv H a live count L F)
include h

theorem Inv.mem_pieces (b : Nat × Nat) : b ∈ c.pieces (fun k => F (H.r k)) live ↔
      ∃ pg i, (L pg b.2 i = .free ∨ L pg b.2 i = .live) ∧ b.1 = c.addr b.2 i (a.plist pg).pageaddr := by
  unfold pieces
  rw [mem_append, mem_flatMap, mem_filterMap]
  constructor
  · rintro (⟨k, -, hk⟩ | ⟨e, he, hk⟩)
    · obtain ⟨p, hp, rfl⟩ := mem_map.mp hk
      obtain ⟨pg, i, hf, heq⟩ := (h.rep.lists k p).mp hp
      exact ⟨pg, i, .inl hf, heq⟩
    · obtain ⟨k, hk', rfl⟩ := Option.map_eq_some_iff.mp hk
      obtain ⟨pg, k', i, h1, h2, h3⟩ := h.owned e he
      obtain rfl : k' = k := Option.some.inj (h1.symm.trans hk')
      exact ⟨pg, i, .inr h2, h3⟩
  · rintro ⟨pg, i, hf | hl, heq⟩
    · have hk : b.2 ≤ c.maxSize := h.rep.wf.le_top (by rw [hf]; decide)
      refine .inl ⟨⟨b.2, c.lt_nsizes hk⟩, mem_finRange _, mem_map.mpr ⟨b.1, ?_, rfl⟩⟩
      exact (h.rep.lists _ _).mpr ⟨pg, i, hf, heq⟩
    · obtain ⟨n, hn, hk⟩ := h.listed pg b.2 i hl
      refine .inr ⟨_, hn, ?_⟩
      rw [hk, Option.map_some, ← heq]

theorem Inv.pieces_nodup : (c.pieces (fun k => F (H.r k)) live).Nodup := by
  refine List.Nodup.append ?_ ?_ ?_
  · rw [nodup_flatMap]
    constructor
    · intro k _
      refine (h.rep.rings.nodup (H.r k)).map ?_
      intro p q hpq
      exact congrArg Prod.fst hpq
    · refine (nodup_finRange _).imp ?_
      intro k k' hne b hb hb'
      obtain ⟨p, -, rfl⟩ := mem_map.mp hb
      obtain ⟨q, -, hq⟩ := mem_map.mp hb'
      exact hne (Fin.ext (congrArg Prod.snd hq).symm)
  · refine List.Nodup.of_map Prod.fst (h.nodup.sublist ?_)
    generalize live = l
    induction l with
    | nil => exact List.Sublist.slnil
    | cons b l ih =>
      rw [filterMap_cons]
      cases c.firstk b.2 with
      | none => exact ih.cons _
      | some k => exact ih.cons_cons _
  · -- a block is not both free and live
    intro b hb hb'
    obtain ⟨k, -, hk⟩ := mem_flatMap.mp hb
    obtain ⟨p, hp, rfl⟩ := mem_map.mp hk
    obtain ⟨pg, i, hf, heq⟩ := (h.rep.lists k p).mp hp
    obtain ⟨e, he, hk'⟩ := mem_filterMap.mp hb'
    obtain ⟨k', h1, h2⟩ := Option.map_eq_some_iff.mp hk'
    obtain ⟨pg', k'', i', h3, h4, h5⟩ := h.owned e he
    have hep : e.1 = p := congrArg Prod.fst h2
    rw [hep, heq] at h5
    obtain ⟨rfl, hkk, rfl⟩ := h.rep.block_eq (.inl hf) (.inr (.inl h4)) (c.inBlk_addr _ k i)
      (h5 ▸ c.inBlk_addr _ k'' i')
    rw [hkk, h4] at hf
    cases hf

/-- **Tiling.**  Every byte of a page is in exactly one piece. -/
theorem Inv.tile {x : Nat} (hpg : pg < count)
    (hlo : (a.plist pg).pageaddr ≤ x) (hhi : x < (a.plist pg).pageaddr + c.pageSize) :
    (c.pieces (fun k => F (H.r k)) live).countP (c.covers x) = 1 := by
  have hlt : (x - (a.plist pg).pageaddr) / c.leaf < 2 ^ c.maxSize := by
    rw [Nat.div_lt_iff_lt_mul c.leaf_pos]
    have : c.pageSize = 2 ^ c.maxSize * c.leaf := rfl
    omega
  obtain ⟨k, -, hw⟩ := h.rep.wf.cover ((h.rep.page pg).mpr hpg) _ hlt
  rw [Nat.div_div_eq_div_mul, mul_comm] at hw
  have hin : c.InBlk (a.plist pg).pageaddr k ((x - (a.plist pg).pageaddr) / (2 ^ k * c.leaf)) x := ⟨hlo, rfl⟩
  generalize (x - (a.plist pg).pageaddr) / (2 ^ k * c.leaf) = i at hw hin
  have hlab : L pg k i = .free ∨ L pg k i = .live := by
    rcases hw with hf | hf | hf
    · exact .inl hf
    · exact .inr hf
    · exact absurd hf (h.none pg k i)
  have hmem := (h.mem_pieces (c.addr k i (a.plist pg).pageaddr, k)).mpr ⟨pg, i, hlab, rfl⟩
  -- the piece around the byte is the only one
  have huniq : ∀ b ∈ c.pieces (fun k => F (H.r k)) live,
      (c.covers x b = true ↔ (b == (c.addr k i (a.plist pg).pageaddr, k)) = true) := by
    intro b hb
    unfold covers
    rw [decide_eq_true_iff, beq_iff_eq]
    obtain ⟨pg', i', hl', heq⟩ := (h.mem_pieces b).mp hb
    constructor
    · intro hcov
      have hw' : (L pg' b.2 i').Whole := by
        rcases hl' with hl' | hl'
        · exact .inl hl'
        · exact .inr (.inl hl')
      rw [heq, ← c.inBlk_iff] at hcov
      obtain ⟨rfl, hk, rfl⟩ := h.rep.block_eq hw' hw hcov hin
      exact Prod.ext (by rw [heq, hk]) hk
    · rintro rfl
      exact c.inBlk_iff.mp hin
  rw [countP_congr huniq]
  exact count_eq_one_of_mem h.pieces_nodup hmem

theorem Inv.inside {b : Nat × Nat} (hb : b ∈ c.pieces (fun k => F (H.r k)) live) :
    ∃ pg < count, (a.plist pg).pageaddr ≤ b.1 ∧ b.1 + c.blkSize b.2 ≤ (a.plist pg).pageaddr + c.pageSize := by
  obtain ⟨pg, i, hl, heq⟩ := (h.mem_pieces b).mp hb
  have hpres : L pg b.2 i ≠ .absent := by
    rcases hl with hl | hl <;> rw [hl] <;> decide
  obtain ⟨hc, hlo, hhi⟩ := h.rep.block_inside hpres
  rw [heq]
  exact ⟨pg, hc, hlo, hhi⟩

theorem Inv.mem_list {k : Fin c.nsizes} (hpg : pg < count) (hi : i < 2 ^ (c.maxSize - k)) :
    c.addr k i (a.plist pg).pageaddr ∈ F (H.r k) ↔ L pg k i = .free := by
  constructor
  · intro hin
    obtain ⟨pg', i', hf, heq⟩ := (h.rep.lists k _).mp hin
    have hblk := c.inBlk_addr (a.plist pg').pageaddr k i'
    rw [← heq] at hblk
    obtain ⟨hc', hlo', hhi'⟩ := h.rep.inPage (by rw [hf]; decide) hblk
    -- the address is in page `pg`, so this is the page of the free block
    have hne : L pg' k i' ≠ .absent := by rw [hf]; decide
    have hk : (k : Nat) ≤ c.maxSize := h.rep.wf.le_top hne
    have hlo : (a.plist pg).pageaddr ≤ c.addr k i (a.plist pg).pageaddr := Nat.le_add_right _ _
    have hhi : c.addr k i (a.plist pg).pageaddr < (a.plist pg).pageaddr + c.pageSize := by
      unfold addr
      rw [← c.blkSize_mul hk]
      have := Nat.mul_lt_mul_of_lt_of_le hi (le_refl (c.blkSize k)) (c.blkSize_pos k)
      omega
    have hpp : pg' = pg := by
      by_contra hne
      rcases h.rep.disj pg' hc' pg hpg hne with hd | hd <;> omega
    subst hpp
    have hii : i' = i := by
      have h1 := hblk.2
      have h2 := (c.inBlk_addr (a.plist pg').pageaddr k i).2
      omega
    rw [← hii]
    exact hf
  · intro hf
    exact (h.rep.lists k _).mpr ⟨pg, i, hf, rfl⟩

theorem Inv.apart {k : Fin c.nsizes} (hpg : pg < count)
    (hk : (k : Nat) < c.maxSize) (hi : i < 2 ^ (c.maxSize - k)) :
    ¬ (c.addr k i (a.plist pg).pageaddr ∈ F (H.r k) ∧ c.addr k (buddyOf i) (a.plist pg).pageaddr ∈ F (H.r k)) := by
  have hi' : buddyOf i < 2 ^ (c.maxSize - k) := by
    have heven : 2 ^ (c.maxSize - (k : Nat)) = 2 * 2 ^ (c.maxSize - (k : Nat) - 1) := by
      rw [← pow_succ']
      congr 1
      omega
    unfold buddyOf
    split <;> omega
  rw [h.mem_list hpg hi, h.mem_list hpg hi']
  exact h.rep.wf.apart pg k i hk

theorem Inv.bits {k : Nat} (hk : k < c.maxSize) (hpar : (a.plist pg).split (k + 1) (i / 2) = true) :
    (a.plist pg).alloc k i = true ↔ (a.plist pg).split k i = true ∨
      ∃ n, (c.addr k i (a.plist pg).pageaddr, n) ∈ live ∧ c.firstk n = some k := by
  have hlive : (∃ n, (c.addr k i (a.plist pg).pageaddr, n) ∈ live ∧ c.firstk n = some k) ↔ L pg k i = .live := by
    constructor
    · rintro ⟨n, hn, hfk⟩
      obtain ⟨pg', k', i', h1, h2, h3⟩ := h.owned _ hn
      obtain rfl : k' = k := Option.some.inj (h1.symm.trans hfk)
      have hpar' := (h.rep.split pg (k' + 1) (i / 2) (by omega) (by omega)).mp hpar
      have hpres : L pg k' i ≠ .absent := (h.rep.wf.child pg k' i hk).mpr hpar'
      obtain ⟨hc, hlo, hhi⟩ := h.rep.inPage hpres (c.inBlk_addr _ _ _)
      have hblk := c.inBlk_addr (a.plist pg').pageaddr k' i'
      dsimp only at h3
      rw [← h3] at hblk
      obtain ⟨hc', hlo', hhi'⟩ := h.rep.inPage (by rw [h2]; decide) hblk
      have hpp : pg' = pg := by
        by_contra hne
        rcases h.rep.disj pg' hc' pg hc hne with hd | hd <;> omega
      subst hpp
      have hii : i' = i := by
        have e1 := hblk.2
        have e2 := (c.inBlk_addr (a.plist pg').pageaddr k' i).2
        omega
      rw [← hii]
      exact h2
    · intro hl
      exact h.listed pg k i hl
  rw [hlive, h.rep.alloc pg k i hk (h.none pg k i)]
  rcases Nat.eq_zero_or_pos k with rfl | hpos
  · constructor
    · rintro (hl | hs)
      · exact .inr hl
      · exact absurd hs (h.rep.wf.leaf pg i)
    · rintro (hm | hl)
      · exact .inl (h.marks pg i hm)
      · exact .inl hl
  · rw [h.rep.split pg k i hpos (by omega)]
    exact or_comm

/-- **Coalescing.**  A page without live blocks is one block of the largest order. -/
theorem Inv.idle (hpg : pg < count)
    (hidle : ∀ b ∈ live, ¬ ((a.plist pg).pageaddr ≤ b.1 ∧ b.1 < (a.plist pg).pageaddr + c.pageSize))
    (kmax : Fin c.nsizes) (hkm : (kmax : Nat) = c.maxSize) :
    (a.plist pg).pageaddr ∈ F (H.r kmax) ∧ ∀ k i, k ≤ c.maxSize → (a.plist pg).split k i = false := by
  have hnl : ∀ k i, L pg k i ≠ .live := by
    intro k i hl
    obtain ⟨n, hn, -⟩ := h.listed pg k i hl
    obtain ⟨-, hlo, hhi⟩ := h.rep.inPage (by rw [hl]; decide) (c.inBlk_addr _ k i)
    exact hidle _ hn ⟨hlo, hhi⟩
  obtain ⟨hroot, hns⟩ := h.rep.wf.free_of_idle ((h.rep.page pg).mpr hpg) fun k i => ⟨hnl k i, h.none pg k i⟩
  refine ⟨?_, fun k i hk => ?_⟩
  · rw [← hkm] at hroot
    refine (h.rep.lists kmax _).mpr ⟨pg, 0, hroot, ?_⟩
    unfold addr
    omega
  · rcases Nat.eq_zero_or_pos k with rfl | hpos
    · by_contra hc
      exact hnl 0 i (h.marks pg i (Bool.eq_true_of_not_eq_false hc))
    · by_contra hc
      exact hns k i ((h.rep.split pg k i hpos hk).mp (Bool.eq_true_of_not_eq_false hc))

end

end

end Buddy

end InternetOs.Mem
