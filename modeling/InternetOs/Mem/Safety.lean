import InternetOs.Mem.Conserve

/-!
# Safety of `ufkalloc` and `ufkfree`

Both allocators work in one memory: the pages of `buddy.c` are halves of leaves that
`ufkalloc.c` has handed out, and the nodes of all free lists lie in the free memory itself.
`KInv` keeps the two invariants side by side.  A call on one side leaves the other alone
because whatever lies in a carved leaf, nodes of free lists included, is apart from every
other block of `ufkalloc.c` (`KInv.large_apart`, `outer_idle`).

    every state of a run of calls and writes is Safe                       (ufkallocSafety)
-/

namespace InternetOs.Mem

open Buddy List Layout

/-! ## The system -/

/-- A request below a page is for `buddy.c`. -/
def small (b : Nat × Int) : Bool := decide (b.2 < pgsize)

/-- The free lists of both allocators. -/
abbrev Layout.Lists (l : Layout) : Type := Fin l.bd.nsizes ⊕ Fin l.ufk.nsizes

namespace Layout

variable (l : Layout)

/-- The allocator for a request. -/
def serves (b : Nat × Int) : Buddy := if small b then l.bd else l.ufk

/-- The size of the block behind a live pointer. -/
def bytes (b : Nat × Int) : Nat := (l.serves b).bytesFor b.2

def listHead : l.Lists → Nat := Sum.elim (fun k => l.bd.freelist k) fun k => l.ufk.freelist k

def listSize : l.Lists → Nat := Sum.elim (fun k => l.bd.blkSize k) fun k => l.ufk.blkSize k

end Layout

/-- The page table for a request. -/
def Heap.table (h : Heap) (b : Nat × Int) : Nat → Pagelist := if small b then h.bd else h.ufk

/-- The kernel's heap and the pointers its users hold, each with the size they asked for. -/
structure Kalloc where
  heap : Heap
  live : List (Nat × Int)

inductive KallocOp
  | alloc (nbytes : Int)
  | free (p : Nat)
  | write (p : Nat) (f : Links)

namespace Kalloc

def entry (s : Kalloc) (p : Nat) : Option (Nat × Int) := s.live.find? fun b => b.1 == p

def step (l : Layout) (s : Kalloc) : KallocOp → Option Kalloc
  | .alloc n =>
    if 0 ≤ n ∧ n ≤ 512 * 1024 then (l.ufkalloc n s.heap).map fun r => ⟨r.2, (r.1, n) :: s.live⟩ else none
  | .free p => (s.entry p).bind fun b => (l.ufkfree p s.heap).map fun h => ⟨h, s.live.erase b⟩
  | .write p f => (s.entry p).map fun b =>
    { s with heap := { s.heap with mem := s.heap.mem.overwrite p (l.bytes b) f } }

end Kalloc

/-- Where the block of a live pointer is, and that `ufkfree` finds it. -/
structure Served (l : Layout) (h : Heap) (b : Nat × Int) (k pg i : Nat) : Prop where
  order : (l.serves b).firstk b.2 = some k
  fits : b.2 ≤ (l.serves b).blkSize k
  page : (h.table b pg).pageaddr ≠ 0
  aligned : b.1 = (h.table b pg).pageaddr + i * (l.serves b).blkSize k
  inside : b.1 + (l.serves b).blkSize k ≤ (h.table b pg).pageaddr + (l.serves b).pageSize
  region : l.kend ≤ b.1 ∧ b.1 + (l.serves b).blkSize k ≤ phystop
  /-- `ufkfree` takes the way to `bd_free` exactly for a request below a page. -/
  route : ∃ pindex, l.ufk.getPageIndex h.ufk b.1 = some pindex ∧ l.marked b.1 pindex h.ufk = small b
  pageOf : (l.serves b).getPageIndex (h.table b) b.1 = some pg
  orderOf : (l.serves b).sizeIndex (h.table b pg) b.1 = k

/-- What holds of the heap whose free lists are `F`. -/
structure Safe (l : Layout) (s : Kalloc) (F : l.Lists → List Nat) : Prop where
  lists : s.heap.mem.Rings l.listHead F
  served : ∀ b ∈ s.live, ∃ k pg i, Served l s.heap b k pg i
  apart : s.live.Pairwise fun b b' => b.1 + l.bytes b ≤ b'.1 ∨ b'.1 + l.bytes b' ≤ b.1
  free : ∀ b ∈ s.live, ∀ x, ∀ e ∈ F x, e + l.listSize x ≤ b.1 ∨ b.1 + l.bytes b ≤ e

/-! ## The invariant -/

namespace Layout

variable (l : Layout)

theorem listHead_pos (x : l.Lists) : l.listHead x ≠ 0 := by
  rcases x with k | k
  · exact l.bd_pos k
  · exact l.ufk_pos k

theorem listHead_low (x : l.Lists) : l.listHead x + nodeSize ≤ l.kend := by
  rcases x with k | k
  · exact l.bd_low k
  · exact l.ufk_low k

theorem nodeSize_le_listSize (x : l.Lists) : nodeSize ≤ l.listSize x := by
  rcases x with k | k
  · exact l.bd.nodeSize_le_blkSize k
  · exact l.ufk.nodeSize_le_blkSize k

/-- The lists of `buddy.c` among all lists. -/
def bdAll : l.bd.Heads l.Lists where
  s := l.listHead
  r := Sum.inl
  lim := l.kend
  head _ := rfl
  inj := Sum.inl_injective
  pos := l.listHead_pos
  low := l.listHead_low

/-- The lists of `ufkalloc.c` among all lists. -/
def ufkAll : l.ufk.Heads l.Lists where
  s := l.listHead
  r := Sum.inr
  lim := l.kend
  head _ := rfl
  inj := Sum.inr_injective
  pos := l.listHead_pos
  low := l.listHead_low

theorem leafSize : l.ufk.blkSize 0 = 2 * pgsize := by
  show 2 ^ 0 * (8 * 1024) = 2 * 4096
  decide

theorem bd_pageSize : l.bd.pageSize = pgsize := by
  show 2 ^ (8 - 1) * 32 = 4096
  decide

theorem firstk_pgsize : l.ufk.firstk pgsize = some 0 := by
  obtain ⟨k, hk, h⟩ := firstk_some (c := l.ufk) (n := pgsize) (K := 0) (by rw [l.leafSize]; decide)
    (by rw [l.leafSize]; decide)
  rw [h, Nat.le_zero.mp hk]

/-- A pointer to a list head or to a block of `buddy.c`. -/
def ListPtr (h : Heap) (x : Nat) : Prop :=
  (∃ k, x = l.bd.freelist k) ∨ ∃ pg k i, (h.bd pg).pageaddr ≠ 0 ∧ x = l.bd.addr k i (h.bd pg).pageaddr

end Layout

/-- The live blocks of `ufkalloc.c`: those of users, and the leaves it has `carved`. -/
def outerLive (live : List (Nat × Int)) (carved : List Nat) : List (Nat × Int) :=
  live.filter (fun b => !small b) ++ carved.map fun q => (q, (pgsize : Int))

/-! ## Carved leaves -/

section
variable {l : Layout} {a : Arena} {live : List (Nat × Int)} {carved : List Nat} {count : Nat}
  {L : Labels Nat} {F : l.Lists → List Nat} {q pg k i : Nat}

section
variable (hi : Inv l.ufkAll a (outerLive live carved) count L F) (hq : q ∈ carved)
include hi hq

theorem outer_leaf : ∃ pg i, L pg 0 i = .live ∧ q = l.ufk.addr 0 i (a.plist pg).pageaddr := by
  obtain ⟨pg, k, i, h1, h2, h3⟩ := hi.owned (q, pgsize)
    (mem_append_right _ (mem_map.mpr ⟨q, hq, rfl⟩))
  obtain rfl : 0 = k := Option.some.inj (l.firstk_pgsize.symm.trans h1)
  exact ⟨pg, i, h2, h3⟩

theorem outer_apart (hw : (L pg k i).Whole) (hne : l.ufk.addr k i (a.plist pg).pageaddr ≠ q) :
    q + 2 * pgsize ≤ l.ufk.addr k i (a.plist pg).pageaddr ∨
      l.ufk.addr k i (a.plist pg).pageaddr + l.ufk.blkSize k ≤ q := by
  obtain ⟨pg', i', hl, rfl⟩ := outer_leaf hi hq
  rw [← l.leafSize]
  refine hi.rep.block_disj (.inr (.inl hl)) hw ?_
  rintro ⟨rfl, rfl, rfl⟩
  exact hne rfl

theorem outer_idle (hl : L pg k i = .free ∨ L pg k i = .hole) :
    q + 2 * pgsize ≤ l.ufk.addr k i (a.plist pg).pageaddr ∨
      l.ufk.addr k i (a.plist pg).pageaddr + l.ufk.blkSize k ≤ q := by
  have hw : (L pg k i).Whole := by
    rcases hl with hl | hl
    · exact .inl hl
    · exact .inr (.inr hl)
  refine outer_apart hi hq hw ?_
  rintro rfl
  obtain ⟨pg', i', hl', heq⟩ := outer_leaf hi hq
  obtain ⟨rfl, rfl, rfl⟩ := hi.rep.block_eq hw (.inr (.inl hl')) (l.ufk.inBlk_addr _ _ _)
    (heq ▸ l.ufk.inBlk_addr _ _ _)
  rw [hl'] at hl
  rcases hl with hl | hl <;> cases hl

end

/-- The pages of `buddy.c` are halves of carved leaves. -/
def Halves (plist : Nat → Pagelist) (count : Nat) (carved : List Nat) : Prop :=
  ∀ pg < count, ∃ q ∈ carved, (plist pg).pageaddr = q ∨ (plist pg).pageaddr = q + pgsize

theorem inner_leaf (hi : Inv l.bdAll a live count L F) (hp : Halves a.plist count carved) (hb : L pg k i ≠ .absent) :
    ∃ q ∈ carved, q ≤ l.bd.addr k i (a.plist pg).pageaddr ∧
      l.bd.addr k i (a.plist pg).pageaddr + l.bd.blkSize k ≤ q + 2 * pgsize := by
  obtain ⟨hc, hlo, hhi⟩ := hi.rep.block_inside hb
  rw [l.bd_pageSize] at hhi
  obtain ⟨q, hq, hpg⟩ := hp pg hc
  exact ⟨q, hq, by omega, by omega⟩

end

structure KInv (l : Layout) (h : Heap) (live : List (Nat × Int)) (carved : List Nat) (cb cu : Nat)
    (Lb Lu : Labels Nat) (F : l.Lists → List Nat) : Prop where
  inner : Inv l.bdAll h.bdArena (live.filter small) cb Lb F
  outer : Inv l.ufkAll h.ufkArena (outerLive live carved) cu Lu F
  marked : ∀ pg i, Lu pg 0 i = .live → ((h.ufk pg).split 0 i = true ↔ l.ufk.addr 0 i (h.ufk pg).pageaddr ∈ carved)
  unmarked : ∀ pg i, (h.bd pg).split 0 i = false
  pages : Halves h.bd cb carved

/-- The free blocks of both sides are apart, so each list is foreign to the other allocator. -/
theorem sides_apart {l : Layout} {a b : Arena} {live liveb : List (Nat × Int)} {carved : List Nat}
    {cu cb : Nat} {Lu Lb : Labels Nat} {Fu Fb : l.Lists → List Nat}
    (hu : Inv l.ufkAll a (outerLive live carved) cu Lu Fu) (hb : Inv l.bdAll b liveb cb Lb Fb)
    (hp : Halves b.plist cb carved) {pg k i pg' k' i' x : Nat}
    (hl : Lu pg k i = .free ∨ Lu pg k i = .hole) (hl' : Lb pg' k' i' ≠ .absent)
    (hx : l.ufk.InBlk (a.plist pg).pageaddr k i x) : ¬ l.bd.InBlk (b.plist pg').pageaddr k' i' x := by
  intro hx'
  obtain ⟨q, hq, hlo, hhi⟩ := inner_leaf hb hp hl'
  rw [inBlk_iff] at hx hx'
  have := outer_idle hu hq hl
  omega

namespace KInv

section
variable {l : Layout} {h : Heap} {live live' : List (Nat × Int)} {carved carved' : List Nat}
  {cb cu cb' cu' : Nat} {Lb Lu Lb' Lu' : Labels Nat} {F F' : l.Lists → List Nat} {a' : Arena}
  {b : Nat × Int} {q p : Nat} {n : Int} {h' : Heap}

theorem setBd (hk : KInv l h live carved cb cu Lb Lu F)
    (hi : Inv l.bdAll a' (live'.filter small) cb' Lb' F') (hF : ∀ x, (∀ k, x ≠ l.bdAll.r k) → F' x = F x)
    (hm : ∀ pg i, (a'.plist pg).split 0 i = false) (hp : Halves a'.plist cb' carved)
    (hl : live'.filter (fun b => !small b) = live.filter fun b => !small b) :
    KInv l (h.setBd a') live' carved cb' cu Lb' Lu F' where
  inner := hi
  outer := by
    unfold outerLive
    rw [hl]
    refine hk.outer.frame hi.rep.rings (fun k => hF _ (fun k' heq => by cases heq)) ?_
    rintro (k | k) hx e he pg j i hlab hblk
    · obtain ⟨pg', i', hf, rfl⟩ := (hi.rep.lists k e).mp he
      exact sides_apart hk.outer hi hp hlab (by rw [hf]; decide) hblk (l.bd.inBlk_addr _ _ _)
    · exact absurd rfl (hx k)
  marked := hk.marked
  unmarked := hm
  pages := hp

theorem setUfk (hk : KInv l h live carved cb cu Lb Lu F) (hi : Inv l.ufkAll a' (outerLive live' carved') cu' Lu' F')
    (hF : ∀ x, (∀ k, x ≠ l.ufkAll.r k) → F' x = F x) (hm : ∀ pg i, Lu' pg 0 i = .live →
      ((a'.plist pg).split 0 i = true ↔ l.ufk.addr 0 i (a'.plist pg).pageaddr ∈ carved'))
    (hc : carved ⊆ carved') (hl : live'.filter small = live.filter small) :
    KInv l (h.setUfk a') live' carved' cb cu' Lb Lu' F' := by
  have hp : Halves h.bd cb carved' := by
    intro pg hpg
    obtain ⟨q, hq, hbase⟩ := hk.pages pg hpg
    exact ⟨q, hc hq, hbase⟩
  refine ⟨?_, hi, hm, hk.unmarked, hp⟩
  rw [hl]
  refine hk.inner.frame hi.rep.rings (fun k => hF _ (fun k' heq => by cases heq)) ?_
  rintro (k | k) hx e he pg j i hlab hblk
  · exact absurd rfl (hx k)
  · obtain ⟨pg', i', hf, rfl⟩ := (hi.rep.lists k e).mp he
    have hne : Lb pg j i ≠ .absent := by
      rcases hlab with hlab | hlab <;> rw [hlab] <;> decide
    exact sides_apart hi hk.inner hp (.inl hf) hne (l.ufk.inBlk_addr _ _ _) hblk

/-! ## The two sides as the users see them -/

theorem bytes_small (hb : small b = true) : l.bytes b = l.bd.bytesFor b.2 := by
  unfold bytes serves
  rw [if_pos hb]

theorem bytes_large (hb : small b = false) : l.bytes b = l.ufk.bytesFor b.2 := by
  unfold bytes serves
  rw [if_neg (by rw [hb]; decide)]

theorem mem_inner (hb : b ∈ live) (hs : small b = true) : b ∈ live.filter small :=
  mem_filter.mpr ⟨hb, hs⟩

theorem mem_outer (hb : b ∈ live) (hs : small b = false) : b ∈ outerLive live carved :=
  mem_append_left _ (mem_filter.mpr ⟨hb, by rw [hs]; rfl⟩)

section
variable (hk : KInv l h live carved cb cu Lb Lu F)
include hk

theorem small_leaf (hb : b ∈ live)
    (hs : small b = true) : ∃ q ∈ carved, q ≤ b.1 ∧ b.1 + l.bytes b ≤ q + 2 * pgsize := by
  obtain ⟨pg, k, i, hfk, hl, hp⟩ := hk.inner.owned b (mem_inner hb hs)
  rw [bytes_small hs, bytesFor_eq hfk, hp]
  exact inner_leaf hk.inner hk.pages (by rw [hl]; decide)

theorem large_ne (hb : b ∈ live) (hs : small b = false) (hq : q ∈ carved) : b.1 ≠ q := by
  have hnd := hk.outer.nodup
  unfold outerLive at hnd
  rw [map_append, map_map] at hnd
  intro heq
  refine (nodup_append.mp hnd).2.2 b.1 ?_ q ?_ heq
  · exact mem_map.mpr ⟨b, mem_filter.mpr ⟨hb, by rw [hs]; rfl⟩, rfl⟩
  · exact mem_map.mpr ⟨q, hq, rfl⟩

theorem large_apart (hb : b ∈ live) (hs : small b = false) (hq : q ∈ carved) :
    q + 2 * pgsize ≤ b.1 ∨ b.1 + l.bytes b ≤ q := by
  obtain ⟨pg, k, i, hfk, hl, hp⟩ := hk.outer.owned b (mem_outer hb hs)
  have hne := hk.large_ne hb hs hq
  rw [bytes_large hs, bytesFor_eq hfk, hp]
  rw [hp] at hne
  exact outer_apart hk.outer hq (.inr (.inl hl)) hne

/-- The bit of `split[0]` tells the two sides apart. -/
theorem route (hb : b ∈ live) :
    ∃ pindex, l.ufk.getPageIndex h.ufk b.1 = some pindex ∧ l.marked b.1 pindex h.ufk = small b := by
  cases hs : small b with
  | true =>
    obtain ⟨q, hq, hlo, hhi⟩ := hk.small_leaf hb hs
    obtain ⟨pg, i, hl, rfl⟩ := outer_leaf hk.outer hq
    have hin : l.ufk.InBlk (h.ufk pg).pageaddr 0 i b.1 := by
      rw [inBlk_iff, l.leafSize]
      refine ⟨hlo, ?_⟩
      have hpos : 0 < l.bytes b := by
        obtain ⟨pg', k', i', hfk, -⟩ := hk.inner.owned b (mem_inner hb hs)
        rw [bytes_small hs, bytesFor_eq hfk]
        exact l.bd.blkSize_pos k'
      change b.1 + l.bytes b ≤ l.ufk.addr 0 i (h.ufk pg).pageaddr + 2 * pgsize at hhi
      omega
    obtain ⟨hc, hlo', hhi'⟩ := hk.outer.rep.inPage (by rw [hl]; decide) hin
    refine ⟨pg, hk.outer.rep.getPageIndex_spec hc hlo' hhi', ?_⟩
    unfold Layout.marked blkIndex
    rw [hin.2]
    exact (hk.marked pg i hl).mpr hq
  | false =>
    obtain ⟨pg, k, i, -, hl, hp, -, hpi, -⟩ := hk.outer.found (p := b.1) (n := b.2) (mem_outer hb hs)
    refine ⟨pg, hpi, ?_⟩
    by_contra hm
    -- a marked leaf is live, so it is the block itself
    have hm' := Bool.eq_true_of_not_eq_false hm
    have hleaf := hk.outer.marks pg _ hm'
    have hin : l.ufk.InBlk (h.ufk pg).pageaddr 0 (l.ufk.blkIndex 0 b.1 (h.ufk pg).pageaddr) b.1 :=
      ⟨by rw [hp]; exact Nat.le_add_right _ _, rfl⟩
    have hin' := l.ufk.inBlk_addr (h.ufk pg).pageaddr k i
    obtain ⟨-, rfl, heq⟩ := hk.outer.rep.block_eq (.inr (.inl hleaf)) (.inr (.inl hl)) hin
      (by rw [hp]; exact hin')
    have hcar := (hk.marked pg _ hleaf).mp hm'
    refine hk.large_ne hb hs hcar ?_
    rw [heq]
    exact hp

theorem free_clear (hb : b ∈ live)
    {x : l.Lists} {e : Nat} (he : e ∈ F x) : e + l.listSize x ≤ b.1 ∨ b.1 + l.bytes b ≤ e := by
  rcases x with k | k
  · show e + l.bd.blkSize k ≤ b.1 ∨ b.1 + l.bytes b ≤ e
    cases hs : small b with
    | true =>
      rw [bytes_small hs]
      exact hk.inner.free_clear (p := b.1) (n := b.2) (mem_inner hb hs) he
    | false =>
      obtain ⟨pg, i, hf, rfl⟩ := (hk.inner.rep.lists k e).mp he
      obtain ⟨q, hq, hlo, hhi⟩ := inner_leaf hk.inner hk.pages (by rw [hf]; decide)
      have := hk.large_apart hb hs hq
      omega
  · show e + l.ufk.blkSize k ≤ b.1 ∨ b.1 + l.bytes b ≤ e
    cases hs : small b with
    | true =>
      obtain ⟨pg, i, hf, rfl⟩ := (hk.outer.rep.lists k e).mp he
      obtain ⟨q, hq, hlo, hhi⟩ := hk.small_leaf hb hs
      have := outer_idle hk.outer hq (.inl hf)
      omega
    | false =>
      rw [bytes_large hs]
      exact hk.outer.free_clear (p := b.1) (n := b.2) (mem_outer hb hs) he

theorem live_clear {b' : Nat × Int} (hb : b ∈ live)
    (hb' : b' ∈ live) (hne : b ≠ b') : b.1 + l.bytes b ≤ b'.1 ∨ b'.1 + l.bytes b' ≤ b.1 := by
  cases hs : small b with
  | true =>
    cases hs' : small b' with
    | true =>
      rw [bytes_small hs, bytes_small hs']
      exact hk.inner.live_clear (mem_inner hb hs) (mem_inner hb' hs') hne
    | false =>
      obtain ⟨q, hq, hlo, hhi⟩ := hk.small_leaf hb hs
      have := hk.large_apart hb' hs' hq
      omega
  | false =>
    cases hs' : small b' with
    | true =>
      obtain ⟨q, hq, hlo, hhi⟩ := hk.small_leaf hb' hs'
      have := hk.large_apart hb hs hq
      omega
    | false =>
      rw [bytes_large hs, bytes_large hs']
      exact hk.outer.live_clear (mem_outer hb hs) (mem_outer hb' hs') hne

theorem live_nodup : live.Nodup := by
  have hin : (live.filter small).Nodup := List.Nodup.of_map _ hk.inner.nodup
  have hout : (live.filter fun b => !small b).Nodup :=
    (List.Nodup.of_map _ hk.outer.nodup).sublist (sublist_append_left _ _)
  rw [nodup_iff_count_le_one] at hin hout ⊢
  intro b
  cases hs : small b with
  | true =>
    rw [← count_filter (p := small) hs]
    exact hin b
  | false =>
    rw [← count_filter (p := fun b => !small b) (by rw [hs]; rfl)]
    exact hout b

end

/-! ## The calls -/

theorem filter_cons_small (live : List (Nat × Int)) (hn : n < pgsize) :
    ((p, n) :: live).filter small = (p, n) :: live.filter small ∧
      ((p, n) :: live).filter (fun b => !small b) = live.filter fun b => !small b := by
  have hs : small (p, n) = true := decide_eq_true hn
  rw [filter_cons, filter_cons, hs]
  exact ⟨rfl, rfl⟩

theorem filter_cons_large (live : List (Nat × Int)) (hn : ¬ n < pgsize) :
    ((p, n) :: live).filter small = live.filter small ∧
      ((p, n) :: live).filter (fun b => !small b) = (p, n) :: live.filter fun b => !small b := by
  have hs : small (p, n) = false := decide_eq_false hn
  rw [filter_cons, filter_cons, hs]
  exact ⟨rfl, rfl⟩

theorem bdAlloc (hk : KInv l h live carved cb cu Lb Lu F) (hn : n < pgsize) (hs : l.bdAlloc n h = some (p, h')) :
    (p = 0 ∧ h' = h) ∨ (p ≠ 0 ∧ h'.ufk = h.ufk ∧ l.ListPtr h' (h'.mem p).prev ∧ l.ListPtr h' (h'.mem p).next ∧
      ∃ Lb' F', KInv l h' ((p, n) :: live) carved cb cu Lb' Lu F') := by
  obtain ⟨r, hr, heq⟩ := Option.map_eq_some_iff.mp hs
  cases hfk : l.bd.firstk n with
  | none =>
    unfold Buddy.alloc at hr
    rw [hfk] at hr
    cases hr
  | some fk =>
    rcases hk.inner.alloc hfk with ⟨hnull, -⟩ | ⟨p', a', L', F', hrun, hp, hi, hbase, hm, hF, -, k, hprev, hnext⟩
    · rw [hnull] at hr
      rw [← Option.some.inj hr] at heq
      obtain ⟨rfl, rfl⟩ := Prod.mk.inj heq
      exact .inl ⟨rfl, rfl⟩
    · rw [hrun] at hr
      rw [← Option.some.inj hr] at heq
      obtain ⟨rfl, rfl⟩ := Prod.mk.inj heq
      obtain ⟨hin, hout⟩ := filter_cons_small live hn
      -- what the list holds is a block of a page, and the pages stay
      have hptr : ∀ x, x = l.listHead (.inl k) ∨ x ∈ F (.inl k) → l.ListPtr (h.setBd a') x := by
        rintro x (rfl | hx)
        · exact .inl ⟨k, rfl⟩
        · obtain ⟨pg, i, hf, rfl⟩ := (hk.inner.rep.lists k x).mp hx
          have hc := (hk.inner.rep.block_inside (show Lb pg k i ≠ .absent by rw [hf]; decide)).1
          refine .inr ⟨pg, k, i, ?_, ?_⟩
          · exact (hi.rep.used pg).mpr hc
          · show _ = l.bd.addr k i (a'.plist pg).pageaddr
            rw [hbase]
      refine .inr ⟨hp, rfl, hptr _ hprev, hptr _ hnext, L', F', hk.setBd (by rw [hin]; exact hi) hF ?_ ?_ hout⟩
      · intro pg i
        rw [hm]
        exact hk.unmarked pg i
      · intro pg hpg
        rw [hbase]
        exact hk.pages pg hpg

theorem ufkallocPages (hk : KInv l h live carved cb cu Lb Lu F) (hn : ¬ n < pgsize)
    (hs : l.ufkallocPages n h = some (p, h')) : (∃ Lu' F', KInv l h' ((p, n) :: live) carved cb cu Lb Lu' F') ∧
      ∀ pg, (h'.ufk pg).pageaddr = (h.ufk pg).pageaddr := by
  obtain ⟨⟨p1, h1⟩, hr, hs⟩ := Option.bind_eq_some_iff.mp hs
  obtain ⟨r, hr, heq⟩ := Option.map_eq_some_iff.mp hr
  dsimp only at hs
  split_ifs at hs with hp1
  obtain ⟨rfl, rfl⟩ := Prod.mk.inj (Option.some.inj hs)
  cases hfk : l.ufk.firstk n with
  | none =>
    unfold Buddy.alloc at hr
    rw [hfk] at hr
    cases hr
  | some fk =>
    rcases hk.outer.alloc hfk with ⟨hnull, -⟩ | ⟨p', a', L', F', hrun, hp, hi, hbase, hm, hF, hlive, -⟩
    · rw [hnull] at hr
      rw [← Option.some.inj hr] at heq
      exact absurd (congrArg Prod.fst heq).symm hp1
    · rw [hrun] at hr
      rw [← Option.some.inj hr] at heq
      obtain ⟨rfl, rfl⟩ := Prod.mk.inj heq
      obtain ⟨hin, hout⟩ := filter_cons_large live hn
      have hlist : outerLive ((p', n) :: live) carved = (p', n) :: outerLive live carved := by
        unfold outerLive
        rw [hout]
        rfl
      refine ⟨⟨L', F', hk.setUfk (by rw [hlist]; exact hi) hF ?_ (List.Subset.refl _) hin⟩, hbase⟩
      intro pg i hl
      rw [hm, hbase]
      constructor
      · intro hset
        exact (hk.marked pg i (hk.outer.marks pg i hset)).mp hset
      · -- the carved leaf was live before and has its bit set
        intro hcar
        obtain ⟨pg', i', hl', heq⟩ := outer_leaf hk.outer hcar
        have hl'' := hlive _ _ _ hl'
        obtain ⟨rfl, -, rfl⟩ := hi.addr_inj hl hl'' (by rw [hbase, hbase]; exact heq)
        exact (hk.marked pg i hl').mpr hcar

theorem mark (hk : KInv l h ((p, (pgsize : Int)) :: live) carved cb cu Lb Lu F) {pindex : Nat}
    (hpi : l.ufk.getPageIndex h.ufk p = some pindex) :
    KInv l (h.setUfk (l.mark p pindex h.ufkArena)) live (p :: carved) cb cu Lb Lu F := by
  obtain ⟨hin, hout⟩ := filter_cons_large live (p := p) (n := (pgsize : Int)) (by omega)
  have hmem : (p, (pgsize : Int)) ∈ outerLive ((p, (pgsize : Int)) :: live) carved := by
    exact mem_cons_self
  obtain ⟨pg, k, i, hfk, hl, hp, -, hpi', -⟩ := hk.outer.found hmem
  obtain rfl : 0 = k := Option.some.inj (l.firstk_pgsize.symm.trans hfk)
  obtain rfl : pg = pindex := Option.some.inj (hpi'.symm.trans hpi)
  have hperm : (outerLive ((p, (pgsize : Int)) :: live) carved).Perm (outerLive live (p :: carved)) := by
    exact perm_middle.symm
  have hidx : l.mark p pg h.ufkArena = h.ufkArena.setSplit pg 0 i true := by
    unfold Layout.mark
    rw [hp, l.ufk.blkIndex_addr]
  rw [hidx]
  refine hk.setUfk ((hk.outer.mark hl).perm hperm) (fun _ _ => rfl) ?_ (subset_cons_self _ _) hin.symm
  intro pg' i' hl'
  rw [Arena.split_setSplit, Arena.pageaddr_setSplit, mem_cons]
  split_ifs with hc
  · obtain ⟨rfl, -, rfl⟩ := hc
    exact ⟨fun _ => .inl hp.symm, fun _ => rfl⟩
  · rw [show (h.ufkArena.plist pg').split 0 i' = true ↔ _ from hk.marked pg' i' hl']
    refine ⟨.inr, fun hor => hor.resolve_left fun heq => hc ?_⟩
    obtain ⟨rfl, -, rfl⟩ := hk.outer.addr_inj hl' hl (heq.trans hp)
    exact ⟨rfl, rfl, rfl⟩

section
variable (hk : KInv l h live carved cb cu Lb Lu F)
include hk

/-- `bd_addpage` of a half of a carved leaf: the page is free as a whole. -/
theorem bdAddpage {x : Nat} (hq : q ∈ carved) (hx : x = q ∨ x = q + pgsize)
    (hfresh : ∀ pg < cb, (h.bd pg).pageaddr + pgsize ≤ x ∨ x + pgsize ≤ (h.bd pg).pageaddr)
    (hcount : cb < l.bd.npages) :
    ∃ h' Lb' F', l.bdAddpage x h = some h' ∧ KInv l h' live carved (cb + 1) cu Lb' Lu F' ∧
      (∀ pg, (h'.bd pg).pageaddr = if pg = cb then x else (h.bd pg).pageaddr) ∧
      Lb' cb l.bd.maxSize 0 = .free ∧ h'.ufk = h.ufk := by
  obtain ⟨pg, i, hl, hqa⟩ := outer_leaf hk.outer hq
  have hne : Lu pg 0 i ≠ .absent := by
    rw [hl]
    decide
  obtain ⟨hc, hlo, hhi⟩ := hk.outer.rep.block_inside hne
  rw [l.leafSize] at hhi
  have hram := hk.outer.rep.ram pg hc
  have hlow : l.kend ≤ _ := hk.outer.rep.low pg hc
  have hsz := l.bd_pageSize
  obtain ⟨a', L', F', hrun, hi, hbase, hm, hF, hroot⟩ := hk.inner.putPage (p := x) ⟨hcount, ⟨by omega, by omega⟩,
    show l.kend ≤ x by omega, fun pg' hpg' => by rw [hsz]; exact hfresh pg' hpg', by
      rintro (k | k) hxx e he hin
      · exact hxx k rfl
      · obtain ⟨pg', i', hf, rfl⟩ := (hk.outer.rep.lists k e).mp he
        have := outer_idle hk.outer hq (.inl hf)
        have := l.ufk.blkSize_pos k
        omega⟩
  have hadd : l.bdAddpage x h = some (h.setBd a') := by
    unfold Layout.bdAddpage
    rw [addPage_eq hk.inner.rep, if_pos hcount, hrun, Option.map_some]
  refine ⟨_, L', F', hadd, hk.setBd hi hF ?_ ?_ rfl, hbase, hroot, rfl⟩
  · intro pg' i'
    rw [hm]
    exact hk.unmarked pg' i'
  · intro pg' hpg'
    rw [hbase]
    split_ifs with heq
    · exact ⟨q, hq, hx⟩
    · exact hk.pages pg' (by omega)

theorem bdAddpage_none (hc : ¬ cb < l.bd.npages) (x : Nat) : l.bdAddpage x h = none := by
  unfold Layout.bdAddpage
  rw [addPage_eq hk.inner.rep, if_neg hc, Option.map_none]

/-- `ufkalloc` makes two pages of a leaf, or panics if the table of `buddy.c` has no room for them. -/
theorem carve {h₁ : Heap} (h1 : l.ufkallocPages pgsize h = some (p, h₁)) :
    (l.carve h = none ∧ l.bd.npages ≤ cb + 1) ∨ ∃ h' Lb' Lu' F', l.carve h = some h' ∧ cb + 1 < l.bd.npages ∧
        KInv l h' live (p :: carved) (cb + 2) cu Lb' Lu' F' ∧ Lb' (cb + 1) l.bd.maxSize 0 = .free ∧
        ∀ pg, (h'.ufk pg).pageaddr = (h.ufk pg).pageaddr := by
  obtain ⟨⟨Lu', F1, hk1⟩, hbase⟩ := hk.ufkallocPages (n := (pgsize : Int)) (by omega) h1
  have hns : small (p, (pgsize : Int)) = false := decide_eq_false (lt_irrefl _)
  obtain ⟨pindex, -, -, -, -, -, -, hpi, -⟩ := hk1.outer.found (p := p) (n := (pgsize : Int))
    (mem_outer mem_cons_self hns)
  have hk2 := hk1.mark hpi
  unfold Layout.carve
  rw [h1]
  dsimp only [Option.bind_eq_bind, Option.bind_some]
  rw [show l.ufk.getPageIndex h₁.ufk p = some pindex from hpi, Option.bind_some]
  by_cases hc : cb < l.bd.npages
  swap
  · rw [hk2.bdAddpage_none hc]
    exact .inl ⟨rfl, by omega⟩
  -- the pages so far are in other leaves
  have hold : ∀ pg < cb, (h₁.bd pg).pageaddr + pgsize ≤ p ∨ p + 2 * pgsize ≤ (h₁.bd pg).pageaddr := by
    intro pg hpg
    obtain ⟨q, hq, hbase⟩ := hk1.pages pg hpg
    have hap := hk1.large_apart mem_cons_self hns hq
    have hsize : l.bytes (p, (pgsize : Int)) = 2 * pgsize := by
      rw [bytes_large hns, bytesFor_eq l.firstk_pgsize, l.leafSize]
    rw [hsize] at hap
    change q + 2 * pgsize ≤ p ∨ p + 2 * pgsize ≤ q at hap
    omega
  obtain ⟨h₃, Lb3, F3, h3, hk3, hbase3, -, hufk3⟩ := hk2.bdAddpage mem_cons_self (.inl rfl)
    (fun pg hpg => by
      have := hold pg hpg
      change (h₁.bd pg).pageaddr + pgsize ≤ p ∨ p + pgsize ≤ (h₁.bd pg).pageaddr
      omega) hc
  rw [h3, Option.bind_some]
  by_cases hc' : cb + 1 < l.bd.npages
  swap
  · rw [hk3.bdAddpage_none hc']
    exact .inl ⟨rfl, by omega⟩
  obtain ⟨h₄, Lb4, F4, h4, hk4, -, hroot, hufk4⟩ := hk3.bdAddpage mem_cons_self (.inr rfl)
    (fun pg hpg => by
      rw [hbase3]
      split_ifs with heq
      · omega
      · have := hold pg (by omega)
        change (h₁.bd pg).pageaddr + pgsize ≤ p + pgsize ∨ p + pgsize + pgsize ≤ (h₁.bd pg).pageaddr
        omega) hc'
  refine .inr ⟨h₄, Lb4, Lu', F4, h4, hc', hk4, hroot, fun pg => ?_⟩
  rw [hufk4, hufk3, ← hbase]
  exact Arena.pageaddr_setSplit ..

theorem ufkfree (hb : b ∈ live) :
    ∃ h', l.ufkfree b.1 h = some h' ∧ (∃ Lb' Lu' F', KInv l h' (live.erase b) carved cb cu Lb' Lu' F') ∧
      ∀ pg, (h'.ufk pg).pageaddr = (h.ufk pg).pageaddr := by
  have herase : ∀ f : Nat × Int → Bool, (live.erase b).filter f = (live.filter f).erase b := by
    intro f
    rw [hk.live_nodup.erase_eq_filter, (hk.live_nodup.filter f).erase_eq_filter, filter_filter, filter_filter]
    exact filter_congr fun x _ => Bool.and_comm _ _
  obtain ⟨pindex, hpi, hmk⟩ := hk.route hb
  unfold Layout.ufkfree
  rw [hpi]
  dsimp only [Option.bind_eq_bind, Option.bind_some]
  rw [hmk]
  cases hsm : small b with
  | true =>
    obtain ⟨pg, k, i, hfk, hl, hp, -, hpi', -⟩ := hk.inner.found (p := b.1) (n := b.2) (mem_inner hb hsm)
    obtain ⟨a', L', F', hrun, hi, hbase, hm, hF, -⟩ := hk.inner.freeAt (p := b.1) (n := b.2)
      (mem_inner hb hsm) hfk hl hp (fun _ => hk.unmarked pg i) (by
        rintro (j | j) hx e he
        · exact absurd rfl (hx j)
        · obtain ⟨pg', i', hf, rfl⟩ := (hk.outer.rep.lists j e).mp he
          exact sides_apart hk.outer hk.inner hk.pages (.inl hf) (by rw [hl]; decide)
            (l.ufk.inBlk_addr _ _ _))
    have hfree : l.bdFree b.1 h = some (h.setBd a') := by
      unfold bdFree Buddy.free
      rw [show l.bd.getPageIndex h.bdArena.plist b.1 = some pg from hpi', Option.bind_eq_bind, Option.bind_some, hrun,
        Option.map_some]
    refine ⟨_, hfree, ⟨L', Lu, F', hk.setBd (by rw [herase]; exact hi) hF ?_ ?_ ?_⟩, fun _ => rfl⟩
    · intro pg' i'
      rw [hm]
      exact hk.unmarked pg' i'
    · intro pg' hpg'
      rw [hbase]
      exact hk.pages pg' hpg'
    · rw [herase]
      refine erase_of_not_mem fun hin => ?_
      rw [mem_filter, hsm] at hin
      exact absurd hin.2 (by decide)
  | false =>
    have hmem : (b.1, b.2) ∈ outerLive live carved := mem_outer hb hsm
    obtain ⟨pg, k, i, hfk, hl, hp, -, hpi', -⟩ := hk.outer.found hmem
    obtain rfl : pg = pindex := Option.some.inj (hpi'.symm.trans hpi)
    obtain ⟨a', L', F', hrun, hi, hbase, hm, hF, hlive⟩ := hk.outer.freeAt hmem hfk hl hp (by
        rintro rfl
        rw [hp, hsm] at hmk
        change (h.ufk pg).split 0 (l.ufk.blkIndex 0 (l.ufk.addr 0 i (h.ufk pg).pageaddr) _) = false at hmk
        rw [l.ufk.blkIndex_addr] at hmk
        exact hmk) (by
        rintro (j | j) hx e he hblk
        · obtain ⟨pg', i', hf, rfl⟩ := (hk.inner.rep.lists j e).mp he
          have hne : Lb pg' j i' ≠ .absent := by
            rw [hf]
            decide
          obtain ⟨q, hq, hlo, hhi⟩ := inner_leaf hk.inner hk.pages hne
          have hap := hk.large_apart hb hsm hq
          rw [bytes_large hsm, bytesFor_eq hfk, hp] at hap
          rw [inBlk_iff] at hblk
          have := l.bd.blkSize_pos j
          change _ ∨ l.ufk.addr k i (h.ufkArena.plist pg).pageaddr + l.ufk.blkSize k ≤ q at hap
          omega
        · exact absurd rfl (hx j))
    have hfree : l.ufkfreeCore b.1 pg h = some (h.setUfk a') := by
      unfold ufkfreeCore
      rw [hrun, Option.map_some]
    have hlist : outerLive (live.erase b) carved = (outerLive live carved).erase (b.1, b.2) := by
      unfold outerLive
      rw [herase, erase_append_left _ (mem_filter.mpr ⟨hb, by rw [hsm]; rfl⟩)]
    refine ⟨_, hfree, ⟨Lb, L', F', hk.setUfk (by rw [hlist]; exact hi) hF ?_ (List.Subset.refl _) ?_⟩, hbase⟩
    · intro pg' i' hl'
      rw [hm, hbase]
      exact hk.marked pg' i' (hlive _ _ _ hl')
    · rw [herase]
      refine erase_of_not_mem fun hin => ?_
      rw [mem_filter, hsm] at hin
      exact absurd hin.2 (by decide)

/-- `ufkalloc`; the pages of `buddy.c` come in twos, and a block of it comes with pointers to its list. -/
theorem ufkalloc (hs : l.ufkalloc n h = some (p, h')) :
    ∃ carved' cb' Lb' Lu' F', KInv l h' ((p, n) :: live) carved' cb' cu Lb' Lu' F' ∧
      (cb = 2 * carved.length → cb' = 2 * carved'.length) ∧
      (∀ pg, (h'.ufk pg).pageaddr = (h.ufk pg).pageaddr) ∧
      (n < pgsize → l.ListPtr h' (h'.mem p).prev ∧ l.ListPtr h' (h'.mem p).next) := by
  unfold Layout.ufkalloc at hs
  split_ifs at hs with hn
  · obtain ⟨⟨p1, h₁⟩, h1, hr⟩ := Option.bind_eq_some_iff.mp hs
    dsimp only at hr
    rcases hk.bdAlloc hn h1 with ⟨rfl, rfl⟩ | ⟨hp, hufk, hprev, hnext, Lb', F', hk'⟩
    · -- `buddy.c` has nothing and gets a new leaf
      rw [if_pos rfl] at hr
      obtain ⟨h₂, h2, hr2⟩ := Option.bind_eq_some_iff.mp hr
      obtain ⟨⟨p3, h₃⟩, h3, hr3⟩ := Option.bind_eq_some_iff.mp hr2
      have hleaf := h2
      unfold Layout.carve at hleaf
      obtain ⟨⟨q, hq⟩, hq1, -⟩ := Option.bind_eq_some_iff.mp hleaf
      rcases hk.carve hq1 with ⟨hnone, -⟩ | ⟨h₂', Lb2, Lu2, F2, h2', -, hk2, -, hbase⟩
      · rw [hnone] at h2
        cases h2
      obtain rfl : h₂' = h₂ := Option.some.inj (h2'.symm.trans h2)
      split_ifs at hr3 with hp3
      obtain ⟨rfl, rfl⟩ := Prod.mk.inj (Option.some.inj hr3)
      rcases hk2.bdAlloc hn h3 with ⟨hz, -⟩ | ⟨-, hufk, hprev, hnext, Lb3, F3, hk3⟩
      · exact absurd hz hp3
      · refine ⟨_, _, _, _, _, hk3, fun heq => by rw [length_cons]; omega, fun pg => ?_, fun _ => ⟨hprev, hnext⟩⟩
        rw [hufk, hbase]
    · rw [if_neg hp] at hr
      obtain ⟨rfl, rfl⟩ := Prod.mk.inj (Option.some.inj hr)
      exact ⟨_, _, _, _, _, hk', id, fun pg => by rw [hufk], fun _ => ⟨hprev, hnext⟩⟩
  · obtain ⟨⟨Lu', F', hk'⟩, hbase⟩ := hk.ufkallocPages hn hs
    exact ⟨_, _, _, _, _, hk', id, hbase, fun hc => absurd hc hn⟩

theorem write (hb : b ∈ live) (f : Links) :
    KInv l { h with mem := h.mem.overwrite b.1 (l.bytes b) f } live carved cb cu Lb Lu F := by
  have hlow : ∀ x, l.listHead x + nodeSize ≤ b.1 := by
    intro x
    cases hs : small b with
    | true => exact hk.inner.head_clear (p := b.1) (n := b.2) (mem_inner hb hs) x
    | false => exact hk.outer.head_clear (p := b.1) (n := b.2) (mem_outer hb hs) x
  have hrings : (h.mem.overwrite b.1 (l.bytes b) f).Rings l.listHead F := by
    refine hk.inner.rep.rings.overwrite (fun x => .inl (hlow x)) (fun x e he => ?_) f
    have h1 := hk.free_clear hb he
    have h2 := l.nodeSize_le_listSize x
    omega
  exact ⟨hk.inner.frame hrings (fun _ => rfl) hk.inner.rep.foreign,
    hk.outer.frame hrings (fun _ => rfl) hk.outer.rep.foreign, hk.marked, hk.unmarked, hk.pages⟩

end

end

end KInv

/-! ## Whole runs -/

theorem Layout.init_rings {l : Layout} {a : Arena} {count : Nat} {L : Labels Nat}
    {F : Fin l.ufk.nsizes → List Nat} (hi : Inv l.ufkHeads a [] count L F) :
    (l.bd.init a.mem).mem.Rings l.listHead (Sum.elim (fun _ => []) F) := by
  -- the heads of `buddy.c` lie below the pages and beside the other heads
  have hnode : ∀ (k : Fin l.ufk.nsizes) e, e ∈ F k → ∀ j < l.bd.nsizes, e ≠ l.bd.freelist j := by
    intro k e he j hj
    obtain ⟨pg, i, hf, rfl⟩ := (hi.rep.lists k e).mp he
    obtain ⟨hc, hlo, -⟩ := hi.rep.inPage (by rw [hf]; decide) (l.ufk.inBlk_addr _ k i)
    have h1 : l.kend ≤ _ := hi.rep.low pg hc
    have h2 := l.bd_low ⟨j, hj⟩
    have h3 : 0 < nodeSize := by decide
    change l.bd.freelist j + nodeSize ≤ l.kend at h2
    omega
  have hhead : ∀ (k : Fin l.ufk.nsizes), ∀ j < l.bd.nsizes, l.ufk.freelist k ≠ l.bd.freelist j := by
    intro k j hj
    have h1 := l.apart
    have h2 : j < 8 := hj
    have h3 : (k : Nat) < 7 := k.isLt
    show l.ufkFreelist + 16 * (k : Nat) ≠ l.bdFreelist + 16 * j
    change l.bdFreelist + 16 * 8 ≤ l.ufkFreelist ∨ l.ufkFreelist + 16 * 7 ≤ l.bdFreelist at h1
    omega
  have same : ∀ x, (∀ j < l.bd.nsizes, x ≠ l.bd.freelist j) → (l.bd.init a.mem).mem x = a.mem x :=
    fun x hx => l.bd.initLists_other a.mem hx
  have hufk : (l.bd.init a.mem).mem.Rings (fun k : Fin l.ufk.nsizes => l.ufk.freelist k) F := by
    refine InternetOs.Rings.congr hi.rep.rings (fun k => ?_) (fun k e he => ?_)
    · rw [same _ (hhead k)]
      exact ⟨rfl, rfl⟩
    · rw [same _ (hnode k e he)]
      exact ⟨rfl, rfl⟩
  exact InternetOs.Rings.sum (l.bd.init_rings a.mem l.bd_inj) hufk
    (fun j k heq => hhead k j j.isLt heq.symm) (fun j k hin => hnode k _ hin j j.isLt rfl)
    (fun _ _ => not_mem_nil) (fun _ _ _ hin => absurd hin not_mem_nil)

/-- `ufkinit` succeeds and leaves nothing allocated. -/
theorem KInv.start (l : Layout) (m : Links) : ∃ h, l.ufkinit m = some h ∧
    (∃ cu Lu F, KInv l h [] [] 0 cu Labels.empty Lu F) ∧ ∀ pg, (h.ufk pg).pageaddr % pgsize = 0 := by
  obtain ⟨a, count, L, F, hinit, hi, hm, hal⟩ := l.tableInit_ok m
  have hrings := init_rings hi
  refine ⟨l.bdInit ⟨a.mem, fun _ => Pagelist.zero, a.plist⟩, by unfold ufkinit; rw [hinit]; rfl,
    ⟨count, L, _, .start _ hrings (fun _ => rfl) (fun _ => rfl), ?_, ?_, fun _ _ => rfl,
    fun pg h => absurd h (Nat.not_lt_zero pg)⟩, hal⟩
  · refine (hi.reheads rfl hrings (fun _ => rfl) ?_ : Inv l.ufkAll _ _ _ _ _)
    rintro (k | k) hx e he
    · exact absurd he not_mem_nil
    · exact absurd rfl (hx k)
  · intro pg i _
    constructor
    · intro hset
      exact absurd ((hm pg i).symm.trans hset) (by decide)
    · intro hin
      exact absurd hin not_mem_nil

namespace Kalloc

variable {l : Layout} {s s' : Kalloc}

def Ok (l : Layout) (s : Kalloc) : Prop :=
  ∃ carved cb cu Lb Lu F, KInv l s.heap s.live carved cb cu Lb Lu F

theorem entry_mem {p : Nat} {b : Nat × Int} (h : s.entry p = some b) : b ∈ s.live ∧ b.1 = p := by
  have hp := find?_some h
  exact ⟨mem_of_find?_eq_some h, by simpa using hp⟩

theorem Ok.ufkalloc (h : s.Ok l) {n : Int} {p : Nat} {h' : Heap} (hs : l.ufkalloc n s.heap = some (p, h')) :
    Ok l ⟨h', (p, n) :: s.live⟩ := by
  obtain ⟨carved, cb, cu, Lb, Lu, F, hk⟩ := h
  obtain ⟨_, _, _, _, _, hk', -⟩ := hk.ufkalloc hs
  exact ⟨_, _, _, _, _, _, hk'⟩

theorem Ok.step (h : s.Ok l) {op : KallocOp} (hs : s.step l op = some s') : s'.Ok l := by
  cases op with
  | alloc n =>
    simp only [Kalloc.step] at hs
    split_ifs at hs
    obtain ⟨⟨p, h'⟩, hr, rfl⟩ := Option.map_eq_some_iff.mp hs
    exact h.ufkalloc hr
  | free p =>
    obtain ⟨b, hb, hs⟩ := Option.bind_eq_some_iff.mp hs
    obtain ⟨h', hr, rfl⟩ := Option.map_eq_some_iff.mp hs
    obtain ⟨hmem, rfl⟩ := entry_mem hb
    obtain ⟨carved, cb, cu, Lb, Lu, F, hk⟩ := h
    obtain ⟨h'', hr', ⟨Lb', Lu', F', hk'⟩, -⟩ := hk.ufkfree hmem
    obtain rfl : h'' = h' := Option.some.inj (hr'.symm.trans hr)
    exact ⟨_, _, _, _, _, _, hk'⟩
  | write p f =>
    obtain ⟨b, hb, rfl⟩ := Option.map_eq_some_iff.mp hs
    obtain ⟨hmem, rfl⟩ := entry_mem hb
    obtain ⟨carved, cb, cu, Lb, Lu, F, hk⟩ := h
    exact ⟨_, _, _, _, _, _, hk.write hmem f⟩

end Kalloc

/-- The block of a live pointer in the allocator that serves it. -/
theorem KInv.served {l : Layout} {h : Heap} {live : List (Nat × Int)} {carved : List Nat} {cb cu : Nat}
    {Lb Lu : Labels Nat} {F : l.Lists → List Nat} (hk : KInv l h live carved cb cu Lb Lu F) {b : Nat × Int}
    (hb : b ∈ live) : ∃ k pg i, Served l h b k pg i := by
  have key : ∀ (c : Buddy) (plist : Nat → Pagelist) (m : Links) (cl : List (Nat × Int)) (H : c.Heads l.Lists)
      (count : Nat) (L : Labels Nat), H.lim = l.kend → Inv H ⟨m, plist⟩ cl count L F → (b.1, b.2) ∈ cl →
      l.serves b = c → h.table b = plist → ∃ k pg i, Served l h b k pg i := by
    intro c plist m cl H count L hlim hi hmem hc hplist
    obtain ⟨pg, k, i, hfk, hl, hp, hpg, hpi, hk'⟩ := hi.found hmem
    have hne : L pg k i ≠ .absent := by
      rw [hl]
      decide
    obtain ⟨-, hlo, hhi⟩ := hi.rep.block_inside hne
    rw [← hp] at hlo hhi
    have hlow := hi.rep.low pg hpg
    have hram := (hi.rep.ram pg hpg).2
    refine ⟨k, pg, i, ?_⟩
    constructor
    · rw [hc]
      exact hfk
    · rw [hc]
      exact (firstk_spec hfk).1
    · rw [hplist]
      exact (hi.rep.used pg).mpr hpg
    · rw [hc, hplist]
      exact hp
    · rw [hc, hplist]
      exact hhi
    · rw [hc]
      exact ⟨by omega, by omega⟩
    · exact hk.route hb
    · rw [hc, hplist]
      exact hpi
    · rw [hc, hplist]
      exact hk'
  cases hs : small b with
  | true =>
    refine key l.bd h.bd h.mem _ l.bdAll cb Lb rfl hk.inner (KInv.mem_inner hb hs) ?_ ?_
    · unfold serves
      rw [if_pos hs]
    · unfold Heap.table
      rw [if_pos hs]
  | false =>
    refine key l.ufk h.ufk h.mem _ l.ufkAll cu Lu rfl hk.outer (KInv.mem_outer hb hs) ?_ ?_
    · unfold serves
      rw [hs]
      rfl
    · unfold Heap.table
      rw [hs]
      rfl

/-- **Safety of the kernel's allocator.**  In every state that `ufkalloc`, `ufkfree` of live pointers and
writes to live blocks reach from `ufkinit`, the live blocks are large enough, aligned in their page,
apart from each other and from every free block, and `ufkfree` finds the allocator, page and order of
each. -/
theorem ufkallocSafety (l : Layout) (m : Links) : ∃ h, l.ufkinit m = some h ∧
    ∀ ops s, Run (fun s op s' => Kalloc.step l s op = some s') ⟨h, []⟩ ops s → ∃ F, Safe l s F := by
  obtain ⟨h, hinit, ⟨cu, Lu, F, hk⟩, -⟩ := KInv.start l m
  refine ⟨h, hinit, fun ops s hrun => ?_⟩
  have hok := hrun.inv (I := Kalloc.Ok l) (fun s op s' h hs => h.step hs) ⟨[], 0, cu, _, Lu, F, hk⟩
  obtain ⟨carved, cb, cu, Lb, Lu, F, hk⟩ := hok
  refine ⟨F, hk.inner.rep.rings, fun b hb => hk.served hb, ?_, fun b hb x e he => hk.free_clear hb he⟩
  exact hk.live_nodup.pairwise_of_forall_ne fun b hb b' hb' hne => hk.live_clear hb hb' hne

theorem ufkallocSafety_run : ∃ h, tightLayout.ufkinit (fun _ => ⟨0, 0⟩) = some h ∧
      ∃ s, Run (fun s op s' => Kalloc.step tightLayout s op = some s') ⟨h, []⟩
          [.alloc 100, .alloc 4096, .write (phystop - 520192) fun _ => ⟨7, 7⟩, .alloc 0, .alloc 20000,
            .free (phystop - 516096)] s ∧
        s.live.map Prod.snd = [20000, 0, 100] ∧ ∃ F, Safe tightLayout s F := by
  obtain ⟨h, hinit, hrun⟩ := ufkallocSafety tightLayout fun _ => ⟨0, 0⟩
  refine ⟨h, hinit, ?_⟩
  have key : ∃ h, (tightLayout.ufkinit fun _ => ⟨0, 0⟩) = some h ∧ ∃ s, runOf (Kalloc.step tightLayout) ⟨h, []⟩
      [.alloc 100, .alloc 4096, .write (phystop - 520192) fun _ => ⟨7, 7⟩, .alloc 0, .alloc 20000,
        .free (phystop - 516096)] = some s ∧ s.live.map Prod.snd = [20000, 0, 100] := by
    decide +kernel
  obtain ⟨h', hinit', key⟩ := key
  cases hinit.symm.trans hinit'
  exact Run.find key fun s hs hv => ⟨hv, hrun _ s hs⟩

end InternetOs.Mem
