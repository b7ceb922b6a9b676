import InternetOs.Mem.Safety
import InternetOs.Mem.Freewalk

/-!
# The kernel's allocator as the page allocator of `vm.c`

`vm.c` asks for single pages, and `ufkalloc.c` serves them from its leaves.  `kpages` is
`ufkalloc(PGSIZE)` and `ufkfree` on a heap that `ufkinit` has set up, with the page-sized blocks among
the live ones as what is held; what stands in a page that is handed out is not known (`junk`).

    the page allocator of the kernel takes back exactly what it has given out      (kpages_exact)

The free lists leave their pointers in the blocks that they give out; these are multiples of 8
(`Kalloc.Paged.links`).
-/

namespace InternetOs.Mem

open Vm (Page PageAlloc)

variable {l : Layout}

/-- The heap is in order, and its pages are aligned. -/
structure Kalloc.Paged (l : Layout) (s : Kalloc) : Prop where
  ok : s.Ok l
  aligned : ∀ pg, (s.heap.ufk pg).pageaddr % pgsize = 0

theorem Kalloc.Paged.range {s : Kalloc} (h : s.Paged l) {p : Nat} (hp : (p, (pgsize : Int)) ∈ s.live) :
    kernbase ≤ p ∧ p + pgsize ≤ phystop ∧ p % pgsize = 0 := by
  obtain ⟨carved, cb, cu, Lb, Lu, F, hk⟩ := h.ok
  obtain ⟨k, pg, i, hs⟩ := hk.served hp
  have hserve : l.serves (p, (pgsize : Int)) = l.ufk := by
    rfl
  have hk0 : 0 = k := by
    have := hs.order
    exact Option.some.inj (l.firstk_pgsize.symm.trans this)
  obtain ⟨h1, h2⟩ := hs.region
  have h3 := hs.aligned
  have h4 := h.aligned pg
  rw [hserve, ← hk0, l.leafSize] at h2 h3
  have h5 := l.kern_kend
  change kernbase ≤ p ∧ p + pgsize ≤ phystop ∧ p % pgsize = 0
  change p = (s.heap.ufk pg).pageaddr + i * (2 * 4096) at h3
  change (s.heap.ufk pg).pageaddr % 4096 = 0 at h4
  change p + 2 * pgsize ≤ phystop at h2
  refine ⟨h5.trans h1, by omega, ?_⟩
  change p % 4096 = 0
  omega

section
variable {s s' : Kalloc} {p : Nat} {n : Int} {h' : Heap}

theorem Kalloc.Paged.alloc (h : s.Paged l) (hs : l.ufkalloc n s.heap = some (p, h')) :
    Kalloc.Paged l ⟨h', (p, n) :: s.live⟩ := by
  obtain ⟨carved, cb, cu, Lb, Lu, F, hk⟩ := h.ok
  obtain ⟨_, _, _, _, _, hk', -, hbase, -⟩ := hk.ufkalloc hs
  refine ⟨⟨_, _, _, _, _, _, hk'⟩, fun pg => ?_⟩
  rw [hbase]
  exact h.aligned pg

theorem Kalloc.Paged.nodup (h : s.Paged l) : s.live.Nodup := by
  obtain ⟨carved, cb, cu, Lb, Lu, F, hk⟩ := h.ok
  exact hk.live_nodup

theorem Kalloc.Paged.free (h : s.Paged l) {b : Nat × Int} (hb : b ∈ s.live) :
    ∃ h', l.ufkfree b.1 s.heap = some h' ∧ Kalloc.Paged l ⟨h', s.live.erase b⟩ := by
  obtain ⟨carved, cb, cu, Lb, Lu, F, hk⟩ := h.ok
  obtain ⟨h', hrun, ⟨Lb', Lu', F', hk'⟩, hbase⟩ := hk.ufkfree hb
  refine ⟨h', hrun, ⟨_, _, _, _, _, _, hk'⟩, fun pg => ?_⟩
  rw [hbase]
  exact h.aligned pg

theorem Kalloc.Paged.step (h : s.Paged l) {op : KallocOp} (hs : s.step l op = some s') : s'.Paged l := by
  cases op with
  | alloc n =>
    obtain ⟨-, hs⟩ := Option.ite_none_right_eq_some.mp hs
    obtain ⟨⟨p, h'⟩, hr, rfl⟩ := Option.map_eq_some_iff.mp hs
    exact h.alloc hr
  | free p =>
    obtain ⟨b, hb, hs⟩ := Option.bind_eq_some_iff.mp hs
    obtain ⟨h', hr, rfl⟩ := Option.map_eq_some_iff.mp hs
    obtain ⟨hmem, rfl⟩ := Kalloc.entry_mem hb
    obtain ⟨h'', hr', hp⟩ := h.free hmem
    obtain rfl : h'' = h' := Option.some.inj (hr'.symm.trans hr)
    exact hp
  | write p f =>
    refine ⟨h.ok.step hs, ?_⟩
    obtain ⟨b, -, rfl⟩ := Option.map_eq_some_iff.mp hs
    exact h.aligned

/-- The pages of `buddy.c` are aligned as those of `ufkalloc.c`, and so is all that its lists point to. -/
theorem Kalloc.Paged.listPtr (h : s.Paged l) (hb : l.bdFreelist % 8 = 0) {x : Nat} (hx : l.ListPtr s.heap x) :
    x % 8 = 0 := by
  obtain ⟨carved, cb, cu, Lb, Lu, F, hk⟩ := h.ok
  rcases hx with ⟨k, rfl⟩ | ⟨pg, k, i, hpg, rfl⟩
  · show (l.bdFreelist + 16 * k) % 8 = 0
    omega
  · obtain ⟨q, hq, hbase⟩ := hk.pages pg ((hk.inner.rep.used pg).mp hpg)
    obtain ⟨pg', i', -, hqa⟩ := outer_leaf hk.outer hq
    change q = (s.heap.ufk pg').pageaddr + i' * (2 ^ 0 * (8 * 1024)) at hqa
    have hal : (s.heap.ufk pg').pageaddr % 4096 = 0 := h.aligned pg'
    have hpgsize : pgsize = 4096 := rfl
    have hblk : i * l.bd.blkSize k = 8 * (i * (2 ^ k * 4)) := by
      show i * (2 ^ k * 32) = _
      ring
    show ((s.heap.bd pg).pageaddr + i * l.bd.blkSize k) % 8 = 0
    rw [hblk]
    omega

theorem Kalloc.Paged.links (h : s.Paged l) (hb : l.bdFreelist % 8 = 0) (hn : n < pgsize)
    (hs : l.ufkalloc n s.heap = some (p, h')) : (h'.mem p).prev % 8 = 0 ∧ (h'.mem p).next % 8 = 0 := by
  obtain ⟨carved, cb, cu, Lb, Lu, F, hk⟩ := h.ok
  obtain ⟨_, _, _, _, _, -, -, -, hptr⟩ := hk.ufkalloc hs
  obtain ⟨hprev, hnext⟩ := hptr hn
  exact ⟨(h.alloc hs).listPtr hb hprev, (h.alloc hs).listPtr hb hnext⟩

end

/-- `ufkalloc(PGSIZE)` and `ufkfree`, for pages. -/
def kpages (l : Layout) (junk : Nat → Page) : PageAlloc where
  St := { s : Kalloc // s.Paged l }
  ufkalloc st :=
    match hr : l.ufkalloc pgsize st.1.heap with
    | none => none
    | some (p, h') => some ((p, junk p), ⟨_, st.2.alloc hr⟩)
  ufkfree p st :=
    if hp : (p, (pgsize : Int)) ∈ st.1.live then
      match hr : l.ufkfree p st.1.heap with
      | none => none
      | some h' => some ⟨⟨h', st.1.live.erase (p, (pgsize : Int))⟩, by
          obtain ⟨h'', hrun, hpaged⟩ := st.2.free hp
          obtain rfl : h'' = h' := Option.some.inj (hrun.symm.trans hr)
          exact hpaged⟩
    else none
  held st := {p | (p, (pgsize : Int)) ∈ st.1.live}
  alloc_fresh {st st' p w} h := by
    split at h
    · cases h
    · rename_i p' h' hr
      cases h
      have := (st.2.alloc hr).nodup
      exact (List.nodup_cons.mp this).1
  alloc_held {st st' p w} h := by
    split at h
    · cases h
    · cases h
      ext q
      simp only [Set.mem_ofPred_eq, Set.mem_insert_iff, List.mem_cons, Prod.mk.injEq, and_true]
  alloc_page {st st' p w} h := by
    split at h
    · cases h
    · rename_i p' h' hr
      cases h
      obtain ⟨h1, h2, h3⟩ := (st.2.alloc hr).range List.mem_cons_self
      change 0x80000000 ≤ p at h1
      change p + 4096 ≤ 0x80000000 + 128 * 1024 * 1024 at h2
      exact ⟨by omega, h3, by omega⟩

/-- **The pages of the kernel** can all be given back, and lie in RAM. -/
theorem kpages_exact (l : Layout) (junk : Nat → Page) : (kpages l junk).Exact where
  free_ok {p st} hp := by
    obtain ⟨h', hrun, -⟩ := st.2.free hp
    unfold kpages
    dsimp only
    rw [dif_pos (show (p, (pgsize : Int)) ∈ st.1.live from hp)]
    split
    · rename_i hr
      rw [hr] at hrun
      cases hrun
    · exact ⟨_, rfl⟩
  free_held {p st st'} h := by
    unfold kpages at h
    dsimp only at h
    split_ifs at h with hp
    split at h
    · cases h
    · cases h
      ext q
      change (q, (pgsize : Int)) ∈ st.1.live.erase (p, (pgsize : Int)) ↔ (q, (pgsize : Int)) ∈ st.1.live ∧ q ≠ p
      rw [st.2.nodup.mem_erase_iff, Ne, Prod.mk.injEq, and_iff_left rfl, and_comm]
  range {p st} hp := st.2.range hp

theorem kpages_start (l : Layout) (m : Links) : ∃ h, l.ufkinit m = some h ∧ Kalloc.Paged l ⟨h, []⟩ := by
  obtain ⟨h, hinit, ⟨cu, Lu, F, hk⟩, hal⟩ := KInv.start l m
  exact ⟨h, hinit, ⟨_, _, _, _, _, _, hk⟩, hal⟩

theorem kpages_drawn (l : Layout) (junk : Nat → Page) (n : Nat) : ∀ st : (kpages l junk).St,
    (drawn (Vm.source (kpages l junk)).next n st).isSome =
      (drawn (fun h => (l.ufkalloc pgsize h).map Prod.snd) n st.1.heap).isSome := by
  induction n with
  | zero => exact fun st => rfl
  | succ n ih =>
    intro st
    -- one page is taken on both sides
    have hnext : ((Vm.source (kpages l junk)).next st).map (fun st => st.1.heap) =
        (l.ufkalloc pgsize st.1.heap).map Prod.snd := by
      unfold Vm.source kpages
      dsimp only
      split
      · rename_i hr
        exact (congrArg (Option.map Prod.snd) hr).symm
      · rename_i p h' hr
        exact (congrArg (Option.map Prod.snd) hr).symm
    rw [drawn, drawn, ← hnext]
    cases (Vm.source (kpages l junk)).next st with
    | none => rfl
    | some st' => exact ih st'

end InternetOs.Mem
