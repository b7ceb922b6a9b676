import InternetOs.Lib.Run
import InternetOs.Mem.Pool
import InternetOs.Mem.Ufkalloc

/-!
# Conservation and coalescing in both allocators

`Pool` is one allocator with the blocks it has handed out.  Its calls come in any order: pages
are added, blocks allocated and live ones freed, and the owners of live blocks write to them.
For `ufkalloc.c` the pages are those of `table_init`, and leaves are marked as `ufkalloc` marks
those it gives to `buddy.c`.

    every state of a run is Conserved                                    (buddyConservation)
-/

namespace InternetOs.Mem

open Buddy Function Option List

/-- The owner of the bytes from `p` writes to them.  A node of which a byte changes may be anything
afterwards. -/
def Links.overwrite (m : Links) (p len : Nat) (f : Links) : Links := fun x =>
  if x + nodeSize ≤ p ∨ p + len ≤ x then m x else f x

namespace Buddy

/-- The size of the block for `n` bytes. -/
def bytesFor (c : Buddy) (n : Int) : Nat :=
  match c.firstk n with
  | some k => c.blkSize k
  | none => 0

/-- The page at `p` is RAM above the kernel and none of the pages in the table. -/
def FreshPage (c : Buddy) (lim : Nat) (plist : Nat → Pagelist) (p : Nat) : Prop :=
  kernbase ≤ p ∧ p + c.pageSize ≤ phystop ∧ lim ≤ p ∧ ∀ pg < c.npages, (plist pg).pageaddr = 0 ∨
      (plist pg).pageaddr + c.pageSize ≤ p ∨ p + c.pageSize ≤ (plist pg).pageaddr

instance (c : Buddy) (lim : Nat) (plist : Nat → Pagelist) (p : Nat) :
    Decidable (c.FreshPage lim plist p) := by
  unfold FreshPage
  infer_instance

end Buddy

structure Pool where
  arena : Arena
  live : List (Nat × Int)

inductive PoolOp
  | addPage (p : Nat)
  | alloc (nbytes : Int)
  | free (p : Nat)
  | mark (p : Nat)
  | write (p : Nat) (f : Links)

namespace Pool

/-- The entry of a live pointer. -/
def entry (s : Pool) (p : Nat) : Option (Nat × Int) := s.live.find? fun b => b.1 == p

def alloc (c : Buddy) (nbytes : Int) (s : Pool) : Option Pool :=
  (c.alloc nbytes s.arena).map fun r =>
    ⟨r.2, if r.1 = 0 then s.live else (r.1, nbytes) :: s.live⟩

def write (c : Buddy) (p : Nat) (f : Links) (s : Pool) : Option Pool :=
  (s.entry p).map fun b =>
    { s with arena := { s.arena with mem := s.arena.mem.overwrite p (c.bytesFor b.2) f } }

/-- The calls of `buddy.c`. -/
def bdStep (l : Layout) (s : Pool) : PoolOp → Option Pool
  | .addPage p =>
    if l.bd.FreshPage l.kend s.arena.plist p then
      (l.bd.addPage p s.arena).map fun a => { s with arena := a }
    else none
  | .alloc n => s.alloc l.bd n
  | .free p => (s.entry p).bind fun b => (l.bd.free p s.arena).map fun a => ⟨a, s.live.erase b⟩
  | .mark _ => none
  | .write p f => s.write l.bd p f

/-- The calls of `ufkalloc.c` on its own pages.  A leaf that is marked belongs to `buddy.c` and is
not given back. -/
def ufkStep (l : Layout) (s : Pool) : PoolOp → Option Pool
  | .addPage _ => none
  | .alloc n => s.alloc l.ufk n
  | .free p => (s.entry p).bind fun b => (l.ufk.getPageIndex s.arena.plist p).bind fun pindex =>
      if l.marked p pindex s.arena.plist then none
      else (l.ufk.freeAt p pindex s.arena).map fun a => ⟨a, s.live.erase b⟩
  | .mark p => (s.entry p).bind fun b => (l.ufk.getPageIndex s.arena.plist p).bind fun pindex =>
      if l.ufk.firstk b.2 = some 0 then some { s with arena := l.mark p pindex s.arena } else none
  | .write p f => s.write l.ufk p f

end Pool

/-- What holds of an allocator whose free lists are `F`. -/
structure Conserved (c : Buddy) (s : Pool) (F : Fin c.nsizes → List Nat) : Prop where
  /-- `F k` is what is found on `freelist[k]`. -/
  lists : s.arena.mem.Rings (fun k : Fin c.nsizes => c.freelist k) F
  /-- No block reaches out of the pages. -/
  inside : ∀ b ∈ c.pieces F s.live, ∃ pg, (s.arena.plist pg).pageaddr ≠ 0 ∧
    (s.arena.plist pg).pageaddr ≤ b.1 ∧ b.1 + c.blkSize b.2 ≤ (s.arena.plist pg).pageaddr + c.pageSize
  /-- Every byte of a page is in exactly one free or live block. -/
  tile : ∀ pg x, (s.arena.plist pg).pageaddr ≠ 0 → (s.arena.plist pg).pageaddr ≤ x →
    x < (s.arena.plist pg).pageaddr + c.pageSize → (c.pieces F s.live).countP (c.covers x) = 1
  /-- Two buddies below the largest order are not both free. -/
  apart : ∀ pg (k : Fin c.nsizes) i, (s.arena.plist pg).pageaddr ≠ 0 → (k : Nat) < c.maxSize →
    i < 2 ^ (c.maxSize - k) →
    ¬ (c.addr k i (s.arena.plist pg).pageaddr ∈ F k ∧ c.addr k (buddyOf i) (s.arena.plist pg).pageaddr ∈ F k)
  /-- The alloc bit of a half of a split block is set iff the half is live or split. -/
  bits : ∀ pg k i, k < c.maxSize → (s.arena.plist pg).split (k + 1) (i / 2) = true →
    ((s.arena.plist pg).alloc k i = true ↔ (s.arena.plist pg).split k i = true ∨
      ∃ n, (c.addr k i (s.arena.plist pg).pageaddr, n) ∈ s.live ∧ c.firstk n = some k)
  /-- A page without live blocks is one block on `freelist[MAX_SIZE]`. -/
  idle : ∀ pg, (s.arena.plist pg).pageaddr ≠ 0 → (∀ b ∈ s.live, ¬ ((s.arena.plist pg).pageaddr ≤ b.1 ∧
      b.1 < (s.arena.plist pg).pageaddr + c.pageSize)) →
    ∃ kmax : Fin c.nsizes, (kmax : Nat) = c.maxSize ∧ (s.arena.plist pg).pageaddr ∈ F kmax ∧
      ∀ k i, k ≤ c.maxSize → (s.arena.plist pg).split k i = false

namespace Buddy

/-! ## The lists at the start -/

theorem initLists_head (c : Buddy) (m : Links) {n k : Nat} (hk : k < n) :
    c.initLists m n (c.freelist k) = ⟨c.freelist k, c.freelist k⟩ := by
  induction n with
  | zero => omega
  | succ n ih =>
    show lstInit (c.freelist n) (c.initLists m n) (c.freelist k) = _
    unfold lstInit Links.setNext Links.setPrev
    by_cases he : c.freelist k = c.freelist n
    · rw [he]
      simp
    · have hne : k ≠ n := by
        rintro rfl
        exact he rfl
      rw [update_of_ne he, update_of_ne he]
      exact ih (by omega)

theorem initLists_other (c : Buddy) (m : Links) {n x : Nat} (hx : ∀ k < n, x ≠ c.freelist k) :
    c.initLists m n x = m x := by
  induction n with
  | zero => rfl
  | succ n ih =>
    show lstInit (c.freelist n) (c.initLists m n) x = _
    unfold lstInit Links.setNext Links.setPrev
    have he : x ≠ c.freelist n := hx n (Nat.lt_succ_self n)
    rw [update_of_ne he, update_of_ne he]
    exact ih fun k hk => hx k (by omega)

/-- The heads of the allocator's own lists. -/
def ownHeads (c : Buddy) (lim : Nat) (hpos : ∀ k, c.freelist k ≠ 0)
    (hlow : ∀ k : Fin c.nsizes, c.freelist k + nodeSize ≤ lim) :
    c.Heads (Fin c.nsizes) where
  s k := c.freelist k
  r := id
  lim := lim
  head _ := rfl
  inj _ _ h := h
  pos k := hpos k
  low := hlow

section
variable {c : Buddy} {ι : Type} {H : c.Heads ι}

theorem Inv.start {m : Links} {plist : Nat → Pagelist} (F : ι → List Nat) (hr : m.Rings H.s F)
    (hF : ∀ k, F (H.r k) = []) (hz : ∀ pg, plist pg = Pagelist.zero) : Inv H ⟨m, plist⟩ [] 0 Labels.empty F where
  rep :=
    { wf := .empty
      count_le := Nat.zero_le _
      page := fun pg => ⟨fun h => absurd rfl h, fun h => absurd h (Nat.not_lt_zero pg)⟩
      used := fun pg => by
        show (plist pg).pageaddr ≠ 0 ↔ _
        rw [hz]
        exact ⟨fun h => absurd rfl h, fun h => absurd h (Nat.not_lt_zero pg)⟩
      ram := fun pg h => absurd h (Nat.not_lt_zero pg)
      low := fun pg h => absurd h (Nat.not_lt_zero pg)
      disj := fun pg h => absurd h (Nat.not_lt_zero pg)
      split := fun pg k i _ _ => by
        show (plist pg).split k i = true ↔ _
        rw [hz]
        exact ⟨fun h => (by cases h), fun h => (by cases h)⟩
      alloc := fun pg k i _ _ => by
        show (plist pg).alloc k i = true ↔ _
        rw [hz]
        exact ⟨fun h => (by cases h), fun h => (by rcases h with h | h <;> cases h)⟩
      lists := fun k e => by
        rw [hF]
        exact ⟨fun h => absurd h not_mem_nil, fun ⟨_, _, h, _⟩ => by cases h⟩
      rings := hr
      foreign := fun x hx e he pg k i h => by rcases h with h | h <;> cases h }
  none _ _ _ h := by cases h
  owned b hb := absurd hb not_mem_nil
  listed _ _ _ h := by cases h
  nodup := nodup_nil
  marks pg i h := by
    change (plist pg).split 0 i = true at h
    rw [hz] at h
    cases h

theorem init_rings (c : Buddy) (m : Links) (hinj : ∀ j k : Fin c.nsizes, c.freelist j = c.freelist k → j = k) :
    (c.init m).mem.Rings (fun k : Fin c.nsizes => c.freelist k) fun _ => [] := by
  have hhead : ∀ k : Fin c.nsizes, (c.init m).mem (c.freelist k) = ⟨c.freelist k, c.freelist k⟩ :=
    fun k => c.initLists_head m k.isLt
  refine ⟨fun k => ?_, fun _ => nodup_nil, hinj, fun _ _ => not_mem_nil,
    fun _ _ _ h => absurd h not_mem_nil⟩
  show ((c.init m).mem (c.freelist k)).prev = c.freelist k ∧ c.freelist k = ((c.init m).mem (c.freelist k)).next
  rw [hhead]
  exact ⟨rfl, rfl⟩

/-! ## Writes of the owners -/

theorem Owns.block_disj {plist : Nat → Pagelist} {count : Nat} {L : Labels Nat} {F : ι → List Nat}
    (h : Owns c H plist count L F) {pg k i pg' k' i' : Nat} (hb : (L pg k i).Whole)
    (hb' : (L pg' k' i').Whole) (hne : ¬ (pg = pg' ∧ k = k' ∧ i = i')) :
    c.addr k i (plist pg).pageaddr + c.blkSize k ≤ c.addr k' i' (plist pg').pageaddr ∨
      c.addr k' i' (plist pg').pageaddr + c.blkSize k' ≤ c.addr k i (plist pg).pageaddr := by
  by_contra hc
  -- otherwise the larger of the two addresses is in both
  rcases Nat.le_total (c.addr k i (plist pg).pageaddr) (c.addr k' i' (plist pg').pageaddr) with hle | hle
  · exact hne (h.block_eq hb hb' (c.inBlk_iff.mpr ⟨hle, by omega⟩) (c.inBlk_addr _ _ _))
  · exact hne (h.block_eq hb hb' (c.inBlk_addr _ _ _) (c.inBlk_iff.mpr ⟨hle, by omega⟩))

variable {a : Arena} {live : List (Nat × Int)} {count : Nat} {L : Labels Nat} {F : ι → List Nat}

theorem bytesFor_eq {n : Int} {k : Nat} (hk : c.firstk n = some k) : c.bytesFor n = c.blkSize k := by
  unfold bytesFor
  rw [hk]

theorem Inv.free_clear (h : Inv H a live count L F) {p e : Nat} {n : Int} (hb : (p, n) ∈ live)
    {k : Fin c.nsizes} (he : e ∈ F (H.r k)) : e + c.blkSize k ≤ p ∨ p + c.bytesFor n ≤ e := by
  obtain ⟨pg, k', i, hk, hl, hp⟩ := h.owned _ hb
  obtain ⟨pg', i', hf, rfl⟩ := (h.rep.lists k e).mp he
  have hd := h.rep.block_disj (.inr (.inl hl)) (.inl hf) (by
    rintro ⟨rfl, rfl, rfl⟩
    rw [hl] at hf
    cases hf)
  rw [bytesFor_eq hk]
  omega

theorem Inv.live_clear (h : Inv H a live count L F) {b b' : Nat × Int} (hb : b ∈ live) (hb' : b' ∈ live)
    (hne : b ≠ b') : b.1 + c.bytesFor b.2 ≤ b'.1 ∨ b'.1 + c.bytesFor b'.2 ≤ b.1 := by
  obtain ⟨pg, k, i, hk, hl, hp⟩ := h.owned b hb
  obtain ⟨pg', k', i', hk', hl', hp'⟩ := h.owned b' hb'
  rw [bytesFor_eq hk, bytesFor_eq hk', hp, hp']
  refine h.rep.block_disj (.inr (.inl hl)) (.inr (.inl hl')) ?_
  rintro ⟨rfl, rfl, rfl⟩
  exact hne (h.entry_eq hb hb' (hp.trans hp'.symm))

theorem Inv.head_clear (h : Inv H a live count L F) {p : Nat} {n : Int} (hb : (p, n) ∈ live) (x : ι) :
    H.s x + nodeSize ≤ p := by
  obtain ⟨pg, k, i, -, hl, hp⟩ := h.owned _ hb
  obtain ⟨hc, hlo, -⟩ := h.rep.inPage (by rw [hl]; decide) (c.inBlk_addr _ k i)
  have h1 := H.low x
  have h2 := h.rep.low pg hc
  omega

end

end Buddy

theorem Links.Rings.overwrite {ι : Type} {m : Links} {s : ι → Nat} {F : ι → List Nat} (h : m.Rings s F)
    {p len : Nat} (hs : ∀ x, s x + nodeSize ≤ p ∨ p + len ≤ s x)
    (hF : ∀ x, ∀ e ∈ F x, e + nodeSize ≤ p ∨ p + len ≤ e) (f : Links) : (m.overwrite p len f).Rings s F := by
  have same : ∀ x, x + nodeSize ≤ p ∨ p + len ≤ x → m.overwrite p len f x = m x := fun x hx => if_pos hx
  refine InternetOs.Rings.congr h (fun x => ?_) (fun x e he => ?_)
  · rw [same _ (hs x)]
    exact ⟨rfl, rfl⟩
  · rw [same _ (hF x e he)]
    exact ⟨rfl, rfl⟩

/-! ## The calls on a pool -/

namespace Pool

variable {c : Buddy} {H : c.Heads (Fin c.nsizes)} {s s' : Pool}

/-- The bits of `split[0]` are those of `s`. -/
def SameMarks (s s' : Pool) : Prop :=
  ∀ pg i, (s'.arena.plist pg).split 0 i = (s.arena.plist pg).split 0 i

/-- The invariant of a pool whose lists are all the lists there are. -/
def Ok (H : c.Heads (Fin c.nsizes)) (s : Pool) : Prop :=
  (∀ x, ∃ k, x = H.r k) ∧ ∃ count L F, Inv H s.arena s.live count L F

theorem entry_mem {p : Nat} {b : Nat × Int} (h : s.entry p = some b) : b ∈ s.live ∧ b.1 = p := by
  have hp := find?_some h
  exact ⟨mem_of_find?_eq_some h, by simpa using hp⟩

theorem Ok.alloc (h : s.Ok H) {n : Int} (hs : s.alloc c n = some s') : s'.Ok H ∧ s.SameMarks s' := by
  obtain ⟨hall, count, L, F, hi⟩ := h
  obtain ⟨r, hr, rfl⟩ := map_eq_some_iff.mp hs
  cases hfk : c.firstk n with
  | none =>
    unfold Buddy.alloc at hr
    rw [hfk] at hr
    cases hr
  | some fk =>
    rcases hi.alloc hfk with ⟨hnull, -⟩ | ⟨p, a', L', F', hrun, hp, hi', -, hm, -⟩
    · rw [hnull] at hr
      cases hr
      exact ⟨⟨hall, count, L, F, hi⟩, fun _ _ => rfl⟩
    · rw [hrun] at hr
      cases hr
      refine ⟨⟨hall, count, L', F', ?_⟩, hm⟩
      show Inv H a' (if p = 0 then s.live else (p, n) :: s.live) count L' F'
      rw [if_neg hp]
      exact hi'

theorem Ok.write (h : s.Ok H) {p : Nat} {f : Links} (hs : s.write c p f = some s') : s'.Ok H ∧ s.SameMarks s' := by
  obtain ⟨hall, count, L, F, hi⟩ := h
  obtain ⟨b, hb, rfl⟩ := map_eq_some_iff.mp hs
  obtain ⟨hmem, rfl⟩ := entry_mem hb
  refine ⟨⟨hall, count, L, F, hi.frame ?_ (fun _ => rfl) hi.rep.foreign⟩, fun _ _ => rfl⟩
  refine hi.rep.rings.overwrite (fun x => .inl (hi.head_clear hmem x)) (fun x e he => ?_) f
  obtain ⟨k, rfl⟩ := hall x
  have hnode := c.nodeSize_le_blkSize k
  have hclear := hi.free_clear (p := b.1) (n := b.2) hmem he
  show e + nodeSize ≤ b.1 ∨ b.1 + c.bytesFor b.2 ≤ e
  omega

theorem Ok.freeAt (h : s.Ok H) {p pindex : Nat} {b : Nat × Int} {a' : Arena} (hb : s.entry p = some b)
    (hpi : c.getPageIndex s.arena.plist p = some pindex)
    (hmark : (s.arena.plist pindex).split 0 (c.blkIndex 0 p (s.arena.plist pindex).pageaddr) = false)
    (hs : c.freeAt p pindex s.arena = some a') : Ok H ⟨a', s.live.erase b⟩ ∧ s.SameMarks ⟨a', s.live.erase b⟩ := by
  obtain ⟨hall, count, L, F, hi⟩ := h
  obtain ⟨hmem, rfl⟩ := entry_mem hb
  obtain ⟨pg, k, i, hk, hl, hp, -, hpi', -⟩ := hi.found (p := b.1) (n := b.2) hmem
  obtain rfl : pg = pindex := some.inj (hpi'.symm.trans hpi)
  obtain ⟨a'', L', F', hrun, hi', -, hm, -⟩ := hi.freeAt (p := b.1) (n := b.2) hmem hk hl hp
    (by
      rintro rfl
      rw [hp, c.blkIndex_addr] at hmark
      exact hmark)
    (fun x hx => by
      obtain ⟨k', rfl⟩ := hall x
      exact absurd rfl (hx k'))
  rw [hrun] at hs
  cases hs
  exact ⟨⟨hall, count, L', F', hi'⟩, hm⟩

theorem putPage_own {a : Arena} {live : List (Nat × Int)} {count : Nat} {L : Labels Nat}
    {F : Fin c.nsizes → List Nat} (hall : ∀ x, ∃ k, x = H.r k) (hi : Inv H a live count L F) {p : Nat}
    (hcount : count < c.npages) (hram : kernbase ≤ p ∧ p + c.pageSize ≤ phystop) (hlow : H.lim ≤ p)
    (hdisj : ∀ pg < count, (a.plist pg).pageaddr + c.pageSize ≤ p ∨ p + c.pageSize ≤ (a.plist pg).pageaddr) :
    ∃ a' L' F', c.putPage p count a = some a' ∧ Inv H a' live (count + 1) L' F' ∧
      (∀ pg, (a'.plist pg).pageaddr = if pg = count then p else (a.plist pg).pageaddr) ∧
      ∀ pg i, (a'.plist pg).split 0 i = (a.plist pg).split 0 i := by
  obtain ⟨a', L', F', hrun, hi', hbase, hm, -⟩ := hi.putPage ⟨hcount, hram, hlow, hdisj, fun x hx => by
    obtain ⟨k, rfl⟩ := hall x
    exact absurd rfl (hx k)⟩
  exact ⟨a', L', F', hrun, hi', hbase, hm⟩

/-- What the invariant says about the bytes. -/
theorem Ok.conserved (h : s.Ok H) (hr : H.r = id) : ∃ F, Conserved c s F := by
  obtain ⟨-, count, L, F, hi⟩ := h
  have hFr : (fun k => F (H.r k)) = F := by
    rw [hr]
    rfl
  have hs : H.s = fun k : Fin c.nsizes => c.freelist k := by
    funext k
    rw [← H.head, hr]
    rfl
  have hpiece : c.pieces F s.live = c.pieces (fun k => F (H.r k)) s.live := by rw [hFr]
  have hused : ∀ pg, (s.arena.plist pg).pageaddr ≠ 0 → pg < count := fun pg => (hi.rep.used pg).mp
  refine ⟨F, ⟨?_, ?_, ?_, ?_, fun pg k i => hi.bits, ?_⟩⟩
  · rw [← hs]
    exact hi.rep.rings
  · intro b hb
    rw [hpiece] at hb
    obtain ⟨pg, hpg, h1, h2⟩ := hi.inside hb
    exact ⟨pg, (hi.rep.used pg).mpr hpg, h1, h2⟩
  · intro pg x hpg hlo hhi
    rw [hpiece]
    exact hi.tile (hused pg hpg) hlo hhi
  · intro pg k i hpg hk hlt
    have hap := hi.apart (hused pg hpg) hk hlt
    rw [hr] at hap
    exact hap
  · intro pg hpg hidle
    have hns := c.lt_nsizes (le_refl c.maxSize)
    obtain ⟨h1, h2⟩ := hi.idle (hused pg hpg) hidle ⟨c.maxSize, hns⟩ rfl
    rw [hr] at h1
    exact ⟨⟨c.maxSize, hns⟩, rfl, h1, h2⟩

end Pool

/-! ## Both allocators -/

namespace Layout

variable (l : Layout)

theorem bd_inj : ∀ j k : Fin l.bd.nsizes, l.bd.freelist j = l.bd.freelist k → j = k := by
  intro j k h
  change l.bdFreelist + 16 * (j : Nat) = l.bdFreelist + 16 * (k : Nat) at h
  exact Fin.ext (by omega)

theorem ufk_inj : ∀ j k : Fin l.ufk.nsizes, l.ufk.freelist j = l.ufk.freelist k → j = k := by
  intro j k h
  change l.ufkFreelist + 16 * (j : Nat) = l.ufkFreelist + 16 * (k : Nat) at h
  exact Fin.ext (by omega)

theorem bd_low (k : Fin l.bd.nsizes) : l.bd.freelist k + nodeSize ≤ l.kend := by
  have h1 := l.bd_end
  have h2 : (k : Nat) < 8 := k.isLt
  show l.bdFreelist + 16 * (k : Nat) + 16 ≤ l.kend
  change l.bdFreelist + 16 * 8 ≤ l.kend at h1
  omega

theorem ufk_low (k : Fin l.ufk.nsizes) : l.ufk.freelist k + nodeSize ≤ l.kend := by
  have h1 := l.ufk_end
  have h2 : (k : Nat) < 7 := k.isLt
  show l.ufkFreelist + 16 * (k : Nat) + 16 ≤ l.kend
  change l.ufkFreelist + 16 * 7 ≤ l.kend at h1
  omega

theorem kern_pos : 0 < kernbase := by decide

theorem bd_pos (k : Nat) : l.bd.freelist k ≠ 0 := by
  have h1 := l.bd_kern
  have h2 := kern_pos
  show l.bdFreelist + 16 * k ≠ 0
  omega

theorem ufk_pos (k : Nat) : l.ufk.freelist k ≠ 0 := by
  have h1 := l.ufk_kern
  have h2 := kern_pos
  show l.ufkFreelist + 16 * k ≠ 0
  omega

def bdHeads : l.bd.Heads (Fin l.bd.nsizes) := l.bd.ownHeads l.kend l.bd_pos l.bd_low

def ufkHeads : l.ufk.Heads (Fin l.ufk.nsizes) := l.ufk.ownHeads l.kend l.ufk_pos l.ufk_low

theorem kern_kend : kernbase ≤ l.kend := by
  have h1 := l.bd_kern
  have h2 := l.bd_end
  omega

theorem ufk_pageSize : l.ufk.pageSize = 524288 := by
  show 2 ^ (7 - 1) * (8 * 1024) = 524288
  decide

theorem le_bigpgRoundup (x : Nat) : x ≤ l.bigpgRoundup x := by
  unfold bigpgRoundup
  rw [ufk_pageSize]
  omega

/-- `table_init` adds every page from the end of the kernel on that RAM has room for. -/
theorem tableInitLoop_ok (fuel : Nat) :
    ∀ (i p : Nat) (a : Arena) (L : Labels Nat) (F : Fin l.ufk.nsizes → List Nat),
      Inv l.ufkHeads a [] i L F → kernbase + i * l.ufk.pageSize ≤ p → l.kend ≤ p →
      (∀ pg < i, (a.plist pg).pageaddr + l.ufk.pageSize ≤ p) →
      (∀ pg j, (a.plist pg).split 0 j = false) → p % pgsize = 0 → (∀ pg, (a.plist pg).pageaddr % pgsize = 0) →
      ∃ a' count L' F', l.tableInitLoop phystop fuel i p a = some a' ∧
        Inv l.ufkHeads a' [] count L' F' ∧ (∀ pg j, (a'.plist pg).split 0 j = false) ∧
        ∀ pg, (a'.plist pg).pageaddr % pgsize = 0 := by
  induction fuel with
  | zero =>
    intro i p a L F hi _ _ _ hm _ hal
    exact ⟨a, i, L, F, rfl, hi, hm, hal⟩
  | succ fuel ih =>
    intro i p a L F hi hp hk hpg hm hpal hal
    have hsize := l.ufk_pageSize
    unfold tableInitLoop
    by_cases hle : p + l.ufk.pageSize ≤ phystop
    · rw [if_pos hle]
      have hn : l.ufk.npages = 1024 := rfl
      have hnext : kernbase + (i + 1) * l.ufk.pageSize ≤ p + l.ufk.pageSize := by
        have := Nat.add_one_mul i l.ufk.pageSize
        omega
      rw [hsize] at hp
      have hkern : kernbase = 2147483648 := rfl
      have hstop : phystop = 2281701376 := rfl
      obtain ⟨a', L', F', hrun, hi', hbase, hm'⟩ := Pool.putPage_own (fun x => ⟨x, rfl⟩) hi (p := p)
        (by omega) ⟨by omega, hle⟩ hk (fun pg hlt => .inl (hpg pg hlt))
      rw [hrun]
      refine ih (i + 1) (p + l.ufk.pageSize) a' L' F' hi' hnext (by omega) ?_ ?_ ?_ ?_
      · intro pg hlt
        rw [hbase]
        split_ifs with he
        · omega
        · have := hpg pg (by omega)
          omega
      · intro pg j
        rw [hm', hm]
      · rw [hsize]
        change p % 4096 = 0 at hpal
        change (p + 524288) % 4096 = 0
        omega
      · intro pg
        rw [hbase]
        split_ifs
        · exact hpal
        · exact hal pg
    · rw [if_neg hle]
      exact ⟨a, i, L, F, rfl, hi, hm, hal⟩

theorem tableInit_ok (m : Links) : ∃ a count L F, l.tableInit l.kend phystop m = some a ∧
    Inv l.ufkHeads a [] count L F ∧ (∀ pg j, (a.plist pg).split 0 j = false) ∧
    ∀ pg, (a.plist pg).pageaddr % pgsize = 0 := by
  have hstart : Inv l.ufkHeads (l.ufk.init m) [] 0 Labels.empty fun _ => [] :=
    .start _ (l.ufk.init_rings m l.ufk_inj) (fun _ => rfl) (fun _ => rfl)
  have hk := l.le_bigpgRoundup l.kend
  have hkern := l.kern_kend
  have hal : l.bigpgRoundup l.kend % pgsize = 0 := by
    unfold bigpgRoundup
    rw [ufk_pageSize]
    change (l.kend + 524288 - 1) / 524288 * 524288 % 4096 = 0
    omega
  exact l.tableInitLoop_ok (phystop / l.ufk.pageSize + 1) 0
    (l.bigpgRoundup l.kend) _ _ _ hstart (by omega) hk (fun pg h => absurd h (Nat.not_lt_zero pg))
    (fun _ _ => rfl) hal fun _ => rfl

end Layout

namespace Pool

variable {l : Layout} {s s' : Pool}

/-- `buddy.c` marks nothing. -/
def BdOk (l : Layout) (s : Pool) : Prop := s.Ok l.bdHeads ∧ ∀ pg i, (s.arena.plist pg).split 0 i = false

theorem BdOk.step (h : s.BdOk l) {op : PoolOp} (hs : s.bdStep l op = some s') : s'.BdOk l := by
  obtain ⟨hok, hm⟩ := h
  have keep : s'.Ok l.bdHeads ∧ s.SameMarks s' → s'.BdOk l := by
    rintro ⟨h1, h2⟩
    exact ⟨h1, fun pg i => (h2 pg i).trans (hm pg i)⟩
  cases op with
  | addPage p =>
    simp only [bdStep] at hs
    split_ifs at hs with hf
    obtain ⟨a', ha, rfl⟩ := map_eq_some_iff.mp hs
    obtain ⟨h1, h2, h3, h4⟩ := hf
    obtain ⟨hall, count, L, F, hi⟩ := hok
    rw [addPage_eq hi.rep] at ha
    split_ifs at ha with hc
    obtain ⟨a'', L', F', hrun, hi', -, hm'⟩ := putPage_own hall hi (p := p) hc ⟨h1, h2⟩ h3 (by
      intro pg hpg
      have := (hi.rep.used pg).mpr hpg
      exact (h4 pg (by omega)).resolve_left this)
    rw [hrun] at ha
    obtain rfl : a'' = a' := some.inj ha
    exact keep ⟨⟨hall, count + 1, L', F', hi'⟩, hm'⟩
  | alloc n => exact keep (hok.alloc hs)
  | free p =>
    obtain ⟨b, hb, hs⟩ := bind_eq_some_iff.mp hs
    obtain ⟨a', ha, rfl⟩ := map_eq_some_iff.mp hs
    obtain ⟨pindex, hpi, ha⟩ := bind_eq_some_iff.mp ha
    exact keep (hok.freeAt hb hpi (hm ..) ha)
  | mark p => cases hs
  | write p f => exact keep (hok.write hs)

theorem ufk_step (h : s.Ok l.ufkHeads) {op : PoolOp} (hs : s.ufkStep l op = some s') : s'.Ok l.ufkHeads := by
  cases op with
  | addPage p => cases hs
  | alloc n => exact (h.alloc hs).1
  | free p =>
    obtain ⟨b, hb, hs⟩ := bind_eq_some_iff.mp hs
    obtain ⟨pindex, hpi, hs⟩ := bind_eq_some_iff.mp hs
    split_ifs at hs with hmk
    obtain ⟨a', ha, rfl⟩ := map_eq_some_iff.mp hs
    exact (h.freeAt hb hpi (Bool.eq_false_iff.mpr hmk) ha).1
  | mark p =>
    obtain ⟨b, hb, hs⟩ := bind_eq_some_iff.mp hs
    obtain ⟨pindex, hpi, hs⟩ := bind_eq_some_iff.mp hs
    split_ifs at hs with hk
    cases hs
    obtain ⟨hall, count, L, F, hi⟩ := h
    obtain ⟨hmem, rfl⟩ := entry_mem hb
    obtain ⟨pg, k, i, hk', hl, hp, -, hpi', -⟩ := hi.found (p := b.1) (n := b.2) hmem
    obtain rfl : pg = pindex := some.inj (hpi'.symm.trans hpi)
    obtain rfl : k = 0 := some.inj (hk'.symm.trans hk)
    refine ⟨hall, count, L, F, ?_⟩
    show Inv l.ufkHeads (l.mark b.1 pg s.arena) s.live count L F
    unfold Layout.mark
    rw [hp, l.ufk.blkIndex_addr]
    exact hi.mark hl
  | write p f => exact (h.write hs).1

end Pool

/-- **Conservation and coalescing.**  In every state that the calls of `buddy.c` reach from
`bd_init`, and those of `ufkalloc.c` from `table_init`, the free and the live blocks tile the
pages, no two buddies are free, the alloc bits tell what is live or split, and a page whose blocks
have all been freed is one block again. -/
theorem buddyConservation (l : Layout) (m : Links) :
    (∀ ops s, Run (fun s op s' => Pool.bdStep l s op = some s') ⟨l.bd.init m, []⟩ ops s → ∃ F, Conserved l.bd s F) ∧
    ∃ a, l.tableInit l.kend phystop m = some a ∧
      ∀ ops s, Run (fun s op s' => Pool.ufkStep l s op = some s') ⟨a, []⟩ ops s → ∃ F, Conserved l.ufk s F := by
  constructor
  · intro ops s hrun
    have hstart : Pool.BdOk l ⟨l.bd.init m, []⟩ :=
      ⟨⟨fun x => ⟨x, rfl⟩, 0, _, _, .start _ (l.bd.init_rings m l.bd_inj) (fun _ => rfl) (fun _ => rfl)⟩,
        fun _ _ => rfl⟩
    have hok := hrun.inv (I := Pool.BdOk l) (fun s op s' h hs => h.step hs) hstart
    exact hok.1.conserved rfl
  · obtain ⟨a, count, L, F, hinit, hi, -⟩ := l.tableInit_ok m
    refine ⟨a, hinit, fun ops s hrun => ?_⟩
    have hok := hrun.inv (I := Pool.Ok l.ufkHeads) (fun s op s' h hs => Pool.ufk_step h hs)
      ⟨fun x => ⟨x, rfl⟩, count, L, F, hi⟩
    exact hok.conserved rfl

/-- A kernel that ends two `BIGPG_SIZE` pages below the top of RAM. -/
def tightLayout : Layout where
  bdFreelist := kernbase + 512
  ufkFreelist := kernbase
  kend := phystop - 1048576
  bd_kern := by decide
  ufk_kern := by decide
  bd_end := by decide
  ufk_end := by decide
  apart := by decide

theorem buddyConservation_run : (∃ s, Run (fun s op s' => Pool.bdStep tightLayout s op = some s')
        ⟨tightLayout.bd.init fun _ => ⟨0, 0⟩, []⟩
        [.addPage (phystop - 4096), .alloc 100, .alloc 32, .free (phystop - 4096)] s ∧
      s.live = [(phystop - 4096 + 128, 32)] ∧ ∃ F, Conserved tightLayout.bd s F) ∧
    ∃ a, tightLayout.tableInit tightLayout.kend phystop (fun _ => ⟨0, 0⟩) = some a ∧
      ∃ s, Run (fun s op s' => Pool.ufkStep tightLayout s op = some s') ⟨a, []⟩
          [.alloc 8192, .mark (phystop - 524288), .alloc 20000] s ∧
        s.live = [(phystop - 524288 + 32768, 20000), (phystop - 524288, 8192)] ∧
        ∃ F, Conserved tightLayout.ufk s F := by
  obtain ⟨hbd, a, ha, hufk⟩ := buddyConservation tightLayout fun _ => ⟨0, 0⟩
  refine ⟨?_, a, ha, ?_⟩
  · exact Run.find (by decide +kernel) fun s hs hv => ⟨hv, hbd _ s hs⟩
  · have key : ∃ a, (tightLayout.tableInit tightLayout.kend phystop fun _ => ⟨0, 0⟩) = some a ∧ ∃ s,
        runOf (Pool.ufkStep tightLayout) ⟨a, []⟩ [.alloc 8192, .mark (phystop - 524288), .alloc 20000] = some s ∧
          s.live = [(phystop - 524288 + 32768, 20000), (phystop - 524288, 8192)] := by
      decide +kernel
    obtain ⟨a', ha', key⟩ := key
    cases ha.symm.trans ha'
    exact Run.find key fun s hs hv => ⟨hv, hufk _ s hs⟩

end InternetOs.Mem
