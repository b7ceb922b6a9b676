import InternetOs.Mem.PageTable

/-!
# Sequences of `mappages` and `uvmunmap`

What a page table is for: a finite map from page numbers to physical addresses and flags (`PageMap`).
`mappages` and `uvmunmap` do to the table what `MapOp.apply` does to the map, as long as each is used
on a range that allows it (`MapOp.Fits`).  The pages for new tables come from a list, of which nothing
is assumed but that no page of it is in use as a table; what is freed is written down.

    a run of calls returns 0 from each, `walk` and `walkaddr` give what the map gives, and every
    page that is unmapped with `do_free` has been freed once                           (pageTableMap)
-/

namespace InternetOs.Vm

open Trie List Option
open Mem (pgsize)

/-! ## The abstract map -/

/-- From page numbers to physical addresses and flags. -/
abbrev PageMap : Type := Nat → Option (Nat × Nat)

inductive MapOp
  | mappages (va size pa perm : Nat)
  | uvmunmap (va size : Nat) (doFree : Bool)

/-- The page `x` has a byte of `[va, va + size)`. -/
def InRange (va size x : Nat) : Prop := va / pgsize ≤ x ∧ x ≤ (va + size - 1) / pgsize

instance (va size x : Nat) : Decidable (InRange va size x) := inferInstanceAs (Decidable (_ ∧ _))

namespace MapOp

def apply (M : PageMap) : MapOp → PageMap
  | mappages va size pa perm => fun x =>
    if InRange va size x then some (pa + (x - va / pgsize) * pgsize, perm ||| pteV) else M x
  | uvmunmap va size _ => fun x => if InRange va size x then none else M x

/-- The physical pages that are freed, in the order of the virtual ones. -/
def freed (M : PageMap) : MapOp → List Nat
  | mappages _ _ _ _ => []
  | uvmunmap va size doFree =>
    if doFree then (range' (va / pgsize) (span va size + 1)).map fun x => ((M x).getD (0, 0)).1 else []

/-- The calls that are allowed: `mappages` on a range that is not mapped, `uvmunmap` on one that is. -/
def Fits (M : PageMap) : MapOp → Prop
  | mappages va size pa perm =>
    va % pgsize = 0 ∧ pa % pgsize = 0 ∧ pa < 2 ^ 56 ∧ perm < 1024 ∧ perm &&& (pteR ||| pteW ||| pteX) ≠ 0 ∧
      0 < size ∧ va + size ≤ maxva ∧ ∀ x, InRange va size x → M x = none
  | uvmunmap va size _ => 0 < size ∧ va + size ≤ maxva ∧ ∀ x, InRange va size x → M x ≠ none

/-- How many pages a call maps. -/
def pages : MapOp → Nat
  | mappages va size _ _ => span va size + 1
  | uvmunmap _ _ _ => 0

def run {A : PageAlloc} (r : Nat) : MapOp → VmM A Int
  | mappages va size pa perm => Vm.mappages r va size pa perm
  | uvmunmap va size doFree => do
    Vm.uvmunmap r va size doFree
    return 0

end MapOp

def applyAll (M : PageMap) (ops : List MapOp) : PageMap := ops.foldl MapOp.apply M

def FitsAll : PageMap → List MapOp → Prop
  | _, [] => True
  | M, op :: ops => op.Fits M ∧ FitsAll (op.apply M) ops

def freedAll : PageMap → List MapOp → List Nat
  | _, [] => []
  | M, op :: ops => op.freed M ++ freedAll (op.apply M) ops

/-! ## The supply of tables -/

/-- The pages that `ufkalloc` will hand out, and those that `ufkfree` has been called for. -/
structure Supply where
  pages : List (Nat × Page)
  freed : List Nat
  nodup : (pages.map Prod.fst).Nodup
  page : ∀ x ∈ pages, 0 < x.1 ∧ x.1 % pgsize = 0 ∧ x.1 < 2 ^ 64

namespace Supply

def ufkalloc (st : Supply) : Option ((Nat × Page) × Supply) :=
  match h : st.pages with
  | [] => none
  | x :: xs => some (x,
    { pages := xs
      freed := st.freed
      nodup := (nodup_cons.mp (h ▸ st.nodup)).2
      page := fun y hy => st.page y (h ▸ mem_cons_of_mem x hy) })

theorem ufkalloc_some {st st' : Supply} {x : Nat × Page} (h : st.ufkalloc = some (x, st')) :
    st.pages = x :: st'.pages ∧ st'.freed = st.freed := by
  unfold ufkalloc at h
  split at h
  · cases h
  · rename_i y ys hy
    cases h
    exact ⟨hy, rfl⟩

theorem ufkalloc_none {st : Supply} (h : st.ufkalloc = none) : st.pages = [] := by
  unfold ufkalloc at h
  split at h
  · assumption
  · cases h

/-- A supply that is a list.  A page is held unless it is still to come. -/
def alloc : PageAlloc where
  St := Supply
  ufkalloc := Supply.ufkalloc
  ufkfree p st := some { st with freed := st.freed ++ [p] }
  held st := {p | p ∉ st.pages.map Prod.fst}
  alloc_fresh := by
    intro st st' p w h
    rw [Set.mem_ofPred_eq, (ufkalloc_some h).1, not_not]
    exact mem_cons_self
  alloc_held := by
    intro st st' p w h
    have hnd := st.nodup
    rw [(ufkalloc_some h).1, map_cons, nodup_cons] at hnd
    ext q
    simp only [(ufkalloc_some h).1, Set.mem_ofPred_eq, map_cons, mem_cons, not_or, Set.mem_insert_iff]
    constructor
    · intro hq
      by_cases hqp : q = p
      · exact .inl hqp
      · exact .inr ⟨hqp, hq⟩
    · rintro (rfl | hq)
      · exact hnd.1
      · exact hq.2
  alloc_page := by
    intro st st' p w h
    exact st.page (p, w) ((ufkalloc_some h).1 ▸ mem_cons_self)

theorem drawn_some {n : Nat} {st st' : Supply} (h : drawn (source alloc).next n st = some st') :
    st'.pages.length + n = st.pages.length ∧ st'.freed = st.freed := by
  induction n generalizing st with
  | zero =>
    cases h
    exact ⟨rfl, rfl⟩
  | succ n ih =>
    obtain ⟨st1, h1, h2⟩ := bind_eq_some_iff.mp h
    obtain ⟨⟨x, st2⟩, hx, rfl⟩ := map_eq_some_iff.mp h1
    obtain ⟨hlen, hfr⟩ := ih h2
    obtain ⟨hp, hf⟩ := ufkalloc_some hx
    refine ⟨?_, hfr.trans hf⟩
    rw [hp, length_cons, ← hlen]
    rfl

theorem drawn_none {n : Nat} {st : Supply} (h : drawn (source alloc).next n st = none) : st.pages.length < n := by
  induction n generalizing st with
  | zero => cases h
  | succ n ih =>
    have hnext := bind_eq_none_iff.mp h
    cases hx : st.ufkalloc with
    | none =>
      rw [ufkalloc_none hx]
      exact Nat.succ_pos n
    | some r =>
      have := ih (hnext r.2 (by change Option.map Prod.snd st.ufkalloc = _; rw [hx]; rfl))
      rw [(ufkalloc_some hx).1, length_cons]
      omega

theorem freeAll_eq (ps : List Nat) (st : Supply) :
    ∃ st' : Supply, freeAll alloc ps st = some st' ∧ st'.pages = st.pages ∧ st'.freed = st.freed ++ ps := by
  induction ps generalizing st with
  | nil => exact ⟨st, rfl, rfl, (append_nil _).symm⟩
  | cons p ps ih =>
    obtain ⟨st', h1, h2, h3⟩ := ih { st with freed := st.freed ++ [p] }
    refine ⟨st', h1, h2, ?_⟩
    rw [h3, append_assoc]
    rfl

end Supply

/-! ## One call -/

/-- A well-formed three-level table: what the lowest level maps is a page, with one of R, W and X. -/
structure WellFormed (mem : Nat → Page) (r : Nat) : Prop where
  table : Table mem r
  leaves : ∀ v < 2 ^ 26, ∀ pa f, lookup mem r v = some (pa, f) → f &&& (pteR ||| pteW ||| pteX) ≠ 0

/-- The table represents the map, and no page of the supply is in use as a table. -/
structure Represents (r : Nat) (s : Ram Supply.alloc) (M : PageMap) : Prop where
  wf : WellFormed s.mem r
  looks : ∀ v < 2 ^ 26, lookup s.mem r v = M v
  apart : ∀ q ∈ tables s.mem r, q ∉ s.st.pages.map Prod.fst

section
variable {r : Nat} {s s' : Ram Supply.alloc} {M : PageMap} {va size : Nat}

theorem inRange_iff {x : Nat} (hpos : 0 < size) :
    InRange va size x ↔ va / pgsize ≤ x ∧ x ≤ va / pgsize + span va size := by
  have h : va / pgsize ≤ (va + size - 1) / pgsize := Nat.div_le_div_right (by omega)
  rw [InRange, span, Nat.add_sub_of_le h]

theorem missing_dirsIn (mem : Nat → Page) (r v n : Nat) : missing mem r (dirsIn v (v + n + 1)) ≤ 2 * (n + 1) := by
  have hone : ∀ x, (dirs x).ncard ≤ 2 := fun x =>
    (Set.ncard_insert_le _ _).trans (by rw [Set.ncard_singleton])
  have hall : ∀ n v, (dirsIn v (v + n + 1)).ncard ≤ 2 * (n + 1) := by
    intro n
    induction n with
    | zero =>
      intro v
      rw [dirsIn_succ_self]
      exact hone v
    | succ n ih =>
      intro v
      rw [dirsIn_succ (by omega), show v + (n + 1) = v + 1 + n by omega]
      have h1 := hone v
      have h2 := ih (v + 1)
      have h3 := Set.ncard_union_le (dirs v) (dirsIn (v + 1) (v + 1 + n + 1))
      omega
  refine le_trans (Set.ncard_le_ncard (fun π hπ => hπ.1) ?_) (hall n v)
  exact finite_paths fun π => dirsIn_length

theorem rwx_or_pteV {perm : Nat} (h : perm &&& (pteR ||| pteW ||| pteX) ≠ 0) :
    (perm ||| pteV) &&& (pteR ||| pteW ||| pteX) ≠ 0 := by
  rw [Nat.and_or_distrib_right]
  exact fun h0 => h (Nat.or_eq_zero_iff.mp h0).1

/-- Any page that is mapped has an entry that can be unmapped. -/
theorem Represents.leaf (h : Represents r s M) {x : Nat} (hx : x < 2 ^ 26) (hm : M x ≠ none) :
    lookup s.mem r x = some (((M x).getD (0, 0)).1, ((M x).getD (0, 0)).2) ∧ ((M x).getD (0, 0)).2 ≠ pteV := by
  obtain ⟨⟨pa, f⟩, hMx⟩ := ne_none_iff_exists'.mp hm
  have hl := (h.looks x hx).trans hMx
  rw [hMx]
  refine ⟨hl, ?_⟩
  rintro rfl
  exact h.wf.leaves x hx pa _ hl rfl

theorem Represents.unmap (h : Represents r s M) {doFree : Bool} (hfit : (MapOp.uvmunmap va size doFree).Fits M) :
    ∃ s', (MapOp.uvmunmap va size doFree).run r s = .ok 0 s' ∧
      Represents r s' ((MapOp.uvmunmap va size doFree).apply M) ∧
      s'.st.freed = s.st.freed ++ (MapOp.uvmunmap va size doFree).freed M ∧ s'.st.pages = s.st.pages := by
  obtain ⟨hpos, hlt, hmapped⟩ := hfit
  have hlast := span_lt hpos hlt
  obtain ⟨st, hst, hpages, hfreed⟩ := Supply.freeAll_eq
    (pagesFreed doFree (fun x => ((M x).getD (0, 0)).1) (va / pgsize) (span va size)) s.st
  obtain ⟨mem, hrun, hun⟩ := uvmunmap_ok _ (fun x => ((M x).getD (0, 0)).2) hpos hlt h.wf.table
    (fun x h1 h2 => h.leaf (by omega) (hmapped x ((inRange_iff hpos).mpr ⟨h1, h2⟩))) hst
  have hlook : ∀ v < 2 ^ 26, lookup mem r v = (MapOp.uvmunmap va size doFree).apply M v := by
    intro v hv
    rw [hun.lookup v (by omega), MapOp.apply, h.looks v hv]
    simp only [inRange_iff hpos]
  refine ⟨⟨mem, st⟩, bind_of_ok hrun, ⟨⟨hun.edits.table, ?_⟩, hlook, ?_⟩, hfreed, hpages⟩
  · intro v hv pa f hl
    rw [hun.lookup v (by omega)] at hl
    split_ifs at hl
    exact h.wf.leaves v hv pa f hl
  · change ∀ q ∈ tables mem r, q ∉ st.pages.map Prod.fst
    rw [hun.edits.tables, hpages]
    exact h.apart

theorem Represents.map (h : Represents r s M) {pa perm : Nat} (hfit : (MapOp.mappages va size pa perm).Fits M) :
    (∃ s', (MapOp.mappages va size pa perm).run r s = .ok 0 s' ∧
      Represents r s' ((MapOp.mappages va size pa perm).apply M) ∧ s'.st.freed = s.st.freed ∧
      s.st.pages.length ≤ s'.st.pages.length + 2 * (span va size + 1)) ∨
    ∃ s', (MapOp.mappages va size pa perm).run r s = .error .couldNotAllocate s' ∧
      s.st.pages.length < 2 * (span va size + 1) := by
  obtain ⟨-, hpa, hpalt, hperm, hrwx, hpos, hlt, hnone⟩ := hfit
  have hlast := span_lt hpos hlt
  have hfree : ∀ k ≤ span va size, lookup s.mem r (va / pgsize + k) = none := by
    intro k hk
    rw [h.looks _ (by omega)]
    exact hnone _ ((inRange_iff hpos).mpr ⟨Nat.le_add_right _ _, by omega⟩)
  have hend : pa + span va size * pgsize < 2 ^ 64 := by
    have hspan : span va size < 2 ^ 26 := lt_of_le_of_lt (Nat.le_add_left _ _) hlast
    change pa + span va size * 4096 < 2 ^ 64
    omega
  have hbound := missing_dirsIn s.mem r (va / pgsize) (span va size)
  have htakes := mappages_takes hperm hpos hlt h.wf.table h.apart hfree hpa hend
  by_cases hl : (source Supply.alloc).Lasts
      (missing s.mem r (dirsIn (va / pgsize) (va / pgsize + span va size + 1))) s
  · obtain ⟨ret, s', hrun, hdrawn, rfl, hmaps⟩ := htakes.ok hl
    obtain ⟨hlen, hfreed⟩ := Supply.drawn_some hdrawn
    have hlook : ∀ v < 2 ^ 26, lookup s'.mem r v = (MapOp.mappages va size pa perm).apply M v := by
      intro v hv
      rw [hmaps.lookup v (by omega), MapOp.apply, h.looks v hv]
      simp only [inRange_iff hpos]
    refine .inl ⟨s', hrun, ⟨⟨hmaps.adds.grows.table, ?_⟩, hlook, hmaps.adds.grows.in_held h.apart⟩, hfreed, ?_⟩
    · intro v hv pa' f hl
      rw [hmaps.lookup v (by omega)] at hl
      split_ifs at hl
      · cases hl
        exact rwx_or_pteV hrwx
      · exact h.wf.leaves v hv pa' f hl
    · exact hlen ▸ Nat.add_le_add_left hbound _
  · obtain ⟨s', hrun⟩ := htakes.panic hl
    refine .inr ⟨s', hrun, ?_⟩
    rw [Source.Lasts, Bool.not_eq_true, isSome_eq_false_iff, isNone_iff_eq_none] at hl
    exact lt_of_lt_of_le (Supply.drawn_none hl) hbound

theorem Represents.step (h : Represents r s M) {op : MapOp} (hfit : op.Fits M) :
    (∃ s', op.run r s = .ok 0 s' ∧ Represents r s' (op.apply M) ∧ s'.st.freed = s.st.freed ++ op.freed M ∧
      s.st.pages.length ≤ s'.st.pages.length + 2 * op.pages) ∨
    ∃ s', op.run r s = .error .couldNotAllocate s' ∧ s.st.pages.length < 2 * op.pages := by
  cases op with
  | mappages va size pa perm =>
    rcases h.map hfit with ⟨s', hrun, hrep, hfreed, hlen⟩ | hpanic
    · exact .inl ⟨s', hrun, hrep, hfreed.trans (append_nil _).symm, hlen⟩
    · exact .inr hpanic
  | uvmunmap va size doFree =>
    obtain ⟨s', hrun, hrep, hfreed, hpages⟩ := h.unmap hfit
    exact .inl ⟨s', hrun, hrep, hfreed, le_of_eq (congrArg List.length hpages.symm)⟩

end

/-! ## Runs -/

/-- What `walk` finds for an address: the entry it points to, if that is valid. -/
def walkEntry {A : PageAlloc} (r va : Nat) : VmM A (Option (Nat × Nat)) := do
  match ← walk r va false with
  | none => return none
  | some pte => return leaf (← load pte)

/-- The answer of `walkaddr` by the map. -/
def PageMap.addr (M : PageMap) (va : Nat) : Nat :=
  if maxva ≤ va then 0
  else match M (va / pgsize) with
    | some (pa, f) => if f.testBit 4 then pa else 0
    | none => 0

theorem walkEntry_eq {A : PageAlloc} {r va : Nat} (hva : va < maxva) (s : Ram A) :
    walkEntry r va s = .ok (lookup s.mem r (va / pgsize)) s := by
  rw [walkEntry, bind_of_ok (walk_found hva r s), lookup]
  cases node ptr s.mem r (dirPath (va / pgsize)) <;> rfl

theorem walkaddr_eq {A : PageAlloc} (r va : Nat) (s : Ram A) :
    walkaddr r va s = .ok (PageMap.addr (lookup s.mem r) va) s := by
  unfold walkaddr PageMap.addr
  split_ifs with hva
  · rfl
  · rw [bind_of_ok (walk_found (not_le.mp hva) r s), lookup]
    cases node ptr s.mem r (dirPath (va / pgsize)) with
    | none => rfl
    | some p =>
      change (if !(s.mem p (pxv 0 (va / pgsize))).testBit 0 then pure 0
        else if !(s.mem p (pxv 0 (va / pgsize))).testBit 4 then pure 0
        else pure (pte2pa (s.mem p (pxv 0 (va / pgsize)))) : VmM A Nat) s = _
      rw [bind_some, leaf]
      cases (s.mem p (pxv 0 (va / pgsize))).testBit 0 with
      | false => rfl
      | true =>
        simp only [if_true, testBit_pteFlags (by decide : 4 < 10)]
        cases (s.mem p (pxv 0 (va / pgsize))).testBit 4 <;> rfl

/-- **The page table as a map.**  From a well-formed table, every sequence of calls on ranges that allow
them returns 0 from each call and leaves a well-formed table, which `walk` and `walkaddr` see as the
abstract map after these calls; what was freed is each physical page of the ranges unmapped with
`do_free`, once.  The only other end is that the pages for new tables run out, of which two for
each page mapped are always enough. -/
theorem pageTableMap (r : Nat) (s : Ram Supply.alloc) (hwf : WellFormed s.mem r)
    (hapart : ∀ q ∈ tables s.mem r, q ∉ s.st.pages.map Prod.fst) (ops : List MapOp)
    (hfit : FitsAll (lookup s.mem r) ops) :
    (∃ s', ops.mapM (MapOp.run r) s = .ok (ops.map fun _ => 0) s' ∧ WellFormed s'.mem r ∧
      (∀ va < maxva, walkEntry r va s' = .ok (applyAll (lookup s.mem r) ops (va / pgsize)) s') ∧
      (∀ va, walkaddr r va s' = .ok (PageMap.addr (applyAll (lookup s.mem r) ops) va) s') ∧
      s'.st.freed = s.st.freed ++ freedAll (lookup s.mem r) ops) ∨
    ∃ s', ops.mapM (MapOp.run r) s = .error .couldNotAllocate s' ∧
      s.st.pages.length < 2 * (ops.map MapOp.pages).sum := by
  suffices h : ∀ (s : Ram Supply.alloc) (M : PageMap), Represents r s M → FitsAll M ops →
      (∃ s', ops.mapM (MapOp.run r) s = .ok (ops.map fun _ => 0) s' ∧ Represents r s' (applyAll M ops) ∧
        s'.st.freed = s.st.freed ++ freedAll M ops) ∨
      ∃ s', ops.mapM (MapOp.run r) s = .error .couldNotAllocate s' ∧
        s.st.pages.length < 2 * (ops.map MapOp.pages).sum by
    rcases h s _ ⟨hwf, fun _ _ => rfl, hapart⟩ hfit with ⟨s', hrun, hrep, hfreed⟩ | hpanic
    · refine .inl ⟨s', hrun, hrep.wf, fun va hva => ?_, fun va => ?_, hfreed⟩
      · rw [walkEntry_eq hva, hrep.looks _ (Nat.div_lt_of_lt_mul hva)]
      · rw [walkaddr_eq]
        unfold PageMap.addr
        split_ifs with hva
        · rfl
        · rw [hrep.looks _ (Nat.div_lt_of_lt_mul (not_le.mp hva))]
    · exact .inr hpanic
  clear hfit hapart hwf s
  -- each call is a step of the abstract map
  induction ops with
  | nil => exact fun s M h _ => .inl ⟨s, rfl, h, (append_nil _).symm⟩
  | cons op ops ih =>
    rintro s M h ⟨hfit, hrest⟩
    rcases h.step hfit with ⟨s1, hrun, hrep, hfreed, hlen⟩ | ⟨s1, hrun, hlen⟩
    · rcases ih s1 _ hrep hrest with ⟨s2, hrun', hrep', hfreed'⟩ | ⟨s2, hrun', hlen'⟩
      · refine .inl ⟨s2, ?_, hrep', ?_⟩
        · rw [mapM_cons, bind_of_ok hrun, bind_of_ok hrun']
          rfl
        · rw [hfreed', hfreed, append_assoc]
          rfl
      · refine .inr ⟨s2, ?_, ?_⟩
        · rw [mapM_cons, bind_of_ok hrun, bind_of_error hrun']
        · rw [map_cons, sum_cons]
          omega
    · refine .inr ⟨s1, ?_, ?_⟩
      · rw [mapM_cons, bind_of_error hrun]
      · rw [map_cons, sum_cons]
        omega

/-- Two pages for tables. -/
def twoPages : Supply where
  pages := [(0x80001000, fun _ => 7), (0x80002000, fun _ => 7)]
  freed := []
  nodup := by decide
  page := by
    intro x hx
    simp only [mem_cons, not_mem_nil, or_false] at hx
    rcases hx with rfl | rfl <;> decide

/-- A page is mapped in an empty table, and unmapped and freed again. -/
theorem pageTableMap_once :
    ∃ s', [MapOp.mappages 0x3000 0x1000 0x87000000 6, MapOp.uvmunmap 0x3000 0x1000 true].mapM (MapOp.run 0x80000000)
        (⟨fun _ _ => 0, twoPages⟩ : Ram Supply.alloc) = .ok [0, 0] s' ∧ s'.st.freed = [0x87000000] := by
  have hapart : ∀ q ∈ tables (fun _ _ => 0) 0x80000000, q ∉ twoPages.pages.map Prod.fst := by
    rw [tables_empty fun _ => rfl]
    rintro q rfl
    decide
  have hfit : FitsAll (lookup (fun _ _ => 0) 0x80000000)
      [.mappages 0x3000 0x1000 0x87000000 6, .uvmunmap 0x3000 0x1000 true] := by
    refine ⟨⟨rfl, rfl, by decide, by decide, by decide, by decide, by decide, fun x _ => lookup_empty (fun _ => rfl) x⟩,
      ⟨by decide, by decide, fun x hx => ?_⟩, trivial⟩
    simp only [MapOp.apply, if_pos hx]
    exact some_ne_none _
  have hwf : WellFormed (fun _ _ => 0) 0x80000000 := by
    refine ⟨.empty fun _ => rfl, fun v _ pa f h => ?_⟩
    rw [lookup_empty fun _ => rfl] at h
    cases h
  rcases pageTableMap 0x80000000 ⟨fun _ _ => 0, twoPages⟩ hwf hapart _ hfit with
    ⟨s', hrun, -, -, -, hfreed⟩ | ⟨s', -, hlen⟩
  · exact ⟨s', hrun, hfreed⟩
  · exact absurd hlen (by decide)

end InternetOs.Vm
