import InternetOs.Proc.Space

/-!
# Creating, copying and tearing down address spaces

    proc_pagetable: three pages, an address space of no pages                     (procPagetable_takes)
    uvmcopy: the pages of the parent, one by one                                     (copyLoop_takes)
    proc_freepagetable: everything the space owns, unless its size is 0                (procFree_ok)
-/

namespace InternetOs.Vm

open Trie Space
open Mem (pgsize kernbase phystop)

section
variable {A : PageAlloc} {trampoline r tf n : Nat} {guard : Option Nat} {s s' : Ram A}

/-! ## `proc_pagetable` -/

/-- The tables of the trampoline, which the trapframe shares. -/
def topDirs : Set (List (Fin 512)) := dirs trampPage

theorem dirs_tfPage : dirs tfPage = topDirs := rfl

theorem nil_notMem_dirs (v : Nat) : [] ∉ dirs v := by
  rintro (h | h) <;> cases h

/-- What a new address space is. -/
structure Created (trampoline : Nat) (s : Ram A) (r tf : Nat) (s' : Ram A) : Prop where
  space : Space trampoline s' r tf 0 none
  pos : 0 < r
  held : A.held s.st ⊆ A.held s'.st
  owns : owns s'.mem r = A.held s'.st \ A.held s.st
  keep : ∀ q ∈ A.held s.st, s'.mem q = s.mem q
  absent : ∀ π : List (Fin 512), π.length ≤ 2 → (node ptr s'.mem r π = none ↔ π ≠ [] ∧ π ∉ topDirs)

theorem topDirs_ncard : topDirs.ncard = 2 := Set.ncard_pair (by decide)

theorem uvmcreate_takes (s : Ram A) :
    Takes uvmcreate s 1 fun r s' => ∃ s1, Fresh r s s1 ∧ s' = filled s1 r fun _ => 0 := by
  refine (ufkalloc_takes s).bind (m := 0) fun r s1 hf => ?_
  rw [if_neg (Nat.pos_iff_ne_zero.mp hf.pos)]
  exact Takes.memset (.pure ⟨s1, hf, rfl⟩)

theorem missing_empty {mem : Nat → Page} (hz : ∀ i, mem r i = 0) : missing mem r topDirs = 2 := by
  rw [← topDirs_ncard, missing]
  refine congrArg _ (Set.ext fun π => and_iff_left_of_imp fun hπ => ?_)
  rcases hπ with rfl | rfl
  · exact node_empty hz _ _
  · exact node_empty hz _ _

section
variable {s0 s1 s2 s3 : Ram A}

/-- The trampoline and the trapframe are all that is mapped in the new table. -/
theorem Created.of_maps (hf : Fresh r s s0) (hs1 : s1 = filled s0 r fun _ => 0) (htf : tf ∈ A.held s.st)
    (hm : Maps r trampPage 0 trampoline (pteR ||| pteX) s1 s2) (hm' : Maps r tfPage 0 tf (pteR ||| pteW) s2 s3) :
    Created trampoline s r tf s3 := by
  have hz : ∀ i, s1.mem r i = 0 := by
    rw [hs1, filled_self]
    exact fun _ => rfl
  have hheld : A.held s1.st = insert r (A.held s.st) := hs1 ▸ hf.held
  have hadds := hm.adds.trans hm'.adds
  have htab : ∀ q ∈ tables s3.mem r, q ∈ A.held s3.st ∧ q ∉ A.held s.st := by
    intro q hq
    rcases hadds.grows.fresh hq with h1 | h1
    · rw [tables_empty hz] at h1
      rw [h1]
      exact ⟨hadds.grows.held (by rw [hheld]; exact .inl rfl), hf.fresh⟩
    · rw [hheld] at h1
      exact ⟨h1.1, fun h2 => h1.2 (.inr h2)⟩
  have hlook : ∀ v < 2 ^ 27, lookup s3.mem r v = if v = tfPage then some (tf, pteR ||| pteW ||| pteV)
      else if v = trampPage then some (trampoline, pteR ||| pteX ||| pteV) else none := by
    intro v hv
    rw [hm'.lookup v hv, hm.lookup v hv, lookup_empty hz]
    by_cases h1 : v = tfPage
    · rw [if_pos ⟨le_of_eq h1.symm, le_of_eq h1⟩, if_pos h1, h1, Nat.sub_self, zero_mul, add_zero]
    · rw [if_neg (by omega), if_neg h1]
      by_cases h2 : v = trampPage
      · rw [if_pos ⟨le_of_eq h2.symm, le_of_eq h2⟩, if_pos h2, h2, Nat.sub_self, zero_mul, add_zero]
      · rw [if_neg (by omega), if_neg h2]
  have hup : upages s3.mem r = ∅ := by
    refine Set.eq_empty_of_forall_notMem ?_
    rintro q ⟨v, hv, f, hl⟩
    have hv' : v < 2 ^ 26 - 2 := hv
    rw [hlook v (by omega), if_neg (ne_of_lt hv), if_neg (by unfold trampPage; omega)] at hl
    cases hl
  refine ⟨⟨⟨hm'.adds.grows.table, fun q hq => (htab q hq).1, ?_, ?_, Nat.zero_le _, ?_, ?_, ?_, ?_⟩, ?_⟩, hf.pos,
    ?_, ?_, ?_, ?_⟩
  · exact hlook trampPage (by decide)
  · exact hlook tfPage (by decide)
  · intro v hv _ h1 h2
    rw [hlook v hv, if_neg h2, if_neg h1]
  · exact fun v hv => absurd hv (Nat.not_lt_zero v)
  · exact fun v hv => absurd hv (Nat.not_lt_zero v)
  · exact fun hq => (htab tf hq).2 htf
  · exact hadds.grows.held (by rw [hheld]; exact .inr htf)
  · exact fun q hq => hadds.grows.held (by rw [hheld]; exact .inr hq)
  · -- the pages of the new space are those that were not held
    rw [Vm.owns, hup, Set.union_empty]
    ext q
    refine ⟨htab q, fun hq => ?_⟩
    rcases hadds.drawn hq.1 with h1 | h1
    · rw [hheld] at h1
      rcases h1 with rfl | h1
      · exact root_mem_nodes
      · exact absurd h1 hq.2
    · exact h1
  · intro q hq
    have hqr : q ≠ r := by
      rintro rfl
      exact hf.fresh hq
    rw [hadds.grows.keep q (by rw [hheld]; exact .inr hq) (by rw [tables_empty hz]; exact hqr), hs1]
    exact hf.filled_keep hq
  · intro π hπ
    rw [hadds.grows.absent π hπ, add_zero, add_zero, dirsIn_succ_self, dirsIn_succ_self, dirs_tfPage,
      show dirs trampPage = topDirs from rfl, Set.union_self]
    refine and_congr_left fun _ => ?_
    cases π with
    | nil => exact ⟨fun h => (Option.some_ne_none r h).elim, fun h => absurd rfl h⟩
    | cons i π => exact ⟨fun _ => List.cons_ne_nil i π, fun _ => node_empty hz i π⟩

end

theorem procPagetable_takes (s : Ram A) (htf : tf ∈ A.held s.st) (htfa : tf % pgsize = 0) (htfl : tf < 2 ^ 64)
    (htra : trampoline % pgsize = 0) (htrl : trampoline < 2 ^ 64) :
    Takes (procPagetable trampoline tf) s 3 fun r s' => Created trampoline s r tf s' := by
  refine (uvmcreate_takes s).bind_sub (by decide) fun r s1 hs1 => ?_
  obtain ⟨s0, hf, hs1⟩ := hs1
  have hz : ∀ i, s1.mem r i = 0 := by
    rw [hs1, filled_self]
    exact fun _ => rfl
  have hheld : A.held s1.st = insert r (A.held s.st) := hs1 ▸ hf.held
  have hin : tables s1.mem r ⊆ A.held s1.st := by
    rw [tables_empty hz, hheld]
    exact Set.singleton_subset_iff.mpr (.inl rfl)
  -- the trampoline needs two tables, and the trapframe finds them
  have hmap := mappage_takes (show trampPage < 2 ^ 26 by decide) (show pteR ||| pteX < 1024 by decide) (.empty hz) hin
    (lookup_empty hz _) htra htrl
  rw [show dirs trampPage = topDirs from rfl, missing_empty hz] at hmap
  refine hmap.bind_sub (by decide) fun ret s2 hs2 => ?_
  have hm := hs2.2
  have hlook : lookup s2.mem r tfPage = none := by
    rw [hm.lookup tfPage (by decide), if_neg (by decide), lookup_empty hz]
  have hmap' := mappage_takes (show tfPage < 2 ^ 26 by decide) (show pteR ||| pteW < 1024 by decide)
    hm.adds.grows.table (hm.adds.grows.in_held hin) hlook htfa htfl
  rw [missing_eq_zero fun π hπ h => ?_] at hmap'
  · exact hmap'.bind_zero fun ret' s3 hs3 => .pure (.of_maps hf hs1 htf hm hs3.2)
  · have habs := (hm.adds.grows.absent π (dirs_length hπ)).mp h
    rw [dirsIn_succ_self] at habs
    exact habs.2 hπ

/-! ## `uvmcopy` -/

theorem Takes.memmove {α : Type} {f : Unit → VmM A α} {Q : α → Ram A → Prop} {k dst src : Nat}
    (h : Takes (f ()) (filled s dst (s.mem src)) k Q) : Takes (Vm.memmove dst src >>= f) s k Q := h

theorem Mapped.walk_page (h : Mapped trampoline s r tf n guard) {v : Nat} (hv : v < n) :
    ∃ p f, walk r (v * pgsize) false s = .ok (some (p, pxv 0 v)) s ∧ (s.mem p (pxv 0 v)).testBit 0 = true ∧
      pte2pa (s.mem p (pxv 0 v)) = page s.mem r v ∧ pteFlags (s.mem p (pxv 0 v)) = f ∧
      lookup s.mem r v = some (page s.mem r v, f) ∧ UserLeaf s r tf guard v (page s.mem r v) f := by
  have hfits : n ≤ 2 ^ 26 - 2 := h.fits
  obtain ⟨f, hl, hu⟩ := h.lookup_page hv
  obtain ⟨p, hp, hb, hpa, hfl⟩ := lookup_found hl
  have hwalk := walk_found (page_lt_maxva (show v < 2 ^ 26 by omega)) r s
  rw [page_div, hp] at hwalk
  exact ⟨p, f, hwalk, hb, hpa, hfl, hl, hu⟩

theorem Space.frame_extends (h : Space trampoline s r tf n guard) {new : Nat} {D : Set (List (Fin 512))}
    (hx : Extends new D s s') (hno : ∀ q ∈ owns s.mem r, q ∉ tables s.mem new) :
    Space trampoline s' r tf n guard ∧ (∀ q ∈ owns s.mem r, s'.mem q = s.mem q) ∧
      ∀ q ∈ owns s'.mem r, q ∉ tables s'.mem new := by
  have hkeep : ∀ q ∈ owns s.mem r, s'.mem q = s.mem q := fun q hq => hx.data q (h.owns_held hq) (hno q hq)
  have hkt : ∀ q ∈ tables s.mem r, s'.mem q = s.mem q := fun q hq => hkeep q (.inl hq)
  refine ⟨h.frame hkt (fun q hq => hx.held (h.owns_held hq)) (hx.held h.tf_held), hkeep, ?_⟩
  rw [owns_congr hkt]
  exact fun q hq => hx.tables q (h.owns_held hq) (hno q hq)

/-- **The loop of `uvmcopy`**, from the page `k` on. -/
theorem copyLoop_takes {old new tf' sz : Nat} (j : Nat) :
    ∀ (s : Ram A) (fuel k : Nat), j ≤ fuel → npages sz = k + j → Space trampoline s old tf (npages sz) guard →
      Space trampoline s new tf' k guard → (∀ q ∈ owns s.mem old, q ∉ tables s.mem new) →
      Takes (copyLoop old new sz fuel (k * pgsize)) s (need s.mem new k (k + j)) fun ret s' =>
        ret = 0 ∧ Space trampoline s' new tf' (k + j) guard ∧ Extends new (dirsIn k (k + j)) s s' ∧
          ∀ v, k ≤ v → v < k + j → s'.mem (page s'.mem new v) = s.mem (page s.mem old v) := by
  induction j with
  | zero =>
    intro s fuel k _ hsz ho hn _
    have hdone : ¬ k * pgsize < sz := by
      rw [← lt_npages]
      omega
    have hstop : (copyLoop old new sz fuel (k * pgsize) : VmM A Int) = pure 0 := by
      cases fuel with
      | zero => rfl
      | succ fuel => rw [copyLoop, if_neg hdone]
    rw [add_zero, need_self _ _ (Nat.le_refl k), dirsIn_empty (Nat.le_refl k), hstop]
    exact .pure ⟨rfl, hn, .refl s new, fun v h1 h2 => by omega⟩
  | succ j ih =>
    intro s fuel k hfuel hsz ho hn hno
    obtain ⟨fuel, rfl⟩ := Nat.exists_eq_succ_of_ne_zero (ne_of_gt (lt_of_lt_of_le (Nat.succ_pos j) hfuel))
    have hmore : k * pgsize < sz := by
      rw [← lt_npages]
      omega
    have hk : k < tfPage := lt_of_lt_of_le (show k < npages sz by omega) ho.fits
    have hk' : k < 2 ^ 26 - 2 := hk
    obtain ⟨p, f, hwalk, hb, hpa, hfl, hl, hu⟩ := ho.walk_page (show k < npages sz by omega)
    have hle := need_succ_le s.mem new (show k < k + (j + 1) by omega)
    rw [copyLoop, if_pos hmore]
    refine .bind_ok hwalk ?_ rfl
    refine Takes.load ?_
    rw [if_neg (by rw [hb]; decide)]
    refine Takes.ufkalloc_bind (by omega) fun m s1 hf => ?_
    rw [if_neg (Nat.pos_iff_ne_zero.mp hf.pos)]
    refine Takes.memmove ?_
    rw [hpa, hfl]
    have hsrc : s1.mem (page s.mem old k) = s.mem (page s.mem old k) := by
      refine hf.keep _ ?_
      rintro rfl
      exact hf.fresh hu.held
    refine (hn.extend hk hf _ hu.flags hu.leaf hu.user).bind_sub (by omega) fun ret s2 hs2 => ?_
    obtain ⟨rfl, hsp, hx, hcopy, hnew⟩ := hs2
    obtain ⟨ho', hkeep, hno'⟩ := ho.frame_extends hx hno
    rw [next_page (by omega), show k + (j + 1) = k + 1 + j by omega]
    rw [← dirsIn_succ_self k] at hx
    have htotal := hx.need_add (Nat.le_succ k) (Nat.le_add_right (k + 1) j)
    rw [need_succ] at htotal
    refine ((ih s2 fuel (k + 1) (by omega) (by omega) ho' hsp hno').mono fun ret s3 hs3 => ?_).congr (by omega)
    obtain ⟨h1, h2, h3, h4⟩ := hs3
    refine ⟨h1, h2, ?_, fun v hv hv' => ?_⟩
    · have := hx.trans h3
      rwa [← dirsIn_union (Nat.le_succ k) (Nat.le_add_right (k + 1) j)] at this
    · have hpage : page s2.mem old v = page s.mem old v := by
        rw [page, page, lookup_congr fun q hq => hkeep q (.inl hq)]
      rcases Nat.eq_or_lt_of_le hv with rfl | hv
      · -- the page just copied stays as it is
        have hm : page s3.mem new k = m := by
          rw [page, h3.looks k (by omega) _ hnew]
          rfl
        obtain ⟨g, hg, hug⟩ := hsp.lookup_page (Nat.lt_succ_self k)
        rw [hnew] at hg
        cases hg
        rw [hm, h3.data _ hug.held hug.apart, hcopy, hsrc]
      · rw [h4 v hv (by omega), hpage]
        exact hkeep _ (.inr (ho.mem_upages.mpr ⟨v, by omega, rfl⟩))

/-! ## `proc_freepagetable` -/

theorem unmapOne {v pa f : Nat} (hv : v < 2 ^ 26) (ht : Table s.mem r) (hl : lookup s.mem r v = some (pa, f))
    (hf : f ≠ pteV) : ∃ mem, uvmunmap r (v * pgsize) pgsize false s = .ok () ⟨mem, s.st⟩ ∧ Unmaps r v 0 s.mem mem := by
  have hlt : v * pgsize + pgsize ≤ maxva := by
    change v * 4096 + 4096 ≤ 2 ^ 38
    omega
  have hfree : freeAll A (pagesFreed false (fun _ => pa) (v * pgsize / pgsize) (span (v * pgsize) pgsize)) s.st =
      some s.st := rfl
  obtain ⟨mem, hrun, hun⟩ := uvmunmap_ok (fun _ => pa) (fun _ => f) (by decide) hlt ht
    (fun x h1 h2 => by
      rw [span_page, page_div] at h2
      rw [page_div] at h1
      obtain rfl : x = v := by omega
      exact ⟨hl, hf⟩) hfree
  rw [span_page, page_div] at hun
  exact ⟨mem, hrun, hun⟩

/-- The table without the trampoline and the trapframe. -/
structure NoTop (r : Nat) (mem mem' : Nat → Page) : Prop where
  edits : Edits r mem mem'
  lookup : ∀ v < 2 ^ 27, lookup mem' r v = if v = tfPage ∨ v = trampPage then none else Vm.lookup mem r v

theorem Mapped.unmap_top (h : Mapped trampoline s r tf n guard) : ∃ mem1 mem2,
    uvmunmap r trampolineVa pgsize false s = .ok () ⟨mem1, s.st⟩ ∧
    uvmunmap r trapframeVa pgsize false ⟨mem1, s.st⟩ = .ok () ⟨mem2, s.st⟩ ∧ NoTop r s.mem mem2 := by
  obtain ⟨mem1, hrun1, hun1⟩ := unmapOne (show trampPage < 2 ^ 26 by decide) h.table h.tramp (by decide)
  have hl1 : lookup mem1 r tfPage = some (tf, pteR ||| pteW ||| pteV) := by
    rw [hun1.lookup tfPage (by decide), if_neg (by decide), h.trapframe]
  obtain ⟨mem2, hrun2, hun2⟩ := unmapOne (s := ⟨mem1, s.st⟩) (by decide) hun1.edits.table hl1 (by decide)
  refine ⟨mem1, mem2, hrun1, hrun2, hun1.edits.trans hun2.edits, fun v hv => ?_⟩
  rw [hun2.lookup v hv, hun1.lookup v hv]
  by_cases h1 : v = tfPage
  · rw [if_pos (by omega), if_pos (.inl h1)]
  · by_cases h2 : v = trampPage
    · rw [if_neg (by omega), if_pos (by omega), if_pos (.inr h2)]
    · rw [if_neg (by omega), if_neg (by omega), if_neg (by tauto)]

theorem Mapped.tables_upages (h : Mapped trampoline s r tf n guard) {q : Nat} (hq : q ∈ tables s.mem r) :
    q ∉ upages s.mem r := by
  intro hqu
  obtain ⟨v, hv, rfl⟩ := h.mem_upages.mp hqu
  obtain ⟨f, -, hu⟩ := h.lookup_page hv
  exact hu.apart hq

/-- `uvmfree` once the trampoline and the trapframe are unmapped. -/
theorem Mapped.uvmfree_ok (hA : A.Exact) {sz : Nat} (h : Mapped trampoline s r tf (npages sz) guard) (hsz : 0 < sz)
    {mem : Nat → Page} (hno : NoTop r s.mem mem) :
    ∃ s', uvmfree r sz ⟨mem, s.st⟩ = .ok () s' ∧ A.held s'.st = A.held s.st \ owns s.mem r ∧
      ∀ q, q ∉ tables s.mem r → s'.mem q = s.mem q := by
  have hmax := h.le_memory hA
  have hsp : 0 + span (0 * pgsize) sz + 1 = npages sz := by
    change 0 + ((0 * 4096 + sz - 1) / 4096 - 0 * 4096 / 4096) + 1 = (sz + 4096 - 1) / 4096
    omega
  have hva : 0 * pgsize + sz ≤ maxva := by
    change (sz + 4096 - 1) / 4096 ≤ 32768 at hmax
    change 0 * 4096 + sz ≤ 2 ^ 38
    omega
  have huser : ∀ v < npages sz, lookup mem r v = lookup s.mem r v := by
    intro v hv
    rw [hno.lookup v (by omega), if_neg]
    unfold tfPage trampPage
    omega
  obtain ⟨mem1, st1, hrun, hun, hheld⟩ := h.unmap_cut hA ⟨mem, s.st⟩ hno.edits.table huser rfl hsz hva hsp
  have hcut : cut s.mem r 0 (npages sz) = upages s.mem r := by
    ext q
    rw [h.mem_upages]
    exact ⟨fun ⟨v, _, hv, he⟩ => ⟨v, hv, he⟩, fun ⟨v, hv, he⟩ => ⟨v, Nat.zero_le v, hv, he⟩⟩
  have htab : tables mem1 r = tables s.mem r := hun.edits.tables.trans hno.edits.tables
  have hin : tables mem1 r ⊆ A.held st1 := by
    rw [htab, hheld, hcut]
    exact fun q hq => ⟨h.held hq, h.tables_upages hq⟩
  have hnone : ∀ v < 2 ^ 27, lookup mem1 r v = none := by
    intro v hv
    rw [hun.lookup v hv]
    split_ifs with hin
    · rfl
    · refine (hno.lookup v hv).trans ?_
      split_ifs with htop
      · rfl
      · exact h.empty v hv (by omega) (fun h2 => htop (.inr h2)) fun h1 => htop (.inl h1)
  obtain ⟨s', hrun', hheld', hmem'⟩ := freewalk_ok hA (s := ⟨mem1, st1⟩) hun.edits.table hin hnone
  refine ⟨s', ?_, ?_, fun q hq => ?_⟩
  · rw [uvmfree, ← zero_mul pgsize, bind_of_ok hrun, hrun']
  · rw [hheld']
    change A.held st1 \ tables mem1 r = _
    rw [hheld, htab, hcut, Set.sdiff_sdiff, Set.union_comm]
    rfl
  · have hkeep : mem1 q = mem q := hun.edits.keep q (by rwa [hno.edits.tables])
    rw [hmem' q (by rwa [htab])]
    exact hkeep.trans (hno.edits.keep q hq)

/-- **Teardown.**  With a size, everything the space owns is given back; with none, nothing is. -/
theorem procFree_ok (hA : A.Exact) {sz : Nat} (h : Mapped trampoline s r tf (npages sz) guard) :
    ∃ s', procFreepagetable r sz s = .ok () s' ∧
      A.held s'.st = (if 0 < sz then A.held s.st \ owns s.mem r else A.held s.st) ∧
      ∀ q, q ∉ tables s.mem r → s'.mem q = s.mem q := by
  obtain ⟨mem1, mem2, hrun1, hrun2, hno⟩ := h.unmap_top
  unfold procFreepagetable
  rw [bind_of_ok hrun1, bind_of_ok hrun2]
  split_ifs with hsz
  · exact h.uvmfree_ok hA hsz hno
  · exact ⟨⟨mem2, s.st⟩, rfl, rfl, hno.edits.keep⟩

end

end InternetOs.Vm
