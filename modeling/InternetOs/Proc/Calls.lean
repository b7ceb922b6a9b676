import InternetOs.Proc.Exec

/-!
# What the calls of a process do to memory

A process has the pages of its address space and its trapframe (`pagesOf`).  A new process gets pages
that were not held (`Born`); `sbrk` changes its own space only, and in it nothing below the smaller
of the two sizes (`Resized`); `freeproc` gives the pages back if the process has a size.

    fork, userinit                                                      (forkInto_takes, userinit_takes)
    sbrk                                                                              (growproc_ends)
    freeproc                                                                            (freeproc_ok)
-/

namespace InternetOs.Vm

open Trie Space
open Mem (pgsize kernbase phystop)

/-- The pages of a process. -/
def pagesOf (mem : Nat → Page) (p : Proc) : Set Nat := insert p.tf (owns mem p.pagetable)

section
variable {A : PageAlloc} {trampoline r tf n : Nat} {guard : Option Nat} {s0 s s1 s2 s' : Ram A} {p : Proc}

/-- The process `p` has an address space of its size. -/
def Proc.Valid (trampoline : Nat) (s : Ram A) (p : Proc) : Prop :=
  Space trampoline s p.pagetable p.tf (npages p.sz) p.guard

theorem Proc.Valid.pages_held (h : p.Valid trampoline s) : pagesOf s.mem p ⊆ A.held s.st := by
  rintro q (rfl | hq)
  · exact h.tf_held
  · exact h.owns_held hq

theorem pagesOf_congr {mem mem' : Nat → Page} (hmem : ∀ q ∈ tables mem p.pagetable, mem' q = mem q) :
    pagesOf mem' p = pagesOf mem p := by rw [pagesOf, pagesOf, owns_congr hmem]

/-! ## A new process -/

/-- The process `np` has come into being, on pages that were not held. -/
structure Born (trampoline : Nat) (s : Ram A) (np : Proc) (s' : Ram A) : Prop where
  valid : np.Valid trampoline s'
  held : A.held s'.st = A.held s.st ∪ pagesOf s'.mem np
  fresh : ∀ q ∈ pagesOf s'.mem np, q ∉ A.held s.st
  keep : ∀ q ∈ A.held s.st, s'.mem q = s.mem q

theorem allocproc_takes (s : Ram A) (htra : trampoline % pgsize = 0) (htrl : trampoline < 2 ^ 64) :
    Takes (allocproc trampoline) s 4 fun o s2 =>
      ∃ tf r s1, o = some (tf, r) ∧ Fresh tf s s1 ∧ Created trampoline s1 r tf s2 := by
  refine Takes.ufkalloc_bind (by decide) fun tf s1 hf => ?_
  rw [if_neg (Nat.pos_iff_ne_zero.mp hf.pos)]
  have htf : tf ∈ A.held s1.st := by
    rw [hf.held]
    exact .inl rfl
  refine (procPagetable_takes s1 htf hf.aligned hf.lt htra htrl).bind (m := 0) fun r s2 hc => ?_
  exact .pure ⟨tf, r, s1, rfl, hf, hc⟩

theorem Made.born (h : Made r s1 s2) (hf : Fresh tf s s1) {np : Proc} (hr : np.pagetable = r) (htf : np.tf = tf)
    (hsp : Space trampoline s2 r tf (npages np.sz) np.guard) (hst : s'.st = s2.st)
    (hmem : ∀ q, q ≠ tf → s'.mem q = s2.mem q) : Born trampoline s np s' := by
  subst hr htf
  have htab : ∀ q ∈ tables s2.mem np.pagetable, s'.mem q = s2.mem q := fun q hq =>
    hmem q fun he => hsp.tf_apart (he ▸ hq)
  have hheld : A.held s1.st = insert np.tf (A.held s.st) := hf.held
  have hsub := h.held
  rw [hheld] at hsub
  have hpages : pagesOf s'.mem np = A.held s2.st \ A.held s.st := by
    rw [pagesOf, owns_congr htab, h.owns, hheld]
    ext q
    have h1 : q = np.tf → q ∈ A.held s2.st ∧ q ∉ A.held s.st := by
      rintro rfl
      exact ⟨hsub (.inl rfl), hf.fresh⟩
    simp only [Set.mem_insert_iff, Set.mem_sdiff]
    tauto
  refine ⟨hsp.frame htab (fun q hq => hst ▸ hsp.owns_held hq) (hst ▸ hsp.tf_held), ?_, ?_, ?_⟩
  · rw [hpages, hst, Set.union_sdiff_cancel ((Set.subset_insert _ _).trans hsub)]
  · rw [hpages]
    exact fun q hq => hq.2
  · intro q hq
    have hne : q ≠ np.tf := by
      rintro rfl
      exact hf.fresh hq
    rw [hmem q hne, h.keep q (by rw [hheld]; exact .inr hq), hf.keep q hne]

/-- What a new process of `n` pages costs: the trapframe and the space. -/
noncomputable def procCost (n : Nat) : Nat := 1 + spaceCost n

theorem uvminit_takes (h : Space trampoline s r tf 0 none) {src : List UInt8} (hsrc : src.length < pgsize) :
    Takes (uvminit r src) s (need s.mem r 0 1) fun _ s' => Space trampoline s' r tf 1 none ∧
      Builds r (dirs 0) s s' := by
  have hneed : need s.mem r 0 1 = 1 + missing s.mem r (dirs 0) := need_succ s.mem r 0
  unfold uvminit
  rw [if_neg (not_le.mpr hsrc)]
  refine Takes.ufkalloc_bind (by omega) fun m s1 hf => ?_
  refine Takes.memset ?_
  have hmap := h.extend (by decide) hf (fun _ => 0) (show userPerm < 1024 by decide) (by decide) (.inl (by decide))
  refine hmap.bind_sub (by omega) fun ret s2 hs2 => ?_
  obtain ⟨-, hsp, hx, -, hl⟩ := hs2
  obtain ⟨s3, hrun, ht⟩ := copyIn_touches ⟨0, by decide, _, hl⟩ 0 src
  refine (Draws.of_ok hrun ht.st ⟨hsp.touch ht, ?_⟩).congr (by omega)
  have := hx.toBuilds.trans (hsp.touch_builds ht)
  rwa [Set.union_empty] at this

theorem userinit_takes (s : Ram A) (htra : trampoline % pgsize = 0) (htrl : trampoline < 2 ^ 64) (pid : Nat) :
    Takes (userinit trampoline pid) s (procCost 1) fun o s' =>
      ∃ np, o = some np ∧ np.sz = pgsize ∧ Born trampoline s np s' := by
  refine (allocproc_takes s htra htrl).bind_sub (by unfold procCost spaceCost; omega) fun o s2 ho => ?_
  obtain ⟨tf, r, s1, rfl, hf, hc⟩ := ho
  have hcost : procCost 1 - 4 = need s2.mem r 0 1 + 0 := by
    rw [hc.need_eq, procCost, spaceCost]
    omega
  refine ((uvminit_takes hc.space (by decide)).bind (m := 0) fun _ s3 hs3 => ?_).congr hcost.symm
  have hsp : Space trampoline s3 r tf (npages pgsize) none := hs3.1
  refine .of_ok rfl rfl ⟨_, rfl, rfl, (hc.made.builds hs3.2).born hf rfl rfl hsp rfl fun q hq => ?_⟩
  exact (put_of_ne hq _ _).trans (put_of_ne hq _ _)

theorem Space.name_guard (h : Space trampoline s r tf n none) (guard : Option Nat) :
    Space trampoline s r tf n guard := by
  refine ⟨⟨h.table, h.held, h.tramp, h.trapframe, h.fits, h.empty, fun v hv => ?_, h.inj, h.tf_apart⟩, h.tf_held⟩
  obtain ⟨pa, f, hl, hu⟩ := h.user v hv
  exact ⟨pa, f, hl, hu.held, hu.apart, hu.ne_tf, hu.flags, hu.valid, hu.leaf,
    .inl (hu.user.resolve_right (Option.some_ne_none _).symm)⟩

theorem page_congr {mem mem' : Nat → Page} (hmem : ∀ q ∈ tables mem r, mem' q = mem q) (v : Nat) :
    page mem' r v = page mem r v := by rw [page, page, lookup_congr hmem]

theorem forkRegs_ok (s : Ram A) (dst src : Nat) :
    ∃ s', (do copyTrapframe dst src; store (dst, tfA0) 0 : VmM A Unit) s = .ok () s' ∧ s'.st = s.st ∧
      ∀ q, q ≠ dst → s'.mem q = s.mem q := by
  refine ⟨_, rfl, rfl, fun q hq => ?_⟩
  exact (put_of_ne hq _ _).trans (Function.update_of_ne hq _ _)

/-- **`fork`**: the child is on new pages, and has the bytes of its parent. -/
theorem forkInto_takes (h : p.Valid trampoline s) (htra : trampoline % pgsize = 0) (htrl : trampoline < 2 ^ 64)
    (pid : Nat) : Takes (forkInto trampoline p pid) s (procCost (npages p.sz)) fun o s' => ∃ np, o = some np ∧
      np.sz = p.sz ∧ np.ofile = p.ofile ∧ Born trampoline s np s' ∧
      ∀ v < npages p.sz, s'.mem (page s'.mem np.pagetable v) = s.mem (page s.mem p.pagetable v) := by
  refine (allocproc_takes s htra htrl).bind_sub (by unfold procCost spaceCost; omega) fun o s2 ho => ?_
  obtain ⟨tf, r, s1, rfl, hf, hc⟩ := ho
  have hcost : procCost (npages p.sz) - 4 = need s2.mem r 0 (0 + npages p.sz) + 0 := by
    rw [zero_add, hc.need_eq, procCost, spaceCost]
    omega
  have hin : ∀ q ∈ A.held s.st, q ∈ A.held s1.st := fun q hq => by
    rw [hf.held]
    exact .inr hq
  have hkeep : ∀ q ∈ A.held s.st, s2.mem q = s.mem q := fun q hq => by
    rw [hc.keep q (hin q hq), hf.keep q fun he => hf.fresh (he ▸ hq)]
  have hold : Space trampoline s2 p.pagetable p.tf (npages p.sz) p.guard :=
    h.frame (fun q hq => hkeep q (h.held hq)) (fun q hq => hc.held (hin q (h.owns_held hq)))
      (hc.held (hin _ h.tf_held))
  have hownsOld : owns s2.mem p.pagetable = owns s.mem p.pagetable := owns_congr fun q hq => hkeep q (h.held hq)
  have hno : ∀ q ∈ owns s2.mem p.pagetable, q ∉ tables s2.mem r := by
    intro q hq ht
    rw [hownsOld] at hq
    have : q ∈ owns s2.mem r := .inl ht
    rw [hc.owns] at this
    exact this.2 (hin q (h.owns_held hq))
  have hcopy := copyLoop_takes (npages p.sz) s2 (p.sz / pgsize + 1) 0 (by
    change (p.sz + 4096 - 1) / 4096 ≤ p.sz / 4096 + 1
    omega) (zero_add _).symm hold (hc.space.name_guard p.guard) hno
  refine (hcopy.bind (m := 0) fun ret s3 hs3 => ?_).congr hcost.symm
  obtain ⟨rfl, hsp, hx, hdata⟩ := hs3
  rw [zero_add] at hsp
  obtain ⟨s', hrun, hst, hmem⟩ := forkRegs_ok s3 tf p.tf
  have hborn : Born trampoline s ⟨pid, r, p.sz, tf, p.ofile, p.guard⟩ s' :=
    (hc.made.builds hx.toBuilds).born hf rfl rfl hsp hst hmem
  refine .of_ok ?_ hst ⟨⟨pid, r, p.sz, tf, p.ofile, p.guard⟩, rfl, rfl, rfl, hborn, fun v hv => ?_⟩
  · exact bind_of_ok (f := fun _ => pure (some (⟨pid, r, p.sz, tf, p.ofile, p.guard⟩ : Proc))) hrun
  · have hne : page s3.mem r v ≠ tf := fun he =>
      hsp.tf_notMem (he ▸ .inr (hsp.mem_upages.mpr ⟨v, hv, rfl⟩))
    have hpage : page s'.mem r v = page s3.mem r v :=
      page_congr (fun q hq => hmem q fun he => hsp.tf_apart (he ▸ hq)) v
    rw [hpage, hmem _ hne, hdata v (Nat.zero_le v) (by omega), page_congr fun q hq => hkeep q (h.held hq)]
    exact hkeep _ (h.owns_held (.inr (h.mem_upages.mpr ⟨v, hv, rfl⟩)))

/-! ## `sbrk` -/

/-- The size after `sbrk(n)`. -/
def newSize (sz : Nat) (n : Int) : Nat :=
  if 0 < n then max sz (uint32 (sz + n)) else if n < 0 then min sz (uint32 (sz + n)) else sz

/-- The space of `p` has got the size `sz`. -/
structure Resized (trampoline : Nat) (s : Ram A) (p : Proc) (sz : Nat) (s' : Ram A) : Prop where
  valid : Proc.Valid trampoline s' { p with sz := sz }
  pages : ∀ q ∈ owns s'.mem p.pagetable, q ∈ owns s.mem p.pagetable ∨ q ∉ A.held s.st
  rest : A.held s'.st \ owns s'.mem p.pagetable = A.held s.st \ owns s.mem p.pagetable
  keep : ∀ q ∈ A.held s.st, q ∉ owns s.mem p.pagetable → s'.mem q = s.mem q
  looks : ∀ v < npages (min p.sz sz), lookup s'.mem p.pagetable v = lookup s.mem p.pagetable v
  data : ∀ v < npages (min p.sz sz), s'.mem (page s.mem p.pagetable v) = s.mem (page s.mem p.pagetable v)

theorem Proc.Valid.page_apart (h : p.Valid trampoline s) {v : Nat} (hv : v < npages p.sz) :
    page s.mem p.pagetable v ∈ A.held s.st ∧ page s.mem p.pagetable v ∉ tables s.mem p.pagetable := by
  obtain ⟨f, -, hu⟩ := Mapped.lookup_page h.toMapped hv
  exact ⟨hu.held, hu.apart⟩

theorem Extends.resized {sz : Nat} {D : Set (List (Fin 512))} (hx : Extends p.pagetable D s s')
    (h : p.Valid trampoline s) (hle : p.sz ≤ sz) (h' : Proc.Valid trampoline s' { p with sz := sz }) :
    Resized trampoline s p sz s' where
  valid := h'
  pages q hq := by
    rw [hx.owns] at hq
    exact hq.imp id fun h => h.2
  rest := by
    rw [hx.owns]
    ext q
    have h1 : q ∈ A.held s.st → q ∈ A.held s'.st := fun hq => hx.held hq
    simp only [Set.mem_union, Set.mem_sdiff]
    tauto
  keep := hx.keep
  looks v hv := by
    rw [Nat.min_eq_left hle] at hv
    obtain ⟨f, hl, -⟩ := Mapped.lookup_page h.toMapped hv
    have hfits := h.fits
    unfold tfPage at hfits
    rw [hl, hx.looks v (by omega) _ hl]
  data v hv := by
    rw [Nat.min_eq_left hle] at hv
    exact hx.data _ (h.page_apart hv).1 (h.page_apart hv).2

theorem Shrinks.owns {m : Nat} (hs : Shrinks r m n s s') (h : Space trampoline s r tf n guard)
    (h' : Space trampoline s' r tf m guard) (hle : m ≤ n) :
    Vm.owns s'.mem r = Vm.owns s.mem r \ cut s.mem r m n := by
  have htab : tables s'.mem r = tables s.mem r := by
    ext q
    exact exists_congr fun π => and_congr_right fun hπ => by rw [hs.node π hπ]
  have hpage : ∀ v < m, page s'.mem r v = page s.mem r v := fun v hv => by
    rw [page, page, hs.looks v hv]
  ext q
  rw [Vm.owns, Vm.owns, htab, Set.mem_union, Set.mem_sdiff, Set.mem_union, h.mem_upages, h'.mem_upages]
  constructor
  · rintro (hq | ⟨v, hv, rfl⟩)
    · refine ⟨.inl hq, ?_⟩
      rintro ⟨v, -, hv, rfl⟩
      exact h.tables_upages hq (h.mem_upages.mpr ⟨v, hv, rfl⟩)
    · refine ⟨.inr ⟨v, by omega, (hpage v hv).symm⟩, ?_⟩
      rintro ⟨v', h1, h2, he⟩
      rw [hpage v hv] at he
      have := h.page_inj h2 (by omega) he
      omega
  · rintro ⟨hq | ⟨v, hv, rfl⟩, hno⟩
    · exact .inl hq
    · have hvm : v < m := by
        by_contra hge
        exact hno ⟨v, Nat.le_of_not_lt hge, hv, rfl⟩
      exact .inr ⟨v, hvm, hpage v hvm⟩

theorem Shrinks.resized {sz : Nat} (hs : Shrinks p.pagetable (npages sz) (npages p.sz) s s')
    (h : p.Valid trampoline s) (hle : sz ≤ p.sz) (h' : Proc.Valid trampoline s' { p with sz := sz }) :
    Resized trampoline s p sz s' := by
  have howns := hs.owns h h' (npages_mono hle)
  have hcut : cut s.mem p.pagetable (npages sz) (npages p.sz) ⊆ Vm.owns s.mem p.pagetable := by
    rintro q ⟨v, -, hv, rfl⟩
    exact .inr ((Mapped.mem_upages h.toMapped).mpr ⟨v, hv, rfl⟩)
  refine ⟨h', fun q hq => ?_, ?_, fun q _ hno => hs.keep q fun ht => hno (.inl ht), fun v hv => ?_, fun v hv => ?_⟩
  · rw [howns] at hq
    exact .inl hq.1
  · rw [howns, hs.held]
    ext q
    simp only [Set.mem_sdiff]
    tauto
  · rw [Nat.min_eq_right hle] at hv
    exact hs.looks v hv
  · rw [Nat.min_eq_right hle] at hv
    exact hs.keep _ (h.page_apart (lt_of_lt_of_le hv (npages_mono hle))).2

theorem Proc.Valid.sz_lt (hA : A.Exact) (h : p.Valid trampoline s) : p.sz < 2 ^ 32 := by
  have := Mapped.le_memory hA h.toMapped
  change (p.sz + 4096 - 1) / 4096 ≤ 32768 at this
  omega

theorem uint32_lt (x : Int) : uint32 x < 2 ^ 32 := by
  unfold uint32
  omega

/-- **`sbrk(n)`**, for every `int n`. -/
theorem growproc_ends (hA : A.Exact) (h : p.Valid trampoline s) {n : Int} (hn : n < 2 ^ 31) :
    Ends (source A) (growproc p n) s (need s.mem p.pagetable (npages p.sz) (npages (newSize p.sz n))) fun res s' =>
      res = ({ p with sz := newSize p.sz n }, 0) ∧ Resized trampoline s p (newSize p.sz n) s' := by
  have hsz := h.sz_lt hA
  have hu : uint32 p.sz = p.sz := uint32_of_lt hsz
  unfold growproc newSize
  rw [hu]
  by_cases hpos : 0 < n
  · rw [if_pos hpos, if_pos hpos]
    have hne : max p.sz (uint32 (p.sz + n)) ≠ 0 := by
      intro h0
      obtain ⟨h1, h2⟩ := Nat.max_eq_zero_iff.mp h0
      unfold uint32 at h2
      omega
    have hlt : max p.sz (uint32 (p.sz + n)) < 2 ^ 32 := Nat.max_lt.mpr ⟨hsz, uint32_lt _⟩
    refine ((uvmalloc_takes hA (uint32 (p.sz + n)) h).bind_ends (m := 0) fun ret s' hs' => ?_).congr (add_zero _)
    obtain ⟨rfl, hsp, hx⟩ := hs'
    simp only
    rw [uint32_of_lt hlt, if_neg hne]
    exact .of_ok rfl ⟨rfl, hx.resized h (Nat.le_max_left _ _) hsp⟩
  · rw [if_neg hpos, if_neg hpos]
    by_cases hneg : n < 0
    · rw [if_pos hneg, if_pos hneg, need_self _ _ (npages_mono (Nat.min_le_left _ _))]
      obtain ⟨s', hrun, hsp, hs⟩ := uvmdealloc_ok hA (uint32 (p.sz + n)) h
      have hlt : min p.sz (uint32 (p.sz + n)) < 2 ^ 32 := lt_of_le_of_lt (Nat.min_le_left _ _) hsz
      refine .of_ok (a := ({ p with sz := uint32 (min p.sz (uint32 (p.sz + n)) : Nat) }, 0)) (bind_of_ok hrun) ⟨?_, ?_⟩
      · rw [uint32_of_lt hlt]
      · exact hs.resized h (Nat.min_le_left _ _) hsp
    · rw [if_neg hneg, if_neg hneg, need_self _ _ (le_rfl)]
      exact .of_ok rfl ⟨rfl, (Extends.refl s p.pagetable).resized h (le_rfl) h⟩

/-! ## `freeproc` -/

theorem Proc.Valid.pos (hA : A.Exact) (h : p.Valid trampoline s) : p.tf ≠ 0 ∧ p.pagetable ≠ 0 := by
  have h1 := (hA.range h.tf_held).1
  have h2 := (hA.range (h.held root_mem_nodes)).1
  change 0x80000000 ≤ p.tf at h1
  change 0x80000000 ≤ p.pagetable at h2
  omega

/-- **`freeproc`**: with a size, all pages of the process are given back; with none, only the trapframe. -/
theorem freeproc_ok (hA : A.Exact) (h : p.Valid trampoline s) :
    ∃ s', freeproc p s = .ok () s' ∧ A.held s'.st = A.held s.st \ (if 0 < p.sz then pagesOf s.mem p else {p.tf}) ∧
      ∀ q, q ∉ tables s.mem p.pagetable → s'.mem q = s.mem q := by
  obtain ⟨st, hrun, hheld⟩ := ufkfree_ok hA h.tf_held
  have hsp : Mapped trampoline ⟨s.mem, st⟩ p.pagetable p.tf (npages p.sz) p.guard := by
    refine Mapped.frame h.toMapped (fun _ _ => rfl) fun q hq => ?_
    change q ∈ A.held st
    rw [hheld]
    refine ⟨h.owns_held hq, ?_⟩
    rintro rfl
    exact h.tf_notMem hq
  obtain ⟨s', hrun', hheld', hmem⟩ := procFree_ok hA hsp
  refine ⟨s', ?_, ?_, hmem⟩
  · unfold freeproc
    rw [if_pos (h.pos hA).1, if_pos (h.pos hA).2]
    exact (bind_of_ok hrun).trans hrun'
  · rw [hheld']
    change (if 0 < p.sz then A.held st \ owns s.mem p.pagetable else A.held st) = _
    rw [hheld]
    split_ifs
    · rw [Set.sdiff_sdiff]
      rfl
    · rfl

end

end InternetOs.Vm
