import InternetOs.Proc.Image

/-!
# What `exec` does

From a process with an address space, `exec` ends in one of two ways (`ExecOut`): it fails, and nothing
that was held before has changed, or it puts a new address space in the place of the old one, which is
given back if it has a size.  It takes as many pages as the image needs (`spaceCost`), and panics if
the allocator does not have them.

    exec                                                                             (exec_ends)
    a failing exec gives back what it took, unless the headers stop it before the first page   (ExecOut.failed)
-/

namespace InternetOs.Vm

open Trie Set
open Mem (pgsize kernbase phystop)

section
variable {A : PageAlloc} {trampoline r tf n : Nat} {guard : Option Nat} {s₀ s s' s'' : Ram A}

/-! ## What a new address space costs -/

/-- The pages of a new address space of `n` user pages: three tables for the trampoline and the trapframe, the
user pages, and the other tables. -/
noncomputable def spaceCost (n : Nat) : Nat := 3 + n + (dirsIn 0 n \ topDirs).ncard

theorem Created.need_eq (h : Created trampoline s₀ r tf s) (n : Nat) :
    need s.mem r 0 n = n + (dirsIn 0 n \ topDirs).ncard := by
  rw [need, missing]
  congr 2
  ext π
  constructor
  · rintro ⟨hπ, hnone⟩
    exact ⟨hπ, ((h.absent π (dirsIn_length hπ)).mp hnone).2⟩
  · rintro ⟨hπ, hno⟩
    refine ⟨hπ, (h.absent π (dirsIn_length hπ)).mpr ⟨?_, hno⟩⟩
    rintro rfl
    obtain ⟨v, -, -, hv⟩ := hπ
    exact nil_notMem_dirs v hv

/-! ## The new address space -/

/-- The space `r` is made of pages that were not held in `s₀`, and what was held has not changed. -/
structure Made (r : Nat) (s₀ s : Ram A) : Prop where
  held : A.held s₀.st ⊆ A.held s.st
  owns : owns s.mem r = A.held s.st \ A.held s₀.st
  keep : ∀ q ∈ A.held s₀.st, s.mem q = s₀.mem q

theorem Created.made (h : Created trampoline s₀ r tf s) : Made r s₀ s := ⟨h.held, h.owns, h.keep⟩

theorem Made.builds {D : Set (List (Fin 512))} (h : Made r s₀ s) (hb : Builds r D s s') : Made r s₀ s' where
  held := h.held.trans hb.held
  owns := by
    rw [hb.owns, h.owns]
    ext q
    have h1 : q ∈ A.held s₀.st → q ∈ A.held s.st := fun hq => h.held hq
    have h2 : q ∈ A.held s.st → q ∈ A.held s'.st := fun hq => hb.held hq
    simp only [mem_union, mem_sdiff]
    tauto
  keep q hq := by
    rw [hb.keep q (h.held hq) (by rw [h.owns]; exact fun ho => ho.2 hq), h.keep q hq]

/-- The new space torn down again: what was held before is held, and if its size was not 0 nothing else is. -/
theorem Made.free (hA : A.Exact) (h : Made r s₀ s) {sz : Nat} (hsp : Space trampoline s r tf (npages sz) guard) :
    ∃ s', procFreepagetable r sz s = .ok () s' ∧
      A.held s'.st = (if 0 < sz then A.held s₀.st else A.held s.st) ∧ ∀ q ∈ A.held s₀.st, s'.mem q = s₀.mem q := by
  obtain ⟨s', hrun, hheld, hmem⟩ := procFree_ok hA hsp.toMapped
  refine ⟨s', hrun, ?_, fun q hq => ?_⟩
  · rw [hheld, h.owns]
    split_ifs
    · rw [sdiff_sdiff_right_self]
      exact inter_eq_self_of_subset_right h.held
    · rfl
  · have hqt : q ∉ tables s.mem r := fun ht => by
      have : q ∈ Vm.owns s.mem r := .inl ht
      rw [h.owns] at this
      exact this.2 hq
    rw [hmem q hqt, h.keep q hq]

/-! ## The two ends of `exec` -/

/-- How `exec` by `p` ends, from the state `s`; `clean` says whether a failure gives everything back. -/
inductive ExecOut (trampoline : Nat) (clean : Prop) (s : Ram A) (p : Proc) : Proc × Int → Ram A → Prop
  | failed {s' : Ram A} (held : A.held s.st ⊆ A.held s'.st) (keep : ∀ q ∈ A.held s.st, s'.mem q = s.mem q)
      (given : A.held s'.st = A.held s.st ↔ clean) : ExecOut trampoline clean s p (p, -1) s'
  | done {s' : Ram A} {r sz argc : Nat} (loads : clean)
      (space : Space trampoline s' r p.tf (npages sz) (some (sz / pgsize - 2)))
      (fresh : ∀ q ∈ owns s'.mem r, q ∉ A.held s.st)
      (held : A.held s'.st = (if 0 < p.sz then A.held s.st \ owns s.mem p.pagetable else A.held s.st) ∪ owns s'.mem r)
      (keep : ∀ q ∈ A.held s.st, q ∉ tables s.mem p.pagetable → q ≠ p.tf → s'.mem q = s.mem q) :
      ExecOut trampoline clean s p
        ({ p with pagetable := r, sz := sz, guard := some (sz / pgsize - 2) }, (argc : Int)) s'

variable {p : Proc} {clean : Prop}

theorem Made.bad_ok (hA : A.Exact) (h : Made r s₀ s) {sz : Nat} (hsp : Space trampoline s r tf (npages sz) guard)
    (hclean : clean ↔ 0 < sz) : ∃ res s',
      (do procFreepagetable r sz; return (p, -1) : VmM A (Proc × Int)) s = .ok res s' ∧
      ExecOut trampoline clean s₀ p res s' := by
  obtain ⟨s', hrun, hheld, hkeep⟩ := h.free hA hsp
  refine ⟨(p, -1), s', bind_of_ok hrun, .failed ?_ hkeep ?_⟩
  · rw [hheld]
    split_ifs
    · exact Subset.rfl
    · exact h.held
  · rw [hclean, hheld]
    split_ifs with hsz
    · exact iff_of_true rfl hsz
    · -- the root of the new table is held and was not
      refine iff_of_false (fun he => ?_) hsz
      have hr : r ∈ Vm.owns s.mem r := .inl root_mem_nodes
      rw [h.owns, he] at hr
      exact hr.2 hr.1

/-- The registers that `exec` sets. -/
def setRegs (tf sp entry : Nat) : VmM A Unit := do
  store (tf, tfA1) sp
  store (tf, tfEpc) entry
  store (tf, tfSp) sp

theorem setRegs_ok (s : Ram A) (tf sp entry : Nat) :
    ∃ s', setRegs tf sp entry s = .ok () s' ∧ s'.st = s.st ∧ ∀ q, q ≠ tf → s'.mem q = s.mem q := by
  refine ⟨_, rfl, rfl, fun q hq => ?_⟩
  exact (put_of_ne hq _ _).trans ((put_of_ne hq _ _).trans (put_of_ne hq _ _))

/-- The commit of `exec`: the registers are set and the old space goes. -/
theorem Made.commit_ok (hA : A.Exact) (h : Made r s₀ s)
    (hold : Space trampoline s₀ p.pagetable p.tf (npages p.sz) p.guard) {sz : Nat}
    (hsp : Space trampoline s r p.tf (npages sz) (some (sz / pgsize - 2))) (hclean : clean) (sp entry argc : Nat) :
    ∃ res s', (do
        setRegs p.tf sp entry
        procFreepagetable p.pagetable p.sz
        return ({ p with pagetable := r, sz := sz, guard := some (sz / pgsize - 2) }, (argc : Int)) :
          VmM A (Proc × Int)) s = .ok res s' ∧ ExecOut trampoline clean s₀ p res s' := by
  obtain ⟨s1, hrun1, hst1, hmem1⟩ := setRegs_ok s p.tf sp entry
  have hfresh : ∀ q ∈ Vm.owns s.mem r, q ∉ A.held s₀.st := fun q hq => by
    rw [h.owns] at hq
    exact hq.2
  -- both spaces are as they were when the registers are set
  have hnew1 : ∀ q ∈ tables s.mem r, s1.mem q = s.mem q := fun q hq =>
    hmem1 q fun he => hsp.tf_apart (he ▸ hq)
  have hold1 : ∀ q ∈ tables s₀.mem p.pagetable, s1.mem q = s₀.mem q := fun q hq => by
    rw [hmem1 q fun he => hold.tf_apart (he ▸ hq), h.keep q (hold.held hq)]
  have hspOld : Space trampoline s1 p.pagetable p.tf (npages p.sz) p.guard := by
    refine hold.frame hold1 (fun q hq => ?_) ?_
    · rw [hst1]
      exact h.held (hold.owns_held hq)
    · rw [hst1]
      exact h.held hold.tf_held
  obtain ⟨s', hrun, hheld, hmem⟩ := procFree_ok hA hspOld.toMapped
  have hownsOld : Vm.owns s1.mem p.pagetable = Vm.owns s₀.mem p.pagetable := owns_congr hold1
  have htabOld : tables s1.mem p.pagetable = tables s₀.mem p.pagetable := nodes_congr hold1
  rw [hownsOld, hst1] at hheld
  rw [htabOld] at hmem
  have hnew : ∀ q ∈ tables s.mem r, s'.mem q = s.mem q := fun q hq => by
    rw [hmem q fun ht => hfresh q (.inl hq) (hold.held ht), hnew1 q hq]
  have hownsNew : Vm.owns s'.mem r = Vm.owns s.mem r := owns_congr hnew
  have hin : ∀ q ∈ A.held s.st, q ∉ Vm.owns s₀.mem p.pagetable → q ∈ A.held s'.st := by
    intro q hq hno
    rw [hheld]
    split_ifs
    · exact ⟨hq, hno⟩
    · exact hq
  refine ⟨_, s', (bind_of_ok hrun1).trans (bind_of_ok hrun), .done hclean ?_ ?_ ?_ ?_⟩
  · refine hsp.frame hnew (fun q hq => ?_) ?_
    · exact hin q (hsp.owns_held hq) fun ho => hfresh q hq (hold.owns_held ho)
    · exact hin p.tf hsp.tf_held hold.tf_notMem
  · rw [hownsNew]
    exact hfresh
  · rw [hheld, hownsNew, h.owns]
    ext q
    have h1 : q ∈ A.held s₀.st → q ∈ A.held s.st := fun hq => h.held hq
    have h2 : q ∈ Vm.owns s₀.mem p.pagetable → q ∈ A.held s₀.st := fun hq => hold.owns_held hq
    split_ifs
    · simp only [mem_union, mem_sdiff]
      tauto
    · simp only [mem_union, mem_sdiff]
      tauto
  · intro q hq hqt hqf
    rw [hmem q hqt, hmem1 q hqf, h.keep q hq]

theorem Made.stack_ok (hA : A.Exact) (h : Made r s₀ s)
    (hold : Space trampoline s₀ p.pagetable p.tf (npages p.sz) p.guard) {N sz : Nat}
    (hsz : sz = N * pgsize + 2 * pgsize)
    (hsp : Space trampoline s r p.tf (N + 2) none) (hclean : clean) (entry : Nat) (argv : List (List UInt8)) :
    ∃ res s', (do
        uvmclear r (sz - 2 * pgsize)
        match ← pushStack r (sz - pgsize) sz argv with
        | none => do procFreepagetable r sz; return (p, -1)
        | some (sp, argc) =>
          setRegs p.tf sp entry
          procFreepagetable p.pagetable p.sz
          return ({ p with pagetable := r, sz := sz, guard := some (sz / pgsize - 2) }, (argc : Int)) :
            VmM A (Proc × Int)) s = .ok res s' ∧ ExecOut trampoline clean s₀ p res s' := by
  have hpages : npages sz = N + 2 := by
    rw [hsz]
    change (N * 4096 + 2 * 4096 + 4096 - 1) / 4096 = N + 2
    omega
  have hguard : sz / pgsize - 2 = N := by
    rw [hsz]
    change (N * 4096 + 2 * 4096) / 4096 - 2 = N
    omega
  obtain ⟨mem, hrun, hc⟩ := hsp.uvmclear_ok (show N < N + 2 by omega)
  have hsp1 := hsp.clear (by omega) hc
  obtain ⟨o, s2, hrun2, ht⟩ := pushStack_ok hsp1 (sz - pgsize) sz argv
  have hsp2 := hsp1.touch ht
  have h2 := (h.builds hc.builds).builds (hsp1.touch_builds ht)
  rw [show sz - 2 * pgsize = N * pgsize by omega, bind_of_ok hrun, bind_of_ok hrun2]
  rw [← hpages] at hsp2
  cases o with
  | none =>
    have hpos : 0 < sz := by
      rw [hsz]
      exact lt_of_lt_of_le (by decide) (Nat.le_add_left _ _)
    exact h2.bad_ok hA hsp2 (iff_of_true hclean hpos)
  | some e =>
    rw [← hguard] at hsp2
    exact h2.commit_ok hA hold hsp2 hclean e.1 entry e.2

/-- The pages of the image when the headers end with `out`: two more for the stack if they are all right. -/
def imagePages (out : Nat × Bool) : Nat := if out.2 then npages out.1 + 2 else npages out.1

/-- The outcome of the headers of `file`. -/
def scanned (file : List UInt8) (elf : Elfhdr) : Nat × Bool := scan file elf.phnum (uint32 elf.phoff) 0

/-- The part of `exec` after the headers. -/
def execLoaded (p : Proc) (r : Nat) (elf : Elfhdr) (argv : List (List UInt8)) (out : Nat × Bool) :
    VmM A (Proc × Int) := do
  if !out.2 then
    procFreepagetable r out.1
    return (p, -1)
  else
    let sz ← uvmalloc r (pgroundup out.1) (wrap (pgroundup out.1 + 2 * pgsize))
    if sz = 0 then
      procFreepagetable r sz
      return (p, -1)
    else
      uvmclear r (sz - 2 * pgsize)
      match ← pushStack r (sz - pgsize) sz argv with
      | none =>
        procFreepagetable r sz
        return (p, -1)
      | some (sp, argc) =>
        setRegs p.tf sp elf.entry
        procFreepagetable p.pagetable p.sz
        return ({ p with pagetable := r, sz := sz, guard := some (sz / pgsize - 2) }, (argc : Int))

theorem execImage_eq (p : Proc) (r : Nat) (file : List UInt8) (elf : Elfhdr) (argv : List (List UInt8)) :
    (execImage p r file elf argv : VmM A (Proc × Int)) =
      loadLoop r file elf.phnum (uint32 elf.phoff) 0 >>= execLoaded p r elf argv := rfl

theorem Made.execLoaded_ends (hA : A.Exact) (h : Made r s₀ s)
    (hold : Space trampoline s₀ p.pagetable p.tf (npages p.sz) p.guard) {out : Nat × Bool}
    (hsp : Space trampoline s r p.tf (npages out.1) none) (elf : Elfhdr) (argv : List (List UInt8)) :
    Ends (source A) (execLoaded p r elf argv out) s (need s.mem r (npages out.1) (imagePages out))
      (ExecOut trampoline (out ≠ (0, false)) s₀ p) := by
  obtain ⟨sz, b⟩ := out
  cases b with
  | false =>
    have hclean : (sz, false) ≠ (0, false) ↔ 0 < sz := by
      rw [Ne, Prod.mk.injEq, and_iff_left rfl]
      exact Nat.pos_iff_ne_zero.symm
    obtain ⟨res, s', hrun, hout⟩ := h.bad_ok hA hsp hclean
    refine (Ends.of_ok hrun hout).congr ?_
    exact (need_self _ _ (le_rfl)).symm
  | true =>
    have hmax : npages sz ≤ 32768 := hsp.le_memory hA
    have hround : npages (npages sz * pgsize) = npages sz := by
      change (npages sz * 4096 + 4096 - 1) / 4096 = npages sz
      omega
    have hwrap : wrap (npages sz * pgsize + 2 * pgsize) = npages sz * pgsize + 2 * pgsize := by
      refine wrap_of_lt ?_
      change npages sz * 4096 + 2 * 4096 < 2 ^ 64
      omega
    have hpages : npages (npages sz * pgsize + 2 * pgsize) = npages sz + 2 := by
      change (npages sz * 4096 + 2 * 4096 + 4096 - 1) / 4096 = npages sz + 2
      omega
    have hspr : Space trampoline s r p.tf (npages (npages sz * pgsize)) none := by rwa [hround]
    have halloc := uvmalloc_takes hA (npages sz * pgsize + 2 * pgsize) hspr
    rw [Nat.max_eq_right (Nat.le_add_right _ _), hround, hpages] at halloc
    unfold execLoaded
    rw [pgroundup_eq hmax, hwrap]
    refine (halloc.bind_ends (m := 0) fun ret s1 hs1 => ?_).congr (add_zero _)
    obtain ⟨rfl, hsp1, hx⟩ := hs1
    have hne : npages sz * pgsize + 2 * pgsize ≠ 0 :=
      ne_of_gt (lt_of_lt_of_le (by decide) (Nat.le_add_left _ _))
    rw [if_neg hne]
    obtain ⟨res, s', hrun, hout⟩ := (h.builds hx.toBuilds).stack_ok hA hold rfl hsp1
      (show (sz, true) ≠ (0, false) from fun he => Bool.noConfusion (Prod.mk.inj he).2) elf.entry argv
    exact .of_ok hrun hout

theorem le_imagePages (out : Nat × Bool) : npages out.1 ≤ imagePages out := by
  unfold imagePages
  split_ifs
  · exact Nat.le_add_right _ 2
  · exact le_rfl

theorem Created.execImage_ends (hA : A.Exact) (h : Created trampoline s₀ r p.tf s)
    (hold : Space trampoline s₀ p.pagetable p.tf (npages p.sz) p.guard) (file : List UInt8) (elf : Elfhdr)
    (argv : List (List UInt8)) :
    Ends (source A) (execImage p r file elf argv) s (need s.mem r 0 (imagePages (scanned file elf)))
      (ExecOut trampoline (scanned file elf ≠ (0, false)) s₀ p) := by
  rw [execImage_eq]
  have hle := le_imagePages (scanned file elf)
  refine (loadLoop_takes hA file elf.phnum s (uint32 elf.phoff) 0 h.space).bind_sub_ends
    (need_mono _ _ _ hle) fun res s1 hs1 => ?_
  obtain ⟨rfl, hsp, hb⟩ := hs1
  have htotal := hb.need_add (Nat.zero_le _) hle
  exact ((h.made.builds hb).execLoaded_ends hA hold hsp elf argv).congr (Nat.eq_sub_of_add_eq' htotal)

/-! ## The whole of `exec` -/

/-- The file and its header, if `exec` gets as far as making a page table for it. -/
def execHeader (file : Option (List UInt8)) : Option (List UInt8 × Elfhdr) :=
  file.bind fun file => (readi file 0 sizeofElfhdr).bind fun bytes =>
    if bytes.length = sizeofElfhdr ∧ (Elfhdr.parse bytes).magic = elfMagic then some (file, Elfhdr.parse bytes)
    else none

/-- The pages that `exec` of `file` takes. -/
noncomputable def execCost (file : Option (List UInt8)) : Nat :=
  match execHeader file with
  | none => 0
  | some (file, elf) => spaceCost (imagePages (scanned file elf))

/-- No header stops `exec` before the first segment: the first one to load is no longer in the file than in
memory, does not overflow, and ends above 0. -/
def firstLoads (file : List UInt8) : Nat → Nat → Bool
  | 0, _ => true
  | n + 1, off =>
    match readProghdr file off with
    | none => false
    | some ph =>
      if ph.type ≠ elfProgLoad then firstLoads file n (uint32 (off + sizeofProghdr))
      else decide (ph.filesz ≤ ph.memsz ∧ ph.vaddr + ph.memsz < 2 ^ 64 ∧ 0 < ph.vaddr + ph.memsz)

/-- The files for which a failing `exec` gives back what it took. -/
def execClean (file : Option (List UInt8)) : Bool :=
  match execHeader file with
  | none => true
  | some (file, elf) => firstLoads file elf.phnum (uint32 elf.phoff)

/-- The loop over the headers leaves no pages behind exactly if it stops before the first segment. -/
theorem scan_ne_iff (file : List UInt8) (k off : Nat) :
    scan file k off 0 ≠ (0, false) ↔ firstLoads file k off = true := by
  induction k generalizing off with
  | zero => exact iff_of_true (fun h => Bool.noConfusion (Prod.mk.inj h).2) rfl
  | succ k ih =>
    unfold scan firstLoads
    cases hph : readProghdr file off with
    | none => exact iff_of_false (fun h => h rfl) Bool.false_ne_true
    | some ph =>
      have hm := readProghdr_memsz hph
      simp only
      by_cases htype : ph.type ≠ elfProgLoad
      · rw [if_pos htype, if_pos htype]
        exact ih _
      · rw [if_neg htype, if_neg htype, decide_eq_true_iff]
        by_cases hfile : ph.memsz < ph.filesz
        · rw [if_pos hfile]
          exact iff_of_false (fun h => h rfl) fun h => by omega
        · rw [if_neg hfile]
          by_cases hwrap : wrap (ph.vaddr + ph.memsz) < ph.vaddr
          · rw [if_pos hwrap]
            unfold wrap at hwrap
            exact iff_of_false (fun h => h rfl) fun h => by omega
          · rw [if_neg hwrap, Nat.zero_max]
            have hw : wrap (ph.vaddr + ph.memsz) = ph.vaddr + ph.memsz := by
              unfold wrap at hwrap ⊢
              omega
            have hlt : ph.vaddr + ph.memsz < 2 ^ 64 := by
              unfold wrap at hw
              omega
            rw [hw]
            by_cases hz : ph.vaddr + ph.memsz = 0
            · rw [hz]
              exact iff_of_false (fun h => h rfl) fun h => by omega
            · -- a segment that ends above 0 leaves a size
              refine iff_of_true (fun h => ?_) ⟨by omega, hlt, by omega⟩
              split_ifs at h
              · exact hz (Prod.mk.inj h).1
              · have := le_scan file k (uint32 (off + sizeofProghdr)) (ph.vaddr + ph.memsz)
                rw [h] at this
                omega
              · exact hz (Prod.mk.inj h).1

theorem ExecOut.congr {clean' : Prop} {res : Proc × Int} (h : ExecOut trampoline clean s p res s')
    (hc : clean ↔ clean') : ExecOut trampoline clean' s p res s' := by
  cases h with
  | failed held keep given => exact .failed held keep (given.trans hc)
  | done loads space fresh held keep => exact .done (hc.mp loads) space fresh held keep

theorem exec_ends (hA : A.Exact) (htra : trampoline % pgsize = 0) (htrl : trampoline < 2 ^ 64)
    (hold : Space trampoline s p.pagetable p.tf (npages p.sz) p.guard) (file : Option (List UInt8))
    (argv : List (List UInt8)) : Ends (source A) (exec trampoline p file argv) s (execCost file)
      (ExecOut trampoline (execClean file = true) s p) := by
  have hno : execHeader file = none → Ends (source A) (pure (p, -1) : VmM A (Proc × Int)) s (execCost file)
      (ExecOut trampoline (execClean file = true) s p) := by
    intro he
    unfold execCost execClean
    rw [he]
    exact .of_ok rfl (.failed Subset.rfl (fun _ _ => rfl) (iff_of_true rfl rfl))
  unfold exec
  cases file with
  | none => exact hno rfl
  | some file =>
    simp only
    cases hread : readi file 0 sizeofElfhdr with
    | none =>
      refine hno ?_
      rw [execHeader, Option.bind_some, hread, Option.bind_none]
    | some bytes =>
      have hhead : execHeader (some file) = if bytes.length = sizeofElfhdr ∧ (Elfhdr.parse bytes).magic = elfMagic
          then some (file, Elfhdr.parse bytes) else none := by
        rw [execHeader, Option.bind_some, hread, Option.bind_some]
      simp only
      split_ifs with hlen hmagic
      · exact hno (by rw [hhead, if_neg fun h => hlen h.1])
      · exact hno (by rw [hhead, if_neg fun h => hmagic h.2])
      · rw [not_not] at hlen hmagic
        rw [if_pos ⟨hlen, hmagic⟩] at hhead
        unfold execCost execClean
        rw [hhead]
        obtain ⟨-, htfl, htfa⟩ := hA.range hold.tf_held
        have htfl' : p.tf < 2 ^ 64 := by
          change p.tf + 4096 ≤ 0x80000000 + 128 * 1024 * 1024 at htfl
          omega
        refine (procPagetable_takes s hold.tf_held htfa htfl' htra htrl).bind_sub_ends ?_ fun r s1 hc => ?_
        · exact le_trans (Nat.le_add_right 3 _) (Nat.le_add_right _ _)
        · rw [if_neg (Nat.pos_iff_ne_zero.mp hc.pos)]
          refine ((hc.execImage_ends hA hold file (Elfhdr.parse bytes) argv).mono fun res s' h => ?_).congr ?_
          · exact h.congr (scan_ne_iff _ _ _)
          · rw [hc.need_eq]
            change _ = spaceCost (imagePages (scanned file (Elfhdr.parse bytes))) - 3
            unfold spaceCost
            omega

/-! ## The pages for the arguments -/

/-- How many pages `fetchArgs` takes, and the strings it finds. -/
def Uargv.fetch : Uargv → Nat → Nat × Option (List (List UInt8))
  | _, 0 => (0, none)
  | .noAddr, _ + 1 => (0, none)
  | .null, _ + 1 => (0, some [])
  | .noStr _, _ + 1 => (1, none)
  | .arg str rest, n + 1 => (1 + (rest.fetch n).1, (rest.fetch n).2.map (str :: ·))

/-- The file that is to be executed, if all arguments can be fetched and are not too many. -/
def Uargv.opens (argv : Uargv) (file : Option (List UInt8)) : Option (List UInt8) :=
  (argv.fetch maxArg).2.bind fun _ => file

/-- The pages `ps` have been taken, and what was held has not changed. -/
structure Taken (ps : List Nat) (s s' : Ram A) : Prop where
  nodup : ps.Nodup
  fresh : ∀ q ∈ ps, q ∉ A.held s.st
  held : A.held s'.st = A.held s.st ∪ {q | q ∈ ps}
  keep : ∀ q ∈ A.held s.st, s'.mem q = s.mem q

theorem Taken.nil (s : Ram A) : Taken [] s s := ⟨List.nodup_nil, by simp, by simp, fun _ _ => rfl⟩

theorem Taken.cons {q : Nat} {w : Page} {ps : List Nat} (hq : Fresh q s s')
    (h : Taken ps { s' with mem := Function.update s'.mem q w } s'') : Taken (q :: ps) s s'' := by
  have hheld : A.held s'.st = insert q (A.held s.st) := hq.held
  refine ⟨List.nodup_cons.mpr ⟨fun hm => h.fresh q hm ?_, h.nodup⟩, ?_, ?_, fun x hx => ?_⟩
  · rw [hheld]
    exact .inl rfl
  · refine List.forall_mem_cons.mpr ⟨hq.fresh, fun x hx hin => h.fresh x hx ?_⟩
    rw [hheld]
    exact .inr hin
  · rw [h.held, hheld]
    ext x
    simp only [mem_union, mem_insert_iff, mem_ofPred_eq, List.mem_cons]
    tauto
  · have hne : x ≠ q := fun he => hq.fresh (he ▸ hx)
    rw [h.keep x (by rw [hheld]; exact .inr hx)]
    exact (Function.update_of_ne hne _ _).trans (hq.keep x hne)

theorem fetchArgs_takes (n : Nat) (argv : Uargv) (s : Ram A) : Takes (fetchArgs n argv) s (argv.fetch n).1
    fun r s' => r.2 = (argv.fetch n).2 ∧ Taken r.1 s s' := by
  induction n generalizing argv s with
  | zero => cases argv <;> exact .pure ⟨rfl, .nil s⟩
  | succ n ih =>
    cases argv with
    | noAddr => exact .pure ⟨rfl, .nil s⟩
    | null => exact .pure ⟨rfl, .nil s⟩
    | noStr bytes =>
      refine (ufkalloc_takes s).bind (m := 0) fun q s1 hq => ?_
      rw [if_neg (Nat.pos_iff_ne_zero.mp hq.pos)]
      exact .of_ok rfl rfl ⟨rfl, .cons hq (.nil _)⟩
    | arg str rest =>
      refine (ufkalloc_takes s).bind fun q s1 hq => ?_
      rw [if_neg (Nat.pos_iff_ne_zero.mp hq.pos)]
      refine Draws.bind_ok rfl ((ih rest _).bind (m := 0) fun r s2 hr => ?_) rfl
      exact .pure ⟨by rw [hr.1]; rfl, .cons hq hr.2⟩

theorem freePages_run {ps : List Nat} {st : A.St} (h : freeAll A ps s.st = some st) :
    ps.forM ufkfree s = .ok () ⟨s.mem, st⟩ := by
  induction ps generalizing s with
  | nil =>
    cases h
    rfl
  | cons q ps ih =>
    obtain ⟨st1, h1, h2⟩ := freeAll_cons h
    have hrun : ufkfree q s = .ok () ⟨s.mem, st1⟩ := by rw [ufkfree, h1]
    exact (bind_of_ok hrun).trans (ih (s := ⟨s.mem, st1⟩) h2)

/-- The pages for the arguments are given back after `exec`, which has left them alone. -/
theorem ExecOut.giveBack (hA : A.Exact) {ps : List Nat} {res : Proc × Int} (ht : Taken ps s₀ s)
    (hold : Space trampoline s₀ p.pagetable p.tf (npages p.sz) p.guard) (ho : ExecOut trampoline clean s p res s') :
    ∃ s'', ps.forM ufkfree s' = .ok () s'' ∧ ExecOut trampoline clean s₀ p res s'' := by
  have hsub : ∀ q ∈ A.held s₀.st, q ∈ A.held s.st := fun q hq => by
    rw [ht.held]
    exact .inl hq
  have hps : ∀ q ∈ ps, q ∈ A.held s.st := fun q hq => by
    rw [ht.held]
    exact .inr hq
  have howns : owns s.mem p.pagetable = owns s₀.mem p.pagetable := owns_congr fun q hq => ht.keep q (hold.held hq)
  have htab : tables s.mem p.pagetable = tables s₀.mem p.pagetable := nodes_congr fun q hq => ht.keep q (hold.held hq)
  cases ho with
  | failed held keep given =>
    obtain ⟨st, hfree, hheld⟩ := hA.freeAll ht.nodup fun q hq => held (hps q hq)
    refine ⟨_, freePages_run hfree, .failed (fun q hq => ?_) (fun q hq => (keep q (hsub q hq)).trans (ht.keep q hq)) ?_⟩
    · rw [hheld]
      exact ⟨held (hsub q hq), fun hin => ht.fresh q hin hq⟩
    · rw [← given, hheld, ht.held]
      constructor
      · intro he
        refine Subset.antisymm (fun q hq => ?_) (by rw [← ht.held]; exact held)
        by_cases hin : q ∈ ps
        · exact .inr hin
        · exact .inl (he ▸ (⟨hq, hin⟩ : q ∈ A.held s'.st \ {q | q ∈ ps}))
      · intro he
        rw [he]
        ext q
        have := ht.fresh q
        simp only [mem_sdiff, mem_union, mem_ofPred_eq]
        tauto
  | done loads space fresh held keep =>
    rw [howns] at held
    rw [htab] at keep
    have hin : ∀ q ∈ ps, q ∈ A.held s'.st := fun q hq => by
      rw [held]
      refine .inl ?_
      split_ifs
      · exact ⟨hps q hq, fun ho => ht.fresh q hq (hold.owns_held ho)⟩
      · exact hps q hq
    obtain ⟨st, hfree, hheld⟩ := hA.freeAll ht.nodup hin
    refine ⟨_, freePages_run hfree, .done loads (space.frame (fun _ _ => rfl) (fun q hq => ?_) ?_)
      (fun q hq hin => ?_) ?_
      fun q hq hno hne => (keep q (hsub q hq) hno hne).trans (ht.keep q hq)⟩
    · rw [hheld]
      exact ⟨space.owns_held hq, fun hin => fresh q hq (hps q hin)⟩
    · rw [hheld]
      exact ⟨space.tf_held, fun hin => ht.fresh _ hin hold.tf_held⟩
    · exact fresh q hq (hsub q hin)
    · rw [hheld, held, ht.held]
      ext q
      have h1 := ht.fresh q
      have h2 := fun hq => hps q hq
      have h3 := fresh q
      split_ifs
      · simp only [mem_sdiff, mem_union, mem_ofPred_eq]
        tauto
      · simp only [mem_sdiff, mem_union, mem_ofPred_eq]
        tauto

/-- The pages that `exec` with `argv` takes: one for each argument, and those of the image. -/
noncomputable def Uargv.cost (argv : Uargv) (file : Option (List UInt8)) : Nat :=
  (argv.fetch maxArg).1 + execCost (argv.opens file)

theorem execArgs_ends (hA : A.Exact) (htra : trampoline % pgsize = 0) (htrl : trampoline < 2 ^ 64)
    (hold : Space trampoline s p.pagetable p.tf (npages p.sz) p.guard) (file : Option (List UInt8)) (argv : Uargv) :
    Ends (source A) (execArgs trampoline p file argv) s (argv.cost file)
      (ExecOut trampoline (execClean (argv.opens file) = true) s p) := by
  refine (fetchArgs_takes maxArg argv s).bind_ends fun r s1 hr => ?_
  obtain ⟨hargs, ht⟩ := hr
  have hold1 : Space trampoline s1 p.pagetable p.tf (npages p.sz) p.guard := by
    have hin : ∀ q ∈ A.held s.st, q ∈ A.held s1.st := fun q hq => by
      rw [ht.held]
      exact .inl hq
    exact hold.frame (fun q hq => ht.keep q (hold.held hq)) (fun q hq => hin q (hold.owns_held hq)) (hin _ hold.tf_held)
  have hexec : Ends (source A) (r.2.elim (pure (p, -1)) (exec trampoline p file)) s1
      (execCost (argv.opens file)) (ExecOut trampoline (execClean (argv.opens file) = true) s1 p) := by
    rw [hargs, Uargv.opens]
    cases (argv.fetch maxArg).2 with
    | none => exact .of_ok rfl (.failed Subset.rfl (fun _ _ => rfl) (iff_of_true rfl rfl))
    | some args => exact exec_ends hA htra htrl hold1 file args
  refine Ends.bind_last hexec fun res s2 ho => ?_
  obtain ⟨s3, hrun, ho'⟩ := ho.giveBack hA ht hold
  exact ⟨res, s3, bind_of_ok hrun, ho'⟩

end

end InternetOs.Vm
