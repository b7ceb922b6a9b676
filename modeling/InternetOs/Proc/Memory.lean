import InternetOs.Mem.Kpages
import InternetOs.Proc.Machine

/-!
# What holds of the memory of processes

Whole runs of the machine, on the kernel's own allocator.

    address spaces are as large as `p->sz` says, and share no page                    (userSpaces)
    what a process leaves behind when it is torn down, and what a failing `exec` leaves   (freedMemory)
    calls when memory runs out                                                      (outOfMemory)
-/

namespace InternetOs.Vm

open Trie Function Machine Set
open Mem (pgsize kernbase phystop kpages kpages_exact Layout Kalloc tightLayout)

section
variable {l : Layout} {junk : Nat → Page} {trampoline : Nat} {m₀ m m' : Machine (kpages l junk)} {p p' : Proc}
  {i : Fin nproc} {calls : List Call}

theorem Machine.Inv.boot (h0 : ∀ i, m₀.proc i = none) : m₀.Inv trampoline := by
  refine ⟨fun i p hi => ?_, fun i j p q _ hi => ?_⟩
  · rw [h0 i] at hi
    cases hi
  · rw [h0 i] at hi
    cases hi

theorem Machine.Inv.reached (htra : trampoline % pgsize = 0) (htrl : trampoline < 2 ^ 64)
    (h0 : ∀ i, m₀.proc i = none) (hrun : Run (Step trampoline) m₀ calls m) : m.Inv trampoline := by
  refine hrun.inv (I := Inv trampoline) (fun m c m' h hs => ?_) (.boot h0)
  obtain ⟨ret, hcall⟩ := hs
  exact ((h.call_ends (kpages_exact l junk) htra htrl c).post hcall).2

end

/-- The calls that lose nothing: a process that dies has a size, and so does one that calls `exec`, with a file
whose headers do not stop it before the first segment. -/
def Machine.Keeps {A : PageAlloc} (m : Machine A) : Call → Prop
  | .reap i => ∀ p, m.proc i = some p → 0 < p.sz
  | .exec i file argv => ∀ p, m.proc i = some p → 0 < p.sz ∧ execClean (argv.opens file) = true
  | _ => True

/-! ## A machine that has just booted -/

/-- The machine after `ufkinit`, with no process yet. -/
def bootMachine (l : Layout) (junk : Nat → Page) (h : Mem.Heap) (hp : Kalloc.Paged l ⟨h, []⟩) :
    Machine (kpages l junk) := ⟨⟨fun _ _ => 0, ⟨⟨h, []⟩, hp⟩⟩, fun _ => none, 1⟩

/-- Where the trampoline is, in the examples. -/
def someTrampoline : Nat := kernbase + 2 * pgsize

theorem procCost_one : procCost 1 ≤ 7 := by
  have hfin : (dirs 0).Finite := toFinite {_, _}
  have htwo : (dirs 0).ncard ≤ 2 := (ncard_insert_le _ _).trans (by rw [ncard_singleton])
  have hdirs : (dirsIn 0 1 \ topDirs).ncard ≤ 2 := by
    rw [dirsIn_succ_self]
    exact (ncard_le_ncard sdiff_subset hfin).trans htwo
  unfold procCost spaceCost
  omega

/-- The first two entries of the process table. -/
def initproc : Fin nproc := ⟨0, by decide⟩

def secondproc : Fin nproc := ⟨1, by decide⟩

/-- The first process, with memory for another and some more pages. -/
theorem first_process : ∃ h hp, tightLayout.ufkinit (fun _ => ⟨0, 0⟩) = some h ∧ ∃ m p,
    Run (guard Keeps (Step someTrampoline)) (bootMachine tightLayout (fun _ _ => 0) h hp) [.userinit] m ∧
    Run (Step someTrampoline) (bootMachine tightLayout (fun _ _ => 0) h hp) [.userinit] m ∧
    m.Inv someTrampoline ∧ m.proc initproc = some p ∧ unused m.proc = some secondproc ∧ p.sz = pgsize ∧
    (machineSource (kpages tightLayout fun _ _ => 0)).Lasts 9 m := by
  obtain ⟨h, hinit, hp⟩ := Mem.kpages_start tightLayout fun _ => ⟨0, 0⟩
  have hsome : ((tightLayout.ufkinit fun _ => ⟨0, 0⟩).bind
      (drawn (fun h => (tightLayout.ufkalloc pgsize h).map Prod.snd) 16)).isSome = true := by decide +kernel
  rw [hinit, Option.bind_some] at hsome
  have hlasts : (machineSource (kpages tightLayout fun _ _ => 0)).Lasts 16
      (bootMachine tightLayout (fun _ _ => 0) h hp) := (Mem.kpages_drawn _ _ 16 _).trans hsome
  have hfree : unused (bootMachine tightLayout (fun _ _ => 0) h hp).proc = some initproc := rfl
  have hcost := procCost_one
  obtain ⟨ret, m, hcall, hleft, np, ⟨hsz, -⟩, -, hm⟩ :=
    (spawn_draws hfree fun pid =>
      userinit_takes _ (show someTrampoline % pgsize = 0 by decide) (by decide) pid).lasts
      (hlasts.mono (show procCost 1 + 9 ≤ 16 by omega))
  have hrun : Run (guard Keeps (Step someTrampoline)) _ [.userinit] m := .cons ⟨trivial, ret, hcall⟩ (.nil m)
  have hrun' := hrun.mono fun _ _ _ hs => hs.2
  refine ⟨h, hp, hinit, m, np, hrun, hrun', .reached (by decide) (by decide) (fun _ => rfl) hrun', ?_, ?_, hsz, hleft⟩
  all_goals
    rw [hm]
    rfl

section
variable {trampoline : Nat} {p : Proc}

/-! ## Address spaces -/

/-- The byte at the user address `va`. -/
def byteAt (mem : Nat → Page) (r va : Nat) : Option Nat :=
  (lookup mem r (va / pgsize)).map fun e =>
    mem e.1 ⟨va % pgsize / 8, by change va % 4096 / 8 < 512; omega⟩ / 256 ^ (va % 8) % 256

/-- The user mappings of a process. -/
structure AddressSpace (mem : Nat → Page) (p : Proc) : Prop where
  mapped : ∀ v < tfPage, (lookup mem p.pagetable v).isSome ↔ v * pgsize < pgroundup p.sz
  user : ∀ v < tfPage, ∀ pa f, lookup mem p.pagetable v = some (pa, f) → f.testBit 4 = true ∨ p.guard = some v
  distinct : ∀ v < tfPage, ∀ v' < tfPage, ∀ pa f f', lookup mem p.pagetable v = some (pa, f) →
    lookup mem p.pagetable v' = some (pa, f') → v = v'

theorem Proc.Valid.addressSpace {A : PageAlloc} {s : Ram A} (hA : A.Exact) (h : p.Valid trampoline s) :
    AddressSpace s.mem p := by
  have hin : ∀ v < tfPage, (lookup s.mem p.pagetable v).isSome ↔ v < npages p.sz := by
    intro v hv
    constructor
    · intro hs
      by_contra hn
      have hv' : v < 2 ^ 26 - 2 := hv
      rw [h.empty v (by omega) (Nat.le_of_not_lt hn) (by unfold trampPage; omega) (ne_of_lt hv)] at hs
      cases hs
    · intro hn
      obtain ⟨pa, f, hl, -⟩ := h.user v hn
      rw [hl]
      rfl
  have hlt : ∀ v < tfPage, ∀ e, lookup s.mem p.pagetable v = some e → v < npages p.sz := fun v hv e he =>
    (hin v hv).mp (by rw [he]; rfl)
  refine ⟨fun v hv => ?_, fun v hv pa f hl => ?_, fun v hv v' hv' pa f f' hl hl' => ?_⟩
  · rw [hin v hv, pgroundup_eq (Mapped.le_memory hA h.toMapped)]
    exact (Nat.mul_lt_mul_right (by decide)).symm
  · obtain ⟨pa', f', hl', hu⟩ := h.user v (hlt v hv _ hl)
    rw [hl] at hl'
    cases hl'
    exact hu.user
  · exact h.inj v (hlt v hv _ hl) v' (hlt v' hv' _ hl') pa f f' hl hl'

theorem Resized.bytes {A : PageAlloc} {s s' : Ram A} {sz va : Nat} (hr : Resized trampoline s p sz s')
    (hva : va < min p.sz sz) : byteAt s'.mem p.pagetable va = byteAt s.mem p.pagetable va := by
  have hv : va / pgsize < npages (min p.sz sz) := by
    rw [lt_npages]
    exact lt_of_le_of_lt (Nat.div_mul_le_self va pgsize) hva
  unfold byteAt
  rw [hr.looks _ hv]
  cases hl : lookup s.mem p.pagetable (va / pgsize) with
  | none => rfl
  | some e =>
    have hpage : Space.page s.mem p.pagetable (va / pgsize) = e.1 := by
      rw [Space.page, hl]
      rfl
    rw [Option.map_some, Option.map_some, ← hpage, hr.data _ hv]

theorem newSize_eq {sz : Nat} {n : Int} (h1 : 0 ≤ sz + n) (h2 : sz + n < 2 ^ 32) : (newSize sz n : Int) = sz + n := by
  have hu : (uint32 (sz + n) : Int) = sz + n := by
    unfold uint32
    omega
  unfold newSize
  split_ifs <;> omega

/-- **User address spaces.**  In every state that calls reach from a machine without processes, the pages that
a process has mapped below `TRAPFRAME` are those of `[0, PGROUNDUP(p->sz))`, all of them with `PTE_U`
but the guard of its stack, all on different physical pages, which no other process has; `sbrk(n)`
sets the size and leaves the bytes below both sizes alone; and no call panics, unless the allocator
has no page left. -/
theorem userSpaces (l : Layout) (junk : Nat → Page) {trampoline : Nat} (htra : trampoline % pgsize = 0)
    (htrl : trampoline < 2 ^ 64) {m₀ m : Machine (kpages l junk)} (h0 : ∀ i, m₀.proc i = none) {calls : List Call}
    (hrun : Run (Step trampoline) m₀ calls m) : (∀ i p, m.proc i = some p → AddressSpace m.ram.mem p) ∧
    (∀ i j p q, i ≠ j → m.proc i = some p → m.proc j = some q →
      Disjoint (upages m.ram.mem p.pagetable) (upages m.ram.mem q.pagetable)) ∧
    (∀ i p (n : Int32) ret m', m.proc i = some p → 0 ≤ p.sz + n.toInt → p.sz + n.toInt < 2 ^ 32 →
      call trampoline (.sbrk i n) m = .ok ret m' → ∃ p', m'.proc i = some p' ∧
        (p'.sz : Int) = p.sz + n.toInt ∧ ∀ va < min p.sz p'.sz,
          byteAt m'.ram.mem p'.pagetable va = byteAt m.ram.mem p.pagetable va) ∧
    ∀ c e m', call trampoline c m = .error e m' → e = .couldNotAllocate := by
  have hA := kpages_exact l junk
  have h := Inv.reached htra htrl h0 hrun
  refine ⟨fun i p hi => (h.valid i p hi).addressSpace hA, fun i j p q hij hi hj => ?_, ?_, fun c e m' he => ?_⟩
  · refine (h.apart i j p q hij hi hj).mono ?_ ?_
    · exact fun x hx => .inr (.inr hx)
    · exact fun x hx => .inr (.inr hx)
  · intro i p n ret m' hi h1 h2 hcall
    obtain ⟨-, -, hr, hm'⟩ := (sbrk_ends hA h hi n).post hcall
    refine ⟨{ p with sz := newSize p.sz n.toInt }, ?_, newSize_eq h1 h2, fun va hva => hr.bytes hva⟩
    rw [hm']
    exact proc_update ..
  · exact ((h.call_ends hA htra htrl c).error he).1

theorem userSpaces_run : ∃ h hp, tightLayout.ufkinit (fun _ => ⟨0, 0⟩) = some h ∧ ∃ m p,
    Run (Step someTrampoline) (bootMachine tightLayout (fun _ _ => 0) h hp)
      [.userinit, .sbrk initproc (-100)] m ∧
    m.proc initproc = some p ∧ p.sz = 3996 ∧ AddressSpace m.ram.mem p := by
  obtain ⟨h, hp, hinit, m, p, -, hrun, hinv, hi, -, hsz, -⟩ := first_process
  obtain ⟨m', hcall, hi'⟩ := sbrk_shrinks (kpages_exact _ _) hinv hi (n := -100) (by decide)
  have hrun' := hrun.append (.cons ⟨_, hcall⟩ (.nil m'))
  refine ⟨h, hp, hinit, m', _, hrun', hi', ?_, ?_⟩
  · change newSize p.sz (-100 : Int32).toInt = 3996
    rw [hsz]
    decide
  · exact (userSpaces _ _ (by decide) (by decide) (fun _ => rfl) hrun').1 _ _ hi'

/-! ## Memory that is given back -/

section
variable {A : PageAlloc} {trampoline : Nat} {m m' : Machine A} {s' : Ram A} {p p' np : Proc} {i : Fin nproc}

/-- The pages that are held and belong to no process. -/
def Machine.rest (m : Machine A) : Set Nat :=
  {q | q ∈ A.held m.ram.st ∧ ∀ i p, m.proc i = some p → q ∉ pagesOf m.ram.mem p}

/-- The pages of an entry of the process table. -/
def pagesIn (mem : Nat → Page) (o : Option Proc) : Set Nat := o.elim ∅ (pagesOf mem)

theorem mem_rest {q : Nat} (i : Fin nproc) : q ∈ m.rest ↔ q ∈ A.held m.ram.st \ pagesIn m.ram.mem (m.proc i) ∧
      ∀ j p, j ≠ i → m.proc j = some p → q ∉ pagesOf m.ram.mem p := by
  constructor
  · rintro ⟨hq, hno⟩
    refine ⟨⟨hq, fun hin => ?_⟩, fun j p _ hj => hno j p hj⟩
    cases hi : m.proc i with
    | none =>
      rw [hi] at hin
      exact hin
    | some p =>
      rw [hi] at hin
      exact hno i p hi hin
  · rintro ⟨⟨hq, hin⟩, hno⟩
    refine ⟨hq, fun j p hj => ?_⟩
    by_cases hji : j = i
    · subst hji
      rw [hj] at hin
      exact hin
    · exact hno j p hji hj

/-- What belongs to no process stays the same if the rest of the caller's pages does. -/
theorem Machine.rest_update {o : Option Proc} (pid : Nat)
    (hothers : ∀ j q, j ≠ i → m.proc j = some q → pagesOf s'.mem q = pagesOf m.ram.mem q)
    (hrest : A.held s'.st \ pagesIn s'.mem o = A.held m.ram.st \ pagesIn m.ram.mem (m.proc i)) :
    rest ⟨s', update m.proc i o, pid⟩ = m.rest := by
  ext q
  rw [mem_rest i, mem_rest (m := m) i, proc_update]
  refine and_congr (by rw [← hrest]) ?_
  refine forall_congr' fun j => forall_congr' fun p => forall_congr' fun hji => ?_
  change update m.proc i o j = some p → q ∉ pagesOf s'.mem p ↔ _
  rw [update_of_ne hji]
  refine forall_congr' fun hj => ?_
  rw [hothers j p hji hj]

theorem Born.rest (hb : Born trampoline m.ram np s') : A.held s'.st \ pagesOf s'.mem np = A.held m.ram.st := by
  rw [hb.held, union_sdiff_right]
  refine ext fun q => and_iff_left_of_imp fun hq hin => hb.fresh q hin hq

theorem Machine.Inv.rest_born (h : m.Inv trampoline) (hj : m.proc i = none) (hb : Born trampoline m.ram np s')
    (pid : Nat) : rest ⟨s', update m.proc i (some np), pid⟩ = m.rest := by
  refine rest_update pid (fun j q _ hq => ?_) ?_
  · exact ((h.valid j q hq).frame fun x hx =>
      ⟨by rw [hb.held]; exact .inl ((h.valid j q hq).pages_held hx), hb.keep x ((h.valid j q hq).pages_held hx)⟩).2
  · rw [hj]
    exact hb.rest.trans (sdiff_empty).symm

theorem Machine.Inv.rest_moves (h : m.Inv trampoline) (hi : m.proc i = some p) (hm : Moves trampoline m.ram p s' p')
    (hrest : A.held s'.st \ pagesOf s'.mem p' = A.held m.ram.st \ pagesOf m.ram.mem p) (pid : Nat) :
    rest ⟨s', update m.proc i (some p'), pid⟩ = m.rest := by
  refine rest_update pid (fun j q hji hj => (h.others hi hm.keep hji hj).2) ?_
  rw [hi]
  exact hrest

theorem Resized.rest_pages {s : Ram A} {sz : Nat} (hr : Resized trampoline s p sz s') :
    A.held s'.st \ pagesOf s'.mem { p with sz := sz } = A.held s.st \ pagesOf s.mem p := by
  change A.held s'.st \ insert p.tf (owns s'.mem p.pagetable) = A.held s.st \ insert p.tf (owns s.mem p.pagetable)
  rw [← union_singleton, ← union_singleton, ← sdiff_sdiff, ← sdiff_sdiff, hr.rest]

theorem Own.rest_pages {s : Ram A} (ho : Own s p s') :
    A.held s'.st \ pagesOf s'.mem p = A.held s.st \ pagesOf s.mem p := by
  rw [ho.st, pagesOf_congr ho.tables]

theorem ExecOut.rest_pages {s : Ram A} {clean : Prop} {res : Proc × Int} (h : p.Valid trampoline s)
    (ho : ExecOut trampoline clean s p res s') (hclean : clean) (hsz : 0 < p.sz) :
    A.held s'.st \ pagesOf s'.mem res.1 = A.held s.st \ pagesOf s.mem p := by
  cases ho with
  | failed held keep given =>
    change A.held s'.st \ pagesOf s'.mem p = _
    rw [given.mpr hclean, pagesOf_congr fun x hx => keep x (h.held hx)]
  | done loads space fresh held keep =>
    rename_i r sz argc
    rw [held, if_pos hsz]
    ext q
    change (q ∈ (_ ∪ _) ∧ ¬ (q = p.tf ∨ q ∈ owns s'.mem r)) ↔ q ∈ A.held s.st ∧
      ¬ (q = p.tf ∨ q ∈ owns s.mem p.pagetable)
    rw [mem_union, mem_sdiff]
    tauto

/-- A call that keeps to this leaves what belongs to no process as it is. -/
theorem Machine.Inv.rest_step (hA : A.Exact) (htra : trampoline % pgsize = 0) (htrl : trampoline < 2 ^ 64)
    (h : m.Inv trampoline) {c : Call} (hk : m.Keeps c) (hs : m.Step trampoline c m') : m'.rest = m.rest := by
  obtain ⟨ret, hcall⟩ := hs
  have hnobody : ∀ {i : Fin nproc} {f : Proc → SysM A Int}, byProc i f m = .ok ret m' → m.proc i = none →
      m'.rest = m.rest := by
    intro i f hc hi
    rw [byProc_none hi] at hc
    cases hc
    rfl
  have hown : ∀ {i : Fin nproc} {p : Proc} {s' : Ram A}, m.proc i = some p → Own m.ram p s' →
      rest { m with ram := s' } = m.rest := by
    intro i p s' hi ho
    have := h.rest_moves hi (ho.moves (h.valid i p hi)) ho.rest_pages m.nextpid
    rwa [update_self_eq hi] at this
  cases c with
  | userinit =>
    cases hj : unused m.proc with
    | none =>
      rw [show call trampoline .userinit m = .ok (-1) m from spawn_full hj] at hcall
      cases hcall
      rfl
    | some j =>
      obtain ⟨-, np, ⟨-, hb⟩, -, hm'⟩ := (spawn_draws hj fun pid => userinit_takes m.ram htra htrl pid).ends.post hcall
      rw [hm']
      exact h.rest_born (unused_none hj) hb _
  | sbrk i n =>
    cases hi : m.proc i with
    | none => exact hnobody hcall hi
    | some p =>
      obtain ⟨-, -, hr, hm'⟩ := (sbrk_ends hA h hi n).post hcall
      rw [hm']
      exact h.rest_moves hi hr.moves hr.rest_pages _
  | fork i =>
    cases hi : m.proc i with
    | none => exact hnobody hcall hi
    | some p =>
      cases hj : unused m.proc with
      | none =>
        rw [fork_full hi hj] at hcall
        cases hcall
        rfl
      | some j =>
        obtain ⟨-, np, ⟨-, -, hb, -⟩, -, hm'⟩ := (fork_draws htra htrl h hi hj).ends.post hcall
        rw [hm']
        exact h.rest_born (unused_none hj) hb _
  | exec i file argv =>
    cases hi : m.proc i with
    | none => exact hnobody hcall hi
    | some p =>
      obtain ⟨-, p', ho, hm'⟩ := (sysExec_ends hA htra htrl h hi file argv).post hcall
      obtain ⟨hsz, hclean⟩ := hk p hi
      rw [hm']
      exact h.rest_moves hi (ho.moves (h.valid i p hi)) (ho.rest_pages (h.valid i p hi) hclean hsz) _
  | reap i =>
    cases hi : m.proc i with
    | none => exact hnobody hcall hi
    | some p =>
      obtain ⟨s', hrun, hheld, hmem⟩ := reap_ok hA h hi
      rw [hrun] at hcall
      cases hcall
      rw [if_pos (hk p hi)] at hheld
      refine rest_update _ (fun j q hji hj => (h.others hi (fun x hx hno => ?_) hji hj).2) ?_
      · rw [hheld]
        exact ⟨⟨hx, hno⟩, hmem x fun ht => hno (.inr (.inl ht))⟩
      · rw [hi, hheld]
        exact sdiff_empty
  | write i va bytes =>
    cases hi : m.proc i with
    | none => exact hnobody hcall hi
    | some p =>
      obtain ⟨ret', s', hrun, ho⟩ := write_ok h hi va bytes
      rw [hrun] at hcall
      cases hcall
      exact hown hi ho
  | trap i regs =>
    cases hi : m.proc i with
    | none => exact hnobody hcall hi
    | some p =>
      obtain ⟨s', hrun, ho⟩ := trap_ok h hi regs
      rw [hrun] at hcall
      cases hcall
      exact hown hi ho

end

/-- **What is left when an address space dies.**  In every reachable state: `freeproc` gives back the pages of a
process exactly if the process has a size; a failing `exec` leaves the process and its memory alone,
and gives back what it took exactly if no header stops it before the first segment; and an `exec` that
succeeds gives back the old address space exactly if that had a size.  Where all calls keep to these
conditions, the pages that belong to no process are always those that were held before the first one. -/
theorem freedMemory (l : Layout) (junk : Nat → Page) {trampoline : Nat} (htra : trampoline % pgsize = 0)
    (htrl : trampoline < 2 ^ 64) {m₀ : Machine (kpages l junk)} (h0 : ∀ i, m₀.proc i = none) :
    (∀ calls m, Run (Step trampoline) m₀ calls m → ∀ i p, m.proc i = some p →
      (∃ m', call trampoline (.reap i) m = .ok 0 m' ∧ m'.proc i = none ∧
        ((kpages l junk).held m'.ram.st = (kpages l junk).held m.ram.st \ pagesOf m.ram.mem p ↔ 0 < p.sz)) ∧
      ∀ file argv ret m', call trampoline (.exec i file argv) m = .ok ret m' →
        (ret = -1 → m'.proc = m.proc ∧ (∀ q ∈ (kpages l junk).held m.ram.st, m'.ram.mem q = m.ram.mem q) ∧
          ((kpages l junk).held m'.ram.st = (kpages l junk).held m.ram.st ↔ execClean (argv.opens file) = true)) ∧
        (ret ≠ -1 → ((∀ q ∈ owns m.ram.mem p.pagetable, q ∉ (kpages l junk).held m'.ram.st) ↔ 0 < p.sz))) ∧
    ∀ calls m, Run (guard Keeps (Step trampoline)) m₀ calls m →
      m.rest = (kpages l junk).held m₀.ram.st := by
  have hA := kpages_exact l junk
  refine ⟨fun calls m hrun i p hi => ?_, fun calls m hrun => ?_⟩
  · have h := Inv.reached htra htrl h0 hrun
    have hp := h.valid i p hi
    have hroot : p.pagetable ∈ owns m.ram.mem p.pagetable := .inl root_mem_nodes
    refine ⟨?_, fun file argv ret m' hcall => ?_⟩
    · obtain ⟨s', hcall, hheld, -⟩ := reap_ok hA h hi
      refine ⟨_, hcall, proc_update .., ?_⟩
      rw [hheld]
      split_ifs with hsz
      · exact iff_of_true rfl hsz
      · -- the page table stays behind
        refine iff_of_false (fun he => ?_) hsz
        have hin : p.pagetable ∈ (kpages l junk).held m.ram.st \ {p.tf} :=
          ⟨hp.owns_held hroot, fun h1 => hp.tf_notMem (mem_singleton_iff.mp h1 ▸ hroot)⟩
        rw [he] at hin
        exact hin.2 (.inr hroot)
    · obtain ⟨-, p', ho, hm'⟩ := (sysExec_ends hA htra htrl h hi file argv).post hcall
      cases ho with
      | failed held keep given =>
        refine ⟨fun _ => ⟨?_, keep, given⟩, fun hne => absurd rfl hne⟩
        rw [hm']
        exact update_self_eq hi
      | done loads space fresh held keep =>
        refine ⟨fun he => absurd he (by omega), fun _ => ?_⟩
        rw [held]
        split_ifs with hsz
        · refine iff_of_true (fun q hq => ?_) hsz
          rintro (h1 | h1)
          · exact h1.2 hq
          · exact fresh q h1 (hp.owns_held hq)
        · exact iff_of_false (fun hno => hno _ hroot (.inl (hp.owns_held hroot))) hsz
  · have hinv := hrun.inv (I := fun m => m.Inv trampoline ∧ m.rest = m₀.rest) (fun m c m' h hs => ?_) ⟨.boot h0, rfl⟩
    · refine hinv.2.trans (ext fun q => ⟨fun hq => hq.1, fun hq => ⟨hq, fun i p hi => ?_⟩⟩)
      rw [h0 i] at hi
      cases hi
    · obtain ⟨hk, ret, hcall⟩ := hs
      exact ⟨((h.1.call_ends hA htra htrl c).post hcall).2, (h.1.rest_step hA htra htrl hk ⟨ret, hcall⟩).trans h.2⟩

/-- A process that has shrunk to nothing leaves its page table behind. -/
theorem freedMemory_lost : ∃ h hp, tightLayout.ufkinit (fun _ => ⟨0, 0⟩) = some h ∧ ∃ m p m',
    Run (Step someTrampoline) (bootMachine tightLayout (fun _ _ => 0) h hp)
      [.userinit, .sbrk initproc (-4096)] m ∧
    m.proc initproc = some p ∧ p.sz = 0 ∧ call someTrampoline (.reap initproc) m = .ok 0 m' ∧
    m'.proc initproc = none ∧ p.pagetable ∈ (kpages tightLayout fun _ _ => 0).held m'.ram.st ∧
    p.pagetable ∉ (kpages tightLayout fun _ _ => 0).held
      (bootMachine tightLayout (fun _ _ => 0) h hp).ram.st := by
  obtain ⟨h, hp, hinit, m1, p1, -, hrun, hinv, hi1, -, hsz, -⟩ := first_process
  have hA := kpages_exact tightLayout fun _ _ => 0
  obtain ⟨m, hcall, hi⟩ := sbrk_shrinks hA hinv hi1 (n := -4096) (by decide)
  have hrun' := hrun.append (.cons ⟨_, hcall⟩ (.nil m))
  have hinv' := Inv.reached (by decide) (by decide) (fun _ => rfl) hrun'
  have hzero : newSize p1.sz (-4096 : Int32).toInt = 0 := by
    rw [hsz]
    decide
  rw [hzero] at hi
  have hvalid := hinv'.valid _ _ hi
  have hroot : p1.pagetable ∈ owns m.ram.mem p1.pagetable := .inl root_mem_nodes
  obtain ⟨s', hreap, hheld, -⟩ := reap_ok hA hinv' hi
  refine ⟨h, hp, hinit, m, _, _, hrun', hi, rfl, hreap, proc_update .., ?_, List.not_mem_nil⟩
  change p1.pagetable ∈ (kpages tightLayout fun _ _ => 0).held s'.st
  rw [hheld, if_neg (Nat.lt_irrefl 0)]
  exact ⟨hvalid.owns_held hroot, fun h1 => hvalid.tf_notMem (mem_singleton_iff.mp h1 ▸ hroot)⟩

/-- The first process forks and fails to execute a file, with two arguments; then the second is torn down. -/
theorem freedMemory_run : ∃ h hp, tightLayout.ufkinit (fun _ => ⟨0, 0⟩) = some h ∧ ∃ m p m',
    Run (guard Keeps (Step someTrampoline)) (bootMachine tightLayout (fun _ _ => 0) h hp)
      [.userinit, .fork initproc, .exec initproc none (.arg [99] (.arg [100] .null))] m ∧
    m.rest = ∅ ∧ m.proc secondproc = some p ∧ call someTrampoline (.reap secondproc) m = .ok 0 m' ∧
    (kpages tightLayout fun _ _ => 0).held m'.ram.st =
      (kpages tightLayout fun _ _ => 0).held m.ram.st \ pagesOf m.ram.mem p := by
  obtain ⟨h, hp, hinit, m1, p, hrun, -, hinv1, hi, hfree, hsz, hlasts⟩ := first_process
  have hA := kpages_exact tightLayout fun _ _ => 0
  have hcost := procCost_one
  obtain ⟨ret, m2, hfork, hleft, np, ⟨hnp, -⟩, -, hm2⟩ :=
    (fork_draws (by decide) (by decide) hinv1 hi hfree).lasts (m := 2) (hlasts.mono (by
      rw [hsz, show npages pgsize = 1 by decide]
      omega))
  have hrun2 := hrun.append (.cons ⟨show m1.Keeps (.fork initproc) from trivial, ret, hfork⟩ (.nil m2))
  have hinv2 := Inv.reached (by decide) (by decide) (fun _ => rfl) (hrun2.mono fun _ _ _ hs => hs.2)
  have hi2 : m2.proc initproc = some p := by
    rw [hm2]
    exact hi
  obtain ⟨ret', m, hexec, p', -, hm⟩ :=
    (sysExec_ends hA (by decide) (by decide) hinv2 hi2 none (.arg [99] (.arg [100] .null))).1 hleft
  have hkeeps : m2.Keeps (.exec initproc none (.arg [99] (.arg [100] .null))) := by
    intro q hq
    rw [hi2] at hq
    cases hq
    exact ⟨by rw [hsz]; decide, rfl⟩
  have hrun3 := hrun2.append (.cons ⟨hkeeps, ret', hexec⟩ (.nil m))
  have hj : m.proc secondproc = some np := by
    rw [hm, hm2]
    rfl
  have hfreed := freedMemory tightLayout (fun _ _ => 0) (show someTrampoline % pgsize = 0 by decide) (by decide)
    (show ∀ i, (bootMachine tightLayout (fun _ _ => 0) h hp).proc i = none from fun _ => rfl)
  obtain ⟨⟨m', hcall, -, hiff⟩, -⟩ := hfreed.1 _ _ (hrun3.mono fun _ _ _ hs => hs.2) _ _ hj
  refine ⟨h, hp, hinit, m, np, m', hrun3, (hfreed.2 _ _ hrun3).trans ?_, hj, hcall, hiff.mpr ?_⟩
  · exact eq_empty_of_forall_notMem fun q hq => List.not_mem_nil hq
  · rw [hnp, hsz]
    decide

/-! ## Memory that runs out -/

/-- The calls of the process `i` that may need memory. -/
def Call.wants (i : Fin nproc) : Call → Prop
  | .sbrk j _ => j = i
  | .fork j => j = i
  | .exec j _ _ => j = i
  | _ => False

/-- A file that is to be executed gives back what it took when it fails. -/
def Call.clean : Call → Bool
  | .exec _ file argv => execClean (argv.opens file)
  | _ => true

/-- A call ends, and if it fails it leaves the processes, their memory and the allocator's pages as they were. -/
def Machine.Graceful {A : PageAlloc} (trampoline : Nat) (m : Machine A) (c : Call) : Prop :=
  ∃ ret m', call trampoline c m = .ok ret m' ∧ (ret = -1 → m'.proc = m.proc ∧
    A.held m'.ram.st = A.held m.ram.st ∧ ∀ q ∈ A.held m.ram.st, m'.ram.mem q = m.ram.mem q)

/-- **When memory runs out.**  `sbrk`, `fork` and `exec` are graceful exactly if the allocator still has the pages
they need, and the file of an `exec` is one that gives back what it took. -/
theorem outOfMemory (l : Layout) (junk : Nat → Page) {trampoline : Nat} (htra : trampoline % pgsize = 0)
    (htrl : trampoline < 2 ^ 64) {m₀ m : Machine (kpages l junk)} (h0 : ∀ i, m₀.proc i = none) {calls : List Call}
    (hrun : Run (Step trampoline) m₀ calls m) {i : Fin nproc} {p : Proc} (hi : m.proc i = some p) {c : Call}
    (hc : c.wants i) :
    m.Graceful trampoline c ↔ (source (kpages l junk)).Lasts (m.cost c) m.ram ∧ c.clean = true := by
  have hA := kpages_exact l junk
  have h := Inv.reached htra htrl h0 hrun
  have hneed : m.Graceful trampoline c → (source (kpages l junk)).Lasts (m.cost c) m.ram := by
    rintro ⟨ret, m', hcall, -⟩
    exact machine_lasts.mp ((h.call_ends hA htra htrl c).post hcall).1
  cases c with
  | sbrk j n =>
    obtain rfl : j = i := hc
    refine ⟨fun hg => ⟨hneed hg, rfl⟩, fun hl => ?_⟩
    have hcost : m.cost (.sbrk j n) = need m.ram.mem p.pagetable (npages p.sz) (npages (newSize p.sz n.toInt)) := by
      rw [cost, hi]
      rfl
    obtain ⟨ret, m', hcall, rfl, -⟩ := (sbrk_ends hA h hi n).1 (machine_lasts.mpr (hcost ▸ hl.1))
    exact ⟨_, m', hcall, fun he => absurd he (by omega)⟩
  | fork j =>
    obtain rfl : j = i := hc
    refine ⟨fun hg => ⟨hneed hg, rfl⟩, fun hl => ?_⟩
    cases hj : unused m.proc with
    | none =>
      have hcall : call trampoline (.fork j) m = .ok (-1) m :=
        (byProc_some (f := fun p => spawn (forkInto trampoline p)) hi).trans (spawn_full hj)
      exact ⟨-1, m, hcall, fun _ => ⟨rfl, rfl, fun _ _ => rfl⟩⟩
    | some k =>
      have hcost : m.cost (.fork j) = procCost (npages p.sz) := by
        rw [cost, hi, hj]
        rfl
      obtain ⟨ret, m', hcall, np, -, rfl, -⟩ := (fork_draws htra htrl h hi hj).ends.1 (machine_lasts.mpr (hcost ▸ hl.1))
      exact ⟨_, m', hcall, fun he => absurd he (by omega)⟩
  | exec j file argv =>
    obtain rfl : j = i := hc
    have hcost : m.cost (.exec j file argv) = argv.cost file := by
      rw [cost, hi]
      rfl
    constructor
    · intro hg
      refine ⟨hneed hg, ?_⟩
      obtain ⟨ret, m', hcall, hfail⟩ := hg
      obtain ⟨-, p', ho, -⟩ := (sysExec_ends hA htra htrl h hi file argv).post hcall
      cases ho with
      | failed held keep given => exact given.mp (hfail rfl).2.1
      | done loads space fresh held keep => exact loads
    · rintro ⟨hl, hclean⟩
      obtain ⟨ret, m', hcall, p', ho, hm'⟩ :=
        (sysExec_ends hA htra htrl h hi file argv).1 (machine_lasts.mpr (hcost ▸ hl))
      refine ⟨ret, m', hcall, fun he => ?_⟩
      cases ho with
      | failed held keep given =>
        refine ⟨?_, given.mpr hclean, keep⟩
        rw [hm']
        exact update_self_eq hi
      | done loads space fresh held keep => exact absurd he (by omega)
  | userinit | reap | write | trap => exact hc.elim

/-- More memory than the machine has: `sbrk` panics. -/
theorem outOfMemory_panic : ∃ h hp, tightLayout.ufkinit (fun _ => ⟨0, 0⟩) = some h ∧ ∃ m p m',
    Run (Step someTrampoline) (bootMachine tightLayout (fun _ _ => 0) h hp) [.userinit] m ∧
    m.proc initproc = some p ∧ p.sz = 4096 ∧
    call someTrampoline (.sbrk initproc 1073741824) m = .error .couldNotAllocate m' := by
  obtain ⟨h, hp, hinit, m, p, -, hrun, hinv, hi, -, hsz, -⟩ := first_process
  have hA := kpages_exact tightLayout fun _ _ => 0
  have hends := sbrk_ends hA hinv hi 1073741824
  obtain ⟨m', hpanic⟩ := hends.2 fun hl => by
    -- RAM has fewer pages than the new size
    obtain ⟨ret, m', -, -, hr, -⟩ := hends.1 hl
    have hmax := Mapped.le_memory hA hr.valid.toMapped
    change npages (newSize p.sz (1073741824 : Int32).toInt) ≤ 32768 at hmax
    rw [hsz] at hmax
    exact absurd hmax (by decide)
  exact ⟨h, hp, hinit, m, p, m', hrun, hi, hsz, hpanic⟩

/-- With memory for another process `fork` is graceful. -/
theorem outOfMemory_run : ∃ h hp, tightLayout.ufkinit (fun _ => ⟨0, 0⟩) = some h ∧ ∃ m,
    Run (Step someTrampoline) (bootMachine tightLayout (fun _ _ => 0) h hp) [.userinit] m ∧
    5 ≤ m.cost (.fork initproc) ∧ m.Graceful someTrampoline (.fork initproc) := by
  obtain ⟨h, hp, hinit, m, p, -, hrun, -, hi, hfree, hsz, hlasts⟩ := first_process
  have hcost : m.cost (.fork initproc) = procCost 1 := by
    rw [cost, hi, hfree]
    change procCost (npages p.sz) = procCost 1
    rw [hsz]
    rfl
  have hle := procCost_one
  refine ⟨h, hp, hinit, m, hrun, ?_, ?_⟩
  · rw [hcost, procCost, spaceCost]
    omega
  · refine (outOfMemory _ _ (by decide) (by decide) (fun _ => rfl) hrun hi (c := .fork initproc) rfl).mpr ⟨?_, rfl⟩
    rw [hcost]
    exact machine_lasts.mp (hlasts.mono (by omega))

end

end InternetOs.Vm
