import Mathlib.Tactic
import Mathlib.Order.CompletePartialOrder
import InternetOs.Lib.Run
import InternetOs.Proc.Calls

/-!
# The processes and their memory

The process table and the memory, and the calls that change them: `userinit`, `sbrk`, `fork`, `exec`,
the `freeproc` of a process that its parent waits for, and what a process does to its own memory.
Every process has an address space of its size, and no page belongs to two processes (`Machine.Inv`).

Left out: `exit`, which leaves the memory to `wait`.

    every call keeps the invariant, and panics only when the allocator has nothing left   (Inv.call_ends)
-/

namespace InternetOs.Vm

open Trie Function
open Mem (pgsize kernbase phystop)

/-- `NPROC` -/
def nproc : Nat := 64

/-- The memory and the process table; an entry that is `UNUSED` is `none`. -/
structure Machine (A : PageAlloc) where
  ram : Ram A
  proc : Fin nproc → Option Proc
  nextpid : Nat

inductive Call
  | userinit
  | sbrk (i : Fin nproc) (n : Int32)
  | fork (i : Fin nproc)
  | exec (i : Fin nproc) (file : Option (List UInt8)) (argv : Uargv)
  /-- `freeproc` of the process `i`, when its parent waits for it. -/
  | reap (i : Fin nproc)
  /-- The process `i`, or the kernel for it, writes to its memory. -/
  | write (i : Fin nproc) (va : Nat) (bytes : List UInt8)
  /-- The registers of the process `i` are saved. -/
  | trap (i : Fin nproc) (regs : Page)

section
variable {A : PageAlloc} (trampoline : Nat)

abbrev SysM (A : PageAlloc) : Type → Type := EStateM Panic (Machine A)

def onRam {α : Type} (x : VmM A α) : SysM A α := fun m =>
  match x m.ram with
  | .ok a ram => .ok a { m with ram := ram }
  | .error e ram => .error e { m with ram := ram }

def setProc (i : Fin nproc) (o : Option Proc) : SysM A Unit :=
  modify fun m => { m with proc := update m.proc i o }

/-- The first entry of the table that is `UNUSED`. -/
def unused (proc : Fin nproc → Option Proc) : Option (Fin nproc) :=
  (List.finRange nproc).find? fun i => (proc i).isNone

def allocpid : SysM A Nat := do
  let m ← get
  set { m with nextpid := m.nextpid + 1 }
  return m.nextpid

/-- A new process, made by `make`, in the first entry that is free. -/
def spawn (make : Nat → VmM A (Option Proc)) : SysM A Int := do
  match unused (← get).proc with
  | none => return -1
  | some j =>
    let pid ← allocpid
    match ← onRam (make pid) with
    | none => return -1
    | some np =>
      setProc j (some np)
      return pid

def sysSbrk (i : Fin nproc) (n : Int) (p : Proc) : SysM A Int := do
  let (p', ret) ← onRam (growproc p n)
  setProc i (some p')
  if ret < 0 then return -1 else return p.sz

def sysExec (i : Fin nproc) (file : Option (List UInt8)) (argv : Uargv) (p : Proc) : SysM A Int := do
  let (p', ret) ← onRam (execArgs trampoline p file argv)
  setProc i (some p')
  return ret

def reap (i : Fin nproc) (p : Proc) : SysM A Int := do
  onRam (freeproc p)
  setProc i none
  return 0

/-- The process in the entry `i` does `f`; an entry that is not used does nothing. -/
def byProc (i : Fin nproc) (f : Proc → SysM A Int) : SysM A Int := do
  match (← get).proc i with
  | none => return -1
  | some p => f p

def Machine.call : Call → SysM A Int
  | .userinit => spawn (userinit trampoline)
  | .sbrk i n => byProc i (sysSbrk i n.toInt)
  | .fork i => byProc i fun p => spawn (forkInto trampoline p)
  | .exec i file argv => byProc i (sysExec trampoline i file argv)
  | .reap i => byProc i (reap i)
  | .write i va bytes => byProc i fun p => onRam (copyout p.pagetable va bytes)
  | .trap i regs => byProc i fun p => do
    onRam (setPage p.tf regs)
    return 0

/-- A call that does not panic. -/
def Machine.Step (m : Machine A) (c : Call) (m' : Machine A) : Prop :=
  ∃ ret, Machine.call trampoline c m = .ok ret m'

end

/-! ## The invariant -/

section
variable {A : PageAlloc} {trampoline : Nat} {m m' : Machine A} {s s' : Ram A} {p p' q : Proc} {i j : Fin nproc}

namespace Machine

/-- **The invariant.** -/
structure Inv (trampoline : Nat) (m : Machine A) : Prop where
  valid : ∀ i p, m.proc i = some p → p.Valid trampoline m.ram
  apart : ∀ i j p q, i ≠ j → m.proc i = some p → m.proc j = some q →
    Disjoint (pagesOf m.ram.mem p) (pagesOf m.ram.mem q)

end Machine

theorem Proc.Valid.frame (h : q.Valid trampoline s)
    (hkeep : ∀ x ∈ pagesOf s.mem q, x ∈ A.held s'.st ∧ s'.mem x = s.mem x) :
    q.Valid trampoline s' ∧ pagesOf s'.mem q = pagesOf s.mem q := by
  have hmem : ∀ x ∈ tables s.mem q.pagetable, s'.mem x = s.mem x := fun x hx => (hkeep x (.inr (.inl hx))).2
  exact ⟨Space.frame h hmem (fun x hx => (hkeep x (.inr hx)).1) (hkeep _ (.inl rfl)).1, pagesOf_congr hmem⟩

/-- The process `p` has become `p'`, on its own pages and on pages that were not held. -/
structure Moves (trampoline : Nat) (s : Ram A) (p : Proc) (s' : Ram A) (p' : Proc) : Prop where
  valid : p'.Valid trampoline s'
  pages : ∀ x ∈ pagesOf s'.mem p', x ∈ pagesOf s.mem p ∨ x ∉ A.held s.st
  keep : ∀ x ∈ A.held s.st, x ∉ pagesOf s.mem p → x ∈ A.held s'.st ∧ s'.mem x = s.mem x

theorem Machine.Inv.others (h : m.Inv trampoline) (hi : m.proc i = some p)
    (hkeep : ∀ x ∈ A.held m.ram.st, x ∉ pagesOf m.ram.mem p → x ∈ A.held s'.st ∧ s'.mem x = m.ram.mem x)
    (hij : j ≠ i) (hj : m.proc j = some q) : q.Valid trampoline s' ∧ pagesOf s'.mem q = pagesOf m.ram.mem q := by
  have hq := h.valid j q hj
  refine hq.frame fun x hx => hkeep x (hq.pages_held hx) fun hxp => ?_
  exact Set.disjoint_left.mp (h.apart j i q p hij hj hi) hx hxp

theorem Machine.Inv.moves (h : m.Inv trampoline) (hi : m.proc i = some p) (hm : Moves trampoline m.ram p s' p')
    (pid : Nat) : Machine.Inv trampoline ⟨s', update m.proc i (some p'), pid⟩ := by
  have hother : ∀ j q, j ≠ i → update m.proc i (some p') j = some q → m.proc j = some q := fun j q hne hj => by
    rwa [update_of_ne hne] at hj
  have hself : ∀ q, update m.proc i (some p') i = some q → q = p' := fun q hq => by
    rw [update_self] at hq
    exact (Option.some.inj hq).symm
  -- the new pages are not those of another process
  have happ : ∀ j q, j ≠ i → m.proc j = some q → Disjoint (pagesOf s'.mem p') (pagesOf s'.mem q) := by
    intro j q hne hj
    rw [(h.others hi hm.keep hne hj).2, Set.disjoint_left]
    intro x hx hxq
    rcases hm.pages x hx with hp | hp
    · exact Set.disjoint_left.mp (h.apart j i q p hne hj hi) hxq hp
    · exact hp ((h.valid j q hj).pages_held hxq)
  refine ⟨fun j q hj => ?_, fun j k q r hjk hj hk => ?_⟩
  · by_cases hji : j = i
    · subst hji
      rw [hself q hj]
      exact hm.valid
    · exact (h.others hi hm.keep hji (hother j q hji hj)).1
  · by_cases hji : j = i
    · subst hji
      rw [hself q hj]
      exact happ k r hjk.symm (hother k r hjk.symm hk)
    · by_cases hki : k = i
      · subst hki
        rw [hself r hk]
        exact (happ j q hjk (hother j q hjk hj)).symm
      · have hj' := hother j q hji hj
        have hk' := hother k r hki hk
        change Disjoint (pagesOf s'.mem q) (pagesOf s'.mem r)
        rw [(h.others hi hm.keep hji hj').2, (h.others hi hm.keep hki hk').2]
        exact h.apart j k q r hjk hj' hk'

theorem Machine.Inv.born {np : Proc} (h : m.Inv trampoline) (hj : m.proc j = none)
    (hb : Born trampoline m.ram np s') (pid : Nat) :
    Machine.Inv trampoline ⟨s', update m.proc j (some np), pid⟩ := by
  have hin : ∀ x ∈ A.held m.ram.st, x ∈ A.held s'.st ∧ s'.mem x = m.ram.mem x := fun x hx => by
    rw [hb.held]
    exact ⟨.inl hx, hb.keep x hx⟩
  have hold : ∀ i p, m.proc i = some p → p.Valid trampoline s' ∧ pagesOf s'.mem p = pagesOf m.ram.mem p :=
    fun i p hi => (h.valid i p hi).frame fun x hx => hin x ((h.valid i p hi).pages_held hx)
  have happ : ∀ i p, m.proc i = some p → Disjoint (pagesOf s'.mem np) (pagesOf s'.mem p) := by
    intro i p hi
    rw [(hold i p hi).2, Set.disjoint_left]
    exact fun x hx hxp => hb.fresh x hx ((h.valid i p hi).pages_held hxp)
  have hget : ∀ i p, update m.proc j (some np) i = some p → i = j ∧ p = np ∨ i ≠ j ∧ m.proc i = some p := by
    intro i p hi
    by_cases hij : i = j
    · subst hij
      rw [update_self] at hi
      exact .inl ⟨rfl, (Option.some.inj hi).symm⟩
    · rw [update_of_ne hij] at hi
      exact .inr ⟨hij, hi⟩
  refine ⟨fun i p hi => ?_, fun i k p q hik hi hk => ?_⟩
  · rcases hget i p hi with ⟨-, rfl⟩ | ⟨-, hi⟩
    · exact hb.valid
    · exact (hold i p hi).1
  · rcases hget i p hi with ⟨rfl, rfl⟩ | ⟨-, hi'⟩ <;> rcases hget k q hk with ⟨rfl, rfl⟩ | ⟨-, hk'⟩
    · exact absurd rfl hik
    · exact happ k q hk'
    · exact (happ i p hi').symm
    · change Disjoint (pagesOf s'.mem p) (pagesOf s'.mem q)
      rw [(hold i p hi').2, (hold k q hk').2]
      exact h.apart i k p q hik hi' hk'

theorem Machine.Inv.freed (h : m.Inv trampoline) (hi : m.proc i = some p)
    (hkeep : ∀ x ∈ A.held m.ram.st, x ∉ pagesOf m.ram.mem p → x ∈ A.held s'.st ∧ s'.mem x = m.ram.mem x) (pid : Nat) :
    Machine.Inv trampoline ⟨s', update m.proc i none, pid⟩ := by
  have hget : ∀ j q, update m.proc i none j = some q → j ≠ i ∧ m.proc j = some q := by
    intro j q hj
    have hji : j ≠ i := by
      rintro rfl
      rw [update_self] at hj
      cases hj
    rw [update_of_ne hji] at hj
    exact ⟨hji, hj⟩
  refine ⟨fun j q hj => ?_, fun j k q r hjk hj hk => ?_⟩
  · obtain ⟨hji, hj⟩ := hget j q hj
    exact (h.others hi hkeep hji hj).1
  · obtain ⟨hji, hj⟩ := hget j q hj
    obtain ⟨hki, hk⟩ := hget k r hk
    change Disjoint (pagesOf s'.mem q) (pagesOf s'.mem r)
    rw [(h.others hi hkeep hji hj).2, (h.others hi hkeep hki hk).2]
    exact h.apart j k q r hjk hj hk

/-! ## What the calls do -/

theorem Resized.moves {sz : Nat} (hr : Resized trampoline s p sz s') :
    Moves trampoline s p s' { p with sz := sz } where
  valid := hr.valid
  pages := by
    rintro x (rfl | hx)
    · exact .inl (.inl rfl)
    · exact (hr.pages x hx).imp .inr id
  keep x hx hno := by
    have hno' : x ∉ owns s.mem p.pagetable := fun ho => hno (.inr ho)
    have : x ∈ A.held s'.st \ owns s'.mem p.pagetable := by
      rw [hr.rest]
      exact ⟨hx, hno'⟩
    exact ⟨this.1, hr.keep x hx hno'⟩

/-- The process `p` has written to its own pages, and its page tables are left alone. -/
structure Own (s : Ram A) (p : Proc) (s' : Ram A) : Prop where
  st : s'.st = s.st
  tables : ∀ x ∈ tables s.mem p.pagetable, s'.mem x = s.mem x
  keep : ∀ x, x ∉ pagesOf s.mem p → s'.mem x = s.mem x

theorem Own.moves (ho : Own s p s') (h : p.Valid trampoline s) : Moves trampoline s p s' p where
  valid := Space.frame h ho.tables (fun x hx => ho.st ▸ h.owns_held hx) (ho.st ▸ h.tf_held)
  pages x hx := by
    rw [pagesOf_congr ho.tables] at hx
    exact .inl hx
  keep x hx hno := ⟨ho.st ▸ hx, ho.keep x hno⟩

theorem ExecOut.moves {clean : Prop} {res : Proc × Int} (h : p.Valid trampoline s)
    (ho : ExecOut trampoline clean s p res s') : Moves trampoline s p s' res.1 := by
  cases ho with
  | failed held keep given =>
    have hmem : ∀ x ∈ tables s.mem p.pagetable, s'.mem x = s.mem x := fun x hx => keep x (h.held hx)
    refine ⟨Space.frame h hmem (fun x hx => held (h.owns_held hx)) (held h.tf_held), fun x hx => ?_,
      fun x hx _ => ⟨held hx, keep x hx⟩⟩
    rw [pagesOf_congr hmem] at hx
    exact .inl hx
  | done loads space fresh held keep =>
    refine ⟨space, ?_, fun x hx hno => ⟨?_, keep x hx (fun ht => hno (.inr (.inl ht))) fun he => hno (.inl he)⟩⟩
    · rintro x (rfl | hx)
      · exact .inl (.inl rfl)
      · exact .inr (fresh x hx)
    · rw [held]
      refine .inl ?_
      split_ifs
      · exact ⟨hx, fun ho => hno (.inr ho)⟩
      · exact hx

/-! ## The calls on the machine -/

/-- The supply of the machine. -/
def machineSource (A : PageAlloc) : Source Panic (Machine A) A.St :=
  ⟨fun m => m.ram.st, (source A).next, .couldNotAllocate⟩

theorem machine_lasts {n : Nat} : (machineSource A).Lasts n m ↔ (source A).Lasts n m.ram := Iff.rfl

theorem onRam_ends {α : Type} {x : VmM A α} {n : Nat} {Q : α → Ram A → Prop} (h : Ends (source A) x m.ram n Q) :
    Ends (machineSource A) (onRam x) m n fun a m' => m' = { m with ram := m'.ram } ∧ Q a m'.ram := by
  refine ⟨fun hl => ?_, fun hl => ?_⟩
  · obtain ⟨a, ram, hx, hq⟩ := h.1 hl
    exact ⟨a, { m with ram := ram }, by rw [onRam, hx], rfl, hq⟩
  · obtain ⟨ram, hx⟩ := h.2 hl
    exact ⟨{ m with ram := ram }, by rw [onRam, hx]; rfl⟩

theorem onRam_draws {α : Type} {x : VmM A α} {n : Nat} {Q : α → Ram A → Prop} (h : Takes x m.ram n Q) :
    Draws (machineSource A) (onRam x) m n fun a m' => m' = { m with ram := m'.ram } ∧ Q a m'.ram := by
  unfold Takes Draws at h
  unfold Draws
  rw [show drawn (machineSource A).next n ((machineSource A).supply m) =
    drawn (source A).next n ((source A).supply m.ram) from rfl]
  split at h
  · obtain ⟨a, ram, hx, ht, hq⟩ := h
    exact ⟨a, { m with ram := ram }, by rw [onRam, hx], ht, rfl, hq⟩
  · obtain ⟨ram, hx⟩ := h
    exact ⟨{ m with ram := ram }, by rw [onRam, hx]; rfl⟩

theorem onRam_ok {α : Type} {x : VmM A α} {a : α} (h : x m.ram = .ok a s') :
    onRam x m = .ok a { m with ram := s' } := by
  rw [onRam, h]

theorem byProc_some {f : Proc → SysM A Int} (hi : m.proc i = some p) : byProc i f m = f p m := by
  change (match m.proc i with | none => pure (-1) | some p => f p : SysM A Int) m = f p m
  rw [hi]

theorem byProc_none {f : Proc → SysM A Int} (hi : m.proc i = none) : byProc i f m = .ok (-1) m := by
  change (match m.proc i with | none => pure (-1) | some p => f p : SysM A Int) m = .ok (-1) m
  rw [hi]
  rfl

theorem unused_none (h : unused m.proc = some j) : m.proc j = none := by
  have := List.find?_some h
  exact Option.isNone_iff_eq_none.mp this

theorem Machine.proc_update (s : Ram A) (proc : Fin nproc → Option Proc) (i : Fin nproc) (o : Option Proc) (pid : Nat) :
    (⟨s, update proc i o, pid⟩ : Machine A).proc i = o := update_self i o proc

theorem sbrk_ends (hA : A.Exact) (h : m.Inv trampoline) (hi : m.proc i = some p) (n : Int32) :
    Ends (machineSource A) (Machine.call trampoline (.sbrk i n)) m
      (need m.ram.mem p.pagetable (npages p.sz) (npages (newSize p.sz n.toInt))) fun ret m' =>
        ret = p.sz ∧ Resized trampoline m.ram p (newSize p.sz n.toInt) m'.ram ∧
          m' = ⟨m'.ram, update m.proc i (some { p with sz := newSize p.sz n.toInt }), m.nextpid⟩ := by
  have hgrow := onRam_ends (growproc_ends hA (h.valid i p hi) (n := n.toInt) n.toInt_lt)
  unfold Ends
  rw [show Machine.call trampoline (.sbrk i n) m = sysSbrk i n.toInt p m from byProc_some hi]
  refine Ends.bind_last hgrow fun res m1 hs => ?_
  obtain ⟨hm1, rfl, hr⟩ := hs
  refine ⟨p.sz, _, rfl, rfl, hr, ?_⟩
  rw [hm1]

theorem sbrk_shrinks (hA : A.Exact) (h : m.Inv trampoline) (hi : m.proc i = some p) {n : Int32} (hn : n.toInt ≤ 0) :
    ∃ m', Machine.call trampoline (.sbrk i n) m = .ok p.sz m' ∧
      m'.proc i = some { p with sz := newSize p.sz n.toInt } := by
  have hle : newSize p.sz n.toInt ≤ p.sz := by
    unfold newSize
    rw [if_neg (Int.not_lt.mpr hn)]
    split_ifs
    · exact Nat.min_le_left _ _
    · exact le_rfl
  have hends := sbrk_ends hA h hi n
  rw [need_self _ _ (npages_mono hle)] at hends
  obtain ⟨ret, m', hcall, rfl, -, hm'⟩ := hends.1 rfl
  refine ⟨m', hcall, ?_⟩
  rw [hm']
  exact Machine.proc_update ..

theorem sysExec_ends (hA : A.Exact) (htra : trampoline % pgsize = 0) (htrl : trampoline < 2 ^ 64)
    (h : m.Inv trampoline) (hi : m.proc i = some p) (file : Option (List UInt8)) (argv : Uargv) :
    Ends (machineSource A) (Machine.call trampoline (.exec i file argv)) m (argv.cost file) fun ret m' =>
      ∃ p', ExecOut trampoline (execClean (argv.opens file) = true) m.ram p (p', ret) m'.ram ∧
        m' = ⟨m'.ram, update m.proc i (some p'), m.nextpid⟩ := by
  have hexec := onRam_ends (execArgs_ends hA htra htrl (h.valid i p hi) file argv)
  unfold Ends
  rw [show Machine.call trampoline (.exec i file argv) m = sysExec trampoline i file argv p m from byProc_some hi]
  refine Ends.bind_last hexec fun res m1 hs => ?_
  obtain ⟨hm1, ho⟩ := hs
  refine ⟨res.2, _, rfl, res.1, ho, ?_⟩
  rw [hm1]

theorem spawn_eq (make : Nat → VmM A (Option Proc)) : spawn make m = (match unused m.proc with
    | none => pure (-1)
    | some j => do
      let pid ← allocpid
      match ← onRam (make pid) with
      | none => return -1
      | some np =>
        setProc j (some np)
        return (pid : Int) : SysM A Int) m :=
  rfl

theorem spawn_draws {make : Nat → VmM A (Option Proc)} {n : Nat} {Q : Proc → Ram A → Prop} (hj : unused m.proc = some j)
    (hmake : ∀ pid, Takes (make pid) m.ram n fun o s' => ∃ np, o = some np ∧ Q np s') :
    Draws (machineSource A) (spawn make) m n fun ret m' => ∃ np, Q np m'.ram ∧ ret = m.nextpid ∧
      m' = ⟨m'.ram, update m.proc j (some np), m.nextpid + 1⟩ := by
  have hrun : spawn make m = (onRam (make m.nextpid) >>= fun o =>
      match o with
      | none => pure (-1)
      | some np => do
        setProc j (some np)
        return (m.nextpid : Int) : SysM A Int) { m with nextpid := m.nextpid + 1 } := by
    rw [spawn_eq, hj]
    rfl
  have hdraws := onRam_draws (m := { m with nextpid := m.nextpid + 1 }) (hmake m.nextpid)
  unfold Draws
  rw [hrun]
  refine Draws.bind (m := 0) hdraws fun o m1 hs => ?_
  obtain ⟨hm1, np, rfl, hq⟩ := hs
  refine .of_ok rfl rfl ⟨np, hq, rfl, ?_⟩
  rw [hm1]

theorem spawn_full {make : Nat → VmM A (Option Proc)} (hj : unused m.proc = none) : spawn make m = .ok (-1) m := by
  rw [spawn_eq, hj]
  rfl

theorem fork_draws (htra : trampoline % pgsize = 0) (htrl : trampoline < 2 ^ 64) (h : m.Inv trampoline)
    (hi : m.proc i = some p) (hj : unused m.proc = some j) :
    Draws (machineSource A) (Machine.call trampoline (.fork i)) m (procCost (npages p.sz)) fun ret m' =>
      ∃ np, (np.sz = p.sz ∧ np.ofile = p.ofile ∧ Born trampoline m.ram np m'.ram ∧
        ∀ v < npages p.sz, m'.ram.mem (Space.page m'.ram.mem np.pagetable v) =
          m.ram.mem (Space.page m.ram.mem p.pagetable v)) ∧ ret = m.nextpid ∧
        m' = ⟨m'.ram, update m.proc j (some np), m.nextpid + 1⟩ := by
  unfold Draws
  rw [show Machine.call trampoline (.fork i) m = spawn (forkInto trampoline p) m from byProc_some hi]
  exact spawn_draws hj fun pid => forkInto_takes (h.valid i p hi) htra htrl pid

theorem fork_full (hi : m.proc i = some p) (hj : unused m.proc = none) :
    Machine.call trampoline (.fork i) m = .ok (-1) m :=
  (byProc_some (f := fun p => spawn (forkInto trampoline p)) hi).trans (spawn_full hj)

theorem reap_ok (hA : A.Exact) (h : m.Inv trampoline) (hi : m.proc i = some p) :
    ∃ s', Machine.call trampoline (.reap i) m = .ok 0 ⟨s', update m.proc i none, m.nextpid⟩ ∧
      A.held s'.st = A.held m.ram.st \ (if 0 < p.sz then pagesOf m.ram.mem p else {p.tf}) ∧
      ∀ q, q ∉ tables m.ram.mem p.pagetable → s'.mem q = m.ram.mem q := by
  obtain ⟨s', hrun, hheld, hmem⟩ := freeproc_ok hA (h.valid i p hi)
  refine ⟨s', ?_, hheld, hmem⟩
  rw [show Machine.call trampoline (.reap i) m = reap i p m from byProc_some hi]
  exact bind_of_ok (onRam_ok hrun)

theorem write_ok (h : m.Inv trampoline) (hi : m.proc i = some p) (va : Nat) (bytes : List UInt8) :
    ∃ ret s', Machine.call trampoline (.write i va bytes) m = .ok ret { m with ram := s' } ∧ Own m.ram p s' := by
  obtain ⟨ret, s', hrun, ht⟩ := copyout_ok (h.valid i p hi) va bytes
  refine ⟨ret, s', ?_, ht.st, Space.touch_tables (h.valid i p hi) ht, fun x hx => ?_⟩
  · exact (byProc_some (f := fun p => onRam (copyout p.pagetable va bytes)) hi).trans (onRam_ok hrun)
  · exact ht.keep x fun hu => hx (.inr (.inr hu))

theorem trap_ok (h : m.Inv trampoline) (hi : m.proc i = some p) (regs : Page) :
    ∃ s', Machine.call trampoline (.trap i regs) m = .ok 0 { m with ram := s' } ∧ Own m.ram p s' := by
  have hp := h.valid i p hi
  refine ⟨⟨update m.ram.mem p.tf regs, m.ram.st⟩, ?_, rfl, fun x hx => ?_, fun x hx => ?_⟩
  · exact byProc_some (f := fun p => do onRam (setPage p.tf regs); return 0) hi
  · refine update_of_ne ?_ _ _
    rintro rfl
    exact hp.tf_apart hx
  · refine update_of_ne ?_ _ _
    rintro rfl
    exact hx (.inl rfl)

/-- The pages a call takes from the allocator. -/
noncomputable def Machine.cost (m : Machine A) : Call → Nat
  | .userinit => (unused m.proc).elim 0 fun _ => procCost 1
  | .sbrk i n => (m.proc i).elim 0 fun p =>
    need m.ram.mem p.pagetable (npages p.sz) (npages (newSize p.sz n.toInt))
  | .fork i => (m.proc i).elim 0 fun p => (unused m.proc).elim 0 fun _ => procCost (npages p.sz)
  | .exec i file argv => (m.proc i).elim 0 fun _ => argv.cost file
  | .reap _ => 0
  | .write _ _ _ => 0
  | .trap _ _ => 0

theorem update_self_eq (hi : m.proc i = some p) : update m.proc i (some p) = m.proc := by
  rw [← hi, update_eq_self]

/-- **Every call** keeps the invariant, and panics exactly if the allocator does not have the pages for it. -/
theorem Machine.Inv.call_ends (hA : A.Exact) (htra : trampoline % pgsize = 0) (htrl : trampoline < 2 ^ 64)
    (h : m.Inv trampoline) (c : Call) :
    Ends (machineSource A) (Machine.call trampoline c) m (m.cost c) fun _ m' => m'.Inv trampoline := by
  have hnobody : ∀ {i : Fin nproc} {f : Proc → SysM A Int}, m.proc i = none →
      Ends (machineSource A) (byProc i f) m 0 fun _ m' => m'.Inv trampoline := fun hi => .of_ok (byProc_none hi) h
  cases c with
  | userinit =>
    dsimp only [Machine.cost]
    cases hj : unused m.proc with
    | none => exact .of_ok (spawn_full hj) h
    | some j =>
      refine (spawn_draws hj fun pid => userinit_takes m.ram htra htrl pid).ends.mono fun ret m' hs => ?_
      obtain ⟨np, ⟨-, hb⟩, -, hm'⟩ := hs
      rw [hm']
      exact h.born (unused_none hj) hb _
  | sbrk i n =>
    dsimp only [Machine.cost]
    cases hi : m.proc i with
    | none => exact hnobody hi
    | some p =>
      refine (sbrk_ends hA h hi n).mono fun ret m' hs => ?_
      obtain ⟨-, hr, hm'⟩ := hs
      rw [hm']
      exact h.moves hi hr.moves _
  | fork i =>
    dsimp only [Machine.cost]
    cases hi : m.proc i with
    | none => exact hnobody hi
    | some p =>
      cases hj : unused m.proc with
      | none => exact .of_ok (fork_full hi hj) h
      | some j =>
        refine (fork_draws htra htrl h hi hj).ends.mono fun ret m' hs => ?_
        obtain ⟨np, ⟨-, -, hb, -⟩, -, hm'⟩ := hs
        rw [hm']
        exact h.born (unused_none hj) hb _
  | exec i file argv =>
    dsimp only [Machine.cost]
    cases hi : m.proc i with
    | none => exact hnobody hi
    | some p =>
      refine (sysExec_ends hA htra htrl h hi file argv).mono fun ret m' hs => ?_
      obtain ⟨p', ho, hm'⟩ := hs
      rw [hm']
      exact h.moves hi (ho.moves (h.valid i p hi)) _
  | reap i =>
    cases hi : m.proc i with
    | none => exact hnobody hi
    | some p =>
      obtain ⟨s', hrun, hheld, hmem⟩ := reap_ok hA h hi
      refine .of_ok hrun (h.freed hi (fun x hx hno => ⟨?_, hmem x fun ht => hno (.inr (.inl ht))⟩) _)
      rw [hheld]
      refine ⟨hx, ?_⟩
      split_ifs
      · exact hno
      · rintro rfl
        exact hno (.inl rfl)
  | write i va bytes =>
    cases hi : m.proc i with
    | none => exact hnobody hi
    | some p =>
      obtain ⟨ret, s', hrun, hm⟩ := write_ok h hi va bytes
      have hinv := h.moves hi (hm.moves (h.valid i p hi)) m.nextpid
      rw [update_self_eq hi] at hinv
      exact .of_ok hrun hinv
  | trap i regs =>
    cases hi : m.proc i with
    | none => exact hnobody hi
    | some p =>
      obtain ⟨s', hrun, hm⟩ := trap_ok h hi regs
      have hinv := h.moves hi (hm.moves (h.valid i p hi)) m.nextpid
      rw [update_self_eq hi] at hinv
      exact .of_ok hrun hinv

end

end InternetOs.Vm
