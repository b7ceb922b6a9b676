import InternetOs.Lib.Draws
import InternetOs.Lib.Trie
import InternetOs.Mem.Buddy

/-!
# Page tables (`kernel/mem/vm.c`, `arch/riscv.h`)

The functions of `vm.c` over the physical memory and the page allocator.  Addresses and page-table
entries are 64-bit numbers; a page of memory has 512 words of 64 bits, and a page table is such a page.
Of the allocator the functions need `ufkalloc(PGSIZE)`, which hands out a page with whatever is in
it and panics when there is none left, and `ufkfree`.

Left out: the kernel's own table (`kvminit`, `kvmmap`, `kvmpa`), which is built once when booting, and `copyin` and
`copyinstr`, which only read.
-/

namespace InternetOs.Vm

open Mem (pgsize kernbase phystop)

/-- The words of a page. -/
abbrev Page : Type := Fin 512 → Nat

/-- The allocator, for requests of one page.  `held` is what it has given out and not got back. -/
structure PageAlloc where
  St : Type
  /-- `ufkalloc(PGSIZE)`: a page, with the words that are in it; `none` is the panic. -/
  ufkalloc : St → Option ((Nat × Page) × St)
  /-- `ufkfree`; `none` is a panic, or a pointer the allocator has not given out. -/
  ufkfree : Nat → St → Option St
  held : St → Set Nat
  alloc_fresh : ∀ {st st' p w}, ufkalloc st = some ((p, w), st') → p ∉ held st
  alloc_held : ∀ {st st' p w}, ufkalloc st = some ((p, w), st') → held st' = insert p (held st)
  alloc_page : ∀ {st st' p w}, ufkalloc st = some ((p, w), st') → 0 < p ∧ p % pgsize = 0 ∧ p < 2 ^ 64

/-- The physical memory, by page address, and the allocator. -/
structure Ram (A : PageAlloc) where
  mem : Nat → Page
  st : A.St

inductive Panic
  /-- `walk` -/
  | walk
  /-- `remap` -/
  | remap
  /-- `uvmunmap: walk` -/
  | unmapWalk
  /-- `uvmunmap: not mapped` -/
  | notMapped
  /-- `uvmunmap: not a leaf` -/
  | notLeaf
  /-- `uvmcreate: out of memory` -/
  | uvmcreate
  /-- `inituvm: more than a page` -/
  | inituvm
  /-- `freewalk: leaf` -/
  | leaf
  /-- `freewalk` calls itself deeper than a table has levels. -/
  | deep
  /-- `uvmcopy: pte should exist` -/
  | pteShouldExist
  /-- `uvmcopy: page not present` -/
  | pageNotPresent
  /-- `uvmclear` -/
  | uvmclear
  /-- `loadseg: va must be page aligned` -/
  | loadsegAligned
  /-- `loadseg: address should exist` -/
  | loadsegExist
  /-- `[ufkalloc] could not allocate` -/
  | couldNotAllocate
  /-- `sys_exec kalloc` -/
  | sysExec
  /-- `ufkfree` is called for a page that is not held. -/
  | ufkfree
  deriving DecidableEq, Repr

/-! ## `riscv.h` -/

def wrap (x : Nat) : Nat := x % 2 ^ 64

def maxva : Nat := 2 ^ 38

def trampolineVa : Nat := maxva - pgsize

def trapframeVa : Nat := trampolineVa - pgsize

/-- `PGROUNDUP(sz)` -/
def pgroundup (sz : Nat) : Nat := wrap (sz + pgsize - 1) / pgsize * pgsize

/-- `PGROUNDDOWN(a)` -/
def pgrounddown (a : Nat) : Nat := a / pgsize * pgsize

def pteV : Nat := 1

def pteR : Nat := 2

def pteW : Nat := 4

def pteX : Nat := 8

def pteU : Nat := 16

/-- `PA2PTE(pa)` -/
def pa2pte (pa : Nat) : Nat := (pa >>> 12) <<< 10

/-- `PTE2PA(pte)` -/
def pte2pa (pte : Nat) : Nat := wrap ((pte >>> 10) <<< 12)

/-- `PTE_FLAGS(pte)` -/
def pteFlags (pte : Nat) : Nat := pte &&& 0x3ff

/-- `PX(level, va)` -/
def px (level va : Nat) : Fin 512 := ⟨va >>> (12 + 9 * level) % 512, Nat.mod_lt _ (by decide)⟩

section
variable {A : PageAlloc}

abbrev VmM (A : PageAlloc) : Type → Type := EStateM Panic (Ram A)

/-! ## Memory -/

/-- A pointer to a page-table entry. -/
abbrev Pte : Type := Nat × Fin 512

def load (pte : Pte) : VmM A Nat := do
  return (← get).mem pte.1 pte.2

def store (pte : Pte) (w : Nat) : VmM A Unit :=
  modify fun s => { s with mem := Trie.put s.mem pte.1 pte.2 w }

def setPage (p : Nat) (w : Page) : VmM A Unit :=
  modify fun s => { s with mem := Function.update s.mem p w }

/-- `memset(p, 0, PGSIZE)` -/
def memset (p : Nat) : VmM A Unit := setPage p fun _ => 0

/-- `memmove(dst, src, PGSIZE)` of whole pages. -/
def memmove (dst src : Nat) : VmM A Unit := do
  setPage dst ((← get).mem src)

def ufkalloc : VmM A Nat := fun s =>
  match A.ufkalloc s.st with
  | some ((p, w), st) => .ok p ⟨Function.update s.mem p w, st⟩
  | none => .error .couldNotAllocate s

def ufkfree (p : Nat) : VmM A Unit := fun s =>
  match A.ufkfree p s.st with
  | some st => .ok () { s with st := st }
  | none => .error .ufkfree s

/-! ## `walk` -/

/-- One level of `walk`: the table below `pagetable`. -/
def walkLevel (alloc : Bool) (va level pagetable : Nat) : VmM A (Option Nat) := do
  let pte : Pte := (pagetable, px level va)
  let w ← load pte
  if w.testBit 0 then return some (pte2pa w)
  else if !alloc then return none
  else
    let q ← ufkalloc
    if q = 0 then return none
    else
      memset q
      store pte (pa2pte q ||| pteV)
      return some q

def walk (pagetable va : Nat) (alloc : Bool) : VmM A (Option Pte) := do
  if maxva ≤ va then throw .walk
  else
    match ← walkLevel alloc va 2 pagetable with
    | none => return none
    | some pagetable =>
      match ← walkLevel alloc va 1 pagetable with
      | none => return none
      | some pagetable => return some (pagetable, px 0 va)

def walkaddr (pagetable va : Nat) : VmM A Nat := do
  if maxva ≤ va then return 0
  else
    match ← walk pagetable va false with
    | none => return 0
    | some pte =>
      let w ← load pte
      if !w.testBit 0 then return 0
      else if !w.testBit 4 then return 0
      else return pte2pa w

/-! ## `mappages` and `uvmunmap` -/

/-- The last page of `[va, va + size)`: `PGROUNDDOWN(va + size - 1)`. -/
def lastPage (va size : Nat) : Nat := pgrounddown (wrap (va + size + (2 ^ 64 - 1)))

/-- The loops over pages stop at `last`; one that misses it comes to `MAXVA`, where `walk` panics. -/
def pageFuel : Nat := maxva / pgsize + 1

def mapLoop (pagetable last perm : Nat) : Nat → Nat → Nat → VmM A Int
  | 0, _, _ => throw .walk
  | fuel + 1, a, pa => do
    match ← walk pagetable a true with
    | none => return -1
    | some pte =>
      let w ← load pte
      if w.testBit 0 then throw .remap
      else
        store pte (pa2pte pa ||| perm ||| pteV)
        if a = last then return 0
        else mapLoop pagetable last perm fuel (wrap (a + pgsize)) (wrap (pa + pgsize))

def mappages (pagetable va size pa perm : Nat) : VmM A Int :=
  mapLoop pagetable (lastPage va size) perm pageFuel (pgrounddown va) pa

def unmapLoop (pagetable last : Nat) (doFree : Bool) : Nat → Nat → VmM A Unit
  | 0, _ => throw .walk
  | fuel + 1, a => do
    match ← walk pagetable a false with
    | none => throw .unmapWalk
    | some pte =>
      let w ← load pte
      if !w.testBit 0 then throw .notMapped
      else if pteFlags w = pteV then throw .notLeaf
      else
        if doFree then ufkfree (pte2pa w)
        store pte 0
        if a = last then return ()
        else unmapLoop pagetable last doFree fuel (wrap (a + pgsize))

def uvmunmap (pagetable va size : Nat) (doFree : Bool) : VmM A Unit :=
  unmapLoop pagetable (lastPage va size) doFree pageFuel (pgrounddown va)

/-! ## User address spaces -/

def uvmcreate : VmM A Nat := do
  let pagetable ← ufkalloc
  if pagetable = 0 then throw .uvmcreate
  else
    memset pagetable
    return pagetable

def uvmdealloc (pagetable oldsz newsz : Nat) : VmM A Nat := do
  if oldsz ≤ newsz then return oldsz
  else
    let newup := pgroundup newsz
    if newup < pgroundup oldsz then uvmunmap pagetable newup (oldsz - newup) true
    return newsz

/-- `PTE_W|PTE_X|PTE_R|PTE_U` -/
def userPerm : Nat := pteW ||| pteX ||| pteR ||| pteU

def growLoop (pagetable oldsz newsz : Nat) : Nat → Nat → VmM A Nat
  | 0, _ => return newsz
  | fuel + 1, a => do
    if a < newsz then
      let mem ← ufkalloc
      if mem = 0 then
        let _ ← uvmdealloc pagetable a oldsz
        return 0
      else
        memset mem
        let r ← mappages pagetable a pgsize mem userPerm
        if r ≠ 0 then
          ufkfree mem
          let _ ← uvmdealloc pagetable a oldsz
          return 0
        else growLoop pagetable oldsz newsz fuel (wrap (a + pgsize))
    else return newsz

def uvmalloc (pagetable oldsz newsz : Nat) : VmM A Nat := do
  if newsz < oldsz then return oldsz
  else growLoop pagetable (pgroundup oldsz) newsz (newsz / pgsize + 1) (pgroundup oldsz)

/-- The recursion of `freewalk`; `depth` bounds it, and a table has three levels. -/
def freewalkTo : Nat → Nat → VmM A Unit
  | 0, _ => throw .deep
  | depth + 1, pagetable => do
    (List.finRange 512).forM fun i => do
      let w ← load (pagetable, i)
      if w.testBit 0 && w &&& (pteR ||| pteW ||| pteX) == 0 then
        freewalkTo depth (pte2pa w)
        store (pagetable, i) 0
      else if w.testBit 0 then throw .leaf
      else return ()
    ufkfree pagetable

def freewalk (pagetable : Nat) : VmM A Unit := freewalkTo 3 pagetable

def uvmfree (pagetable sz : Nat) : VmM A Unit := do
  uvmunmap pagetable 0 sz true
  freewalk pagetable

def copyLoop (old new sz : Nat) : Nat → Nat → VmM A Int
  | 0, _ => return 0
  | fuel + 1, i => do
    if i < sz then
      match ← walk old i false with
      | none => throw .pteShouldExist
      | some pte =>
        let w ← load pte
        if !w.testBit 0 then throw .pageNotPresent
        else
          let pa := pte2pa w
          let flags := pteFlags w
          let mem ← ufkalloc
          if mem = 0 then
            uvmunmap new 0 i true
            return -1
          else
            memmove mem pa
            let r ← mappages new i pgsize mem flags
            if r ≠ 0 then
              ufkfree mem
              uvmunmap new 0 i true
              return -1
            else copyLoop old new sz fuel (wrap (i + pgsize))
    else return 0

def uvmcopy (old new sz : Nat) : VmM A Int := copyLoop old new sz (sz / pgsize + 1) 0

def uvmclear (pagetable va : Nat) : VmM A Unit := do
  match ← walk pagetable va false with
  | none => throw .uvmclear
  | some pte =>
    let w ← load pte
    store pte (w &&& (2 ^ 64 - 1 - pteU))

/-! ## Bytes -/

/-- The byte `i` of the word `w` becomes `b`. -/
def setByte (w i : Nat) (b : UInt8) : Nat := w - w / 256 ^ i % 256 * 256 ^ i + b.toNat * 256 ^ i

def putByte (w : Page) (off : Nat) (b : UInt8) : Page :=
  let i : Fin 512 := ⟨off / 8 % 512, Nat.mod_lt _ (by decide)⟩
  Function.update w i (setByte (w i) (off % 8) b)

/-- Bytes copied into a page from the offset `off` on. -/
def putBytes (w : Page) : Nat → List UInt8 → Page
  | _, [] => w
  | off, b :: bs => putBytes (putByte w off b) (off + 1) bs

/-- `memmove(pa + off, src, …)` inside the page `pa`. -/
def copyIn (pa off : Nat) (src : List UInt8) : VmM A Unit := do
  setPage pa (putBytes ((← get).mem pa) off src)

def uvminit (pagetable : Nat) (src : List UInt8) : VmM A Unit := do
  if pgsize ≤ src.length then throw .inituvm
  else
    let mem ← ufkalloc
    memset mem
    let _ ← mappages pagetable 0 pgsize mem userPerm
    copyIn mem 0 src

/-! ## `copyout` -/

def copyoutLoop (pagetable : Nat) : Nat → Nat → List UInt8 → VmM A Int
  | 0, _, _ => return 0
  | fuel + 1, dstva, src => do
    if src.length > 0 then
      let va0 := pgrounddown dstva
      let pa0 ← walkaddr pagetable va0
      if pa0 = 0 then return -1
      else
        let n := min (pgsize - (dstva - va0)) src.length
        copyIn pa0 (dstva - va0) (src.take n)
        copyoutLoop pagetable fuel (wrap (va0 + pgsize)) (src.drop n)
    else return 0

def copyout (pagetable dstva : Nat) (src : List UInt8) : VmM A Int :=
  copyoutLoop pagetable (src.length + 1) dstva src

end

end InternetOs.Vm
