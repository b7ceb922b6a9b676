import InternetOs.Mem.Buddy

/-!
# The kernel's allocator (`kernel/lib/buddy.c`, `kernel/lib/ufkalloc.c`)

The two allocators over one memory.  `ufkalloc` takes requests of a page or more from 512 KiB
pages; smaller ones come from 4 KiB pages, two of which are made of an 8 KiB block when
`buddy.c` has run out.  Such a block is marked by its bit of `split[0]`, which `ufkfree` reads
to tell whose a pointer is.

A call that panics is `none`.  The counter `allocated`, which nothing reads, is left out.
-/

namespace InternetOs.Mem

/-- Where the linker has put the list heads of the two tables, and the end of the kernel. -/
structure Layout where
  bdFreelist : Nat
  ufkFreelist : Nat
  kend : Nat
  bd_kern : kernbase ≤ bdFreelist
  ufk_kern : kernbase ≤ ufkFreelist
  bd_end : bdFreelist + nodeSize * 8 ≤ kend
  ufk_end : ufkFreelist + nodeSize * 7 ≤ kend
  apart : bdFreelist + nodeSize * 8 ≤ ufkFreelist ∨ ufkFreelist + nodeSize * 7 ≤ bdFreelist

namespace Layout

variable (l : Layout)

/-- The constants of `buddy.c`. -/
def bd : Buddy where
  leaf := 32
  nsizes := 8
  npages := 128
  freelist k := l.bdFreelist + nodeSize * k
  stopAtNull := false
  leaf_pow := ⟨5, by decide⟩
  nsizes_pos := by decide

/-- The constants of `ufkalloc.c`. -/
def ufk : Buddy where
  leaf := 8 * 1024
  nsizes := 7
  npages := 1024
  freelist k := l.ufkFreelist + nodeSize * k
  stopAtNull := true
  leaf_pow := ⟨13, by decide⟩
  nsizes_pos := by decide

end Layout

/-- The memory and the tables `bd_table` and `ufk_table`. -/
structure Heap where
  mem : Links
  bd : Nat → Pagelist
  ufk : Nat → Pagelist

namespace Heap

def bdArena (h : Heap) : Arena := ⟨h.mem, h.bd⟩

def ufkArena (h : Heap) : Arena := ⟨h.mem, h.ufk⟩

def setBd (h : Heap) (a : Arena) : Heap := { h with mem := a.mem, bd := a.plist }

def setUfk (h : Heap) (a : Arena) : Heap := { h with mem := a.mem, ufk := a.plist }

end Heap

namespace Layout

variable (l : Layout)

/-! ## `buddy.c` -/

def bdInit (h : Heap) : Heap := h.setBd (l.bd.init h.mem)

def bdAddpage (p : Nat) (h : Heap) : Option Heap := (l.bd.addPage p h.bdArena).map h.setBd

def bdFree (p : Nat) (h : Heap) : Option Heap := (l.bd.free p h.bdArena).map h.setBd

def bdAlloc (nbytes : Int) (h : Heap) : Option (Nat × Heap) :=
  (l.bd.alloc nbytes h.bdArena).map fun r => (r.1, h.setBd r.2)

/-! ## `ufkalloc.c` -/

/-- `BIGPGROUNDUP(sz)` -/
def bigpgRoundup (sz : Nat) : Nat := (sz + l.ufk.pageSize - 1) / l.ufk.pageSize * l.ufk.pageSize

def tableInitLoop (paEnd : Nat) : Nat → Nat → Nat → Arena → Option Arena
  | 0, _, _, a => some a
  | fuel + 1, i, p, a =>
    if p + l.ufk.pageSize ≤ paEnd then do
      let a ← l.ufk.putPage p i a
      tableInitLoop paEnd fuel (i + 1) (p + l.ufk.pageSize) a
    else some a

def tableInit (paStart paEnd : Nat) (m : Links) : Option Arena :=
  l.tableInitLoop paEnd (paEnd / l.ufk.pageSize + 1) 0 (l.bigpgRoundup paStart) (l.ufk.init m)

/-- `ufkinit`, on a memory of which nothing is known. -/
def ufkinit (m : Links) : Option Heap :=
  (l.tableInit l.kend phystop m).map fun a => l.bdInit ⟨a.mem, fun _ => Pagelist.zero, a.plist⟩

/-- `_ufkalloc` -/
def ufkallocCore (nbytes : Int) (h : Heap) : Option (Nat × Heap) :=
  (l.ufk.alloc nbytes h.ufkArena).map fun r => (r.1, h.setUfk r.2)

/-- `_ufkfree` -/
def ufkfreeCore (p pindex : Nat) (h : Heap) : Option Heap :=
  (l.ufk.freeAt p pindex h.ufkArena).map h.setUfk

/-- `ufkalloc` for a page or more. -/
def ufkallocPages (nbytes : Int) (h : Heap) : Option (Nat × Heap) := do
  let (p, h) ← l.ufkallocCore nbytes h
  if p = 0 then none else some (p, h)

/-- `bit_set` on `split[0]` for the leaf at `p`. -/
def mark (p pindex : Nat) (a : Arena) : Arena :=
  a.setSplit pindex 0 (l.ufk.blkIndex 0 p (a.plist pindex).pageaddr) true

/-- The bit that `ufkfree` tests. -/
def marked (p pindex : Nat) (plist : Nat → Pagelist) : Bool :=
  (plist pindex).split 0 (l.ufk.blkIndex 0 p (plist pindex).pageaddr)

/-- An 8 KiB block becomes two pages for `buddy.c`. -/
def carve (h : Heap) : Option Heap := do
  let (p, h) ← l.ufkallocPages pgsize h
  let pindex ← l.ufk.getPageIndex h.ufk p
  let h := h.setUfk (l.mark p pindex h.ufkArena)
  let h ← l.bdAddpage p h
  l.bdAddpage (p + pgsize) h

def ufkalloc (nbytes : Int) (h : Heap) : Option (Nat × Heap) :=
  if nbytes < pgsize then do
    let (p, h) ← l.bdAlloc nbytes h
    if p = 0 then do
      let h ← l.carve h
      let (p, h) ← l.bdAlloc nbytes h
      if p = 0 then none else some (p, h)
    else some (p, h)
  else l.ufkallocPages nbytes h

def ufkfree (p : Nat) (h : Heap) : Option Heap := do
  let pindex ← l.ufk.getPageIndex h.ufk p
  if l.marked p pindex h.ufk then l.bdFree p h else l.ufkfreeCore p pindex h

end Layout

end InternetOs.Mem
