import InternetOs.Lib.BuddySystem

/-!
# The buddy allocators

`list.c` and the algorithm that `buddy.c` (blocks of 32 bytes to 4 KiB) and `ufkalloc.c`
(blocks of 8 KiB to 512 KiB) both contain; `Buddy` holds what differs between them.  A free
block carries its list node in its first bytes, so the lists live in `Links`, which the owners
of live blocks write to as well.  A call that panics or does not return is `none`.
-/

namespace InternetOs.Mem

/-- `KERNBASE` -/
def kernbase : Nat := 0x80000000

/-- `PHYSTOP` -/
def phystop : Nat := kernbase + 128 * 1024 * 1024

/-- `PGSIZE` -/
def pgsize : Nat := 4096

/-- `struct list`. -/
@[ext] structure Node where
  prev : Nat
  next : Nat
  deriving DecidableEq

/-- The node stored at each address. -/
abbrev Links := Nat → Node

def nodeSize : Nat := 16

namespace Links

def setPrev (m : Links) (e v : Nat) : Links := Function.update m e { m e with prev := v }

def setNext (m : Links) (e v : Nat) : Links := Function.update m e { m e with next := v }

end Links

def lstInit (lst : Nat) (m : Links) : Links := (m.setNext lst lst).setPrev lst lst

def lstEmpty (lst : Nat) (m : Links) : Bool := (m lst).next == lst

def lstRemove (e : Nat) (m : Links) : Option Links :=
  if e = 0 then none
  else if (m e).prev = 0 then none
  else if (m e).next = 0 then none
  else
    let m₁ := m.setNext (m e).prev (m e).next
    some (m₁.setPrev (m₁ e).next (m₁ e).prev)

def lstPop (lst : Nat) (m : Links) : Option (Nat × Links) :=
  let p := (m lst).next
  if p = 0 then some (0, m) else (lstRemove p m).map fun m' => (p, m')

def lstPush (lst p : Nat) (m : Links) : Option Links :=
  if lst = 0 then none
  else if p = 0 then none
  else
    let m₁ := m.setNext p (m lst).next
    let m₂ := m₁.setPrev p lst
    let m₃ := m₂.setPrev (m₂ lst).next p
    some (m₃.setNext lst p)

/-- `struct pagelist`; a bit map is a function of the order and the index. -/
structure Pagelist where
  pageaddr : Nat
  alloc : Nat → Nat → Bool
  split : Nat → Nat → Bool

/-- What `memset` leaves of an entry. -/
def Pagelist.zero : Pagelist := ⟨0, fun _ _ => false, fun _ _ => false⟩

/-- The memory and the page table of one allocator. -/
structure Arena where
  mem : Links
  plist : Nat → Pagelist

namespace Arena

def setPage (a : Arena) (pindex : Nat) (pg : Pagelist) : Arena :=
  { a with plist := Function.update a.plist pindex pg }

/-- `bit_set` and `bit_clear` on `alloc[k]`. -/
def setAlloc (a : Arena) (pindex k i : Nat) (v : Bool) : Arena :=
  a.setPage pindex { a.plist pindex with
    alloc := fun k' i' => if k' = k ∧ i' = i then v else (a.plist pindex).alloc k' i' }

/-- `bit_set` and `bit_clear` on `split[k]`. -/
def setSplit (a : Arena) (pindex k i : Nat) (v : Bool) : Arena :=
  a.setPage pindex { a.plist pindex with
    split := fun k' i' => if k' = k ∧ i' = i then v else (a.plist pindex).split k' i' }

end Arena

/-- The constants of one allocator and the addresses of its list heads. -/
structure Buddy where
  /-- `LEAF_SIZE` -/
  leaf : Nat
  /-- `NSIZES` -/
  nsizes : Nat
  /-- the length of `plist` -/
  npages : Nat
  /-- `&freelist[k]` -/
  freelist : Nat → Nat
  /-- whether the search for a page ends at the first unused entry -/
  stopAtNull : Bool
  leaf_pow : ∃ m, leaf = 2 ^ m ∧ 4 ≤ m ∧ m ≤ 30
  nsizes_pos : 0 < nsizes

namespace Buddy

variable (c : Buddy)

/-- `MAX_SIZE` -/
def maxSize : Nat := c.nsizes - 1

/-- `BLK_SIZE(k)` -/
def blkSize (k : Nat) : Nat := 2 ^ k * c.leaf

/-- The size of a page: `HEAP_SIZE`, `BIGPG_SIZE`. -/
def pageSize : Nat := c.blkSize c.maxSize

def firstkLoop (n : Int) : Nat → Nat → Int → Option Nat
  | 0, _, _ => none
  | fuel + 1, k, size =>
    if size < n then firstkLoop n fuel (k + 1) (Int.bmod (size * 2) (2 ^ 32)) else some k

/-- The order for `n` bytes.  After 32 doublings the `int size` is 0 for good, so a loop that is
then still running does not end. -/
def firstk (n : Int) : Option Nat := firstkLoop n 33 0 c.leaf

def getPageIndexLoop (plist : Nat → Pagelist) (p : Nat) : Nat → Nat → Option Nat
  | 0, _ => none
  | fuel + 1, i =>
    if c.stopAtNull ∧ (plist i).pageaddr = 0 then none
    else
      -- `int offset` keeps 32 bits of the difference
      let offset := Int.bmod ((p : Int) - ((plist i).pageaddr : Int)) (2 ^ 32)
      if 0 ≤ offset ∧ offset < (c.pageSize : Int) then some i
      else getPageIndexLoop plist p fuel (i + 1)

/-- The page that contains `p`; `none` for the result `-1`. -/
def getPageIndex (plist : Nat → Pagelist) (p : Nat) : Option Nat :=
  c.getPageIndexLoop plist p c.npages 0

def blkIndex (k p base : Nat) : Nat := (p - base) / c.blkSize k

def addr (k bi base : Nat) : Nat := base + bi * c.blkSize k

/-- In its last round the loop reads past `split`, where it finds whatever follows in memory;
the result is the largest order in either case. -/
def sizeIndexLoop (pg : Pagelist) (p : Nat) : Nat → Nat → Nat
  | 0, k => k - 1
  | fuel + 1, k =>
    if pg.split (k + 1) (c.blkIndex (k + 1) p pg.pageaddr) then k
    else sizeIndexLoop pg p fuel (k + 1)

/-- The order of the block at `p`: `blk_size`, `blksize_index`. -/
def sizeIndex (pg : Pagelist) (p : Nat) : Nat := c.sizeIndexLoop pg p c.nsizes 0

/-- The smallest order from `k` on with a free block. -/
def firstFree (m : Links) : Nat → Nat → Nat
  | 0, k => k
  | fuel + 1, k => if lstEmpty (c.freelist k) m then firstFree m fuel (k + 1) else k

/-- The second loop of `bd_alloc`: upper halves are freed until the block has order `fk`. -/
def splitDown (pindex fk p : Nat) : Nat → Arena → Option Arena
  | 0, a => some a
  | k + 1, a =>
    if fk < k + 1 then do
      let pbase := (a.plist pindex).pageaddr
      let q := p + c.blkSize k
      let a := a.setSplit pindex (k + 1) (c.blkIndex (k + 1) p pbase) true
      let a := a.setAlloc pindex k (c.blkIndex k p pbase) true
      let m ← lstPush (c.freelist k) q a.mem
      splitDown pindex fk p k { a with mem := m }
    else some a

/-- `bd_alloc` and `_ufkalloc`; the result 0 is a null pointer. -/
def alloc (nbytes : Int) (a : Arena) : Option (Nat × Arena) := do
  let fk ← c.firstk nbytes
  let k := c.firstFree a.mem (c.nsizes - fk) fk
  if c.nsizes ≤ k then some (0, a)
  else do
    let (p, m) ← lstPop (c.freelist k) a.mem
    if p = 0 then none
    else do
      let pindex ← c.getPageIndex a.plist p
      let pbase := (a.plist pindex).pageaddr
      let a := { a with mem := m }.setAlloc pindex k (c.blkIndex k p pbase) true
      let a ← c.splitDown pindex fk p k a
      some (p, a)

/-- The loop of `bd_free`: the block at `p` absorbs its buddies. -/
def mergeUp (pindex : Nat) : Nat → Nat → Nat → Arena → Option (Nat × Nat × Arena)
  | 0, k, p, a => some (k, p, a)
  | fuel + 1, k, p, a =>
    let pbase := (a.plist pindex).pageaddr
    let bi := c.blkIndex k p pbase
    let a := a.setAlloc pindex k bi false
    let buddy := buddyOf bi
    if (a.plist pindex).alloc k buddy then some (k, p, a)
    else do
      let q := c.addr k buddy pbase
      let m ← lstRemove q a.mem
      let p := if buddy % 2 = 0 then q else p
      let a := { a with mem := m }.setAlloc pindex (k + 1) (c.blkIndex (k + 1) p pbase) false
      let a := a.setSplit pindex (k + 1) (c.blkIndex (k + 1) p pbase) false
      mergeUp pindex fuel (k + 1) p a

/-- `_ufkfree`, and `bd_free` once it has found the page. -/
def freeAt (p pindex : Nat) (a : Arena) : Option Arena := do
  let k := c.sizeIndex (a.plist pindex) p
  let (k, p, a) ← c.mergeUp pindex (c.maxSize - k) k p a
  let m ← lstPush (c.freelist k) p a.mem
  some { a with mem := m }

def free (p : Nat) (a : Arena) : Option Arena := do
  let pindex ← c.getPageIndex a.plist p
  c.freeAt p pindex a

/-- The entry `pindex` gets the page `p`, which is free as a whole. -/
def putPage (p pindex : Nat) (a : Arena) : Option Arena := do
  let a := a.setPage pindex { a.plist pindex with pageaddr := p }
  let m ← lstPush (c.freelist c.maxSize) p a.mem
  some { a with mem := m }

def addPageLoop (p : Nat) (a : Arena) : Nat → Nat → Option Arena
  | 0, _ => none
  | fuel + 1, i =>
    if (a.plist i).pageaddr = 0 then c.putPage p i a else addPageLoop p a fuel (i + 1)

def addPage (p : Nat) (a : Arena) : Option Arena := c.addPageLoop p a c.npages 0

def initLists (m : Links) : Nat → Links
  | 0 => m
  | k + 1 => lstInit (c.freelist k) (initLists m k)

/-- An empty page table and empty lists. -/
def init (m : Links) : Arena := ⟨c.initLists m c.nsizes, fun _ => Pagelist.zero⟩

end Buddy

end InternetOs.Mem
