import InternetOs.Mem.Vm

/-!
# Processes and their memory (`kernel/proc/proc.c`, `kernel/proc/exec.c`)

`growproc`, `fork`, `freeproc` and `exec` over the page tables.  A process is what these functions
read and write of `struct proc`; `guard` is not in the source: it remembers the page that `exec` has
made the guard of the stack.  A file is its contents: `readi` reads a byte string.

Left out: the scheduling state, the name and the parent of a process, and the locks.
-/

namespace InternetOs.Vm

open Mem (pgsize)

structure Proc where
  pid : Nat
  pagetable : Nat
  sz : Nat
  tf : Nat
  ofile : List (Option Nat)
  guard : Option Nat
  deriving DecidableEq, Repr

section
variable {A : PageAlloc} (trampoline : Nat)

/-! ## `proc.c` -/

def procPagetable (tf : Nat) : VmM A Nat := do
  let pagetable ← uvmcreate
  let _ ← mappages pagetable trampolineVa pgsize trampoline (pteR ||| pteX)
  let _ ← mappages pagetable trapframeVa pgsize tf (pteR ||| pteW)
  return pagetable

def procFreepagetable (pagetable sz : Nat) : VmM A Unit := do
  uvmunmap pagetable trampolineVa pgsize false
  uvmunmap pagetable trapframeVa pgsize false
  if 0 < sz then uvmfree pagetable sz

/-- A value stored in a `uint32_t`. -/
def uint32 (x : Int) : Nat := (x % 2 ^ 32).toNat

def growproc (p : Proc) (n : Int) : VmM A (Proc × Int) := do
  let sz := uint32 p.sz
  if 0 < n then
    let sz := uint32 (← uvmalloc p.pagetable sz (uint32 (sz + n)))
    if sz = 0 then return (p, -1)
    else return ({ p with sz := sz }, 0)
  else if n < 0 then
    let sz := uint32 (← uvmdealloc p.pagetable sz (uint32 (sz + n)))
    return ({ p with sz := sz }, 0)
  else return ({ p with sz := sz }, 0)

/-- What `allocproc` allocates: the trapframe and the page table, or `none` if it gives up. -/
def allocproc : VmM A (Option (Nat × Nat)) := do
  let tf ← ufkalloc
  if tf = 0 then return none
  else
    let pagetable ← procPagetable trampoline tf
    return some (tf, pagetable)

def freeproc (p : Proc) : VmM A Unit := do
  if p.tf ≠ 0 then ufkfree p.tf
  if p.pagetable ≠ 0 then procFreepagetable p.pagetable p.sz

/-- The words of `struct trapframe`. -/
def trapframeWords : Nat := 36

/-- `*(np->tf) = *(p->tf)` -/
def copyTrapframe (dst src : Nat) : VmM A Unit := do
  let mem := (← get).mem
  setPage dst fun i => if i.val < trapframeWords then mem src i else mem dst i

/-- `p->tf->epc`, `p->tf->sp`, `p->tf->a0` and `p->tf->a1`, by their offsets. -/
def tfEpc : Fin 512 := 3

def tfSp : Fin 512 := 6

def tfA0 : Fin 512 := 14

def tfA1 : Fin 512 := 15

/-- `fork` by `p` into a free entry of the process table; `none` if it fails. -/
def forkInto (p : Proc) (pid : Nat) : VmM A (Option Proc) := do
  match ← allocproc trampoline with
  | none => return none
  | some (tf, pagetable) =>
    let np : Proc := ⟨pid, pagetable, 0, tf, [], none⟩
    let r ← uvmcopy p.pagetable pagetable p.sz
    if r < 0 then
      freeproc np
      return none
    else
      copyTrapframe tf p.tf
      store (tf, tfA0) 0
      return some { np with sz := p.sz, ofile := p.ofile, guard := p.guard }

/-- The first program: it calls `exec("/init")`. -/
def initcode : List UInt8 :=
  [0x17, 0x05, 0x00, 0x00, 0x13, 0x05, 0x05, 0x02, 0x97, 0x05, 0x00, 0x00, 0x93, 0x85, 0x05, 0x02,
   0x9d, 0x48, 0x73, 0x00, 0x00, 0x00, 0x89, 0x48, 0x73, 0x00, 0x00, 0x00, 0xef, 0xf0, 0xbf, 0xff,
   0x2f, 0x69, 0x6e, 0x69, 0x74, 0x00, 0x00, 0x01, 0x20, 0x00, 0x00, 0x00, 0x00, 0x00, 0x00, 0x00,
   0x00, 0x00, 0x00]

/-- The first process. -/
def userinit (pid : Nat) : VmM A (Option Proc) := do
  match ← allocproc trampoline with
  | none => return none
  | some (tf, pagetable) =>
    uvminit pagetable initcode
    store (tf, tfEpc) 0
    store (tf, tfSp) pgsize
    return some ⟨pid, pagetable, pgsize, tf, [], none⟩

/-! ## `exec.c` -/

/-- `readi(ip, 0, dst, off, n)` on a file with the contents `file`: the bytes copied; `none` is -1. -/
def readi (file : List UInt8) (off n : Nat) : Option (List UInt8) :=
  if file.length < off ∨ 2 ^ 32 ≤ off + n then none else some ((file.drop off).take n)

def leNat : List UInt8 → Nat
  | [] => 0
  | b :: bs => b.toNat + 256 * leNat bs

/-- The `len` bytes at `off` as a number. -/
def field (bytes : List UInt8) (off len : Nat) : Nat := leNat ((bytes.drop off).take len)

/-- `struct elfhdr`, of which 64 bytes are read. -/
structure Elfhdr where
  magic : Nat
  entry : Nat
  phoff : Nat
  phnum : Nat

def Elfhdr.parse (bytes : List UInt8) : Elfhdr :=
  ⟨field bytes 0 4, field bytes 24 8, field bytes 32 8, field bytes 56 2⟩

def sizeofElfhdr : Nat := 64

def elfMagic : Nat := 0x464c457f

/-- `struct proghdr` -/
structure Proghdr where
  type : Nat
  off : Nat
  vaddr : Nat
  filesz : Nat
  memsz : Nat

def Proghdr.parse (bytes : List UInt8) : Proghdr :=
  ⟨field bytes 0 4, field bytes 8 8, field bytes 16 8, field bytes 32 8, field bytes 40 8⟩

def sizeofProghdr : Nat := 56

def elfProgLoad : Nat := 1

/-- The header at `off`; `none` if the file is too short for it. -/
def readProghdr (file : List UInt8) (off : Nat) : Option Proghdr :=
  match readi file off sizeofProghdr with
  | some bytes => if bytes.length = sizeofProghdr then some (Proghdr.parse bytes) else none
  | none => none

def loadsegLoop (pagetable va : Nat) (file : List UInt8) (offset sz : Nat) : Nat → Nat → VmM A Int
  | 0, _ => return 0
  | fuel + 1, i => do
    if i < sz then
      let pa ← walkaddr pagetable (wrap (va + i))
      if pa = 0 then throw .loadsegExist
      else
        let n := min (sz - i) pgsize
        match readi file (uint32 (offset + i)) n with
        | none => return -1
        | some bytes =>
          copyIn pa 0 bytes
          if bytes.length ≠ n then return -1
          else loadsegLoop pagetable va file offset sz fuel (uint32 (i + pgsize))
    else return 0

def loadseg (pagetable va : Nat) (file : List UInt8) (offset sz : Nat) : VmM A Int := do
  if va % pgsize ≠ 0 then throw .loadsegAligned
  else loadsegLoop pagetable va file offset sz (sz / pgsize + 1) 0

/-- The loop over the program headers: the size at its end, and whether it has got through. -/
def loadLoop (pagetable : Nat) (file : List UInt8) : Nat → Nat → Nat → VmM A (Nat × Bool)
  | 0, _, sz => return (sz, true)
  | n + 1, off, sz => do
    match readProghdr file off with
    | none => return (sz, false)
    | some ph =>
      if ph.type ≠ elfProgLoad then loadLoop pagetable file n (uint32 (off + sizeofProghdr)) sz
      else if ph.memsz < ph.filesz then return (sz, false)
      else if wrap (ph.vaddr + ph.memsz) < ph.vaddr then return (sz, false)
      else
        let sz ← uvmalloc pagetable sz (wrap (ph.vaddr + ph.memsz))
        if sz = 0 then return (sz, false)
        else if ph.vaddr % pgsize ≠ 0 then return (sz, false)
        else
          let r ← loadseg pagetable ph.vaddr file (uint32 ph.off) (uint32 ph.filesz)
          if r < 0 then return (sz, false)
          else loadLoop pagetable file n (uint32 (off + sizeofProghdr)) sz

def maxArg : Nat := 32

/-- `sp -= n; sp -= sp % 16` -/
def pushDown (sp n : Nat) : Nat :=
  let sp := wrap (sp + 2 ^ 64 - n)
  sp - sp % 16

/-- The loop that pushes the argument strings; `none` is `goto bad`. -/
def pushArgs (pagetable stackbase : Nat) : List (List UInt8) → Nat → List Nat → VmM A (Option (Nat × List Nat))
  | [], sp, ustack => return some (sp, ustack)
  | arg :: argv, sp, ustack => do
    if maxArg ≤ ustack.length then return none
    else
      let str := arg.takeWhile (· ≠ 0)
      let sp := pushDown sp (str.length + 1)
      if sp < stackbase then return none
      else
        let r ← copyout pagetable sp (str ++ [0])
        if r < 0 then return none
        else pushArgs pagetable stackbase argv sp (ustack ++ [sp])

/-- The bytes of a 64-bit word. -/
def wordBytes (w : Nat) : List UInt8 := (List.range 8).map fun i => UInt8.ofNat (w / 256 ^ i)

/-- The stack of the new image: the strings and the array of pointers to them; `none` is `goto bad`. -/
def pushStack (pagetable stackbase sp : Nat) (argv : List (List UInt8)) : VmM A (Option (Nat × Nat)) := do
  match ← pushArgs pagetable stackbase argv sp [] with
  | none => return none
  | some (sp, ustack) =>
    let sp := pushDown sp ((ustack.length + 1) * 8)
    if sp < stackbase then return none
    else
      let r ← copyout pagetable sp ((ustack ++ [0]).flatMap wordBytes)
      if r < 0 then return none
      else return some (sp, ustack.length)

/-- `exec` from the point where the new page table exists. -/
def execImage (p : Proc) (pagetable : Nat) (file : List UInt8) (elf : Elfhdr) (argv : List (List UInt8)) :
    VmM A (Proc × Int) := do
  let bad (sz : Nat) : VmM A (Proc × Int) := do
    procFreepagetable pagetable sz
    return (p, -1)
  let (sz, loaded) ← loadLoop pagetable file elf.phnum (uint32 elf.phoff) 0
  if !loaded then bad sz
  else
    let oldsz := p.sz
    let sz := pgroundup sz
    let sz ← uvmalloc pagetable sz (wrap (sz + 2 * pgsize))
    if sz = 0 then bad sz
    else
      uvmclear pagetable (sz - 2 * pgsize)
      match ← pushStack pagetable (sz - pgsize) sz argv with
      | none => bad sz
      | some (sp, argc) =>
        store (p.tf, tfA1) sp
        store (p.tf, tfEpc) elf.entry
        store (p.tf, tfSp) sp
        procFreepagetable p.pagetable oldsz
        return ({ p with pagetable := pagetable, sz := sz, guard := some (sz / pgsize - 2) }, argc)

/-- `exec` of the file that `namei` finds, if any. -/
def exec (p : Proc) (file : Option (List UInt8)) (argv : List (List UInt8)) : VmM A (Proc × Int) := do
  match file with
  | none => return (p, -1)
  | some file =>
    match readi file 0 sizeofElfhdr with
    | none => return (p, -1)
    | some bytes =>
      if bytes.length ≠ sizeofElfhdr then return (p, -1)
      else
        let elf := Elfhdr.parse bytes
        if elf.magic ≠ elfMagic then return (p, -1)
        else
          let pagetable ← procPagetable trampoline p.tf
          if pagetable = 0 then return (p, -1)
          else execImage p pagetable file elf argv

/-! ## `sys_exec` -/

/-- The arguments in the memory of the process, as `fetchaddr` and `fetchstr` find them. -/
inductive Uargv
  /-- The null pointer at the end. -/
  | null
  /-- `fetchaddr` fails. -/
  | noAddr
  /-- `fetchstr` fails, after it has copied some bytes. -/
  | noStr (bytes : List UInt8)
  | arg (str : List UInt8) (rest : Uargv)

/-- The loop of `sys_exec`, with room for `n` more arguments: the pages it has taken, and the strings; `none` is
`goto bad`. -/
def fetchArgs : Nat → Uargv → VmM A (List Nat × Option (List (List UInt8)))
  | 0, _ => return ([], none)
  | _ + 1, .noAddr => return ([], none)
  | _ + 1, .null => return ([], some [])
  | _ + 1, .noStr bytes => do
    let page ← ufkalloc
    if page = 0 then throw .sysExec
    else
      copyIn page 0 bytes
      return ([page], none)
  | n + 1, .arg str rest => do
    let page ← ufkalloc
    if page = 0 then throw .sysExec
    else
      copyIn page 0 (str ++ [0])
      let (pages, argv) ← fetchArgs n rest
      return (page :: pages, argv.map (str :: ·))

/-- `exec` with arguments from the memory of the process, and the pages for them given back. -/
def execArgs (p : Proc) (file : Option (List UInt8)) (argv : Uargv) : VmM A (Proc × Int) := do
  let (pages, argv) ← fetchArgs maxArg argv
  let ret ← argv.elim (pure (p, -1)) (exec trampoline p file)
  pages.forM ufkfree
  return ret

end

end InternetOs.Vm
