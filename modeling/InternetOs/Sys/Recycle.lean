import InternetOs.Mem.Kpages
import InternetOs.Sys.Descriptors

/-!
# New files in recycled memory (`filealloc`, `sys_open`, `pipealloc`, `sockalloc`)

`filealloc` does not clear the block that it gets.  The block was in a list of `buddy.c`, though, and comes with the
two pointers of `struct list` at its start: they lie over `type`, `ref` and the byte with the flags.  They lead to the
head of the list or to other blocks (`KInv.ufkalloc`), so they are multiples of 8 and the three flags of a new file
are 0; behind them is what was there before.
Each creator sets what a file of its type uses.

    the fields a new file uses are those of a new file on an idle machine, whatever happened before;
    nonblockable is 0 until it is set                                            (newDescriptors)

A field of another type keeps the old contents (`pipe_keeps_offset`).
-/

namespace InternetOs.Sys

open Function Option Mem

/-- `struct file` in memory, without its links: any contents. -/
structure FileMem where
  type : Nat
  ref : Nat
  readable : Bool
  writable : Bool
  nonblockable : Bool
  pipe : Nat
  ip : Nat
  scb : Nat
  off : UInt32
  major : Int
  deriving DecidableEq, Repr

def fdNone : Nat := 0
def fdPipe : Nat := 1
def fdInode : Nat := 2
def fdDevice : Nat := 3
def fdSock : Nat := 4

/-- `sizeof(struct file)` -/
def fileSize : Int := 64

/-- `filealloc` in a block with the node `d` of `struct list` at its start. -/
def FileMem.filealloc (m : FileMem) (d : Node) : FileMem :=
  { m with type := d.prev % 2 ^ 32, ref := 1, readable := d.next.testBit 0, writable := d.next.testBit 1,
           nonblockable := d.next.testBit 2 }

/-- What is made: an inode or a device opened with a mode, an end of a pipe, a socket. -/
inductive New
  | inode (ip : Nat) (omode : UInt32)
  | device (ip : Nat) (major : Int) (omode : UInt32)
  | pipe (pi : Nat) (writable : Bool)
  | sock (scb : Nat)

/-- The end of `sys_open`. -/
def FileMem.opened (m : FileMem) (ip : Nat) (omode : UInt32) : FileMem :=
  { m with ip := ip, readable := omode &&& oWronly == 0, writable := omode &&& oWronly != 0 || omode &&& oRdwr != 0 }

/-- The stores of the creator. -/
def New.fill (m : FileMem) : New → FileMem
  | .inode ip omode => { m with type := fdInode, off := 0 }.opened ip omode
  | .device ip major omode => { m with type := fdDevice, major := major }.opened ip omode
  | .pipe pi writable => { m with type := fdPipe, readable := !writable, writable := writable, pipe := pi }
  | .sock scb => { m with type := fdSock, readable := true, writable := true, scb := scb }

/-- What a file is for. -/
inductive Object
  | none
  | pipe (pi : Nat)
  | inode (ip : Nat) (off : UInt32)
  | device (ip : Nat) (major : Int)
  | sock (scb : Nat)

def FileMem.object (m : FileMem) : Object :=
  if m.type = fdPipe then .pipe m.pipe
  else if m.type = fdInode then .inode m.ip m.off
  else if m.type = fdDevice then .device m.ip m.major
  else if m.type = fdSock then .sock m.scb
  else .none

/-- All that is looked at in a file of the type. -/
def FileMem.view (m : FileMem) : Nat × Bool × Bool × Bool × Object :=
  (m.type, m.readable, m.writable, m.nonblockable, m.object)

/-! ## Histories -/

/-- A block for a file; `asked` is a ghost, set by `setnonblock`. -/
structure Slot where
  mem : FileMem
  live : Bool
  asked : Bool

/-- The allocator, and what each address holds as a `struct file`. -/
structure Files where
  kalloc : Kalloc
  slot : Nat → Slot

/-- What happens to the file at `p`: `use` moves its offset.  `kernel` is a call of the allocator by the rest of the
kernel, and `other` changes memory that is not a file. -/
inductive FileEv
  | make (p : Nat) (n : New)
  | setnonblock (p val : Nat)
  | use (p : Nat) (off : UInt32)
  | dup (p : Nat)
  | close (p : Nat)
  | kernel (op : KallocOp)
  | other (p : Nat) (m : FileMem)

namespace Files

def set (s : Files) (p : Nat) (b : Slot) : Files := { s with slot := update s.slot p b }

/-- The rest of the kernel frees no file. -/
def spared (s : Files) : KallocOp → Bool
  | .free p => !(s.slot p).live
  | .alloc _ | .write .. => true

def step (l : Layout) (s : Files) : FileEv → Option Files
  | .make p n =>
    -- the node is the one that `ufkalloc` leaves in the block
    (s.kalloc.step l (.alloc fileSize)).bind fun k =>
      if k.live.head? = some (p, fileSize) then
        some (set ⟨k, s.slot⟩ p ⟨n.fill ((s.slot p).mem.filealloc (k.heap.mem p)), true, false⟩)
      else none
  | .setnonblock p val =>
    let b := s.slot p
    if b.live then some (s.set p ⟨{ b.mem with nonblockable := val.testBit 0 }, true, true⟩) else none
  | .use p off =>
    let b := s.slot p
    if b.live then some (s.set p { b with mem := { b.mem with off := off } }) else none
  | .dup p =>
    let b := s.slot p
    if b.live then some (s.set p { b with mem := { b.mem with ref := b.mem.ref + 1 } }) else none
  | .close p =>
    let b := s.slot p
    if b.live then
      if 1 < b.mem.ref then some (s.set p { b with mem := { b.mem with ref := b.mem.ref - 1 } })
      else (s.kalloc.step l (.free p)).map fun k =>
        set ⟨k, s.slot⟩ p ⟨{ b.mem with type := fdNone, ref := 0 }, false, b.asked⟩
    else none
  | .kernel op => if s.spared op then (s.kalloc.step l op).map fun k => { s with kalloc := k } else none
  | .other p m => if (s.slot p).live then none else some (s.set p { s.slot p with mem := m })

/-- `ufkinit` has run, and no file is open. -/
structure Boot (l : Layout) (s : Files) : Prop where
  heap : ∃ m, l.ufkinit m = some s.kalloc.heap
  free : s.kalloc.live = []
  idle : ∀ p, (s.slot p).live = false

end Files

theorem view_fill {m : FileMem} {d : Node} (h : d.next % 8 = 0) (n : New) :
    (n.fill (m.filealloc d)).view = (n.fill ⟨0, 0, false, false, false, 0, 0, 0, 0, 0⟩).view ∧
      (n.fill (m.filealloc d)).nonblockable = false := by
  have hflag : d.next.testBit 2 = false := by
    rw [Nat.testBit_eq_decide_div_mod_eq]
    exact decide_eq_false (by omega)
  cases n <;> simp [New.fill, FileMem.opened, FileMem.view, FileMem.object, FileMem.filealloc, hflag, fdPipe, fdInode,
    fdDevice, fdSock]

/-- A file that nobody has set is blocking. -/
def Slot.Blocking (b : Slot) : Prop := b.live = true → b.asked = false → b.mem.nonblockable = false

/-- The allocator is in order, and a file blocks until it is set. -/
structure Files.Ok (l : Layout) (s : Files) : Prop where
  paged : s.kalloc.Paged l
  blocking : ∀ p, (s.slot p).Blocking

namespace Files

variable {l : Layout} {s s' : Files}

theorem Boot.ok (h : s.Boot l) : s.Ok l := by
  obtain ⟨m, hm⟩ := h.heap
  obtain ⟨h', hinit, hp⟩ := kpages_start l m
  obtain rfl : h' = s.kalloc.heap := Option.some.inj (hinit.symm.trans hm)
  refine ⟨⟨?_, hp.aligned⟩, fun p hl => absurd hl (by rw [h.idle]; decide)⟩
  have hok := hp.ok
  unfold Kalloc.Ok at hok ⊢
  rw [h.free]
  exact hok

theorem Ok.set {k : Kalloc} (h : s.Ok l) (hk : k.Paged l) {p : Nat} {b : Slot} (hb : b.Blocking) :
    (Files.set ⟨k, s.slot⟩ p b).Ok l := by
  refine ⟨hk, fun q => ?_⟩
  by_cases hq : q = p
  · subst hq
    exact (congrArg Slot.Blocking (update_self q b s.slot)).mpr hb
  · exact (congrArg Slot.Blocking (update_of_ne hq b s.slot)).mpr (h.blocking q)

theorem Ok.make (hb : l.bdFreelist % 8 = 0) (h : s.Ok l) {p : Nat} {n : New} (hs : s.step l (.make p n) = some s') :
    ∃ (k : Kalloc) (d : Node), k.Paged l ∧ d.next % 8 = 0 ∧
      s' = Files.set ⟨k, s.slot⟩ p ⟨n.fill ((s.slot p).mem.filealloc d), true, false⟩ := by
  rw [Files.step] at hs
  obtain ⟨k, hk, hs⟩ := bind_eq_some_iff.mp hs
  obtain ⟨hp, hs⟩ := ite_none_right_eq_some.mp hs
  have hpaged := h.paged.step hk
  rw [Kalloc.step] at hk
  obtain ⟨-, hk⟩ := ite_none_right_eq_some.mp hk
  obtain ⟨⟨q, h'⟩, hr, rfl⟩ := map_eq_some_iff.mp hk
  obtain ⟨rfl, -⟩ := Prod.mk.inj (some.inj hp)
  have hsmall : fileSize < (pgsize : Int) := by
    show (64 : Int) < (4096 : Nat)
    norm_num
  exact ⟨_, _, hpaged, (h.paged.links hb hsmall hr).2, (some.inj hs).symm⟩

theorem Ok.step (hb : l.bdFreelist % 8 = 0) (h : s.Ok l) {e : FileEv} (hs : s.step l e = some s') : s'.Ok l := by
  cases e with
  | make p n =>
    obtain ⟨k, d, hk, hd, rfl⟩ := h.make hb hs
    exact h.set hk fun _ _ => (view_fill hd n).2
  | setnonblock p val =>
    obtain ⟨-, hs⟩ := ite_none_right_eq_some.mp hs
    cases hs
    exact h.set h.paged fun _ ha => absurd ha (by simp)
  | use p | dup p =>
    obtain ⟨-, hs⟩ := ite_none_right_eq_some.mp hs
    cases hs
    exact h.set h.paged (h.blocking p)
  | close p =>
    obtain ⟨-, hs⟩ := ite_none_right_eq_some.mp hs
    split_ifs at hs
    · cases hs
      exact h.set h.paged (h.blocking p)
    · obtain ⟨k, hk, rfl⟩ := map_eq_some_iff.mp hs
      exact h.set (h.paged.step hk) fun hl => absurd hl (by simp)
  | kernel op =>
    obtain ⟨-, hs⟩ := ite_none_right_eq_some.mp hs
    obtain ⟨k, hk, rfl⟩ := map_eq_some_iff.mp hs
    exact ⟨h.paged.step hk, h.blocking⟩
  | other p m =>
    obtain ⟨hdead, hs⟩ := ite_none_left_eq_some.mp hs
    cases hs
    exact h.set h.paged fun hl => absurd hl hdead

theorem Ok.run (hb : l.bdFreelist % 8 = 0) {es : List FileEv} (h : s.Boot l)
    (hrun : Run (fun s e s' => Files.step l s e = some s') s es s') : s'.Ok l :=
  hrun.inv (I := Ok l) (fun _ _ _ h hs => h.step hb hs) h.ok

theorem Ok.make_view (hb : l.bdFreelist % 8 = 0) (h : s.Ok l) {p : Nat} {n : New}
    (hs : s.step l (.make p n) = some s') :
    (s'.slot p).mem.view = (n.fill ⟨0, 0, false, false, false, 0, 0, 0, 0, 0⟩).view := by
  obtain ⟨k, d, -, hd, rfl⟩ := h.make hb hs
  show (update s.slot p _ p).mem.view = _
  rw [update_self]
  exact (view_fill hd n).1

end Files

/-- **New descriptors.**  From boot on, what a new file uses does not depend on what was opened, used and closed
before, nor on what else was in the memory; and it is blocking until it is set otherwise. -/
theorem newDescriptors {l : Layout} (hb : l.bdFreelist % 8 = 0) {s₀ s : Files} {es : List FileEv} (hboot : s₀.Boot l)
    (hrun : Run (fun s e s' => Files.step l s e = some s') s₀ es s) :
    (∀ p n s', s.step l (.make p n) = some s' → ∀ t₀ ds t q t', t₀.Boot l →
      Run (fun t e t' => Files.step l t e = some t') t₀ ds t → t.step l (.make q n) = some t' →
        (s'.slot p).mem.view = (t'.slot q).mem.view) ∧
      ∀ p, (s.slot p).live = true → (s.slot p).asked = false → (s.slot p).mem.nonblockable = false := by
  have hok := Files.Ok.run hb hboot hrun
  refine ⟨fun p n s' hs t₀ ds t q t' hboot' hrun' ht => ?_, hok.blocking⟩
  exact (hok.make_view hb hs).trans ((Files.Ok.run hb hboot' hrun').make_view hb ht).symm

/-- The machine after `ufkinit`. -/
def booted (h : Heap) : Files := ⟨⟨h, []⟩, fun _ => ⟨⟨0, 0, false, false, false, 0, 0, 0, 0, 0⟩, false, false⟩⟩

/-- The block that `filealloc` gets first, the start of a page of `buddy.c`. -/
def firstBlock : Nat := phystop - 520192

/-- A file is opened, read and closed. -/
def usedOnce : List FileEv :=
  [.make firstBlock (.inode 7 0), .setnonblock firstBlock 1, .use firstBlock 5, .close firstBlock]

def readEnd : FileEv := .make firstBlock (.pipe 9 false)

theorem usedOnce_run : ∃ h, tightLayout.ufkinit (fun _ => ⟨0, 0⟩) = some h ∧ ∃ s,
    runOf (Files.step tightLayout) (booted h) usedOnce = some s ∧ ∃ s', s.step tightLayout readEnd = some s' ∧ ∃ t,
      (booted h).step tightLayout readEnd = some t ∧
      (s'.slot firstBlock).mem.off = 5 ∧ (t.slot firstBlock).mem.off = 0 := by
  decide +kernel

theorem newDescriptors_once : ∃ h s s' t, tightLayout.ufkinit (fun _ => ⟨0, 0⟩) = some h ∧
    runOf (Files.step tightLayout) (booted h) usedOnce = some s ∧ s.step tightLayout readEnd = some s' ∧
      (booted h).step tightLayout readEnd = some t ∧
      (s'.slot firstBlock).mem.view = (t.slot firstBlock).mem.view := by
  obtain ⟨h, hinit, s, hs, s', hs', t, ht, -⟩ := usedOnce_run
  have hboot : (booted h).Boot tightLayout := ⟨⟨_, hinit⟩, rfl, fun _ => rfl⟩
  exact ⟨h, s, s', t, hinit, hs, hs', ht,
    (newDescriptors (by decide) hboot (Run.of_runOf hs)).1 _ _ _ hs' _ [] _ _ _ hboot (.nil _) ht⟩

/-- The reading end of a pipe keeps the offset of the file that was there before. -/
theorem pipe_keeps_offset : ∃ h s s' t, tightLayout.ufkinit (fun _ => ⟨0, 0⟩) = some h ∧
    runOf (Files.step tightLayout) (booted h) usedOnce = some s ∧ s.step tightLayout readEnd = some s' ∧
      (booted h).step tightLayout readEnd = some t ∧
      (s'.slot firstBlock).mem.off = 5 ∧ (t.slot firstBlock).mem.off = 0 := by
  obtain ⟨h, hinit, s, hs, s', hs', t, ht, hoff⟩ := usedOnce_run
  exact ⟨h, s, s', t, hinit, hs, hs', ht, hoff⟩

end InternetOs.Sys
