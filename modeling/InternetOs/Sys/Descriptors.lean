import InternetOs.Proc.Pipe
import InternetOs.Sys.FileInv

/-!
# Calls that make descriptors (`sys/sysfile.c`, `sys/sysnet.c`, `net/socket.c`, `proc/pipe.c`)

`sys_open`, `sys_pipe`, `sys_dup`, `sys_socket` and `sys_sockaccept` of one process, with what they return.  The array
`ofile` lies in memory: an index outside `[0, NOFILE)` is the memory around it, and `writes` is a ghost, the indices
that were written.  What `argstr`, `copyout` and the file system answer comes with the call.  A `sys_sockaccept` that
waits sees the packets that arrive until it is killed or woken.

`ufkalloc` panics when it has no memory, so `filealloc` and `alloc_sock_cb` never give a null pointer.  A new file has
as its type what the allocator's list left there, an address and so none of the types.

    a call that returns -1 has no effect  ↔  it is `sys_open`, `sys_pipe` or `sys_dup`, or there is a free slot,
      for `sys_sockaccept` another one than slot 0                                        (failedDescriptor_iff)
-/

namespace InternetOs.Sys

open Net Function Option List

/-! ## The code -/

structure Kernel where
  ft : Ftable
  /-- `f->pipe`, `f->writable` and `f->nonblockable`. -/
  pipe : Nat → Nat
  writable : Nat → Bool
  nonblockable : Nat → Bool
  pipes : Nat → Proc.Pipe
  pipeAlive : Nat → Bool
  brkPipe : Nat
  /-- `p->ofile` of the process that calls. -/
  ofile : Int → Nat
  writes : List Int

/-- `p->ofile[i] = f`. -/
def Kernel.store (k : Kernel) (i : Int) (f : Nat) : Kernel :=
  { k with ofile := update k.ofile i f, writes := k.writes ++ [i] }

def Kernel.fdalloc (k : Kernel) (f : Nat) : Kernel × Int :=
  match (range nofile).find? fun fd : Nat => k.ofile (fd : Int) = 0 with
  | some fd => (k.store fd f, fd)
  | none => (k, -1)

/-- The file of `argfd`, 0 if it returns -1. -/
def Kernel.argfd (k : Kernel) (fd : Int) : Nat := if fd < 0 ∨ fd ≥ nofile then 0 else k.ofile fd

def Kernel.filealloc (k : Kernel) : Option (Kernel × Nat) :=
  (Sys.filealloc k.ft).map fun r => ({ k with ft := r.1 }, r.2)

def Kernel.pipeclose (k : Kernel) (pi : Nat) (writable : Bool) : Option Kernel :=
  if k.pipeAlive pi = false then none
  else
    let p := Proc.pipeclose (k.pipes pi) writable
    let k := { k with pipes := update k.pipes pi p }
    some (if p.readopen = false ∧ p.writeopen = false then
      { k with pipeAlive := update k.pipeAlive pi false } else k)

/-- `fileclose`; the `iput` of an inode is left out. -/
def Kernel.fileclose (k : Kernel) (f : Nat) : Option Kernel :=
  let ff := k.ft.files f
  (Sys.fileclose k.ft f).bind fun ft =>
    let k' := { k with ft := ft }
    if ff.ref = 1 ∧ ff.type = .pipe then k'.pipeclose (k.pipe f) (k.writable f) else some k'

inductive InodeType
  | dir | file | device
  deriving DecidableEq, Repr

/-- What `sys_open` reads of an inode. -/
structure Inode where
  type : InodeType
  major : Int
  deriving DecidableEq, Repr

/-- `NDEV`, `O_RDONLY`, `O_WRONLY`, `O_RDWR` and `O_CREATE`. -/
def ndev : Int := 10
def oRdonly : UInt32 := 0x000
def oWronly : UInt32 := 0x001
def oRdwr : UInt32 := 0x002
def oCreate : UInt32 := 0x200

/-- `sys_open`; `path` says that `argstr` succeeds, and `ip` is the answer of `create` or `namei`. -/
def Kernel.sysOpen (k : Kernel) (path : Bool) (omode : UInt32) (ip : Option Inode) : Option (Kernel × Int) :=
  if path = false then some (k, -1)
  else
    match ip with
    | none => some (k, -1)
    | some ip =>
      if omode &&& oCreate = 0 ∧ ip.type = .dir ∧ omode ≠ oRdonly then some (k, -1)
      else if ip.type = .device ∧ (ip.major < 0 ∨ ip.major ≥ ndev) then some (k, -1)
      else
        k.filealloc.bind fun r =>
          let f := r.2
          let a := r.1.fdalloc f
          if a.2 < 0 then (a.1.fileclose f).map fun k => (k, -1)
          else
            let type : FileType := if ip.type = .device then .device else .inode
            some ({ a.1 with
              ft := a.1.ft.setFile f { a.1.ft.files f with type := type }
              writable := update a.1.writable f (omode &&& oWronly != 0 || omode &&& oRdwr != 0) }, a.2)

/-- `pipealloc`: the file for reading and the file for writing. -/
def Kernel.pipealloc (k : Kernel) : Option (Kernel × Nat × Nat) :=
  k.filealloc.bind fun r₀ =>
    r₀.1.filealloc.map fun r₁ =>
      let f₀ := r₀.2
      let f₁ := r₁.2
      let k := r₁.1
      let pi := k.brkPipe
      let ft := k.ft.setFile f₀ { k.ft.files f₀ with type := .pipe }
      ({ k with
          ft := ft.setFile f₁ { ft.files f₁ with type := .pipe }
          pipe := update (update k.pipe f₀ pi) f₁ pi
          writable := update (update k.writable f₀ false) f₁ true
          pipes := update k.pipes pi (Proc.pipealloc (k.pipes pi).data)
          pipeAlive := update k.pipeAlive pi true
          brkPipe := pi + 1 }, f₀, f₁)

/-- The way out of `sys_pipe` that returns -1. -/
def Kernel.closeBoth (k : Kernel) (rf wf : Nat) : Option (Kernel × Int) :=
  (k.fileclose rf).bind fun k => (k.fileclose wf).map fun k => (k, -1)

/-- `sys_pipe`; `out₀` and `out₁` say whether the calls of `copyout` succeed. -/
def Kernel.sysPipe (k : Kernel) (out₀ out₁ : Bool) : Option (Kernel × Int) :=
  k.pipealloc.bind fun r =>
    let rf := r.2.1
    let wf := r.2.2
    let a₀ := r.1.fdalloc rf
    if a₀.2 < 0 then a₀.1.closeBoth rf wf
    else
      let a₁ := a₀.1.fdalloc wf
      if a₁.2 < 0 then (a₁.1.store a₀.2 0).closeBoth rf wf
      else if out₀ = false ∨ out₁ = false then ((a₁.1.store a₀.2 0).store a₁.2 0).closeBoth rf wf
      else some (a₁.1, 0)

def Kernel.sysDup (k : Kernel) (fd : Int) : Option (Kernel × Int) :=
  let f := k.argfd fd
  if f = 0 then some (k, -1)
  else
    let a := k.fdalloc f
    if a.2 < 0 then some (a.1, -1)
    else (filedup a.1.ft f).map fun ft => ({ a.1 with ft := ft }, a.2)

/-- `sys_socket`; without a free slot the new file is not closed. -/
def Kernel.sysSocket (k : Kernel) (socktype : SockType) : Option (Kernel × Int) :=
  (Sys.sockalloc k.ft socktype).map fun r =>
    let a := Kernel.fdalloc { k with ft := r.1 } r.2
    if a.2 < 0 then (a.1, -1) else a

/-- A packet that arrives while a process waits. -/
inductive Packet
  | tcp (m : Mbuf) (len : UInt16) (raddr : UInt32)
  | udp (m : Mbuf) (len : UInt16) (raddr : UInt32) (hdr : UdpHdr)

def Ftable.recv (t : Ftable) : Packet → Option Ftable
  | .tcp m len raddr => Sys.tcpRecv t m len raddr
  | .udp m len raddr hdr => (Net.udpRecv t.net m len raddr hdr).map fun net => { t with net := net }

/-- `tcp_accept`; a process that waits looks at its block again after the packets, and finds that it was killed or
that the block is ready. -/
def Kernel.tcpAccept (k : Kernel) (q : Nat) (wait : List Packet) (killed : Bool) : Option (Kernel × Int) :=
  if k.ft.net.alive q = false then none
  else if (k.ft.net.scbs q).state = .estab then some (k, 0)
  else
    let f := (k.ft.net.scbs q).f
    if f = 0 ∨ k.ft.alive f = false then none
    else if k.nonblockable f then if (k.ft.net.scbs q).state = .synRcvd then some (k, 0) else some (k, -1)
    else
      (wait.foldlM Ftable.recv k.ft).bind fun ft =>
        if ft.net.alive q = false then none else some ({ k with ft := ft }, if killed then -1 else 0)

/-- The label `bad` of `sockaccept`. -/
def Kernel.acceptBad (k : Kernel) (newFd : Int) : Kernel × Int :=
  (if newFd ≠ 0 then k.store newFd 0 else k, -1)

/-- The end of a `sockaccept` that succeeds. -/
def Kernel.acceptDone (k : Kernel) (p q : Nat) (newFd : Int) : Option (Kernel × Int) :=
  if k.ft.net.alive p = false ∨ k.ft.net.alive q = false then none
  else some ({ k with ft := { k.ft with net := k.ft.net.setScb p { k.ft.net.scbs p with acptScb := 0 } } }, newFd)

def Kernel.sockaccept (k : Kernel) (p : Nat) (wait : List Packet) (killed : Bool) : Option (Kernel × Int) :=
  (Sys.sockaccept k.ft p).bind fun r =>
    let newFile := r.2.1
    let newScb := r.2.2
    let nonblockable :=
      if (k.ft.net.scbs p).acptScb ≠ 0 then k.nonblockable
      else update k.nonblockable newFile (k.nonblockable (k.ft.net.scbs p).f)
    let a := Kernel.fdalloc { k with ft := r.1, nonblockable := nonblockable } newFile
    if a.2 < 0 then some (a.1.acceptBad a.2)
    else if (a.1.ft.net.scbs newScb).socktype = .tcp then
      (a.1.tcpAccept newScb wait killed).bind fun t =>
        if t.2 < 0 then some (t.1.acceptBad a.2) else t.1.acceptDone p newScb a.2
    else a.1.acceptDone p newScb a.2

def Kernel.sysSockaccept (k : Kernel) (fd : Int) (wait : List Packet) (killed : Bool) : Option (Kernel × Int) :=
  let f := k.argfd fd
  if f = 0 then some (k, -1)
  else if k.ft.alive f = false then none
  else
    let scb := (k.ft.files f).scb
    if (k.ft.files f).type ≠ .sock ∨ scb = 0 then some (k, -1)
    else if k.ft.net.alive scb = false then none
    else k.sockaccept scb wait killed

inductive Call
  | openFile (path : Bool) (omode : UInt32) (ip : Option Inode)
  | pipe (out₀ out₁ : Bool)
  | dup (fd : Int)
  | socket (socktype : SockType)
  | sockaccept (fd : Int) (wait : List Packet) (killed : Bool)

/-- The state and the result of the call; `none` if it panics, uses memory that is freed, or follows a null pointer. -/
def Kernel.call (k : Kernel) : Call → Option (Kernel × Int)
  | .openFile path omode ip => k.sysOpen path omode ip
  | .pipe out₀ out₁ => k.sysPipe out₀ out₁
  | .dup fd => k.sysDup fd
  | .socket socktype => k.sysSocket socktype
  | .sockaccept fd wait killed => k.sysSockaccept fd wait killed

/-! ## No effect -/

def InOfile (i : Int) : Prop := 0 ≤ i ∧ i < nofile

/-- The block the call works on, 0 if there is none. -/
def Call.listener (k : Kernel) : Call → Nat
  | .sockaccept fd _ _ => (k.ft.files (k.argfd fd)).scb
  | _ => 0

/-- The block waits for the next `sockaccept` of the listener. -/
def Kernel.Waits (k : Kernel) (listener q : Nat) : Prop := listener ≠ 0 ∧ (k.ft.net.scbs listener).acptScb = q

/-- From `k` to `k'` the array is the same, was not left, and what was allocated is released or waits at the
listener. -/
structure NoEffect (listener : Nat) (k k' : Kernel) : Prop where
  ofile : ∀ i, InOfile i → k'.ofile i = k.ofile i
  writes : ∃ is, k'.writes = k.writes ++ is ∧ ∀ i ∈ is, InOfile i
  files : ∀ f, k.ft.brk ≤ f → f < k'.ft.brk →
    k'.ft.alive f = false ∨ ∃ q, k'.Waits listener q ∧ (k'.ft.net.scbs q).f = f
  scbs : ∀ q, k.ft.net.brkScb ≤ q → q < k'.ft.net.brkScb → k'.ft.net.alive q = false ∨ k'.Waits listener q
  pipes : ∀ pi, k.brkPipe ≤ pi → pi < k'.brkPipe → k'.pipeAlive pi = false

/-- There is a free slot. -/
def Kernel.HasFree (k : Kernel) : Prop := ∃ fd < nofile, k.ofile (fd : Int) = 0

/-- The descriptor is an open socket. -/
def Kernel.IsSock (k : Kernel) (fd : Int) : Prop :=
  k.argfd fd ≠ 0 ∧ (k.ft.files (k.argfd fd)).type = .sock ∧ (k.ft.files (k.argfd fd)).scb ≠ 0

/-- When a call that fails has no effect. -/
def Kernel.Safe (k : Kernel) : Call → Prop
  | .openFile _ _ _ => True
  | .pipe _ _ => True
  | .dup _ => True
  | .socket _ => k.HasFree
  | .sockaccept fd _ _ => k.IsSock fd → k.ofile 0 ≠ 0 ∧ k.HasFree

/-! ## Slots -/

section
variable {k k' : Kernel} {t t' : Ftable} {f p : Nat}

theorem Kernel.fdalloc_cases (k : Kernel) (f : Nat) :
    (∃ fd < nofile, k.ofile (fd : Int) = 0 ∧ (∀ j < fd, k.ofile (j : Int) ≠ 0) ∧
      k.fdalloc f = (k.store fd f, (fd : Int))) ∨
      ¬ k.HasFree ∧ k.fdalloc f = (k, -1) := by
  unfold fdalloc HasFree
  generalize nofile = n
  cases hfind : (range n).find? fun fd : Nat => k.ofile (fd : Int) = 0 with
  | some fd =>
    obtain ⟨hfree, hmem, hfirst⟩ := find?_range_eq_some.1 hfind
    refine .inl ⟨fd, mem_range.1 hmem, of_decide_eq_true hfree, fun j hj hj0 => ?_, rfl⟩
    have := hfirst j hj
    rw [decide_eq_true hj0] at this
    cases this
  | none =>
    refine .inr ⟨?_, rfl⟩
    rintro ⟨fd, hlt, hfree⟩
    have := find?_range_eq_none.1 hfind fd hlt
    rw [decide_eq_true hfree] at this
    cases this

theorem inOfile_of_lt {fd : Nat} (h : fd < nofile) : InOfile fd := ⟨by omega, by omega⟩

theorem update_update_free {o : Int → Nat} {i : Int} (h : o i = 0) (f : Nat) : update (update o i f) i 0 = o := by
  rw [update_idem, ← h, update_eq_self]

theorem update_two_free {o : Int → Nat} {i j : Int} {f g : Nat} (hi : o i = 0) (hj : update o i f j = 0) :
    update (update (update (update o i f) j g) i 0) j 0 = o := by
  -- the second slot was free before the first was taken
  have hj' : o j = 0 := by
    by_cases he : j = i
    · rw [he, hi]
    · rwa [update_of_ne he] at hj
  funext m
  by_cases hmj : m = j
  · rw [hmj, update_self, hj']
  · rw [update_of_ne hmj]
    by_cases hmi : m = i
    · rw [hmi, update_self, hi]
    · rw [update_of_ne hmi, update_of_ne hmj, update_of_ne hmi]

/-! ## Files -/

/-- What `fileclose` looks at is the same in both files. -/
def File.SameBody (a b : File) : Prop := b.type = a.type ∧ b.ref = a.ref ∧ b.scb = a.scb

theorem File.SameBody.refl (a : File) : a.SameBody a := ⟨rfl, rfl, rfl⟩

theorem File.SameBody.trans {a b c : File} (h : a.SameBody b) (h' : b.SameBody c) : a.SameBody c :=
  ⟨h'.1.trans h.1, h'.2.1.trans h.2.1, h'.2.2.trans h.2.2⟩

theorem sameBody_setFile (t : Ftable) (f g : Nat) {file : File} (h : g = f → (t.files f).SameBody file) :
    (t.files g).SameBody ((t.setFile f file).files g) := by
  by_cases hg : g = f
  · subst hg
    simpa [Ftable.setFile] using h rfl
  · simp [Ftable.setFile, hg, File.SameBody]

theorem sameBody_next (t : Ftable) (f g next : Nat) :
    (t.files g).SameBody ((t.setFile f { t.files f with next := next }).files g) :=
  sameBody_setFile t f g fun _ => ⟨rfl, rfl, rfl⟩

theorem sameBody_prev (t : Ftable) (f g prev : Nat) :
    (t.files g).SameBody ((t.setFile f { t.files f with prev := prev }).files g) :=
  sameBody_setFile t f g fun _ => ⟨rfl, rfl, rfl⟩

theorem filealloc_new {r : Ftable × Nat} (h : filealloc t = some r) :
    r.2 = t.brk ∧ r.1.brk = t.brk + 1 ∧ r.1.net = t.net ∧ r.1.alive = update t.alive t.brk true ∧
      (⟨.none, 1, 0, 0, 0⟩ : File).SameBody (r.1.files t.brk) ∧
        ∀ g, g ≠ t.brk → (t.files g).SameBody (r.1.files g) := by
  obtain ⟨last, -, rfl⟩ := map_eq_some_iff.1 h
  have hbody : ∀ (u : Ftable) (g : Nat), (u.files g).SameBody ((if last ≠ 0 then
      u.setFile last { u.files last with next := t.brk } else u).files g) := by
    intro u g
    split
    · exact sameBody_next u last g t.brk
    · exact .refl _
  refine ⟨rfl, ?_, ?_, ?_, ?_, fun g hg => ?_⟩
  · split <;> rfl
  · split <;> rfl
  · split <;> rfl
  · refine File.SameBody.trans ?_ (hbody _ t.brk)
    simp [File.SameBody]
  · refine File.SameBody.trans ?_ (hbody _ g)
    simp [File.SameBody, hg]

theorem filefree_one {r : Ftable × Bool} (href : (t.files f).ref = 1) (h : filefree t f = some r) :
    r.2 = true ∧ r.1.net = t.net ∧ r.1.brk = t.brk ∧ r.1.alive = update t.alive f false ∧
      ∀ g, g ≠ f → (t.files g).SameBody (r.1.files g) := by
  unfold filefree at h
  split at h
  · cases h
  split at h
  · next hmore => rw [href] at hmore; exact absurd hmore (by decide)
  have hzero : ∀ g, g ≠ f → (t.files g).SameBody ((t.setFile f { t.files f with ref := 0, type := .none }).files g) :=
    fun g hg => sameBody_setFile t f g fun he => absurd he hg
  have hnet : (t.setFile f { t.files f with ref := 0, type := .none }).net = t.net := rfl
  have hbrk : (t.setFile f { t.files f with ref := 0, type := .none }).brk = t.brk := rfl
  have halive : (t.setFile f { t.files f with ref := 0, type := .none }).alive = t.alive := rfl
  generalize t.setFile f { t.files f with ref := 0, type := .none } = u at h hzero hnet hbrk halive
  obtain ⟨v, hv, rfl⟩ := map_eq_some_iff.1 h
  -- only links change from `u` to `v`
  suffices hlinks : v.net = u.net ∧ v.brk = u.brk ∧ v.alive = u.alive ∧ ∀ g, (u.files g).SameBody (v.files g) by
    exact ⟨rfl, hlinks.1.trans hnet, hlinks.2.1.trans hbrk, by rw [hlinks.2.2.1, halive],
      fun g hg => (hzero g hg).trans (hlinks.2.2.2 g)⟩
  split at hv
  · split at hv
    · cases hv
      exact ⟨rfl, rfl, rfl, fun g => .refl _⟩
    · split at hv
      · cases hv
        exact ⟨rfl, rfl, rfl, fun g => sameBody_prev u _ g 0⟩
      · cases hv
  · split at hv
    · cases hv
      exact ⟨rfl, rfl, rfl, fun g => (sameBody_next u _ g _).trans (sameBody_prev _ _ g _)⟩
    · cases hv

theorem fileclose_one (href : (t.files f).ref = 1) (htype : (t.files f).type ≠ .sock) (h : fileclose t f = some t') :
    t'.net = t.net ∧ t'.brk = t.brk ∧ t'.alive = update t.alive f false ∧
      ∀ g, g ≠ f → (t.files g).SameBody (t'.files g) := by
  obtain ⟨r, hr, hclose⟩ := bind_eq_some_iff.1 h
  obtain ⟨hlast, hrest⟩ := filefree_one href hr
  rw [if_neg (by rw [hlast]; decide), if_neg htype] at hclose
  cases hclose
  exact hrest

/-! ## `sys_open` and `sys_dup` -/

theorem NoEffect.refl (l : Nat) (k : Kernel) : NoEffect l k k where
  ofile _ _ := rfl
  writes := ⟨[], (append_nil _).symm, fun _ h => nomatch h⟩
  files _ h h' := absurd h' (not_lt.2 h)
  scbs _ h h' := absurd h' (not_lt.2 h)
  pipes _ h h' := absurd h' (not_lt.2 h)

theorem NoEffect.of_same {l : Nat} {r r' : Int} (h : some (k, r) = some (k', r')) : NoEffect l k k' := by
  cases h
  exact .refl l k

theorem Kernel.fileclose_plain (href : (k.ft.files f).ref = 1) (htype : (k.ft.files f).type = .none)
    (h : k.fileclose f = some k') :
    ∃ t, k' = { k with ft := t } ∧ t.net = k.ft.net ∧ t.brk = k.ft.brk ∧ t.alive = update k.ft.alive f false := by
  obtain ⟨t, ht, h⟩ := bind_eq_some_iff.1 h
  obtain ⟨hnet, hbrk, halive, -⟩ := fileclose_one href (by rw [htype]; decide) ht
  rw [if_neg (by rw [htype]; exact fun h => nomatch h.2)] at h
  exact ⟨t, (some.inj h).symm, hnet, hbrk, halive⟩

theorem Kernel.filealloc_new {r : Kernel × Nat} (h : k.filealloc = some r) :
    ∃ t, r = ({ k with ft := t }, k.ft.brk) ∧ t.brk = k.ft.brk + 1 ∧ t.net = k.ft.net ∧
      t.alive = update k.ft.alive k.ft.brk true ∧
      (⟨.none, 1, 0, 0, 0⟩ : File).SameBody (t.files k.ft.brk) ∧
        ∀ g, g ≠ k.ft.brk → (k.ft.files g).SameBody (t.files g) := by
  obtain ⟨r', hr', rfl⟩ := map_eq_some_iff.1 h
  obtain ⟨h1, h2⟩ := Sys.filealloc_new hr'
  exact ⟨r'.1, by rw [h1], h2⟩

theorem slot_ne_neg_one (fd : Nat) : (fd : Int) ≠ -1 := by omega

theorem sysOpen_noEffect {path : Bool} {omode : UInt32} {ip : Option Inode} (l : Nat)
    (h : k.sysOpen path omode ip = some (k', -1)) : NoEffect l k k' := by
  unfold Kernel.sysOpen at h
  split at h
  · exact .of_same h
  split at h
  · exact .of_same h
  next ip =>
  split at h
  · exact .of_same h
  split at h
  · exact .of_same h
  obtain ⟨r, hr, h⟩ := bind_eq_some_iff.1 h
  obtain ⟨t, rfl, hbrk, hnet, -, hbody, -⟩ := Kernel.filealloc_new hr
  dsimp only at h
  rcases Kernel.fdalloc_cases { k with ft := t } k.ft.brk with ⟨fd, -, -, -, ha⟩ | ⟨-, ha⟩
  · rw [ha] at h
    exact absurd (Prod.mk.inj (some.inj h)).2 (slot_ne_neg_one fd)
  · rw [ha] at h
    obtain ⟨k1, hclose, heq⟩ := map_eq_some_iff.1 h
    obtain rfl : k1 = k' := (Prod.mk.inj heq).1
    obtain ⟨t', rfl, hnet', hbrk', halive'⟩ := Kernel.fileclose_plain hbody.2.1 hbody.1 hclose
    refine ⟨fun _ _ => rfl, ⟨[], (append_nil _).symm, fun _ h => nomatch h⟩, fun f hf hf' => .inl ?_,
      fun q hq hq' => ?_, fun pi hpi hpi' => absurd hpi' (not_lt.2 hpi)⟩
    · have : f = k.ft.brk := by
        rw [hbrk', hbrk] at hf'
        omega
      rw [this, halive', update_self]
    · rw [hnet', hnet] at hq'
      omega

theorem sysDup_noEffect {fd : Int} (l : Nat) (h : k.sysDup fd = some (k', -1)) : NoEffect l k k' := by
  unfold Kernel.sysDup at h
  dsimp only at h
  split at h
  · exact .of_same h
  · rcases k.fdalloc_cases (k.argfd fd) with ⟨fd', -, -, -, ha⟩ | ⟨-, ha⟩
    · rw [ha] at h
      obtain ⟨t, -, heq⟩ := map_eq_some_iff.1 h
      exact absurd (Prod.mk.inj heq).2 (slot_ne_neg_one fd')
    · rw [ha] at h
      exact .of_same h

/-! ## `sys_pipe` -/

/-- Apart from the slots, `k` is what `pipealloc` makes of `k₀`. -/
structure PipeMade (k₀ k : Kernel) : Prop where
  brk : k.ft.brk = k₀.ft.brk + 2
  net : k.ft.net = k₀.ft.net
  rf : (k.ft.files k₀.ft.brk).ref = 1 ∧ (k.ft.files k₀.ft.brk).type = .pipe
  wf : (k.ft.files (k₀.ft.brk + 1)).ref = 1 ∧ (k.ft.files (k₀.ft.brk + 1)).type = .pipe
  pipe₀ : k.pipe k₀.ft.brk = k₀.brkPipe
  pipe₁ : k.pipe (k₀.ft.brk + 1) = k₀.brkPipe
  reads : k.writable k₀.ft.brk = false
  writes : k.writable (k₀.ft.brk + 1) = true
  brkPipe : k.brkPipe = k₀.brkPipe + 1

theorem pipealloc_made {r : Kernel × Nat × Nat} (h : k.pipealloc = some r) :
    PipeMade k r.1 ∧ r.2 = (k.ft.brk, k.ft.brk + 1) ∧ r.1.ofile = k.ofile ∧ r.1.writes = k.writes := by
  obtain ⟨r0, hr0, h⟩ := bind_eq_some_iff.1 h
  obtain ⟨t0, rfl, hbrk0, hnet0, -, hbody0, -⟩ := Kernel.filealloc_new hr0
  obtain ⟨r1, hr1, rfl⟩ := map_eq_some_iff.1 h
  obtain ⟨t1, rfl, hbrk1, hnet1, -, hbody1, hold1⟩ := Kernel.filealloc_new hr1
  rw [hbrk0] at hbrk1 hbody1 hold1 ⊢
  have hne : k.ft.brk ≠ k.ft.brk + 1 := by omega
  have hrf := hold1 k.ft.brk hne
  refine ⟨⟨hbrk1, hnet1.trans hnet0, ?_, ?_, ?_, ?_, ?_, ?_, rfl⟩, rfl, rfl, rfl⟩
  · simp [Ftable.setFile, hrf.2.1, hbody0.2.1]
  · simp [Ftable.setFile, hbody1.2.1]
  · simp
  · simp
  · simp
  · simp

theorem Kernel.fileclose_pipe (href : (k.ft.files f).ref = 1) (htype : (k.ft.files f).type = .pipe)
    (h : k.fileclose f = some k') :
    ∃ t, Kernel.pipeclose { k with ft := t } (k.pipe f) (k.writable f) = some k' ∧ t.net = k.ft.net ∧
      t.brk = k.ft.brk ∧ t.alive = update k.ft.alive f false ∧ ∀ g, g ≠ f → (k.ft.files g).SameBody (t.files g) := by
  obtain ⟨t, ht, h⟩ := bind_eq_some_iff.1 h
  have hspec := fileclose_one href (by rw [htype]; decide) ht
  rw [if_pos ⟨href, htype⟩] at h
  exact ⟨t, h, hspec⟩

theorem Kernel.pipeclose_spec {pi : Nat} {writable : Bool} (h : k.pipeclose pi writable = some k') :
    k'.ft = k.ft ∧ k'.pipe = k.pipe ∧ k'.writable = k.writable ∧ k'.ofile = k.ofile ∧ k'.writes = k.writes ∧
      k'.brkPipe = k.brkPipe ∧ k'.pipes pi = Proc.pipeclose (k.pipes pi) writable ∧
      ((k'.pipes pi).readopen = false → (k'.pipes pi).writeopen = false → k'.pipeAlive pi = false) := by
  unfold Kernel.pipeclose at h
  split at h
  · cases h
  cases h
  split
  · simp
  · next hopen =>
    refine ⟨rfl, rfl, rfl, rfl, rfl, rfl, by simp, fun hr hw => absurd ⟨?_, ?_⟩ hopen⟩
    · simpa using hr
    · simpa using hw

theorem closeBoth_noEffect {k0 : Kernel} {r : Int} (l : Nat) (hm : PipeMade k0 k)
    (h : k.closeBoth k0.ft.brk (k0.ft.brk + 1) = some (k', r)) (hofile : k.ofile = k0.ofile)
    (hwrites : ∃ is, k.writes = k0.writes ++ is ∧ ∀ i ∈ is, InOfile i) : NoEffect l k0 k' := by
  obtain ⟨k1, h1, h⟩ := bind_eq_some_iff.1 h
  obtain ⟨k2, h2, heq⟩ := map_eq_some_iff.1 h
  obtain rfl : k2 = k' := (Prod.mk.inj heq).1
  obtain ⟨t, hclose, hnet, hbrk, halive, hbody⟩ := Kernel.fileclose_pipe hm.rf.1 hm.rf.2 h1
  obtain ⟨hft, hpipe, hwritable, ho, hw, hbp, hends, -⟩ := Kernel.pipeclose_spec hclose
  have hwf := hbody (k0.ft.brk + 1) (by omega)
  obtain ⟨t', hclose', hnet', hbrk', halive', -⟩ := Kernel.fileclose_pipe
    (by rw [hft, hwf.2.1]; exact hm.wf.1) (by rw [hft, hwf.1]; exact hm.wf.2) h2
  obtain ⟨hft', -, -, ho', hw', hbp', hends', hfreed'⟩ := Kernel.pipeclose_spec hclose'
  rw [hpipe, hwritable, hm.pipe₁, hm.writes] at hends'
  rw [hpipe, hm.pipe₁] at hfreed'
  rw [hm.pipe₀, hm.reads] at hends
  refine ⟨fun i _ => ?_, ?_, fun f hf hf' => .inl ?_, fun q hq hq' => ?_, fun pi hpi hpi' => ?_⟩
  · rw [ho', ho, hofile]
  · rw [hw', hw]
    exact hwrites
  · rw [hft', hbrk', hft, hbrk, hm.brk] at hf'
    rw [hft', halive', hft, halive]
    rcases (by omega : f = k0.ft.brk + 1 ∨ f = k0.ft.brk) with rfl | rfl
    · exact update_self ..
    · rw [update_of_ne (by omega), update_self]
  · rw [hft', hnet', hft, hnet, hm.net] at hq'
    omega
  · rw [hbp', hbp, hm.brkPipe] at hpi'
    obtain rfl : pi = k0.brkPipe := by omega
    refine hfreed' ?_ ?_
    · rw [hends', hends]
      rfl
    · rw [hends']
      rfl

theorem PipeMade.store {k0 : Kernel} (h : PipeMade k0 k) (i : Int) (f : Nat) : PipeMade k0 (k.store i f) :=
  ⟨h.brk, h.net, h.rf, h.wf, h.pipe₀, h.pipe₁, h.reads, h.writes, h.brkPipe⟩

theorem sysPipe_noEffect {out0 out1 : Bool} (l : Nat) (h : k.sysPipe out0 out1 = some (k', -1)) :
    NoEffect l k k' := by
  obtain ⟨⟨k1, fs⟩, hr, h⟩ := bind_eq_some_iff.1 h
  obtain ⟨hm, hfs, ho, hw⟩ := pipealloc_made hr
  dsimp only at h hm hfs ho hw
  rw [hfs] at h
  rcases k1.fdalloc_cases k.ft.brk with ⟨fd0, hlt0, hfree0, -, ha0⟩ | ⟨-, ha0⟩
  · rw [ha0] at h
    rw [if_neg (by omega)] at h
    have hm0 := hm.store fd0 k.ft.brk
    have hback0 := update_update_free hfree0 k.ft.brk
    rcases (k1.store fd0 k.ft.brk).fdalloc_cases (k.ft.brk + 1) with ⟨fd1, hlt1, hfree1, -, ha1⟩ | ⟨-, ha1⟩
    · rw [ha1] at h
      rw [if_neg (by omega)] at h
      split at h
      · refine closeBoth_noEffect l (((hm0.store _ _).store _ _).store _ _) h ?_ ?_
        · exact (update_two_free hfree0 hfree1).trans ho
        · refine ⟨[(fd0 : Int), fd1, fd0, fd1], by simp [Kernel.store, hw], ?_⟩
          simp only [forall_mem_cons, inOfile_of_lt hlt0, inOfile_of_lt hlt1, true_and]
          exact fun _ h => nomatch h
      · exact absurd (Prod.mk.inj (some.inj h)).2 (by decide)
    · rw [ha1] at h
      refine closeBoth_noEffect l (hm0.store _ _) h
        (hback0.trans ho) ⟨[(fd0 : Int), fd0], by simp [Kernel.store, hw], ?_⟩
      simp only [forall_mem_cons, inOfile_of_lt hlt0, true_and]
      exact fun _ h => nomatch h
  · rw [ha0] at h
    exact closeBoth_noEffect l hm h ho ⟨[], by rw [hw, append_nil], fun _ h => nomatch h⟩

/-! ## `sys_socket` -/

theorem sockalloc_alive {ty : SockType} {r : Ftable × Nat} (h : sockalloc t ty = some r) :
    r.1.brk = t.brk + 1 ∧ r.1.alive t.brk = true := by
  obtain ⟨r', hr', rfl⟩ := map_eq_some_iff.1 h
  obtain ⟨-, hbrk, -, halive, -⟩ := filealloc_new hr'
  refine ⟨hbrk, ?_⟩
  change r'.1.alive t.brk = true
  rw [halive, update_self]

/-- `sys_socket` fails without a free slot only, and then it leaves the new file behind. -/
theorem sysSocket_fails {ty : SockType} (h : k.sysSocket ty = some (k', -1)) : ¬ k.HasFree ∧ ¬ NoEffect 0 k k' := by
  obtain ⟨⟨t, f⟩, hr, h⟩ := map_eq_some_iff.1 h
  obtain ⟨hbrk, halive⟩ := sockalloc_alive hr
  rcases Kernel.fdalloc_cases { k with ft := t } f with ⟨fd, -, -, -, ha⟩ | ⟨hfull, ha⟩
  · rw [ha] at h
    exact absurd (Prod.mk.inj h).2 (slot_ne_neg_one fd)
  · rw [ha] at h
    obtain rfl := (Prod.mk.inj h).1
    refine ⟨hfull, fun hno => ?_⟩
    rcases hno.files k.ft.brk (le_rfl) (by rw [hbrk]; exact Nat.lt_succ_self _) with hdead | ⟨q, hq, -⟩
    · rw [halive] at hdead
      cases hdead
    · exact hq.1 rfl

/-! ## `sys_sockaccept` -/

/-- From `t` to `t'` nothing was allocated, and no block has got another file or another block to accept. -/
structure SameHolders (t t' : Ftable) : Prop where
  f : ∀ q, (t'.net.scbs q).f = (t.net.scbs q).f
  acpt : ∀ q, (t'.net.scbs q).acptScb = (t.net.scbs q).acptScb
  brkScb : t'.net.brkScb = t.net.brkScb
  brk : t'.brk = t.brk

theorem SameHolders.refl (t : Ftable) : SameHolders t t := ⟨fun _ => rfl, fun _ => rfl, rfl, rfl⟩

theorem SameHolders.trans {t'' : Ftable} (h : SameHolders t t') (h' : SameHolders t' t'') : SameHolders t t'' :=
  ⟨fun q => (h'.f q).trans (h.f q), fun q => (h'.acpt q).trans (h.acpt q), h'.brkScb.trans h.brkScb,
    h'.brk.trans h.brk⟩

theorem SameHolders.of_net {n : Stack} (h : SameFiles t.net n) : SameHolders t { t with net := n } :=
  ⟨h.f, h.acpt, h.brkScb, rfl⟩

theorem SameHolders.filefree {r : Ftable × Bool} (h : filefree t f = some r) : SameHolders t r.1 := by
  by_cases href : (t.files f).ref = 1
  · obtain ⟨-, hnet, hbrk, -⟩ := filefree_one href h
    exact ⟨fun _ => by rw [hnet], fun _ => by rw [hnet], by rw [hnet], hbrk⟩
  · unfold Sys.filefree at h
    split at h
    · cases h
    · next hbad =>
      rw [if_pos (by omega)] at h
      cases h
      exact ⟨fun _ => rfl, fun _ => rfl, rfl, rfl⟩

theorem SameHolders.freeSockCb (h : freeSockCb t p = some t') : SameHolders t t' := by
  obtain ⟨u, hu, h⟩ := bind_eq_some_iff.1 h
  obtain ⟨n, hn, rfl⟩ := map_eq_some_iff.1 h
  obtain ⟨hfiles, -⟩ := freeSockCb_files hn
  have htu : SameHolders t u := by
    split at hu
    · obtain ⟨r, hr, rfl⟩ := map_eq_some_iff.1 hu
      exact .filefree hr
    · cases hu
      exact .refl t
  exact htu.trans ⟨hfiles.f, hfiles.acpt, hfiles.brkScb, rfl⟩

theorem SameHolders.recv {pkt : Packet} (h : t.recv pkt = some t') : SameHolders t t' := by
  cases pkt with
  | udp m len raddr hdr =>
    obtain ⟨n, hn, rfl⟩ := map_eq_some_iff.1 h
    exact .of_net (udpRecv_sameFiles hn)
  | tcp m len raddr =>
    change Sys.tcpRecv t m len raddr = some t' at h
    obtain ⟨p, -, h⟩ := bind_eq_some_iff.1 h
    split at h
    · cases h
      exact .refl t
    split at h
    · cases h
      exact .refl t
    unfold Sys.tcpRecvFound at h
    dsimp only at h
    have hput := sameFiles_putConn t.net p
      (tcpRecvSwitch_home ((t.net.conn p).newMbuf m) t.net.brk len raddr m.tcphdr.sport)
    generalize tcpRecvSwitch ((t.net.conn p).newMbuf m) t.net.brk len raddr m.tcphdr.sport = r at h hput
    generalize RxRec.mk raddr m.tcphdr.sport m.tcphdr (t.net.scbs p) r.1.scb = rx at h
    have hconn : SameHolders t { t with net :=
        { t.net.putConn p r.1 with hist := update t.net.hist p (t.net.hist p ++ [rx]) } } :=
      ⟨hput.f, hput.acpt, rfl, rfl⟩
    split at h
    · exact hconn.trans (.freeSockCb h)
    · cases h
      exact hconn

theorem SameHolders.foldlM_recv {wait : List Packet} (h : wait.foldlM Ftable.recv t = some t') :
    SameHolders t t' := by
  induction wait generalizing t with
  | nil =>
    rw [← some.inj h]
    exact .refl t
  | cons pkt wait ih =>
    obtain ⟨u, hu, h⟩ := bind_eq_some_iff.1 h
    exact (SameHolders.recv hu).trans (ih h)

/-- `tcp_accept` has read the file of the block when it fails. -/
theorem tcpAccept_fails {q : Nat} {wait : List Packet} {killed : Bool} {r : Kernel × Int}
    (h : k.tcpAccept q wait killed = some r) (hr : r.2 < 0) :
    ∃ t, r.1 = { k with ft := t } ∧ SameHolders k.ft t ∧ (k.ft.net.scbs q).f ≠ 0 := by
  unfold Kernel.tcpAccept at h
  split at h
  · cases h
  split at h
  · rw [← some.inj h] at hr
    exact absurd hr (Int.lt_irrefl 0)
  dsimp only at h
  split at h
  · cases h
  next hread =>
  have hf : (k.ft.net.scbs q).f ≠ 0 := fun h0 => hread (.inl h0)
  split at h
  · refine ⟨k.ft, ?_, .refl k.ft, hf⟩
    split at h <;> rw [← some.inj h]
  · obtain ⟨t, ht, h⟩ := bind_eq_some_iff.1 h
    split at h
    · cases h
    · refine ⟨t, ?_, .foldlM_recv ht, hf⟩
      rw [← some.inj h]

/-- The file and the block of `sockaccept`: those that wait, or new ones that wait from now on. -/
theorem sockaccept_holders {r : Ftable × Nat × Nat} (h : sockaccept t p = some r) : (r.1.net.scbs r.2.2).f = r.2.1 ∧
      (r.1.brk = t.brk ∧ r.1.net.brkScb = t.net.brkScb ∨
        r.2 = (t.brk, t.net.brkScb) ∧ r.1.brk = t.brk + 1 ∧ r.1.net.brkScb = t.net.brkScb + 1 ∧
          (r.1.net.scbs p).acptScb = t.net.brkScb) := by
  unfold sockaccept at h
  dsimp only at h
  split at h
  · split at h
    · cases h
      exact ⟨rfl, .inl ⟨rfl, rfl⟩⟩
    · cases h
  · next hnone =>
    obtain ⟨⟨u, f⟩, hu, h⟩ := bind_eq_some_iff.1 h
    obtain ⟨hf, hbrk, hnet, -⟩ := filealloc_new hu
    obtain ⟨n, hn, rfl⟩ := map_eq_some_iff.1 h
    unfold Net.sockaccept at hn
    rw [hnet, if_neg hnone] at hn
    have hsame := sameFiles_linkClosed.addSockCb hn
    rw [hnet, hf]
    refine ⟨by simp, .inr ⟨rfl, hbrk, hsame.brkScb, ?_⟩⟩
    have hacpt : (n.scbs p).acptScb = t.net.brkScb := by
      rw [hsame.acpt]
      simp [sockcopy, Stack.alloc]
    by_cases hp : p = t.net.brkScb
    · rw [hp] at hacpt ⊢
      simpa using hacpt
    · simpa [hp] using hacpt

theorem acceptDone_ne {q : Nat} {fd : Nat} : k.acceptDone p q fd ≠ some (k', -1) := by
  intro h
  unfold Kernel.acceptDone at h
  split at h
  · cases h
  · exact slot_ne_neg_one fd (Prod.mk.inj (some.inj h)).2

/-- A `sockaccept` that gives slot `fd` back, or leaves slot 0. -/
theorem acceptBad_noEffect {r : Ftable × Nat × Nat} {nonblockable : Nat → Bool} {fd : Nat} (hp : p ≠ 0)
    (hr : sockaccept k.ft p = some r) (hfd : fd < nofile) (hfree : k.ofile (fd : Int) = 0)
    (hsame : SameHolders r.1 t) (hread : r.2.1 ≠ 0) :
    NoEffect p k (Kernel.acceptBad { k.store fd r.2.1 with ft := t, nonblockable := nonblockable } fd).1 ↔
      fd ≠ 0 := by
  obtain ⟨hf, hnew⟩ := sockaccept_holders hr
  constructor
  · rintro hno rfl
    have hkept := hno.ofile 0 (inOfile_of_lt hfd)
    change update k.ofile 0 r.2.1 0 = k.ofile 0 at hkept
    exact hread (hkept.trans hfree)
  · intro hne
    have hne' : (fd : Int) ≠ 0 := by omega
    unfold Kernel.acceptBad
    rw [if_pos hne']
    refine ⟨fun i _ => ?_, ⟨[(fd : Int), fd], by simp [Kernel.store], ?_⟩, fun f hf1 hf2 => .inr ?_,
      fun q hq1 hq2 => .inr ?_, fun pi hpi hpi' => absurd hpi' (not_lt.2 hpi)⟩
    · exact congrFun (update_update_free hfree r.2.1) i
    · simp only [forall_mem_cons, inOfile_of_lt hfd, true_and]
      exact fun _ h => nomatch h
    · rw [show Kernel.ft _ = t from rfl, hsame.brk] at hf2
      rcases hnew with ⟨hbrk, -⟩ | ⟨hpair, hbrk, -, hacpt⟩
      · omega
      · obtain rfl : f = k.ft.brk := by omega
        rw [hpair] at hf
        exact ⟨_, ⟨hp, (hsame.acpt p).trans hacpt⟩, (hsame.f _).trans hf⟩
    · rw [show Kernel.ft _ = t from rfl, hsame.brkScb] at hq2
      rcases hnew with ⟨-, hbrk⟩ | ⟨-, -, hbrk, hacpt⟩
      · omega
      · obtain rfl : q = k.ft.net.brkScb := by omega
        exact ⟨hp, (hsame.acpt p).trans hacpt⟩

theorem sockaccept_fails {wait : List Packet} {killed : Bool} (hp : p ≠ 0)
    (h : k.sockaccept p wait killed = some (k', -1)) : NoEffect p k k' ↔ k.ofile 0 ≠ 0 ∧ k.HasFree := by
  obtain ⟨r, hr, h⟩ := bind_eq_some_iff.1 h
  dsimp only at h
  generalize (if (k.ft.net.scbs p).acptScb ≠ 0 then k.nonblockable
    else update k.nonblockable r.2.1 (k.nonblockable (k.ft.net.scbs p).f)) = nonblockable at h
  rcases Kernel.fdalloc_cases { k with ft := r.1, nonblockable := nonblockable } r.2.1 with
    ⟨fd, hfd, hfree, hfirst, ha⟩ | ⟨hfull, ha⟩
  · rw [ha] at h
    rw [if_neg (by omega)] at h
    split at h
    · obtain ⟨a, hacc, h⟩ := bind_eq_some_iff.1 h
      split at h
      · next hneg =>
        obtain ⟨t, ht, hsame, hread⟩ := tcpAccept_fails hacc hneg
        change (r.1.net.scbs r.2.2).f ≠ 0 at hread
        rw [(sockaccept_holders hr).1] at hread
        obtain rfl := (Prod.mk.inj (some.inj h)).1
        rw [ht]
        refine (acceptBad_noEffect hp hr hfd hfree hsame hread).trans ⟨fun hne => ⟨?_, fd, hfd, hfree⟩, ?_⟩
        · exact hfirst 0 (pos_of_ne_zero hne)
        · rintro ⟨h0, -⟩ rfl
          exact h0 hfree
      · exact absurd h acceptDone_ne
    · exact absurd h acceptDone_ne
  · rw [ha] at h
    obtain rfl := (Prod.mk.inj (some.inj h)).1
    refine ⟨fun hno => ?_, fun hsafe => absurd hsafe.2 hfull⟩
    -- the write to `ofile[-1]`
    obtain ⟨is, his, hin⟩ := hno.writes
    have : is = [-1] := (append_cancel_left his).symm
    exact absurd (hin (-1) (by rw [this]; exact mem_cons_self)).1 (by decide)

theorem sysSockaccept_fails {fd : Int} {wait : List Packet} {killed : Bool} (hp : (k.ft.files (k.argfd fd)).scb = p)
    (h : k.sysSockaccept fd wait killed = some (k', -1)) :
    NoEffect p k k' ↔ (k.IsSock fd → k.ofile 0 ≠ 0 ∧ k.HasFree) := by
  subst hp
  unfold Kernel.sysSockaccept at h
  dsimp only at h
  split at h
  · next hnone => exact iff_of_true (.of_same h) fun hsock => absurd hnone hsock.1
  next hopen =>
  split at h
  · cases h
  split at h
  · next hother =>
    refine iff_of_true (.of_same h) fun hsock => ?_
    rcases hother with htype | hscb
    · exact absurd hsock.2.1 htype
    · exact absurd hscb hsock.2.2
  next hsock =>
  split at h
  · cases h
  have hscb : (k.ft.files (k.argfd fd)).scb ≠ 0 := fun h0 => hsock (.inr h0)
  have htype : (k.ft.files (k.argfd fd)).type = .sock := not_not.1 fun ht => hsock (.inl ht)
  exact (sockaccept_fails hscb h).trans ⟨fun h _ => h, fun h => h ⟨hopen, htype, hscb⟩⟩

/-- When a call that makes descriptors fails without an effect. -/
theorem failedDescriptor_iff (k k' : Kernel) (c : Call) (h : k.call c = some (k', -1)) :
    NoEffect (c.listener k) k k' ↔ k.Safe c := by
  cases c with
  | openFile path omode ip => exact iff_of_true (sysOpen_noEffect 0 h) trivial
  | pipe out0 out1 => exact iff_of_true (sysPipe_noEffect 0 h) trivial
  | dup fd => exact iff_of_true (sysDup_noEffect 0 h) trivial
  | socket socktype =>
    obtain ⟨hfull, heffect⟩ := sysSocket_fails h
    exact iff_of_false heffect hfull
  | sockaccept fd wait killed => exact sysSockaccept_fails rfl h

end

/-! ## Calls that fail with an effect -/

/-- A process with one nonblocking socket that listens, file 1 and block 1. -/
def listenKernel (ref : Nat) (ofile : Int → Nat) : Kernel where
  ft :=
    { fileinit socketInit with
      net := socklisten ((sockalloc (fileinit socketInit) .tcp).elim socketInit fun r => r.1.net) 1 80
      files := fun _ => ⟨.sock, ref, 1, 0, 0⟩
      alive := fun f => f == 1
      brk := 2 }
  pipe := fun _ => 0
  writable := fun _ => true
  nonblockable := fun f => f == 1
  pipes := fun _ => Proc.pipealloc fun _ => 0
  pipeAlive := fun _ => false
  brkPipe := 1
  ofile := ofile
  writes := []

/-- All its slots are taken, by copies of the socket. -/
def fullKernel : Kernel := listenKernel nofile fun _ => 1

/-- Slot 1 is the socket, and slot 0 is free. -/
def stdinClosed : Kernel := listenKernel 1 fun i => if i = 1 then 1 else 0

theorem fullKernel_not_hasFree : ¬ fullKernel.HasFree := fun ⟨_, _, h⟩ => Nat.one_ne_zero h

/-- A full table: `sys_socket` leaves a file, `sys_sockaccept` writes `ofile[-1]`.  With slot 0 free, `sys_sockaccept`
leaves the file there. -/
theorem failedDescriptor_effects :
    (∃ k', fullKernel.call (.socket .tcp) = some (k', -1) ∧ ¬ NoEffect 0 fullKernel k') ∧
      (∃ k', fullKernel.call (.sockaccept 1 [] false) = some (k', -1) ∧ ¬ NoEffect 1 fullKernel k') ∧
      (∃ k', stdinClosed.call (.sockaccept 1 [] false) = some (k', -1) ∧ ¬ NoEffect 1 stdinClosed k') := by
  have hsock : fullKernel.IsSock 1 ∧ stdinClosed.IsSock 1 :=
    ⟨⟨by decide, rfl, by decide⟩, ⟨by decide, rfl, by decide⟩⟩
  refine ⟨?_, ?_, ?_⟩
  · obtain ⟨⟨k', _⟩, h, rfl⟩ : ∃ r, fullKernel.call (.socket .tcp) = some r ∧ r.2 = -1 := by
      decide +kernel
    exact ⟨k', h, (sysSocket_fails h).2⟩
  · obtain ⟨⟨k', _⟩, h, rfl⟩ : ∃ r, fullKernel.sysSockaccept 1 [] false = some r ∧ r.2 = -1 := by
      decide +kernel
    exact ⟨k', h, fun hno => fullKernel_not_hasFree ((sysSockaccept_fails rfl h).1 hno hsock.1).2⟩
  · obtain ⟨⟨k', _⟩, h, rfl⟩ : ∃ r, stdinClosed.sysSockaccept 1 [] false = some r ∧ r.2 = -1 := by
      decide +kernel
    exact ⟨k', h, fun hno => ((sysSockaccept_fails rfl h).1 hno hsock.2).1 rfl⟩

theorem failedDescriptor_iff_full :
    ∃ k', fullKernel.call (.openFile true oRdonly (some ⟨.file, 0⟩)) = some (k', -1) ∧ NoEffect 0 fullKernel k' := by
  obtain ⟨⟨k', _⟩, h, rfl⟩ : ∃ r, fullKernel.call (.openFile true oRdonly (some ⟨.file, 0⟩)) = some r ∧ r.2 = -1 := by
    decide +kernel
  exact ⟨k', h, (failedDescriptor_iff fullKernel k' _ h).2 trivial⟩

end InternetOs.Sys
