import InternetOs.Lib.Holders
import InternetOs.Net.Socket

/-!
# Files and descriptors (`kernel/fs/file.c`, `sys/sysfile.c`, `sys/sysnet.c`, `proc/proc.c`)

The file table over the protocol stack: which `struct file` is allocated, its reference count and, for a socket,
its control block; and over it the `ofile` slots of the processes.  A pipe or an inode behind a file is not part
of the model, nor is the flag `nonblockable`: `tcp_accept` may fail or succeed at any time.

A function that reads or writes memory that is freed or out of bounds, or that panics, gives `none`.  `frees` is
a ghost, the calls of `ufkfree` for files and control blocks.
-/

namespace InternetOs.Sys

open Net Function

/-- FD_NONE, FD_PIPE, FD_INODE, FD_DEVICE, FD_SOCK. -/
inductive FileType
  | none | pipe | inode | device | sock
  deriving DecidableEq, Repr

structure File where
  type : FileType
  ref : Nat
  scb : Nat
  prev : Nat
  next : Nat
  deriving DecidableEq, Repr

inductive Obj
  | file (f : Nat)
  | scb (p : Nat)
  deriving DecidableEq, Repr

structure Ftable where
  net : Stack
  /-- `ftable.file`. -/
  file : Nat
  files : Nat → File
  alive : Nat → Bool
  brk : Nat
  frees : List Obj

def Ftable.setFile (t : Ftable) (f : Nat) (file : File) : Ftable := { t with files := update t.files f file }

def fileinit (net : Stack) : Ftable :=
  { net := net, file := 0, files := fun _ => ⟨.none, 0, 0, 0, 0⟩, alive := fun _ => false, brk := 1, frees := [] }

/-! ## `file.c` -/

/-- The walk of `filealloc` to the end of the list. -/
def Ftable.lastFile (t : Ftable) : Nat → Nat → Nat → Option Nat
  | 0, _, _ => none
  | fuel + 1, p, f =>
    if f = 0 then some p
    else if t.alive f then t.lastFile fuel f (t.files f).next else none

/-- `filealloc` links the new file behind the last one, but never sets `ftable.file`. -/
def filealloc (t : Ftable) : Option (Ftable × Nat) :=
  (t.lastFile (t.brk + 1) 0 t.file).map fun p =>
    let f := t.brk
    let t : Ftable :=
      { t with
        files := update t.files f { type := .none, ref := 1, scb := 0, prev := p, next := 0 }
        alive := update t.alive f true
        brk := f + 1 }
    (if p ≠ 0 then t.setFile p { t.files p with next := f } else t, f)

def filedup (t : Ftable) (f : Nat) : Option Ftable :=
  if t.alive f = false ∨ (t.files f).ref < 1 then none
  else some (t.setFile f { t.files f with ref := (t.files f).ref + 1 })

/-- `filefree`; the flag says that the last reference is gone. -/
def filefree (t : Ftable) (f : Nat) : Option (Ftable × Bool) :=
  if t.alive f = false ∨ (t.files f).ref < 1 then none
  else if (t.files f).ref - 1 > 0 then
    some (t.setFile f { t.files f with ref := (t.files f).ref - 1 }, false)
  else
    let next := (t.files f).next
    let prev := (t.files f).prev
    let t := t.setFile f { t.files f with ref := 0, type := .none }
    (if prev = 0 then
      if next = 0 then some { t with file := next }
      else if t.alive next then some ({ t with file := next }.setFile next { t.files next with prev := 0 })
      else none
    else if t.alive prev && t.alive next then
      let t := t.setFile prev { t.files prev with next := next }
      some (t.setFile next { t.files next with prev := prev })
    else none).map fun t =>
    ({ t with alive := update t.alive f false, frees := t.frees ++ [.file f] }, true)

/-- `free_sock_cb` with what it does to the file of the block. -/
def freeSockCb (t : Ftable) (p : Nat) : Option Ftable :=
  (if (t.net.scbs p).f ≠ 0 then (filefree t (t.net.scbs p).f).map Prod.fst else some t).bind fun t =>
    (Net.freeSockCb t.net p).map fun net => { t with net := net, frees := t.frees ++ [.scb p] }

def sockclose (t : Ftable) (p : Nat) : Option Ftable :=
  if (t.net.scbs p).socktype = .tcp then
    let r := tcpClose (t.net.conn p)
    let t := { t with net := t.net.putConn p r.1 }
    if r.2 = 0 then freeSockCb t p else some t
  else freeSockCb t p

def fileclose (t : Ftable) (f : Nat) : Option Ftable :=
  let ff := t.files f
  (filefree t f).bind fun r =>
    if r.2 = false then some r.1
    else if ff.type = .sock then
      if r.1.net.alive ff.scb then
        sockclose { r.1 with net := r.1.net.setScb ff.scb { r.1.net.scbs ff.scb with f := 0 } } ff.scb
      else none
    else some r.1

/-! ## `socket.c` and `tcp.c` with files -/

def sockalloc (t : Ftable) (socktype : SockType) : Option (Ftable × Nat) :=
  (filealloc t).map fun r =>
    let p := r.1.net.brkScb
    let net := Net.sockalloc r.1.net socktype
    ({ r.1.setFile r.2 { r.1.files r.2 with type := .sock, scb := p } with
        net := net.setScb p { net.scbs p with f := r.2 } }, r.2)

/-- `sockaccept` up to `fdalloc`: `new_file` and `new_scb`, which are made if there is none that waits. -/
def sockaccept (t : Ftable) (p : Nat) : Option (Ftable × Nat × Nat) :=
  let acpt := (t.net.scbs p).acptScb
  if acpt ≠ 0 then
    if t.net.alive acpt then some (t, (t.net.scbs acpt).f, acpt) else none
  else
    (filealloc t).bind fun r =>
      let q := r.1.net.brkScb
      (Net.sockaccept r.1.net p).map fun net =>
        ({ r.1.setFile r.2 { r.1.files r.2 with type := (t.files (t.net.scbs p).f).type, scb := q } with
            net := net.setScb q { net.scbs q with f := r.2 } }, r.2, q)

/-- `tcp_recv` once it has found the block. -/
def tcpRecvFound (t : Ftable) (p : Nat) (m : Mbuf) (len : UInt16) (raddr : UInt32) : Option Ftable :=
  let r := tcpRecvSwitch ((t.net.conn p).newMbuf m) t.net.brk len raddr m.tcphdr.sport
  let rx : RxRec :=
    { raddr := raddr, dport := m.tcphdr.sport, hdr := m.tcphdr, before := t.net.scbs p, after := r.1.scb }
  let t := { t with net :=
    { t.net.putConn p r.1 with hist := update t.net.hist p (t.net.hist p ++ [rx]) } }
  if r.2 then freeSockCb t p else some t

def tcpRecv (t : Ftable) (m : Mbuf) (len : UInt16) (raddr : UInt32) : Option Ftable :=
  (getSockCb t.net .tcp m.tcphdr.dport raddr m.tcphdr.sport).bind fun p =>
    if p = 0 then some t
    else if wrongPeer (t.net.scbs p) m.tcphdr.sport then some t
    else tcpRecvFound t p m len raddr

/-! ## System calls -/

/-- `NPROC` and `NOFILE`. -/
def nproc : Nat := 64
def nofile : Nat := 1024

instance : NeZero nproc := ⟨by decide⟩
instance : NeZero nofile := ⟨by decide⟩

abbrev Pid := Fin nproc
abbrev Fd := Fin nofile

/-- The local variables of a `sockaccept` that waits. -/
structure Accepting where
  scb : Nat
  newScb : Nat
  newFd : Fd

structure Tasks where
  ft : Ftable
  ofile : Pid × Fd → Nat
  live : Pid → Bool
  accepting : Pid → Option Accepting

/-- One process without open files. -/
def Tasks.init : Tasks :=
  { ft := fileinit socketInit, ofile := fun _ => 0, live := fun pr => pr == 0
    accepting := fun _ => none }

def Tasks.setSlot (s : Tasks) (x : Pid × Fd) (f : Nat) : Tasks := { s with ofile := update s.ofile x f }

/-- `fdalloc`: the first free slot. -/
def Tasks.fdalloc (s : Tasks) (pr : Pid) : Option Fd := (List.finRange nofile).find? fun fd => s.ofile (pr, fd) = 0

/-- `sys_socket`; without a free slot the new socket is left behind. -/
def sysSocket (s : Tasks) (pr : Pid) (socktype : SockType) : Option Tasks :=
  (sockalloc s.ft socktype).map fun r =>
    match s.fdalloc pr with
    | some fd => { s with ft := r.1 }.setSlot (pr, fd) r.2
    | none => { s with ft := r.1 }

/-- What `sys_open` does with the file table. -/
def sysOpen (s : Tasks) (pr : Pid) (type : FileType) : Option Tasks :=
  (filealloc s.ft).bind fun r =>
    match s.fdalloc pr with
    | some fd => some ({ s with ft := r.1.setFile r.2 { r.1.files r.2 with type := type } }.setSlot (pr, fd) r.2)
    | none => (fileclose r.1 r.2).map fun ft => { s with ft := ft }

def sysDup (s : Tasks) (pr : Pid) (fd : Fd) : Option Tasks :=
  let f := s.ofile (pr, fd)
  if f = 0 then some s
  else
    match s.fdalloc pr with
    | some fd' => (filedup s.ft f).map fun ft => { s.setSlot (pr, fd') f with ft := ft }
    | none => some s

def sysClose (s : Tasks) (pr : Pid) (fd : Fd) : Option Tasks :=
  let f := s.ofile (pr, fd)
  if f = 0 then some s
  else (fileclose s.ft f).map fun ft => { s.setSlot (pr, fd) 0 with ft := ft }

/-- One round of the loop in `fork`. -/
def Tasks.forkFd (pr np : Pid) (s : Tasks) (fd : Fd) : Option Tasks :=
  let f := s.ofile (pr, fd)
  if f = 0 then some s
  else (filedup s.ft f).map fun ft => { s with ft := ft }.setSlot (np, fd) f

/-- `fork`; `np` is the unused process that `allocproc` takes. -/
def fork (s : Tasks) (pr np : Pid) : Option Tasks :=
  if s.live np then none
  else (List.finRange nofile).foldlM (Tasks.forkFd pr np) { s with live := update s.live np true }

/-- One round of the loop in `exit`. -/
def Tasks.exitFd (pr : Pid) (s : Tasks) (fd : Fd) : Option Tasks :=
  let f := s.ofile (pr, fd)
  if f = 0 then some s
  else (fileclose s.ft f).map fun ft => { s with ft := ft }.setSlot (pr, fd) 0

/-- `exit` and the `wait` that makes the process slot free again. -/
def exit (s : Tasks) (pr : Pid) : Option Tasks :=
  ((List.finRange nofile).foldlM (Tasks.exitFd pr) s).map fun s => { s with live := update s.live pr false }

/-- The control block a socket call works on; `some 0` if it returns -1. -/
def Tasks.argsock (s : Tasks) (pr : Pid) (fd : Fd) : Option Nat :=
  let f := s.ofile (pr, fd)
  if f = 0 then some 0
  else if s.ft.alive f then if (s.ft.files f).type = .sock then some (s.ft.files f).scb else some 0
  else none

/-- `sys_sockaccept` up to the wait in `tcp_accept`.  Without a free slot it writes to `ofile[-1]`. -/
def sysSockaccept (s : Tasks) (pr : Pid) (fd : Fd) : Option Tasks :=
  (s.argsock pr fd).bind fun p =>
    if p = 0 then some s
    else if s.ft.net.alive p then
      (sockaccept s.ft p).bind fun r =>
        (s.fdalloc pr).map fun fd' =>
          { { s with ft := r.1 }.setSlot (pr, fd') r.2.1 with
            accepting := update s.accepting pr (some { scb := p, newScb := r.2.2, newFd := fd' }) }
    else none

/-- The end of a `sockaccept` whose `tcp_accept` succeeds. -/
def acceptDone (s : Tasks) (pr : Pid) : Option Tasks :=
  (s.accepting pr).bind fun a =>
    if s.ft.net.alive a.scb && s.ft.net.alive a.newScb then
      some { s with
        ft := { s.ft with net := s.ft.net.setScb a.scb { s.ft.net.scbs a.scb with acptScb := 0 } }
        accepting := update s.accepting pr none }
    else none

/-- The label `bad` of `sockaccept`: slot 0 is not taken back. -/
def acceptBad (s : Tasks) (pr : Pid) : Option Tasks :=
  (s.accepting pr).map fun a =>
    { if a.newFd.val ≠ 0 then s.setSlot (pr, a.newFd) 0 else s with
      accepting := update s.accepting pr none }

/-- The other calls on a socket. -/
inductive SockCall
  | listen (sport : UInt16)
  | connect (raddr : UInt32) (dport : UInt16)
  | send (m : Mbuf) (flg : UInt8)

def SockCall.op (p : Nat) : SockCall → Op
  | .listen sport => .socklisten p sport
  | .connect raddr dport => .sockconnect p raddr dport
  | .send m flg => .socksend p m flg

def sysSock (s : Tasks) (pr : Pid) (fd : Fd) (c : SockCall) : Option Tasks :=
  (s.argsock pr fd).bind fun p =>
    if p = 0 then some s
    else (s.ft.net.step (c.op p)).map fun net => { s with ft := { s.ft with net := net } }

inductive Ev
  | socket (pr : Pid) (socktype : SockType)
  | openFile (pr : Pid) (type : FileType)
  | dup (pr : Pid) (fd : Fd)
  | close (pr : Pid) (fd : Fd)
  | fork (pr np : Pid)
  | exit (pr : Pid)
  | accept (pr : Pid) (fd : Fd)
  | acceptDone (pr : Pid)
  | acceptBad (pr : Pid)
  | sock (pr : Pid) (fd : Fd) (c : SockCall)
  | tcpRecv (m : Mbuf) (len : UInt16) (raddr : UInt32)
  | udpRecv (m : Mbuf) (len : UInt16) (raddr : UInt32) (hdr : UdpHdr)

/-- The process can make a system call. -/
def Tasks.ready (s : Tasks) (pr : Pid) : Bool := s.live pr && (s.accepting pr).isNone

def Tasks.step (s : Tasks) : Ev → Option Tasks
  | .socket pr t => if s.ready pr then sysSocket s pr t else none
  | .openFile pr type =>
    if s.ready pr then if type = .inode ∨ type = .device then sysOpen s pr type else none else none
  | .dup pr fd => if s.ready pr then sysDup s pr fd else none
  | .close pr fd => if s.ready pr then sysClose s pr fd else none
  | .fork pr np => if s.ready pr then Sys.fork s pr np else none
  | .exit pr => if s.ready pr then Sys.exit s pr else none
  | .accept pr fd => if s.ready pr then sysSockaccept s pr fd else none
  | .acceptDone pr => Sys.acceptDone s pr
  | .acceptBad pr => Sys.acceptBad s pr
  | .sock pr fd c => if s.ready pr then sysSock s pr fd c else none
  | .tcpRecv m len raddr => (Sys.tcpRecv s.ft m len raddr).map fun ft => { s with ft := ft }
  | .udpRecv m len raddr hdr =>
    (Net.udpRecv s.ft.net m len raddr hdr).map fun net => { s with ft := { s.ft with net := net } }

end InternetOs.Sys
