import InternetOs.Net.Tcp

/-!
# The socket tables (`kernel/net/sock_cb.c`) and the port map (`kernel/net/socket.c`)

A `Stack` is the memory of the protocol stack: the control blocks by address, which of
them are allocated, the two tables of bucket heads, the port map, the mbuf heap and the
segments sent.  Addresses are never handed out twice.  A function that reads or writes a
block that is not allocated, that walks in circles or that panics gives `none`.

`hist` is a ghost: for each block the TCP segments it has received since it was
allocated, with the block before and after each.
-/

namespace InternetOs.Net

open Function

/-- `tcp_scb_table` and `udp_scb_table`. -/
inductive Tab
  | tcp | udp
  deriving DecidableEq, Repr

/-- The table of a block: everything that is not SOCK_TCP is in `udp_scb_table`. -/
def SockType.tab (t : SockType) : Tab := if t = .tcp then .tcp else .udp

/-- `SOCK_CB_LEN`. -/
def sockCbLen : Nat := 128

/-- A segment received by a block. -/
structure RxRec where
  raddr : UInt32
  dport : UInt16
  hdr : TcpHdr
  before : SockCb
  after : SockCb

structure Stack where
  scbs : Nat → SockCb
  alive : Nat → Bool
  brkScb : Nat
  table : Tab → Nat → Nat
  /-- Bit `i` of byte `j` of `sport_table` is number `8 * j + i`. -/
  sportTable : Nat → Bool
  currentSport : Nat
  mbufs : MbufHeap
  brk : Nat
  out : List TcpSeg
  hist : Nat → List RxRec

def startOfSport : Nat := 20000
def sportNum : Nat := 65535

/-- The state `socket_init` leaves. -/
def socketInit : Stack :=
  { scbs := fun _ => allocSockCb 0 0 0 0 .unknown
    alive := fun _ => false, brkScb := 1, table := fun _ _ => 0
    sportTable := fun _ => false, currentSport := startOfSport
    mbufs := fun _ => emptyMbuf, brk := 1, out := [], hist := fun _ => [] }

/-! ## Ports -/

/-- The loop of `get_new_sport`; `none` is its panic. -/
def getNewSportLoop (sportTable : Nat → Bool) : Nat → Nat → Nat → Option (Nat × Nat)
  | 0, _, _ => none
  | fuel + 1, current, islooped =>
    if islooped < 2 then
      match (List.range 8).find? fun i => !sportTable (8 * (current / 8) + i) with
      | some i => some (current, i)
      | none =>
        if current + 8 ≥ sportNum then getNewSportLoop sportTable fuel startOfSport (islooped + 1)
        else getNewSportLoop sportTable fuel (current + 8) islooped
    else none

def getNewSport (n : Stack) : Option (Stack × UInt16) :=
  (getNewSportLoop n.sportTable (3 * sportNum) n.currentSport 0).map fun r =>
    ({ n with
        currentSport := r.1
        sportTable := update n.sportTable (8 * (r.1 / 8) + r.2) true },
      UInt16.ofNat (r.1 + r.2))

/-- `get_specified_sport`: a port in use gives `(uint16_t)-1`. -/
def getSpecifiedSport (n : Stack) (sport : UInt16) : Stack × UInt16 :=
  if n.sportTable sport.toNat then (n, 65535)
  else ({ n with sportTable := update n.sportTable sport.toNat true }, sport)

def releaseSport (n : Stack) (sport : UInt16) : Stack :=
  { n with sportTable := update n.sportTable sport.toNat false }

/-! ## Blocks -/

def Stack.setScb (n : Stack) (p : Nat) (scb : SockCb) : Stack :=
  { n with scbs := update n.scbs p scb }

@[simp] theorem Stack.scbs_setScb (n : Stack) (p : Nat) (scb : SockCb) :
    (n.setScb p scb).scbs = update n.scbs p scb := rfl

def Stack.setHead (n : Stack) (t : Tab) (i p : Nat) : Stack :=
  { n with table := update n.table t (update (n.table t) i p) }

def Stack.setScbNext (n : Stack) (p q : Nat) : Stack := n.setScb p { n.scbs p with next := q }

def Stack.setScbPrev (n : Stack) (p q : Nat) : Stack := n.setScb p { n.scbs p with prev := q }

/-- The bucket of a block. -/
def SockCb.bucket (scb : SockCb) : Nat := scb.sport.toNat % sockCbLen

/-- `alloc_sock_cb`: the block and its address. -/
def Stack.alloc (n : Stack) (raddr : UInt32) (sport dport : UInt16) (socktype : SockType) :
    Stack × Nat :=
  ({ n with
      scbs := update n.scbs n.brkScb (allocSockCb n.brkScb raddr sport dport socktype)
      alive := update n.alive n.brkScb true
      brkScb := n.brkScb + 1 }, n.brkScb)

/-- The walk of `add_sock_cb` to the last block of a bucket. -/
def Stack.lastScb (n : Stack) : Nat → Nat → Option Nat
  | 0, _ => none
  | fuel + 1, tail =>
    if n.alive tail then
      if (n.scbs tail).next = 0 then some tail else n.lastScb fuel (n.scbs tail).next
    else none

def addSockCb (n : Stack) (p : Nat) : Option Stack :=
  let t := (n.scbs p).socktype.tab
  let i := (n.scbs p).bucket
  if n.table t i = 0 then some (((n.setHead t i p).setScbPrev p 0).setScbNext p 0)
  else (n.lastScb n.brkScb (n.table t i)).map fun tail =>
    ((n.setScbNext tail p).setScbPrev p tail).setScbNext p 0

/-- The test of `get_sock_cb`; a block with remote port 0 takes every sender. -/
def SockCb.takes (scb : SockCb) (sport : UInt16) (raddr : UInt32) (dport : UInt16) : Bool :=
  scb.sport == sport && (scb.dport == 0 || (scb.dport != 0 && scb.dport == dport && scb.raddr == raddr))

/-- The walk of `get_sock_cb`; `some 0` is its null pointer. -/
def Stack.findScb (n : Stack) (sport : UInt16) (raddr : UInt32) (dport : UInt16) :
    Nat → Nat → Option Nat
  | 0, _ => none
  | fuel + 1, p =>
    if p = 0 then some 0
    else if n.alive p then
      if (n.scbs p).takes sport raddr dport then some p
      else n.findScb sport raddr dport fuel (n.scbs p).next
    else none

def getSockCb (n : Stack) (t : Tab) (sport : UInt16) (raddr : UInt32) (dport : UInt16) :
    Option Nat :=
  n.findScb sport raddr dport (n.brkScb + 1) (n.table t (sport.toNat % sockCbLen))

/-- The unlinking in `free_sock_cb`. -/
def unlinkScb (n : Stack) (p : Nat) : Option Stack :=
  let t := (n.scbs p).socktype.tab
  let i := (n.scbs p).bucket
  let next := (n.scbs p).next
  if next ≠ 0 ∧ n.alive next = false then none
  else
    let n := if next ≠ 0 then n.setScbPrev next (n.scbs p).prev else n
    let prev := (n.scbs p).prev
    if prev ≠ 0 then
      if n.alive prev then some (n.setScbNext prev (n.scbs p).next) else none
    else some (n.setHead t i (n.scbs p).next)

/-- `free_sock_cb`; what it does to the block's own file and queues is gone with the block. -/
def freeSockCb (n : Stack) (p : Nat) : Option Stack :=
  let n := releaseSport n (n.scbs p).sport
  (if (n.scbs p).dport ≠ 0 then unlinkScb n p else some n).map fun n =>
    { n with alive := update n.alive p false }

end InternetOs.Net
