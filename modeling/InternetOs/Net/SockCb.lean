import InternetOs.Net.Mbuf

/-!
# The socket control block (`include/net/sock_cb.h`, `kernel/net/sock_cb.c`)

The record and the operations on one control block: its initial value and the
two mbuf queues.  The locks, `wnd` and `wnd_idx` are left out: no modelled
function reads them.  The tables the blocks are linked into are in `Net.Table`.
-/

namespace InternetOs.Net

inductive SockCbState
  | closed | listen | synSent | synRcvd | estab | finWait1 | finWait2
  | closing | timeWait | closeWait | lastAck
  deriving DecidableEq, Repr

inductive SockType
  | unknown | udp | tcp
  deriving DecidableEq, Repr

/-- `snd`: the send sequence variables. -/
structure SndSeq where
  initSeq : UInt32
  unack : UInt32
  nxtSeq : UInt32
  wnd : UInt32
  wl1 : UInt32
  wl2 : UInt32
  deriving DecidableEq, Repr

/-- `rcv`: the receive sequence variables. -/
structure RcvSeq where
  initSeq : UInt32
  nxtSeq : UInt32
  wnd : UInt32
  deriving DecidableEq, Repr

structure SockCb where
  f : Nat
  socktype : SockType
  acptScb : Nat
  state : SockCbState
  sport : UInt16
  raddr : UInt32
  dport : UInt16
  snd : SndSeq
  rcv : RcvSeq
  txq : Mbufq
  rxq : Mbufq
  prev : Nat
  next : Nat
  deriving DecidableEq, Repr

/-- `SOCK_CB_DEFAULT_WND_SIZE`. -/
def sockCbDefaultWndSize : UInt32 := 4096

/-- The block `alloc_sock_cb` returns: zeroed memory, then its field assignments. -/
def allocSockCb (f : Nat) (raddr : UInt32) (sport dport : UInt16) (socktype : SockType) : SockCb :=
  { f := f, socktype := socktype, acptScb := 0, state := .closed
    sport := sport, raddr := raddr, dport := dport
    snd := ⟨0, 0, 0, 0, 0, 0⟩
    rcv := ⟨0, 0, 4096⟩
    txq := mbufqInit ⟨0, 0⟩, rxq := mbufqInit ⟨0, 0⟩
    prev := 0, next := 0 }

def pushToScbRxq (h : MbufHeap) (scb : SockCb) (m : Nat) : MbufHeap × SockCb :=
  ((mbufqPushtail h scb.rxq m).1, { scb with rxq := (mbufqPushtail h scb.rxq m).2 })

def popFromScbRxq (h : MbufHeap) (scb : SockCb) : Nat × SockCb :=
  ((mbufqPophead h scb.rxq).1, { scb with rxq := (mbufqPophead h scb.rxq).2 })

def pushToScbTxq (h : MbufHeap) (scb : SockCb) (m : Nat) (sndnxt : UInt32) (flg : UInt8)
    (datalen : UInt16) : MbufHeap × SockCb :=
  let h := Function.update h m { h m with params := ⟨sndnxt, flg, datalen⟩ }
  ((mbufqPushtail h scb.txq m).1, { scb with txq := (mbufqPushtail h scb.txq m).2 })

def popFromScbTxq (h : MbufHeap) (scb : SockCb) : Nat × SockCb :=
  ((mbufqPophead h scb.txq).1, { scb with txq := (mbufqPophead h scb.txq).2 })

end InternetOs.Net
