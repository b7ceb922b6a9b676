import InternetOs.Lib.Run
import InternetOs.Net.Table

/-!
# Socket operations and arriving packets (`kernel/net/socket.c`, `udp.c`, `tcp.c`)

A user holds a socket as long as its block has a file (`f ≠ 0`); `fileclose` clears `f`
before it calls `sockclose`.  `sockaccept` is two steps, before and after its wait in
`tcp_acquiresleep`.  `socksend` is one step for each mbuf of its loop.

A packet is an event of its own; those that fail the header or checksum tests of
`tcp_recv` and `udp_recv` change nothing and are no events.
-/

namespace InternetOs.Net

open SockCbState

/-- The block at `p` as one connection. -/
def Stack.conn (n : Stack) (p : Nat) : Conn :=
  { scb := n.scbs p, mbufs := n.mbufs, brk := n.brk, out := n.out, pushed := [] }

def Stack.putConn (n : Stack) (p : Nat) (c : Conn) : Stack :=
  { n.setScb p c.scb with mbufs := c.mbufs, brk := c.brk, out := c.out }

@[simp] theorem Stack.scbs_putConn (n : Stack) (p : Nat) (c : Conn) :
    (n.putConn p c).scbs = Function.update n.scbs p c.scb := rfl

/-- The block is allocated and its file open. -/
def Stack.usable (n : Stack) (p : Nat) : Bool := n.alive p && (n.scbs p).f != 0

/-- The fields of the UDP header `udp_recv` reads. -/
structure UdpHdr where
  sport : UInt16
  dport : UInt16
  ulen : UInt16
  deriving DecidableEq, Repr

def sockalloc (n : Stack) (socktype : SockType) : Stack := (n.alloc 0 0 0 socktype).1

/-- A port that is in use does not make `socklisten` fail: it tests an unsigned number for `< 0`. -/
def socklisten (n : Stack) (p : Nat) (sport : UInt16) : Stack :=
  let r := getSpecifiedSport n sport
  let scb : SockCb := { r.1.scbs p with sport := r.2 }
  r.1.setScb p (if scb.socktype = .tcp then tcpListen scb else scb)

/-- `sockcopy`: a new block for the same addresses, in the same state. -/
def sockcopy (n : Stack) (p : Nat) : Stack × Nat :=
  let scb := n.scbs p
  let r := n.alloc scb.raddr scb.sport scb.dport scb.socktype
  (r.1.setScb r.2 { r.1.scbs r.2 with state := scb.state }, r.2)

/-- `sockaccept` up to its wait. -/
def sockaccept (n : Stack) (p : Nat) : Option Stack :=
  if (n.scbs p).acptScb ≠ 0 then
    if n.alive (n.scbs p).acptScb then some n else none
  else
    let r := sockcopy n p
    addSockCb (r.1.setScb p { r.1.scbs p with acptScb := r.2 }) r.2

/-- `sockaccept` after its wait: the new block is handed to the user. -/
def sockacceptDone (n : Stack) (p : Nat) : Option Stack :=
  if (n.scbs p).acptScb ≠ 0 ∧ n.alive (n.scbs p).acptScb then
    some (n.setScb p { n.scbs p with acptScb := 0 })
  else none

def sockconnect (n : Stack) (p : Nat) (raddr : UInt32) (dport : UInt16) : Option Stack :=
  (getNewSport n).bind fun r =>
    let scb : SockCb := { r.1.scbs p with raddr := raddr, sport := r.2, dport := dport }
    (addSockCb (r.1.setScb p scb) p).bind fun n =>
      if (n.scbs p).socktype = .tcp then (tcpConnect (n.conn p)).map (n.putConn p) else some n

/-- One mbuf of `socksend`; `udp_send` reads the block only. -/
def socksend (n : Stack) (p : Nat) (m : Mbuf) (flg : UInt8) : Option Stack :=
  if (n.scbs p).socktype = .tcp then
    (tcpSend ((n.conn p).newMbuf m) n.brk flg).map fun r => n.putConn p r.1
  else some n

/-- `sockclose`, as `fileclose` calls it. -/
def sockclose (n : Stack) (p : Nat) : Option Stack :=
  let n := n.setScb p { n.scbs p with f := 0 }
  if (n.scbs p).socktype = .tcp then
    let r := tcpClose (n.conn p)
    if r.2 = 0 then freeSockCb (n.putConn p r.1) p else some (n.putConn p r.1)
  else freeSockCb n p

/-- `tcp_recv` once it has found the block. -/
def tcpRecvFound (n : Stack) (p : Nat) (m : Mbuf) (len : UInt16) (raddr : UInt32) : Option Stack :=
  let r := tcpRecvSwitch ((n.conn p).newMbuf m) n.brk len raddr m.tcphdr.sport
  let rx : RxRec :=
    { raddr := raddr, dport := m.tcphdr.sport, hdr := m.tcphdr, before := n.scbs p, after := r.1.scb }
  let n := { n.putConn p r.1 with hist := Function.update n.hist p (n.hist p ++ [rx]) }
  if r.2 then freeSockCb n p else some n

/-- The early return of `tcp_recv`. -/
def wrongPeer (scb : SockCb) (dport : UInt16) : Bool :=
  scb.state != .listen && scb.state != .closed && scb.dport != dport

def tcpRecv (n : Stack) (m : Mbuf) (len : UInt16) (raddr : UInt32) : Option Stack :=
  (getSockCb n .tcp m.tcphdr.dport raddr m.tcphdr.sport).bind fun p =>
    if p = 0 then some n
    else if wrongPeer (n.scbs p) m.tcphdr.sport then some n
    else tcpRecvFound n p m len raddr

/-- `mbuftrim` from the end. -/
def mbuftrim (m : Mbuf) (len : Nat) : Mbuf := if len > m.len then m else { m with len := m.len - len }

def udpRecv (n : Stack) (m : Mbuf) (len : UInt16) (raddr : UInt32) (hdr : UdpHdr) : Option Stack :=
  if hdr.ulen ≠ len then some n
  else if (len - 8).toNat > m.len then some n
  else
    (getSockCb n .udp hdr.dport raddr hdr.sport).map fun p =>
      if p = 0 then n
      else
        let scb := n.scbs p
        let scb := if scb.raddr = 0 ∧ scb.dport = 0 then { scb with raddr := raddr, dport := hdr.sport } else scb
        let c := ((n.setScb p scb).conn p).newMbuf (mbuftrim m (m.len - (len - 8).toNat))
        let push := pushToScbRxq c.mbufs c.scb n.brk
        n.putConn p { c with mbufs := push.1, scb := push.2 }

inductive Op
  | sockalloc (socktype : SockType)
  | socklisten (p : Nat) (sport : UInt16)
  | sockaccept (p : Nat)
  | sockacceptDone (p : Nat)
  | sockconnect (p : Nat) (raddr : UInt32) (dport : UInt16)
  | socksend (p : Nat) (m : Mbuf) (flg : UInt8)
  | sockclose (p : Nat)
  | tcpRecv (m : Mbuf) (len : UInt16) (raddr : UInt32)
  | udpRecv (m : Mbuf) (len : UInt16) (raddr : UInt32) (hdr : UdpHdr)

def Stack.step (n : Stack) : Op → Option Stack
  | .sockalloc t => some (sockalloc n t)
  | .socklisten p sport => if n.usable p then some (socklisten n p sport) else none
  | .sockaccept p => if n.usable p then sockaccept n p else none
  | .sockacceptDone p => if n.usable p then sockacceptDone n p else none
  | .sockconnect p raddr dport => if n.usable p then sockconnect n p raddr dport else none
  | .socksend p m flg => if n.usable p then socksend n p m flg else none
  | .sockclose p => if n.usable p then sockclose n p else none
  | .tcpRecv m len raddr => tcpRecv n m len raddr
  | .udpRecv m len raddr hdr => udpRecv n m len raddr hdr

def Stack.Step (n : Stack) (op : Op) (n' : Stack) : Prop := n.step op = some n'

end InternetOs.Net
