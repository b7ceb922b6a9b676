import InternetOs.Net.Conn
import InternetOs.Net.Socket

/-!
# The receive path (`kernel/net/dev/e1000.c`, `ethernet.c`, `ipv4.c`, `udp.c`, `tcp.c`)

A frame comes up in the mbuf of its ring slot, from `e1000_recv` through `eth_recv` and
`ip_recv` to `udp_recv` or `tcp_recv`, and that mbuf itself is put on the `rxq` of a socket.
A `Nic` is the receive ring with the protocol stack over it.  Its events are a frame written
by the device, one turn of the loop of `e1000_recv`, a call on a socket, and the two halves of a
pass of a reader: it pops an mbuf under the lock of the block, and copies from it without.

`arp_recv` keeps its mbuf on no queue and looks at no socket; nothing of it is modelled.
-/

namespace InternetOs.Net

open Function

/-! ## Headers -/

/-- `local_ip`. -/
def localIp : UInt32 := 0xc0a82302

/-- `ntohs` of the field at offset `i`. -/
def be16 (buf : Nat → UInt8) (i : Nat) : UInt16 := (buf i).toUInt16 <<< 8 ||| (buf (i + 1)).toUInt16

/-- `ntohl` of the field at offset `i`. -/
def be32 (buf : Nat → UInt8) (i : Nat) : UInt32 := (be16 buf i).toUInt32 <<< 16 ||| (be16 buf (i + 2)).toUInt32

/-- The loop of `cksum16` over `size` bytes from offset `i`. -/
def cksumSum (buf : Nat → UInt8) : Nat → Nat → UInt32 → UInt32
  | 0, _, sum => sum
  | 1, i, sum => sum + (buf i).toUInt32 <<< 8
  | size + 2, i, sum => cksumSum buf size (i + 2) (sum + (buf i).toUInt32 <<< 8 + (buf (i + 1)).toUInt32)

def cksum16 (buf : Nat → UInt8) (i size : Nat) (init : UInt32) : UInt16 :=
  let sum := cksumSum buf size i init
  let sum : UInt32 := (sum &&& (0xffff : UInt32)) + (sum >>> (16 : UInt32))
  let sum : UInt32 := (sum &&& (0xffff : UInt32)) + (sum >>> (16 : UInt32))
  ~~~ sum.toUInt16

def tcpHdrAt (buf : Nat → UInt8) (i : Nat) : TcpHdr :=
  { sport := be16 buf i, dport := be16 buf (i + 2), seq := be32 buf (i + 4), ack := be32 buf (i + 8)
    off := buf (i + 12), flg := buf (i + 13), wnd := be16 buf (i + 14) }

def udpHdrAt (buf : Nat → UInt8) (i : Nat) : UdpHdr :=
  { sport := be16 buf i, dport := be16 buf (i + 2), ulen := be16 buf (i + 4) }

/-- `tcp_checksum` of the segment at `tcp` under the IP header at `ip`. -/
def tcpChecksum (buf : Nat → UInt8) (ip tcp : Nat) (len : UInt16) : UInt16 :=
  cksum16 buf tcp len.toNat ((be16 buf (ip + 14)).toUInt32 + (be16 buf (ip + 12)).toUInt32 +
    (be16 buf (ip + 18)).toUInt32 + (be16 buf (ip + 16)).toUInt32 + (buf (ip + 9)).toUInt32 + len.toUInt32)

/-! ## The layers, on the mbuf at `a` -/

def Stack.setMbuf (n : Stack) (a : Nat) (m : Mbuf) : Stack := { n with mbufs := update n.mbufs a m }

/-- `tcp_recv` after the checksum. -/
def tcpRecvAt (n : Stack) (a : Nat) (len : UInt16) (raddr : UInt32) : Option Stack :=
  let hdr := (n.mbufs a).tcphdr
  (getSockCb n .tcp hdr.dport raddr hdr.sport).bind fun p =>
    if p = 0 then some n
    else if wrongPeer (n.scbs p) hdr.sport then some n
    else
      let r := tcpRecvSwitch (n.conn p) a len raddr hdr.sport
      let n := n.putConn p r.1
      if r.2 then freeSockCb n p else some n

/-- `udp_recv` once the lengths are checked. -/
def udpRecvAt (n : Stack) (a : Nat) (raddr : UInt32) (hdr : UdpHdr) : Option Stack :=
  (getSockCb n .udp hdr.dport raddr hdr.sport).map fun p =>
    if p = 0 then n
    else
      let scb := n.scbs p
      let scb := if scb.raddr = 0 ∧ scb.dport = 0 then { scb with raddr := raddr, dport := hdr.sport } else scb
      let push := pushToScbRxq n.mbufs scb a
      { n.setScb p push.2 with mbufs := push.1 }

/-- `tcp_recv`; the IP header is at `ip`. -/
def tcpRecvFrame (n : Stack) (a ip : Nat) (len : UInt16) : Option Stack :=
  let r := mbufpull (n.mbufs a) 20
  match r.1 with
  | none => some n
  | some tcp =>
    let n := n.setMbuf a { r.2 with tcphdr := tcpHdrAt r.2.buf tcp }
    if tcpChecksum r.2.buf ip tcp len ≠ 0 then some n else tcpRecvAt n a len (be32 r.2.buf (ip + 12))

/-- `udp_recv`; the IP header is at `ip`. -/
def udpRecvFrame (n : Stack) (a ip : Nat) (len : UInt16) : Option Stack :=
  let r := mbufpull (n.mbufs a) 8
  match r.1 with
  | none => some n
  | some udp =>
    let hdr := udpHdrAt r.2.buf udp
    if hdr.ulen ≠ len then some (n.setMbuf a r.2)
    else if (len - 8).toNat > r.2.len then some (n.setMbuf a r.2)
    else udpRecvAt (n.setMbuf a (mbuftrim r.2 (r.2.len - (len - 8).toNat))) a (be32 r.2.buf (ip + 12)) hdr

/-- `ip_recv` on the host with this address. -/
def ipRecvOn (localIp : UInt32) (n : Stack) (a : Nat) : Option Stack :=
  let r := mbufpull (n.mbufs a) 20
  match r.1 with
  | none => some n
  | some ip =>
    let buf := r.2.buf
    let n := n.setMbuf a r.2
    if buf ip ≠ 0x45 then some n
    else if cksum16 buf ip 20 0 ≠ 0 then some n
    else if be16 buf (ip + 6) &&& 0x1fff ≠ 0 then some n
    else if be32 buf (ip + 16) ≠ localIp then some n
    else
      let len := be16 buf (ip + 2) - 20
      if buf (ip + 9) = 17 then udpRecvFrame n a ip len
      else if buf (ip + 9) = 6 then tcpRecvFrame n a ip len
      else some n

/-- `eth_recv` on the host with this address. -/
def ethRecvOn (localIp : UInt32) (n : Stack) (a : Nat) : Option Stack :=
  let r := mbufpull (n.mbufs a) 14
  match r.1 with
  | none => some n
  | some eth =>
    let n := n.setMbuf a r.2
    if be16 r.2.buf (eth + 12) = 0x0800 then ipRecvOn localIp n a else some n

def ethRecv (n : Stack) (a : Nat) : Option Stack := ethRecvOn localIp n a

/-! ## Readers -/

/-- The UDP branch of `sockrecv` once it has popped the mbuf `a` from the block `p`: the stack after it.  One byte
of those copied is left at the front of the mbuf. -/
def udpCopy (n : Stack) (p a : Nat) (cnt : UInt32) : Stack :=
  let m := n.mbufs a
  if m.len > (cnt - 1).toNat then
    let push := mbufqPushhead (update n.mbufs a (mbufpull m (cnt - 1).toNat).2) (n.scbs p).rxq a
    { n.setScb p { n.scbs p with rxq := push.2 } with mbufs := push.1 }
  else n

/-- A pass of the UDP branch of `sockrecv`. -/
def udpRead (n : Stack) (p : Nat) (cnt : UInt32) : Stack :=
  let pop := popFromScbRxq n.mbufs (n.scbs p)
  if pop.1 = 0 then n.setScb p pop.2 else udpCopy (n.setScb p pop.2) p pop.1 cnt

/-- The block a pass of `sockrecv` on `p` reads from, 0 for none. -/
def readFrom (n : Stack) (p : Nat) : Option Nat :=
  let scb := n.scbs p
  if scb.socktype = .tcp then getSockCb n .tcp scb.sport scb.raddr scb.dport else some p

/-- A reader that has popped `mbuf` from the block `scb` and has not copied it yet; the type is that of its socket. -/
structure Held where
  socktype : SockType
  scb : Nat
  mbuf : Nat

/-- What a pass of `sockrecv` does once it has its mbuf. -/
def copyPass (n : Stack) (h : Held) (cnt : UInt32) : Stack :=
  if h.socktype = .tcp then n.putConn h.scb (sockrecvCopy (n.conn h.scb) h.mbuf cnt.toNat 0).1
  else udpCopy n h.scb h.mbuf cnt

/-! ## The ring -/

/-- `RX_RING_SIZE`. -/
def rxRingSize : Nat := 16

/-- `E1000_RXD_STAT_DD`. -/
def rxdStatDd : UInt8 := 1

/-- What the device is told a receive buffer has room for (`E1000_RCTL_SZ_2048`). -/
def rxBufSize : Nat := 2048

/-- `struct rx_desc`; the address is that of the buffer of an mbuf. -/
structure RxDesc where
  addr : Nat
  length : UInt16
  status : UInt8

/-- The receive side of `struct e1000_dev`, with the registers `E1000_RDH` and `E1000_RDT`, over the
stack.  `held r` is what reader `r` holds.  The last three fields are ghosts: the number of frames the device has
written, the number of the last one in each slot, and for each mbuf the bytes it was queued with and not yet read. -/
structure Nic where
  stack : Stack
  rdh : Nat
  rdt : Nat
  rxRing : Nat → RxDesc
  rxMbuf : Nat → Nat
  held : Nat → Option Held
  count : Nat
  num : Nat → Nat
  text : Nat → List UInt8

/-- As `e1000_init` leaves it: the first sixteen mbufs are those of the ring. -/
def Nic.init : Nic :=
  { stack := { socketInit with mbufs := fun _ => (mbufalloc 0).getD emptyMbuf, brk := rxRingSize + 1 }
    rdh := 0, rdt := rxRingSize - 1, rxRing := fun i => { addr := i + 1, length := 0, status := 0 }
    rxMbuf := fun i => i + 1, held := fun _ => none, count := 0, num := fun _ => 0, text := fun _ => [] }

/-- The bytes of `frame` over those of `buf`. -/
def dmaWrite (buf : Nat → UInt8) (frame : List UInt8) (i : Nat) : UInt8 := frame.getD i (buf i)

/-- The device writes a frame into the slot at its head, unless that is the tail.  `m->tcphdr` points
into the buffer, behind the Ethernet and the IP header. -/
def Nic.deliver (s : Nic) (frame : List UInt8) (status : UInt8) : Option Nic :=
  if s.rdh = s.rdt ∨ rxBufSize < frame.length ∨ status &&& rxdStatDd = 0 then none
  else
    let a := (s.rxRing s.rdh).addr
    let m := s.stack.mbufs a
    let buf := dmaWrite m.buf frame
    some
      { s with
        stack := s.stack.setMbuf a { m with buf := buf, tcphdr := tcpHdrAt buf 34 }
        rdh := (s.rdh + 1) % rxRingSize
        rxRing := update s.rxRing s.rdh
          { addr := a, length := UInt16.ofNat frame.length, status := status }
        count := s.count + 1
        num := update s.num s.rdh s.count }

/-- One turn of the loop of `e1000_recv`; `none` when it ends, or panics in `mbufput`. -/
def Nic.recv (s : Nic) : Option Nic :=
  let index := (s.rdt + 1) % rxRingSize
  let desc := s.rxRing index
  if desc.status &&& rxdStatDd = 0 then none
  else if mbufSize < desc.length.toNat then none
  else
    let a := s.rxMbuf index
    let m : Mbuf := { s.stack.mbufs a with next := 0, head := 0, len := desc.length.toNat }
    (ethRecv (s.stack.setMbuf a m) a).map fun n =>
      { s with
        stack := n
        rdt := index
        rxRing := update s.rxRing index { desc with status := desc.status ^^^ rxdStatDd }
        text := update s.text a (n.mbufs a).data }

/-- Reader `r` pops an mbuf for the socket `p`, under the lock of the block.  With no mbuf there it polls again
or returns. -/
def Nic.pop (s : Nic) (r p : Nat) : Option Nic :=
  if s.stack.usable p ∧ (s.held r).isNone then
    (readFrom s.stack p).map fun q =>
      let socktype := (s.stack.scbs p).socktype
      let pop := popFromScbRxq s.stack.mbufs (s.stack.scbs q)
      -- the TCP branch returns -1 here
      if socktype = .tcp ∧ (q = 0 ∨ (s.stack.scbs q).state = .closeWait) then s
      else if pop.1 = 0 then s
      else { s with stack := s.stack.setScb q pop.2, held := update s.held r (some ⟨socktype, q, pop.1⟩) }
  else none

/-- Reader `r` copies from its mbuf and puts the rest back; no lock is held. -/
def Nic.copy (s : Nic) (r : Nat) (cnt : UInt32) : Option Nic :=
  (s.held r).map fun h =>
    let n := copyPass s.stack h cnt
    { s with
      stack := n
      held := update s.held r none
      text := update s.text h.mbuf
        ((s.text h.mbuf).drop ((n.mbufs h.mbuf).head - (s.stack.mbufs h.mbuf).head)) }

inductive NicEv
  | deliver (frame : List UInt8) (status : UInt8)
  | recv
  | op (o : Op)
  | pop (r p : Nat)
  | copy (r : Nat) (cnt : UInt32)

/-- The calls of users; packets arrive through the ring. -/
def Op.isCall : Op → Bool
  | .tcpRecv .. | .udpRecv .. => false
  | _ => true

def Nic.step (s : Nic) : NicEv → Option Nic
  | .deliver frame status => s.deliver frame status
  | .recv => s.recv
  | .op o => if o.isCall then (s.stack.step o).map fun n => { s with stack := n } else none
  | .pop r p => s.pop r p
  | .copy r cnt => s.copy r cnt

end InternetOs.Net
