import InternetOs.Net.SockCb

/-!
# TCP (`kernel/net/tcp.c`)

The functions of `tcp.c` on one control block.  A `Conn` is the block together
with the mbuf heap and the list of segments handed to `ip_send`, oldest first;
`brk` is the first mbuf address not allocated yet.  `pushed` is a ghost: every byte
ever pushed to `rxq`, in order.  `tcp_recv_core` is cut after its fourth, sixth and
seventh step (`tcpRecvAck`, `tcpRecvText`, `tcpRecvFin`).
-/

namespace InternetOs.Net

def tcpFlgFin : UInt8 := 0x01
def tcpFlgSyn : UInt8 := 0x02
def tcpFlgRst : UInt8 := 0x04
def tcpFlgPsh : UInt8 := 0x08
def tcpFlgAck : UInt8 := 0x10

/-- `TCP_FLG_ISSET`. -/
def tcpFlgIsset (x y : UInt8) : Bool := ((x &&& 0x3f) &&& y) != 0

/-- The `TCP_OP_*` return codes. -/
inductive TcpOp
  | retrans | closeScb | sndRst | err | ok | sndAck | txtOk | freeMbuf
  deriving DecidableEq, Repr

/-- `TCP_DATA_LEN`: the IP payload length less the header length of the data offset field. -/
def tcpDataLen (hdr : TcpHdr) (len : UInt16) : UInt16 := len - ((hdr.off >>> 4) <<< 2).toUInt16

/-- A segment as `tcp_send_core` hands it to `ip_send`. -/
structure TcpSeg where
  raddr : UInt32
  sport : UInt16
  dport : UInt16
  seq : UInt32
  ack : UInt32
  wnd : UInt16
  flg : UInt8
  payloadLen : UInt16
  data : List UInt8
  deriving DecidableEq, Repr

structure Conn where
  scb : SockCb
  mbufs : MbufHeap
  brk : Nat
  out : List TcpSeg
  pushed : List UInt8

/-- A new mbuf in the heap; its address is never handed out again. -/
def Conn.newMbuf (c : Conn) (m : Mbuf) : Conn :=
  { c with mbufs := Function.update c.mbufs c.brk m, brk := c.brk + 1 }

/-- The mbuf that `mbufalloc(ETH_MAX_SIZE)` returns. -/
def emptyMbuf : Mbuf :=
  { next := 0, head := ethMaxSize, len := 0, buf := fun _ => 0
    params := ⟨0, 0, 0⟩, tcphdr := ⟨0, 0, 0, 0, 0, 0, 0⟩ }

theorem mbufalloc_ethMaxSize : mbufalloc ethMaxSize = some emptyMbuf := rfl

def tcpSendCore (c : Conn) (data : List UInt8) (raddr : UInt32) (sport dport : UInt16)
    (sndnxt rcvnxt rcvwnd : UInt32) (flg : UInt8) (payloadLen : UInt16) : Conn :=
  { c with out := c.out ++
      [{ raddr := raddr, sport := sport, dport := dport, seq := sndnxt
         ack := if tcpFlgIsset flg tcpFlgAck then rcvnxt else 0
         wnd := rcvwnd.toUInt16, flg := flg, payloadLen := payloadLen, data := data }] }

/-- A segment without data, in a fresh mbuf, from the block's own variables. -/
def tcpSendCtl (c : Conn) (seq ack : UInt32) (flg : UInt8) : Conn :=
  tcpSendCore c [] c.scb.raddr c.scb.sport c.scb.dport seq ack c.scb.rcv.wnd flg 0

/-- The ACK most branches answer with. -/
def tcpSendAck (c : Conn) : Conn := tcpSendCtl c c.scb.snd.nxtSeq c.scb.rcv.nxtSeq tcpFlgAck

/-! ## User calls -/

def tcpListen (scb : SockCb) : SockCb := { scb with state := .listen }

/-- `tcp_connect` up to the wait in `tcp_acquiresleep`; `none` is its `-1` on a non-TCP block. -/
def tcpConnect (c : Conn) : Option Conn :=
  if c.scb.socktype ≠ .tcp then none
  else
    let c := { c with scb := { c.scb with rcv := { c.scb.rcv with wnd := sockCbDefaultWndSize } } }
    let c := tcpSendCtl c c.scb.snd.nxtSeq c.scb.rcv.nxtSeq tcpFlgSyn
    some { c with scb := { c.scb with
      state := .synSent, snd := { c.scb.snd with nxtSeq := c.scb.snd.initSeq + 1 } } }

/-- The loop of `tcp_send` in `SOCK_CB_ESTAB`; without fuel it has not ended. -/
def tcpFlush : Nat → Conn → Option Conn
  | 0, _ => none
  | fuel + 1, c =>
    let sendM := (popFromScbTxq c.mbufs c.scb).1
    let c := { c with scb := (popFromScbTxq c.mbufs c.scb).2 }
    if sendM = 0 then some c
    else
      let p := (c.mbufs sendM).params
      let c := tcpSendCore c (c.mbufs sendM).data c.scb.raddr c.scb.sport c.scb.dport
        p.sndnxt c.scb.rcv.nxtSeq c.scb.rcv.wnd p.flg p.datalen
      tcpFlush fuel { c with scb := { c.scb with
        snd := { c.scb.snd with nxtSeq := c.scb.snd.nxtSeq + p.datalen.toUInt32 } } }

/-- `tcp_send` of the mbuf at `m`: the new state and the return value. -/
def tcpSend (c : Conn) (m : Nat) (flg : UInt8) : Option (Conn × Int) :=
  if m = 0 then some (c, -1)
  else
    let push := pushToScbTxq c.mbufs c.scb m c.scb.snd.nxtSeq flg (UInt16.ofNat (c.mbufs m).len)
    match c.scb.state with
    | .listen =>
      if c.scb.raddr ≠ 0 then
        let c := { c with scb := { c.scb with snd := { c.scb.snd with initSeq := 0 } } }
        let c := tcpSendCore c (c.mbufs m).data c.scb.raddr c.scb.sport c.scb.dport
          c.scb.snd.initSeq c.scb.rcv.nxtSeq c.scb.rcv.wnd tcpFlgSyn 0
        some ({ c with scb := { c.scb with
          state := .synSent
          snd := { c.scb.snd with
            unack := c.scb.snd.initSeq, nxtSeq := c.scb.snd.initSeq + 1 } } }, 0)
      else some (c, -1)
    | .synSent | .synRcvd => some ({ c with mbufs := push.1, scb := push.2 }, 0)
    | .estab => (tcpFlush (c.brk + 1) { c with mbufs := push.1, scb := push.2 }).map (·, 0)
    | _ => some (c, -1)

/-- `tcp_close`; the caller frees the block when it returns `0`. -/
def tcpClose (c : Conn) : Conn × Int :=
  let fin (c : Conn) (st : SockCbState) : Conn :=
    let c := tcpSendCtl c c.scb.snd.nxtSeq c.scb.rcv.nxtSeq (tcpFlgFin ||| tcpFlgAck)
    { c with scb := { c.scb with
      state := st, snd := { c.scb.snd with nxtSeq := c.scb.snd.nxtSeq + 1 } } }
  match c.scb.state with
  | .synRcvd =>
    if !mbufqEmpty c.scb.txq then (fin c .finWait1, -1)
    else
      let m := c.brk
      let c := c.newMbuf emptyMbuf
      let push := pushToScbTxq c.mbufs c.scb m c.scb.snd.nxtSeq (tcpFlgFin ||| tcpFlgAck) 0
      ({ c with mbufs := push.1, scb := push.2 }, -1)
  | .estab => (fin c .finWait1, -1)
  | .closeWait => (fin c .lastAck, -1)
  | _ => (c, 0)

/-! ## Segment arrival -/

def isSeqValid (rcvwnd rcvnxt segseq : UInt32) (seglen : UInt16) : Bool :=
  if rcvwnd = 0 then (seglen == 0 && segseq == rcvnxt) && seglen == 0
  else if seglen = 0 then rcvnxt ≤ segseq && segseq < rcvnxt + rcvwnd
  else
    (rcvnxt ≤ segseq && segseq < rcvnxt + rcvwnd) ||
    (rcvnxt ≤ segseq + seglen.toUInt32 - 1 && segseq + seglen.toUInt32 - 1 < rcvnxt + rcvwnd)

def tcpRecvListen (c : Conn) (m : Nat) (raddr : UInt32) (dport : UInt16) : Conn × TcpOp :=
  let hdr := (c.mbufs m).tcphdr
  if tcpFlgIsset hdr.flg tcpFlgRst then (c, .err)
  else if tcpFlgIsset hdr.flg tcpFlgAck then
    (tcpSendCore c [] raddr c.scb.sport dport hdr.ack 0 c.scb.rcv.wnd (tcpFlgRst ||| tcpFlgAck) 0,
      .err)
  else if tcpFlgIsset hdr.flg tcpFlgSyn then
    let c := { c with scb := { c.scb with
      dport := dport, raddr := raddr
      rcv := { initSeq := hdr.seq, nxtSeq := hdr.seq + 1, wnd := sockCbDefaultWndSize }
      snd := { c.scb.snd with initSeq := 0, nxtSeq := 1, unack := 0 } } }
    let c := tcpSendCtl c c.scb.snd.initSeq c.scb.rcv.nxtSeq (tcpFlgSyn ||| tcpFlgAck)
    ({ c with scb := { c.scb with state := .synRcvd } }, .ok)
  else (c, .err)

def tcpRecvSynSent (c : Conn) (m : Nat) : Conn × TcpOp :=
  let hdr := (c.mbufs m).tcphdr
  if tcpFlgIsset hdr.flg tcpFlgAck &&
      (hdr.ack ≤ c.scb.snd.initSeq || hdr.ack > c.scb.snd.nxtSeq) then
    let c := tcpSendCtl c c.scb.snd.nxtSeq c.scb.rcv.nxtSeq (tcpFlgRst ||| tcpFlgAck)
    ({ c with scb := { c.scb with
      snd := { c.scb.snd with nxtSeq := c.scb.snd.initSeq + 1 } } }, .err)
  else if tcpFlgIsset hdr.flg tcpFlgRst then (c, .err)
  else if tcpFlgIsset hdr.flg tcpFlgSyn && tcpFlgIsset hdr.flg tcpFlgAck then
    let c := { c with scb := { c.scb with
      rcv := { c.scb.rcv with nxtSeq := hdr.seq + 1, initSeq := hdr.seq }
      snd := { c.scb.snd with unack := hdr.ack } } }
    if c.scb.snd.unack > c.scb.snd.initSeq then
      (tcpSendAck { c with scb := { c.scb with state := .estab } }, .ok)
    else
      (tcpSendCtl { c with scb := { c.scb with state := .synRcvd } }
        c.scb.snd.initSeq c.scb.rcv.nxtSeq (tcpFlgSyn ||| tcpFlgAck), .ok)
  else (c, .err)

def checkRst (scb : SockCb) (flg : UInt8) : SockCb × TcpOp :=
  if tcpFlgIsset flg tcpFlgRst then
    match scb.state with
    | .synRcvd => ({ scb with state := .listen }, .closeScb)
    | .estab | .finWait1 | .finWait2 | .closeWait | .closing | .lastAck | .timeWait =>
      ({ scb with state := .closed }, .closeScb)
    | _ => (scb, .ok)
  else (scb, .ok)

/-- `snd.unack < ack && ack <= snd.nxt_seq`. -/
def isValidNxtack (scb : SockCb) (ack : UInt32) : Bool := scb.snd.unack < ack && ack ≤ scb.snd.nxtSeq

/-- The update of `snd` on an acknowledgement of new data. -/
def ackSnd (snd : SndSeq) (ack seq sndwnd : UInt32) : SndSeq :=
  let snd := { snd with unack := ack }
  if snd.wl1 < seq || (snd.wl1 == seq && snd.wl2 ≤ ack) then
    { snd with wnd := sndwnd, wl1 := seq, wl2 := ack }
  else snd

/-- The branch of `check_ack` shared by ESTAB, FIN_WAIT_1, FIN_WAIT_2, CLOSE_WAIT and CLOSING. -/
def checkAckSynced (scb : SockCb) (ack seq sndwnd : UInt32) : SockCb × TcpOp :=
  if !isValidNxtack scb ack && ack < scb.snd.unack then (scb, .err)
  else if !isValidNxtack scb ack && scb.snd.nxtSeq < ack then (scb, .sndAck)
  else
    let snd := if isValidNxtack scb ack then ackSnd scb.snd ack seq sndwnd else scb.snd
    match scb.state with
    | .finWait1 => ({ scb with snd := snd, state := .finWait2 }, .ok)
    | .closing => ({ scb with snd := snd, state := .closed }, .closeScb)
    | _ => ({ scb with snd := snd }, .ok)

def checkAck (scb : SockCb) (flg : UInt8) (ack seq sndwnd : UInt32) : SockCb × TcpOp :=
  if !tcpFlgIsset flg tcpFlgAck then (scb, .err)
  else
    match scb.state with
    | .synRcvd =>
      if isValidNxtack scb ack then ({ scb with state := .estab }, .ok) else (scb, .sndRst)
    | .estab | .finWait1 | .finWait2 | .closeWait | .closing => checkAckSynced scb ack seq sndwnd
    | .lastAck => ({ scb with state := .closed }, .closeScb)
    | _ => (scb, .ok)

def checkSyn (scb : SockCb) (flg : UInt8) : TcpOp :=
  match scb.state with
  | .synRcvd | .estab | .finWait1 | .finWait2 | .closeWait | .closing | .lastAck | .timeWait =>
    if tcpFlgIsset flg tcpFlgSyn then .sndRst else .ok
  | _ => .ok

def checkText (scb : SockCb) (seq : UInt32) (datalen : UInt16) : SockCb × TcpOp :=
  match scb.state with
  | .estab | .finWait1 | .finWait2 =>
    if datalen > 0 && scb.rcv.nxtSeq == seq then
      if scb.rcv.wnd > datalen.toUInt32 then
        ({ scb with rcv := { scb.rcv with
          nxtSeq := scb.rcv.nxtSeq + datalen.toUInt32, wnd := scb.rcv.wnd - datalen.toUInt32 } },
          .txtOk)
      else (scb, .retrans)
    else (scb, .ok)
  | _ => (scb, .err)

def checkFin (scb : SockCb) (flg : UInt8) : SockCb × TcpOp :=
  if tcpFlgIsset flg tcpFlgFin then
    match scb.state with
    | .synRcvd | .estab =>
      ({ scb with rcv := { scb.rcv with nxtSeq := scb.rcv.nxtSeq + 1 }, state := .closeWait },
        .sndAck)
    | .finWait1 | .finWait2 =>
      ({ scb with rcv := { scb.rcv with nxtSeq := scb.rcv.nxtSeq + 1 } }, .closeScb)
    | _ => (scb, .err)
  else (scb, .ok)

/-- Eighth step: the FIN bit. -/
def tcpRecvFin (c : Conn) (flg : UInt8) : Conn × TcpOp :=
  let c' := { c with scb := (checkFin c.scb flg).1 }
  match (checkFin c.scb flg).2 with
  | .retrans => (tcpSendAck c', .ok)
  | .closeScb => (tcpSendAck c', .closeScb)
  | .sndAck => (tcpSendAck c', .err)
  | _ => (c', .freeMbuf)

/-- Seventh step: the segment text. -/
def tcpRecvText (c : Conn) (m : Nat) (datalen : UInt16) : Conn × TcpOp :=
  let hdr := (c.mbufs m).tcphdr
  let c' := { c with scb := (checkText c.scb hdr.seq datalen).1 }
  match (checkText c.scb hdr.seq datalen).2 with
  | .err => (c', .err)
  | .txtOk =>
    let h := Function.update c'.mbufs m { c'.mbufs m with
      len := datalen.toNat, params := { (c'.mbufs m).params with flg := hdr.flg } }
    let push := pushToScbRxq h c'.scb m
    (tcpSendAck { c' with mbufs := push.1, scb := push.2, pushed := c'.pushed ++ (h m).data }, .ok)
  | _ => tcpRecvFin c' hdr.flg

/-- Fifth step: the ACK field.  `ntohl` of the 16-bit window moves it to the upper half. -/
def tcpRecvAck (c : Conn) (m : Nat) (datalen : UInt16) : Conn × TcpOp :=
  let hdr := (c.mbufs m).tcphdr
  let chk := checkAck c.scb hdr.flg hdr.ack hdr.seq (hdr.wnd.toUInt32 <<< 16)
  let c' := { c with scb := chk.1 }
  match chk.2 with
  | .closeScb => (c', .closeScb)
  | .sndRst => (tcpSendCtl c' c'.scb.snd.nxtSeq c'.scb.rcv.nxtSeq tcpFlgRst, .err)
  | .err => (c', .err)
  | .sndAck => (tcpSendAck c', .err)
  | _ => tcpRecvText c' m datalen

def tcpRecvCore (c : Conn) (m : Nat) (len : UInt16) : Conn × TcpOp :=
  let hdr := (c.mbufs m).tcphdr
  let datalen := tcpDataLen hdr len
  if !isSeqValid c.scb.rcv.wnd c.scb.rcv.nxtSeq hdr.seq datalen then
    (if tcpFlgIsset hdr.flg tcpFlgRst then c else tcpSendAck c, .err)
  else
    let c' := { c with scb := (checkRst c.scb hdr.flg).1 }
    match (checkRst c.scb hdr.flg).2 with
    | .closeScb => (c', .closeScb)
    | .err => (c', .err)
    | _ =>
      if checkSyn c'.scb hdr.flg = .sndRst then
        (tcpSendCtl c' hdr.ack hdr.seq tcpFlgRst, .closeScb)
      else tcpRecvAck c' m datalen

/-- The switch of `tcp_recv` on the state of the block it found, and whether it then
frees the block. -/
def tcpRecvSwitch (c : Conn) (m : Nat) (len : UInt16) (raddr : UInt32) (dport : UInt16) :
    Conn × Bool :=
  match c.scb.state with
  | .closed => (c, false)
  | .listen => ((tcpRecvListen c m raddr dport).1, false)
  | .synSent => ((tcpRecvSynSent c m).1, false)
  | _ => ((tcpRecvCore c m len).1, (tcpRecvCore c m len).2 == .closeScb)

end InternetOs.Net
