import InternetOs.Net.Demux

/-!
# Resets are not answered

`tcp_recv_listen` tests the RST bit first and `tcp_recv_core` before it answers anything, so
neither answers a reset.  `tcp_recv_syn_sent` refuses an acknowledgement outside
`(init_seq, nxt_seq]` before it has looked at the RST bit, and sends a reset for it.

    RST set → ((tcpRecvSwitch c m len raddr dport).1.out = c.out ↔ ¬ RefusesAck …)   (switch_out_rst)

Two hosts in SYN_SENT for each other therefore throw one reset back and forth for ever.
-/

namespace InternetOs.Net

open SockCbState Option Stack

/-- The first test of `tcp_recv_syn_sent`. -/
def RefusesAck (scb : SockCb) (hdr : TcpHdr) : Prop :=
  scb.state = synSent ∧ tcpFlgIsset hdr.flg tcpFlgAck = true ∧ (hdr.ack ≤ scb.snd.initSeq ∨ scb.snd.nxtSeq < hdr.ack)

instance (scb : SockCb) (hdr : TcpHdr) : Decidable (RefusesAck scb hdr) :=
  inferInstanceAs (Decidable (_ ∧ _ ∧ _))

section
variable {c : Conn} {m : Nat}

theorem tcpSendCore_out_ne (c : Conn) (data : List UInt8) (raddr : UInt32) (sport dport : UInt16)
    (sndnxt rcvnxt rcvwnd : UInt32) (flg : UInt8) (payloadLen : UInt16) :
    (tcpSendCore c data raddr sport dport sndnxt rcvnxt rcvwnd flg payloadLen).out ≠ c.out := by
  intro h
  have hlen := congrArg List.length h
  rw [show (tcpSendCore c data raddr sport dport sndnxt rcvnxt rcvwnd flg payloadLen).out =
    c.out ++ [_] from rfl, List.length_append, List.length_singleton] at hlen
  omega

theorem listen_rst (hf : tcpFlgIsset (c.hdr m).flg tcpFlgRst = true) (raddr : UInt32) (dport : UInt16) :
    (tcpRecvListen c m raddr dport).1 = c := by
  exact congrArg Prod.fst (if_pos hf)

theorem refusesAck_iff (hs : c.scb.state = synSent) :
    (tcpFlgIsset (c.mbufs m).tcphdr.flg tcpFlgAck && ((c.mbufs m).tcphdr.ack ≤ c.scb.snd.initSeq ||
      (c.mbufs m).tcphdr.ack > c.scb.snd.nxtSeq)) = true ↔ RefusesAck c.scb (c.hdr m) := by
  simp only [RefusesAck, Conn.hdr, hs, true_and, Bool.and_eq_true, Bool.or_eq_true, decide_eq_true_eq]

/-- A refused acknowledgement is answered by a reset, whatever the other flags. -/
theorem synSent_refuse (h : RefusesAck c.scb (c.hdr m)) : (tcpRecvSynSent c m).1 =
      { tcpSendCtl c c.scb.snd.nxtSeq c.scb.rcv.nxtSeq (tcpFlgRst ||| tcpFlgAck) with
        scb := { c.scb with snd := { c.scb.snd with nxtSeq := c.scb.snd.initSeq + 1 } } } := by
  unfold tcpRecvSynSent
  rw [if_pos ((refusesAck_iff h.1).mpr h)]
  rfl

theorem synSent_out_rst (hs : c.scb.state = synSent) (hf : tcpFlgIsset (c.hdr m).flg tcpFlgRst = true) :
    (tcpRecvSynSent c m).1.out = c.out ↔ ¬ RefusesAck c.scb (c.hdr m) := by
  by_cases h : RefusesAck c.scb (c.hdr m)
  · rw [synSent_refuse h]
    exact iff_of_false (tcpSendCore_out_ne c _ _ _ _ _ _ _ _ _) (not_not.mpr h)
  · have hf : tcpFlgIsset (c.mbufs m).tcphdr.flg tcpFlgRst = true := hf
    refine iff_of_true ?_ h
    unfold tcpRecvSynSent
    rw [if_neg (mt (refusesAck_iff hs).mp h), if_pos hf]

/-- From SYN_RCVD on a reset either is out of the window or closes the block. -/
theorem core_out_rst (h1 : c.scb.state ≠ closed) (h2 : c.scb.state ≠ listen) (h3 : c.scb.state ≠ synSent)
    (hf : tcpFlgIsset (c.hdr m).flg tcpFlgRst = true) (len : UInt16) : (tcpRecvCore c m len).1.out = c.out := by
  have hf : tcpFlgIsset (c.mbufs m).tcphdr.flg tcpFlgRst = true := hf
  have hclose : (checkRst c.scb (c.mbufs m).tcphdr.flg).2 = .closeScb := by
    unfold checkRst
    rw [if_pos hf]
    cases hst : c.scb.state <;> first | rfl | contradiction
  unfold tcpRecvCore
  dsimp only
  rw [hclose]
  split <;> rfl

/-- **A reset is answered by the SYN_SENT test of the acknowledgement and by nothing else.** -/
theorem switch_out_rst (hf : tcpFlgIsset (c.hdr m).flg tcpFlgRst = true) (len : UInt16) (raddr : UInt32)
    (dport : UInt16) : (tcpRecvSwitch c m len raddr dport).1.out = c.out ↔ ¬ RefusesAck c.scb (c.hdr m) := by
  by_cases h1 : c.scb.state = closed
  · have hsw : tcpRecvSwitch c m len raddr dport = (c, false) := by
      unfold tcpRecvSwitch
      rw [h1]
    rw [hsw]
    exact iff_of_true rfl fun hr => absurd (h1.symm.trans hr.1) (by decide)
  by_cases h2 : c.scb.state = listen
  · have hsw : tcpRecvSwitch c m len raddr dport = ((tcpRecvListen c m raddr dport).1, false) := by
      unfold tcpRecvSwitch
      rw [h2]
    rw [hsw, listen_rst hf]
    exact iff_of_true rfl fun hr => absurd (h2.symm.trans hr.1) (by decide)
  by_cases h3 : c.scb.state = synSent
  · have hsw : tcpRecvSwitch c m len raddr dport = ((tcpRecvSynSent c m).1, false) := by
      unfold tcpRecvSwitch
      rw [h3]
    rw [hsw]
    exact synSent_out_rst h3 hf
  rw [tcpRecvSwitch_core h1 h2 h3]
  exact iff_of_true (core_out_rst h1 h2 h3 hf len) fun hr => h3 hr.1

end

/-! ## On the tables -/

/-- The segment meets a block that refuses its acknowledgement. -/
def Stack.Refuses (n : Stack) (hdr : TcpHdr) (raddr : UInt32) : Prop :=
  ∃ p, getSockCb n .tcp hdr.dport raddr hdr.sport = some p ∧ p ≠ 0 ∧
    wrongPeer (n.scbs p) hdr.sport = false ∧ RefusesAck (n.scbs p) hdr

section
variable {n n' : Stack} {m : Mbuf} {len : UInt16} {raddr : UInt32}

theorem unlinkScb_out {p : Nat} (hs : unlinkScb n p = some n') : n'.out = n.out := by
  unfold unlinkScb at hs
  dsimp only at hs
  split_ifs at hs <;> (rw [← some.inj hs]; rfl)

theorem freeSockCb_out {p : Nat} (hs : freeSockCb n p = some n') : n'.out = n.out := by
  obtain ⟨n1, h1, rfl⟩ := map_eq_some_iff.mp hs
  change n1.out = n.out
  split_ifs at h1
  · rw [unlinkScb_out h1]
    rfl
  · cases h1
    rfl

theorem tcpRecvFound_out {p : Nat} (hs : tcpRecvFound n p m len raddr = some n') :
    n'.out = (tcpRecvSwitch ((n.conn p).newMbuf m) n.brk len raddr m.tcphdr.sport).1.out := by
  unfold tcpRecvFound at hs
  dsimp only at hs
  split_ifs at hs
  · rw [freeSockCb_out hs]
    rfl
  · cases hs
    rfl

theorem tcpRecv_out_rst (hf : tcpFlgIsset m.tcphdr.flg tcpFlgRst = true) (hs : tcpRecv n m len raddr = some n') :
    n'.out = n.out ↔ ¬ n.Refuses m.tcphdr raddr := by
  obtain ⟨p, hp, hs⟩ := bind_eq_some_iff.mp hs
  -- the block of `Refuses` is the one found here
  have hfound : n.Refuses m.tcphdr raddr ↔
      p ≠ 0 ∧ wrongPeer (n.scbs p) m.tcphdr.sport = false ∧ RefusesAck (n.scbs p) m.tcphdr := by
    constructor
    · rintro ⟨q, hq, h⟩
      obtain rfl := some.inj (hp.symm.trans hq)
      exact h
    · exact fun h => ⟨p, hp, h⟩
  rw [hfound]
  split_ifs at hs with h0 hw
  · cases hs
    exact iff_of_true rfl fun h => h.1 h0
  · cases hs
    exact iff_of_true rfl fun h => absurd (hw.symm.trans h.2.1) (by decide)
  · have hf' : tcpFlgIsset (((n.conn p).newMbuf m).hdr n.brk).flg tcpFlgRst = true := by
      rw [show ((n.conn p).newMbuf m).hdr n.brk = m.tcphdr from Conn.newMbuf_hdr (n.conn p) m]
      exact hf
    have hsw := switch_out_rst hf' len raddr m.tcphdr.sport
    rw [show ((n.conn p).newMbuf m).hdr n.brk = m.tcphdr from Conn.newMbuf_hdr (n.conn p) m] at hsw
    rw [tcpRecvFound_out hs]
    refine hsw.trans (not_congr ?_)
    rw [Bool.not_eq_true] at hw
    exact ⟨fun h => ⟨h0, hw, h⟩, fun h => h.2.2⟩

end

/-! ## Two hosts -/

/-- Two hosts and the addresses they have, with a segment on its way to the host `dst`. -/
structure Exchange where
  host : Bool → Stack
  addr : Bool → UInt32
  dst : Bool
  seg : TcpSeg

/-- The header that `tcp_send_core` writes for a segment, as the receiver reads it. -/
def TcpSeg.hdr (g : TcpSeg) : TcpHdr :=
  { sport := g.sport, dport := g.dport, seq := g.seq, ack := g.ack, off := 0x50, flg := g.flg, wnd := g.wnd }

namespace Exchange

def Reset (x : Exchange) : Prop := tcpFlgIsset x.seg.flg tcpFlgRst = true

/-- The segment meets a block that refuses its acknowledgement. -/
def Refused (x : Exchange) : Prop := (x.host x.dst).Refuses x.seg.hdr (x.addr !x.dst)

/-- The host `dst` receives the segment, in an mbuf `m`, and one of the segments that it sends for
it goes back to the other host.  Before that arrives anything may happen on the two hosts. -/
def Answer (x x' : Exchange) : Prop :=
  ∃ m len n' rest, m.tcphdr = x.seg.hdr ∧ tcpRecv (x.host x.dst) m len (x.addr !x.dst) = some n' ∧
    n'.out = (x.host x.dst).out ++ rest ∧ x'.seg ∈ rest ∧ x'.seg.raddr = x.addr (!x.dst) ∧
    x'.addr = x.addr ∧ x'.dst = (!x.dst) ∧
    ∀ i, ∃ ops, Run Step (if i = x.dst then n' else x.host i) ops (x'.host i)

theorem Answer.refused {x x' : Exchange} (h : x.Answer x') (hr : x.Reset) : x.Refused := by
  obtain ⟨m, len, n', rest, hm, hn, hout, hmem, -⟩ := h
  by_contra hno
  unfold Refused at hno
  rw [← hm] at hno
  have hf : tcpFlgIsset m.tcphdr.flg tcpFlgRst = true := by
    rw [hm]
    exact hr
  have hsame := (tcpRecv_out_rst hf hn).mpr hno
  rw [hout, List.append_right_eq_self] at hsame
  rw [hsame] at hmem
  cases hmem

end Exchange

/-- **Resets are not answered.**  `tcp_recv` sends something for a segment with the RST bit exactly when
the segment meets a block in SYN_SENT that refuses its acknowledgement; two hosts on which no reset
does so cannot exchange resets without end. -/
theorem resetsNotAnswered (n : Stack) (m : Mbuf) (len : UInt16) (raddr : UInt32) :
    (∀ n', tcpFlgIsset m.tcphdr.flg tcpFlgRst = true → tcpRecv n m len raddr = some n' →
      (n'.out = n.out ↔ ¬ n.Refuses m.tcphdr raddr)) ∧
    ¬ ∃ x : Nat → Exchange, ∀ k, (x k).Reset ∧ ¬ (x k).Refused ∧ (x k).Answer (x (k + 1)) := by
  refine ⟨fun n' hf hs => tcpRecv_out_rst hf hs, ?_⟩
  rintro ⟨x, hx⟩
  obtain ⟨hr, hno, ha⟩ := hx 0
  exact hno (ha.refused hr)

/-- A reset that acknowledges the SYN is taken in SYN_SENT without an answer. -/
theorem resetsNotAnswered_synSent : ∃ n n', Run Step socketInit [.sockalloc .tcp, .sockconnect 1 9 80] n ∧
    tcpRecv n (ctlMbuf 80 20000 7 1 (tcpFlgRst ||| tcpFlgAck)) 20 9 = some n' ∧
    (n.scbs 1).state = synSent ∧ n'.out = n.out := by
  obtain ⟨n, hn, n', hn', hget, hst, hinit, hnxt⟩ : ∃ n,
      runOf step socketInit [.sockalloc .tcp, .sockconnect 1 9 80] = some n ∧
      ∃ n', tcpRecv n (ctlMbuf 80 20000 7 1 (tcpFlgRst ||| tcpFlgAck)) 20 9 = some n' ∧
        getSockCb n .tcp 20000 9 80 = some 1 ∧ (n.scbs 1).state = synSent ∧ (n.scbs 1).snd.initSeq = 0 ∧
        (n.scbs 1).snd.nxtSeq = 1 := by
    decide +kernel
  refine ⟨n, n', Run.of_runOf hn, hn', hst, ((resetsNotAnswered n _ 20 9).1 n' (by decide) hn').mpr ?_⟩
  rintro ⟨p, hp, -, -, -, -, hack⟩
  obtain rfl : 1 = p := some.inj (hget.symm.trans hp)
  rw [hinit, hnxt] at hack
  revert hack
  decide

/-! ## A reset for ever -/

/-- The block of a `connect` for port 20000 of `raddr` from port 20000, waiting for the answer. -/
def waitingScb (raddr : UInt32) : SockCb :=
  { allocSockCb 1 raddr 20000 20000 .tcp with state := synSent, snd := ⟨0, 0, 1, 0, 0, 0⟩ }

/-- The host has that block and no other. -/
structure Stack.Waits (n : Stack) (raddr : UInt32) : Prop where
  head : n.table .tcp (20000 % sockCbLen) = 1
  alive : n.alive 1 = true
  brk : n.brkScb = 2
  scb : n.scbs 1 = waitingScb raddr

/-- The reset that goes back and forth. -/
def bouncedSeg (raddr : UInt32) : TcpSeg :=
  { raddr := raddr, sport := 20000, dport := 20000, seq := 1, ack := 0, wnd := 4096
    flg := tcpFlgRst ||| tcpFlgAck, payloadLen := 0, data := [] }

def bouncedMbuf (raddr : UInt32) : Mbuf := { emptyMbuf with tcphdr := (bouncedSeg raddr).hdr }

section
variable {n : Stack} {raddr : UInt32}

theorem Stack.Waits.found (h : n.Waits raddr) : getSockCb n .tcp 20000 raddr 20000 = some 1 := by
  have htakes : (waitingScb raddr).takes 20000 raddr 20000 = true := by
    simp [SockCb.takes, waitingScb, allocSockCb]
  unfold getSockCb
  rw [show (20000 : UInt16).toNat = 20000 from rfl, h.head]
  unfold findScb
  rw [if_neg (by decide), if_pos h.alive, h.scb, if_pos htakes]

/-- A waiting host sends the reset back and waits as before. -/
theorem Stack.Waits.bounce (h : n.Waits raddr) (raddr' : UInt32) : ∃ n',
    tcpRecv n (bouncedMbuf raddr') 20 raddr = some n' ∧ n'.out = n.out ++ [bouncedSeg raddr] ∧ n'.Waits raddr := by
  let c := (n.conn 1).newMbuf (bouncedMbuf raddr')
  have hscb : c.scb = waitingScb raddr := h.scb
  have hrefuse : RefusesAck c.scb (c.hdr n.brk) := by
    rw [hscb, show c.hdr n.brk = (bouncedSeg raddr').hdr from Conn.newMbuf_hdr (n.conn 1) _]
    exact ⟨rfl, (by decide : tcpFlgIsset (tcpFlgRst ||| tcpFlgAck) tcpFlgAck = true), .inl (UInt32.le_refl 0)⟩
  have hsw : tcpRecvSwitch c n.brk 20 raddr 20000 = ((tcpRecvSynSent c n.brk).1, false) := by
    unfold tcpRecvSwitch
    rw [hrefuse.1]
  have hrecv : tcpRecv n (bouncedMbuf raddr') 20 raddr = tcpRecvFound n 1 (bouncedMbuf raddr') 20 raddr := by
    have hpeer : wrongPeer (n.scbs 1) (bouncedMbuf raddr').tcphdr.sport = false := by
      rw [h.scb]
      rfl
    unfold tcpRecv
    rw [show getSockCb n .tcp (bouncedMbuf raddr').tcphdr.dport raddr (bouncedMbuf raddr').tcphdr.sport = some 1 from
      h.found, bind_some, if_neg (by decide), hpeer, if_neg (by decide)]
  rw [hrecv]
  unfold tcpRecvFound
  rw [show (bouncedMbuf raddr').tcphdr.sport = 20000 from rfl,
    show tcpRecvSwitch ((n.conn 1).newMbuf (bouncedMbuf raddr')) n.brk 20 raddr 20000 = _ from hsw,
    synSent_refuse hrefuse, hscb]
  refine ⟨_, rfl, ?_, h.head, h.alive, h.brk, (Function.update_self (1 : Nat) _ n.scbs).trans rfl⟩
  change n.out ++ [TcpSeg.mk c.scb.raddr c.scb.sport c.scb.dport 1 0 c.scb.rcv.wnd.toUInt16
    (tcpFlgRst ||| tcpFlgAck) 0 []] = _
  rw [hscb]
  rfl

theorem connected_waits (hr : raddr = 8 ∨ raddr = 9) : ∃ n,
    Run Step socketInit [.sockalloc .tcp, .sockconnect 1 raddr 20000] n ∧ n.Waits raddr := by
  refine Run.find (P := fun n => n.table .tcp (20000 % sockCbLen) = 1 ∧ n.alive 1 = true ∧ n.brkScb = 2 ∧
    n.scbs 1 = waitingScb raddr) ?_ fun n _ hv => ⟨hv.1, hv.2.1, hv.2.2.1, hv.2.2.2⟩
  rcases hr with rfl | rfl <;> decide +kernel

end

namespace Exchange

/-- Both hosts wait for each other while a reset is on its way. -/
structure Bouncing (x : Exchange) : Prop where
  waits : ∀ i, (x.host i).Waits (x.addr !i)
  seg : x.seg = bouncedSeg (x.addr x.dst)

theorem Bouncing.answer {x : Exchange} (h : x.Bouncing) : ∃ x', x.Reset ∧ x.Answer x' ∧ x'.Bouncing := by
  obtain ⟨n', hn, hout, hw⟩ := (h.waits x.dst).bounce (x.addr x.dst)
  refine ⟨{ host := fun i => if i = x.dst then n' else x.host i, addr := x.addr, dst := !x.dst
            seg := bouncedSeg (x.addr !x.dst) }, ?_, ?_, ?_, rfl⟩
  · unfold Reset
    rw [h.seg]
    exact (by decide : tcpFlgIsset (tcpFlgRst ||| tcpFlgAck) tcpFlgRst = true)
  · refine ⟨bouncedMbuf (x.addr x.dst), 20, n', [bouncedSeg (x.addr !x.dst)], ?_, hn, hout,
      List.mem_singleton_self _, rfl, rfl, rfl, fun i => ⟨[], .nil _⟩⟩
    rw [h.seg]
    rfl
  · intro i
    dsimp only
    split_ifs with hi
    · rw [hi]
      exact hw
    · exact h.waits i

end Exchange

/-- **One reset goes back and forth for ever.**  Two hosts have called `connect` for each other's port 20000,
and a reset with acknowledgement 0 reaches one of them. -/
theorem resets_for_ever : ∃ x : Nat → Exchange,
    (∀ i, Run Step socketInit [.sockalloc .tcp, .sockconnect 1 ((x 0).addr !i) 20000] ((x 0).host i)) ∧
    ∀ k, (x k).Reset ∧ (x k).Answer (x (k + 1)) := by
  let addr : Bool → UInt32 := fun i => if i then 9 else 8
  have haddr : ∀ i, addr i = 8 ∨ addr i = 9 := by decide
  choose host hrun hwait using fun i : Bool => connected_waits (haddr !i)
  let x0 : Exchange := { host := host, addr := addr, dst := false, seg := bouncedSeg (addr false) }
  have h0 : x0.Bouncing := ⟨hwait, rfl⟩
  -- the exchanges that go on, one after the other
  choose next hreset hanswer hnext using fun x : { x : Exchange // x.Bouncing } => x.2.answer
  let x : Nat → { x : Exchange // x.Bouncing } := fun k => (fun y => ⟨next y, hnext y⟩)^[k] ⟨x0, h0⟩
  refine ⟨fun k => (x k).1, hrun, fun k => ⟨hreset (x k), ?_⟩⟩
  change (x k).1.Answer (x (k + 1)).1
  rw [show x (k + 1) = ⟨next (x k), hnext (x k)⟩ from Function.iterate_succ_apply' ..]
  exact hanswer (x k)

end InternetOs.Net
