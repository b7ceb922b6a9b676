import InternetOs.Net.Frame
import InternetOs.Net.RxOwner

/-!
# The text of a received segment

When `tcp_recv` hands a segment to a block and when the block takes its text.  The length of the text is that of the
IP payload less the data offset; it starts behind 20 bytes of TCP header, whatever the data offset says.

    the mbuf on rxq presents the payload ↔ there are no options, or they do not show      (payloadExtraction)
-/

namespace InternetOs.Net

open SockCbState Function Option Stack

/-! ## Text that is taken -/

/-- The fifth step of `tcp_recv_core` is reached. -/
def ReachesAck (c : Conn) (m : Nat) (len : UInt16) : Prop :=
  isSeqValid c.scb.rcv.wnd c.scb.rcv.nxtSeq (c.hdr m).seq (tcpDataLen (c.hdr m) len) = true ∧
    (checkRst c.scb (c.hdr m).flg).2 = .ok ∧ checkSyn c.scb (c.hdr m).flg = .ok

/-- The text of the segment is taken. -/
def TakesText (c : Conn) (m : Nat) (len : UInt16) : Prop :=
  ReachesAck c m len ∧ (c.acked m).2 = .ok ∧ (c.acked m).1.state.synced ∧
    TextOk (c.acked m).1 (c.hdr m).seq (tcpDataLen (c.hdr m) len)

instance (st : SockCbState) : Decidable st.synced := by unfold SockCbState.synced; infer_instance

instance (scb : SockCb) (seq : UInt32) (datalen : UInt16) : Decidable (TextOk scb seq datalen) := by
  unfold TextOk
  infer_instance

instance (c : Conn) (m : Nat) (len : UInt16) : Decidable (ReachesAck c m len) := by
  unfold ReachesAck
  infer_instance

instance (c : Conn) (m : Nat) (len : UInt16) : Decidable (TakesText c m len) := by
  unfold TakesText
  infer_instance

section
variable {c : Conn} {m : Nat} {len : UInt16}

theorem checkSyn_cases (scb : SockCb) (flg : UInt8) : checkSyn scb flg = .sndRst ∨ checkSyn scb flg = .ok := by
  unfold checkSyn
  split
  all_goals first | exact .inr rfl | (split; exact .inl rfl; exact .inr rfl)

theorem ReachesAck.core (h : ReachesAck c m len) : tcpRecvCore c m len = tcpRecvAck c m (tcpDataLen (c.hdr m) len) := by
  obtain ⟨hv, hr, hs⟩ := h
  have hrst : checkRst c.scb (c.hdr m).flg = (c.scb, .ok) := by
    rcases checkRst_cases c.scb (c.hdr m).flg with h | h
    · rw [h.1] at hr
      cases hr
    · exact h
  unfold tcpRecvCore
  dsimp only
  rw [show (c.mbufs m).tcphdr = c.hdr m from rfl, hv, hrst]
  simp [hs]

/-- A segment that is stopped before its ACK field is looked at. -/
theorem core_not_ok (h : ¬ ReachesAck c m len) : (tcpRecvCore c m len).2 ≠ .ok := by
  unfold tcpRecvCore
  dsimp only
  rw [show (c.mbufs m).tcphdr = c.hdr m from rfl]
  cases hv : isSeqValid c.scb.rcv.wnd c.scb.rcv.nxtSeq (c.hdr m).seq (tcpDataLen (c.hdr m) len) with
  | false => simp
  | true =>
    rcases checkRst_cases c.scb (c.hdr m).flg with hr | hr
    · simp [hr.1]
    · rcases checkSyn_cases c.scb (c.hdr m).flg with hs | hs
      · simp [hr, hs]
      · exact absurd ⟨hv, by rw [hr], hs⟩ h

theorem TakesText.core (h : TakesText c m len) : ∃ c', tcpRecvCore c m len = (c', .ok) ∧
    c'.scb.rxq = (mbufqPushtail (update c.mbufs m (textMbuf (c.mbufs m) (tcpDataLen (c.hdr m) len))) c.scb.rxq m).2 ∧
    c'.mbufs = (mbufqPushtail (update c.mbufs m (textMbuf (c.mbufs m) (tcpDataLen (c.hdr m) len))) c.scb.rxq m).1 := by
  obtain ⟨hr, ha, hs, ht⟩ := h
  rw [hr.core]
  unfold tcpRecvAck
  dsimp only
  rw [show checkAck c.scb (c.mbufs m).tcphdr.flg (c.mbufs m).tcphdr.ack (c.mbufs m).tcphdr.seq
    ((c.mbufs m).tcphdr.wnd.toUInt32 <<< 16) = c.acked m from rfl, ha]
  unfold tcpRecvText
  dsimp only
  rw [show (c.mbufs m).tcphdr = c.hdr m from rfl, checkText_text hs ht]
  refine ⟨_, rfl, ?_, ?_⟩
  · rw [← Conn.acked_rxq c m]
    rfl
  · rw [← Conn.acked_rxq c m]
    rfl

theorem core_mbufs (h : ¬ TakesText c m len) : (tcpRecvCore c m len).1.mbufs = c.mbufs := by
  have hout := tcpRecvCore_outcome c m len
  have hok : (tcpRecvCore c m len).2 = .ok → ReachesAck c m len := fun ho => by
    by_contra hr
    exact core_not_ok hr ho
  generalize (tcpRecvCore c m len).2 = op at hout hok
  cases hout with
  | text _ ha hs ht => exact absurd ⟨hok rfl, ha, hs, ht⟩ h
  | badSeq _ hc | rst _ hc | syn _ hc | ackClose _ _ hc | ackStop _ _ _ hc | noText _ _ _ hc | fin _ _ _ _ _ hc
  | finClose _ _ _ _ _ hc | drop _ _ _ hc => exact hc.mbufs

theorem mbufqPushtail_same (h : MbufHeap) (q : Mbufq) (m x : Nat) :
    ∃ v, (mbufqPushtail h q m).1 x = { h x with next := v } := by
  have hset : ∀ (h : MbufHeap) (p v x : Nat), ∃ w, setNext h p v x = { h x with next := w } := by
    intro h p v x
    by_cases hx : x = p
    · subst hx
      exact ⟨v, update_self ..⟩
    · exact ⟨(h x).next, update_of_ne hx ..⟩
  unfold mbufqPushtail
  split
  · exact hset _ _ _ _
  · obtain ⟨v, hv⟩ := hset h m 0 x
    obtain ⟨w, hw⟩ := hset (setNext h m 0) q.tail m x
    exact ⟨w, hw.trans (by rw [hv])⟩

theorem switch_mbufs (len : UInt16) (h : ¬ (c.scb.state ≠ listen ∧ c.scb.state ≠ synSent ∧ TakesText c m len))
    (raddr : UInt32) (dport : UInt16) : (tcpRecvSwitch c m len raddr dport).1.mbufs = c.mbufs := by
  have hout := tcpRecvSwitch_outcome c m len raddr dport
  by_cases hcore : c.scb.state ≠ .closed ∧ c.scb.state ≠ listen ∧ c.scb.state ≠ synSent
  · obtain ⟨h1, h2, h3⟩ := hcore
    rw [tcpRecvSwitch_core h1 h2 h3]
    exact core_mbufs fun ht => h ⟨h2, h3, ht⟩
  · generalize (tcpRecvSwitch c m len raddr dport).1 = c' at hout ⊢
    generalize (tcpRecvSwitch c m len raddr dport).2 = b at hout
    cases hout with
    | closed hs => rfl
    | listen hs h =>
      cases h with
      | stay hc | syn _ hc => exact hc.mbufs
    | synSent hs h =>
      cases h with
      | stay hc | badAck hc | synAck _ _ _ _ hc => exact hc.mbufs
    | core h1 h2 h3 h => exact absurd ⟨h1, h2, h3⟩ hcore

end

theorem freeSockCb_mbufs {n n' : Stack} {p : Nat} (hs : freeSockCb n p = some n') : n'.mbufs = n.mbufs := by
  have hl : LinkClosed fun n n' : Stack => n'.mbufs = n.mbufs :=
    ⟨fun _ => rfl, fun h h' => h'.trans h, fun _ _ _ => rfl, fun _ _ _ => rfl, fun _ _ _ _ => rfl⟩
  obtain ⟨n1, h1, rfl⟩ := hl.freeSockCb hs
  exact h1

/-! ## The block a segment is handed to -/

/-- `tcp_recv` hands the segment in the mbuf at `a` to the block at `p`. -/
def Stack.Hands (n : Stack) (a : Nat) (raddr : UInt32) (p : Nat) : Prop :=
  getSockCb n .tcp (n.mbufs a).tcphdr.dport raddr (n.mbufs a).tcphdr.sport = some p ∧ p ≠ 0 ∧
    wrongPeer (n.scbs p) (n.mbufs a).tcphdr.sport = false ∧ (n.scbs p).state ≠ closed

/-- ... and the block takes its text. -/
def Stack.HandsText (n : Stack) (a : Nat) (raddr : UInt32) (len : UInt16) (p : Nat) : Prop :=
  n.Hands a raddr p ∧ (n.scbs p).state ≠ listen ∧ (n.scbs p).state ≠ synSent ∧ TakesText (n.conn p) a len

section
variable {n n' : Stack} {a p : Nat} {raddr : UInt32} {len : UInt16}

@[simp] theorem Stack.putConn_conn (n : Stack) (p : Nat) : n.putConn p (n.conn p) = n := by
  unfold putConn setScb conn
  simp

theorem tcpRecvAt_eq (h : n.Hands a raddr p) : tcpRecvAt n a len raddr =
    let r := tcpRecvSwitch (n.conn p) a len raddr (n.mbufs a).tcphdr.sport
    if r.2 then freeSockCb (n.putConn p r.1) p else some (n.putConn p r.1) := by
  obtain ⟨hget, h0, hw, -⟩ := h
  unfold tcpRecvAt
  dsimp only
  rw [hget, bind_some, if_neg h0, if_neg (by simp [hw])]

theorem tcpRecvAt_dropped (h : ∀ p, ¬ n.Hands a raddr p) (hs : tcpRecvAt n a len raddr = some n') : n' = n := by
  obtain ⟨p, hp, hs⟩ := bind_eq_some_iff.mp hs
  split at hs
  · exact (some.inj hs).symm
  · next h0 =>
    split at hs
    · exact (some.inj hs).symm
    · next hw =>
      have hc : (n.scbs p).state = closed := by
        by_contra hc
        exact h p ⟨hp, h0, by simpa using hw, hc⟩
      have hsw : tcpRecvSwitch (n.conn p) a len raddr (n.mbufs a).tcphdr.sport = (n.conn p, false) := by
        unfold tcpRecvSwitch
        rw [show (n.conn p).scb.state = closed from hc]
      rw [hsw] at hs
      simpa using hs.symm

theorem tcpRecvAt_mbufs (h : ∀ p, ¬ n.HandsText a raddr len p) (hs : tcpRecvAt n a len raddr = some n') :
    n'.mbufs = n.mbufs := by
  by_cases hh : ∃ p, n.Hands a raddr p
  · obtain ⟨p, hp⟩ := hh
    have hsw := switch_mbufs (c := n.conn p) (m := a) len
      (fun ht => h p ⟨hp, ht.1, ht.2.1, ht.2.2⟩) raddr (n.mbufs a).tcphdr.sport
    rw [tcpRecvAt_eq hp] at hs
    dsimp only at hs
    split at hs
    · rw [freeSockCb_mbufs hs]
      exact hsw
    · cases hs
      exact hsw
  · rw [tcpRecvAt_dropped (fun p hp => hh ⟨p, hp⟩) hs]

/-- Text that is taken is in the mbuf, which goes to the end of `rxq`. -/
theorem Stack.HandsText.recv (h : n.HandsText a raddr len p) : ∃ n', tcpRecvAt n a len raddr = some n' ∧
    (n'.scbs p).rxq = (mbufqPushtail (update n.mbufs a
      (textMbuf (n.mbufs a) (tcpDataLen (n.mbufs a).tcphdr len))) (n.scbs p).rxq a).2 ∧
    n'.mbufs = (mbufqPushtail (update n.mbufs a
      (textMbuf (n.mbufs a) (tcpDataLen (n.mbufs a).tcphdr len))) (n.scbs p).rxq a).1 := by
  obtain ⟨hp, h2, h3, ht⟩ := h
  obtain ⟨c', hc, hq, hm⟩ := ht.core
  rw [tcpRecvAt_eq hp, tcpRecvSwitch_core (c := n.conn p) hp.2.2.2 h2 h3, hc]
  refine ⟨n.putConn p c', rfl, ?_, hm⟩
  rw [show (n.putConn p c').scbs p = c'.scb by simp]
  exact hq

theorem Stack.HandsText.mbuf (h : n.HandsText a raddr len p) (hs : tcpRecvAt n a len raddr = some n') :
    ∃ v, n'.mbufs a = { textMbuf (n.mbufs a) (tcpDataLen (n.mbufs a).tcphdr len) with next := v } := by
  obtain ⟨n1, hn1, -, hm⟩ := h.recv
  cases some.inj (hn1.symm.trans hs)
  rw [hm]
  obtain ⟨v, hv⟩ := mbufqPushtail_same (update n.mbufs a
    (textMbuf (n.mbufs a) (tcpDataLen (n.mbufs a).tcphdr len))) (n.scbs p).rxq a a
  rw [update_self] at hv
  exact ⟨v, hv⟩

theorem Stack.HandsText.holds (h : n.HandsText a raddr len p) (hs : tcpRecvAt n a len raddr = some n') {q : List Nat}
    (hq : (n.scbs p).rxq.Holds n.mbufs q) (ha : a ≠ 0) (haq : a ∉ q) : (n'.scbs p).rxq.Holds n'.mbufs (q ++ [a]) := by
  obtain ⟨n1, hn1, hr, hm⟩ := h.recv
  cases some.inj (hn1.symm.trans hs)
  rw [hr, hm]
  refine mbufqPushtail_holds (hq.congr fun x hx => ?_) ha haq
  have hxa : x ≠ a := fun he => haq (he ▸ hx)
  rw [update_of_ne hxa]

end

/-! ## The text of a segment -/

/-- The stack in which `tcp_recv` has pulled the header of the segment in the mbuf at `a`. -/
def Stack.pulled (n : Stack) (a : Nat) : Stack :=
  n.setMbuf a { n.mbufs a with
    len := (n.mbufs a).len - 20, head := (n.mbufs a).head + 20, tcphdr := tcpHdrAt (n.mbufs a).buf (n.mbufs a).head }

theorem tcpRecvFrame_pulled {n : Stack} {a ip : Nat} {len : UInt16} (h : 20 ≤ (n.mbufs a).len) :
    tcpRecvFrame n a ip len = if tcpChecksum (n.mbufs a).buf ip (n.mbufs a).head len ≠ 0 then some (n.pulled a)
      else tcpRecvAt (n.pulled a) a len (be32 (n.mbufs a).buf (ip + 12)) := by
  unfold tcpRecvFrame
  rw [mbufpull_of_le h]
  rfl

/-- The data offset of the segment in an mbuf, in words. -/
def Mbuf.dataOff (m : Mbuf) : Nat := (m.buf (m.head + 12) >>> 4).toNat

/-- The mbuf at `a` holds a well-formed segment of `len` bytes, and the block at `p` takes its text. -/
structure TakenSegment (n : Stack) (a ip : Nat) (len : UInt16) (p : Nat) : Prop where
  words : 5 ≤ (n.mbufs a).dataOff
  hdr : 4 * (n.mbufs a).dataOff ≤ len.toNat
  whole : len.toNat ≤ (n.mbufs a).len
  sum : tcpChecksum (n.mbufs a).buf ip (n.mbufs a).head len = 0
  text : (n.pulled a).HandsText a (be32 (n.mbufs a).buf (ip + 12)) len p

/-- The payload of the segment of `len` bytes in an mbuf. -/
def Mbuf.segPayload (m : Mbuf) (len : Nat) : List UInt8 := (m.data.take len).drop (4 * m.dataOff)

section
variable {n : Stack} {a ip p : Nat} {len : UInt16}

theorem tcpDataLen_toNat (len : UInt16) (hdr : TcpHdr) (h : 4 * (hdr.off >>> 4).toNat ≤ len.toNat) :
    (tcpDataLen hdr len).toNat = len.toNat - 4 * (hdr.off >>> 4).toNat := by
  have hoff : (hdr.off >>> 4).toNat < 16 := by
    rw [UInt8.toNat_shiftRight]
    have := hdr.off.toNat_lt
    simp only [UInt8.reduceToNat, Nat.reduceMod]
    omega
  have hshift : ((hdr.off >>> 4) <<< 2).toUInt16.toNat = 4 * (hdr.off >>> 4).toNat := by
    rw [UInt8.toNat_toUInt16, UInt8.toNat_shiftLeft]
    simp only [UInt8.reduceToNat, Nat.reduceMod]
    omega
  unfold tcpDataLen
  rw [UInt16.toNat_sub]
  have := len.toNat_lt
  omega

theorem Mbuf.segPayload_eq (m : Mbuf) {l : Nat} (h : 4 * m.dataOff ≤ l) (hl : l ≤ m.len) :
    m.segPayload l = { m with head := m.head + 4 * m.dataOff, len := l - 4 * m.dataOff }.data := by
  have hpull := mbufpull_data { m with len := l } (4 * m.dataOff) h
  rw [mbufpull_of_le (m := { m with len := l }) h, m.data_cut hl] at hpull
  exact hpull.symm

theorem Mbuf.data_eq_iff (m : Mbuf) (i j k : Nat) :
    { m with head := m.head + i, len := k }.data = { m with head := m.head + j, len := k }.data ↔
      ∀ x < k, m.buf (m.head + i + x) = m.buf (m.head + j + x) := by
  unfold Mbuf.data
  simp [List.map_inj_left]

/-- A segment whose text is taken: its mbuf goes to the end of `rxq`, with as many bytes as there are behind the
header.  They are the payload just when there are no options or the bytes from offset 20 on look the same. -/
theorem payloadExtraction (h : TakenSegment n a ip len p) {q : List Nat} (hq : (n.scbs p).rxq.Holds n.mbufs q)
    (ha : a ≠ 0) (haq : a ∉ q) : ∃ n', tcpRecvFrame n a ip len = some n' ∧ (n'.scbs p).rxq.Holds n'.mbufs (q ++ [a]) ∧
      (n'.mbufs a).len = len.toNat - 4 * (n.mbufs a).dataOff ∧
      ((n'.mbufs a).data = (n.mbufs a).segPayload len.toNat ↔
        (n.mbufs a).dataOff = 5 ∨ ∀ i < len.toNat - 4 * (n.mbufs a).dataOff,
          (n.mbufs a).buf ((n.mbufs a).head + 20 + i) =
            (n.mbufs a).buf ((n.mbufs a).head + 4 * (n.mbufs a).dataOff + i)) := by
  obtain ⟨hwords, hhdr, hwhole, hsum, htext⟩ := h
  obtain ⟨n', hn', -⟩ := htext.recv
  obtain ⟨v, hv⟩ := htext.mbuf hn'
  rw [show (n.pulled a).mbufs a = _ from setMbuf_self] at hv
  have hlen := tcpDataLen_toNat len (tcpHdrAt (n.mbufs a).buf (n.mbufs a).head) hhdr
  refine ⟨n', ?_, ?_, ?_, ?_⟩
  · rw [tcpRecvFrame_pulled (by omega), if_neg (fun hne => hne hsum)]
    exact hn'
  · refine htext.holds hn' (hq.congr fun x hx => ?_) ha haq
    have hxa : x ≠ a := fun he => haq (he ▸ hx)
    simp [pulled, setMbuf, hxa]
  · rw [hv]
    exact hlen
  · have hdata : (n'.mbufs a).data =
        { n.mbufs a with head := (n.mbufs a).head + 20, len := len.toNat - 4 * (n.mbufs a).dataOff }.data := by
      rw [hv]
      exact congrArg (fun l => Mbuf.data { n.mbufs a with head := (n.mbufs a).head + 20, len := l }) hlen
    rw [hdata, (n.mbufs a).segPayload_eq hhdr hwhole, Mbuf.data_eq_iff]
    constructor
    · exact .inr
    · rintro (h5 | hsame)
      · rw [h5]
        exact fun _ _ => rfl
      · exact hsame

end

/-- A frame that carries a segment from port 80 of 10.0.0.2 to port 2222, with number 8 and acknowledging 1. -/
def segFrame (ipLen : UInt16) (off : UInt8) (sum : UInt16) (rest : List UInt8) : List UInt8 :=
  ethHdrBytes localMac broadcastMac 0x0800 ++
    ipHdrBytes ipLen 6 (ipSum ipLen 6 0x0a000002 localIp) 0x0a000002 localIp ++
    tcpHdrBytes 80 2222 8 1 (off <<< 4) tcpFlgAck 0 sum 0 ++ rest

/-- The connection it belongs to is in SOCK_CB_ESTAB; the mbuf at 1 holds `frame` from `head` on. -/
def estabStack (frame : List UInt8) (head : Nat) : Stack :=
  { socketInit with
    scbs := fun _ => { allocSockCb 1 0x0a000002 2222 80 .tcp with
      state := estab
      snd := { initSeq := 0, unack := 1, nxtSeq := 1, wnd := 0, wl1 := 0, wl2 := 0 }
      rcv := { initSeq := 7, nxtSeq := 8, wnd := 4096 } }
    alive := fun p => p == 1, brkScb := 2
    table := fun t i => if t = .tcp ∧ i = 2222 % sockCbLen then 1 else 0
    mbufs := fun _ => { emptyMbuf with head := head, len := frame.length - head, buf := asBuf frame }
    brk := 2 }

/-- A segment of three bytes. -/
def plainSegment : Stack := estabStack (segFrame 43 5 0xa313 [10, 11, 12]) 34

/-- The same three bytes behind four bytes of options. -/
def optionSegment : Stack := estabStack (segFrame 47 6 0x910d [1, 1, 1, 1, 10, 11, 12]) 34

theorem plainSegment_taken : TakenSegment plainSegment 1 14 23 1 :=
  ⟨by decide, by decide, by decide, by decide, ⟨by decide, by decide, by decide, by decide⟩, by decide, by decide,
    by decide⟩

theorem optionSegment_taken : TakenSegment optionSegment 1 14 27 1 :=
  ⟨by decide, by decide, by decide, by decide, ⟨by decide, by decide, by decide, by decide⟩, by decide, by decide,
    by decide⟩

theorem payloadExtraction_three : ∃ n', tcpRecvFrame plainSegment 1 14 23 = some n' ∧
    (n'.scbs 1).rxq.Holds n'.mbufs [1] ∧ (n'.mbufs 1).data = [10, 11, 12] := by
  obtain ⟨n', hn', hq, -, hdata⟩ := payloadExtraction plainSegment_taken (.nil _) (by decide) (by decide)
  refine ⟨n', hn', hq, ?_⟩
  rw [hdata.mpr (Or.inl (by decide))]
  decide

/-- The reader gets three bytes of the options. -/
theorem payloadExtraction_options : TakenSegment optionSegment 1 14 27 1 ∧
    (optionSegment.mbufs 1).segPayload 27 = [10, 11, 12] ∧
    (tcpRecvFrame optionSegment 1 14 27).map (fun n' => (n'.mbufs 1).data) = some [1, 1, 1] :=
  ⟨optionSegment_taken, by decide, by decide⟩

end InternetOs.Net
