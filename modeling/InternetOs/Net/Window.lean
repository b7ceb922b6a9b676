import InternetOs.Lib.SeqNum
import InternetOs.Net.TcpCases

/-!
# Windows of sequence numbers (`is_seq_valid`, `check_ack`, `check_text`)

Sequence numbers are compared modulo 2³² by RFC 793, and with plain `<` and `<=` by `tcp.c`.  The two agree as
long as the windows do not wrap.

    isSeqValid says what the RFC says, if the window ends below 2³²                        (seqAcceptability)
    check_ack does, if the send window does not wrap and the ack is near it                (ackProcessing)
    tcp_recv_core takes a segment that is in order and less than the window                (offeredTextTaken)
-/

namespace InternetOs.Net

open SockCbState SeqNum

/-! ## Acceptability -/

/-- The test of RFC 793, page 69, for the four cases of an empty segment and an empty window. -/
def Acceptable (rcvwnd rcvnxt segseq : UInt32) (seglen : UInt16) : Prop :=
  if seglen = 0 then
    if rcvwnd = 0 then ahead rcvnxt segseq = 0 else ahead rcvnxt segseq < rcvwnd.toNat
  else if rcvwnd = 0 then False
  else
    ahead rcvnxt segseq < rcvwnd.toNat ∨ ahead rcvnxt (segseq + seglen.toUInt32 - 1) < rcvwnd.toNat

/-- The window ends below 2³². -/
def NoWrap (rcvwnd rcvnxt : UInt32) : Prop := rcvnxt.toNat + rcvwnd.toNat < 2 ^ 32

section
variable {rcvwnd rcvnxt segseq : UInt32} {seglen : UInt16}

theorem isSeqValid_eq (hw : rcvwnd ≠ 0) : isSeqValid rcvwnd rcvnxt segseq seglen =
    if seglen = 0 then inWindow rcvnxt segseq rcvwnd
    else inWindow rcvnxt segseq rcvwnd || inWindow rcvnxt (segseq + seglen.toUInt32 - 1) rcvwnd := by
  unfold isSeqValid
  rw [if_neg hw]
  rfl

/-- `is_seq_valid` is the test of the RFC, with every segment refused while the window wraps. -/
theorem isSeqValid_iff : isSeqValid rcvwnd rcvnxt segseq seglen = true ↔
    Acceptable rcvwnd rcvnxt segseq seglen ∧ NoWrap rcvwnd rcvnxt := by
  by_cases hw : rcvwnd = 0
  · -- an empty window does not wrap
    subst hw
    have hn : NoWrap 0 rcvnxt := by
      have := rcvnxt.toNat_lt
      simpa [NoWrap] using this
    unfold isSeqValid Acceptable
    by_cases hl : seglen = 0
    · simp [hl, hn, ahead_eq_zero]
    · simp [hl]
  · rw [isSeqValid_eq hw]
    unfold Acceptable
    by_cases hn : NoWrap rcvwnd rcvnxt
    · by_cases hl : seglen = 0
      · simp [hl, hw, hn, inWindow_iff hn]
      · simp [hw, hn, inWindow_iff hn]
    · have hge : 2 ^ 32 ≤ rcvnxt.toNat + rcvwnd.toNat := Nat.le_of_not_lt hn
      simp [hn, not_inWindow hge]

theorem acceptable_add (k : UInt32) :
    Acceptable rcvwnd (rcvnxt + k) (segseq + k) seglen ↔ Acceptable rcvwnd rcvnxt segseq seglen := by
  have hlast : segseq + k + seglen.toUInt32 - 1 = segseq + seglen.toUInt32 - 1 + k := by
    rw [← UInt32.toBitVec_inj]
    simp only [UInt32.toBitVec_sub, UInt32.toBitVec_add]
    bv_omega
  unfold Acceptable
  rw [hlast]
  simp only [ahead_add_right]

end

/-- **Acceptability modulo 2³².**  `is_seq_valid` decides as the RFC does exactly if the window ends below 2³² or
the segment is outside it; and moving the window and the segment together changes its decision exactly if
the segment is in the window and the window wraps at one of the two places. -/
theorem seqAcceptability (rcvwnd rcvnxt segseq : UInt32) (seglen : UInt16) :
    ((isSeqValid rcvwnd rcvnxt segseq seglen = true ↔ Acceptable rcvwnd rcvnxt segseq seglen) ↔
      NoWrap rcvwnd rcvnxt ∨ ¬ Acceptable rcvwnd rcvnxt segseq seglen) ∧
    ∀ k, (isSeqValid rcvwnd (rcvnxt + k) (segseq + k) seglen = isSeqValid rcvwnd rcvnxt segseq seglen ↔
      (NoWrap rcvwnd (rcvnxt + k) ↔ NoWrap rcvwnd rcvnxt) ∨ ¬ Acceptable rcvwnd rcvnxt segseq seglen) := by
  refine ⟨?_, fun k => ?_⟩
  · rw [isSeqValid_iff]
    tauto
  · rw [Bool.eq_iff_iff, isSeqValid_iff, isSeqValid_iff, acceptable_add]
    tauto

/-- The peer's next byte, with the default window open, is refused if the window ends at 2³². -/
theorem seqAcceptability_refused :
    isSeqValid 4096 0xfffff000 0xfffff000 1 = false ∧ Acceptable 4096 0xfffff000 0xfffff000 1 ∧
      isSeqValid 4096 (0xfffff000 + 0x1000) (0xfffff000 + 0x1000) 1 = true := by
  unfold Acceptable
  decide

/-! ## Acknowledgements -/

/-- `ack` acknowledges something new: it is in `(unack, nxt_seq]`. -/
def AcksNew (snd : SndSeq) (ack : UInt32) : Prop :=
  0 < ahead snd.unack ack ∧ ahead snd.unack ack ≤ ahead snd.unack snd.nxtSeq

/-- `ack` is after `nxt_seq`: less than half of the numbers ahead of it. -/
def AcksUnsent (snd : SndSeq) (ack : UInt32) : Prop := 0 < ahead snd.nxtSeq ack ∧ ahead snd.nxtSeq ack < 2 ^ 31

/-- `can_update_sndwnd`, on an acknowledgement that is valid. -/
def UpdatesWnd (scb : SockCb) (ack seq : UInt32) : Bool :=
  isValidNxtack scb ack && (scb.snd.wl1 < seq || (scb.snd.wl1 == seq && scb.snd.wl2 ≤ ack))

/-- The segment is answered by an ACK because of its ACK field, and goes no further. -/
def AnswersAck (c : Conn) (m : Nat) (datalen : UInt16) : Prop :=
  tcpRecvAck c m datalen = (tcpSendAck { c with scb := (c.acked m).1 }, .err)

/-- What RFC 793 asks of the ACK field in the synchronized states. -/
structure AckProcessed (c : Conn) (m : Nat) (datalen : UInt16) : Prop where
  new : AcksNew c.scb.snd (c.hdr m).ack → (c.acked m).1.snd.unack = (c.hdr m).ack
  old : ¬ AcksNew c.scb.snd (c.hdr m).ack → (c.acked m).1.snd.unack = c.scb.snd.unack
  unsent : AnswersAck c m datalen ↔ AcksUnsent c.scb.snd (c.hdr m).ack
  wnd : UpdatesWnd c.scb (c.hdr m).ack (c.hdr m).seq = true → (c.acked m).1.snd.wnd = (c.hdr m).wnd.toUInt32

/-- Plain comparisons with the ends of the send window say what those modulo 2³² do. -/
def AckInReach (snd : SndSeq) (ack : UInt32) : Prop :=
  (snd.unack ≤ snd.nxtSeq ∧ ack.toNat ≤ snd.nxtSeq.toNat + (2 ^ 31 - 1) ∧ snd.nxtSeq.toNat ≤ ack.toNat + 2 ^ 31) ∨
  (snd.nxtSeq < snd.unack ∧ snd.nxtSeq.toNat + 2 ^ 31 ≤ ack.toNat ∧ ack < snd.unack)

section
variable {scb : SockCb} {ack seq wnd : UInt32}

theorem isValidNxtack_iff : isValidNxtack scb ack = true ↔ scb.snd.unack < ack ∧ ack ≤ scb.snd.nxtSeq := by
  simp [isValidNxtack]

theorem ackSnd_unack (snd : SndSeq) (ack seq wnd : UInt32) : (ackSnd snd ack seq wnd).unack = ack := by
  unfold ackSnd
  dsimp only
  split <;> rfl

theorem checkAckSynced_snd (scb : SockCb) (ack seq wnd : UInt32) :
    (checkAckSynced scb ack seq wnd).1.snd.unack = (if isValidNxtack scb ack then ack else scb.snd.unack) ∧
      (UpdatesWnd scb ack seq = true → (checkAckSynced scb ack seq wnd).1.snd.wnd = wnd) := by
  have key : ∀ snd : SndSeq, snd = (if isValidNxtack scb ack then ackSnd scb.snd ack seq wnd else scb.snd) →
      snd.unack = (if isValidNxtack scb ack then ack else scb.snd.unack) ∧
        (UpdatesWnd scb ack seq = true → snd.wnd = wnd) := by
    rintro snd rfl
    cases hv : isValidNxtack scb ack with
    | false => simp [UpdatesWnd, hv]
    | true =>
      refine ⟨ackSnd_unack _ _ _ _, fun hu => ?_⟩
      simp only [UpdatesWnd, hv, Bool.true_and] at hu
      simp only [if_true, ackSnd, hu]
  unfold checkAckSynced
  split
  · next h =>
    simp only [Bool.and_eq_true, Bool.not_eq_true'] at h
    exact key scb.snd (by simp [h.1])
  · split
    · next h =>
      simp only [Bool.and_eq_true, Bool.not_eq_true'] at h
      exact key scb.snd (by simp [h.1])
    · dsimp only
      split <;> exact key _ rfl

/-- `check_ack` asks for an ACK on a number after `nxt_seq` that is not before `unack`. -/
theorem checkAckSynced_sndAck : (checkAckSynced scb ack seq wnd).2 = .sndAck ↔
    scb.snd.unack ≤ ack ∧ scb.snd.nxtSeq < ack := by
  unfold checkAckSynced
  split
  · next h =>
    simp only [Bool.and_eq_true, decide_eq_true_eq] at h
    simp [UInt32.not_le.mpr h.2]
  · next hold =>
    split
    · next h =>
      simp only [Bool.and_eq_true, decide_eq_true_eq] at h
      simp only [h.1, Bool.true_and, decide_eq_true_eq] at hold
      simp [h.2, UInt32.not_lt.mp hold]
    · next hfut =>
      have hle := (ack_range hold hfut).2
      have hnot : ¬ (scb.snd.unack ≤ ack ∧ scb.snd.nxtSeq < ack) := fun h => absurd hle (UInt32.not_le.mpr h.2)
      dsimp only
      split <;> simp [hnot]

end

section
variable {c : Conn} {m : Nat} {datalen : UInt16}

/-- Text that is refused sends nothing, or has its FIN acknowledged. -/
theorem tcpRecvText_err (h : (tcpRecvText c m datalen).2 = .err) : (tcpRecvText c m datalen).1.out = c.out ∨
      (tcpRecvText c m datalen).1.scb.rcv.nxtSeq = c.scb.rcv.nxtSeq + 1 := by
  have hfin : ∀ {c' : Conn}, c'.scb.state.synced → ∀ {flg : UInt8}, (tcpRecvFin c' flg).2 = .err →
      (tcpRecvFin c' flg).1.scb.rcv.nxtSeq = c'.scb.rcv.nxtSeq + 1 := by
    intro c' hs flg hop
    unfold tcpRecvFin at hop ⊢
    by_cases hf : tcpFlgIsset flg tcpFlgFin = true
    · rcases hs with hs | hs
      · rw [checkFin_estab hs hf]
        rfl
      · rw [checkFin_finWait hs hf] at hop
        cases hop
    · rw [checkFin_noFin hf] at hop
      cases hop
  unfold tcpRecvText at h ⊢
  dsimp only at h ⊢
  by_cases hs : c.scb.state.synced
  · by_cases ht : TextOk c.scb (c.mbufs m).tcphdr.seq datalen
    · rw [checkText_text hs ht] at h
      cases h
    · rcases checkText_noText hs ht with he | he <;> rw [he] at h ⊢ <;> exact .inr (hfin hs h)
  · rw [checkText_notSynced _ _ hs]
    exact .inl rfl

theorem answersAck_iff : AnswersAck c m datalen ↔ (c.acked m).2 = .sndAck := by
  have hop : (c.acked m).2 ∈ [TcpOp.ok, .closeScb, .sndRst, .err, .sndAck] := checkAck_op _ _ _ _ _
  let c' : Conn := { c with scb := (c.acked m).1 }
  have hlen : c'.out ≠ (tcpSendAck c').out := fun he => by
    have := congrArg List.length he
    simp [tcpSendAck, tcpSendCtl, tcpSendCore] at this
  unfold AnswersAck tcpRecvAck
  dsimp only
  rw [show checkAck c.scb (c.mbufs m).tcphdr.flg (c.mbufs m).tcphdr.ack (c.mbufs m).tcphdr.seq
    ((c.mbufs m).tcphdr.wnd.toUInt32 <<< 16) = c.acked m from rfl]
  simp only [List.mem_cons, List.not_mem_nil, or_false] at hop
  -- only the branch of TCP_OP_SND_ACK sends an ACK of `rcv.nxt_seq` and stops
  rcases hop with ha | ha | ha | ha | ha
  · simp only [ha, reduceCtorEq, iff_false]
    intro heq
    have herr : (tcpRecvText c' m datalen).2 = .err := by rw [heq]
    rcases tcpRecvText_err herr with h | h
    · rw [heq] at h
      exact hlen h.symm
    · rw [heq] at h
      have hn : c'.scb.rcv.nxtSeq = c'.scb.rcv.nxtSeq + 1 := h
      rw [← UInt32.toNat_inj, UInt32.toNat_add, UInt32.toNat_one] at hn
      omega
  · simp [ha]
  · simp only [ha, reduceCtorEq, iff_false]
    intro heq
    have hout := congrArg (fun r => (r.1 : Conn).out) heq
    simp [tcpSendAck, tcpSendCtl, tcpSendCore, tcpFlgRst, tcpFlgAck] at hout
  · simp only [ha, reduceCtorEq, iff_false]
    intro heq
    exact hlen (congrArg (fun r => (r.1 : Conn).out) heq)
  · simp [ha]

/-- The send window and the number as plain numbers. -/
theorem ackInReach_iff {snd : SndSeq} {ack : UInt32} (hn : ahead snd.unack snd.nxtSeq ≤ 2 ^ 31) :
    ((AcksNew snd ack ↔ snd.unack < ack ∧ ack ≤ snd.nxtSeq) ∧
      (snd.unack ≤ ack ∧ snd.nxtSeq < ack ↔ AcksUnsent snd ack)) ↔ AckInReach snd ack := by
  have hu := snd.unack.toNat_lt
  have hx := snd.nxtSeq.toNat_lt
  have ha := ack.toNat_lt
  unfold AcksNew AcksUnsent AckInReach
  simp only [ahead_eq, UInt32.lt_iff_toNat_lt, UInt32.le_iff_toNat_le] at *
  generalize snd.unack.toNat = u at *
  generalize snd.nxtSeq.toNat = x at *
  rcases Nat.lt_or_ge x u with h | h
  · have e : (2 ^ 32 - u + x) % 2 ^ 32 = 2 ^ 32 - u + x := Nat.mod_eq_of_lt (by omega)
    rw [e] at *
    constructor
    · rintro ⟨h1, h2⟩
      omega
    · intro h3
      constructor <;> omega
  · have e : (2 ^ 32 - u + x) % 2 ^ 32 = x - u := by omega
    rw [e] at *
    constructor
    · rintro ⟨h1, h2⟩
      omega
    · intro h3
      constructor <;> omega

/-- **The ACK field.**  In the synchronized states `check_ack` does what RFC 793 asks exactly if plain comparisons
with the ends of the send window say what those modulo 2³² do, and the window of the segment is 0 or not taken. -/
theorem ackProcessing (c : Conn) (m : Nat) (datalen : UInt16) (hs : c.scb.state.ackSynced)
    (hf : tcpFlgIsset (c.hdr m).flg tcpFlgAck = true) (hn : ahead c.scb.snd.unack c.scb.snd.nxtSeq ≤ 2 ^ 31) :
    AckProcessed c m datalen ↔ AckInReach c.scb.snd (c.hdr m).ack ∧
      (UpdatesWnd c.scb (c.hdr m).ack (c.hdr m).seq = true → (c.hdr m).wnd = 0) := by
  have hacked : c.acked m = checkAckSynced c.scb (c.hdr m).ack (c.hdr m).seq ((c.hdr m).wnd.toUInt32 <<< 16) :=
    checkAck_synced hf hs _ _ _
  obtain ⟨hunack, hwnd⟩ := checkAckSynced_snd c.scb (c.hdr m).ack (c.hdr m).seq ((c.hdr m).wnd.toUInt32 <<< 16)
  rw [← hacked] at hunack hwnd
  have hans : AnswersAck c m datalen ↔ c.scb.snd.unack ≤ (c.hdr m).ack ∧ c.scb.snd.nxtSeq < (c.hdr m).ack := by
    rw [answersAck_iff, hacked]
    exact checkAckSynced_sndAck
  have hshift : (c.hdr m).wnd.toUInt32 <<< 16 = (c.hdr m).wnd.toUInt32 ↔ (c.hdr m).wnd = 0 := by
    rw [← UInt32.toNat_inj, ← UInt16.toNat_inj, UInt32.toNat_shiftLeft, UInt16.toNat_toUInt32,
      show (16 : UInt32).toNat % 32 = 16 from rfl, Nat.shiftLeft_eq, UInt16.toNat_zero]
    omega
  have hne : AcksNew c.scb.snd (c.hdr m).ack → c.scb.snd.unack ≠ (c.hdr m).ack := by
    intro h heq
    rw [AcksNew, heq, ahead_self] at h
    exact absurd h.1 (lt_irrefl 0)
  rw [← ackInReach_iff hn, ← isValidNxtack_iff, ← hans]
  constructor
  · intro h
    refine ⟨⟨⟨fun hnew => ?_, fun hv => ?_⟩, h.unsent⟩, fun hu => ?_⟩
    · have := h.new hnew
      rw [hunack] at this
      by_contra hv
      rw [if_neg hv] at this
      exact hne hnew this
    · by_contra hnew
      have := h.old hnew
      rw [hunack, if_pos hv] at this
      rw [isValidNxtack_iff, this] at hv
      exact UInt32.lt_irrefl _ hv.1
    · have := h.wnd hu
      rw [hwnd hu] at this
      exact hshift.mp this
  · rintro ⟨⟨hnew, hunsent⟩, hz⟩
    refine ⟨fun h => ?_, fun h => ?_, hunsent, fun hu => ?_⟩
    · rw [hunack, if_pos (hnew.mp h)]
    · rw [hunack, if_neg fun hv => h (hnew.mpr hv)]
    · rw [hwnd hu]
      exact hshift.mpr (hz hu)

end

/-- A connection in SOCK_CB_ESTAB, and in its mbuf 1 a segment without text. -/
def ackedConn (unack nxtSeq ack : UInt32) (wnd : UInt16) : Conn :=
  { scb := { allocSockCb 1 0x0a000002 2222 80 .tcp with
      state := estab
      snd := { initSeq := 0, unack := unack, nxtSeq := nxtSeq, wnd := 0, wl1 := 0, wl2 := 0 }
      rcv := { initSeq := 7, nxtSeq := 8, wnd := sockCbDefaultWndSize } }
    mbufs := fun _ => { emptyMbuf with
      tcphdr := { sport := 80, dport := 2222, seq := 8, ack := ack, off := 0x50, flg := tcpFlgAck, wnd := wnd } }
    brk := 2, out := [], pushed := [] }

/-- An acknowledgement of all that was sent, by a peer with a closed window. -/
theorem ackProcessing_all : (ackedConn 1 101 101 0).scb.state.ackSynced ∧ AckProcessed (ackedConn 1 101 101 0) 1 0 :=
  ⟨Or.inl rfl, (ackProcessing _ 1 0 (Or.inl rfl) (by decide) (by decide)).mpr
    ⟨Or.inl (by decide), fun _ => rfl⟩⟩

/-- The window 512 of the peer is noted as 512 · 2¹⁶; and 100 bytes that were sent across 2³² are never taken
as acknowledged. -/
theorem ackProcessing_wrong : ahead 1 101 ≤ 2 ^ 31 ∧ ¬ AckProcessed (ackedConn 1 101 101 512) 1 0 ∧
      ahead 0xffffffce 50 ≤ 2 ^ 31 ∧ ¬ AckProcessed (ackedConn 0xffffffce 50 50 0) 1 0 := by
  refine ⟨by decide, fun h => ?_, by decide, fun h => ?_⟩
  · exact absurd (h.wnd (by decide)) (by decide)
  · exact absurd (h.new (by unfold AcksNew; decide)) (by decide)

/-! ## Text that was offered -/

/-- What RFC 793 asks for a segment with the next `l` bytes, which goes behind the mbufs `q`. -/
structure TextTaken (c : Conn) (m : Nat) (l : UInt16) (q : List Nat) (c' : Conn) : Prop where
  rxq : c'.scb.rxq.Holds c'.mbufs (q ++ [m])
  queued : bytesOf c'.mbufs q = bytesOf c.mbufs q
  text : (c'.mbufs m).data = (List.range l.toNat).map fun i => (c.mbufs m).buf ((c.mbufs m).head + i)
  nxt : c'.scb.rcv.nxtSeq = c.scb.rcv.nxtSeq + l.toUInt32
  wnd : c'.scb.rcv.wnd = c.scb.rcv.wnd - l.toUInt32
  ack : ∃ g, c'.out = c.out ++ [g] ∧ g.flg = tcpFlgAck ∧ g.ack = c'.scb.rcv.nxtSeq ∧ g.wnd.toUInt32 = c'.scb.rcv.wnd

section
variable {c : Conn} {m : Nat} {len : UInt16}

/-- A segment without RST, SYN and FIN that acknowledges nothing new, in SOCK_CB_ESTAB. -/
structure PlainText (c : Conn) (m : Nat) : Prop where
  state : c.scb.state = estab
  rst : tcpFlgIsset (c.hdr m).flg tcpFlgRst = false
  syn : tcpFlgIsset (c.hdr m).flg tcpFlgSyn = false
  fin : tcpFlgIsset (c.hdr m).flg tcpFlgFin = false
  flgAck : tcpFlgIsset (c.hdr m).flg tcpFlgAck = true
  ack : (c.hdr m).ack = c.scb.snd.unack

theorem PlainText.acked (h : PlainText c m) :
    c.acked m = (c.scb, if c.scb.snd.nxtSeq < c.scb.snd.unack then .sndAck else .ok) := by
  have hv : isValidNxtack c.scb c.scb.snd.unack = false := by
    rw [Bool.eq_false_iff, ne_eq, isValidNxtack_iff]
    exact fun hv => UInt32.lt_irrefl _ hv.1
  unfold Conn.acked
  rw [checkAck_synced h.flgAck (.inl h.state), h.ack]
  unfold checkAckSynced
  simp only [hv, Bool.not_false, Bool.true_and, decide_eq_true_eq, UInt32.lt_irrefl, if_false]
  split
  · rfl
  · split
    · next he => exact absurd (h.state.symm.trans he) (by decide)
    · next he => exact absurd (h.state.symm.trans he) (by decide)
    · rfl

theorem PlainText.core (h : PlainText c m) : tcpRecvCore c m len =
    if isSeqValid c.scb.rcv.wnd c.scb.rcv.nxtSeq (c.hdr m).seq (tcpDataLen (c.hdr m) len) = false ∨
        c.scb.snd.nxtSeq < c.scb.snd.unack then (tcpSendAck c, .err)
    else tcpRecvText c m (tcpDataLen (c.hdr m) len) := by
  have hrst : checkRst c.scb (c.hdr m).flg = (c.scb, .ok) := by
    unfold checkRst
    rw [if_neg (by simp [h.rst])]
  have hsyn : checkSyn c.scb (c.hdr m).flg = .ok := by
    unfold checkSyn
    simp [h.state, h.syn]
  unfold tcpRecvCore tcpRecvAck
  dsimp only
  rw [show (c.mbufs m).tcphdr = c.hdr m from rfl, h.rst, hrst]
  rw [hsyn, show checkAck c.scb (c.hdr m).flg (c.hdr m).ack (c.hdr m).seq ((c.hdr m).wnd.toUInt32 <<< 16) =
    c.acked m from rfl, h.acked]
  by_cases hv : isSeqValid c.scb.rcv.wnd c.scb.rcv.nxtSeq (c.hdr m).seq (tcpDataLen (c.hdr m) len) = false
  · simp [hv]
  · by_cases hn : c.scb.snd.nxtSeq < c.scb.snd.unack
    · simp [hn]
    · simp [hn]

/-- Its text, if that is in order and less than the window. -/
theorem PlainText.takes (h : PlainText c m) {l : UInt16} {q : List Nat} (hl : 0 < l)
    (hseq : (c.hdr m).seq = c.scb.rcv.nxtSeq) (hw : l.toUInt32 < c.scb.rcv.wnd)
    (hfit : (c.scb.rcv.wnd - l.toUInt32).toNat < 2 ^ 16) (hq : c.scb.rxq.Holds c.mbufs q) (hm : m ≠ 0) (hmq : m ∉ q) :
    TextTaken c m l q (tcpRecvText c m l).1 := by
  have ht : TextOk c.scb (c.hdr m).seq l := ⟨hl, hseq.symm, hw⟩
  have hnext : ∀ mb, ∀ p ∈ q, Function.update c.mbufs m mb p = c.mbufs p := by
    intro mb p hp
    exact Function.update_of_ne (ne_of_mem_of_not_mem hp hmq) _ _
  have hfit' : (c.scb.rcv.wnd - l.toUInt32).toUInt16.toUInt32 = c.scb.rcv.wnd - l.toUInt32 := by
    rw [← UInt32.toNat_inj]
    exact Nat.mod_eq_of_lt hfit
  unfold tcpRecvText
  dsimp only
  rw [show (c.mbufs m).tcphdr.seq = (c.hdr m).seq from rfl, checkText_text (.inl h.state) ht]
  refine ⟨?_, ?_, ?_, rfl, rfl, ?_⟩
  · exact mbufqPushtail_holds (hq.congr fun p hp => by rw [hnext _ p hp]) hm hmq
  · refine bytesOf_congr fun p hp => ?_
    refine (mbufqPushtail_data _ _ _ _).trans ?_
    rw [hnext _ p hp]
  · refine (mbufqPushtail_data _ _ _ _).trans ?_
    rw [Function.update_self]
    rfl
  · exact ⟨_, rfl, rfl, rfl, hfit'⟩

theorem PlainText.refuses (h : PlainText c m) {l : UInt16} (hw : ¬ l.toUInt32 < c.scb.rcv.wnd) :
    tcpRecvText c m l = (c, .freeMbuf) := by
  have ht : ¬ TextOk c.scb (c.hdr m).seq l := fun ht => hw ht.2.2
  have hfin : tcpRecvFin c (c.hdr m).flg = (c, .freeMbuf) := by
    unfold tcpRecvFin
    rw [checkFin_noFin (by simp [h.fin])]
  unfold tcpRecvText
  dsimp only
  rcases checkText_noText (.inl h.state) ht with he | he
  · rw [show (c.mbufs m).tcphdr = c.hdr m from rfl, he]
    exact hfin
  · rw [show (c.mbufs m).tcphdr = c.hdr m from rfl, he]
    exact hfin

theorem tcpDataLen_noOptions {hdr : TcpHdr} (hoff : hdr.off >>> 4 = 5) (l : UInt16) :
    tcpDataLen hdr (20 + l) = l := by
  unfold tcpDataLen
  rw [hoff, show ((5 : UInt8) <<< 2).toUInt16 = 20 from by decide, UInt16.add_comm, UInt16.add_sub_cancel]

/-- The number of the next byte, while the window is open. -/
theorem isSeqValid_next {rcvwnd rcvnxt : UInt32} {l : UInt16} (hl : 0 < l) (hle : l.toUInt32 ≤ rcvwnd) :
    isSeqValid rcvwnd rcvnxt rcvnxt l = true ↔ NoWrap rcvwnd rcvnxt := by
  have hl' : 0 < l.toNat := hl
  have hpos : 0 < rcvwnd.toNat := by
    have : l.toNat ≤ rcvwnd.toNat := hle
    omega
  have hw : rcvwnd ≠ 0 := by
    rintro rfl
    exact absurd hpos (by decide)
  have hacc : Acceptable rcvwnd rcvnxt rcvnxt l := by
    unfold Acceptable
    rw [if_neg (by rintro rfl; exact absurd hl (by decide)), if_neg hw]
    exact .inl (by simpa using hpos)
  rw [isSeqValid_iff]
  exact and_iff_right hacc

theorem TextTaken.rcv_ne {l : UInt16} {q : List Nat} {c' : Conn} (hl : 0 < l) (ht : TextTaken c m l q c') :
    c'.scb.rcv ≠ c.scb.rcv := by
  intro he
  have hn := ht.nxt
  have hl' : 0 < l.toNat := hl
  have hlt := l.toNat_lt
  rw [he, ← UInt32.toNat_inj, UInt32.toNat_add, UInt16.toNat_toUInt32] at hn
  omega

/-- **Text that was offered.**  A segment with the next `l` bytes and no options, `l` at most the window, is taken
exactly if neither window wraps and it does not fill the window (and what is left of the window can be told). -/
theorem offeredTextTaken (h : PlainText c m) {l : UInt16} {q : List Nat} (hoff : (c.hdr m).off >>> 4 = 5)
    (hseq : (c.hdr m).seq = c.scb.rcv.nxtSeq) (hl : 0 < l) (hle : l.toUInt32 ≤ c.scb.rcv.wnd)
    (hq : c.scb.rxq.Holds c.mbufs q) (hm : m ≠ 0) (hmq : m ∉ q) : TextTaken c m l q (tcpRecvCore c m (20 + l)).1 ↔
      NoWrap c.scb.rcv.wnd c.scb.rcv.nxtSeq ∧ c.scb.snd.unack ≤ c.scb.snd.nxtSeq ∧ l.toUInt32 < c.scb.rcv.wnd ∧
        (c.scb.rcv.wnd - l.toUInt32).toNat < 2 ^ 16 := by
  rw [h.core, tcpDataLen_noOptions hoff, hseq, ← isSeqValid_next hl hle]
  cases hv : isSeqValid c.scb.rcv.wnd c.scb.rcv.nxtSeq c.scb.rcv.nxtSeq l with
  | false => exact iff_of_false (fun ht => ht.rcv_ne hl rfl) (by simp)
  | true =>
    by_cases hu : c.scb.snd.nxtSeq < c.scb.snd.unack
    · rw [if_pos (.inr hu)]
      exact iff_of_false (fun ht => ht.rcv_ne hl rfl) fun hc => UInt32.not_le.mpr hu hc.2.1
    · rw [if_neg (by simp [hu])]
      by_cases hw : l.toUInt32 < c.scb.rcv.wnd
      · constructor
        · intro ht
          obtain ⟨g, -, -, -, hg⟩ := ht.ack
          refine ⟨rfl, UInt32.not_lt.mp hu, hw, ?_⟩
          rw [← ht.wnd, ← hg]
          exact g.wnd.toNat_lt
        · intro hc
          exact h.takes hl hseq hw hc.2.2.2 hq hm hmq
      · rw [h.refuses hw]
        exact iff_of_false (fun ht => ht.rcv_ne hl rfl) fun hc => hw hc.2.2.1

end

/-- A connection in SOCK_CB_ESTAB that has offered `wnd`, and in its mbuf 1 the next three bytes. -/
def offeredConn (rcvnxt wnd : UInt32) : Conn :=
  { scb := { allocSockCb 1 0x0a000002 2222 80 .tcp with
      state := estab
      snd := { initSeq := 0, unack := 1, nxtSeq := 1, wnd := 0, wl1 := 0, wl2 := 0 }
      rcv := { initSeq := 7, nxtSeq := rcvnxt, wnd := wnd } }
    mbufs := fun _ => { emptyMbuf with
      head := 0, len := 3, buf := fun i => UInt8.ofNat (10 + i)
      tcphdr := { sport := 80, dport := 2222, seq := rcvnxt, ack := 1, off := 0x50, flg := tcpFlgAck, wnd := 0 } }
    brk := 2, out := [], pushed := [] }

theorem offeredConn_plain (rcvnxt wnd : UInt32) : PlainText (offeredConn rcvnxt wnd) 1 :=
  ⟨rfl, show tcpFlgIsset tcpFlgAck tcpFlgRst = false by decide, show tcpFlgIsset tcpFlgAck tcpFlgSyn = false by decide,
    show tcpFlgIsset tcpFlgAck tcpFlgFin = false by decide, show tcpFlgIsset tcpFlgAck tcpFlgAck = true by decide, rfl⟩

/-- Three bytes into a window of 4096. -/
theorem offeredTextTaken_three :
    TextTaken (offeredConn 8 4096) 1 3 [] (tcpRecvCore (offeredConn 8 4096) 1 (20 + 3)).1 :=
  (offeredTextTaken (offeredConn_plain 8 4096) rfl rfl (by decide) (by decide) (.nil _) (by decide) (by decide)).mpr
    (by unfold NoWrap; decide)

/-- Three bytes into a window of 3, and into a window of 4096 that ends at 2³². -/
theorem offeredText_refused : ¬ TextTaken (offeredConn 8 3) 1 3 [] (tcpRecvCore (offeredConn 8 3) 1 (20 + 3)).1 ∧
      ¬ TextTaken (offeredConn 0xfffff000 4096) 1 3 [] (tcpRecvCore (offeredConn 0xfffff000 4096) 1 (20 + 3)).1 :=
  ⟨fun h => absurd h.nxt (by decide), fun h => absurd h.nxt (by decide)⟩

end InternetOs.Net
