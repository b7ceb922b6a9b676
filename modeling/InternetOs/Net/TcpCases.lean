import InternetOs.Net.Tcp

/-!
# What one arriving segment can do

`CoreOutcome` lists every way through `tcp_recv_core`: the test that decides, the
control block it leaves and the code it returns.  All results about arriving
segments go through `tcpRecvCore_outcome`; none unfolds `tcpRecvCore` again.

    CoreOutcome c m len (tcpRecvCore c m len).1 (tcpRecvCore c m len).2      (tcpRecvCore_outcome)
-/

namespace InternetOs.Net

open SockCbState List

/-- Between `c` and `c'` only segments without data were sent. -/
def Conn.SentCtl (c c' : Conn) : Prop := ∃ l, c'.out = c.out ++ l ∧ ∀ g ∈ l, g.data = []

variable {c' : Conn} {scb : SockCb} {flg : UInt8}

theorem Conn.sentCtl_of_eq {c : Conn} (h : c'.out = c.out) : c.SentCtl c' :=
  ⟨[], by rw [h, append_nil], fun _ hg => absurd hg not_mem_nil⟩

theorem Conn.SentCtl.sendCtl {c : Conn} (h : c.SentCtl c') (seq ack : UInt32) (flg : UInt8) :
    c.SentCtl (tcpSendCtl c' seq ack flg) := by
  obtain ⟨l, hl, hd⟩ := h
  refine ⟨l ++ [_], by rw [← append_assoc, ← hl]; rfl, fun g hg => ?_⟩
  rcases mem_append.mp hg with hg | hg
  · exact hd g hg
  · rw [mem_singleton.mp hg]

/-- `c'` is `c` with the control block `scb`, after any number of segments without data. -/
structure Conn.Becomes (c : Conn) (scb : SockCb) (c' : Conn) : Prop where
  scb : c'.scb = scb
  mbufs : c'.mbufs = c.mbufs
  brk : c'.brk = c.brk
  pushed : c'.pushed = c.pushed
  out : c.SentCtl c'

theorem Conn.becomes_set (c : Conn) (scb : SockCb) : c.Becomes scb { c with scb := scb } :=
  ⟨rfl, rfl, rfl, rfl, c.sentCtl_of_eq rfl⟩

theorem Conn.becomes_self (c : Conn) : c.Becomes c.scb c := c.becomes_set c.scb

theorem Conn.Becomes.sendCtl {c : Conn} (h : c.Becomes scb c')
    (seq ack : UInt32) (flg : UInt8) : c.Becomes scb (tcpSendCtl c' seq ack flg) :=
  ⟨h.scb, h.mbufs, h.brk, h.pushed, h.out.sendCtl seq ack flg⟩

theorem Conn.Becomes.sendAck {c : Conn} (h : c.Becomes scb c') : c.Becomes scb (tcpSendAck c') :=
  h.sendCtl _ _ _

/-- The header of the segment in the mbuf at `m`. -/
def Conn.hdr (c : Conn) (m : Nat) : TcpHdr := (c.mbufs m).tcphdr

@[simp] theorem Conn.newMbuf_self (c : Conn) (mb : Mbuf) : (c.newMbuf mb).mbufs c.brk = mb := by
  simp [Conn.newMbuf]

@[simp] theorem Conn.newMbuf_hdr (c : Conn) (mb : Mbuf) : (c.newMbuf mb).hdr c.brk = mb.tcphdr := by
  simp [Conn.hdr]

/-- The control block and code after the ACK check on the segment at `m`. -/
def Conn.acked (c : Conn) (m : Nat) : SockCb × TcpOp :=
  checkAck c.scb (c.hdr m).flg (c.hdr m).ack (c.hdr m).seq ((c.hdr m).wnd.toUInt32 <<< 16)

/-- The states in which `check_text` looks at the text. -/
def SockCbState.synced (st : SockCbState) : Prop := st = estab ∨ st = finWait1 ∨ st = finWait2

/-- The text test of `check_text`: in order, and strictly smaller than the window. -/
def TextOk (scb : SockCb) (seq : UInt32) (datalen : UInt16) : Prop :=
  0 < datalen ∧ scb.rcv.nxtSeq = seq ∧ datalen.toUInt32 < scb.rcv.wnd

/-- `rcv` after `datalen` bytes of text were taken. -/
def textRcv (rcv : RcvSeq) (datalen : UInt16) : RcvSeq :=
  { rcv with nxtSeq := rcv.nxtSeq + datalen.toUInt32, wnd := rcv.wnd - datalen.toUInt32 }

/-- The mbuf as it is pushed: cut to the text. -/
def textMbuf (mb : Mbuf) (datalen : UInt16) : Mbuf :=
  { mb with len := datalen.toNat, params := { mb.params with flg := mb.tcphdr.flg } }

/-- `rcv` after the FIN was taken. -/
def finRcv (rcv : RcvSeq) : RcvSeq := { rcv with nxtSeq := rcv.nxtSeq + 1 }

inductive CoreOutcome (c : Conn) (m : Nat) (len : UInt16) : Conn → TcpOp → Prop
  | badSeq {c' : Conn}
      (hv : isSeqValid c.scb.rcv.wnd c.scb.rcv.nxtSeq (c.hdr m).seq (tcpDataLen (c.hdr m) len) = false)
      (hc : c.Becomes c.scb c') : CoreOutcome c m len c' .err
  | rst {c' : Conn} (hf : tcpFlgIsset (c.hdr m).flg tcpFlgRst = true)
      (hc : c.Becomes (checkRst c.scb (c.hdr m).flg).1 c') : CoreOutcome c m len c' .closeScb
  | syn {c' : Conn} (hf : tcpFlgIsset (c.hdr m).flg tcpFlgSyn = true) (hc : c.Becomes c.scb c') :
      CoreOutcome c m len c' .closeScb
  | ackClose {c' : Conn}
      (hv : isSeqValid c.scb.rcv.wnd c.scb.rcv.nxtSeq (c.hdr m).seq (tcpDataLen (c.hdr m) len) = true)
      (ha : (c.acked m).2 = .closeScb) (hc : c.Becomes (c.acked m).1 c') :
      CoreOutcome c m len c' .closeScb
  | ackStop {c' : Conn}
      (hv : isSeqValid c.scb.rcv.wnd c.scb.rcv.nxtSeq (c.hdr m).seq (tcpDataLen (c.hdr m) len) = true)
      (ha : (c.acked m).2 ≠ .ok) (ha' : (c.acked m).2 ≠ .closeScb)
      (hc : c.Becomes (c.acked m).1 c') : CoreOutcome c m len c' .err
  | noText {c' : Conn}
      (hv : isSeqValid c.scb.rcv.wnd c.scb.rcv.nxtSeq (c.hdr m).seq (tcpDataLen (c.hdr m) len) = true)
      (ha : (c.acked m).2 = .ok) (hs : ¬ (c.acked m).1.state.synced)
      (hc : c.Becomes (c.acked m).1 c') : CoreOutcome c m len c' .err
  | text {c' : Conn}
      (hv : isSeqValid c.scb.rcv.wnd c.scb.rcv.nxtSeq (c.hdr m).seq (tcpDataLen (c.hdr m) len) = true)
      (ha : (c.acked m).2 = .ok) (hs : (c.acked m).1.state.synced)
      (ht : TextOk (c.acked m).1 (c.hdr m).seq (tcpDataLen (c.hdr m) len))
      (hscb : c'.scb = { (c.acked m).1 with
        rcv := textRcv (c.acked m).1.rcv (tcpDataLen (c.hdr m) len)
        rxq := (mbufqPushtail (Function.update c.mbufs m (textMbuf (c.mbufs m) (tcpDataLen (c.hdr m) len)))
          (c.acked m).1.rxq m).2 })
      (hm : c'.mbufs = (mbufqPushtail
        (Function.update c.mbufs m (textMbuf (c.mbufs m) (tcpDataLen (c.hdr m) len)))
          (c.acked m).1.rxq m).1)
      (hb : c'.brk = c.brk)
      (hp : c'.pushed = c.pushed ++ (textMbuf (c.mbufs m) (tcpDataLen (c.hdr m) len)).data)
      (hout : c.SentCtl c') : CoreOutcome c m len c' .ok
  | fin {c' : Conn}
      (hv : isSeqValid c.scb.rcv.wnd c.scb.rcv.nxtSeq (c.hdr m).seq (tcpDataLen (c.hdr m) len) = true)
      (ha : (c.acked m).2 = .ok) (hs : (c.acked m).1.state = estab)
      (ht : ¬ TextOk (c.acked m).1 (c.hdr m).seq (tcpDataLen (c.hdr m) len))
      (hf : tcpFlgIsset (c.hdr m).flg tcpFlgFin = true)
      (hc : c.Becomes { (c.acked m).1 with rcv := finRcv (c.acked m).1.rcv, state := closeWait } c') :
      CoreOutcome c m len c' .err
  | finClose {c' : Conn}
      (hv : isSeqValid c.scb.rcv.wnd c.scb.rcv.nxtSeq (c.hdr m).seq (tcpDataLen (c.hdr m) len) = true)
      (ha : (c.acked m).2 = .ok)
      (hs : (c.acked m).1.state = finWait1 ∨ (c.acked m).1.state = finWait2)
      (ht : ¬ TextOk (c.acked m).1 (c.hdr m).seq (tcpDataLen (c.hdr m) len))
      (hf : tcpFlgIsset (c.hdr m).flg tcpFlgFin = true)
      (hc : c.Becomes { (c.acked m).1 with rcv := finRcv (c.acked m).1.rcv } c') :
      CoreOutcome c m len c' .closeScb
  | drop {c' : Conn}
      (hv : isSeqValid c.scb.rcv.wnd c.scb.rcv.nxtSeq (c.hdr m).seq (tcpDataLen (c.hdr m) len) = true)
      (ha : (c.acked m).2 = .ok) (hs : (c.acked m).1.state.synced)
      (hc : c.Becomes (c.acked m).1 c') : CoreOutcome c m len c' .freeMbuf

theorem checkRst_cases (scb : SockCb) (flg : UInt8) :
    ((checkRst scb flg).2 = .closeScb ∧ tcpFlgIsset flg tcpFlgRst = true) ∨ checkRst scb flg = (scb, .ok) := by
  unfold checkRst
  split
  · next hf =>
    cases scb.state with
    | closed | listen | synSent => exact .inr rfl
    | _ => exact .inl ⟨rfl, hf⟩
  · exact .inr rfl

theorem checkRst_frame (scb : SockCb) (flg : UInt8) : ∃ st, (checkRst scb flg).1 = { scb with state := st } := by
  unfold checkRst
  split
  · split
    all_goals exact ⟨_, rfl⟩
  · exact ⟨scb.state, rfl⟩

theorem checkSyn_sndRst (h : checkSyn scb flg = .sndRst) : tcpFlgIsset flg tcpFlgSyn = true := by
  unfold checkSyn at h
  split at h <;> first | (split at h; assumption; cases h) | cases h

/-- The states `check_ack` treats alike. -/
def SockCbState.ackSynced (st : SockCbState) : Prop :=
  st = estab ∨ st = finWait1 ∨ st = finWait2 ∨ st = closeWait ∨ st = closing

theorem checkAck_synced (hf : tcpFlgIsset flg tcpFlgAck = true) (hs : scb.state.ackSynced) (ack seq wnd : UInt32) :
    checkAck scb flg ack seq wnd = checkAckSynced scb ack seq wnd := by
  unfold checkAck
  rw [if_neg (by simp [hf])]
  rcases hs with hs | hs | hs | hs | hs <;> simp [hs]

/-- The state changes of `check_ack`, with the acknowledgement that causes each. -/
inductive AckOutcome (scb : SockCb) (flg : UInt8) (ack : UInt32) : SockCbState → TcpOp → Prop
  | stay {op : TcpOp} (hop : op = .ok ∨ op = .err ∨ op = .sndRst ∨ op = .sndAck)
      (hok : op = .ok → scb.state ≠ synRcvd ∧ scb.state ≠ finWait1 ∧ scb.state ≠ lastAck) :
      AckOutcome scb flg ack scb.state op
  | estab (hs : scb.state = synRcvd) (hf : tcpFlgIsset flg tcpFlgAck = true)
      (hv : isValidNxtack scb ack = true) : AckOutcome scb flg ack .estab .ok
  | finWait2 (hs : scb.state = .finWait1) (hf : tcpFlgIsset flg tcpFlgAck = true)
      (hlo : scb.snd.unack ≤ ack) (hhi : ack ≤ scb.snd.nxtSeq) :
      AckOutcome scb flg ack .finWait2 .ok
  | closing (hs : scb.state = .closing) (hf : tcpFlgIsset flg tcpFlgAck = true)
      (hlo : scb.snd.unack ≤ ack) (hhi : ack ≤ scb.snd.nxtSeq) :
      AckOutcome scb flg ack .closed .closeScb
  | lastAck (hs : scb.state = .lastAck) (hf : tcpFlgIsset flg tcpFlgAck = true) :
      AckOutcome scb flg ack .closed .closeScb

/-- An acknowledgement that is neither old nor from the future. -/
theorem ack_range {ack : UInt32} (hold : ¬ (!isValidNxtack scb ack && decide (ack < scb.snd.unack)) = true)
    (hfut : ¬ (!isValidNxtack scb ack && decide (scb.snd.nxtSeq < ack)) = true) :
    scb.snd.unack ≤ ack ∧ ack ≤ scb.snd.nxtSeq := by
  cases hv : isValidNxtack scb ack with
  | true =>
    simp only [isValidNxtack, Bool.and_eq_true, decide_eq_true_eq] at hv
    exact ⟨UInt32.le_of_lt hv.1, hv.2⟩
  | false =>
    simp only [hv, Bool.not_false, Bool.true_and, decide_eq_true_eq] at hold hfut
    exact ⟨UInt32.not_lt.mp hold, UInt32.not_lt.mp hfut⟩

theorem checkAckSynced_outcome (hf : tcpFlgIsset flg tcpFlgAck = true)
    (hs : scb.state.ackSynced) (ack seq wnd : UInt32) :
    AckOutcome scb flg ack (checkAckSynced scb ack seq wnd).1.state
      (checkAckSynced scb ack seq wnd).2 := by
  unfold checkAckSynced
  split
  · exact .stay (by simp) (by simp)
  · next hold =>
    split
    · exact .stay (by simp) (by simp)
    · next hfut =>
      obtain ⟨hlo, hhi⟩ := ack_range hold hfut
      dsimp only
      split
      · next h1 => exact .finWait2 h1 hf hlo hhi
      · next h1 => exact .closing h1 hf hlo hhi
      · next h1 h2 =>
        refine .stay (by simp) fun _ => ⟨?_, h1, ?_⟩
        · rcases hs with hs | hs | hs | hs | hs <;> simp [hs]
        · rcases hs with hs | hs | hs | hs | hs <;> simp [hs]

theorem checkAck_outcome (scb : SockCb) (flg : UInt8) (ack seq wnd : UInt32) :
    AckOutcome scb flg ack (checkAck scb flg ack seq wnd).1.state (checkAck scb flg ack seq wnd).2 := by
  by_cases hf : tcpFlgIsset flg tcpFlgAck = true
  · by_cases hs : scb.state.ackSynced
    · rw [checkAck_synced hf hs]
      exact checkAckSynced_outcome hf hs ack seq wnd
    · unfold checkAck
      rw [if_neg (by simp [hf])]
      cases h : scb.state with
      | synRcvd =>
        dsimp only
        split
        · next hv => exact .estab h hf hv
        · exact .stay (by simp) (by simp)
      | lastAck => exact .lastAck h hf
      | estab | finWait1 | finWait2 | closeWait | closing => exact absurd (by simp [SockCbState.ackSynced, h]) hs
      | closed | listen | synSent | timeWait => exact .stay (by simp) (by simp [h])
  · unfold checkAck
    rw [if_pos (by simpa using hf)]
    exact .stay (by simp) (by simp)

theorem checkAck_op (scb : SockCb) (flg : UInt8) (ack seq wnd : UInt32) :
    (checkAck scb flg ack seq wnd).2 ∈ [TcpOp.ok, .closeScb, .sndRst, .err, .sndAck] := by
  have h := checkAck_outcome scb flg ack seq wnd
  generalize (checkAck scb flg ack seq wnd).1.state = st at h
  generalize (checkAck scb flg ack seq wnd).2 = op at h ⊢
  cases h with
  | stay hop => rcases hop with rfl | rfl | rfl | rfl <;> simp
  | estab | finWait2 | closing | lastAck => simp

theorem ackSnd_initSeq (snd : SndSeq) (ack seq wnd : UInt32) : (ackSnd snd ack seq wnd).initSeq = snd.initSeq := by
  unfold ackSnd
  dsimp only
  split <;> rfl

theorem ackSnd_nxtSeq (snd : SndSeq) (ack seq wnd : UInt32) : (ackSnd snd ack seq wnd).nxtSeq = snd.nxtSeq := by
  unfold ackSnd
  dsimp only
  split <;> rfl

/-- `check_ack` changes nothing but the state and `snd`, and of `snd` neither `init_seq`
nor `nxt_seq`. -/
theorem checkAck_frame (scb : SockCb) (flg : UInt8) (ack seq wnd : UInt32) :
    ∃ st snd, (checkAck scb flg ack seq wnd).1 = { scb with state := st, snd := snd } ∧
      snd.initSeq = scb.snd.initSeq ∧ snd.nxtSeq = scb.snd.nxtSeq := by
  by_cases hf : tcpFlgIsset flg tcpFlgAck = true
  · by_cases hs : scb.state.ackSynced
    · rw [checkAck_synced hf hs]
      have hsnd : ∀ b : Bool, (if b then ackSnd scb.snd ack seq wnd else scb.snd).initSeq = scb.snd.initSeq ∧
          (if b then ackSnd scb.snd ack seq wnd else scb.snd).nxtSeq = scb.snd.nxtSeq := by
        intro b
        cases b
        · exact ⟨rfl, rfl⟩
        · exact ⟨ackSnd_initSeq _ _ _ _, ackSnd_nxtSeq _ _ _ _⟩
      unfold checkAckSynced
      split
      · exact ⟨scb.state, scb.snd, rfl, rfl, rfl⟩
      · split
        · exact ⟨scb.state, scb.snd, rfl, rfl, rfl⟩
        · dsimp only
          split
          · exact ⟨_, _, rfl, hsnd _⟩
          · exact ⟨_, _, rfl, hsnd _⟩
          · exact ⟨scb.state, _, rfl, hsnd _⟩
    · unfold checkAck
      rw [if_neg (by simp [hf])]
      split
      · split
        · exact ⟨estab, scb.snd, rfl, rfl, rfl⟩
        · exact ⟨scb.state, scb.snd, rfl, rfl, rfl⟩
      · next h => exact absurd (.inl h) hs
      · next h => exact absurd (.inr (.inl h)) hs
      · next h => exact absurd (.inr (.inr (.inl h))) hs
      · next h => exact absurd (.inr (.inr (.inr (.inl h)))) hs
      · next h => exact absurd (.inr (.inr (.inr (.inr h)))) hs
      · exact ⟨closed, scb.snd, rfl, rfl, rfl⟩
      · exact ⟨scb.state, scb.snd, rfl, rfl, rfl⟩
  · unfold checkAck
    rw [if_pos (by simpa using hf)]
    exact ⟨scb.state, scb.snd, rfl, rfl, rfl⟩

theorem Conn.acked_frame (c : Conn) (m : Nat) : ∃ st snd, (c.acked m).1 = { c.scb with state := st, snd := snd } ∧
      snd.initSeq = c.scb.snd.initSeq ∧ snd.nxtSeq = c.scb.snd.nxtSeq :=
  checkAck_frame _ _ _ _ _

@[simp] theorem Conn.acked_rcv (c : Conn) (m : Nat) : (c.acked m).1.rcv = c.scb.rcv := by
  obtain ⟨st, snd, h, -⟩ := c.acked_frame m
  rw [h]

@[simp] theorem Conn.acked_rxq (c : Conn) (m : Nat) : (c.acked m).1.rxq = c.scb.rxq := by
  obtain ⟨st, snd, h, -⟩ := c.acked_frame m
  rw [h]

@[simp] theorem Conn.acked_txq (c : Conn) (m : Nat) : (c.acked m).1.txq = c.scb.txq := by
  obtain ⟨st, snd, h, -⟩ := c.acked_frame m
  rw [h]

@[simp] theorem Conn.acked_initSeq (c : Conn) (m : Nat) : (c.acked m).1.snd.initSeq = c.scb.snd.initSeq := by
  obtain ⟨st, snd, h, hi, -⟩ := c.acked_frame m
  rw [h]
  exact hi

@[simp] theorem Conn.acked_nxtSeq (c : Conn) (m : Nat) : (c.acked m).1.snd.nxtSeq = c.scb.snd.nxtSeq := by
  obtain ⟨st, snd, h, -, hn⟩ := c.acked_frame m
  rw [h]
  exact hn

theorem Conn.acked_outcome (c : Conn) (m : Nat) :
    AckOutcome c.scb (c.hdr m).flg (c.hdr m).ack (c.acked m).1.state (c.acked m).2 :=
  checkAck_outcome _ _ _ _ _

theorem checkText_text {seq : UInt32} {datalen : UInt16} (hs : scb.state.synced) (ht : TextOk scb seq datalen) :
    checkText scb seq datalen = ({ scb with rcv := textRcv scb.rcv datalen }, .txtOk) := by
  obtain ⟨h0, hseq, hw⟩ := ht
  unfold checkText textRcv
  have h1 : (decide (datalen > 0) && scb.rcv.nxtSeq == seq) = true := by simp [h0, hseq]
  rcases hs with hs | hs | hs <;> simp only [hs, h1, if_true, hw]

theorem checkText_noText {seq : UInt32} {datalen : UInt16} (hs : scb.state.synced) (ht : ¬ TextOk scb seq datalen) :
    checkText scb seq datalen = (scb, .ok) ∨ checkText scb seq datalen = (scb, .retrans) := by
  have key : ∀ st, scb.state = st → st.synced →
      checkText scb seq datalen = (scb, .ok) ∨ checkText scb seq datalen = (scb, .retrans) := by
    intro st hst hsy
    unfold checkText
    rcases hsy with rfl | rfl | rfl
    all_goals
      simp only [hst]
      split
      · next h =>
        simp only [Bool.and_eq_true, decide_eq_true_eq, beq_iff_eq] at h
        rw [if_neg fun hw => ht ⟨h.1, h.2, hw⟩]
        exact .inr rfl
      · exact .inl rfl
  exact key _ rfl hs

theorem checkText_notSynced (seq : UInt32) (datalen : UInt16)
    (hs : ¬ scb.state.synced) : checkText scb seq datalen = (scb, .err) := by
  unfold checkText
  split
  · next h => exact absurd (.inl h) hs
  · next h => exact absurd (.inr (.inl h)) hs
  · next h => exact absurd (.inr (.inr h)) hs
  · rfl

theorem checkFin_estab (hs : scb.state = estab) (hf : tcpFlgIsset flg tcpFlgFin = true) :
    checkFin scb flg = ({ scb with rcv := finRcv scb.rcv, state := closeWait }, .sndAck) := by
  unfold checkFin
  rw [if_pos hf]
  simp [hs, finRcv]

theorem checkFin_finWait (hs : scb.state = finWait1 ∨ scb.state = finWait2) (hf : tcpFlgIsset flg tcpFlgFin = true) :
    checkFin scb flg = ({ scb with rcv := finRcv scb.rcv }, .closeScb) := by
  unfold checkFin
  rw [if_pos hf]
  rcases hs with hs | hs <;> simp [hs, finRcv]

theorem checkFin_noFin (hf : ¬ tcpFlgIsset flg tcpFlgFin = true) : checkFin scb flg = (scb, .ok) := by
  unfold checkFin
  rw [if_neg hf]

section
variable {c : Conn} {m : Nat} {len : UInt16}
  (hv : isSeqValid c.scb.rcv.wnd c.scb.rcv.nxtSeq (c.hdr m).seq (tcpDataLen (c.hdr m) len) = true)
include hv

/-- The eighth step, reached in a synchronised state with the text not taken. -/
theorem tcpRecvFin_outcome (ha : (c.acked m).2 = .ok) (hs : (c.acked m).1.state.synced)
    (ht : ¬ TextOk (c.acked m).1 (c.hdr m).seq (tcpDataLen (c.hdr m) len)) :
    CoreOutcome c m len (tcpRecvFin { c with scb := (c.acked m).1 } (c.hdr m).flg).1
      (tcpRecvFin { c with scb := (c.acked m).1 } (c.hdr m).flg).2 := by
  unfold tcpRecvFin
  by_cases hf : tcpFlgIsset (c.hdr m).flg tcpFlgFin = true
  · rcases hs with hs | hs
    · rw [checkFin_estab hs hf]
      exact .fin hv ha hs ht hf (c.becomes_set _).sendAck
    · rw [checkFin_finWait hs hf]
      exact .finClose hv ha hs ht hf (c.becomes_set _).sendAck
  · rw [checkFin_noFin hf]
    exact .drop hv ha hs (c.becomes_set _)

/-- The seventh step, after an ACK check that lets the segment through. -/
theorem tcpRecvText_outcome (ha : (c.acked m).2 = .ok) : CoreOutcome c m len
      (tcpRecvText { c with scb := (c.acked m).1 } m (tcpDataLen (c.hdr m) len)).1
      (tcpRecvText { c with scb := (c.acked m).1 } m (tcpDataLen (c.hdr m) len)).2 := by
  unfold tcpRecvText
  dsimp only
  rw [show (c.mbufs m).tcphdr = c.hdr m from rfl]
  by_cases hs : (c.acked m).1.state.synced
  · by_cases ht : TextOk (c.acked m).1 (c.hdr m).seq (tcpDataLen (c.hdr m) len)
    · rw [checkText_text hs ht]
      refine .text hv ha hs ht rfl rfl rfl (by simp [textMbuf, tcpSendAck, tcpSendCtl, tcpSendCore, Conn.hdr])
        ⟨[_], rfl, fun g hg => ?_⟩
      rw [mem_singleton.mp hg]
    · rcases checkText_noText hs ht with h | h
      · rw [h]; exact tcpRecvFin_outcome hv ha hs ht
      · rw [h]; exact tcpRecvFin_outcome hv ha hs ht
  · rw [checkText_notSynced _ _ hs]
    exact .noText hv ha hs (c.becomes_set _)

theorem tcpRecvAck_outcome : CoreOutcome c m len (tcpRecvAck c m (tcpDataLen (c.hdr m) len)).1
      (tcpRecvAck c m (tcpDataLen (c.hdr m) len)).2 := by
  have hop : (c.acked m).2 ∈ [TcpOp.ok, .closeScb, .sndRst, .err, .sndAck] := checkAck_op _ _ _ _ _
  have htext := tcpRecvText_outcome hv
  unfold tcpRecvAck
  dsimp only
  rw [show checkAck c.scb (c.mbufs m).tcphdr.flg (c.mbufs m).tcphdr.ack (c.mbufs m).tcphdr.seq
    ((c.mbufs m).tcphdr.wnd.toUInt32 <<< 16) = c.acked m from rfl]
  simp only [mem_cons, not_mem_nil, or_false] at hop
  rcases hop with ha | ha | ha | ha | ha
  · simp only [ha]
    exact htext ha
  · simp only [ha]
    exact .ackClose hv ha (c.becomes_set _)
  · simp only [ha]
    exact .ackStop hv (by simp [ha]) (by simp [ha]) ((c.becomes_set _).sendCtl _ _ _)
  · simp only [ha]
    exact .ackStop hv (by simp [ha]) (by simp [ha]) (c.becomes_set _)
  · simp only [ha]
    exact .ackStop hv (by simp [ha]) (by simp [ha]) (c.becomes_set _).sendAck

end

theorem tcpRecvCore_outcome (c : Conn) (m : Nat) (len : UInt16) :
    CoreOutcome c m len (tcpRecvCore c m len).1 (tcpRecvCore c m len).2 := by
  unfold tcpRecvCore
  dsimp only
  split
  · next hv =>
    refine .badSeq (by simpa [Conn.hdr] using hv) ?_
    split
    · exact c.becomes_self
    · exact c.becomes_self.sendAck
  · next hv =>
    have hv : isSeqValid c.scb.rcv.wnd c.scb.rcv.nxtSeq (c.hdr m).seq (tcpDataLen (c.hdr m) len) = true := by
      simpa [Conn.hdr] using hv
    rcases checkRst_cases c.scb (c.mbufs m).tcphdr.flg with ⟨hr, hf⟩ | hr
    · rw [hr]
      exact .rst hf (c.becomes_set _)
    · rw [hr]
      dsimp only
      split
      · next hsyn => exact .syn (checkSyn_sndRst hsyn) (c.becomes_self.sendCtl _ _ _)
      · exact tcpRecvAck_outcome hv

/-- What a segment does in SOCK_CB_LISTEN. -/
inductive ListenOutcome (c : Conn) (m : Nat) (raddr : UInt32) (dport : UInt16) : Conn → Prop
  | stay {c' : Conn} (hc : c.Becomes c.scb c') : ListenOutcome c m raddr dport c'
  | syn {c' : Conn} (hf : tcpFlgIsset (c.hdr m).flg tcpFlgSyn = true)
      (hc : c.Becomes { c.scb with
        dport := dport, raddr := raddr, state := synRcvd
        rcv := { initSeq := (c.hdr m).seq, nxtSeq := (c.hdr m).seq + 1, wnd := sockCbDefaultWndSize }
        snd := { c.scb.snd with initSeq := 0, nxtSeq := 1, unack := 0 } } c') :
      ListenOutcome c m raddr dport c'

theorem tcpRecvListen_outcome (c : Conn) (m : Nat) (raddr : UInt32) (dport : UInt16) :
    ListenOutcome c m raddr dport (tcpRecvListen c m raddr dport).1 := by
  unfold tcpRecvListen
  dsimp only
  split
  · exact .stay c.becomes_self
  · split
    · refine .stay ⟨rfl, rfl, rfl, rfl, [_], rfl, fun g hg => ?_⟩
      rw [mem_singleton.mp hg]
    · split
      · next hf =>
        refine .syn hf ⟨rfl, rfl, rfl, rfl, [_], rfl, fun g hg => ?_⟩
        rw [mem_singleton.mp hg]
      · exact .stay c.becomes_self

/-- What a segment does in SOCK_CB_SYN_SENT.  The answer to a simultaneous open is never given:
an acknowledgement not after `init_seq` was refused before. -/
inductive SynSentOutcome (c : Conn) (m : Nat) : Conn → Prop
  | stay {c' : Conn} (hc : c.Becomes c.scb c') : SynSentOutcome c m c'
  | badAck {c' : Conn}
      (hc : c.Becomes { c.scb with
        snd := { c.scb.snd with nxtSeq := c.scb.snd.initSeq + 1 } } c') : SynSentOutcome c m c'
  | synAck {c' : Conn} (hf : tcpFlgIsset (c.hdr m).flg tcpFlgSyn = true)
      (ha : tcpFlgIsset (c.hdr m).flg tcpFlgAck = true)
      (hlo : c.scb.snd.initSeq < (c.hdr m).ack) (hhi : (c.hdr m).ack ≤ c.scb.snd.nxtSeq)
      (hc : c.Becomes { c.scb with
        state := estab
        rcv := { c.scb.rcv with nxtSeq := (c.hdr m).seq + 1, initSeq := (c.hdr m).seq }
        snd := { c.scb.snd with unack := (c.hdr m).ack } } c') : SynSentOutcome c m c'

theorem tcpRecvSynSent_outcome (c : Conn) (m : Nat) : SynSentOutcome c m (tcpRecvSynSent c m).1 := by
  unfold tcpRecvSynSent
  dsimp only
  split
  · refine .badAck ⟨rfl, rfl, rfl, rfl, [_], rfl, fun g hg => ?_⟩
    rw [mem_singleton.mp hg]
  · next hack =>
    split
    · exact .stay c.becomes_self
    · split
      · next hsa =>
        rw [Bool.and_eq_true] at hsa
        simp only [hsa.2, Bool.true_and, Bool.or_eq_true, decide_eq_true_eq, not_or, gt_iff_lt,
          UInt32.not_le, UInt32.not_lt] at hack
        rw [if_pos hack.1]
        exact .synAck hsa.1 hsa.2 hack.1 hack.2 (c.becomes_set _).sendAck
      · exact .stay c.becomes_self

theorem tcpRecvSwitch_core {c : Conn} (h1 : c.scb.state ≠ closed) (h2 : c.scb.state ≠ listen)
    (h3 : c.scb.state ≠ synSent) (m : Nat) (len : UInt16) (raddr : UInt32) (dport : UInt16) :
    tcpRecvSwitch c m len raddr dport = ((tcpRecvCore c m len).1, (tcpRecvCore c m len).2 == .closeScb) := by
  unfold tcpRecvSwitch
  split
  · next h => exact absurd h h1
  · next h => exact absurd h h2
  · next h => exact absurd h h3
  · rfl

/-- Every way through the switch of `tcp_recv`. -/
inductive SwitchOutcome (c : Conn) (m : Nat) (len : UInt16) (raddr : UInt32) (dport : UInt16) :
    Conn → Bool → Prop
  | closed (hs : c.scb.state = closed) : SwitchOutcome c m len raddr dport c false
  | listen {c' : Conn} (hs : c.scb.state = listen) (h : ListenOutcome c m raddr dport c') :
      SwitchOutcome c m len raddr dport c' false
  | synSent {c' : Conn} (hs : c.scb.state = synSent) (h : SynSentOutcome c m c') :
      SwitchOutcome c m len raddr dport c' false
  | core {c' : Conn} {op : TcpOp} (h1 : c.scb.state ≠ .closed) (h2 : c.scb.state ≠ .listen)
      (h3 : c.scb.state ≠ .synSent) (h : CoreOutcome c m len c' op) :
      SwitchOutcome c m len raddr dport c' (op == .closeScb)

theorem tcpRecvSwitch_outcome (c : Conn) (m : Nat) (len : UInt16) (raddr : UInt32) (dport : UInt16) :
    SwitchOutcome c m len raddr dport (tcpRecvSwitch c m len raddr dport).1
      (tcpRecvSwitch c m len raddr dport).2 := by
  unfold tcpRecvSwitch
  split
  · next h => exact .closed h
  · next h => exact .listen h (tcpRecvListen_outcome c m raddr dport)
  · next h => exact .synSent h (tcpRecvSynSent_outcome c m)
  · next h1 h2 h3 => exact .core h1 h2 h3 (tcpRecvCore_outcome c m len)

/-- **An arriving segment** writes the state, `snd` and `rcv`; the remote address too, if it is a SYN for a listening
block, which it does not free.  It puts at most its text on `rxq`, and then the block stays. -/
structure SwitchFrame (c : Conn) (m : Nat) (raddr : UInt32) (dport : UInt16) (c' : Conn) (b : Bool) : Prop where
  scb : ∃ st snd rcv rxq ra dp, c'.scb =
      { c.scb with state := st, snd := snd, rcv := rcv, rxq := rxq, raddr := ra, dport := dp } ∧
    (ra = c.scb.raddr ∧ dp = c.scb.dport ∨ ra = raddr ∧ dp = dport ∧ b = false)
  brk : c'.brk = c.brk
  queue : c'.scb.rxq = c.scb.rxq ∧ c'.mbufs = c.mbufs ∧ c'.pushed = c.pushed ∨
    b = false ∧ ∃ mb, c'.mbufs = (mbufqPushtail (Function.update c.mbufs m mb) c.scb.rxq m).1 ∧
      c'.scb.rxq = (mbufqPushtail (Function.update c.mbufs m mb) c.scb.rxq m).2 ∧ c'.pushed = c.pushed ++ mb.data

theorem tcpRecvSwitch_frame (c : Conn) (m : Nat) (len : UInt16) (raddr : UInt32) (dport : UInt16) :
    SwitchFrame c m raddr dport (tcpRecvSwitch c m len raddr dport).1 (tcpRecvSwitch c m len raddr dport).2 := by
  have hout := tcpRecvSwitch_outcome c m len raddr dport
  generalize (tcpRecvSwitch c m len raddr dport).1 = c' at hout ⊢
  generalize (tcpRecvSwitch c m len raddr dport).2 = b at hout ⊢
  have hb : ∀ {st snd rcv}, c.Becomes { c.scb with state := st, snd := snd, rcv := rcv } c' →
      SwitchFrame c m raddr dport c' b := fun hc =>
    ⟨⟨_, _, _, _, _, _, hc.scb, .inl ⟨rfl, rfl⟩⟩, hc.brk, .inl ⟨by rw [hc.scb], hc.mbufs, hc.pushed⟩⟩
  cases hout with
  | closed _ => exact hb c.becomes_self
  | listen _ h =>
    cases h with
    | stay hc => exact hb hc
    | syn _ hc =>
      exact ⟨⟨_, _, _, _, _, _, hc.scb, .inr ⟨rfl, rfl, rfl⟩⟩, hc.brk, .inl ⟨by rw [hc.scb], hc.mbufs, hc.pushed⟩⟩
  | synSent _ h =>
    cases h with
    | stay hc | badAck hc | synAck _ _ _ _ hc => exact hb hc
  | core _ _ _ h =>
    obtain ⟨st, snd, hack, -⟩ := c.acked_frame m
    cases h with
    | badSeq _ hc | syn _ hc => exact hb hc
    | rst _ hc =>
      obtain ⟨st, hst⟩ := checkRst_frame c.scb (c.hdr m).flg
      exact hb (hst ▸ hc)
    | ackClose _ _ hc | ackStop _ _ _ hc | noText _ _ _ hc | drop _ _ _ hc => exact hb (hack ▸ hc)
    | fin _ _ _ _ _ hc | finClose _ _ _ _ _ hc =>
      rw [hack] at hc
      exact hb hc
    | text _ _ _ _ hscb hm hbrk hp =>
      rw [hack] at hscb hm
      exact ⟨⟨_, _, _, _, _, _, hscb, .inl ⟨rfl, rfl⟩⟩, hbrk, .inr ⟨rfl, _, hm, by rw [hscb], hp⟩⟩

end InternetOs.Net
