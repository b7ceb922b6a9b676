import InternetOs.Net.RxStream

/-!
# The sequence numbers of what is sent

`tcp_send` records `snd.nxt_seq` with each mbuf when it queues it, but moves
`snd.nxt_seq` only when the mbuf is sent.  In SOCK_CB_ESTAB an mbuf is sent as soon as it
is queued.  In SYN_SENT and SYN_RCVD it is not, so that everything queued there is given
one and the same sequence number, and `tcp_close` does not count it.

    no `tcp_send` in SYN_SENT or SYN_RCVD → the data sent is what was written, in order,
      at consecutive sequence numbers from `init_seq + 1`, and the FIN comes after it
                                                                      (senderSequence)
-/

namespace InternetOs.Net

open SockCbState List Sess Conn

/-- Each segment starts where the one before it ends. -/
def Consecutive : UInt32 → List TcpSeg → Prop
  | _, [] => True
  | a, g :: l => g.seq = a ∧ Consecutive (a + UInt32.ofNat g.data.length) l

/-- The segments with data. -/
def dataSegs (out : List TcpSeg) : List TcpSeg := out.filter fun g => g.data ≠ []

theorem Consecutive.snoc {a : UInt32} {l : List TcpSeg} {g : TcpSeg} (h : Consecutive a l)
    (hg : g.seq = a + UInt32.ofNat (l.map (·.data)).flatten.length) : Consecutive a (l ++ [g]) := by
  induction l generalizing a with
  | nil => exact ⟨by simpa using hg, trivial⟩
  | cons x l ih =>
    refine ⟨h.1, ih h.2 ?_⟩
    rw [hg, UInt32.add_assoc]
    simp

theorem dataSegs_append_ctl {l l' : List TcpSeg} (h : ∀ g ∈ l', g.data = []) :
    dataSegs (l ++ l') = dataSegs l := by
  have hnil : dataSegs l' = [] := filter_eq_nil_iff.mpr fun g hg => by simp [h g hg]
  unfold dataSegs at hnil ⊢
  rw [filter_append, hnil, append_nil]

theorem Conn.SentCtl.dataSegs {c c' : Conn} (h : c.SentCtl c') : Net.dataSegs c'.out = Net.dataSegs c.out := by
  obtain ⟨l, hl, hd⟩ := h
  rw [hl, dataSegs_append_ctl hd]

/-! ## The send variables under arriving segments -/

/-- The states before the connection is established. -/
def SockCbState.early (st : SockCbState) : Prop := st = listen ∨ st = synSent ∨ st = synRcvd

/-- What an arriving segment does to `init_seq`, `nxt_seq` and the state: nothing to the
numbers, or, before the connection is established, it sets them to follow each other. -/
def SndKept (scb scb' : SockCb) : Prop :=
  (scb'.snd.initSeq = scb.snd.initSeq ∧ scb'.snd.nxtSeq = scb.snd.nxtSeq ∧
    (scb'.state.early → scb.state.early) ∧ (scb'.state ≠ listen → scb.state ≠ listen)) ∨
  (scb.state.early ∧ scb'.snd.nxtSeq = scb'.snd.initSeq + 1)

theorem acked_early {c : Conn} (m : Nat) (h : (c.acked m).1.state.early) : c.scb.state.early := by
  have hout := c.acked_outcome m
  generalize (c.acked m).1.state = st at hout h
  generalize (c.acked m).2 = op at hout
  cases hout with
  | stay => exact h
  | estab | finWait2 | closing | lastAck => simp [SockCbState.early] at h

theorem checkRst_early {scb : SockCb} {flg : UInt8} (h : (checkRst scb flg).1.state.early) : scb.state.early := by
  unfold checkRst at h
  split at h
  · split at h
    · next hs => exact .inr (.inr hs)
    iterate 7 · simp [SockCbState.early] at h
    · exact h
  · exact h

section
variable {s s' : Sess}

/-- **A segment in any state** sends no data and keeps the send variables in step. -/
theorem Sess.seg_snd (s : Sess) (m : Mbuf) (len : UInt16) (raddr : UInt32) :
    s.conn.SentCtl (s.seg m len raddr).conn ∧ SndKept s.conn.scb (s.seg m len raddr).conn.scb := by
  have hb : ∀ {scb : SockCb} {c' : Conn}, (s.conn.newMbuf m).Becomes scb c' → SndKept s.conn.scb scb →
      s.conn.SentCtl c' ∧ SndKept s.conn.scb c'.scb :=
    fun hc hk => ⟨hc.out, by rw [hc.scb]; exact hk⟩
  have hself : SndKept s.conn.scb s.conn.scb := .inl ⟨rfl, rfl, id, id⟩
  have hout := tcpRecvSwitch_outcome (s.conn.newMbuf m) s.conn.brk len raddr m.tcphdr.sport
  unfold seg
  generalize tcpRecvSwitch (s.conn.newMbuf m) s.conn.brk len raddr m.tcphdr.sport = r at hout ⊢
  rcases r with ⟨c', b⟩
  cases hout with
  | closed _ => exact hb (s.conn.newMbuf m).becomes_self hself
  | listen h2 h =>
    cases h with
    | stay hc => exact hb hc hself
    | syn _ hc => exact hb hc (.inr ⟨.inl h2, rfl⟩)
  | synSent h3 h =>
    cases h with
    | stay hc => exact hb hc hself
    | badAck hc => exact hb hc (.inr ⟨.inr (.inl h3), rfl⟩)
    | synAck _ _ _ _ hc =>
      exact hb hc (.inl ⟨rfl, rfl, fun _ => .inr (.inl h3), fun _ h2 => nomatch h2.symm.trans h3⟩)
  | core _ h2 _ h =>
    -- from here on the state is not LISTEN, and the ACK check changes neither number
    have hack : SndKept s.conn.scb ((s.conn.newMbuf m).acked s.conn.brk).1 :=
      .inl ⟨by simp [newMbuf], by simp [newMbuf],
        fun h => acked_early (c := s.conn.newMbuf m) s.conn.brk h, fun _ => h2⟩
    cases h with
    | badSeq _ hc | syn _ hc => exact hb hc hself
    | rst _ hc =>
      obtain ⟨st, hst⟩ := checkRst_frame (s.conn.newMbuf m).scb ((s.conn.newMbuf m).hdr s.conn.brk).flg
      exact hb hc (.inl ⟨by rw [hst]; rfl, by rw [hst]; rfl, fun h => checkRst_early h, fun _ => h2⟩)
    | ackClose _ _ hc | ackStop _ _ _ hc | noText _ _ _ hc | finClose _ _ _ _ _ hc | drop _ _ _ hc =>
      exact hb hc hack
    | text _ _ _ _ hscb _ _ _ hout => exact ⟨hout, by rw [hscb]; exact hack⟩
    | fin _ _ _ _ _ hc =>
      refine hb hc (.inl ⟨by simp [newMbuf], by simp [newMbuf], fun h => ?_, fun _ => h2⟩)
      simp [SockCbState.early] at h

end

/-! ## `tcp_send` in SOCK_CB_ESTAB -/

theorem tcpSend_estab {c : Conn} {lr : List Nat} (h : c.QInv lr []) (hst : c.scb.state = estab)
    {m : Nat} (hm0 : m ≠ 0) (hmb : m < c.brk) (hm : m ∉ lr) (flg : UInt8) :
    ∃ c' g, tcpSend c m flg = some (c', 0) ∧ c'.scb.txq.Holds c'.mbufs [] ∧
      c'.out = c.out ++ [g] ∧ g.seq = c.scb.snd.nxtSeq ∧ g.data = (c.mbufs m).data ∧
      c'.scb.state = estab ∧ c'.scb.snd = { c.scb.snd with
        nxtSeq := c.scb.snd.nxtSeq + (UInt16.ofNat (c.mbufs m).len).toUInt32 } := by
  obtain ⟨hq, -⟩ := h.pushToScbTxq hm0 hmb ⟨hm, not_mem_nil⟩ c.scb.snd.nxtSeq flg
    (UInt16.ofNat (c.mbufs m).len)
  obtain ⟨q, hq0, heq⟩ := tcpFlush_spec ([] ++ [m]) _ (c.brk + 1) hq.tx hq.length_tx
  unfold tcpSend
  rw [if_neg hm0]
  simp only [hst, heq]
  refine ⟨_, _, rfl, hq0, rfl, ?_, ?_, hst, ?_⟩
  · simp [flushSeg, pushToScbTxq]
  · simp only [flushSeg, pushToScbTxq, mbufqPushtail_data, Function.update_self]
    rfl
  · simp [flushNxt, pushToScbTxq]

/-! ## Whole runs -/

/-- Sequence number of the byte after everything written. -/
def Sess.sndEnd (s : Sess) : UInt32 :=
  s.conn.scb.snd.initSeq + 1 + UInt32.ofNat s.written.flatten.length

structure Sess.Tx (s : Sess) : Prop where
  queues : ∃ lr, s.Read lr []
  sent : (dataSegs s.conn.out).map (·.data) = s.written
  seqs : Consecutive (s.conn.scb.snd.initSeq + 1) (dataSegs s.conn.out)
  nxt : s.conn.scb.state ≠ listen → s.conn.scb.snd.nxtSeq = s.sndEnd
  early : s.conn.scb.state.early → s.written = []

/-- Nothing written yet; once there is a SYN, `snd.nxt_seq` is the number after it. -/
structure Sess.TxStart (s : Sess) : Prop where
  queues : ∃ lr, s.Read lr []
  written : s.written = []
  out : dataSegs s.conn.out = []
  nxt : s.conn.scb.state ≠ listen → s.conn.scb.snd.nxtSeq = s.conn.scb.snd.initSeq + 1

/-- Writes carry data, at most what an mbuf holds, and are not made before the connection is
established; `tcp_close` comes last. -/
def LateSendEv (s : Sess) : Ev → Prop
  | .send m _ => 0 < m.len ∧ m.len ≤ mbufSize ∧ ¬ s.conn.scb.state.early
  | .close => False
  | _ => True

section
variable {s s' : Sess}

theorem Sess.TxStart.tx (h : s.TxStart) : s.Tx := by
  refine ⟨h.queues, ?_, ?_, fun hl => ?_, fun _ => h.written⟩
  · rw [h.out, h.written]
    rfl
  · rw [h.out]
    trivial
  · rw [h.nxt hl, sndEnd, h.written]
    simp

theorem Sess.Tx.of_kept (h : s.Tx) (hq : ∃ lr, s'.Read lr []) (hw : s'.written = s.written)
    (hout : s.conn.SentCtl s'.conn) (hk : SndKept s.conn.scb s'.conn.scb) : s'.Tx := by
  have hds := hout.dataSegs
  rcases hk with ⟨hi, hn, he, hl⟩ | ⟨he, hn⟩
  · refine ⟨hq, ?_, ?_, fun hl' => ?_, fun he' => ?_⟩
    · rw [hds, hw]
      exact h.sent
    · rw [hds, hi]
      exact h.seqs
    · rw [hn, h.nxt (hl hl')]
      simp only [sndEnd, hi, hw]
    · rw [hw]
      exact h.early (he he')
  · -- the numbers are set anew, but nothing was written yet
    have hw0 : s.written = [] := h.early he
    have hd0 : dataSegs s.conn.out = [] := map_eq_nil_iff.mp (h.sent.trans hw0)
    refine ⟨hq, ?_, ?_, fun _ => ?_, fun _ => hw.trans hw0⟩
    · rw [hds, hd0, hw, hw0]
      rfl
    · rw [hds, hd0]
      trivial
    · rw [hn, sndEnd, hw, hw0]
      simp

theorem Sess.Tx.send (h : s.Tx) (hf : s.freed = false) {m : Mbuf} {flg : UInt8}
    (he : LateSendEv s (.send m flg)) (hs : s.step (.send m flg) = some s') : s'.Tx := by
  obtain ⟨hpos, hlen, hne⟩ := he
  obtain ⟨lr, hr⟩ := h.queues
  have hq := hr.queues.newMbuf m
  by_cases hst : s.conn.scb.state = estab
  · obtain ⟨c', g, heq, htx, hout, hseq, hdata, hst', hsnd⟩ := tcpSend_estab (c := s.conn.newMbuf m)
      hq hst (ne_of_gt hr.queues.brk_pos) (Nat.lt_succ_self _) hr.queues.brk_notMem.1 flg
    obtain ⟨s1, lt', heq1, hr1, -⟩ := hr.send m flg hf
    obtain rfl : s1 = s' := Option.some.inj (heq1.symm.trans hs)
    obtain ⟨_, hr', rfl⟩ := step_live hf hs
    cases heq.symm.trans hr'
    obtain rfl : lt' = [] := hr1.queues.tx.chain.unique htx.chain
    have hml : m.data.length = m.len := Mbuf.length_data m
    rw [newMbuf_self] at hdata hsnd
    have hds : dataSegs c'.out = dataSegs s.conn.out ++ [g] := by
      have hg : g.data ≠ [] := by
        rw [hdata, ← length_pos_iff, hml]
        exact hpos
      rw [hout]
      simp [dataSegs, hg, newMbuf]
    have hnxt : s.conn.scb.snd.nxtSeq = s.sndEnd := h.nxt (by rw [hst]; simp)
    have hlen16 : (UInt16.ofNat m.len).toUInt32 = UInt32.ofNat m.len := by
      have hlt : m.len < 2 ^ 16 := by
        unfold mbufSize at hlen
        omega
      rw [toUInt32_eq_ofNat, UInt16.toNat_ofNat_of_lt' hlt]
    refine ⟨⟨lr, hr1⟩, ?_, ?_, fun _ => ?_, fun he => ?_⟩
    · show (dataSegs c'.out).map (·.data) = s.written ++ [m.data]
      rw [hds, map_append, h.sent, ← hdata]
      rfl
    · show Consecutive (c'.scb.snd.initSeq + 1) (dataSegs c'.out)
      rw [hds, hsnd]
      refine h.seqs.snoc ?_
      rw [h.sent, hseq]
      exact hnxt
    · show c'.scb.snd.nxtSeq = c'.scb.snd.initSeq + 1 + UInt32.ofNat (s.written ++ [m.data]).flatten.length
      rw [hsnd]
      show s.conn.scb.snd.nxtSeq + _ = s.conn.scb.snd.initSeq + 1 + _
      rw [hnxt, hlen16, flatten_append, length_append, UInt32.ofNat_add, ← UInt32.add_assoc]
      simp [sndEnd]
    · rw [show c'.scb.state = estab from hst'] at he
      simp [SockCbState.early] at he
  · -- a connection that is closing: `tcp_send` refuses
    have hsend : tcpSend (s.conn.newMbuf m) s.conn.brk flg = some (s.conn.newMbuf m, -1) := by
      unfold tcpSend
      rw [if_neg (ne_of_gt hr.queues.brk_pos)]
      have hsc : (s.conn.newMbuf m).scb.state = s.conn.scb.state := rfl
      simp only [hsc]
      cases hc : s.conn.scb.state with
      | listen => exact absurd (.inl hc) hne
      | synSent => exact absurd (.inr (.inl hc)) hne
      | synRcvd => exact absurd (.inr (.inr hc)) hne
      | estab => exact absurd hc hst
      | closed | finWait1 | finWait2 | closing | timeWait | closeWait | lastAck => rfl
    obtain ⟨_, hr', rfl⟩ := step_live hf hs
    cases hsend.symm.trans hr'
    refine h.of_kept ⟨lr, hq, ?_⟩ rfl (sentCtl_of_eq rfl) (.inl ⟨rfl, rfl, id, id⟩)
    show s.copied ++ bytesOf (s.conn.newMbuf m).mbufs lr = s.conn.pushed
    rw [hr.queues.bytesOf_newMbuf]
    exact hr.read

theorem Sess.Tx.step (h : s.Tx) {e : Ev} (hs : guard LateSendEv Step s e s') : s'.Tx := by
  obtain ⟨he, hs⟩ := hs
  obtain ⟨lr, hr⟩ := h.queues
  cases hf : s.freed with
  | true =>
    rw [step_freed hf hs]
    exact h
  | false =>
    cases e with
    | seg m len raddr =>
      cases step_live hf hs
      obtain ⟨lr', hr'⟩ := hr.seg m len raddr
      obtain ⟨hout, hk⟩ := s.seg_snd m len raddr
      exact h.of_kept ⟨lr', hr'⟩ rfl hout hk
    | recv nb n =>
      obtain ⟨lr', x, hr', -⟩ := hr.recv nb n hs hf
      cases step_live hf hs
      obtain ⟨hst, hsnd, hout⟩ := sockrecvIter_frame s.conn nb n 0
      refine h.of_kept ⟨lr', hr'⟩ rfl (sentCtl_of_eq hout) (.inl ⟨?_, ?_, ?_, ?_⟩)
      · rw [hsnd]
      · rw [hsnd]
      · rw [hst]; exact id
      · rw [hst]; exact id
    | send m flg => exact h.send hf he hs
    | close => exact he.elim

/-- **The sequence numbers of a connection** on which nothing is written before it is
established: in every state reached the data sent is what was written, in order, at consecutive
numbers from `init_seq + 1`; and a `tcp_close` sends nothing or one FIN with the number after the
last byte written. -/
theorem senderSequence {s₀ : Sess} (h0 : s₀.TxStart) {evs : List Ev}
    (hrun : Run (guard LateSendEv Step) s₀ evs s) :
    (dataSegs s.conn.out).map (·.data) = s.written ∧ Consecutive (s.conn.scb.snd.initSeq + 1) (dataSegs s.conn.out) ∧
      ∀ s', s.step .close = some s' → s'.conn.out = s.conn.out ∨
        ∃ g, s'.conn.out = s.conn.out ++ [g] ∧ tcpFlgIsset g.flg tcpFlgFin = true ∧ g.seq = s.sndEnd := by
  have h : s.Tx := hrun.inv (fun _ _ _ hi hs => hi.step hs) h0.tx
  refine ⟨h.sent, h.seqs, fun s' hs => ?_⟩
  cases hf : s.freed with
  | true => simp [step, hf] at hs
  | false =>
    cases step_live hf hs
    obtain ⟨c', v, hclose, hout⟩ := tcpClose_outcome s.conn
    rw [hclose]
    cases hout with
    | done => exact .inl rfl
    | fin st hst =>
      have hfin : tcpFlgIsset (tcpFlgFin ||| tcpFlgAck) tcpFlgFin = true := by decide
      refine .inr ⟨_, rfl, hfin, h.nxt ?_⟩
      rcases hst with ⟨hst | hst, -⟩ | ⟨hst, -⟩ <;> simp [hst]
    | queued hst => exact .inl rfl

end

theorem sampleSess_txStart : sampleSess.TxStart where
  queues := ⟨[], ⟨.nil _, .nil _, by simp, by simp, by decide⟩, rfl⟩
  written := rfl
  out := rfl
  nxt := fun _ => by decide

/-- Two writes of three bytes. -/
theorem senderSequence_two : ∃ s, Run (guard LateSendEv Step) sampleSess
        [.send (sampleText 0 0) (tcpFlgPsh ||| tcpFlgAck), .send (sampleText 0 0) (tcpFlgPsh ||| tcpFlgAck)] s ∧
      s.written = [[10, 11, 12], [10, 11, 12]] ∧
      (dataSegs s.conn.out).map (·.data) = s.written ∧
      Consecutive (s.conn.scb.snd.initSeq + 1) (dataSegs s.conn.out) ∧
      ∀ s', s.step .close = some s' → s'.conn.out = s.conn.out ∨
        ∃ g, s'.conn.out = s.conn.out ++ [g] ∧ tcpFlgIsset g.flg tcpFlgFin = true ∧ g.seq = s.sndEnd := by
  have hne : ∀ s : Sess, s.conn.scb.state = estab → ¬ s.conn.scb.state.early := by
    intro s hs he
    rw [hs] at he
    simp [SockCbState.early] at he
  have hrun : Run (guard LateSendEv Step) sampleSess
      [.send (sampleText 0 0) (tcpFlgPsh ||| tcpFlgAck), .send (sampleText 0 0) (tcpFlgPsh ||| tcpFlgAck)] _ :=
    .cons ⟨⟨by decide, by decide, hne _ (by decide)⟩, rfl⟩
      (.cons ⟨⟨by decide, by decide, hne _ (by decide)⟩, rfl⟩ (.nil _))
  exact ⟨_, hrun, by decide, senderSequence sampleSess_txStart hrun⟩

/-- A block whose SYN, with sequence number 0, has been sent. -/
def sampleSynSent : Sess :=
  { sampleSess with conn := { sampleSess.conn with scb := { sampleSess.conn.scb with
      state := synSent, snd := { sampleSess.conn.scb.snd with unack := 0 } } } }

/-- **Writes before the connection is established.**  Two writes in SYN_SENT and one after the
SYN+ACK are sent as three segments with the same sequence number; and a FIN sent after one write
in SYN_SENT has the number of that write's first byte. -/
theorem senderSequence_early : (∃ s, Run Step sampleSynSent
        [.send (sampleText 0 0) tcpFlgAck, .send (sampleText 0 0) tcpFlgAck,
          .seg (sampleText 7 (tcpFlgSyn ||| tcpFlgAck)) 20 0x0a000002,
          .send (sampleText 0 0) tcpFlgAck] s ∧
      s.written = [[10, 11, 12], [10, 11, 12], [10, 11, 12]] ∧
      (dataSegs s.conn.out).map (fun g => (g.seq, g.data)) =
        [(1, [10, 11, 12]), (1, [10, 11, 12]), (1, [10, 11, 12])]) ∧
    (∃ s s', Run Step sampleSynSent [.send (sampleText 0 0) tcpFlgAck,
          .seg (sampleText 7 (tcpFlgSyn ||| tcpFlgAck)) 20 0x0a000002] s ∧
      s.written = [[10, 11, 12]] ∧ s.step .close = some s' ∧
      s'.conn.out = s.conn.out ++ [finSeg s.conn] ∧ (finSeg s.conn).seq = 1) := by
  constructor
  · exact ⟨_, .cons rfl (.cons rfl (.cons rfl (.cons rfl (.nil _)))), by decide, by decide⟩
  · exact ⟨_, _, .cons rfl (.cons rfl (.nil _)), by decide, rfl, rfl, by decide⟩

end InternetOs.Net
