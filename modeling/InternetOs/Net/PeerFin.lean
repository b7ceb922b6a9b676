import InternetOs.Net.RxStream

/-!
# The peer's FIN

`check_fin` does not look at the sequence number of the segment.  A FIN whose text
was not taken (a gap before it, or more than the window) is processed all the same
and advances `rcv.nxt_seq` by one.  Whether the FIN is in order is decided before the
segment is processed:

    (pushed' = S ∧ nxt' = FIN's sequence number + 1) ↔ nxt = seq + datalen      (finInOrder_iff)
-/

namespace InternetOs.Net

open SockCbState Conn

/-! ## In order -/

/-- Arriving segments are slices of `S`, and a FIN comes after the last byte of `S`. -/
def FinSliceEv (S : List UInt8) (irs : UInt32) (s : Sess) : Ev → Prop
  | .seg m len _ => ∃ o, IsSliceAt S irs o m len ∧ Near o s.conn.pushed.length ∧
      (tcpFlgIsset m.tcphdr.flg tcpFlgFin = true →
        m.tcphdr.seq = irs + 1 + UInt32.ofNat o ∧ o + (len.toNat - 20) = S.length ∧
          Near S.length s.conn.pushed.length)
  | _ => True

theorem FinSliceEv.near {S : List UInt8} {irs : UInt32} {s : Sess} {e : Ev}
    (h : FinSliceEv S irs s e) : NearSliceEv S irs s e := by
  cases e with
  | seg m len raddr =>
    obtain ⟨o, hsl, hn, -⟩ := h
    exact ⟨o, hsl, hn⟩
  | recv | send | close => trivial

/-- The segment moves the block to SOCK_CB_CLOSE_WAIT, or has it freed by its FIN: in
FIN_WAIT_1 and FIN_WAIT_2 only RST, SYN and FIN end the connection. -/
def Sess.TakesFin (s : Sess) (m : Mbuf) (len : UInt16) (raddr : UInt32) : Prop :=
  (s.conn.scb.state ≠ closeWait ∧ (s.seg m len raddr).conn.scb.state = closeWait) ∨
  ((s.conn.scb.state = finWait1 ∨ s.conn.scb.state = finWait2) ∧ (s.seg m len raddr).freed = true ∧
    tcpFlgIsset m.tcphdr.flg tcpFlgRst = false ∧ tcpFlgIsset m.tcphdr.flg tcpFlgSyn = false)

section
variable {s : Sess} {m : Mbuf} {len : UInt16} {raddr : UInt32}

/-- A FIN is taken after the text was not, and only moves `rcv.nxt_seq`. -/
theorem Sess.TakesFin.step (ho : s.conn.scb.state.opened) (ht : s.TakesFin m len raddr) :
    tcpFlgIsset m.tcphdr.flg tcpFlgFin = true ∧ ∃ scb, (s.conn.newMbuf m).Becomes scb (s.seg m len raddr).conn ∧
        scb.rcv = finRcv s.conn.scb.rcv ∧ scb.rxq = s.conn.scb.rxq ∧ scb.txq = s.conn.scb.txq ∧
        ((s.seg m len raddr).freed = true → scb.state ≠ closeWait) := by
  obtain ⟨h1, h2, h3⟩ := opened_ne ho
  have hack := acked_opened (c := s.conn.newMbuf m) s.conn.brk ho
  obtain ⟨c', op, hout, hseg⟩ := s.seg_core h1 h2 h3 m len raddr
  have hcw : ¬ opened closeWait := by simp [opened, synced]
  unfold Sess.TakesFin at ht
  rw [hseg] at ht ⊢
  -- a state in which text may still be taken is not CLOSE_WAIT, and `err` frees nothing
  have hno : c'.scb.state.opened → (op == .closeScb) = false → False := by
    intro hst hop
    rcases ht with ht | ht
    · have hst' : c'.scb.state = closeWait := ht.2
      rw [hst'] at hst
      exact hcw hst
    · exact absurd ht.2.1 (by simp [hop])
  cases hout with
  | badSeq hv hc => exact (hno (by rw [hc.scb]; exact ho) rfl).elim
  | rst hf hc =>
    rw [newMbuf_hdr] at hf
    rcases ht with ht | ht
    · have hr := checkRst_opened (show (s.conn.newMbuf m).scb.state.opened from ho) hf
      rw [← newMbuf_hdr s.conn m, ← hc.scb, ht.2] at hr
      rcases hr with hr | hr <;> cases hr
    · exact absurd hf (by simp [ht.2.2.1])
  | syn hf hc =>
    rcases ht with ht | ht
    · have hst : c'.scb.state = closeWait := ht.2
      rw [hc.scb] at hst
      exact absurd hst ht.1
    · exact absurd hf (by simp [ht.2.2.2])
  | ackClose hv ha hc => exact absurd ha (acked_opened_ne_close (c := s.conn.newMbuf m) ho s.conn.brk)
  | ackStop _ _ _ hc | drop _ _ _ hc => exact (hno (by rw [hc.scb]; exact hack.1) rfl).elim
  | noText hv ha hs hc => exact absurd (hack.2 ha) hs
  | text hv ha hs ht hscb => exact (hno (by rw [hscb]; exact hack.1) rfl).elim
  | fin hv ha hs ht hf hc =>
    exact ⟨by simpa using hf, _, hc, by simp [newMbuf], by simp [newMbuf],
      by simp [newMbuf], fun e => by cases e⟩
  | finClose hv ha hs ht hf hc =>
    refine ⟨by simpa using hf, _, hc, by simp [newMbuf], by simp [newMbuf],
      by simp [newMbuf], fun _ => ?_⟩
    rcases hs with hs | hs <;> simp [hs]

variable {S : List UInt8} {irs W : UInt32}

theorem FinSliceEv.fin_seq (he : FinSliceEv S irs s (.seg m len raddr))
    (hf : tcpFlgIsset m.tcphdr.flg tcpFlgFin = true) :
    m.tcphdr.seq + (tcpDataLen m.tcphdr len).toUInt32 = irs + 1 + UInt32.ofNat S.length ∧
      Near S.length s.conn.pushed.length := by
  obtain ⟨o, ⟨hoff, l, hlen, -⟩, -, hfin⟩ := he
  obtain ⟨hseq, hol, hnS⟩ := hfin hf
  have hl : (tcpDataLen m.tcphdr len).toNat = l := tcpDataLen_of_off hoff hlen
  have hSl : S.length = o + l := by omega
  rw [hseq, toUInt32_eq_ofNat, hl, hSl, UInt32.ofNat_add, UInt32.add_assoc]
  exact ⟨rfl, hSl ▸ hnS⟩

theorem Sess.opened_of_closeWait (hne : s.conn.scb.state ≠ closeWait)
    (hcw : (s.seg m len raddr).conn.scb.state = closeWait) : s.conn.scb.state.opened := by
  by_cases hp : s.conn.scb.state.past
  · exfalso
    obtain ⟨scb, hc, -, -, hst⟩ := s.seg_past hp m len raddr
    rw [hc.scb] at hcw
    rcases hst with hst | hst
    · exact hne (hst ▸ hcw)
    · rw [hst] at hcw
      cases hcw
  · cases hst : s.conn.scb.state with
    | synRcvd => exact .inl rfl
    | estab => exact .inr (.inl rfl)
    | finWait1 => exact .inr (.inr (.inl rfl))
    | finWait2 => exact .inr (.inr (.inr rfl))
    | listen =>
      exfalso
      have hout := tcpRecvListen_outcome (s.conn.newMbuf m) s.conn.brk raddr m.tcphdr.sport
      rw [Sess.seg_listen hst] at hcw
      cases hout with
      | stay hc => rw [hc.scb] at hcw; exact hne hcw
      | syn hf hc => rw [hc.scb] at hcw; cases hcw
    | synSent =>
      exfalso
      have hout := tcpRecvSynSent_outcome (s.conn.newMbuf m) s.conn.brk
      rw [Sess.seg_synSent hst] at hcw
      cases hout with
      | stay hc | badAck hc => rw [hc.scb] at hcw; exact hne hcw
      | synAck hf ha hlo hhi hc => rw [hc.scb] at hcw; cases hcw
    | closeWait => exact absurd hst hne
    | closed | closing | timeWait | lastAck => exact absurd (by rw [hst]; simp [past]) hp

/-- **When a FIN is in order.**  In every run of a connection, a FIN that is taken leaves the
whole stream pushed and `rcv.nxt_seq` one past itself exactly if `rcv.nxt_seq` had reached the
end of its text before it arrived. -/
theorem finInOrder_iff {s₀ : Sess} (h0 : s₀.Fresh irs W) (ho : s₀.conn.scb.state.opened)
    {evs : List Ev} (hrun : Run (guard (FinSliceEv S irs) Sess.Step) s₀ evs s)
    (hf : s.freed = false) (he : FinSliceEv S irs s (.seg m len raddr)) (ht : s.TakesFin m len raddr) :
    ((s.seg m len raddr).conn.pushed = S ∧
      (s.seg m len raddr).conn.scb.rcv.nxtSeq = irs + 1 + UInt32.ofNat S.length + 1) ↔
    s.conn.scb.rcv.nxtSeq = m.tcphdr.seq + (tcpDataLen m.tcphdr len).toUInt32 := by
  have hinv : s.RxInv S irs W := (h0.rxInv S ho).of_run (fun _ _ he _ => he.near) hrun
  rcases hinv with h | ⟨ho, lr, lt, h⟩ | ⟨hp, -⟩
  · rw [hf] at h
    cases h
  · obtain ⟨hfin, scb, hc, hrcv, -⟩ := ht.step ho
    obtain ⟨hseq, hn⟩ := he.fin_seq hfin
    rw [hc.pushed, hc.scb, hrcv, hseq]
    show (s.conn.pushed = S ∧ s.conn.scb.rcv.nxtSeq + 1 = _) ↔ _
    constructor
    · rintro ⟨rfl, -⟩
      exact h.nxt
    · intro heq
      refine ⟨?_, by rw [heq]⟩
      have hk : S.length = s.conn.pushed.length := seq_offset (by rw [← heq, ← h.nxt]) hn
      rw [List.prefix_iff_eq_take.mp h.stream, ← hk, List.take_length]
  · exfalso
    rcases ht with ⟨hne, hcw⟩ | ⟨hw, -⟩
    · exact past_not_opened hp (Sess.opened_of_closeWait hne hcw)
    · exact past_not_synced hp (.inr hw)

end

/-- A FIN without text. -/
def sampleFin (seq : UInt32) : Mbuf :=
  { sampleText seq (tcpFlgFin ||| tcpFlgAck) with len := 0 }

/-- All three bytes of the stream and then the FIN. -/
theorem finInOrder_iff_last :
    let s := sampleSess.seg (sampleText 8 tcpFlgAck) 23 0x0a000002
    Run (guard (FinSliceEv [10, 11, 12] 7) Sess.Step) sampleSess
        [.seg (sampleText 8 tcpFlgAck) 23 0x0a000002] s ∧ s.freed = false ∧
      FinSliceEv [10, 11, 12] 7 s (.seg (sampleFin 11) 20 0x0a000002) ∧
      s.TakesFin (sampleFin 11) 20 0x0a000002 ∧
      (((s.seg (sampleFin 11) 20 0x0a000002).conn.pushed = [10, 11, 12] ∧
        (s.seg (sampleFin 11) 20 0x0a000002).conn.scb.rcv.nxtSeq = 7 + 1 + UInt32.ofNat 3 + 1) ↔
      s.conn.scb.rcv.nxtSeq = (sampleFin 11).tcphdr.seq + (tcpDataLen (sampleFin 11).tcphdr 20).toUInt32) := by
  intro s
  have hrun : Run (guard (FinSliceEv [10, 11, 12] 7) Sess.Step) sampleSess
      [.seg (sampleText 8 tcpFlgAck) 23 0x0a000002] s :=
    .cons ⟨⟨0, ⟨by decide, 3, by decide, by decide⟩, by decide, fun h => absurd h (by decide)⟩, rfl⟩
      (.nil _)
  have hfin : FinSliceEv [10, 11, 12] 7 s (.seg (sampleFin 11) 20 0x0a000002) :=
    ⟨3, ⟨by decide, 0, by decide, by decide⟩, by decide, fun _ => ⟨by decide, by decide, by decide⟩⟩
  have htakes : s.TakesFin (sampleFin 11) 20 0x0a000002 := Or.inl ⟨by decide, by decide⟩
  refine ⟨hrun, by decide, hfin, htakes, ?_⟩
  exact finInOrder_iff sampleSess_fresh (Or.inr (Or.inl rfl)) hrun (by decide) hfin htakes

/-- **The FIN overtakes the text.**  Of the stream `9, 10, 11, 12` the last three bytes and the
FIN arrive first: the block is in SOCK_CB_CLOSE_WAIT with nothing pushed, and has acknowledged
one byte. -/
theorem fin_after_gap : sampleSess.Fresh 7 sockCbDefaultWndSize ∧ sampleSess.conn.scb.state.opened ∧
      FinSliceEv [9, 10, 11, 12] 7 sampleSess
        (.seg (sampleText 9 (tcpFlgFin ||| tcpFlgAck)) 23 0x0a000002) ∧
      sampleSess.TakesFin (sampleText 9 (tcpFlgFin ||| tcpFlgAck)) 23 0x0a000002 ∧
      (sampleSess.seg (sampleText 9 (tcpFlgFin ||| tcpFlgAck)) 23 0x0a000002).conn.pushed = [] ∧
      (sampleSess.seg (sampleText 9 (tcpFlgFin ||| tcpFlgAck)) 23 0x0a000002).conn.scb.rcv.nxtSeq = 9 :=
  ⟨sampleSess_fresh, Or.inr (Or.inl rfl),
    ⟨1, ⟨by decide, 3, by decide, by decide⟩, by decide, fun _ => ⟨by decide, by decide, by decide⟩⟩,
    Or.inl ⟨by decide, by decide⟩, by decide, by decide⟩

end InternetOs.Net
