import InternetOs.Net.RxStream

/-!
# The acknowledgement of our own FIN

`tcp_close` sends a FIN with sequence number `f` and leaves FIN_WAIT_1 or LAST_ACK.
`check_ack` does not ask whether an acknowledgement covers that FIN: in FIN_WAIT_1 any
acknowledgement from `snd.unack` on moves to FIN_WAIT_2, in LAST_ACK any at all ends the
connection.  So the handshake is only as safe as the acknowledgements that arrive:

    every acceptable acknowledgement in FIN_WAIT_1 and LAST_ACK is of `snd.nxt_seq` →
      the block leaves these states, or is freed, only after one of `f + 1`   (closeHandshake)
-/

namespace InternetOs.Net

open SockCbState List Sess

/-- The segment acknowledges `a`. -/
def Acks (a : UInt32) : Ev → Prop
  | .seg m _ _ => tcpFlgIsset m.tcphdr.flg tcpFlgAck = true ∧ m.tcphdr.ack = a
  | _ => False

/-- The segments of the run have neither RST nor SYN. -/
def PlainEv : Ev → Prop
  | .seg m _ _ => tcpFlgIsset m.tcphdr.flg tcpFlgRst = false ∧ tcpFlgIsset m.tcphdr.flg tcpFlgSyn = false
  | _ => True

/-- The segment passes the sequence check of `tcp_recv_core`. -/
def Sess.InWindow (s : Sess) (m : Mbuf) (len : UInt16) : Prop :=
  isSeqValid s.conn.scb.rcv.wnd s.conn.scb.rcv.nxtSeq m.tcphdr.seq (tcpDataLen m.tcphdr len) = true

/-- In FIN_WAIT_1 no acceptable segment acknowledges less than everything sent from `snd.unack`
on, and in LAST_ACK none acknowledges anything but everything sent. -/
def FullAckEv (s : Sess) : Ev → Prop
  | .seg m len _ => s.InWindow m len → tcpFlgIsset m.tcphdr.flg tcpFlgAck = true →
      (s.conn.scb.state = finWait1 → s.conn.scb.snd.unack ≤ m.tcphdr.ack → ¬ m.tcphdr.ack < s.conn.scb.snd.nxtSeq) ∧
      (s.conn.scb.state = lastAck → m.tcphdr.ack = s.conn.scb.snd.nxtSeq)
  | _ => True

/-- The step leaves FIN_WAIT_1 for FIN_WAIT_2, or CLOSING or LAST_ACK, or frees the block. -/
def Leaves (s s' : Sess) : Prop :=
  (s.conn.scb.state = finWait1 ∧ s'.conn.scb.state = finWait2) ∨
  ((s.conn.scb.state = closing ∨ s.conn.scb.state = lastAck) ∧ s'.conn.scb.state ≠ s.conn.scb.state) ∨
  (s.freed = false ∧ s'.freed = true)

/-- Our FIN has been sent and is the last thing sent; `f` is its sequence number. -/
structure Sess.FinSent (f : UInt32) (s : Sess) : Prop where
  live : s.freed = false
  state : s.conn.scb.state = finWait1 ∨ s.conn.scb.state = lastAck
  nxt : s.conn.scb.snd.nxtSeq = f + 1

section
variable {s s' : Sess} {f : UInt32} {m : Mbuf} {len : UInt16} {raddr : UInt32}

theorem Sess.FinSent.becomes {scb : SockCb} {c' : Conn} (h : s.FinSent f)
    (hc : (s.conn.newMbuf m).Becomes scb c') (hst : scb.state = s.conn.scb.state)
    (hn : scb.snd.nxtSeq = s.conn.scb.snd.nxtSeq) :
    FinSent f { s with conn := c', freed := false } ∧ ¬ Leaves s { s with conn := c', freed := false } := by
  have hst' : c'.scb.state = s.conn.scb.state := by rw [hc.scb, hst]
  refine ⟨⟨rfl, ?_, ?_⟩, ?_⟩
  · show c'.scb.state = finWait1 ∨ c'.scb.state = lastAck
    rw [hst']
    exact h.state
  · show c'.scb.snd.nxtSeq = f + 1
    rw [hc.scb, hn]
    exact h.nxt
  · rintro (⟨h1, h2⟩ | ⟨-, h2⟩ | ⟨-, h2⟩)
    · have h3 : c'.scb.state = finWait2 := h2
      rw [hst', h1] at h3
      cases h3
    · exact h2 hst'
    · cases h2

/-- The ACK check in FIN_WAIT_1 and LAST_ACK: nothing moves unless the segment acknowledges
the FIN. -/
theorem Sess.FinSent.acked (h : s.FinSent f) (hw : s.InWindow m len) (he : FullAckEv s (.seg m len raddr)) :
    Acks (f + 1) (.seg m len raddr) ∨ (((s.conn.newMbuf m).acked s.conn.brk).1.state = s.conn.scb.state ∧
        ((s.conn.newMbuf m).acked s.conn.brk).2 ≠ .ok ∧
        ((s.conn.newMbuf m).acked s.conn.brk).2 ≠ .closeScb) := by
  have hout := (s.conn.newMbuf m).acked_outcome s.conn.brk
  rw [Conn.newMbuf_hdr] at hout
  generalize ((s.conn.newMbuf m).acked s.conn.brk).1.state = st at hout
  generalize ((s.conn.newMbuf m).acked s.conn.brk).2 = op at hout
  cases hout with
  | stay hop hok =>
    refine .inr ⟨rfl, fun e => ?_, by rcases hop with rfl | rfl | rfl | rfl <;> simp⟩
    rcases h.state with hs | hs
    · exact (hok e).2.1 hs
    · exact (hok e).2.2 hs
  | estab hs =>
    have hs : s.conn.scb.state = synRcvd := hs
    rcases h.state with h' | h' <;> rw [h'] at hs <;> cases hs
  | finWait2 hs hf hlo hhi =>
    -- the range check leaves only the number after the FIN
    refine .inl ⟨hf, ?_⟩
    have hge := ((he hw hf).1 hs) hlo
    rw [← h.nxt]
    exact UInt32.le_antisymm hhi (UInt32.not_lt.mp hge)
  | closing hs =>
    have hs : s.conn.scb.state = closing := hs
    rcases h.state with h' | h' <;> rw [h'] at hs <;> cases hs
  | lastAck hs hf =>
    refine .inl ⟨hf, ?_⟩
    rw [← h.nxt]
    exact (he hw hf).2 hs

/-- **A segment in FIN_WAIT_1 or LAST_ACK** acknowledges the FIN or changes nothing that matters. -/
theorem Sess.FinSent.seg (h : s.FinSent f) (hpl : PlainEv (.seg m len raddr)) (he : FullAckEv s (.seg m len raddr)) :
    Acks (f + 1) (.seg m len raddr) ∨ ((s.seg m len raddr).FinSent f ∧ ¬ Leaves s (s.seg m len raddr)) := by
  have hst : s.conn.scb.state ≠ closed ∧ s.conn.scb.state ≠ listen ∧ s.conn.scb.state ≠ synSent := by
    rcases h.state with h' | h' <;> simp [h']
  obtain ⟨c', op, hout, hseg⟩ := s.seg_core hst.1 hst.2.1 hst.2.2 m len raddr
  rw [hseg]
  have hwin : isSeqValid (s.conn.newMbuf m).scb.rcv.wnd (s.conn.newMbuf m).scb.rcv.nxtSeq
      ((s.conn.newMbuf m).hdr s.conn.brk).seq
      (tcpDataLen ((s.conn.newMbuf m).hdr s.conn.brk) len) = true → s.InWindow m len := by
    intro hv
    rw [Conn.newMbuf_hdr] at hv
    exact hv
  cases hout with
  | badSeq hv hc => exact .inr (h.becomes hc rfl rfl)
  | rst hf hc =>
    rw [Conn.newMbuf_hdr, hpl.1] at hf
    cases hf
  | syn hf hc =>
    rw [Conn.newMbuf_hdr, hpl.2] at hf
    cases hf
  | ackClose hv ha hc => exact (h.acked (hwin hv) he).imp_right fun hk => absurd ha hk.2.2
  | ackStop hv ha ha' hc =>
    exact (h.acked (hwin hv) he).imp_right fun hk => h.becomes hc hk.1 (by simp [Conn.newMbuf])
  | noText hv ha | text hv ha | fin hv ha | finClose hv ha | drop hv ha =>
    exact (h.acked (hwin hv) he).imp_right fun hk => absurd ha hk.2.1

/-- Readers and writers leave the send side of a closing block alone. -/
theorem Sess.FinSent.step {e : Ev} (h : s.FinSent f) (hpl : PlainEv e) (he : FullAckEv s e)
    (hs : s.step e = some s') : Acks (f + 1) e ∨ s'.freed = true ∨ s'.FinSent f := by
  cases e with
  | seg m len raddr =>
    cases step_live h.live hs
    exact (h.seg hpl he).imp_right fun hk => .inr hk.1
  | recv nb n =>
    cases step_live h.live hs
    obtain ⟨hst, hsnd, -⟩ := sockrecvIter_frame s.conn nb n 0
    exact .inr (.inr ⟨h.live, by dsimp only; rw [hst]; exact h.state, by dsimp only; rw [hsnd]; exact h.nxt⟩)
  | send m flg =>
    have hsend : tcpSend (s.conn.newMbuf m) s.conn.brk flg = some (s.conn.newMbuf m, -1) := by
      unfold tcpSend
      split
      · rfl
      · rcases h.state with h' | h' <;> simp [Conn.newMbuf, h']
    obtain ⟨_, hr, rfl⟩ := step_live h.live hs
    cases hsend.symm.trans hr
    exact .inr (.inr ⟨h.live, h.state, h.nxt⟩)
  | close =>
    cases step_live h.live hs
    refine .inr (.inl ?_)
    rcases h.state with h' | h' <;> simp [tcpClose, h']

theorem Sess.finSent_of_close (hs : s.step .close = some s') (hlive : s'.freed = false)
    {g : TcpSeg} (hg : s'.conn.out = s.conn.out ++ [g]) : s'.FinSent g.seq := by
  have hf : s.freed = false := by
    cases hf : s.freed with
    | true => simp [step, hf] at hs
    | false => rfl
  cases step_live hf hs
  obtain ⟨c', v, hclose, hout⟩ := tcpClose_outcome s.conn
  rw [hclose] at hg hlive ⊢
  cases hout with
  | done => cases hlive
  | fin st hst =>
    cases append_cancel_left hg
    refine ⟨rfl, ?_, rfl⟩
    rcases hst with ⟨-, rfl⟩ | ⟨-, rfl⟩
    · exact .inl rfl
    · exact .inr rfl
  | queued hst =>
    have := congrArg length hg
    simp [Conn.newMbuf] at this

/-- **The close handshake.**  After `tcp_close` has sent a FIN, in every run of segments without
RST and SYN whose acknowledgements in FIN_WAIT_1 and LAST_ACK are full: the block leaves
FIN_WAIT_1, CLOSING or LAST_ACK, or is freed, only after a segment has acknowledged the FIN. -/
theorem closeHandshake {s₀ s₁ : Sess} (hcl : s₀.step .close = some s₁) (hlive : s₁.freed = false)
    {g : TcpSeg} (hg : s₁.conn.out = s₀.conn.out ++ [g]) {evs : List Ev}
    (hrun : Run (guard (fun s e => PlainEv e ∧ FullAckEv s e) Step) s₁ evs s)
    (hpl : PlainEv (.seg m len raddr)) (he : FullAckEv s (.seg m len raddr))
    (hs : s.step (.seg m len raddr) = some s') (hl : Leaves s s') :
    ∃ e ∈ evs ++ [.seg m len raddr], Acks (g.seq + 1) e := by
  have hinv : (∃ e ∈ evs, Acks (g.seq + 1) e) ∨ s.freed = true ∨ s.FinSent g.seq := by
    refine hrun.inv_trace (I := fun evs s =>
      (∃ e ∈ evs, Acks (g.seq + 1) e) ∨ s.freed = true ∨ s.FinSent g.seq) ?_
      (.inr (.inr (finSent_of_close hcl hlive hg)))
    rintro evs s e s' hi ⟨⟨hpl, he⟩, hs⟩
    rcases hi with ⟨e', he', ha⟩ | hf | h
    · exact .inl ⟨e', mem_append_left _ he', ha⟩
    · exact .inr (.inl (by rw [step_freed hf hs]; exact hf))
    · exact (h.step hpl he hs).imp_left fun ha => ⟨e, mem_append_right _ mem_cons_self, ha⟩
  rcases hinv with ⟨e, he', ha⟩ | hf | h
  · exact ⟨e, mem_append_left _ he', ha⟩
  · -- nothing happens to a freed block
    rw [step_freed hf hs] at hl
    rcases hl with ⟨h1, h2⟩ | ⟨-, h2⟩ | ⟨h1, -⟩
    · rw [h1] at h2
      cases h2
    · exact absurd rfl h2
    · rw [hf] at h1
      cases h1
  · cases step_live h.live hs
    rcases h.seg hpl he with ha | hk
    · exact ⟨_, mem_append_right _ mem_cons_self, ha⟩
    · exact absurd hl hk.2

end

/-- A segment without text that acknowledges `ack`. -/
def sampleAck (seq ack : UInt32) (flg : UInt8) : Mbuf :=
  { sampleText seq flg with
    len := 0, tcphdr := { (sampleText seq flg).tcphdr with ack := ack } }

/-- Our FIN has sequence number 1; the acknowledgement of 2 ends FIN_WAIT_1. -/
theorem closeHandshake_acked :
    ∃ s₁, sampleSess.step .close = some s₁ ∧ s₁.conn.out = sampleSess.conn.out ++ [finSeg sampleSess.conn] ∧
      Leaves s₁ (s₁.seg (sampleAck 8 2 tcpFlgAck) 20 0x0a000002) ∧
      ∃ e ∈ [] ++ [.seg (sampleAck 8 2 tcpFlgAck) 20 0x0a000002], Acks ((finSeg sampleSess.conn).seq + 1) e := by
  refine ⟨{ sampleSess with conn := (tcpClose sampleSess.conn).1 }, rfl, rfl, ?_, ?_⟩
  · exact Or.inl ⟨by decide, by decide⟩
  · refine closeHandshake (show sampleSess.step .close = some _ from rfl) rfl rfl (.nil _)
      ⟨by decide, by decide⟩ ?_ rfl
      (Or.inl ⟨by decide, by decide⟩)
    exact fun _ _ => ⟨fun _ _ => by decide, fun h => absurd h (by decide)⟩

/-- **Acknowledgements of less than the FIN end the handshake.**  After our FIN with sequence
number 1, an acknowledgement of 1 moves FIN_WAIT_1 to FIN_WAIT_2; and in LAST_ACK an
acknowledgement of 0 frees the block. -/
theorem closeHandshake_early : (∃ s₁, sampleSess.step .close = some s₁ ∧
      s₁.conn.out = sampleSess.conn.out ++ [finSeg sampleSess.conn] ∧
      (finSeg sampleSess.conn).seq = 1 ∧ s₁.conn.scb.state = finWait1 ∧
      (s₁.seg (sampleAck 8 1 tcpFlgAck) 20 0x0a000002).conn.scb.state = finWait2) ∧
    (∃ s₀ s₁, sampleSess.step (.seg (sampleAck 8 1 (tcpFlgFin ||| tcpFlgAck)) 20 0x0a000002) = some s₀ ∧
      s₀.step .close = some s₁ ∧ s₁.conn.out = s₀.conn.out ++ [finSeg s₀.conn] ∧
      (finSeg s₀.conn).seq = 1 ∧ s₁.conn.scb.state = lastAck ∧
      (s₁.seg (sampleAck 9 0 tcpFlgAck) 20 0x0a000002).freed = true) := by
  constructor
  · exact ⟨_, rfl, rfl, by decide, by decide, by decide⟩
  · exact ⟨_, _, rfl, rfl, rfl, by decide, by decide, by decide⟩

end InternetOs.Net
