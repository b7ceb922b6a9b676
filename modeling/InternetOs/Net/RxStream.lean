import InternetOs.Net.Conn

/-!
# The receive stream

A peer sends a byte stream `S` whose first byte has sequence number `irs + 1`; every
arriving segment carries some slice of it (`IsSliceAt`), lost, repeated, reordered or
overlapping.  While the block can still take text, what it has pushed to `rxq` is a
prefix of `S` as long as `rcv.nxt_seq` says, and readers have got that prefix less
what is still queued (`Sess.Rx`).

    Run (guard (fun _ => SliceEv S irs) Sess.Step) s₀ evs s → … → pushed = S.take (nxt - irs - 1)
      ∧ copied ++ bytesOf rxq = pushed ∧ wnd + unread = 4096             (recvStream)
-/

namespace InternetOs.Net

open SockCbState List Conn

/-! ## Slices of the peer's stream -/

/-- The first `l` bytes after the header. -/
def payload (m : Mbuf) (l : Nat) : List UInt8 := (range l).map fun i => m.buf (m.head + i)

/-- The segment in `m`, of IP payload length `len`, has a 20-byte header, and its payload is the
slice of `S` at position `o`. -/
def IsSliceAt (S : List UInt8) (irs : UInt32) (o : Nat) (m : Mbuf) (len : UInt16) : Prop :=
  m.tcphdr.off >>> 4 = 5 ∧ ∃ l, len.toNat = 20 + l ∧
    (0 < l → m.tcphdr.seq = irs + 1 + UInt32.ofNat o ∧ o + l ≤ S.length ∧ payload m l = (S.drop o).take l)

/-- Positions `o` and `k` of a stream are less than the sequence space apart, so that their
sequence numbers differ if they do.  In a stream shorter than 2^32 bytes all positions are. -/
def Near (o k : Nat) : Prop := o < k + 2 ^ 32 ∧ k < o + 2 ^ 32

instance (o k : Nat) : Decidable (Near o k) := inferInstanceAs (Decidable (_ ∧ _))

/-- Arriving segments are slices of `S`; readers and writers do as they like. -/
def SliceEv (S : List UInt8) (irs : UInt32) : Ev → Prop
  | .seg m len _ => ∃ o, IsSliceAt S irs o m len
  | _ => True

/-- They are slices of `S` near the position the receiver is at. -/
def NearSliceEv (S : List UInt8) (irs : UInt32) (s : Sess) : Ev → Prop
  | .seg m len _ => ∃ o, IsSliceAt S irs o m len ∧ Near o s.conn.pushed.length
  | _ => True

variable {c : Conn} {st : SockCbState}

/-- In a stream that fits the sequence space every slice is near. -/
theorem SliceEv.near {S : List UInt8} {irs : UInt32} {e : Ev} (h : SliceEv S irs e)
    (hS : S.length < 2 ^ 32) {s : Sess} (hk : s.conn.pushed.length ≤ S.length) : NearSliceEv S irs s e := by
  cases e with
  | seg m len raddr =>
    obtain ⟨o, hoff, l, hlen, hsl⟩ := h
    rcases Nat.eq_zero_or_pos l with rfl | hl
    · -- a segment without text is the empty slice everywhere
      exact ⟨0, ⟨hoff, 0, hlen, fun h => absurd h (lt_irrefl 0)⟩, by omega, by omega⟩
    · exact ⟨o, ⟨hoff, l, hlen, hsl⟩, by omega, by omega⟩
  | recv | send | close => trivial

theorem tcpDataLen_of_off {hdr : TcpHdr} {len : UInt16} {l : Nat} (hoff : hdr.off >>> 4 = 5)
    (hlen : len.toNat = 20 + l) : (tcpDataLen hdr len).toNat = l := by
  unfold tcpDataLen
  rw [hoff]
  have h20 : ((5 : UInt8) <<< 2).toUInt16 = 20 := by decide
  rw [h20, UInt16.toNat_sub_of_le _ _ (UInt16.le_iff_toNat_le.mpr (by simp; omega))]
  simp
  omega

theorem toUInt32_eq_ofNat (x : UInt16) : x.toUInt32 = UInt32.ofNat x.toNat := by
  apply UInt32.toNat_inj.mp
  simp

theorem seq_offset {irs : UInt32} {a b : Nat}
    (h : irs + 1 + UInt32.ofNat a = irs + 1 + UInt32.ofNat b) (hn : Near a b) : a = b := by
  have h1 : UInt32.ofNat a = UInt32.ofNat b := (UInt32.add_right_inj _).mp h
  have h2 := congrArg UInt32.toNat h1
  rw [UInt32.toNat_ofNat', UInt32.toNat_ofNat'] at h2
  obtain ⟨ha, hb⟩ := hn
  omega

theorem textMbuf_data (m : Mbuf) (datalen : UInt16) : (textMbuf m datalen).data = payload m datalen.toNat := rfl

/-! ## The invariant -/

/-- The states in which text may still be taken. -/
def SockCbState.opened (st : SockCbState) : Prop := st = synRcvd ∨ st.synced

/-- The states after the peer's FIN or the end of the connection. -/
def SockCbState.past (st : SockCbState) : Prop :=
  st = closeWait ∨ st = lastAck ∨ st = closing ∨ st = timeWait ∨ st = closed

/-- `W` is the window the connection started with. -/
structure Sess.Rx (S : List UInt8) (irs W : UInt32) (s : Sess) (lr lt : List Nat) : Prop extends
    s.Read lr lt where
  nxt : s.conn.scb.rcv.nxtSeq = irs + 1 + UInt32.ofNat s.conn.pushed.length
  stream : s.conn.pushed <+: S
  wnd : s.conn.scb.rcv.wnd.toNat + (bytesOf s.conn.mbufs lr).length = W.toNat

/-- What holds of a connection at every moment of its life. -/
def Sess.RxInv (S : List UInt8) (irs W : UInt32) (s : Sess) : Prop :=
  s.freed = true ∨ (s.conn.scb.state.opened ∧ ∃ lr lt, s.Rx S irs W lr lt) ∨
    (s.conn.scb.state.past ∧ ∃ lr lt, s.Read lr lt)

/-! ## States along a run -/

/-- The ACK check keeps a connection open, and lets it through only synchronised. -/
theorem acked_opened (m : Nat) (hs : c.scb.state.opened) :
    (c.acked m).1.state.opened ∧ ((c.acked m).2 = .ok → (c.acked m).1.state.synced) := by
  have h := c.acked_outcome m
  generalize (c.acked m).1.state = st at h
  generalize (c.acked m).2 = op at h
  cases h with
  | stay hop hok =>
    refine ⟨hs, fun e => ?_⟩
    rcases hs with hs | hs
    · exact absurd hs (hok e).1
    · exact hs
  | estab hs' => exact ⟨.inr (.inl rfl), fun _ => .inl rfl⟩
  | finWait2 hs' => exact ⟨.inr (.inr (.inr rfl)), fun _ => .inr (.inr rfl)⟩
  | closing hs' | lastAck hs' => rw [hs'] at hs; simp [opened, synced] at hs

theorem acked_opened_ne_close (hs : c.scb.state.opened) (m : Nat) : (c.acked m).2 ≠ .closeScb := by
  have h := c.acked_outcome m
  generalize (c.acked m).1.state = st at h
  generalize (c.acked m).2 = op at h ⊢
  cases h with
  | stay hop => rcases hop with rfl | rfl | rfl | rfl <;> simp
  | estab | finWait2 => simp
  | closing hs' | lastAck hs' => rw [hs'] at hs; simp [opened, synced] at hs

theorem checkRst_opened {scb : SockCb} {flg : UInt8} (hs : scb.state.opened) (hf : tcpFlgIsset flg tcpFlgRst = true) :
    (checkRst scb flg).1.state = listen ∨ (checkRst scb flg).1.state = closed := by
  unfold checkRst
  rw [if_pos hf]
  rcases hs with hs | hs | hs | hs <;> simp [hs]

theorem opened_ne (h : st.opened) : st ≠ closed ∧ st ≠ listen ∧ st ≠ synSent := by
  rcases h with rfl | rfl | rfl | rfl <;> simp

theorem past_ne (h : st.past) : st ≠ listen ∧ st ≠ synSent := by
  rcases h with rfl | rfl | rfl | rfl | rfl <;> simp

theorem past_not_synced (h : st.past) : ¬ st.synced := by
  rcases h with rfl | rfl | rfl | rfl | rfl <;> simp [synced]

theorem past_not_opened (h : st.past) : ¬ st.opened := by
  rintro (rfl | ho)
  · simp [past] at h
  · exact past_not_synced h ho

/-- After the peer's FIN the ACK check closes the connection or leaves its state. -/
theorem acked_past (m : Nat) (hs : c.scb.state.past) :
    (c.acked m).1.state = c.scb.state ∨ (c.acked m).1.state = closed := by
  have h := c.acked_outcome m
  generalize (c.acked m).1.state = st at h
  generalize (c.acked m).2 = op at h
  cases h with
  | stay => exact .inl rfl
  | estab hs' | finWait2 hs' => rw [hs'] at hs; simp [past] at hs
  | closing | lastAck => exact .inr rfl

theorem past_of_eq {st' : SockCbState} (hs : st.past) (h : st' = st ∨ st' = closed) : st'.past := by
  rcases h with rfl | rfl
  · exact hs
  · exact .inr (.inr (.inr (.inr rfl)))

/-- `tcp_close` keeps an open connection open, and what is past stays past. -/
theorem tcpClose_state (c : Conn) : (c.scb.state.opened → (tcpClose c).1.scb.state.opened) ∧
      (c.scb.state.past → (tcpClose c).1.scb.state.past) := by
  obtain ⟨c', v, hclose, hout⟩ := tcpClose_outcome c
  rw [hclose]
  cases hout with
  | done | queued => exact ⟨id, id⟩
  | fin st hst =>
    rcases hst with ⟨hs, rfl⟩ | ⟨hs, rfl⟩
    · refine ⟨fun _ => .inr (.inr (.inl rfl)), fun hp => ?_⟩
      rcases hs with hs | hs <;> rw [hs] at hp <;> simp [past] at hp
    · refine ⟨fun ho => ?_, fun _ => .inr (.inl rfl)⟩
      rw [hs] at ho
      simp [opened, synced] at ho

theorem checkRst_past {scb : SockCb} {flg : UInt8} (hs : scb.state.past)
    (hf : tcpFlgIsset flg tcpFlgRst = true) : (checkRst scb flg).1.state = closed := by
  unfold checkRst
  rw [if_pos hf]
  rcases hs with hs | hs | hs | hs | hs <;> simp [hs]

/-! ## Arriving segments -/

section
variable {S : List UInt8} {irs W : UInt32} {s : Sess} {lr lt : List Nat} {m : Mbuf} {len : UInt16}

/-- In-order text that fits the window extends the prefix. -/
theorem Sess.Rx.pushed_text (h : s.Rx S irs W lr lt) {o : Nat}
    (hsl : IsSliceAt S irs o m len) (hn : Near o s.conn.pushed.length) (ht0 : 0 < tcpDataLen m.tcphdr len)
    (hseq : s.conn.scb.rcv.nxtSeq = m.tcphdr.seq) :
    s.conn.pushed ++ payload m (tcpDataLen m.tcphdr len).toNat <+: S := by
  obtain ⟨hoff, l, hlen, hsl⟩ := hsl
  have hl : (tcpDataLen m.tcphdr len).toNat = l := tcpDataLen_of_off hoff hlen
  have hl0 : 0 < l := by
    rw [← hl]
    exact UInt16.lt_iff_toNat_lt.mp ht0
  obtain ⟨hs, hol, hp⟩ := hsl hl0
  have hk : s.conn.pushed.length ≤ S.length := h.stream.length_le
  have ho : o = s.conn.pushed.length := by
    have hsame : irs + 1 + UInt32.ofNat o = irs + 1 + UInt32.ofNat s.conn.pushed.length := by
      rw [← h.nxt, hseq, hs]
    exact seq_offset hsame hn
  rw [hl, hp, ho]
  conv_lhs => rw [prefix_iff_eq_take.mp h.stream]
  rw [length_take, Nat.min_eq_left hk, ← take_add]
  exact take_prefix _ _

theorem Sess.Rx.text (h : s.Rx S irs W lr lt) {o : Nat} (hsl : IsSliceAt S irs o m len)
    (hn : Near o s.conn.pushed.length) {c' : Conn} {scb : SockCb}
    (hrcv : scb.rcv = s.conn.scb.rcv) (hrxq : scb.rxq = s.conn.scb.rxq) (htxq : scb.txq = s.conn.scb.txq)
    (ht : TextOk scb m.tcphdr.seq (tcpDataLen m.tcphdr len))
    (hscb : c'.scb = { scb with
      rcv := textRcv scb.rcv (tcpDataLen m.tcphdr len)
      rxq := (mbufqPushtail (Function.update (s.conn.newMbuf m).mbufs s.conn.brk
        (textMbuf m (tcpDataLen m.tcphdr len))) scb.rxq s.conn.brk).2 })
    (hm : c'.mbufs = (mbufqPushtail (Function.update (s.conn.newMbuf m).mbufs s.conn.brk
        (textMbuf m (tcpDataLen m.tcphdr len))) scb.rxq s.conn.brk).1)
    (hb : c'.brk = s.conn.brk + 1)
    (hp : c'.pushed = s.conn.pushed ++ (textMbuf m (tcpDataLen m.tcphdr len)).data) (b : Bool) :
    Sess.Rx S irs W { s with conn := c', freed := b } (lr ++ [s.conn.brk]) lt := by
  obtain ⟨ht0, hseq, hwnd⟩ := ht
  rw [hrcv] at hseq hwnd
  rw [hrxq] at hm
  rw [hrcv, hrxq] at hscb
  obtain ⟨hq, hbytes⟩ := (h.queues.newMbuf m).overwriteRx (ne_of_gt h.queues.brk_pos)
    (Nat.lt_succ_self _) h.queues.brk_notMem _ hm (by rw [hscb]; rfl)
    (show c'.scb.txq = _ by rw [hscb]; exact htxq) hb
  rw [h.queues.bytesOf_newMbuf, textMbuf_data] at hbytes
  have hplen : (payload m (tcpDataLen m.tcphdr len).toNat).length = (tcpDataLen m.tcphdr len).toNat := by
    simp [payload]
  refine ⟨⟨hq, ?_⟩, ?_, ?_, ?_⟩
  · show s.copied ++ bytesOf c'.mbufs (lr ++ [s.conn.brk]) = c'.pushed
    rw [hbytes, hp, textMbuf_data, ← h.read, append_assoc]
  · show c'.scb.rcv.nxtSeq = irs + 1 + UInt32.ofNat c'.pushed.length
    rw [hp, textMbuf_data, length_append, hplen, UInt32.ofNat_add, ← UInt32.add_assoc, ← h.nxt,
      ← toUInt32_eq_ofNat, hscb]
    rfl
  · show c'.pushed <+: S
    rw [hp]
    exact h.pushed_text hsl hn ht0 hseq
  · show c'.scb.rcv.wnd.toNat + (bytesOf c'.mbufs (lr ++ [s.conn.brk])).length = W.toNat
    have hw := h.wnd
    have hsub : c'.scb.rcv.wnd.toNat = s.conn.scb.rcv.wnd.toNat - (tcpDataLen m.tcphdr len).toNat := by
      rw [hscb]
      show (s.conn.scb.rcv.wnd - (tcpDataLen m.tcphdr len).toUInt32).toNat = _
      rw [UInt32.toNat_sub_of_le _ _ (UInt32.le_of_lt hwnd), UInt16.toNat_toUInt32]
    have hlt : (tcpDataLen m.tcphdr len).toNat < s.conn.scb.rcv.wnd.toNat := by
      have := UInt32.lt_iff_toNat_lt.mp hwnd
      rwa [UInt16.toNat_toUInt32] at this
    rw [hbytes, length_append]
    omega

theorem Sess.Rx.becomes (h : s.Rx S irs W lr lt) {scb : SockCb} {c' : Conn}
    (hc : (s.conn.newMbuf m).Becomes scb c') (hrcv : scb.rcv = s.conn.scb.rcv)
    (hrxq : scb.rxq = s.conn.scb.rxq) (htxq : scb.txq = s.conn.scb.txq) (b : Bool) :
    Sess.Rx S irs W { s with conn := c', freed := b } lr lt := by
  refine ⟨h.toRead.becomes hc hrxq htxq b, ?_, ?_, ?_⟩
  · show c'.scb.rcv.nxtSeq = irs + 1 + UInt32.ofNat c'.pushed.length
    rw [hc.scb, hrcv, hc.pushed]
    exact h.nxt
  · show c'.pushed <+: S
    rw [hc.pushed]
    exact h.stream
  · show c'.scb.rcv.wnd.toNat + (bytesOf c'.mbufs lr).length = W.toNat
    rw [hc.scb, hrcv, hc.mbufs, h.queues.bytesOf_newMbuf]
    exact h.wnd

/-- **A segment arrives while text may still be taken.** -/
theorem Sess.Rx.seg (ho : s.conn.scb.state.opened) (h : s.Rx S irs W lr lt) {o : Nat}
    (hsl : IsSliceAt S irs o m len) (hn : Near o s.conn.pushed.length) (raddr : UInt32) :
    (s.seg m len raddr).RxInv S irs W := by
  obtain ⟨h1, h2, h3⟩ := opened_ne ho
  have hack := acked_opened (c := s.conn.newMbuf m) s.conn.brk ho
  obtain ⟨c', op, hout, hseg⟩ := s.seg_core h1 h2 h3 m len raddr
  rw [hseg]
  cases hout with
  | badSeq hv hc =>
    refine .inr (.inl ⟨?_, lr, lt, h.becomes hc rfl rfl rfl _⟩)
    show c'.scb.state.opened
    rw [hc.scb]
    exact ho
  | rst | syn | ackClose | finClose => exact .inl rfl
  | ackStop _ _ _ hc | drop _ _ _ hc =>
    refine .inr (.inl ⟨?_, lr, lt, h.becomes hc (by simp [newMbuf]) (by simp [newMbuf])
      (by simp [newMbuf]) _⟩)
    show c'.scb.state.opened
    rw [hc.scb]
    exact hack.1
  | noText hv ha hs hc => exact absurd (hack.2 ha) hs
  | text hv ha hs ht hscb hm hb hp =>
    simp only [newMbuf_hdr, newMbuf_self] at ht hscb hm hp
    refine .inr (.inl ⟨?_, _, lt, h.text hsl hn (by simp [newMbuf]) (by simp [newMbuf])
      (by simp [newMbuf]) ht hscb hm hb hp _⟩)
    show c'.scb.state.opened
    rw [hscb]
    exact hack.1
  | fin hv ha hs ht hf hc =>
    refine .inr (.inr ⟨?_, lr, lt, h.toRead.becomes hc (by simp [newMbuf])
      (by simp [newMbuf]) _⟩)
    show c'.scb.state.past
    rw [hc.scb]
    exact .inl rfl

/-- After the peer's FIN a segment changes the state and `snd` at most. -/
theorem Sess.seg_past (hp : s.conn.scb.state.past) (m : Mbuf) (len : UInt16) (raddr : UInt32) :
    ∃ scb, (s.conn.newMbuf m).Becomes scb (s.seg m len raddr).conn ∧ scb.rxq = s.conn.scb.rxq ∧
      scb.txq = s.conn.scb.txq ∧ (scb.state = s.conn.scb.state ∨ scb.state = closed) := by
  by_cases hcl : s.conn.scb.state = closed
  · rw [Sess.seg_closed hcl]
    exact ⟨s.conn.scb, (s.conn.newMbuf m).becomes_self, rfl, rfl, .inl rfl⟩
  · obtain ⟨h2, h3⟩ := past_ne hp
    have hack := acked_past (c := s.conn.newMbuf m) s.conn.brk hp
    have hns := past_not_synced (past_of_eq hp hack)
    obtain ⟨c', op, hout, hseg⟩ := s.seg_core hcl h2 h3 m len raddr
    rw [hseg]
    cases hout with
    | badSeq _ hc | syn _ hc => exact ⟨_, hc, rfl, rfl, .inl rfl⟩
    | rst hf hc =>
      obtain ⟨st, hst⟩ := checkRst_frame (s.conn.newMbuf m).scb ((s.conn.newMbuf m).hdr s.conn.brk).flg
      exact ⟨_, hc, by rw [hst]; rfl, by rw [hst]; rfl, .inr (checkRst_past hp hf)⟩
    | ackClose _ _ hc | ackStop _ _ _ hc | noText _ _ _ hc =>
      exact ⟨_, hc, by simp [newMbuf], by simp [newMbuf], hack⟩
    | text _ _ hs | drop _ _ hs => exact absurd hs hns
    | fin _ _ hs => exact absurd (.inl hs) hns
    | finClose _ _ hs => exact absurd (.inr hs) hns

end

/-! ## Readers and writers -/

section
variable {S : List UInt8} {irs W : UInt32} {s s' : Sess} {lr lt : List Nat}

theorem Sess.Rx.recv (h : s.Rx S irs W lr lt) (nb : Bool) (n : Nat)
    (hs : s.step (.recv nb n) = some s') (hf : s.freed = false) :
    ∃ lr', s'.Rx S irs W lr' lt ∧ s'.conn.scb.state = s.conn.scb.state := by
  obtain ⟨lr', x, hr, hx, hp, hst, -, hrcv⟩ := h.toRead.recv nb n hs hf
  refine ⟨lr', ⟨hr, ?_, ?_, ?_⟩, hst⟩
  · rw [hrcv, hp]
    exact h.nxt
  · rw [hp]
    exact h.stream
  · -- the window grows by what the reader took, so it cannot wrap
    have hl := congrArg length h.read
    have hl' := congrArg length hr.read
    rw [length_append] at hl hl'
    rw [hp, hx, length_append] at hl'
    have hw := h.wnd
    have hW := W.toNat_lt
    have hk : x.length < 2 ^ 32 := by omega
    rw [hrcv]
    show (s.conn.scb.rcv.wnd + UInt32.ofNat x.length).toNat + _ = _
    rw [UInt32.toNat_add, UInt32.toNat_ofNat_of_lt' hk, Nat.mod_eq_of_lt (by omega)]
    omega

theorem Sess.Rx.of_read (h : s.Rx S irs W lr lt) {lt' : List Nat} (hr : s'.Read lr lt')
    (hp : s'.conn.pushed = s.conn.pushed) (hrcv : s'.conn.scb.rcv = s.conn.scb.rcv)
    (hb : bytesOf s'.conn.mbufs lr = bytesOf s.conn.mbufs lr) : s'.Rx S irs W lr lt' := by
  refine ⟨hr, ?_, ?_, ?_⟩
  · rw [hrcv, hp]
    exact h.nxt
  · rw [hp]
    exact h.stream
  · rw [hrcv, hb]
    exact h.wnd

end

/-! ## Whole runs -/

section
variable {S : List UInt8} {irs W : UInt32} {s s' : Sess}

theorem Sess.Rx.step {lr lt : List Nat} (ho : s.conn.scb.state.opened)
    (h : s.Rx S irs W lr lt) (hf : s.freed = false) {e : Ev} (he : NearSliceEv S irs s e)
    (hs : s.step e = some s') : s'.RxInv S irs W := by
  cases e with
  | seg m len raddr =>
    cases Sess.step_live hf hs
    obtain ⟨o, hsl, hn⟩ := he
    exact h.seg ho hsl hn raddr
  | recv nb n =>
    obtain ⟨lr', hr, hst⟩ := h.recv nb n hs hf
    exact .inr (.inl ⟨by rw [hst]; exact ho, lr', lt, hr⟩)
  | send m flg =>
    obtain ⟨s1, lt', heq, hr, -, hp, -, hrcv, hb, hst⟩ := h.toRead.send m flg hf
    obtain rfl : s1 = s' := Option.some.inj (heq.symm.trans hs)
    exact .inr (.inl ⟨by rw [hst (opened_ne ho).2.1]; exact ho, lr, lt', h.of_read hr hp hrcv hb⟩)
  | close =>
    obtain ⟨lt', hr, hp, hrcv, hb, hst⟩ := h.toRead.close hs hf
    exact .inr (.inl ⟨by rw [hst]; exact (tcpClose_state s.conn).1 ho, lr, lt', h.of_read hr hp hrcv hb⟩)

theorem Sess.Read.step_past {lr lt : List Nat} (hp : s.conn.scb.state.past) (h : s.Read lr lt)
    (hf : s.freed = false) {e : Ev} (hs : s.step e = some s') :
    s'.freed = true ∨ s'.conn.scb.state.past ∧ ∃ lr' lt', s'.Read lr' lt' := by
  cases e with
  | seg m len raddr =>
    cases Sess.step_live hf hs
    obtain ⟨scb, hc, hr, ht, hst⟩ := s.seg_past hp m len raddr
    exact .inr ⟨by rw [hc.scb]; exact past_of_eq hp hst, lr, lt, h.becomes hc hr ht _⟩
  | recv nb n =>
    obtain ⟨lr', x, hr, -, -, hst, -⟩ := h.recv nb n hs hf
    exact .inr ⟨by rw [hst]; exact hp, lr', lt, hr⟩
  | send m flg =>
    obtain ⟨s1, lt', heq, hr, -, -, -, -, -, hst⟩ := h.send m flg hf
    obtain rfl : s1 = s' := Option.some.inj (heq.symm.trans hs)
    exact .inr ⟨by rw [hst (past_ne hp).1]; exact hp, lr, lt', hr⟩
  | close =>
    obtain ⟨lt', hr, -, -, -, hst⟩ := h.close hs hf
    exact .inr ⟨by rw [hst]; exact (tcpClose_state s.conn).2 hp, lr, lt', hr⟩

/-- **Every step keeps the invariant.** -/
theorem Sess.RxInv.step {e : Ev} (h : s.RxInv S irs W)
    (he : s.conn.pushed.length ≤ S.length → NearSliceEv S irs s e) (hs : s.Step e s') : s'.RxInv S irs W := by
  cases hf : s.freed with
  | true => exact .inl (by rw [Sess.step_freed hf hs]; exact hf)
  | false =>
    rcases h with h | ⟨ho, lr, lt, h⟩ | ⟨hp, lr, lt, h⟩
    · rw [hf] at h
      cases h
    · exact h.step ho hf (he h.stream.length_le) hs
    · exact (h.step_past hp hf hs).imp_right .inr

/-- The peer's SYN `irs` has been received and nothing after it. -/
structure Sess.Fresh (irs W : UInt32) (s : Sess) : Prop where
  live : s.freed = false
  queues : ∃ lt, s.conn.QInv [] lt
  nxt : s.conn.scb.rcv.nxtSeq = irs + 1
  wnd : s.conn.scb.rcv.wnd = W
  pushed : s.conn.pushed = []
  copied : s.copied = []

theorem Sess.Fresh.rxInv (S : List UInt8) (h : s.Fresh irs W) (ho : s.conn.scb.state.opened) :
    s.RxInv S irs W := by
  obtain ⟨lt, hq⟩ := h.queues
  refine .inr (.inl ⟨ho, [], lt, ⟨⟨hq, ?_⟩, ?_, ?_, ?_⟩⟩)
  · rw [h.copied, h.pushed]
    rfl
  · rw [h.nxt, h.pushed]
    simp
  · rw [h.pushed]
    exact nil_prefix
  · rw [h.wnd]
    simp

theorem Sess.RxInv.of_run (h : s.RxInv S irs W) {G : Sess → Ev → Prop}
    (hG : ∀ s e, G s e → s.conn.pushed.length ≤ S.length → NearSliceEv S irs s e) {evs : List Ev}
    (hrun : Run (guard G Sess.Step) s evs s') : s'.RxInv S irs W :=
  hrun.inv (fun _ _ _ hi hr => hi.step (hG _ _ hr.1) hr.2) h

/-- No step of a live connection is stuck; above all, `tcp_send` returns. -/
theorem Sess.Read.step_isSome {lr lt : List Nat} (h : s.Read lr lt) (hf : s.freed = false) (e : Ev) :
    (s.step e).isSome := by
  cases e with
  | seg | recv | close => simp [Sess.step, hf]
  | send m flg =>
    obtain ⟨s1, lt', heq, -⟩ := h.send m flg hf
    rw [heq]
    rfl

/-- **The receive stream.**  While the connection takes text: what was pushed to `rxq` is the
first `rcv.nxt_seq - irs - 1` bytes of `S`; readers got it less what is queued; and `rcv.wnd`
is the default window less what is queued. -/
theorem recvStream (hS : irs.toNat + 1 + S.length + 4096 < 2 ^ 32)
    (h0 : s.Fresh irs sockCbDefaultWndSize) (hest : s.conn.scb.state = estab) {evs : List Ev}
    (hrun : Run (guard (fun _ => SliceEv S irs) Sess.Step) s evs s') (hf : s'.freed = false)
    (hst : s'.conn.scb.state.synced) : ∃ k lr, s'.conn.scb.rxq.Holds s'.conn.mbufs lr ∧ k ≤ S.length ∧
      s'.conn.scb.rcv.nxtSeq.toNat = irs.toNat + 1 + k ∧ s'.conn.pushed = S.take k ∧
      s'.copied ++ bytesOf s'.conn.mbufs lr = S.take k ∧
      s'.conn.scb.rcv.wnd.toNat + (bytesOf s'.conn.mbufs lr).length = 4096 ∧
      ∀ e, (s'.step e).isSome := by
  have hinv : s'.RxInv S irs sockCbDefaultWndSize :=
    (h0.rxInv S (.inr (.inl hest))).of_run (fun _ _ he hk => he.near (by omega) hk) hrun
  rcases hinv with h | ⟨-, lr, lt, h⟩ | ⟨hp, -⟩
  · rw [hf] at h
    cases h
  · have hk : s'.conn.pushed.length ≤ S.length := h.stream.length_le
    have hpre : s'.conn.pushed = S.take s'.conn.pushed.length := prefix_iff_eq_take.mp h.stream
    refine ⟨s'.conn.pushed.length, lr, h.queues.rx, hk, ?_, hpre, ?_, h.wnd, h.toRead.step_isSome hf⟩
    · have h1 : (irs + 1).toNat = irs.toNat + 1 := by
        exact Nat.mod_eq_of_lt (by simp; omega)
      have h2 : s'.conn.pushed.length < 2 ^ 32 := by omega
      rw [h.nxt, UInt32.toNat_add, h1, UInt32.toNat_ofNat_of_lt' h2, Nat.mod_eq_of_lt (by omega)]
    · rw [h.read]
      exact hpre
  · exact absurd hst (past_not_synced hp)

end

/-- A connection to port 80 of a peer whose first sequence number is 7. -/
def sampleSess : Sess :=
  { conn :=
      { scb := { allocSockCb 1 0x0a000002 2222 80 .tcp with
          state := estab
          snd := { initSeq := 0, unack := 1, nxtSeq := 1, wnd := 0, wl1 := 0, wl2 := 0 }
          rcv := { initSeq := 7, nxtSeq := 8, wnd := sockCbDefaultWndSize } }
        mbufs := fun _ => emptyMbuf, brk := 1, out := [], pushed := [] }
    freed := false, copied := [], written := [] }

/-- A segment of that peer with the bytes `10, 11, 12`. -/
def sampleText (seq : UInt32) (flg : UInt8) : Mbuf :=
  { emptyMbuf with
    head := 0, len := 3, buf := fun i => if i < 3 then UInt8.ofNat (10 + i) else 0
    tcphdr := { sport := 80, dport := 2222, seq := seq, ack := 1, off := 0x50, flg := flg, wnd := 0 } }

theorem sampleSess_fresh : sampleSess.Fresh 7 sockCbDefaultWndSize where
  live := rfl
  queues := ⟨[], ⟨.nil _, .nil _, by simp, by simp, by decide⟩⟩
  nxt := by decide
  wnd := rfl
  pushed := rfl
  copied := rfl

theorem sampleText_isSliceAt : IsSliceAt [10, 11, 12, 13] 7 0 (sampleText 8 tcpFlgAck) 23 :=
  ⟨by decide, 3, by decide, fun _ => ⟨by decide, by decide, by decide⟩⟩

/-- Three bytes arrive and two of them are read. -/
theorem recvStream_two_read : ∃ s', Run (guard (fun _ => SliceEv [10, 11, 12, 13] 7) Sess.Step) sampleSess
        [.seg (sampleText 8 tcpFlgAck) 23 0x0a000002, .recv false 2] s' ∧
      s'.freed = false ∧ s'.conn.scb.state.synced ∧ s'.copied = [10, 11] ∧
      ∃ k lr, s'.conn.scb.rxq.Holds s'.conn.mbufs lr ∧ k ≤ 4 ∧
        s'.conn.scb.rcv.nxtSeq.toNat = 7 + 1 + k ∧ s'.conn.pushed = [10, 11, 12, 13].take k ∧
        s'.copied ++ bytesOf s'.conn.mbufs lr = [10, 11, 12, 13].take k ∧
        s'.conn.scb.rcv.wnd.toNat + (bytesOf s'.conn.mbufs lr).length = 4096 ∧
        ∀ e, (s'.step e).isSome := by
  have hrun : Run (guard (fun _ => SliceEv [10, 11, 12, 13] 7) Sess.Step) sampleSess
      [.seg (sampleText 8 tcpFlgAck) 23 0x0a000002, .recv false 2] _ :=
    .cons ⟨⟨0, sampleText_isSliceAt⟩, rfl⟩ (.cons ⟨trivial, rfl⟩ (.nil _))
  refine ⟨_, hrun, by decide, Or.inl (by decide), by decide, ?_⟩
  exact recvStream (by decide) sampleSess_fresh rfl hrun (by decide) (Or.inl (by decide))

end InternetOs.Net
