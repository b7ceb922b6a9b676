import InternetOs.Net.TableLists

/-!
# Established blocks have seen the handshake

A block is in ESTAB only after a SYN of its peer, from which `rcv` was set, and after an
acknowledgement of its own SYN.  Two steps break this: `sockcopy` copies the state, so that
`sockaccept` on an established block makes an established block that has received nothing;
and a block in SYN_SENT without a remote port takes the SYN of any address.

    Run (guard HandshakeStep Stack.Step) socketInit ops n →
      (n.scbs p).state = estab → SynSeen … ∧ AckSeen …      (handshakeSafety)

The tables need not be well formed for this.  It is enough that their pointers never lead
from one table to the other (`Stack.Sorted`).
-/

namespace InternetOs.Net

open SockCbState Function Option Stack

/-! ## One block -/

/-- A SYN from the peer of the block was received, and `rcv` was set from it. -/
def SynSeen (hist : List RxRec) (scb : SockCb) : Prop :=
  ∃ r ∈ hist, tcpFlgIsset r.hdr.flg tcpFlgSyn = true ∧ r.raddr = scb.raddr ∧ r.dport = scb.dport ∧
    r.after.rcv.nxtSeq = r.hdr.seq + 1 ∧ scb.rcv.initSeq = r.hdr.seq

/-- An acknowledgement of the block's own SYN was received. -/
def AckSeen (hist : List RxRec) : Prop :=
  ∃ r ∈ hist, tcpFlgIsset r.hdr.flg tcpFlgAck = true ∧
    r.before.snd.initSeq < r.hdr.ack ∧ r.hdr.ack ≤ r.before.snd.nxtSeq

/-- The block agrees with the segments it has received.  In SYN_RCVD it has taken a SYN, or
it is a copy of another block and has sent nothing. -/
structure BlockOk (hist : List RxRec) (scb : SockCb) : Prop where
  init : scb.snd.initSeq = 0
  closed : scb.socktype ≠ .tcp → scb.state = closed
  synRcvd : scb.state = synRcvd → scb.snd.unack = 0 ∧ (scb.snd.nxtSeq = 0 ∨ SynSeen hist scb)
  estab : scb.state = estab → SynSeen hist scb ∧ AckSeen hist

section
variable {hist : List RxRec} {scb scb' : SockCb} {rx : RxRec} {c c' : Conn} {m : Nat} {len : UInt16}
  {raddr : UInt32} {dport : UInt16}

theorem SynSeen.append (h : SynSeen hist scb) (rx : RxRec) : SynSeen (hist ++ [rx]) scb := by
  obtain ⟨r, hr, h⟩ := h
  exact ⟨r, List.mem_append_left _ hr, h⟩

theorem AckSeen.append (h : AckSeen hist) (rx : RxRec) : AckSeen (hist ++ [rx]) := by
  obtain ⟨r, hr, h⟩ := h
  exact ⟨r, List.mem_append_left _ hr, h⟩

theorem SynSeen.congr (h : SynSeen hist scb) (hra : scb'.raddr = scb.raddr)
    (hdp : scb'.dport = scb.dport) (hri : scb'.rcv.initSeq = scb.rcv.initSeq) : SynSeen hist scb' := by
  unfold SynSeen
  rw [hra, hdp, hri]
  exact h

theorem BlockOk.append (h : BlockOk hist scb) (rx : RxRec) : BlockOk (hist ++ [rx]) scb :=
  ⟨h.init, h.closed, fun hs => ⟨(h.synRcvd hs).1, (h.synRcvd hs).2.imp_right fun h => h.append rx⟩,
    fun hs => ⟨(h.estab hs).1.append rx, (h.estab hs).2.append rx⟩⟩

/-- Only these fields matter; of `snd` only `init_seq` once the block has left SYN_RCVD. -/
theorem BlockOk.congr (h : BlockOk hist scb) (hi : scb'.snd.initSeq = scb.snd.initSeq)
    (ht : scb'.socktype = scb.socktype) (hst : scb'.state = scb.state)
    (hra : scb'.raddr = scb.raddr) (hdp : scb'.dport = scb.dport) (hri : scb'.rcv.initSeq = scb.rcv.initSeq)
    (hsnd : scb.state = .synRcvd → scb'.snd = scb.snd) : BlockOk hist scb' := by
  refine ⟨hi.trans h.init, ?_, ?_, ?_⟩
  · rw [ht, hst]
    exact h.closed
  · intro hs
    rw [hst] at hs
    rw [hsnd hs]
    exact ⟨(h.synRcvd hs).1, (h.synRcvd hs).2.imp_right fun h => h.congr hra hdp hri⟩
  · intro hs
    rw [hst] at hs
    exact ⟨(h.estab hs).1.congr hra hdp hri, (h.estab hs).2⟩

theorem BlockOk.of_state (hi : scb.snd.initSeq = 0) (ht : scb.socktype = .tcp)
    (h1 : scb.state ≠ .synRcvd) (h2 : scb.state ≠ .estab) : BlockOk hist scb :=
  ⟨hi, fun h => absurd ht h, fun h => absurd h h1, fun h => absurd h h2⟩

theorem BlockOk.tcp (h : BlockOk hist scb) (hs : scb.state ≠ .closed) : scb.socktype = .tcp := by
  by_contra ht
  exact hs (h.closed ht)

/-! ### User calls -/

theorem BlockOk.flush (fuel : Nat) : ∀ c c' : Conn, BlockOk hist c.scb → c.scb.state = .estab →
    tcpFlush fuel c = some c' → BlockOk hist c'.scb := by
  induction fuel with
  | zero =>
    intro c c' _ _ hf
    cases hf
  | succ fuel ih =>
    intro c c' h hs hf
    have hno : c.scb.state ≠ .synRcvd := by rw [hs]; decide
    simp only [tcpFlush] at hf
    split at hf
    · cases hf
      exact h.congr rfl rfl rfl rfl rfl rfl fun h' => absurd h' hno
    · refine ih _ _ ?_ ?_ hf
      · exact h.congr rfl rfl rfl rfl rfl rfl fun h' => absurd h' hno
      · exact hs

theorem BlockOk.send (h : BlockOk hist c.scb) {flg : UInt8} {r : Conn × Int}
    (hs : tcpSend c m flg = some r) : BlockOk hist r.1.scb := by
  unfold tcpSend at hs
  split at hs
  · cases hs
    exact h
  split at hs
  · next hst =>
    split at hs
    · cases hs
      exact .of_state rfl (h.tcp (by rw [hst]; decide)) (by simp) (by simp)
    · cases hs
      exact h
  · cases hs
    exact h.congr rfl rfl rfl rfl rfl rfl fun _ => rfl
  · cases hs
    exact h.congr rfl rfl rfl rfl rfl rfl fun _ => rfl
  · next hst =>
    obtain ⟨c1, hc, rfl⟩ := map_eq_some_iff.mp hs
    refine BlockOk.flush _ _ _ ?_ ?_ hc
    · exact h.congr rfl rfl rfl rfl rfl rfl fun _ => rfl
    · exact hst
  · cases hs
    exact h

theorem BlockOk.close (h : BlockOk hist c.scb) : BlockOk hist (tcpClose c).1.scb := by
  obtain ⟨c', v, hclose, hout⟩ := tcpClose_outcome c
  rw [hclose]
  cases hout with
  | done => exact h
  | fin st hst =>
    have htcp : c.scb.socktype = .tcp := by
      refine h.tcp ?_
      rcases hst with ⟨hst | hst, -⟩ | ⟨hst, -⟩ <;> rw [hst] <;> decide
    refine .of_state h.init htcp ?_ ?_ <;> rcases hst with ⟨-, rfl⟩ | ⟨-, rfl⟩ <;> simp [finScb]
  | queued hst => exact h.congr rfl rfl rfl rfl rfl rfl fun _ => rfl

/-! ### Segments -/

theorem Conn.acked_synRcvd (hs : c.scb.state = .synRcvd) :
    (c.acked m).1 = c.scb ∨ ((c.acked m).1 = { c.scb with state := .estab } ∧
      tcpFlgIsset (c.hdr m).flg tcpFlgAck = true ∧ isValidNxtack c.scb (c.hdr m).ack = true) := by
  unfold Conn.acked checkAck
  split
  · exact .inl rfl
  · next hf =>
    rw [hs]
    dsimp only
    split
    · next hv => exact .inr ⟨rfl, by simpa using hf, hv⟩
    · exact .inl rfl

theorem BlockOk.acked (h : BlockOk hist c.scb) (h1 : c.scb.state ≠ .closed)
    (hh : rx.hdr = c.hdr m) (hb : rx.before = c.scb) : BlockOk (hist ++ [rx]) (c.acked m).1 := by
  by_cases hs : c.scb.state = .synRcvd
  · rcases c.acked_synRcvd (m := m) hs with heq | ⟨heq, hf, hv⟩
    · rw [heq]
      exact h.append rx
    · -- the acknowledgement lies after `snd.unack = 0` and not after `snd.nxt_seq`
      simp only [isValidNxtack, Bool.and_eq_true, decide_eq_true_eq] at hv
      obtain ⟨hu, hn⟩ := h.synRcvd hs
      have hn0 : c.scb.snd.nxtSeq ≠ 0 := by
        intro h0
        rw [h0] at hv
        exact absurd hv.2 (UInt32.not_le.mpr (UInt32.lt_of_le_of_lt UInt32.zero_le hv.1))
      rw [heq]
      refine ⟨h.init, fun ht => absurd (h.tcp h1) ht, fun hs => (by cases hs), fun _ => ⟨?_, ?_⟩⟩
      · exact ((hn.resolve_left hn0).append rx).congr rfl rfl rfl
      · refine ⟨rx, List.mem_append_right _ List.mem_cons_self, ?_, ?_, ?_⟩
        · rw [hh]
          exact hf
        · rw [hh, hb, h.init, ← hu]
          exact hv.1
        · rw [hh, hb]
          exact hv.2
  · obtain ⟨st, snd, heq, hi, -⟩ := c.acked_frame m
    have hout := c.acked_outcome m
    have hst : (c.acked m).1.state = c.scb.state ∨
        ((c.acked m).1.state ≠ .synRcvd ∧ (c.acked m).1.state ≠ .estab) := by
      generalize (c.acked m).1.state = st' at hout ⊢
      generalize (c.acked m).2 = op at hout
      cases hout with
      | stay => exact .inl rfl
      | estab hs' => exact absurd hs' hs
      | finWait2 | closing | lastAck => exact .inr ⟨by decide, by decide⟩
    rw [heq] at hst ⊢
    rcases hst with hst | ⟨hst, hst'⟩
    · exact (h.append rx).congr hi rfl hst rfl rfl rfl fun h' => absurd h' hs
    · exact .of_state (hi.trans h.init) (h.tcp h1) hst hst'

theorem checkRst_state {flg : UInt8} (hf : tcpFlgIsset flg tcpFlgRst = true) (h3 : scb.state ≠ .synSent) :
    (checkRst scb flg).1.state ≠ .synRcvd ∧ (checkRst scb flg).1.state ≠ .estab := by
  unfold checkRst
  rw [if_pos hf]
  cases hs : scb.state with
  | synSent => exact absurd hs h3
  | _ => simp [hs]

theorem BlockOk.core {op : TcpOp} (h : BlockOk hist c.scb) (h1 : c.scb.state ≠ .closed)
    (h3 : c.scb.state ≠ .synSent) (hh : rx.hdr = c.hdr m) (hb : rx.before = c.scb)
    (hout : CoreOutcome c m len c' op) : BlockOk (hist ++ [rx]) c'.scb := by
  have hacked := h.acked h1 hh hb
  cases hout with
  | badSeq _ hc | syn _ hc => exact hc.scb ▸ h.append rx
  | rst hf hc =>
    obtain ⟨st, hst⟩ := checkRst_frame c.scb (c.hdr m).flg
    have hno := checkRst_state hf h3
    rw [hc.scb]
    rw [hst] at hno ⊢
    exact .of_state h.init (h.tcp h1) hno.1 hno.2
  | ackClose _ _ hc | ackStop _ _ _ hc | noText _ _ _ hc | drop _ _ _ hc => exact hc.scb ▸ hacked
  | text hv ha hs ht hscb =>
    rw [hscb]
    exact hacked.congr rfl rfl rfl rfl rfl rfl fun _ => rfl
  | fin hv ha hs ht hf hc =>
    rw [hc.scb]
    exact .of_state hacked.init (hacked.tcp (by rw [hs]; decide)) (by simp) (by simp)
  | finClose hv ha hs ht hf hc =>
    rw [hc.scb]
    exact hacked.congr rfl rfl rfl rfl rfl rfl fun _ => rfl

/-- **One arriving segment**, put on record, keeps the block in agreement with the record. -/
theorem BlockOk.recv (m : Nat) (len : UInt16) (c : Conn) (h : BlockOk hist c.scb)
    (hpeer : c.scb.state = .synSent → raddr = c.scb.raddr ∧ dport = c.scb.dport) :
    BlockOk (hist ++ [{ raddr := raddr, dport := dport, hdr := c.hdr m, before := c.scb,
                        after := (tcpRecvSwitch c m len raddr dport).1.scb }])
      (tcpRecvSwitch c m len raddr dport).1.scb := by
  have hout := tcpRecvSwitch_outcome c m len raddr dport
  generalize (tcpRecvSwitch c m len raddr dport).1 = c' at hout ⊢
  generalize (tcpRecvSwitch c m len raddr dport).2 = b at hout
  have hlast : ∀ x : RxRec, x ∈ hist ++ [x] := fun x => List.mem_append_right _ List.mem_cons_self
  cases hout with
  | closed hs => exact h.append _
  | listen hs hl =>
    cases hl with
    | stay hc =>
      rw [hc.scb]
      exact h.append _
    | syn hf hc =>
      rw [hc.scb]
      exact ⟨rfl, fun ht => absurd (h.tcp (by rw [hs]; decide)) ht,
        fun _ => ⟨rfl, .inr ⟨_, hlast _, hf, rfl, rfl, rfl, rfl⟩⟩, fun h => (by cases h)⟩
  | synSent hs hl =>
    have htcp := h.tcp (by rw [hs]; decide)
    cases hl with
    | stay hc =>
      rw [hc.scb]
      exact h.append _
    | badAck hc =>
      rw [hc.scb]
      exact .of_state h.init htcp (by simp [hs]) (by simp [hs])
    | synAck hf ha hlo hhi hc =>
      obtain ⟨hra, hdp⟩ := hpeer hs
      rw [hc.scb]
      exact ⟨h.init, fun ht => absurd htcp ht, fun h => (by cases h),
        fun _ => ⟨⟨_, hlast _, hf, hra, hdp, rfl, rfl⟩, ⟨_, hlast _, ha, hlo, hhi⟩⟩⟩
  | core h1 h2 h3 hcore => exact h.core h1 h3 rfl rfl hcore

end

/-! ## All blocks -/

/-- The pointer `q` is null or leads to a block of the table `t`. -/
def Stack.InTab (n : Stack) (t : Tab) (q : Nat) : Prop :=
  q = 0 ∨ q < n.brkScb ∧ (n.scbs q).socktype.tab = t

/-- No pointer leads from one table to the other. -/
structure Stack.Sorted (n : Stack) : Prop where
  fresh : ∀ p, n.alive p = true → p < n.brkScb
  head : ∀ t i, n.InTab t (n.table t i)
  next : ∀ p, n.InTab (n.scbs p).socktype.tab (n.next p)
  prev : ∀ p, n.InTab (n.scbs p).socktype.tab (n.prev p)

section
variable {n n' : Stack} {t : Tab} {p q : Nat}

theorem Stack.InTab.mono (h : n.InTab t q) (hb : n.brkScb ≤ n'.brkScb)
    (ht : q < n.brkScb → (n'.scbs q).socktype = (n.scbs q).socktype) : n'.InTab t q :=
  h.imp_right fun h => ⟨Nat.lt_of_lt_of_le h.1 hb, by rw [ht h.1]; exact h.2⟩

theorem Stack.InTab.relinked (h : n.InTab t q) (hr : n.Relinked n') : n'.InTab t q :=
  h.mono (Nat.le_of_eq hr.brkScb.symm) fun _ => hr.socktype q

theorem Stack.Sorted.of_eq (h : n.Sorted) (hs : n'.scbs = n.scbs) (ha : n'.alive = n.alive)
    (hb : n'.brkScb = n.brkScb) (ht : n'.table = n.table) : n'.Sorted := by
  have hin : ∀ {t q}, n.InTab t q → n'.InTab t q := fun h =>
    h.mono (le_of_eq hb.symm) fun _ => by rw [hs]
  refine ⟨fun p => ?_, fun t i => ?_, fun p => ?_, fun p => ?_⟩
  · rw [ha, hb]
    exact h.fresh p
  · rw [ht]
    exact hin (h.head t i)
  · unfold Stack.next
    rw [hs]
    exact hin (h.next p)
  · unfold Stack.prev
    rw [hs]
    exact hin (h.prev p)

theorem Stack.Sorted.setScb (h : n.Sorted) {scb : SockCb}
    (ht : scb.socktype = (n.scbs p).socktype) (hn : n.InTab scb.socktype.tab scb.next)
    (hp : n.InTab scb.socktype.tab scb.prev) : (n.setScb p scb).Sorted := by
  have hty : ∀ q, ((n.setScb p scb).scbs q).socktype = (n.scbs q).socktype := by
    intro q
    by_cases hq : q = p
    · subst hq
      simpa using ht
    · simp [hq]
  have hin : ∀ {t q}, n.InTab t q → (n.setScb p scb).InTab t q := fun h =>
    h.mono (le_rfl) fun _ => hty _
  refine ⟨h.fresh, fun t i => hin (h.head t i), fun q => ?_, fun q => ?_⟩
  · by_cases hq : q = p
    · subst hq
      simpa [Stack.next] using hin hn
    · simpa [Stack.next, hq] using hin (h.next q)
  · by_cases hq : q = p
    · subst hq
      simpa [Stack.prev] using hin hp
    · simpa [Stack.prev, hq] using hin (h.prev q)

theorem Stack.Sorted.setScbNext (h : n.Sorted) (hq : n.InTab (n.scbs p).socktype.tab q) : (n.setScbNext p q).Sorted :=
  h.setScb rfl hq (h.prev p)

theorem Stack.Sorted.setScbPrev (h : n.Sorted) (hq : n.InTab (n.scbs p).socktype.tab q) : (n.setScbPrev p q).Sorted :=
  h.setScb rfl (h.next p) hq

theorem Stack.Sorted.setHead (h : n.Sorted) {i : Nat} (hq : n.InTab t q) : (n.setHead t i q).Sorted := by
  refine ⟨h.fresh, fun t' i' => ?_, h.next, h.prev⟩
  show n.InTab t' ((n.setHead t i q).table t' i')
  unfold Stack.setHead
  by_cases ht : t' = t
  · subst ht
    by_cases hi : i' = i
    · subst hi
      simpa using hq
    · simpa [hi] using h.head t' i'
  · simpa [ht] using h.head t' i'

theorem Stack.Sorted.alloc (h : n.Sorted) (raddr : UInt32) (sport dport : UInt16) (ty : SockType) :
    (n.alloc raddr sport dport ty).1.Sorted := by
  have hother : ∀ q, q ≠ n.brkScb → (n.alloc raddr sport dport ty).1.scbs q = n.scbs q := by
    intro q hq
    simp [Stack.alloc, hq]
  have hself : (n.alloc raddr sport dport ty).1.scbs n.brkScb =
      allocSockCb n.brkScb raddr sport dport ty := by simp [Stack.alloc]
  have hin : ∀ {t q}, n.InTab t q → (n.alloc raddr sport dport ty).1.InTab t q := fun h =>
    h.mono (Nat.le_succ _) fun hlt => by rw [hother _ (ne_of_lt hlt)]
  refine ⟨fun p hp => ?_, fun t i => hin (h.head t i), fun p => ?_, fun p => ?_⟩
  · show p < n.brkScb + 1
    by_cases hq : p = n.brkScb
    · omega
    · have := h.fresh p (by simpa [Stack.alloc, hq] using hp)
      omega
  · unfold Stack.next
    by_cases hq : p = n.brkScb
    · rw [hq, hself]
      exact .inl rfl
    · rw [hother p hq]
      exact hin (h.next p)
  · unfold Stack.prev
    by_cases hq : p = n.brkScb
    · rw [hq, hself]
      exact .inl rfl
    · rw [hother p hq]
      exact hin (h.prev p)

/-! ### Walks and links -/

theorem Stack.Sorted.lastScb (h : n.Sorted) {fuel r : Nat} (hr : n.lastScb fuel q = some r)
    (hq : q ≠ 0) (hin : n.InTab t q) : n.alive r = true ∧ (n.scbs r).socktype.tab = t := by
  induction fuel generalizing q with
  | zero => cases hr
  | succ fuel ih =>
    have htab : (n.scbs q).socktype.tab = t := (hin.resolve_left hq).2
    unfold lastScb at hr
    split at hr
    · next hal =>
      split at hr
      · cases hr
        exact ⟨hal, htab⟩
      · next h0 => exact ih hr h0 (htab ▸ h.next q)
    · cases hr

theorem Stack.Sorted.findScb (h : n.Sorted) {sport : UInt16} {raddr : UInt32} {dport : UInt16}
    {fuel r : Nat} (hr : n.findScb sport raddr dport fuel q = some r) (h0 : r ≠ 0) (hin : n.InTab t q) :
    (n.scbs r).socktype.tab = t ∧ (n.scbs r).takes sport raddr dport = true := by
  induction fuel generalizing q with
  | zero => cases hr
  | succ fuel ih =>
    unfold findScb at hr
    split at hr
    · cases hr
      exact absurd rfl h0
    next hq =>
    have htab : (n.scbs q).socktype.tab = t := (hin.resolve_left hq).2
    split at hr
    · split at hr
      · next ht =>
        cases hr
        exact ⟨htab, ht⟩
      · exact ih hr (htab ▸ h.next q)
    · cases hr

theorem addSockCb_sorted (h : n.Sorted) (hp : p < n.brkScb) (hs : addSockCb n p = some n') :
    n'.Sorted ∧ n.Relinked n' := by
  have hself : ∀ {m : Stack}, n.Relinked m → m.InTab (n.scbs p).socktype.tab p := fun hr =>
    InTab.relinked (.inr ⟨hp, rfl⟩) hr
  unfold addSockCb at hs
  dsimp only at hs
  split at hs
  · cases hs
    have h1 := h.setHead (i := (n.scbs p).bucket) (hself (.refl n))
    exact ⟨(h1.setScbPrev (.inl rfl)).setScbNext (.inl rfl), (relinked_setHead _ _ _ _).trans
      ((relinked_setScbPrev _ p 0).trans (relinked_setScbNext _ p 0))⟩
  · next h0 =>
    obtain ⟨tl, htl, rfl⟩ := map_eq_some_iff.mp hs
    obtain ⟨hal, htab⟩ := h.lastScb htl h0 (h.head _ _)
    have hr1 := relinked_setScbNext n tl p
    have h1 : (n.setScbNext tl p).Sorted := h.setScbNext (htab ▸ hself (.refl n))
    have htl' : (n.setScbNext tl p).InTab ((n.setScbNext tl p).scbs p).socktype.tab tl := by
      rw [hr1.socktype]
      exact InTab.relinked (.inr ⟨h.fresh tl hal, htab⟩) hr1
    exact ⟨(h1.setScbPrev htl').setScbNext (.inl rfl),
      hr1.trans ((relinked_setScbPrev _ p tl).trans (relinked_setScbNext _ p 0))⟩

theorem unlinkScb_sorted (h : n.Sorted) (hs : unlinkScb n p = some n') : n'.Sorted ∧ n.Relinked n' := by
  unfold unlinkScb at hs
  dsimp only at hs
  split at hs
  · cases hs
  -- the first write, if there is a next block
  obtain ⟨n1, hn1, h1, hr1⟩ : ∃ n1,
      (if (n.scbs p).next ≠ 0 then n.setScbPrev (n.scbs p).next (n.scbs p).prev else n) = n1 ∧
      n1.Sorted ∧ n.Relinked n1 := by
    by_cases h0 : (n.scbs p).next = 0
    · exact ⟨n, if_neg (not_not.mpr h0), h, .refl n⟩
    · refine ⟨_, if_pos h0, h.setScbPrev ?_, relinked_setScbPrev _ _ _⟩
      have htab : (n.scbs (n.scbs p).next).socktype.tab = _ := ((h.next p).resolve_left h0).2
      rw [htab]
      exact h.prev p
  rw [hn1] at hs
  split at hs
  · next h0 =>
    split at hs
    · cases hs
      refine ⟨h1.setScbNext ?_, hr1.trans (relinked_setScbNext _ _ _)⟩
      have htab : (n1.scbs (n1.scbs p).prev).socktype.tab = _ := ((h1.prev p).resolve_left h0).2
      rw [htab]
      exact h1.next p
    · cases hs
  · cases hs
    refine ⟨h1.setHead ?_, hr1.trans (relinked_setHead _ _ _ _)⟩
    rw [← hr1.socktype]
    exact h1.next p

theorem freeSockCb_sorted (h : n.Sorted) (hs : freeSockCb n p = some n') :
    n'.Sorted ∧ (∀ q, (n.scbs q).SameButLinks (n'.scbs q)) ∧ n'.hist = n.hist := by
  obtain ⟨m, hm, rfl⟩ := map_eq_some_iff.mp hs
  have hrel : (releaseSport n (n.scbs p).sport).Sorted := h.of_eq rfl rfl rfl rfl
  obtain ⟨h', hr⟩ : m.Sorted ∧ (releaseSport n (n.scbs p).sport).Relinked m := by
    split at hm
    · exact unlinkScb_sorted hrel hm
    · cases hm
      exact ⟨hrel, .refl _⟩
  exact ⟨⟨fun q hq => h'.fresh q (update_false_iff.mp hq).2, h'.head, h'.next, h'.prev⟩, hr.scbs, hr.hist⟩

/-! ### The invariant -/

/-- Every block agrees with the segments it has received. -/
structure Stack.Agrees (n : Stack) : Prop extends n.Sorted where
  blocks : ∀ p, BlockOk (n.hist p) (n.scbs p)

theorem BlockOk.sameButLinks {hist : List RxRec} {a b : SockCb} (h : BlockOk hist a)
    (hs : a.SameButLinks b) : BlockOk hist b := by
  rw [hs]
  exact h.congr rfl rfl rfl rfl rfl rfl fun _ => rfl

theorem Stack.Agrees.of_eq (h : n.Agrees) (hs : n'.scbs = n.scbs) (ha : n'.alive = n.alive)
    (hb : n'.brkScb = n.brkScb) (ht : n'.table = n.table) (hh : n'.hist = n.hist) : n'.Agrees :=
  ⟨h.toSorted.of_eq hs ha hb ht, by rw [hs, hh]; exact h.blocks⟩

theorem Stack.Agrees.setScb (h : n.Agrees) {scb : SockCb} (hl : (n.scbs p).socktype = scb.socktype ∧
    (n.scbs p).next = scb.next ∧ (n.scbs p).prev = scb.prev) (hb : BlockOk (n.hist p) scb) :
    (n.setScb p scb).Agrees := by
  obtain ⟨ht, hn, hp⟩ := hl
  refine ⟨h.toSorted.setScb ht.symm ?_ ?_, fun q => ?_⟩
  · rw [← ht, ← hn]
    exact h.next p
  · rw [← ht, ← hp]
    exact h.prev p
  · by_cases hq : q = p
    · subst hq
      simpa [Stack.setScb] using hb
    · simpa [Stack.setScb, hq] using h.blocks q

theorem Stack.Agrees.putConn (h : n.Agrees) {c : Conn} (hl : (n.scbs p).SameLinks c.scb)
    (hb : BlockOk (n.hist p) c.scb) : (n.putConn p c).Agrees :=
  (h.setScb ⟨hl.socktype.symm, hl.next.symm, hl.prev.symm⟩ hb).of_eq rfl rfl rfl rfl rfl

theorem Stack.Agrees.record (h : n.Agrees) {c : Conn} {rx : RxRec} (hl : (n.scbs p).SameLinks c.scb)
    (hb : BlockOk (n.hist p ++ [rx]) c.scb) :
    Agrees { n.putConn p c with hist := update n.hist p (n.hist p ++ [rx]) } := by
  have hs : (n.setScb p c.scb).Sorted := by
    refine h.toSorted.setScb hl.socktype ?_ ?_
    · rw [hl.socktype, hl.next]
      exact h.next p
    · rw [hl.socktype, hl.prev]
      exact h.prev p
  refine ⟨hs.of_eq rfl rfl rfl rfl, fun q => ?_⟩
  by_cases hq : q = p
  · subst hq
    simpa using hb
  · simpa [hq] using h.blocks q

theorem Stack.Agrees.alloc (h : n.Agrees) (raddr : UInt32) (sport dport : UInt16) (ty : SockType) :
    (n.alloc raddr sport dport ty).1.Agrees := by
  refine ⟨h.toSorted.alloc raddr sport dport ty, fun q => ?_⟩
  by_cases hq : q = n.brkScb
  · subst hq
    simp only [Stack.alloc, update_self]
    exact ⟨rfl, fun _ => rfl, fun h => (by cases h), fun h => (by cases h)⟩
  · simpa [Stack.alloc, hq] using h.blocks q

theorem addSockCb_agrees (h : n.Agrees) (hp : p < n.brkScb) (hs : addSockCb n p = some n') : n'.Agrees := by
  obtain ⟨h', hr⟩ := addSockCb_sorted h.toSorted hp hs
  exact ⟨h', fun q => by rw [hr.hist]; exact (h.blocks q).sameButLinks (hr.scbs q)⟩

theorem freeSockCb_agrees (h : n.Agrees) (hs : freeSockCb n p = some n') : n'.Agrees := by
  obtain ⟨h', hr, hh⟩ := freeSockCb_sorted h.toSorted hs
  exact ⟨h', fun q => by rw [hh]; exact (h.blocks q).sameButLinks (hr q)⟩

/-! ## Steps -/

/-- The steps that keep the agreement: `sockaccept` copies no established block, and a block
in SYN_SENT without a remote port takes segments of its own peer only. -/
def HandshakeStep (n : Stack) : Op → Prop
  | .sockaccept p => (n.scbs p).acptScb = 0 → (n.scbs p).state ≠ estab
  | .tcpRecv m _ raddr => ∀ p, getSockCb n .tcp m.tcphdr.dport raddr m.tcphdr.sport = some p →
      (n.scbs p).state = synSent → (n.scbs p).dport = 0 → raddr = (n.scbs p).raddr
  | _ => True

section
variable (h : n.Agrees)
include h

theorem socklisten_agrees {sport : UInt16} : (socklisten n p sport).Agrees := by
  have h1 : (getSpecifiedSport n sport).1.Agrees := by
    unfold getSpecifiedSport
    split
    · exact h
    · exact h.of_eq rfl rfl rfl rfl rfl
  have hb := h1.blocks p
  unfold socklisten
  dsimp only
  split
  · next ht => exact h1.setScb ⟨rfl, rfl, rfl⟩ (.of_state hb.init ht (by simp [tcpListen]) (by simp [tcpListen]))
  · exact h1.setScb ⟨rfl, rfl, rfl⟩ (hb.congr rfl rfl rfl rfl rfl rfl fun _ => rfl)

theorem sockaccept_agrees (hg : HandshakeStep n (.sockaccept p)) (hs : sockaccept n p = some n') : n'.Agrees := by
  unfold sockaccept at hs
  split at hs
  · split at hs
    · cases hs
      exact h
    · cases hs
  · next h0 =>
    have hest := hg (not_not.mp h0)
    have h1 := h.alloc (n.scbs p).raddr (n.scbs p).sport (n.scbs p).dport (n.scbs p).socktype
    -- the copy has no segments on record; it is not established, and in SYN_RCVD has sent nothing
    have h2 : (sockcopy n p).1.Agrees := by
      refine h1.setScb ⟨rfl, rfl, rfl⟩ ⟨?_, ?_, ?_, ?_⟩
      · simp [Stack.alloc, allocSockCb]
      · simpa [Stack.alloc, allocSockCb] using (h.blocks p).closed
      · intro _
        simp [Stack.alloc, allocSockCb]
      · exact fun hs => absurd hs hest
    have h3 : ((sockcopy n p).1.setScb p
        { (sockcopy n p).1.scbs p with acptScb := (sockcopy n p).2 }).Agrees :=
      h2.setScb ⟨rfl, rfl, rfl⟩ ((h2.blocks p).congr rfl rfl rfl rfl rfl rfl fun _ => rfl)
    exact addSockCb_agrees h3 (Nat.lt_succ_self _) hs

theorem sockconnect_agrees (hp : n.alive p = true) {raddr : UInt32} {dport : UInt16}
    (hs : sockconnect n p raddr dport = some n') : n'.Agrees := by
  obtain ⟨r, hr, hs⟩ := bind_eq_some_iff.mp hs
  obtain ⟨n1, hadd, hs⟩ := bind_eq_some_iff.mp hs
  obtain ⟨hscbs, hal, hbrk, htab, hhist⟩ := getNewSport_frame hr
  have h1 : r.1.Agrees := h.of_eq hscbs hal hbrk htab hhist
  have hp1 : p < r.1.brkScb := h1.fresh p (by rw [hal]; exact hp)
  have hset : (r.1.setScb p { r.1.scbs p with raddr := raddr, sport := r.2, dport := dport }).Sorted :=
    h1.toSorted.setScb rfl (h1.next p) (h1.prev p)
  obtain ⟨h2, hrel⟩ := addSockCb_sorted hset hp1 hadd
  -- the block itself, as it is linked
  have hself : (n1.scbs p).snd = (n.scbs p).snd ∧ (n1.scbs p).socktype = (n.scbs p).socktype ∧
      (n1.scbs p).state = (n.scbs p).state := by
    rw [hrel.scbs p]
    simp [hscbs]
  have hother : ∀ q, q ≠ p → BlockOk (n1.hist q) (n1.scbs q) := by
    intro q hq
    refine BlockOk.sameButLinks ?_ (hrel.scbs q)
    rw [hrel.hist]
    simpa [Stack.setScb, hq] using h1.blocks q
  obtain ⟨hsnd, hty, hst⟩ := hself
  split at hs
  · next htcp =>
    obtain ⟨c, hc, rfl⟩ := map_eq_some_iff.mp hs
    unfold tcpConnect at hc
    split at hc
    · cases hc
    · cases hc
      refine ⟨(h2.setScb ?_ ?_ ?_).of_eq rfl rfl rfl rfl, fun q => ?_⟩
      · rfl
      · exact h2.next p
      · exact h2.prev p
      · by_cases hq : q = p
        · subst hq
          simp only [Stack.putConn, Stack.setScb, update_self]
          refine .of_state ?_ htcp (by simp) (by simp)
          show (n1.scbs q).snd.initSeq = 0
          rw [hsnd]
          exact (h.blocks q).init
        · simpa [Stack.putConn, Stack.setScb, hq] using hother q hq
  · next htcp =>
    rw [← some.inj hs]
    refine ⟨h2, fun q => ?_⟩
    by_cases hq : q = p
    · subst hq
      have hcl : (n1.scbs q).state = closed := by
        rw [hst]
        exact (h.blocks q).closed (by rw [← hty]; exact htcp)
      refine ⟨by rw [hsnd]; exact (h.blocks q).init, fun _ => hcl, fun hs => ?_, fun hs => ?_⟩
      · rw [hcl] at hs
        cases hs
      · rw [hcl] at hs
        cases hs
    · exact hother q hq

theorem socksend_agrees {m : Mbuf} {flg : UInt8} (hs : socksend n p m flg = some n') : n'.Agrees := by
  unfold socksend at hs
  split at hs
  · obtain ⟨r, hr, rfl⟩ := map_eq_some_iff.mp hs
    have hl := (tcpSend_links hr).1
    exact h.putConn ⟨hl.socktype, hl.bucket, hl.prev, hl.next⟩ (BlockOk.send (h.blocks p) hr)
  · cases hs
    exact h

theorem sockclose_agrees (hs : sockclose n p = some n') : n'.Agrees := by
  have h1 : (n.setScb p { n.scbs p with f := 0 }).Agrees :=
    h.setScb ⟨rfl, rfl, rfl⟩ ((h.blocks p).congr rfl rfl rfl rfl rfl rfl fun _ => rfl)
  unfold sockclose at hs
  dsimp only at hs
  split at hs
  · have hl := (tcpClose_links ((n.setScb p { n.scbs p with f := 0 }).conn p)).1
    have h2 := h1.putConn hl (BlockOk.close (h1.blocks p))
    split at hs
    · exact freeSockCb_agrees h2 hs
    · cases hs
      exact h2
  · exact freeSockCb_agrees h1 hs

theorem tcpRecv_agrees {m : Mbuf} {len : UInt16} {raddr : UInt32}
    (hg : HandshakeStep n (.tcpRecv m len raddr)) (hs : tcpRecv n m len raddr = some n') : n'.Agrees := by
  obtain ⟨r, hfind, hs⟩ := bind_eq_some_iff.mp hs
  split at hs
  · cases hs
    exact h
  next h0 =>
  split at hs
  · cases hs
    exact h
  next hw =>
  obtain ⟨-, htakes⟩ := h.findScb hfind h0 (h.head _ _)
  -- a segment that gets here in SYN_SENT is from the block's own peer
  have hpeer : (n.scbs r).state = synSent → raddr = (n.scbs r).raddr ∧ m.tcphdr.sport = (n.scbs r).dport := by
    intro hst
    have hdp : (n.scbs r).dport = m.tcphdr.sport := by simpa [wrongPeer, hst] using hw
    refine ⟨?_, hdp.symm⟩
    by_cases hd : (n.scbs r).dport = 0
    · exact hg r hfind hst hd
    · simp only [SockCb.takes, Bool.and_eq_true, Bool.or_eq_true, beq_iff_eq] at htakes
      exact (htakes.2.resolve_left hd).2.symm
  have hb := BlockOk.recv n.brk len ((n.conn r).newMbuf m) (h.blocks r) hpeer
  have hl := (tcpRecvSwitch_links ((n.conn r).newMbuf m) n.brk len raddr m.tcphdr.sport).1
  rw [show ((n.conn r).newMbuf m).hdr n.brk = m.tcphdr from Conn.newMbuf_hdr _ _] at hb
  unfold tcpRecvFound at hs
  dsimp only at hs
  split at hs
  · exact freeSockCb_agrees (h.record hl hb) hs
  · cases hs
    exact h.record hl hb

theorem udpRecv_agrees {m : Mbuf} {len : UInt16} {raddr : UInt32} {hdr : UdpHdr}
    (hs : udpRecv n m len raddr hdr = some n') : n'.Agrees := by
  unfold udpRecv at hs
  split at hs
  · cases hs
    exact h
  split at hs
  · cases hs
    exact h
  obtain ⟨r, hfind, rfl⟩ := map_eq_some_iff.mp hs
  split
  · exact h
  next h0 =>
  -- the block is of the UDP table, hence closed
  obtain ⟨htab, -⟩ := h.findScb hfind h0 (h.head _ _)
  have hcl : (n.scbs r).state = closed := by
    refine (h.blocks r).closed fun ht => ?_
    rw [ht] at htab
    cases htab
  refine h.putConn ?_ ?_
  · simp only [pushToScbRxq, conn, Stack.setScb, update_self]
    split <;> exact ⟨rfl, rfl, rfl, rfl⟩
  · simp only [conn, Stack.setScb, update_self]
    have hb := h.blocks r
    split
    all_goals
      exact ⟨hb.init, fun _ => hcl, fun hs => absurd (hcl.symm.trans hs) (by decide),
        fun hs => absurd (hcl.symm.trans hs) (by decide)⟩

theorem Stack.Agrees.step {op : Op} (hs : guard HandshakeStep Step n op n') : n'.Agrees := by
  obtain ⟨hg, hs⟩ := hs
  cases op with
  | sockalloc ty =>
    cases hs
    exact h.alloc 0 0 0 ty
  | socklisten p sport =>
    obtain ⟨-, hs⟩ := usable_of_some hs
    cases hs
    exact socklisten_agrees h
  | sockaccept p => exact sockaccept_agrees h hg (usable_of_some hs).2
  | sockacceptDone p =>
    obtain ⟨-, hs⟩ := usable_of_some hs
    unfold sockacceptDone at hs
    split at hs
    · cases hs
      exact h.setScb ⟨rfl, rfl, rfl⟩ ((h.blocks p).congr rfl rfl rfl rfl rfl rfl fun _ => rfl)
    · cases hs
  | sockconnect p raddr dport =>
    obtain ⟨ha, hs⟩ := usable_of_some hs
    exact sockconnect_agrees h ha hs
  | socksend p m flg => exact socksend_agrees h (usable_of_some hs).2
  | sockclose p => exact sockclose_agrees h (usable_of_some hs).2
  | tcpRecv m len raddr => exact tcpRecv_agrees h hg hs
  | udpRecv m len raddr hdr => exact udpRecv_agrees h hs

end

end

theorem socketInit_agrees : socketInit.Agrees :=
  ⟨⟨fun _ h => (by cases h), fun _ _ => Or.inl rfl, fun _ => Or.inl rfl, fun _ => Or.inl rfl⟩,
    fun _ => ⟨rfl, fun _ => rfl, fun h => (by cases h), fun h => (by cases h)⟩⟩

/-- **Handshake safety.**  In every run from `socket_init` in which `sockaccept` copies no
established block and no segment of a stranger reaches a block in SYN_SENT without a remote
port, an established block has received a SYN of its peer, from which its `rcv` was set, and
an acknowledgement of its own SYN. -/
theorem handshakeSafety {ops : List Op} {n : Stack}
    (hrun : Run (guard HandshakeStep Step) socketInit ops n) {p : Nat} (hs : (n.scbs p).state = estab) :
    SynSeen (n.hist p) (n.scbs p) ∧ AckSeen (n.hist p) :=
  ((hrun.inv (I := Agrees) (fun _ _ _ h hs => h.step hs) socketInit_agrees).blocks p).estab hs

/-- The answer of port 80 to the SYN of the first connection. -/
def sampleSynAck : Mbuf :=
  { emptyMbuf with
    tcphdr := { sport := 80, dport := 20000, seq := 7, ack := 1, off := 0x50
                flg := tcpFlgSyn ||| tcpFlgAck, wnd := 0 } }

theorem handshakeSafety_connected : ∃ n, Run (guard HandshakeStep Step) socketInit
        [.sockalloc .tcp, .sockconnect 1 9 80, .tcpRecv sampleSynAck 20 9] n ∧
      (n.scbs 1).state = estab ∧ SynSeen (n.hist 1) (n.scbs 1) ∧ AckSeen (n.hist 1) := by
  obtain ⟨n1, h1, hfind, hport, n2, h2, hst⟩ : ∃ n1,
      (sockalloc socketInit .tcp).step (.sockconnect 1 9 80) = some n1 ∧
      getSockCb n1 .tcp sampleSynAck.tcphdr.dport 9 sampleSynAck.tcphdr.sport = some 1 ∧ (n1.scbs 1).dport = 80 ∧
      ∃ n2, n1.step (.tcpRecv sampleSynAck 20 9) = some n2 ∧ (n2.scbs 1).state = estab := by
    decide
  have hrun : Run (guard HandshakeStep Step) socketInit
      [.sockalloc .tcp, .sockconnect 1 9 80, .tcpRecv sampleSynAck 20 9] n2 := by
    refine .cons ⟨trivial, rfl⟩ (.cons ⟨trivial, h1⟩ (.cons ⟨fun p hp _ h0 => ?_, h2⟩ (.nil n2)))
    obtain rfl : 1 = p := some.inj (hfind.symm.trans hp)
    rw [hport] at h0
    cases h0
  exact ⟨n2, hrun, hst, handshakeSafety hrun hst⟩

/-- **An established block without a handshake.**  The socket of an established connection is
passed to `sockaccept`; the new block is established and has received nothing. -/
theorem accept_of_estab : ∃ n, Run Step socketInit
        [.sockalloc .tcp, .sockconnect 1 9 80, .tcpRecv sampleSynAck 20 9, .sockaccept 1] n ∧
      n.alive 2 = true ∧ (n.scbs 2).state = estab ∧ n.hist 2 = [] ∧
      ¬ (SynSeen (n.hist 2) (n.scbs 2) ∧ AckSeen (n.hist 2)) := by
  refine Run.find (P := fun n => n.alive 2 = true ∧ (n.scbs 2).state = estab ∧ n.hist 2 = []) (by decide) ?_
  rintro n - ⟨hal, hst, hnil⟩
  refine ⟨hal, hst, hnil, ?_⟩
  rintro ⟨-, r, hr, -⟩
  rw [hnil] at hr
  cases hr

end InternetOs.Net
