import InternetOs.Net.Receive
import InternetOs.Net.TableLists

/-!
# Who owns a receive buffer

`e1000_recv` never replaces the mbuf of a slot, so the mbuf that waits on a socket's `rxq` is
still the buffer of its slot, and the device writes into it when the ring comes round
(rxOwnership_wrapped).  A reader that has popped it copies without a lock.  Until then it is left alone:

    every frame that waits on a socket or with a reader is one of the last fifteen at each delivery,
    and readers of one block take turns  →
      no delivery and no turn of `e1000_recv` touches an unread mbuf, and each holds the
      bytes it was queued with                                                   (rxOwnership)
-/

namespace InternetOs.Net

open SockCbState Function Option List Stack Nic

/-! ## Calls leave the ring alone

The mbufs of the ring are those up to `rxRingSize`; what the stack allocates comes after them. -/

/-- Transmit queues have no mbuf of the ring. -/
structure Stack.Apart (n : Stack) : Prop where
  brk : rxRingSize < n.brk
  txq : ∀ p, n.alive p = true → (n.scbs p).txq.head ≠ 0 → rxRingSize < (n.scbs p).txq.tail

/-- From `n` to `n'` no receive queue and no mbuf of the ring but `a` was touched; new blocks
have an empty queue. -/
structure Stack.Leaves (n : Stack) (a : Nat) (n' : Stack) : Prop where
  rxq : ∀ p, n'.alive p = true → n.alive p = true ∧ (n'.scbs p).rxq = (n.scbs p).rxq ∨
    (n'.scbs p).rxq = ⟨0, 0⟩ ∧ n.brkScb ≤ p ∧ p < n'.brkScb
  brkScb : n.brkScb ≤ n'.brkScb
  heap : ∀ x, x ≤ rxRingSize → x ≠ a → n'.mbufs x = n.mbufs x
  apart : n.Apart → n'.Apart

section
variable {n n' n'' : Stack} {a p : Nat}

theorem Stack.Leaves.refl (n : Stack) (a : Nat) : n.Leaves a n :=
  ⟨fun _ h => Or.inl ⟨h, rfl⟩, le_rfl, fun _ _ _ => rfl, id⟩

theorem Stack.Leaves.trans (h : n.Leaves a n') (h' : n'.Leaves a n'') : n.Leaves a n'' := by
  refine ⟨fun p hp => ?_, h.brkScb.trans h'.brkScb, fun x hx hxa => (h'.heap x hx hxa).trans (h.heap x hx hxa),
    fun ha => h'.apart (h.apart ha)⟩
  rcases h'.rxq p hp with ⟨hp', heq⟩ | ⟨h0, hlo, hhi⟩
  · rw [heq]
    exact (h.rxq p hp').imp_right fun ⟨h0, hlo, hhi⟩ => ⟨h0, hlo, hhi.trans_le h'.brkScb⟩
  · exact .inr ⟨h0, h.brkScb.trans hlo, hhi⟩

theorem Stack.leaves_of_eq (hs : n'.scbs = n.scbs) (ha : ∀ p, n'.alive p = true → n.alive p = true)
    (hm : n'.mbufs = n.mbufs) (hb : n'.brk = n.brk) (hc : n'.brkScb = n.brkScb) : n.Leaves a n' := by
  refine ⟨fun p hp => .inl ⟨ha p hp, by rw [hs]⟩, hc.ge, fun x _ _ => by rw [hm], fun h => ⟨?_, fun p hp => ?_⟩⟩
  · rw [hb]
    exact h.brk
  · rw [hs]
    exact h.txq p (ha p hp)

theorem Stack.leaves_setScb (n : Stack) (a p : Nat) {scb : SockCb} (hr : scb.rxq = (n.scbs p).rxq)
    (ht : scb.txq = (n.scbs p).txq) : n.Leaves a (n.setScb p scb) := by
  have hq : ∀ q, ((n.setScb p scb).scbs q).rxq = (n.scbs q).rxq ∧ ((n.setScb p scb).scbs q).txq = (n.scbs q).txq := by
    intro q
    by_cases hq : q = p
    · subst hq
      simp [hr, ht]
    · simp [hq]
  refine ⟨fun q hp => .inl ⟨hp, (hq q).1⟩, le_rfl, fun _ _ _ => rfl, fun h => ⟨h.brk, fun q hp => ?_⟩⟩
  rw [(hq q).2]
  exact h.txq q hp

theorem Stack.leaves_alloc (n : Stack) (a : Nat) (raddr : UInt32) (sport dport : UInt16) (t : SockType) :
    n.Leaves a (n.alloc raddr sport dport t).1 := by
  have hnew : ((n.alloc raddr sport dport t).1.scbs n.brkScb) = allocSockCb n.brkScb raddr sport dport t := by
    simp [alloc]
  have hold : ∀ q, q ≠ n.brkScb → (n.alloc raddr sport dport t).1.scbs q = n.scbs q ∧
      ((n.alloc raddr sport dport t).1.alive q = n.alive q) := by
    intro q hq
    simp [alloc, hq]
  refine ⟨fun q hq => ?_, Nat.le_succ _, fun _ _ _ => rfl, fun h => ⟨h.brk, fun q hq hne => ?_⟩⟩
  · by_cases hqn : q = n.brkScb
    · rw [hqn, hnew]
      exact .inr ⟨rfl, le_rfl, Nat.lt_succ_self _⟩
    · rw [(hold q hqn).1]
      rw [(hold q hqn).2] at hq
      exact .inl ⟨hq, rfl⟩
  · by_cases hqn : q = n.brkScb
    · rw [hqn, hnew] at hne
      exact absurd rfl hne
    · rw [(hold q hqn).1] at hne ⊢
      rw [(hold q hqn).2] at hq
      exact h.txq q hq hne

theorem leaves_linkClosed (a : Nat) : LinkClosed (Stack.Leaves · a ·) where
  refl n := .refl n a
  trans h h' := h.trans h'
  next n p _ := leaves_setScb n a p rfl rfl
  prev n p _ := leaves_setScb n a p rfl rfl
  head _ _ _ _ := leaves_of_eq rfl (fun _ h => h) rfl rfl rfl

theorem freeSockCb_leaves (hs : freeSockCb n p = some n') : n.Leaves a n' := by
  obtain ⟨n1, h1, rfl⟩ := (leaves_linkClosed a).freeSockCb hs
  have hrel : n.Leaves a (releaseSport n (n.scbs p).sport) := leaves_of_eq rfl (fun _ h => h) rfl rfl rfl
  have hdead : n1.Leaves a { n1 with alive := update n1.alive p false } := by
    exact leaves_of_eq rfl (fun q hq => (update_false_iff.mp hq).2) rfl rfl rfl
  exact (hrel.trans h1).trans hdead

/-- From `c` to `c'` neither `rxq` nor an mbuf of the ring was touched. -/
structure Conn.Leaves (c c' : Conn) : Prop where
  rxq : c'.scb.rxq = c.scb.rxq
  heap : ∀ x, x ≤ rxRingSize → c'.mbufs x = c.mbufs x
  brk : rxRingSize < c'.brk
  txq : c'.scb.txq.head ≠ 0 → rxRingSize < c'.scb.txq.tail

theorem Stack.leaves_putConn (n : Stack) (a p : Nat) {c : Conn} (hr : c.scb.rxq = (n.scbs p).rxq)
    (ht : c.scb.txq = (n.scbs p).txq) (hm : c.mbufs = n.mbufs) (hb : c.brk = n.brk) : n.Leaves a (n.putConn p c) :=
  (n.leaves_setScb a p hr ht).trans (leaves_of_eq rfl (fun _ h => h) hm hb rfl)

theorem Stack.Apart.conn (h : n.Apart) (hp : n.alive p = true) : (n.conn p).Leaves (n.conn p) :=
  ⟨rfl, fun _ _ => rfl, h.brk, h.txq p hp⟩

theorem Stack.Apart.putConn (hn : n.Apart) {c : Conn} (hc : (n.conn p).Leaves c) (a : Nat) :
    n.Leaves a (n.putConn p c) := by
  have hself : (n.putConn p c).scbs p = c.scb := by simp
  have hold : ∀ q, q ≠ p → (n.putConn p c).scbs q = n.scbs q := by
    intro q hq
    simp [hq]
  refine ⟨fun q hq => .inl ⟨hq, ?_⟩, le_rfl, fun x hx _ => hc.heap x hx, fun _ => ⟨hc.brk, fun q hq hne => ?_⟩⟩
  · by_cases hqp : q = p
    · rw [hqp, hself]
      exact hc.rxq
    · rw [hold q hqp]
  · by_cases hqp : q = p
    · rw [hqp, hself] at hne ⊢
      exact hc.txq hne
    · rw [hold q hqp] at hne ⊢
      exact hn.txq q hq hne

end

/-! ### The protocol -/

section
variable {c c' : Conn} {m : Nat}

theorem Conn.Leaves.of_eq (h : c.Leaves c) (hr : c'.scb.rxq = c.scb.rxq) (ht : c'.scb.txq = c.scb.txq)
    (hm : c'.mbufs = c.mbufs) (hb : c'.brk = c.brk) : c.Leaves c' := by
  refine ⟨hr, fun x _ => by rw [hm], ?_, ?_⟩
  · rw [hb]
    exact h.brk
  · rw [ht]
    exact h.txq

theorem mbufqPophead_head {h : MbufHeap} {q : Mbufq} (hne : (mbufqPophead h q).2.head ≠ 0) :
    q.head ≠ 0 ∧ (mbufqPophead h q).2.tail = q.tail := by
  unfold mbufqPophead at hne ⊢
  split at hne
  · exact absurd ‹_› hne
  · next h0 =>
    rw [if_neg h0]
    exact ⟨h0, rfl⟩

theorem tcpFlush_leaves (fuel : Nat) : ∀ c c' : Conn, tcpFlush fuel c = some c' →
    rxRingSize < c.brk → (c.scb.txq.head ≠ 0 → rxRingSize < c.scb.txq.tail) → c.Leaves c' := by
  induction fuel with
  | zero =>
    intro c c' h
    cases h
  | succ fuel ih =>
    intro c c' h hb ht
    have ht' : (mbufqPophead c.mbufs c.scb.txq).2.head ≠ 0 →
        rxRingSize < (mbufqPophead c.mbufs c.scb.txq).2.tail := by
      intro hne
      obtain ⟨h0, heq⟩ := mbufqPophead_head hne
      rw [heq]
      exact ht h0
    simp only [tcpFlush] at h
    split at h
    · cases h
      exact ⟨rfl, fun _ _ => rfl, hb, ht'⟩
    · have := ih _ _ h hb ht'
      exact ⟨this.rxq, this.heap, this.brk, this.txq⟩

theorem pushToScbTxq_leaves (hc : c.Leaves c) (hm : rxRingSize < m) (sndnxt : UInt32) (flg : UInt8)
    (datalen : UInt16) :
    c.Leaves { c with
      mbufs := (pushToScbTxq c.mbufs c.scb m sndnxt flg datalen).1
      scb := (pushToScbTxq c.mbufs c.scb m sndnxt flg datalen).2 } := by
  refine ⟨rfl, fun x hx => ?_, hc.brk, fun _ => ?_⟩
  · have hxm : x ≠ m := by omega
    simp only [pushToScbTxq, mbufqPushtail]
    split
    · simp [setNext, hxm]
    · next h0 =>
      have hxt : x ≠ c.scb.txq.tail := by
        have := hc.txq h0
        omega
      simp [setNext, hxm, hxt]
  · simp only [pushToScbTxq, mbufqPushtail]
    split <;> exact hm

theorem tcpSend_leaves (hc : c.Leaves c) (hm : rxRingSize < m) {flg : UInt8} {r : Conn × Int}
    (h : tcpSend c m flg = some r) : c.Leaves r.1 := by
  have hpush := pushToScbTxq_leaves hc hm c.scb.snd.nxtSeq flg (UInt16.ofNat (c.mbufs m).len)
  unfold tcpSend at h
  split at h
  · cases h
    exact hc
  · split at h
    · split at h <;> cases h <;> exact hc.of_eq rfl rfl rfl rfl
    · cases h
      exact hpush
    · cases h
      exact hpush
    · obtain ⟨c1, h1, heq⟩ := map_eq_some_iff.mp h
      cases heq
      have hfl := tcpFlush_leaves _ _ _ h1 hpush.brk hpush.txq
      exact ⟨hfl.rxq.trans hpush.rxq, fun x hx => (hfl.heap x hx).trans (hpush.heap x hx), hfl.brk, hfl.txq⟩
    · cases h
      exact hc

theorem Conn.Leaves.newMbuf (hc : c.Leaves c) (mb : Mbuf) :
    c.Leaves (c.newMbuf mb) ∧ (c.newMbuf mb).Leaves (c.newMbuf mb) := by
  have hb := hc.brk
  have hb' : rxRingSize < (c.newMbuf mb).brk := Nat.lt_succ_of_lt hb
  refine ⟨⟨rfl, fun x hx => ?_, hb', hc.txq⟩, rfl, fun _ _ => rfl, hb', hc.txq⟩
  have hne : x ≠ c.brk := by omega
  simp [Conn.newMbuf, hne]

theorem Conn.Leaves.comp {c'' : Conn} (h : c.Leaves c') (h' : c'.Leaves c'') : c.Leaves c'' :=
  ⟨h'.rxq.trans h.rxq, fun x hx => (h'.heap x hx).trans (h.heap x hx), h'.brk, h'.txq⟩

theorem tcpClose_leaves (hc : c.Leaves c) : c.Leaves (tcpClose c).1 := by
  obtain ⟨c', v, hclose, hout⟩ := tcpClose_outcome c
  rw [hclose]
  cases hout with
  | done => exact hc
  | fin st hst => exact hc.of_eq rfl rfl rfl rfl
  | queued hst =>
    obtain ⟨h1, h2⟩ := hc.newMbuf emptyMbuf
    exact h1.comp (pushToScbTxq_leaves h2 hc.brk c.scb.snd.nxtSeq (tcpFlgFin ||| tcpFlgAck) 0)

end

/-! ### Calls -/

section
variable {n n' : Stack} {a p : Nat}

theorem socklisten_leaves (n : Stack) (a p : Nat) (sport : UInt16) : n.Leaves a (socklisten n p sport) := by
  have hport : n.Leaves a (getSpecifiedSport n sport).1 := by
    unfold getSpecifiedSport
    split
    · exact .refl _ _
    · exact leaves_of_eq rfl (fun _ h => h) rfl rfl rfl
  refine hport.trans (leaves_setScb _ _ _ ?_ ?_)
  all_goals
    split <;> rfl

theorem sockaccept_leaves (hs : sockaccept n p = some n') : n.Leaves a n' := by
  unfold sockaccept at hs
  split at hs
  · split at hs
    · cases hs
      exact .refl _ _
    · cases hs
  · have hcopy : n.Leaves a (sockcopy n p).1 :=
      (n.leaves_alloc a _ _ _ _).trans (leaves_setScb _ _ _ rfl rfl)
    refine Stack.Leaves.trans ?_ ((leaves_linkClosed a).addSockCb hs)
    exact hcopy.trans (leaves_setScb _ _ _ rfl rfl)

theorem sockacceptDone_leaves (hs : sockacceptDone n p = some n') : n.Leaves a n' := by
  unfold sockacceptDone at hs
  split at hs
  · cases hs
    exact leaves_setScb _ _ _ rfl rfl
  · cases hs

theorem sockconnect_leaves {raddr : UInt32} {dport : UInt16} (hs : sockconnect n p raddr dport = some n') :
    n.Leaves a n' := by
  obtain ⟨r, hr, hs⟩ := bind_eq_some_iff.mp hs
  obtain ⟨n1, hadd, hs⟩ := bind_eq_some_iff.mp hs
  have hport : n.Leaves a r.1 := by
    obtain ⟨x, -, rfl⟩ := map_eq_some_iff.mp hr
    exact leaves_of_eq rfl (fun _ h => h) rfl rfl rfl
  have hlink : n.Leaves a n1 := by
    refine Stack.Leaves.trans ?_ ((leaves_linkClosed a).addSockCb hadd)
    exact hport.trans (leaves_setScb _ _ _ rfl rfl)
  refine hlink.trans ?_
  split at hs
  · obtain ⟨c, hc, rfl⟩ := map_eq_some_iff.mp hs
    unfold tcpConnect at hc
    split at hc
    · cases hc
    · cases hc
      exact n1.leaves_putConn a p rfl rfl rfl rfl
  · cases hs
    exact .refl _ _

theorem socksend_leaves (hn : n.Apart) (hp : n.alive p = true) {m : Mbuf} {flg : UInt8}
    (hs : socksend n p m flg = some n') : n.Leaves a n' := by
  unfold socksend at hs
  split at hs
  · obtain ⟨r, hr, rfl⟩ := map_eq_some_iff.mp hs
    obtain ⟨h1, h2⟩ := (hn.conn hp).newMbuf m
    exact hn.putConn (h1.comp (tcpSend_leaves h2 hn.brk hr)) a
  · cases hs
    exact .refl _ _

theorem sockclose_leaves (hn : n.Apart) (hp : n.alive p = true) (hs : sockclose n p = some n') :
    n.Leaves a n' := by
  have h1 : n.Leaves a (n.setScb p { n.scbs p with f := 0 }) := leaves_setScb _ _ _ rfl rfl
  unfold sockclose at hs
  dsimp only at hs
  refine h1.trans ?_
  split at hs
  · have h2 := (h1.apart hn).putConn (tcpClose_leaves ((h1.apart hn).conn (p := p) hp)) a
    split at hs
    · exact h2.trans (freeSockCb_leaves hs)
    · cases hs
      exact h2
  · exact freeSockCb_leaves hs

theorem Stack.Apart.step (hn : n.Apart) {o : Op} (hc : o.isCall = true) (hs : n.step o = some n') :
    n.Leaves 0 n' := by
  cases o with
  | sockalloc t =>
    cases hs
    exact n.leaves_alloc 0 0 0 0 t
  | socklisten p sport =>
    rw [← some.inj (usable_of_some hs).2]
    exact socklisten_leaves n 0 p sport
  | sockaccept p => exact sockaccept_leaves (usable_of_some hs).2
  | sockacceptDone p => exact sockacceptDone_leaves (usable_of_some hs).2
  | sockconnect p raddr dport => exact sockconnect_leaves (usable_of_some hs).2
  | socksend p m flg =>
    obtain ⟨hp, hs⟩ := usable_of_some hs
    exact socksend_leaves hn hp hs
  | sockclose p =>
    obtain ⟨hp, hs⟩ := usable_of_some hs
    exact sockclose_leaves hn hp hs
  | tcpRecv | udpRecv => cases hc

end

/-! ## Frames go to one queue

What the layers above the driver do with the mbuf at `a`: they change it, and put it on at most
one receive queue. -/

inductive Stack.Input (n : Stack) (a : Nat) (n' : Stack) : Prop
  | dropped (h : n.Leaves a n')
  | queued (p : Nat) (m : Mbuf) (hp : n.alive p = true) (halive : n'.alive = n.alive) (hb : n'.brkScb = n.brkScb)
      (hm : n'.mbufs = (mbufqPushtail (update n.mbufs a m) (n.scbs p).rxq a).1)
      (hr : (n'.scbs p).rxq = (mbufqPushtail (update n.mbufs a m) (n.scbs p).rxq a).2)
      (hold : ∀ q, q ≠ p → (n'.scbs q).rxq = (n.scbs q).rxq) (hapart : n.Apart → n'.Apart)

section
variable {n n' : Stack} {a p : Nat} {len : UInt16}

theorem Stack.leaves_setMbuf (n : Stack) (a : Nat) (m : Mbuf) : n.Leaves a (n.setMbuf a m) :=
  ⟨fun _ h => Or.inl ⟨h, rfl⟩, le_rfl, fun x _ hx => by simp [Stack.setMbuf, hx], fun h => ⟨h.brk, h.txq⟩⟩

theorem Stack.Input.same (hs : some n = some n') : n.Input a n' :=
  .dropped (some.inj hs ▸ .refl n a)

theorem Stack.Input.setMbuf {m : Mbuf} (h : (n.setMbuf a m).Input a n') : n.Input a n' := by
  cases h with
  | dropped h => exact .dropped ((n.leaves_setMbuf a m).trans h)
  | queued p m' hp halive hb hm hr hold hapart =>
    simp only [Stack.setMbuf, update_idem] at hm hr
    exact .queued p m' hp halive hb hm hr hold fun hn => hapart ((n.leaves_setMbuf a m).apart hn)

theorem tcpRecvAt_input (hn : n.Apart) {raddr : UInt32} (hs : tcpRecvAt n a len raddr = some n') : n.Input a n' := by
  obtain ⟨p, hp, hs⟩ := bind_eq_some_iff.mp hs
  split at hs
  · exact .same hs
  · next h0 =>
    have hal := findScb_alive hp h0
    split at hs
    · exact .same hs
    · dsimp only at hs
      obtain ⟨⟨_, _, _, _, _, _, hscb, -⟩, hbrk, hq⟩ :=
        tcpRecvSwitch_frame (n.conn p) a len raddr (n.mbufs a).tcphdr.sport
      generalize tcpRecvSwitch (n.conn p) a len raddr (n.mbufs a).tcphdr.sport = r at hs hscb hbrk hq
      have htxq : r.1.scb.txq = (n.scbs p).txq := by rw [hscb]; rfl
      rcases hq with ⟨hr, hm, -⟩ | ⟨hkeep, mb, hm, hr, -⟩
      · have hput := hn.putConn ((hn.conn hal).of_eq hr htxq hm hbrk) a
        split at hs
        · exact .dropped (hput.trans (freeSockCb_leaves hs))
        · cases hs
          exact .dropped hput
      · rw [if_neg (by simp [hkeep])] at hs
        cases hs
        refine .queued p mb hal rfl rfl hm ?_ ?_ fun _ => ⟨?_, fun q hq => ?_⟩
        · rw [show (n.putConn p r.1).scbs p = r.1.scb by simp]
          exact hr
        · intro q hq
          simp [hq]
        · show rxRingSize < r.1.brk
          rw [hbrk]
          exact hn.brk
        · by_cases hqp : q = p
          · subst hqp
            simp only [Stack.putConn, Stack.setScb, update_self, htxq]
            exact hn.txq q hal
          · simp only [Stack.putConn, Stack.setScb, update_of_ne hqp]
            exact hn.txq q hq

theorem udpRecvAt_input (hn : n.Apart) {raddr : UInt32} {hdr : UdpHdr}
    (hs : udpRecvAt n a raddr hdr = some n') : n.Input a n' := by
  obtain ⟨p, hp, rfl⟩ := map_eq_some_iff.mp hs
  split
  · exact .dropped (.refl _ _)
  · next h0 =>
    have hal := findScb_alive hp h0
    have hq : ∀ b : Prop, ∀ [Decidable b], (if b then { n.scbs p with raddr := raddr, dport := hdr.sport }
        else n.scbs p).rxq = (n.scbs p).rxq ∧ (if b then { n.scbs p with raddr := raddr, dport := hdr.sport }
        else n.scbs p).txq = (n.scbs p).txq := by
      intro b _
      split <;> exact ⟨rfl, rfl⟩
    obtain ⟨hr, ht⟩ := hq ((n.scbs p).raddr = 0 ∧ (n.scbs p).dport = 0)
    refine .queued p (n.mbufs a) hal rfl rfl ?_ ?_ ?_ fun _ => ⟨hn.brk, fun q hq => ?_⟩
    · simp [pushToScbRxq, hr]
    · simp [pushToScbRxq, hr]
    · intro q hq
      simp [hq]
    · by_cases hqp : q = p
      · subst hqp
        simp only [Stack.setScb, pushToScbRxq, update_self, ht]
        exact hn.txq q hal
      · simp only [Stack.setScb, update_of_ne hqp]
        exact hn.txq q hq

theorem tcpRecvFrame_input (hn : n.Apart) {ip : Nat} (hs : tcpRecvFrame n a ip len = some n') : n.Input a n' := by
  unfold tcpRecvFrame at hs
  dsimp only at hs
  split at hs
  · exact .same hs
  · next tcp _ =>
    refine Input.setMbuf (m := { (mbufpull (n.mbufs a) 20).2 with
      tcphdr := tcpHdrAt (mbufpull (n.mbufs a) 20).2.buf tcp }) ?_
    split at hs
    · exact .same hs
    · exact tcpRecvAt_input ((n.leaves_setMbuf a _).apart hn) hs

theorem udpRecvFrame_input (hn : n.Apart) {ip : Nat} (hs : udpRecvFrame n a ip len = some n') : n.Input a n' := by
  unfold udpRecvFrame at hs
  dsimp only at hs
  split at hs
  · exact .same hs
  · split at hs
    · cases hs
      exact .dropped (n.leaves_setMbuf a _)
    · split at hs
      · cases hs
        exact .dropped (n.leaves_setMbuf a _)
      · exact (udpRecvAt_input ((n.leaves_setMbuf a _).apart hn) hs).setMbuf

theorem ipRecv_input {ip : UInt32} (hn : n.Apart) (hs : ipRecvOn ip n a = some n') : n.Input a n' := by
  unfold ipRecvOn at hs
  dsimp only at hs
  split at hs
  · exact .same hs
  · have hn' := (n.leaves_setMbuf a (mbufpull (n.mbufs a) 20).2).apart hn
    refine Input.setMbuf (m := (mbufpull (n.mbufs a) 20).2) ?_
    split at hs
    · exact .same hs
    split at hs
    · exact .same hs
    split at hs
    · exact .same hs
    split at hs
    · exact .same hs
    split at hs
    · exact udpRecvFrame_input hn' hs
    split at hs
    · exact tcpRecvFrame_input hn' hs
    · exact .same hs

theorem ethRecv_input (hn : n.Apart) (hs : ethRecv n a = some n') : n.Input a n' := by
  unfold ethRecv ethRecvOn at hs
  dsimp only at hs
  split at hs
  · exact .same hs
  · have hn' := (n.leaves_setMbuf a (mbufpull (n.mbufs a) 14).2).apart hn
    split at hs
    · exact (ipRecv_input hn' hs).setMbuf
    · cases hs
      exact .dropped (n.leaves_setMbuf a _)

end

/-! ## The queues of the ring's mbufs -/

/-- The mbufs that are not read yet: `Q p` on the `rxq` of the block `p`, and what reader `r` has popped. -/
def Nic.unread (s : Nic) (Q : Nat → List Nat) : Nat ⊕ Nat → List Nat :=
  Sum.elim Q fun r => ((s.held r).map Held.mbuf).toList

/-- `a` is the mbuf of a slot that is not waiting for `e1000_recv`, with the bytes it was queued with. -/
structure Nic.Kept (s : Nic) (a : Nat) : Prop where
  slot : ∃ j, j < rxRingSize ∧ a = j + 1 ∧ (s.rxRing j).status &&& rxdStatDd = 0 ∧ s.num j < s.count ∧
    s.num j % rxRingSize = j
  text : (s.stack.mbufs a).data = s.text a

/-- Of the block of a reader: no other reader has an mbuf of it, and if nothing came after the popped mbuf,
that is still what `tail` points to. -/
structure Nic.Reads (s : Nic) (Q : Nat → List Nat) (r : Nat) (h : Held) : Prop where
  lt : h.scb < s.stack.brkScb
  one : ∀ r' h', s.held r' = some h' → h'.scb = h.scb → r' = r
  tail : s.stack.alive h.scb = true → Q h.scb = [] → (s.stack.scbs h.scb).rxq.tail = h.mbuf

/-- `Q p` are the mbufs on the `rxq` of `p`, and every unread mbuf is in one place. -/
structure Nic.Inv (s : Nic) (Q : Nat → List Nat) : Prop where
  apart : s.stack.Apart
  queue : ∀ p, s.stack.alive p = true → (s.stack.scbs p).rxq.Holds s.stack.mbufs (Q p)
  dead : ∀ p, s.stack.alive p ≠ true → Q p = []
  lt : ∀ p, s.stack.alive p = true → p < s.stack.brkScb
  kept : ∀ x, ∀ a ∈ s.unread Q x, s.Kept a
  once : ∀ x y a, a ∈ s.unread Q x → a ∈ s.unread Q y → x = y
  reads : ∀ r h, s.held r = some h → s.Reads Q r h
  full : ∀ j, j < rxRingSize → (s.rxRing j).status &&& rxdStatDd ≠ 0 → s.num j < s.count ∧ s.num j % rxRingSize = j
  head : s.rdh = s.count % rxRingSize
  slots : ∀ j, s.rxMbuf j = j + 1 ∧ (s.rxRing j).addr = j + 1

/-- At a delivery, every frame that waits on a socket or that a reader has popped and not copied is one of the last
fifteen; and no reader pops from a block while another one holds an mbuf of it. -/
def Nic.KeptUp (s : Nic) : NicEv → Prop
  | .deliver _ _ => (∀ p l, s.stack.alive p = true → (s.stack.scbs p).rxq.Holds s.stack.mbufs l →
      ∀ j, s.rxMbuf j ∈ l → s.count < s.num j + rxRingSize) ∧
      ∀ r h, s.held r = some h → ∀ j, s.rxMbuf j = h.mbuf → s.count < s.num j + rxRingSize
  | .pop _ p => ∀ q, readFrom s.stack p = some q → ∀ r h, s.held r = some h → h.scb ≠ q
  | _ => True

section
variable {s s' : Nic} {Q Q' : Nat → List Nat} {a p r : Nat} {frame : List UInt8} {status : UInt8}

theorem Nic.mem_held : a ∈ s.unread Q (.inr r) ↔ ∃ h, s.held r = some h ∧ h.mbuf = a := by
  simp [unread]

theorem Nic.Kept.mono (h : s.Kept a) (hring : s'.rxRing = s.rxRing) (hnum : s'.num = s.num)
    (hcount : s'.count = s.count) (ht : (s'.stack.mbufs a).data = s'.text a) : s'.Kept a := by
  refine ⟨?_, ht⟩
  rw [hring, hnum, hcount]
  exact h.slot

theorem Nic.Kept.le_ring (h : s.Kept a) : a ≤ rxRingSize ∧ a ≠ 0 := by
  obtain ⟨j, hj, rfl, -⟩ := h.slot
  omega

/-- One mbuf goes to `z`, or nowhere; the others stay where they are. -/
theorem Nic.Inv.move (h : s.Inv Q) {z : Nat ⊕ Nat} (hold : ∀ x, ∀ b ∈ s'.unread Q' x, b ≠ a → b ∈ s.unread Q x)
    (hnew : ∀ x, a ∈ s'.unread Q' x → x = z) : ∀ x y b, b ∈ s'.unread Q' x → b ∈ s'.unread Q' y → x = y := by
  intro x y b hx hy
  by_cases hb : b = a
  · rw [hb] at hx hy
    exact (hnew x hx).trans (hnew y hy).symm
  · exact h.once x y b (hold x b hx hb) (hold y b hy hb)

/-! ### The device -/

theorem Nic.Inv.head_notMem (h : s.Inv Q) (hk : s.KeptUp (.deliver frame status)) (x : Nat ⊕ Nat) :
    s.rxMbuf s.rdh ∉ s.unread Q x := by
  intro ha
  have hlt : s.count < s.num s.rdh + rxRingSize := by
    rcases x with p | r
    · by_cases hp : s.stack.alive p = true
      · exact hk.1 p (Q p) hp (h.queue p hp) s.rdh ha
      · rw [show s.unread Q (.inl p) = Q p from rfl, h.dead p hp] at ha
        cases ha
    · obtain ⟨hd, hr, heq⟩ := mem_held.mp ha
      exact hk.2 r hd hr s.rdh heq.symm
  obtain ⟨j, hj, hja, -, hnum, hmod⟩ := (h.kept x _ ha).slot
  rw [(h.slots s.rdh).1] at hja
  obtain rfl : s.rdh = j := by omega
  rw [h.head] at hlt hnum hmod
  unfold rxRingSize at *
  omega

theorem Nic.deliver_spec (hs : s.deliver frame status = some s') :
    ∃ m d, s'.rxRing = update s.rxRing s.rdh d ∧ d.addr = (s.rxRing s.rdh).addr ∧
      s'.stack = s.stack.setMbuf d.addr m ∧ s'.num = update s.num s.rdh s.count ∧ s'.held = s.held ∧
      s'.count = s.count + 1 ∧ s'.rdh = (s.rdh + 1) % rxRingSize ∧ s'.rxMbuf = s.rxMbuf ∧ s'.text = s.text := by
  unfold deliver at hs
  split at hs
  · cases hs
  · cases hs
    exact ⟨_, _, rfl, rfl, rfl, rfl, rfl, rfl, rfl, rfl, rfl⟩

theorem Nic.Inv.deliver (h : s.Inv Q)
    (hk : s.KeptUp (.deliver frame status)) (hs : s.deliver frame status = some s') : s'.Inv Q := by
  obtain ⟨m, d, hring, hd, hstack, hnum, hheld, hcount, hrdh, hmbuf, htext⟩ := deliver_spec hs
  rw [(h.slots s.rdh).2] at hd
  rw [hd] at hstack
  have hun : s'.unread Q = s.unread Q := by
    unfold unread
    rw [hheld]
  have hnot : ∀ x, ∀ b ∈ s.unread Q x, b ≠ s.rdh + 1 := by
    intro x b hb e
    refine h.head_notMem hk x ?_
    rw [(h.slots s.rdh).1, ← e]
    exact hb
  have hheap : ∀ b, b ≠ s.rdh + 1 → s'.stack.mbufs b = s.stack.mbufs b := by
    intro b hb
    simp [hstack, Stack.setMbuf, hb]
  have halive : s'.stack.alive = s.stack.alive := by rw [hstack]; rfl
  have hscbs : s'.stack.scbs = s.stack.scbs := by rw [hstack]; rfl
  have hbrk : s'.stack.brkScb = s.stack.brkScb := by rw [hstack]; rfl
  constructor
  · rw [hstack]
    exact (s.stack.leaves_setMbuf _ _).apart h.apart
  · intro p hp
    rw [halive] at hp
    rw [hscbs]
    exact (h.queue p hp).congr fun x hx => by rw [hheap x (hnot (.inl p) x hx)]
  · rw [halive]
    exact h.dead
  · rw [halive, hbrk]
    exact h.lt
  · intro x b hb
    rw [hun] at hb
    obtain ⟨j, hj, hja, hst, hn, hmod⟩ := (h.kept x b hb).slot
    have hne : j ≠ s.rdh := fun e => hnot x b hb (by omega)
    refine ⟨⟨j, hj, hja, ?_⟩, ?_⟩
    · rw [hring, hnum, hcount, update_of_ne hne, update_of_ne hne]
      exact ⟨hst, Nat.lt_succ_of_lt hn, hmod⟩
    · rw [hheap b (hnot x b hb), htext]
      exact (h.kept x b hb).text
  · rw [hun]
    exact h.once
  · intro r hd hr
    rw [hheld] at hr
    have := h.reads r hd hr
    refine ⟨?_, ?_, ?_⟩
    · rw [hbrk]
      exact this.lt
    · rw [hheld]
      exact this.one
    · rw [halive, hscbs]
      exact this.tail
  · intro j hj hst
    rw [hring] at hst
    rw [hnum, hcount]
    by_cases hjr : j = s.rdh
    · rw [hjr, update_self]
      exact ⟨Nat.lt_succ_self _, h.head.symm⟩
    · rw [update_of_ne hjr] at hst ⊢
      exact (h.full j hj hst).imp_left Nat.lt_succ_of_lt
  · rw [hrdh, hcount, h.head, Nat.mod_add_mod]
  · intro j
    rw [hmbuf, hring]
    refine ⟨(h.slots j).1, ?_⟩
    by_cases hjr : j = s.rdh
    · rw [hjr, update_self, hd]
    · rw [update_of_ne hjr]
      exact (h.slots j).2

/-! ### The stack -/

/-- What leaves the queues and the ring but the mbuf `a`, which was read. -/
theorem Nic.Inv.leaves (h : s.Inv Q) {n : Stack} (hl : s.stack.Leaves a n)
    (ha : ∀ x, a ∉ s.unread Q x) : ∃ Q', Nic.Inv { s with stack := n } Q' := by
  -- a block that was not allocated, or is a new one, has an empty queue
  let Q' : Nat → List Nat := fun p => if n.alive p = true ∧ p < s.stack.brkScb then Q p else []
  have hQ : ∀ p, n.alive p = true → (s.stack.alive p = true ∧ (n.scbs p).rxq = (s.stack.scbs p).rxq ∧
      Q' p = Q p) ∨ ((n.scbs p).rxq = ⟨0, 0⟩ ∧ s.stack.brkScb ≤ p ∧ Q' p = []) := by
    intro p hp
    rcases hl.rxq p hp with ⟨hp', hr⟩ | ⟨hr, hlo, -⟩
    · exact .inl ⟨hp', hr, if_pos ⟨hp, h.lt p hp'⟩⟩
    · exact .inr ⟨hr, hlo, if_neg fun hc => absurd hc.2 (by omega)⟩
  have hsub : ∀ x, ∀ b ∈ unread { s with stack := n } Q' x, b ∈ s.unread Q x := by
    rintro (p | r) b hb
    · change b ∈ Q' p at hb
      dsimp only [Q'] at hb
      split_ifs at hb
      · exact hb
      · cases hb
    · exact hb
  have hheap : ∀ x, ∀ b ∈ s.unread Q x, n.mbufs b = s.stack.mbufs b := by
    intro x b hb
    exact hl.heap b (h.kept x b hb).le_ring.1 fun e => ha x (e ▸ hb)
  refine ⟨Q', hl.apart h.apart, fun p hp => ?_, fun p hp => if_neg fun hc => hp hc.1, fun p hp => ?_, fun x b hb => ?_,
    fun x y b hx hy => h.once x y b (hsub x b hx) (hsub y b hy), fun r hd hr => ?_, h.full, h.head, h.slots⟩
  · show (n.scbs p).rxq.Holds n.mbufs (Q' p)
    rcases hQ p hp with ⟨hp', hr, hq⟩ | ⟨hr, -, hq⟩
    · rw [hr, hq]
      exact (h.queue p hp').congr fun x hx => by rw [hheap (.inl p) x hx]
    · rw [hr, hq]
      exact Queue.nil 0
  · rcases hl.rxq p hp with ⟨hp', -⟩ | ⟨-, -, hhi⟩
    · exact (h.lt p hp').trans_le hl.brkScb
    · exact hhi
  · have hk := h.kept x b (hsub x b hb)
    refine hk.mono rfl rfl rfl ?_
    show (n.mbufs b).data = _
    rw [hheap x b (hsub x b hb)]
    exact hk.text
  · have hrd := h.reads r hd hr
    refine ⟨hrd.lt.trans_le hl.brkScb, hrd.one, fun hal hq0 => ?_⟩
    show (n.scbs hd.scb).rxq.tail = hd.mbuf
    rcases hQ hd.scb hal with ⟨hal', heq, hq⟩ | ⟨-, hlo, -⟩
    · rw [heq]
      exact hrd.tail hal' (hq ▸ hq0)
    · exact absurd hrd.lt (by omega)

/-- A turn of `e1000_recv`: the slot it takes, and what it passes up. -/
theorem Nic.recv_spec (hs : s.recv = some s') : ∃ index m d, s'.rxRing = update s.rxRing index d ∧
    index < rxRingSize ∧ (s.rxRing index).status &&& rxdStatDd ≠ 0 ∧ d.addr = (s.rxRing index).addr ∧
    d.status = (s.rxRing index).status ^^^ rxdStatDd ∧
    ethRecv (s.stack.setMbuf (s.rxMbuf index) m) (s.rxMbuf index) = some s'.stack ∧
    s'.text = update s.text (s.rxMbuf index) (s'.stack.mbufs (s.rxMbuf index)).data ∧
    s'.held = s.held ∧ s'.num = s.num ∧ s'.count = s.count ∧ s'.rdh = s.rdh ∧ s'.rxMbuf = s.rxMbuf := by
  unfold recv at hs
  dsimp only at hs
  split at hs
  · cases hs
  · next hdd =>
    split at hs
    · cases hs
    · obtain ⟨n, hn, rfl⟩ := map_eq_some_iff.mp hs
      exact ⟨(s.rdt + 1) % rxRingSize, _, _, rfl, Nat.mod_lt _ (by decide), hdd, rfl, rfl, hn, rfl, rfl, rfl, rfl, rfl,
        rfl⟩

theorem xor_dd {x : UInt8} (h : x &&& rxdStatDd ≠ 0) : (x ^^^ rxdStatDd) &&& rxdStatDd = 0 := by
  have key : ∀ k : Fin 256, UInt8.ofNat k &&& rxdStatDd ≠ 0 →
      (UInt8.ofNat k ^^^ rxdStatDd) &&& rxdStatDd = 0 := by decide +kernel
  have hx := key ⟨x.toNat, x.toNat_lt⟩
  rw [UInt8.ofNat_toNat] at hx
  exact hx h

theorem Nic.Inv.retire (h : s.Inv Q) {index : Nat} {d : RxDesc} (hd : d.addr = (s.rxRing index).addr)
    (hst : d.status &&& rxdStatDd = 0) {t : Nat → List UInt8} {k : Nat}
    (ht : ∀ x, ∀ b ∈ s.unread Q x, t b = s.text b) :
    Nic.Inv { s with rxRing := update s.rxRing index d, text := t, rdt := k } Q := by
  have hslot : ∀ j, (update s.rxRing index d j).addr = (s.rxRing j).addr ∧
      ((update s.rxRing index d j).status &&& rxdStatDd = 0 ∨
        (update s.rxRing index d j).status = (s.rxRing j).status) := by
    intro j
    by_cases hj : j = index
    · rw [hj, update_self]
      exact ⟨hd, .inl hst⟩
    · rw [update_of_ne hj]
      exact ⟨rfl, .inr rfl⟩
  refine ⟨h.apart, h.queue, h.dead, h.lt, fun x b hb => ⟨?_, ?_⟩, h.once,
    fun r hd hr => ⟨(h.reads r hd hr).lt, (h.reads r hd hr).one, (h.reads r hd hr).tail⟩, fun j hj hne => ?_, h.head,
    fun j => ⟨(h.slots j).1, (hslot j).1.trans (h.slots j).2⟩⟩
  · obtain ⟨j, hj, hja, hst', hn⟩ := (h.kept x b hb).slot
    refine ⟨j, hj, hja, ?_, hn⟩
    rcases (hslot j).2 with h0 | heq
    · exact h0
    · exact heq ▸ hst'
  · exact (h.kept x b hb).text.trans (ht x b hb).symm
  · rcases (hslot j).2 with h0 | heq
    · exact absurd h0 hne
    · exact h.full j hj (heq ▸ hne)

/-- The mbuf `a`, read and with no frame waiting in its slot, is put on the queue of `p`. -/
theorem Nic.Inv.push (h : s.Inv Q) {n : Stack} {m : Mbuf} (hnot : ∀ x, a ∉ s.unread Q x)
    (hkept : Kept { s with stack := n } a) (hp : s.stack.alive p = true) (halive : n.alive = s.stack.alive)
    (hb : n.brkScb = s.stack.brkScb)
    (hm : n.mbufs = (mbufqPushtail (update s.stack.mbufs a m) (s.stack.scbs p).rxq a).1)
    (hr : (n.scbs p).rxq = (mbufqPushtail (update s.stack.mbufs a m) (s.stack.scbs p).rxq a).2)
    (hold : ∀ q, q ≠ p → (n.scbs q).rxq = (s.stack.scbs q).rxq) (hapart : n.Apart) :
    ∃ Q', Nic.Inv { s with stack := n } Q' := by
  let Q' := update Q p (Q p ++ [a])
  have hself : Q' p = Q p ++ [a] := update_self ..
  have hne : ∀ q, q ≠ p → Q' q = Q q := fun q hq => update_of_ne hq ..
  -- what is unread now was unread before, or is the new mbuf on the queue of `p`
  have hmem : ∀ x b, b ∈ unread { s with stack := n } Q' x → b ∈ s.unread Q x ∨ x = .inl p ∧ b = a := by
    rintro (q | r) b hx
    · by_cases hq : q = p
      · subst hq
        rw [show unread _ Q' (.inl q) = Q' q from rfl, hself] at hx
        rcases mem_append.mp hx with hx | hx
        · exact .inl hx
        · exact .inr ⟨rfl, mem_singleton.mp hx⟩
      · exact .inl (show b ∈ Q q from hne q hq ▸ hx)
    · exact .inl hx
  have hq0 : ∀ q, s.stack.alive q = true → (s.stack.scbs q).rxq.Holds (update s.stack.mbufs a m) (Q q) := by
    intro q hq
    refine (h.queue q hq).congr fun x hx => ?_
    have hne : x ≠ a := fun e => hnot (.inl q) (e ▸ hx)
    rw [update_of_ne hne]
  have hdata : ∀ x, x ≠ a → (n.mbufs x).data = (s.stack.mbufs x).data := by
    intro x hx
    rw [hm, mbufqPushtail_data, update_of_ne hx]
  refine ⟨Q', hapart, fun q hq => ?_, fun q hq => ?_, ?_, fun x b hx => ?_,
    h.move (a := a) (z := .inl p) (fun x b hx hba => (hmem x b hx).resolve_right fun hc => hba hc.2) (fun x hx => ?_),
    fun r hd hr => ?_, h.full, h.head, h.slots⟩
  · show (n.scbs q).rxq.Holds n.mbufs (Q' q)
    replace hq : s.stack.alive q = true := by rw [← halive]; exact hq
    by_cases hqp : q = p
    · rw [hqp, hself, hr, hm]
      exact mbufqPushtail_holds (hq0 p hp) hkept.le_ring.2 (hnot (.inl p))
    · rw [hne q hqp, hold q hqp, hm]
      refine mbufqPushtail_other (hq0 p hp) (hq0 q hq) (fun x hx hx' => ?_) (hnot (.inl q))
      exact hqp (Sum.inl_injective (h.once (.inl q) (.inl p) x hx' hx))
  · replace hq : s.stack.alive q ≠ true := by rw [← halive]; exact hq
    rw [hne q (fun e => hq (e ▸ hp))]
    exact h.dead q hq
  · show ∀ q, n.alive q = true → q < n.brkScb
    rw [halive, hb]
    exact h.lt
  · rcases hmem x b hx with hx | ⟨-, rfl⟩
    · refine (h.kept x b hx).mono rfl rfl rfl ?_
      exact (hdata b fun e => hnot x (e ▸ hx)).trans (h.kept x b hx).text
    · exact hkept
  · rcases hmem x a hx with hx | ⟨hx, -⟩
    · exact absurd hx (hnot x)
    · exact hx
  · have hrd := h.reads r hd hr
    refine ⟨by rw [hb]; exact hrd.lt, hrd.one, fun hal hq0 => ?_⟩
    show (n.scbs hd.scb).rxq.tail = hd.mbuf
    by_cases hsp : hd.scb = p
    · rw [hsp, hself] at hq0
      simp at hq0
    · rw [hold _ hsp]
      exact hrd.tail (by rw [← halive]; exact hal) (hne _ hsp ▸ hq0)

theorem Nic.Inv.recv (h : s.Inv Q) (hs : s.recv = some s') : ∃ Q', s'.Inv Q' := by
  obtain ⟨index, m, d, hring, hi, hdd, hd, hst, heth, htext, hheld, hnum, hcount, hrdh, hmbuf⟩ := recv_spec hs
  rw [(h.slots index).1] at heth htext
  -- a slot with a frame in it has its mbuf nowhere else
  have hnot : ∀ x, index + 1 ∉ s.unread Q x := by
    intro x hx
    obtain ⟨j, -, hj, h0, -⟩ := (h.kept x _ hx).slot
    obtain rfl : index = j := by omega
    exact hdd h0
  have hzero : d.status &&& rxdStatDd = 0 := by
    rw [hst]
    exact xor_dd hdd
  have h1 : Nic.Inv { s' with stack := s.stack } Q := by
    have := h.retire hd hzero (t := s'.text) (k := s'.rdt) (fun x b hb => by
      have hne : b ≠ index + 1 := fun e => hnot x (e ▸ hb)
      rw [htext, update_of_ne hne])
    rw [← hring, ← hheld, ← hnum, ← hcount, ← hrdh, ← hmbuf] at this
    exact this
  have hnot1 : ∀ x, index + 1 ∉ unread { s' with stack := s.stack } Q x := by
    unfold unread
    dsimp only
    rw [hheld]
    exact hnot
  have hset := s.stack.leaves_setMbuf (index + 1) m
  cases (ethRecv_input (hset.apart h.apart) heth).setMbuf with
  | dropped hl => exact h1.leaves hl hnot1
  | queued p mb hp halive hb hm hr hold hapart =>
    refine h1.push hnot1 ⟨⟨index, hi, rfl, ?_, ?_⟩, ?_⟩ hp halive hb hm hr hold (hapart h.apart)
    · show (s'.rxRing index).status &&& rxdStatDd = 0
      rw [hring, update_self]
      exact hzero
    · show s'.num index < s'.count ∧ s'.num index % rxRingSize = index
      rw [hnum, hcount]
      exact h.full index hi hdd
    · show (s'.stack.mbufs (index + 1)).data = s'.text (index + 1)
      rw [htext, update_self]

/-! ### Readers -/

/-- Reader `r`, the only one at the block `q`, takes the mbuf `a` from its queue or puts it back there: the queue is
`l` now, and the reader has `o`. -/
structure Nic.Exchange (s : Nic) (Q : Nat → List Nat) (r q a : Nat) (l : List Nat) (o : Option Held) (n : Stack)
    (t : Nat → List UInt8) : Prop where
  alive : n.alive = s.stack.alive
  brk : n.brkScb = s.stack.brkScb
  apart : n.Apart
  scbs : ∀ p, p ≠ q → n.scbs p = s.stack.scbs p
  heap : ∀ b, b ≠ a → n.mbufs b = s.stack.mbufs b
  text : ∀ b, b ≠ a → t b = s.text b
  place : a ∈ s.unread Q (.inl q) ∨ a ∈ s.unread Q (.inr r)
  one : ∀ r' h', s.held r' = some h' → h'.scb = q → r' = r
  queue : s.stack.alive q = true → (n.scbs q).rxq.Holds n.mbufs l
  dead : s.stack.alive q ≠ true → l = []
  sub : ∀ b ∈ l, b ≠ a → b ∈ Q q
  holds : ∀ hd, o = some hd → hd.mbuf = a ∧ hd.scb = q ∧ q < n.brkScb ∧ a ∉ l ∧ (l = [] → (n.scbs q).rxq.tail = a)
  kept : a ∈ l ∨ o ≠ none → Kept { s with stack := n, held := update s.held r o, text := t } a

section
variable {q b : Nat} {l : List Nat} {o : Option Held} {n : Stack} {t : Nat → List UInt8} {x : Nat ⊕ Nat}

/-- What is unread now is `a`, in one of its two places, or was unread there before. -/
theorem Nic.Exchange.mem (e : s.Exchange Q r q a l o n t) (h : s.Inv Q)
    (hb : b ∈ unread { s with held := update s.held r o } (update Q q l) x) :
    b ≠ a ∧ b ∈ s.unread Q x ∨ b = a ∧ (x = .inl q ∧ a ∈ l ∨ x = .inr r ∧ o ≠ none) := by
  have hplace : ∀ x, a ∈ s.unread Q x → x = .inl q ∨ x = .inr r := fun x hx =>
    e.place.imp (h.once x _ a hx) (h.once x _ a hx)
  rcases x with p | r'
  · change b ∈ update Q q l p at hb
    by_cases hp : p = q
    · subst hp
      rw [update_self] at hb
      by_cases hba : b = a
      · exact .inr ⟨hba, .inl ⟨rfl, hba ▸ hb⟩⟩
      · exact .inl ⟨hba, e.sub b hb hba⟩
    · rw [update_of_ne hp] at hb
      refine .inl ⟨fun hba => ?_, hb⟩
      rcases hplace (.inl p) (hba ▸ hb) with hx | hx
      · exact hp (Sum.inl_injective hx)
      · cases hx
  · obtain ⟨hd, hr, rfl⟩ := mem_held.mp hb
    by_cases hrr : r' = r
    · subst hrr
      replace hr : o = some hd := update_self r' o s.held ▸ hr
      exact .inr ⟨(e.holds hd hr).1, .inr ⟨rfl, by simp [hr]⟩⟩
    · have hold : hd.mbuf ∈ s.unread Q (.inr r') := mem_held.mpr ⟨hd, (update_of_ne hrr ..).symm.trans hr, rfl⟩
      refine .inl ⟨fun hba => ?_, hold⟩
      rcases hplace (.inr r') (hba ▸ hold) with hx | hx
      · cases hx
      · exact hrr (Sum.inr_injective hx)

theorem Nic.Exchange.reads (e : s.Exchange Q r q a l o n t) (h : s.Inv Q) {r' : Nat} {hd : Held}
    (hr : update s.held r o r' = some hd) :
    Reads { s with stack := n, held := update s.held r o, text := t } (update Q q l) r' hd := by
  by_cases hrr : r' = r
  · subst hrr
    rw [update_self] at hr
    obtain ⟨hm, rfl, hlt, -, htl⟩ := e.holds hd hr
    refine ⟨hlt, fun r'' h'' hr'' he => ?_, fun _ hnil => ?_⟩
    · by_contra hc
      exact hc (e.one r'' h'' ((update_of_ne hc ..).symm.trans hr'') he)
    · rw [hm]
      exact htl (update_self hd.scb l Q ▸ hnil)
  · rw [update_of_ne hrr] at hr
    have hrd := h.reads r' hd hr
    have hsq : hd.scb ≠ q := fun he => hrr (e.one r' hd hr he)
    refine ⟨e.brk ▸ hrd.lt, fun r'' h'' hr'' he => ?_, fun hal hnil => ?_⟩
    · by_cases hc : r'' = r
      · subst hc
        exact absurd (he.symm.trans (e.holds h'' (update_self r'' o s.held ▸ hr'')).2.1) hsq
      · exact hrd.one r'' h'' ((update_of_ne hc ..).symm.trans hr'') he
    · show (n.scbs hd.scb).rxq.tail = hd.mbuf
      rw [e.scbs _ hsq]
      exact hrd.tail (e.alive ▸ hal) ((update_of_ne hsq ..).symm.trans hnil)

theorem Nic.Inv.exchange (h : s.Inv Q) (e : s.Exchange Q r q a l o n t) :
    Nic.Inv { s with stack := n, held := update s.held r o, text := t } (update Q q l) := by
  have hself : update Q q l q = l := update_self ..
  have hne : ∀ p, p ≠ q → update Q q l p = Q p := fun p hp => update_of_ne hp ..
  refine ⟨e.apart, fun p hp => ?_, fun p hp => ?_, ?_, fun x b hb => ?_,
    h.move (a := a) (z := if o.isNone then .inl q else .inr r)
      (fun x b hb hba => ((e.mem h hb).resolve_right fun hc => hba hc.1).2) (fun x hb => ?_),
    fun r' hd hr => e.reads h hr, h.full, h.head, h.slots⟩
  · replace hp : s.stack.alive p = true := e.alive ▸ hp
    show (n.scbs p).rxq.Holds n.mbufs (update Q q l p)
    by_cases hpq : p = q
    · subst hpq
      rw [hself]
      exact e.queue hp
    · rw [hne p hpq, e.scbs p hpq]
      refine (h.queue p hp).congr fun b hb => ?_
      have hb' : b ∈ update Q q l p := (hne p hpq).symm ▸ hb
      rcases e.mem h (x := .inl p) hb' with ⟨hba, -⟩ | ⟨-, ⟨hx, -⟩ | ⟨hx, -⟩⟩
      · rw [e.heap b hba]
      · exact absurd (Sum.inl_injective hx) hpq
      · cases hx
  · replace hp : s.stack.alive p ≠ true := e.alive ▸ hp
    by_cases hpq : p = q
    · subst hpq
      exact hself.trans (e.dead hp)
    · exact (hne p hpq).trans (h.dead p hp)
  · show ∀ p, n.alive p = true → p < n.brkScb
    rw [e.alive, e.brk]
    exact h.lt
  · rcases e.mem h hb with ⟨hba, hb'⟩ | ⟨rfl, hx⟩
    · have hk := h.kept x b hb'
      refine hk.mono rfl rfl rfl ?_
      show (n.mbufs b).data = t b
      rw [e.heap b hba, e.text b hba]
      exact hk.text
    · exact e.kept (hx.imp And.right And.right)
  · rcases e.mem h hb with ⟨hba, -⟩ | ⟨-, ⟨hx, hal⟩ | ⟨hx, hne⟩⟩
    · exact absurd rfl hba
    · cases o with
      | none => exact hx
      | some hd => exact absurd hal (e.holds hd rfl).2.2.2.1
    · cases o with
      | none => exact absurd rfl hne
      | some hd => exact hx

end

theorem Nic.pop_spec (hs : s.pop r p = some s') : s' = s ∨ ∃ q t, readFrom s.stack p = some q ∧
    s.stack.alive q = true ∧ s.held r = none ∧ (s.stack.scbs q).rxq.head ≠ 0 ∧
    s' = { s with
      stack := s.stack.setScb q { s.stack.scbs q with rxq := (mbufqPophead s.stack.mbufs (s.stack.scbs q).rxq).2 }
      held := update s.held r (some ⟨t, q, (s.stack.scbs q).rxq.head⟩) } := by
  obtain ⟨⟨hu, hr⟩, hs⟩ := ite_none_right_eq_some.mp hs
  obtain ⟨q, hq, hs⟩ := map_eq_some_iff.mp hs
  dsimp only at hs
  split_ifs at hs with htcp h0
  · exact .inl hs.symm
  · exact .inl hs.symm
  · have hhead : (s.stack.scbs q).rxq.head ≠ 0 ∧
        (popFromScbRxq s.stack.mbufs (s.stack.scbs q)).1 = (s.stack.scbs q).rxq.head := by
      unfold popFromScbRxq mbufqPophead at h0 ⊢
      by_cases hz : (s.stack.scbs q).rxq.head = 0
      · rw [if_pos hz] at h0
        exact absurd rfl h0
      · rw [if_neg hz]
        exact ⟨hz, rfl⟩
    have hal : s.stack.alive q = true := by
      unfold readFrom at hq
      dsimp only at hq
      split_ifs at hq with ht
      · exact findScb_alive hq fun e => htcp ⟨ht, .inl e⟩
      · rw [← some.inj hq]
        exact (Bool.and_eq_true _ _ ▸ hu).1
    rw [hhead.2] at hs
    exact .inr ⟨q, _, hq, hal, isNone_iff_eq_none.mp hr, hhead.1, hs.symm⟩

/-- The receive queue and the window of a block do not matter here. -/
theorem Stack.Apart.reader {n n' : Stack} {q : Nat} (h : n.Apart) (hb : n'.brk = n.brk) (ha : n'.alive = n.alive)
    (ht : (n'.scbs q).txq = (n.scbs q).txq) (hold : ∀ p, p ≠ q → n'.scbs p = n.scbs p) : n'.Apart := by
  refine ⟨hb ▸ h.brk, fun p hp => ?_⟩
  rw [ha] at hp
  by_cases hpq : p = q
  · rw [hpq, ht]
    exact h.txq q (hpq ▸ hp)
  · rw [hold p hpq]
    exact h.txq p hp

theorem Nic.Inv.pop (h : s.Inv Q) (hk : s.KeptUp (.pop r p)) (hs : s.pop r p = some s') : ∃ Q', s'.Inv Q' := by
  rcases pop_spec hs with rfl | ⟨q, t, hq, hal, hfree, h0, rfl⟩
  · exact ⟨Q, h⟩
  have hQq := h.queue q hal
  obtain ⟨a, l, hl⟩ := exists_cons_of_ne_nil fun e => h0 (hQq.head_eq_zero.mpr e)
  rw [hl] at hQq
  have hhead : (s.stack.scbs q).rxq.head = a := hQq.chain.1
  have hmem : a ∈ Q q := hl ▸ mem_cons_self
  have hnot : a ∉ l := (nodup_cons.mp hQq.nodup).1
  have hold : ∀ scb p, p ≠ q → (s.stack.setScb q scb).scbs p = s.stack.scbs p := fun scb p hp => update_of_ne hp ..
  have hset : ∀ scb, (s.stack.setScb q scb).scbs q = scb := fun scb => update_self ..
  rw [hhead]
  refine ⟨_, h.exchange (l := l)
    { alive := rfl, brk := rfl, apart := h.apart.reader rfl rfl (by rw [hset]) (hold _), scbs := hold _
      heap := fun _ _ => rfl, text := fun _ _ => rfl, place := .inl hmem
      one := fun r' h' hr' he => absurd he (hk q hq r' h' hr'), queue := fun _ => ?_, dead := fun hd => absurd hal hd
      sub := fun b hb _ => hl ▸ mem_cons_of_mem a hb, holds := ?_, kept := fun _ => ?_ }⟩
  · rw [hset]
    exact (mbufqPophead_holds hQq).2
  · rintro _ ⟨⟩
    refine ⟨rfl, rfl, h.lt q hal, hnot, fun hnil => ?_⟩
    rw [hset]
    -- the last mbuf of the queue was `a`
    have htail : (mbufqPophead s.stack.mbufs (s.stack.scbs q).rxq).2.tail = (s.stack.scbs q).rxq.tail := by
      unfold mbufqPophead
      rw [if_neg h0]
    exact htail.trans (hQq.tail [] a (by rw [hnil]; rfl))
  · exact (h.kept (.inl q) a hmem).mono rfl rfl rfl (h.kept (.inl q) a hmem).text

/-- What the rest of a pass does: the mbuf is dropped, or what is left of it goes to the head of the queue. -/
theorem copyPass_spec (n : Stack) (h : Held) (cnt : UInt32) :
    ((copyPass n h cnt).alive = n.alive ∧ (copyPass n h cnt).brkScb = n.brkScb ∧ (copyPass n h cnt).brk = n.brk ∧
      ((copyPass n h cnt).scbs h.scb).txq = (n.scbs h.scb).txq ∧
      ∀ p, p ≠ h.scb → (copyPass n h cnt).scbs p = n.scbs p) ∧
    ((copyPass n h cnt).mbufs = n.mbufs ∧ ((copyPass n h cnt).scbs h.scb).rxq = (n.scbs h.scb).rxq ∨
      ∃ k, k ≤ (n.mbufs h.mbuf).len ∧
        (copyPass n h cnt).mbufs =
          (mbufqPushhead (update n.mbufs h.mbuf (mbufpull (n.mbufs h.mbuf) k).2) (n.scbs h.scb).rxq h.mbuf).1 ∧
        ((copyPass n h cnt).scbs h.scb).rxq =
          (mbufqPushhead (update n.mbufs h.mbuf (mbufpull (n.mbufs h.mbuf) k).2) (n.scbs h.scb).rxq h.mbuf).2) := by
  have hset : ∀ scb, (n.setScb h.scb scb).scbs h.scb = scb := fun scb => update_self ..
  have hold : ∀ scb p, p ≠ h.scb → (n.setScb h.scb scb).scbs p = n.scbs p := fun scb p hp => update_of_ne hp ..
  have hput : ∀ c, (n.putConn h.scb c).scbs = (n.setScb h.scb c.scb).scbs := fun _ => rfl
  unfold copyPass
  split_ifs
  · unfold sockrecvCopy
    dsimp only
    split_ifs with hn
    · exact ⟨⟨rfl, rfl, rfl, by rw [hput, hset]; rfl, hold _⟩, .inl ⟨rfl, by rw [hput, hset]; rfl⟩⟩
    · exact ⟨⟨rfl, rfl, rfl, by rw [hput, hset]; rfl, hold _⟩, .inl ⟨rfl, by rw [hput, hset]; rfl⟩⟩
    · exact ⟨⟨rfl, rfl, rfl, by rw [hput, hset]; rfl, hold _⟩, .inr ⟨cnt.toNat, Nat.le_of_not_lt hn, rfl,
        by rw [hput, hset]; rfl⟩⟩
  · unfold udpCopy
    dsimp only
    split_ifs with hn
    · exact ⟨⟨rfl, rfl, rfl, by rw [hset], hold _⟩, .inr ⟨_, le_of_lt hn, rfl, by rw [hset]⟩⟩
    · exact ⟨⟨rfl, rfl, rfl, rfl, fun _ _ => rfl⟩, .inl ⟨rfl, rfl⟩⟩

theorem Nic.Inv.copy (h : s.Inv Q) {cnt : UInt32} (hs : s.copy r cnt = some s') : ∃ Q', s'.Inv Q' := by
  obtain ⟨hd, hr, rfl⟩ := map_eq_some_iff.mp hs
  obtain ⟨⟨halive, hbrk, hb, htx, hold⟩, hpass⟩ := copyPass_spec s.stack hd cnt
  generalize copyPass s.stack hd cnt = n at *
  have hrd := h.reads r hd hr
  have ha : hd.mbuf ∈ s.unread Q (.inr r) := mem_held.mpr ⟨hd, hr, rfl⟩
  have hk := h.kept _ _ ha
  have hnot : hd.mbuf ∉ Q hd.scb := fun hq => nomatch h.once (.inl hd.scb) _ _ hq ha
  have hapart := h.apart.reader hb halive htx hold
  have htext : ∀ t b, b ≠ hd.mbuf → update s.text hd.mbuf t b = s.text b := fun t b hb => update_of_ne hb ..
  rcases hpass with ⟨hm, hrx⟩ | ⟨k, hlen, hm, hrx⟩
  · -- the queue stays as it is
    refine ⟨_, h.exchange (l := Q hd.scb)
      { alive := halive, brk := hbrk, apart := hapart, scbs := hold, heap := fun b _ => by rw [hm], text := htext _
        place := .inr ha, one := hrd.one, queue := fun hal => ?_, dead := h.dead hd.scb, sub := fun b hb _ => hb
        holds := fun _ hc => (nomatch hc), kept := fun hc => ?_ }⟩
    · rw [hrx, hm]
      exact h.queue _ hal
    · exact absurd hc (by simp [hnot])
  · have hheap : ∀ b, b ≠ hd.mbuf → n.mbufs b = s.stack.mbufs b := by
      intro b hb
      simp [hm, mbufqPushhead, setNext, hb]
    have hdata : (n.mbufs hd.mbuf).data = (s.stack.mbufs hd.mbuf).data.drop k ∧
        (n.mbufs hd.mbuf).head = (s.stack.mbufs hd.mbuf).head + k := by
      have hhead : (mbufpull (s.stack.mbufs hd.mbuf) k).2.head = (s.stack.mbufs hd.mbuf).head + k := by
        unfold mbufpull
        rw [if_neg (by omega)]
      rw [hm]
      simp only [mbufqPushhead, setNext_data, update_self, mbufpull_data _ _ hlen, true_and]
      simp [setNext, hhead]
    refine ⟨_, h.exchange (l := if s.stack.alive hd.scb = true then hd.mbuf :: Q hd.scb else [])
      { alive := halive, brk := hbrk, apart := hapart, scbs := hold, heap := hheap, text := htext _
        place := .inr ha, one := hrd.one, queue := fun hal => ?_, dead := fun hal => if_neg hal
        sub := fun b hb hba => ?_, holds := fun _ hc => (nomatch hc), kept := fun _ => ⟨hk.slot, ?_⟩ }⟩
    · rw [if_pos hal, hrx, hm]
      have hq := h.queue _ hal
      refine Queue.pushHead (hq.congr fun x hx => rfl) hk.le_ring.2 hnot (hrd.tail hal) ?_ fun x hx => ?_
      · simp [mbufqPushhead, setNext]
      · have hne : x ≠ hd.mbuf := fun e => hnot (e ▸ hx)
        simp [mbufqPushhead, setNext, hne]
    · split_ifs at hb with hal
      · exact (mem_cons.mp hb).resolve_left hba
      · cases hb
    · show (n.mbufs hd.mbuf).data = update s.text hd.mbuf _ hd.mbuf
      rw [update_self, hdata.1, hdata.2, Nat.add_sub_cancel_left, hk.text]

/-! ## Runs -/

theorem Nic.Inv.step (h : s.Inv Q) {e : NicEv} (hk : s.KeptUp e) (hs : s.step e = some s') : ∃ Q', s'.Inv Q' := by
  cases e with
  | deliver frame status => exact ⟨Q, h.deliver hk hs⟩
  | recv => exact h.recv hs
  | op o =>
    simp only [Nic.step] at hs
    split at hs
    · next hc =>
      obtain ⟨n, hn, rfl⟩ := map_eq_some_iff.mp hs
      exact h.leaves (h.apart.step hc hn) fun x h0 => (h.kept x 0 h0).le_ring.2 rfl
    · cases hs
  | pop r p => exact h.pop hk hs
  | copy r cnt => exact h.copy hs

theorem Nic.Inv.init : Nic.init.Inv fun _ => [] := by
  have hun : ∀ x a, a ∉ Nic.init.unread (fun _ => []) x := by
    rintro (p | r) a ha
    · cases ha
    · cases ha
  refine ⟨⟨by decide, fun p hp => ?_⟩, fun p hp => ?_, fun _ _ => rfl, fun p hp => ?_,
    fun x a ha => absurd ha (hun x a), fun x y a ha => absurd ha (hun x a), fun r hd hr => ?_, fun j hj hst => ?_, rfl,
    fun j => ⟨rfl, rfl⟩⟩
  · cases hp
  · cases hp
  · cases hp
  · cases hr
  · exact absurd (show (0 : UInt8) &&& rxdStatDd = 0 by decide) hst

end

end InternetOs.Net
