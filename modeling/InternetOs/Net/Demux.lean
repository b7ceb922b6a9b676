import InternetOs.Net.Ports

/-!
# Finding the block for a segment (`get_sock_cb`)

`get_sock_cb` takes the first block of the bucket that has the port and either the sender's address or
no remote port.  So a block without a remote port hides every block for the same port behind it, and the
lookup is right as long as the blocks with a remote port come first:

    x before y in a bucket, for one port, and y has a remote port
      → x has one too, and another one                              (Stack.Ordered)

A segment is only given to the first block that takes it, which keeps the order; `add_sock_cb` appends.  It
breaks when `get_new_sport` hands out a port that blocks in the table still have (demultiplexing_hidden).
-/

namespace InternetOs.Net

open SockCbState List Option Stack SockCb

/-- What `get_sock_cb` looks at. -/
def SockCb.addr (scb : SockCb) : UInt16 × UInt32 × UInt16 := (scb.sport, scb.raddr, scb.dport)

/-- The block is for exactly this connection. -/
def SockCb.IsFor (scb : SockCb) (sport : UInt16) (raddr : UInt32) (dport : UInt16) : Prop :=
  scb.sport = sport ∧ scb.raddr = raddr ∧ scb.dport = dport ∧ dport ≠ 0

/-- `a` may stand before `b`. -/
def SockCb.Precedes (a b : SockCb) : Prop :=
  a.sport = b.sport → b.dport ≠ 0 → a.dport ≠ 0 ∧ ¬ (a.raddr = b.raddr ∧ a.dport = b.dport)

/-- The block is in the table `t`. -/
def Stack.InTable (n : Stack) (t : Tab) (p : Nat) : Prop := ∃ i, n.Reach (n.table t i) p

/-- The steps that keep the order.  `socklisten` and `sockconnect` are on a block that is not linked, `sockaccept`
on one without a remote port, `sockconnect` only while the port of every linked block is marked in the port map.
`sockclose` and a segment meet no linked block without a remote port that they could free. -/
def DemuxStep (n : Stack) : Op → Prop
  | .sockalloc t => t ≠ .unknown
  | .socklisten p _ => ¬ n.Linked p
  | .sockaccept p => (n.scbs p).acptScb = 0 → (n.scbs p).dport = 0
  | .sockconnect p _ _ => ¬ n.Linked p ∧ ∀ q, n.Linked q → n.sportTable (n.scbs q).sport.toNat = true
  | .sockclose p => n.Linked p → (n.scbs p).dport = 0 → (n.scbs p).socktype = .tcp ∧
        ((n.scbs p).state = synRcvd ∨ (n.scbs p).state = estab ∨ (n.scbs p).state = closeWait)
  | .tcpRecv m _ _ => ∀ p, n.Linked p → (n.scbs p).sport = m.tcphdr.dport → (n.scbs p).dport = 0 →
      (n.scbs p).state = closed ∨ (n.scbs p).state = listen ∨ (n.scbs p).state = synSent
  | _ => True

def Stack.Ordered (n : Stack) (L : Tab → Nat → List Nat) : Prop :=
  ∀ t i, (L t i).Pairwise fun x y => (n.scbs x).Precedes (n.scbs y)

structure Stack.Demux (n : Stack) (L : Tab → Nat → List Nat) : Prop where
  inv : n.Inv L
  ordered : n.Ordered L
  current : AtByte n.currentSport

/-! ## The lookup -/

theorem SockCb.takes_iff {scb : SockCb} {sport : UInt16} {raddr : UInt32} {dport : UInt16} :
    scb.takes sport raddr dport = true ↔
      scb.sport = sport ∧ (scb.dport = 0 ∨ scb.dport = dport ∧ scb.raddr = raddr) := by
  unfold takes
  by_cases h0 : scb.dport = 0
  · simp [h0]
  · simp [h0]

theorem SockCb.precedes_congr {a b a' b' : SockCb} (ha : a'.addr = a.addr) (hb : b'.addr = b.addr) :
    a'.Precedes b' ↔ a.Precedes b := by
  simp only [addr, Prod.mk.injEq] at ha hb
  unfold Precedes
  rw [ha.1, ha.2.1, ha.2.2, hb.1, hb.2.1, hb.2.2]

section
variable {n n' : Stack} {L L' : Tab → Nat → List Nat} {p : Nat}

theorem Stack.Lists.inTable_iff (h : n.Lists L) {t : Tab} :
    n.InTable t p ↔ p ∈ L t ((n.scbs p).sport.toNat % sockCbLen) := by
  constructor
  · rintro ⟨i, hr⟩
    obtain ⟨b, hc⟩ := h.chain t i
    have hp := (DSeg.reach hc h.ne_zero).mp hr
    have hi : (n.scbs p).sport.toNat % sockCbLen = i := (h.mem t i p hp).2.2
    rw [hi]
    exact hp
  · intro hp
    obtain ⟨b, hc⟩ := h.chain t ((n.scbs p).sport.toNat % sockCbLen)
    exact ⟨_, (DSeg.reach hc h.ne_zero).mpr hp⟩

/-- **The lookup** in an ordered table. -/
theorem Stack.Demux.lookup (h : n.Demux L) (t : Tab) (sport : UInt16) (raddr : UInt32) (dport : UInt16) :
    ∃ r, getSockCb n t sport raddr dport = some r ∧
      (∀ p, n.InTable t p → (n.scbs p).IsFor sport raddr dport → r = p) ∧
      ((∀ p, n.InTable t p → ¬ (n.scbs p).IsFor sport raddr dport) →
        (r ≠ 0 ∧ n.InTable t r ∧ (n.scbs r).sport = sport ∧ (n.scbs r).dport = 0) ∨
        (r = 0 ∧ ∀ p, n.InTable t p → (n.scbs p).sport = sport → (n.scbs p).dport ≠ 0)) := by
  have hmem : ∀ p, n.InTable t p → (n.scbs p).sport = sport → p ∈ L t (sport.toNat % sockCbLen) := by
    intro p hp hs
    rw [← hs]
    exact h.inv.toLists.inTable_iff.mp hp
  obtain ⟨r, hr, hfirst⟩ := getSockCb_first h.inv.toLists h.inv.brk_pos t sport raddr dport
  refine ⟨r, hr, ?_⟩
  rcases hfirst with ⟨h0, hnone⟩ | ⟨l1, l2, hl, ht, hbefore⟩
  · -- nothing takes the segment
    have hno : ∀ p, n.InTable t p → (n.scbs p).sport = sport →
        (n.scbs p).dport ≠ 0 ∧ ¬ ((n.scbs p).dport = dport ∧ (n.scbs p).raddr = raddr) := by
      intro p hp hs
      have := hnone p (hmem p hp hs)
      rw [← Bool.not_eq_true, takes_iff, not_and, not_or] at this
      exact this hs
    exact ⟨fun p hp hf => absurd ⟨hf.2.2.1, hf.2.1⟩ (hno p hp hf.1).2,
      fun _ => .inr ⟨h0, fun p hp hs => (hno p hp hs).1⟩⟩
  · have hrl : r ∈ L t (sport.toNat % sockCbLen) := by
      rw [hl]
      exact mem_append_right _ mem_cons_self
    obtain ⟨hrs, hrt⟩ := takes_iff.mp ht
    have hrin : n.InTable t r := h.inv.toLists.inTable_iff.mpr (by rw [hrs]; exact hrl)
    refine ⟨fun p hp hf => ?_, fun hno => .inl ⟨h.inv.toLists.ne_zero r hrl, hrin, hrs, ?_⟩⟩
    · -- `p` is not before `r`, and `r` may not stand before it
      have hpl := hmem p hp hf.1
      rw [hl] at hpl
      rcases mem_append.mp hpl with hp1 | hp2
      · have := hbefore p hp1
        rw [← Bool.not_eq_true, takes_iff] at this
        exact absurd ⟨hf.1, .inr ⟨hf.2.2.1, hf.2.1⟩⟩ this
      · rcases mem_cons.mp hp2 with rfl | hp2
        · rfl
        · have hord := h.ordered t (sport.toNat % sockCbLen)
          rw [hl] at hord
          have hpre := (pairwise_cons.mp (pairwise_append.mp hord).2.1).1 p hp2
          obtain ⟨hd, hne⟩ := hpre (hrs.trans hf.1.symm) (by rw [hf.2.2.1]; exact hf.2.2.2)
          rcases hrt with h0 | ⟨hrd, hrr⟩
          · exact absurd h0 hd
          · exact absurd ⟨hrr.trans hf.2.1.symm, hrd.trans hf.2.2.1.symm⟩ hne
    · rcases hrt with h0 | ⟨hrd, hrr⟩
      · exact h0
      · by_contra hd
        exact hno r hrin ⟨hrs, hrr, hrd, hrd ▸ hd⟩

/-! ## Steps -/

/-- From `n` to `n'` no address but that of `p` has changed. -/
structure Stack.SameAddrs (p : Nat) (n n' : Stack) : Prop where
  addr : ∀ q, q ≠ p → (n'.scbs q).addr = (n.scbs q).addr
  current : n'.currentSport = n.currentSport

theorem Stack.SameAddrs.trans {n'' : Stack} (h : n.SameAddrs p n') (h' : n'.SameAddrs p n'') : n.SameAddrs p n'' :=
  ⟨fun q hq => (h'.addr q hq).trans (h.addr q hq), h'.current.trans h.current⟩

theorem Stack.sameAddrs_setScb (n : Stack) (p q : Nat) {scb : SockCb} (h : q = p ∨ scb.addr = (n.scbs q).addr) :
    n.SameAddrs p (n.setScb q scb) := by
  refine ⟨fun r hr => ?_, rfl⟩
  by_cases hrq : r = q
  · subst hrq
    simpa using h.resolve_left hr
  · simp [hrq]

theorem Stack.sameAddrs_putConn (n : Stack) (p q : Nat) {c : Conn} (h : q = p ∨ c.scb.addr = (n.scbs q).addr) :
    n.SameAddrs p (n.putConn q c) :=
  ⟨(n.sameAddrs_setScb p q h).addr, rfl⟩

theorem sameAddrs_linkClosed (p : Nat) : LinkClosed (SameAddrs p) where
  refl _ := ⟨fun _ _ => rfl, rfl⟩
  trans h h' := h.trans h'
  next n q _ := n.sameAddrs_setScb p q (.inr rfl)
  prev n q _ := n.sameAddrs_setScb p q (.inr rfl)
  head _ _ _ _ := ⟨fun _ _ => rfl, rfl⟩

theorem freeSockCb_sameAddrs {q : Nat} (hs : freeSockCb n q = some n') : n.SameAddrs p n' := by
  obtain ⟨n1, h1, rfl⟩ := (sameAddrs_linkClosed p).freeSockCb hs
  exact ⟨h1.addr, h1.current⟩

theorem Stack.Ordered.mono (h : n.Ordered L) (hsub : ∀ t i, (L' t i).Sublist (L t i))
    (haddr : ∀ t i, ∀ x ∈ L t i, (n'.scbs x).addr = (n.scbs x).addr) : n'.Ordered L' := by
  intro t i
  refine (List.Pairwise.imp_of_mem (fun {x y} hx hy hp => ?_) (h t i)).sublist (hsub t i)
  exact (precedes_congr (haddr t i x hx) (haddr t i y hy)).mpr hp

/-- A block is appended that every block may stand before. -/
theorem Stack.Ordered.append (h : n.Ordered L) (hsub : ∀ t i, (L' t i).Sublist (L t i ++ [p]))
    (haddr : ∀ t i, ∀ x ∈ L t i, (n'.scbs x).addr = (n.scbs x).addr)
    (hnew : ∀ t i, ∀ x ∈ L t i, (n'.scbs x).Precedes (n'.scbs p)) : n'.Ordered L' := by
  intro t i
  refine List.Pairwise.sublist (hsub t i) ?_
  rw [pairwise_append]
  refine ⟨h.mono (fun _ _ => .refl _) haddr t i, pairwise_singleton _ _, fun x hx y hy => ?_⟩
  rw [List.mem_singleton.mp hy]
  exact hnew t i x hx

/-- The first block that takes a segment gets the address of its sender. -/
theorem Stack.Ordered.found (h : n.Ordered L) (hl : n.Lists L) {t : Tab} {i r : Nat} {l1 l2 : List Nat}
    (hsplit : L t i = l1 ++ r :: l2) {sport : UInt16} {raddr : UInt32} {dport : UInt16}
    (ht : (n.scbs r).takes sport raddr dport = true)
    (hbefore : ∀ x ∈ l1, (n.scbs x).takes sport raddr dport = false) (ha : n.SameAddrs r n')
    (hr : (n'.scbs r).addr = (n.scbs r).addr ∨ (n'.scbs r).addr = (sport, raddr, dport)) : n'.Ordered L := by
  obtain ⟨hrs, hrt⟩ := takes_iff.mp ht
  have hmono : (n'.scbs r).addr = (n.scbs r).addr → n'.Ordered L := by
    intro hr
    refine h.mono (fun _ _ => .refl _) fun t i x _ => ?_
    by_cases hx : x = r
    · rw [hx]
      exact hr
    · exact ha.addr x hx
  rcases hr with hr | hr
  · exact hmono hr
  rcases hrt with h0 | ⟨hd, hra⟩
  swap
  · refine hmono (hr.trans ?_)
    rw [addr, hrs, hd, hra]
  have hnd := hl.nodup t i
  rw [hsplit] at hnd
  have hr1 : r ∉ l1 := fun hm => (nodup_append.mp hnd).2.2 r hm r mem_cons_self rfl
  have hr2 : r ∉ l2 := (nodup_cons.mp (nodup_append.mp hnd).2.1).1
  have haddr : ∀ x, x ≠ r → (n'.scbs x).addr = (n.scbs x).addr := ha.addr
  have hcongr : ∀ x y, x ≠ r → y ≠ r → (n.scbs x).Precedes (n.scbs y) → (n'.scbs x).Precedes (n'.scbs y) :=
    fun x y hx hy => (precedes_congr (haddr x hx) (haddr y hy)).mpr
  intro t' i'
  by_cases hti : r ∈ L t' i'
  swap
  · refine List.Pairwise.imp_of_mem (fun {x y} hx hy hp => ?_) (h t' i')
    exact hcongr x y (fun e => hti (e ▸ hx)) (fun e => hti (e ▸ hy)) hp
  obtain ⟨rfl, rfl⟩ := hl.once (by rw [hsplit]; exact mem_append_right _ mem_cons_self) hti
  have hord := h t i
  rw [hsplit, pairwise_append, pairwise_cons] at hord
  obtain ⟨ho1, ⟨hor, ho2⟩, hcross⟩ := hord
  simp only [addr, Prod.mk.injEq] at hr
  rw [hsplit, pairwise_append, pairwise_cons]
  refine ⟨List.Pairwise.imp_of_mem (fun {x y} hx hy hp => ?_) ho1, ⟨fun y hy => ?_,
    List.Pairwise.imp_of_mem (fun {x y} hx hy hp => ?_) ho2⟩, fun x hx y hy => ?_⟩
  · exact hcongr x y (fun e => hr1 (e ▸ hx)) (fun e => hr1 (e ▸ hy)) hp
  · -- behind a block without a remote port there is none with one
    have hy' := haddr y (fun e => hr2 (e ▸ hy))
    simp only [addr, Prod.mk.injEq] at hy'
    intro hsp hdy
    rw [hr.1, hy'.1] at hsp
    rw [hy'.2.2] at hdy
    exact absurd h0 (hor y hy (hrs.trans hsp) hdy).1
  · exact hcongr x y (fun e => hr2 (e ▸ hx)) (fun e => hr2 (e ▸ hy)) hp
  · have hxr : x ≠ r := fun e => hr1 (e ▸ hx)
    rcases mem_cons.mp hy with rfl | hy
    · -- a block before it does not take the sender
      have hno := hbefore x hx
      rw [← Bool.not_eq_true, takes_iff, not_and, not_or] at hno
      have hx' := haddr x hxr
      simp only [addr, Prod.mk.injEq] at hx'
      intro hsp _
      rw [hx'.1, hr.1] at hsp
      rw [hx'.2.1, hx'.2.2, hr.2.1, hr.2.2]
      obtain ⟨hd0, hne⟩ := hno hsp
      exact ⟨hd0, fun e => hne ⟨e.2, e.1⟩⟩
    · exact hcongr x y hxr (fun e => hr2 (e ▸ hy)) (hcross x hx y (mem_cons_of_mem _ hy))

/-- A segment does not free a linked block without a remote port. -/
theorem DemuxStep.keeps (h : n.Inv L) {m : Mbuf} {len : UInt16} {raddr : UInt32}
    (hg : DemuxStep n (.tcpRecv m len raddr)) (hp : getSockCb n .tcp m.tcphdr.dport raddr m.tcphdr.sport = some p)
    (h0 : p ≠ 0) (hd : (n.scbs p).dport = 0) :
    (tcpRecvSwitch ((n.conn p).newMbuf m) n.brk len raddr m.tcphdr.sport).2 = false := by
  obtain ⟨r, hr, hm⟩ := getSockCb_spec h.toLists h.brk_pos .tcp m.tcphdr.dport raddr m.tcphdr.sport
  obtain rfl : r = p := some.inj (hr.symm.trans hp)
  obtain ⟨hmem, ht⟩ := hm.resolve_left h0
  have hst := hg r (h.toLists.linked_iff.mpr ⟨_, _, hmem⟩) (takes_iff.mp ht).1 hd
  by_contra hfreed
  rw [Bool.not_eq_false] at hfreed
  obtain ⟨h1, h2, h3, -⟩ := mayFree_of_found hfreed
  rcases hst with hst | hst | hst
  · exact h1 hst
  · exact h2 hst
  · exact h3 hst

namespace Stack.Demux

section
variable (h : n.Demux L)
include h

/-- Blocks may be taken out, and no linked block gets another address. -/
theorem mono (hi : n'.Inv L') (hsub : ∀ t i, (L' t i).Sublist (L t i)) (ha : n.SameAddrs p n')
    (hp : ∀ t i, p ∉ L t i) : n'.Demux L' :=
  ⟨hi, h.ordered.mono hsub fun t i x hx => ha.addr x fun e => hp t i (e ▸ hx), by rw [ha.current]; exact h.current⟩

theorem zero_notMem : ∀ t i, 0 ∉ L t i := fun _ _ hm => h.inv.toLists.ne_zero 0 hm rfl

theorem sockaccept (hp : n.alive p = true) (hg : DemuxStep n (.sockaccept p))
    (hs : sockaccept n p = some n') : ∃ L', n'.Demux L' := by
  obtain ⟨L', hi, hsub⟩ := sockaccept_inv h.inv hp hs
  unfold Net.sockaccept at hs
  split at hs
  · split at hs
    · cases hs
      exact ⟨L, h⟩
    · cases hs
  · next h0 =>
    have hd := hg (not_not.mp h0)
    have hpb : p ≠ n.brkScb := ne_of_lt (h.inv.fresh p hp).2
    have hbrk : n.brkScb ≠ 0 := ne_of_gt h.inv.brk_pos
    have hadd := (sameAddrs_linkClosed 0).addSockCb hs
    generalize hn1 : (sockcopy n p).1.setScb p { (sockcopy n p).1.scbs p with acptScb := (sockcopy n p).2 } = n1 at hadd
    have h1 : ∀ q, q ≠ n.brkScb → (n1.scbs q).addr = (n.scbs q).addr := by
      intro q hq
      rw [← hn1]
      by_cases hqp : q = p
      · subst hqp
        simp [sockcopy, alloc, hq, addr]
      · simp [sockcopy, alloc, hq, hqp]
    have hnew : (n1.scbs n.brkScb).dport = 0 := by
      rw [← hn1]
      simp [sockcopy, alloc, Ne.symm hpb, allocSockCb, hd]
    have hcur : n1.currentSport = n.currentSport := by rw [← hn1]; rfl
    refine ⟨L', hi, h.ordered.append hsub (fun t i x hx => ?_) fun t i x hx _ hdb => ?_, ?_⟩
    · rw [hadd.addr x (h.inv.toLists.ne_zero x hx), h1 x fun e => h.inv.brk_notMem t i (e ▸ hx)]
    · have := hadd.addr n.brkScb hbrk
      simp only [addr, Prod.mk.injEq] at this
      exact absurd (this.2.2.trans hnew) hdb
    · rw [hadd.current, hcur]
      exact h.current

theorem sockconnect (hp : n.alive p = true) {raddr : UInt32} {dport : UInt16}
    (hg : DemuxStep n (.sockconnect p raddr dport)) (hs : sockconnect n p raddr dport = some n') :
    ∃ L', n'.Demux L' := by
  obtain ⟨hnot, hbits⟩ := hg
  obtain ⟨L', hi, hsub⟩ := sockconnect_inv h.inv hp hnot hs
  have hnotp := h.inv.notMem_of_not_linked hnot
  have hp0 : p ≠ 0 := (h.inv.fresh p hp).1
  obtain ⟨r, hr, hs⟩ := bind_eq_some_iff.mp hs
  obtain ⟨n1, hadd, hs⟩ := bind_eq_some_iff.mp hs
  obtain ⟨hcur, -, hfree, heq, -⟩ := getNewSport_spec hr h.current
  have hscbs : r.1.scbs = n.scbs := by rw [heq]
  have hadd := (sameAddrs_linkClosed 0).addSockCb hadd
  have hlast : n1.SameAddrs 0 n' := by
    split at hs
    · obtain ⟨c, hc, rfl⟩ := map_eq_some_iff.mp hs
      refine n1.sameAddrs_putConn 0 p (.inr ?_)
      unfold tcpConnect at hc
      split at hc
      · cases hc
      · cases hc
        rfl
    · rw [← some.inj hs]
      exact (sameAddrs_linkClosed 0).refl n1
  have hall := hadd.trans hlast
  have hnew : (n'.scbs p).addr = (r.2, raddr, dport) := by
    rw [hall.addr p hp0]
    simp [addr]
  have hold : ∀ t i, ∀ x ∈ L t i, (n'.scbs x).addr = (n.scbs x).addr := by
    intro t i x hx
    have hxp : x ≠ p := fun e => hnotp t i (e ▸ hx)
    rw [hall.addr x (h.inv.toLists.ne_zero x hx)]
    simp [hxp, hscbs]
  refine ⟨L', hi, h.ordered.append hsub hold fun t i x hx hsp _ => ?_, ?_⟩
  · -- the new port is not marked, so no linked block has it
    have hb := hbits x (h.inv.toLists.linked_iff.mpr ⟨t, i, hx⟩)
    have hx' := hold t i x hx
    simp only [addr, Prod.mk.injEq] at hx' hnew
    rw [← hx'.1, hsp, hnew.1, hfree] at hb
    cases hb
  · rw [hall.current]
    exact hcur

theorem sockclose (hp : n.alive p = true) (hg : DemuxStep n (.sockclose p))
    (hs : sockclose n p = some n') : ∃ L', n'.Demux L' := by
  obtain ⟨L', hi, hsub⟩ := sockclose_inv h.inv hp hg hs
  refine ⟨L', h.mono (p := 0) hi hsub ?_ h.zero_notMem⟩
  have hf : n.SameAddrs 0 (n.setScb p { n.scbs p with f := 0 }) := n.sameAddrs_setScb 0 p (.inr rfl)
  unfold Net.sockclose at hs
  dsimp only at hs
  generalize n.setScb p { n.scbs p with f := 0 } = n1 at hs hf
  have hput : n1.SameAddrs 0 (n1.putConn p (tcpClose (n1.conn p)).1) := by
    refine n1.sameAddrs_putConn 0 p (.inr ?_)
    obtain ⟨st, txq, snd, hc⟩ := tcpClose_frame (n1.conn p)
    rw [hc]
    rfl
  split at hs
  · split at hs
    · exact (hf.trans hput).trans (freeSockCb_sameAddrs hs)
    · cases hs
      exact hf.trans hput
  · exact hf.trans (freeSockCb_sameAddrs hs)

theorem tcpRecv {m : Mbuf} {len : UInt16} {raddr : UInt32} (hg : DemuxStep n (.tcpRecv m len raddr))
    (hs : tcpRecv n m len raddr = some n') : ∃ L', n'.Demux L' := by
  obtain ⟨L', hi, hsub⟩ := tcpRecv_inv h.inv (fun _ hq h0 _ => DemuxStep.keeps h.inv hg hq h0) hs
  rcases tcpRecv_cases hs with rfl | ⟨p, n1, hp, h0, -, hn1, hs⟩
  · exact ⟨L, h⟩
  obtain ⟨r, hr, hfirst⟩ := getSockCb_first h.inv.toLists h.inv.brk_pos .tcp m.tcphdr.dport raddr m.tcphdr.sport
  obtain rfl : r = p := some.inj (hr.symm.trans hp)
  obtain ⟨l1, l2, hl, ht, hbefore⟩ := hfirst.resolve_left fun h => h0 h.1
  have hput : n.SameAddrs r n1 := by
    rw [hn1]
    exact ⟨(n.sameAddrs_putConn r r (.inl rfl)).addr, rfl⟩
  have haddr : (n1.scbs r).addr = (n.scbs r).addr ∨ (n1.scbs r).addr = (m.tcphdr.dport, raddr, m.tcphdr.sport) := by
    obtain ⟨st, snd, rcv, rxq, ra, dp, hc, hra⟩ :=
      (tcpRecvSwitch_frame ((n.conn r).newMbuf m) n.brk len raddr m.tcphdr.sport).scb
    have : n1.scbs r = (tcpRecvSwitch ((n.conn r).newMbuf m) n.brk len raddr m.tcphdr.sport).1.scb := by
      rw [hn1]
      simp
    rw [this, hc]
    rcases hra with ⟨rfl, rfl⟩ | ⟨rfl, rfl, -⟩
    · exact .inl rfl
    · refine .inr ?_
      rw [← (takes_iff.mp ht).1]
      rfl
  have hord := h.ordered.found h.inv.toLists hl ht hbefore hput haddr
  have hfree : n1.SameAddrs 0 n' := by
    split at hs
    · exact freeSockCb_sameAddrs hs
    · rw [hs]
      exact (sameAddrs_linkClosed 0).refl n1
  refine ⟨L', hi, hord.mono hsub fun t i x hx => hfree.addr x (h.inv.toLists.ne_zero x hx), ?_⟩
  rw [hfree.current, hput.current]
  exact h.current

theorem udpRecv {m : Mbuf} {len : UInt16} {raddr : UInt32} {hdr : UdpHdr}
    (hs : udpRecv n m len raddr hdr = some n') : n'.Demux L := by
  have hi := udpRecv_inv h.inv hs
  unfold Net.udpRecv at hs
  split at hs
  · cases hs
    exact h
  split at hs
  · cases hs
    exact h
  obtain ⟨p, hp, hs⟩ := map_eq_some_iff.mp hs
  split at hs
  · rw [← hs]
    exact h
  · next h0 =>
    obtain ⟨r, hr, hfirst⟩ := getSockCb_first h.inv.toLists h.inv.brk_pos .udp hdr.dport raddr hdr.sport
    obtain rfl : r = p := some.inj (hr.symm.trans hp)
    obtain ⟨l1, l2, hl, ht, hbefore⟩ := hfirst.resolve_left fun h => h0 h.1
    have hput : n.SameAddrs r n' := by
      rw [← hs]
      exact n.sameAddrs_putConn r r (.inl rfl)
    refine ⟨hi, h.ordered.found h.inv.toLists hl ht hbefore hput ?_, by rw [hput.current]; exact h.current⟩
    rw [← hs, ← (takes_iff.mp ht).1]
    simp only [putConn, conn, setScb, Function.update_self]
    split
    · exact .inr rfl
    · exact .inl rfl

theorem step {op : Op} (hs : guard DemuxStep Step n op n') : ∃ L', n'.Demux L' := by
  obtain ⟨hg, hs⟩ := hs
  have hsame : ∀ L : Tab → Nat → List Nat, ∀ t i, (L t i).Sublist (L t i) := fun _ _ _ => .refl _
  cases op with
  | sockalloc t =>
    cases hs
    refine ⟨L, h.mono (p := n.brkScb) (sockalloc_inv h.inv hg) (hsame L) ⟨fun q hq => ?_, rfl⟩ h.inv.brk_notMem⟩
    simp [Net.sockalloc, alloc, hq]
  | socklisten p sport =>
    obtain ⟨-, hs⟩ := usable_of_some hs
    cases hs
    refine ⟨L, h.mono (p := p) (socklisten_inv h.inv fun hl => absurd hl hg) (hsame L) ?_
      (h.inv.notMem_of_not_linked hg)⟩
    unfold Net.socklisten getSpecifiedSport
    split
    · exact n.sameAddrs_setScb p p (.inl rfl)
    · refine ⟨fun q hq => ?_, rfl⟩
      simp [hq]
  | sockaccept p =>
    obtain ⟨ha, hs⟩ := usable_of_some hs
    exact h.sockaccept ha hg hs
  | sockacceptDone p =>
    obtain ⟨-, hs⟩ := usable_of_some hs
    refine ⟨L, h.mono (p := 0) (sockacceptDone_inv h.inv hs) (hsame L) ?_ h.zero_notMem⟩
    unfold sockacceptDone at hs
    split at hs
    · cases hs
      exact n.sameAddrs_setScb 0 p (.inr rfl)
    · cases hs
  | sockconnect p raddr dport =>
    obtain ⟨ha, hs⟩ := usable_of_some hs
    exact h.sockconnect ha hg hs
  | socksend p m flg =>
    obtain ⟨-, hs⟩ := usable_of_some hs
    refine ⟨L, h.mono (p := 0) (socksend_inv h.inv hs) (hsame L) ?_ h.zero_notMem⟩
    unfold socksend at hs
    split at hs
    · obtain ⟨r, hr, rfl⟩ := map_eq_some_iff.mp hs
      refine n.sameAddrs_putConn 0 p (.inr ?_)
      obtain ⟨st, txq, snd, hc⟩ := tcpSend_frame hr
      rw [hc]
      rfl
    · cases hs
      exact (sameAddrs_linkClosed 0).refl n
  | sockclose p =>
    obtain ⟨ha, hs⟩ := usable_of_some hs
    exact h.sockclose ha hg hs
  | tcpRecv m len raddr => exact h.tcpRecv hg hs
  | udpRecv m len raddr hdr => exact ⟨L, h.udpRecv hs⟩

end

end Stack.Demux

end

theorem socketInit_demux : socketInit.Demux fun _ _ => [] :=
  ⟨socketInit_inv, fun _ _ => List.Pairwise.nil, by decide, by decide, by decide⟩

/-- **Demultiplexing.**  In every run whose steps meet `DemuxStep`, the lookup finds the block that is for exactly
the connection, and no second one is; without such a block it finds one for the port that has no remote port, and
nothing if there is none. -/
theorem demultiplexing {ops : List Op} {n : Stack} (hrun : Run (guard DemuxStep Step) socketInit ops n)
    (t : Tab) (sport : UInt16) (raddr : UInt32) (dport : UInt16) : ∃ r, getSockCb n t sport raddr dport = some r ∧
      (∀ p, n.InTable t p → (n.scbs p).IsFor sport raddr dport → r = p) ∧
      ((∀ p, n.InTable t p → ¬ (n.scbs p).IsFor sport raddr dport) →
        (r ≠ 0 ∧ n.InTable t r ∧ (n.scbs r).sport = sport ∧ (n.scbs r).dport = 0) ∨
        (r = 0 ∧ ∀ p, n.InTable t p → (n.scbs p).sport = sport → (n.scbs p).dport ≠ 0)) := by
  have h : ∃ L, n.Demux L := by
    refine hrun.inv (I := fun n => ∃ L, n.Demux L) ?_ ⟨_, socketInit_demux⟩
    rintro s op s' ⟨L, h⟩ hs
    exact h.step hs
  obtain ⟨L, h⟩ := h
  exact h.lookup t sport raddr dport

/-- Enough for `DemuxStep`, and can be checked. -/
def Stack.demuxOk (n : Stack) : Op → Bool
  | .sockalloc t => t ≠ .unknown
  | .socklisten p _ => n.table (n.scbs p).socktype.tab (n.scbs p).bucket = 0
  | .sockaccept p => (n.scbs p).dport = 0
  | .tcpRecv _ _ _ => ∀ p < n.brkScb, (n.scbs p).dport = 0 → (n.scbs p).state = closed ∨ (n.scbs p).state = listen
  | .sockacceptDone _ => true
  | _ => false

theorem Stack.Demux.demuxStep {n : Stack} {L : Tab → Nat → List Nat} (h : n.Demux L) {op : Op}
    (hc : n.demuxOk op = true) : DemuxStep n op := by
  have hmem : ∀ {p}, n.Linked p → ∃ t i, p ∈ L t i := h.inv.linked_iff.mp
  cases op with
  | sockalloc t => exact of_decide_eq_true (p := t ≠ .unknown) hc
  | socklisten p sport =>
    intro hl
    obtain ⟨t, i, hm⟩ := hmem hl
    obtain ⟨-, rfl, rfl⟩ := h.inv.mem t i p hm
    obtain ⟨b, hseg⟩ := h.inv.chain (n.scbs p).socktype.tab (n.scbs p).bucket
    have hr := (DSeg.reach hseg h.inv.ne_zero).mpr hm
    rw [of_decide_eq_true hc] at hr
    cases hr with
    | here h0 | next h0 => exact h0 rfl
  | sockaccept p => exact fun _ => of_decide_eq_true hc
  | tcpRecv m len raddr =>
    intro p hl _ hd
    obtain ⟨t, i, hm⟩ := hmem hl
    have hlt := (h.inv.fresh p (h.inv.mem t i p hm).1).2
    rcases of_decide_eq_true hc p hlt hd with hst | hst
    · exact .inl hst
    · exact .inr (.inl hst)
  | sockacceptDone p => trivial
  | _ => cases hc

theorem Stack.inTable_two {n : Stack} {t : Tab} {i p q : Nat} (ht : n.table t i = p) (hn : n.next p = q)
    (hp : p ≠ 0) (hq : q ≠ 0) : n.InTable t p ∧ n.InTable t q := by
  subst ht hn
  exact ⟨⟨i, .here hp⟩, i, .next hp (.here hq)⟩

/-- A connection is accepted on port 20000, and the next block waits there. -/
def acceptedOne : List Op :=
  [.sockalloc .tcp, .socklisten 1 20000, .sockaccept 1, .tcpRecv (ctlMbuf 5 20000 7 0 tcpFlgSyn) 20 9,
    .tcpRecv (ctlMbuf 5 20000 8 1 tcpFlgAck) 20 9, .sockacceptDone 1, .sockaccept 1]

/-- The segments of the peer find the connection. -/
theorem demultiplexing_connected : ∃ n, Run (guard DemuxStep Step) socketInit acceptedOne n ∧
    n.InTable .tcp 2 ∧ (n.scbs 2).IsFor 20000 9 5 ∧
    n.InTable .tcp 3 ∧ (n.scbs 3).sport = 20000 ∧ (n.scbs 3).dport = 0 ∧ getSockCb n .tcp 20000 9 5 = some 2 := by
  obtain ⟨n, hn, ⟨htab, hnext⟩, ⟨hsp, hra, hdp⟩, hsp', hdp'⟩ : ∃ n,
      Run (guard (fun n op => n.demuxOk op = true) Step) socketInit acceptedOne n ∧
      (n.table .tcp (20000 % sockCbLen) = 2 ∧ n.next 2 = 3) ∧
      ((n.scbs 2).sport = 20000 ∧ (n.scbs 2).raddr = 9 ∧ (n.scbs 2).dport = 5) ∧
      (n.scbs 3).sport = 20000 ∧ (n.scbs 3).dport = 0 :=
    Run.find_guard (by decide +kernel) fun _ _ hv => hv
  have hrun := hn.guard_of (C := DemuxStep) (I := fun n => ∃ L, n.Demux L) (fun _ _ ⟨_, h⟩ => h.demuxStep)
    (fun _ _ _ ⟨_, h⟩ => h.step) ⟨_, socketInit_demux⟩
  obtain ⟨hin, hin'⟩ := inTable_two htab hnext (by decide) (by decide)
  have hfor : (n.scbs 2).IsFor 20000 9 5 := ⟨hsp, hra, hdp, by decide⟩
  obtain ⟨r, hr, hexact, -⟩ := demultiplexing hrun .tcp 20000 9 5
  rw [hexact 2 hin hfor] at hr
  exact ⟨n, hrun, hin, hfor, hin', hsp', hdp', hr⟩

/-- A listening socket whose accepted connection is reset loses its port while the next block already waits in the
table.  `get_new_sport` hands the port out again, and the waiting block hides the connection made with it. -/
theorem demultiplexing_hidden : ∃ n, Run Step socketInit
      [.sockalloc .tcp, .socklisten 1 20000, .sockaccept 1, .tcpRecv (ctlMbuf 5 20000 7 0 tcpFlgSyn) 20 9,
        .tcpRecv (ctlMbuf 5 20000 8 1 tcpFlgAck) 20 9, .sockacceptDone 1, .sockaccept 1,
        .tcpRecv (ctlMbuf 5 20000 8 0 tcpFlgRst) 20 9, .sockalloc .tcp, .sockconnect 4 10 6] n ∧
    n.InTable .tcp 4 ∧ (n.scbs 4).IsFor 20000 10 6 ∧ getSockCb n .tcp 20000 10 6 = some 3 := by
  refine Run.find (P := fun n => n.table .tcp (20000 % sockCbLen) = 3 ∧ n.next 3 = 4 ∧
    ((n.scbs 4).sport = 20000 ∧ (n.scbs 4).raddr = 10 ∧ (n.scbs 4).dport = 6) ∧
    getSockCb n .tcp 20000 10 6 = some 3) (by decide +kernel) ?_
  rintro n - ⟨htab, hnext, ⟨hsp, hra, hdp⟩, hget⟩
  exact ⟨(inTable_two htab hnext (by decide) (by decide)).2, ⟨hsp, hra, hdp, by decide⟩, hget⟩

end InternetOs.Net
