import InternetOs.Net.TableLists

/-!
# The socket tables stay well formed

Nothing records whether a block is linked: `free_sock_cb` takes `dport ≠ 0` for it,
`sockconnect` links what may be linked already, `socklisten` changes the port of what may
be linked.  Away from these three the tables stay well formed:

    Run (guard TableStep Stack.Step) socketInit ops n → n.TableOk        (tableInvariant)
-/

namespace InternetOs.Net

open SockCbState Function Option List Stack

/-! ## The invariant -/

/-- `q` is reached from `p` along `next`. -/
inductive Stack.Reach (n : Stack) : Nat → Nat → Prop
  | here {p : Nat} (h : p ≠ 0) : n.Reach p p
  | next {p q : Nat} (h : p ≠ 0) (hr : n.Reach (n.next p) q) : n.Reach p q

/-- The block can be reached from some bucket. -/
def Stack.Linked (n : Stack) (p : Nat) : Prop := ∃ t i, n.Reach (n.table t i) p

/-- All but the block at `x` that has a remote port are linked. -/
structure Stack.InvBut (n : Stack) (L : Tab → Nat → List Nat) (x : Nat) : Prop extends n.Lists L where
  linked : ∀ p, p ≠ x → n.alive p = true → (n.scbs p).dport ≠ 0 → p ∈ L (n.scbs p).socktype.tab (n.scbs p).bucket
  typed : ∀ p, n.alive p = true → (n.scbs p).socktype ≠ .unknown
  brk_pos : 0 < n.brkScb

/-- The invariant of the tables: there is no block at address 0. -/
def Stack.Inv (n : Stack) (L : Tab → Nat → List Nat) : Prop := n.InvBut L 0

section
variable {n n' : Stack} {L : Tab → Nat → List Nat} {p x : Nat}

theorem DSeg.reach {l : List Nat} {a q b : Nat} (h : DSeg n.next n.prev a q l b 0)
    (h0 : ∀ y ∈ l, y ≠ 0) : n.Reach q p ↔ p ∈ l := by
  induction l generalizing a q with
  | nil =>
    constructor
    · intro hr
      cases hr with
      | here h' => exact absurd h.2.symm h'
      | next h' _ => exact absurd h.2.symm h'
    · intro hp
      cases hp
  | cons y l ih =>
    obtain ⟨rfl, -, hl⟩ := h
    have ih' := ih hl fun z hz => h0 z (mem_cons_of_mem q hz)
    constructor
    · intro hr
      cases hr with
      | here _ => exact mem_cons_self
      | next _ hr => exact mem_cons_of_mem q (ih'.mp hr)
    · intro hp
      rcases mem_cons.mp hp with rfl | hp
      · exact .here (h0 p mem_cons_self)
      · exact .next (h0 q mem_cons_self) (ih'.mpr hp)

theorem Stack.Lists.linked_iff (h : n.Lists L) : n.Linked p ↔ ∃ t i, p ∈ L t i := by
  constructor
  · rintro ⟨t, i, hr⟩
    obtain ⟨b, hc⟩ := h.chain t i
    exact ⟨t, i, (DSeg.reach hc h.ne_zero).mp hr⟩
  · rintro ⟨t, i, hp⟩
    obtain ⟨b, hc⟩ := h.chain t i
    exact ⟨t, i, (DSeg.reach hc h.ne_zero).mpr hp⟩

theorem Stack.Lists.own (h : n.Lists L) {t : Tab} {i : Nat} (hp : p ∈ L t i) :
    p ∈ L (n.scbs p).socktype.tab (n.scbs p).bucket := by
  obtain ⟨-, ht, hi⟩ := h.mem t i p hp
  rw [ht, hi]
  exact hp

theorem Stack.Inv.of_lists (h : n.Lists L) (hl : ∀ p, n.alive p = true → (n.scbs p).dport ≠ 0 →
    p ∈ L (n.scbs p).socktype.tab (n.scbs p).bucket)
    (ht : ∀ p, n.alive p = true → (n.scbs p).socktype ≠ .unknown) (hb : 0 < n.brkScb) : n.Inv L :=
  ⟨h, fun p _ => hl p, ht, hb⟩

theorem Stack.Inv.linked_of (h : n.Inv L) (ha : n.alive p = true) (hd : (n.scbs p).dport ≠ 0) :
    p ∈ L (n.scbs p).socktype.tab (n.scbs p).bucket :=
  h.linked p (h.fresh p ha).1 ha hd

/-- The invariant depends on the blocks, on which are allocated and on the heads. -/
theorem Stack.InvBut.of_eq (h : n.InvBut L x) (hs : n'.scbs = n.scbs) (ha : n'.alive = n.alive)
    (hb : n'.brkScb = n.brkScb) (ht : n'.table = n.table) : n'.InvBut L x := by
  have hn : n'.next = n.next := by funext q; simp [Stack.next, hs]
  have hp : n'.prev = n.prev := by funext q; simp [prev, hs]
  refine ⟨⟨?_, h.nodup, ?_, ?_⟩, ?_, ?_, ?_⟩
  · rw [hn, hp, ht]
    exact h.chain
  · rw [ha, hs]
    exact h.mem
  · rw [ha, hb]
    exact h.fresh
  · rw [ha, hs]
    exact h.linked
  · rw [ha, hs]
    exact h.typed
  · rw [hb]
    exact h.brk_pos

theorem Stack.InvBut.setScb (h : n.InvBut L x) {scb : SockCb} (hl : (n.scbs p).SameLinks scb)
    (hd : scb.dport ≠ 0 → p = x ∨ (n.scbs p).dport ≠ 0 ∨ ∃ t i, p ∈ L t i) : (n.setScb p scb).InvBut L x := by
  have hsame : ∀ q, (n.scbs q).SameLinks ((n.setScb p scb).scbs q) := by
    intro q
    by_cases hq : q = p
    · subst hq
      simpa using hl
    · simpa [hq] using SockCb.SameLinks.refl (n.scbs q)
  have hn : (n.setScb p scb).next = n.next := funext fun q => (hsame q).next
  have hp : (n.setScb p scb).prev = n.prev := funext fun q => (hsame q).prev
  refine ⟨⟨?_, h.nodup, ?_, h.fresh⟩, ?_, ?_, h.brk_pos⟩
  · rw [hn, hp]
    exact h.chain
  · intro t i q hq
    rw [(hsame q).socktype, (hsame q).bucket]
    exact h.mem t i q hq
  · intro q hqx ha hdq
    rw [(hsame q).socktype, (hsame q).bucket]
    by_cases hq : q = p
    · subst hq
      have hdq : scb.dport ≠ 0 := by simpa using hdq
      rcases hd hdq with rfl | hd | ⟨t, i, hd⟩
      · exact absurd rfl hqx
      · exact h.linked q hqx ha hd
      · exact h.own hd
    · exact h.linked q hqx ha (by simpa [hq] using hdq)
  · intro q ha
    rw [(hsame q).socktype]
    exact h.typed q ha

theorem Stack.InvBut.putConn (h : n.InvBut L x) {c : Conn} (hl : (n.scbs p).SameLinks c.scb)
    (hd : c.scb.dport ≠ 0 → p = x ∨ (n.scbs p).dport ≠ 0 ∨ ∃ t i, p ∈ L t i) : (n.putConn p c).InvBut L x :=
  (h.setScb hl hd).of_eq rfl rfl rfl rfl

theorem Stack.InvBut.setFree (h : n.InvBut L x) (hx : p = x ∨ x = 0) (hnot : ∀ t i, p ∉ L t i)
    {scb : SockCb} (ht : scb.socktype = (n.scbs p).socktype) : (n.setScb p scb).InvBut L p := by
  have hother : ∀ q, q ≠ p → (n.setScb p scb).scbs q = n.scbs q := by
    intro q hq
    simp [hq]
  have hmem : ∀ {t i} {q}, q ∈ L t i → q ≠ p := by
    rintro t i q hq rfl
    exact hnot t i hq
  refine ⟨⟨fun t i => ?_, h.nodup, ?_, h.fresh⟩, ?_, ?_, h.brk_pos⟩
  · obtain ⟨b, hc⟩ := h.chain t i
    refine ⟨b, hc.congr fun q hq => ?_⟩
    simp only [Stack.next, prev, hother q (hmem hq), and_self]
  · intro t i q hq
    rw [hother q (hmem hq)]
    exact h.mem t i q hq
  · intro q hq ha hd
    rw [hother q hq] at hd ⊢
    refine h.linked q ?_ ha hd
    rcases hx with rfl | rfl
    · exact hq
    · exact (h.fresh q ha).1
  · intro q ha
    by_cases hq : q = p
    · subst hq
      rw [show ((n.setScb q scb).scbs q) = scb by simp, ht]
      exact h.typed q ha
    · rw [hother q hq]
      exact h.typed q ha

/-- After `add_sock_cb` every block with a remote port is linked. -/
theorem addSockCb_inv (h : n.InvBut L p) (hp : n.alive p = true) (hnot : ∀ t i, p ∉ L t i) :
    ∃ n' L', addSockCb n p = some n' ∧ n'.Inv L' ∧ ∀ t i, (L' t i).Sublist (L t i ++ [p]) := by
  obtain ⟨n', L', heq, hl, hr, hiff, hsub⟩ := addSockCb_lists h.toLists h.brk_pos hp hnot
  refine ⟨n', L', heq, Inv.of_lists hl (fun q ha hd => ?_) (fun q ha => ?_) ?_, hsub⟩
  · rw [hr.socktype, hr.bucket, hiff]
    rw [hr.alive] at ha
    rw [hr.dport] at hd
    by_cases hq : q = p
    · subst hq
      exact .inr ⟨rfl, rfl, rfl⟩
    · exact .inl (h.linked q hq ha hd)
  · rw [hr.socktype]
    rw [hr.alive] at ha
    exact h.typed q ha
  · rw [hr.brkScb]
    exact h.brk_pos

/-- **`free_sock_cb`** of a block that has a remote port exactly if it is linked. -/
theorem freeSockCb_inv (h : n.Inv L) (hp : n.alive p = true) (hd : (n.scbs p).dport = 0 → ∀ t i, p ∉ L t i) :
    ∃ n' L', freeSockCb n p = some n' ∧ n'.Inv L' ∧ ∀ t i, (L' t i).Sublist (L t i) := by
  -- what is left once the block is in no bucket
  have kill : ∀ {m : Stack} {K : Tab → Nat → List Nat}, m.Lists K → n.Relinked m →
      (∀ t i q, q ∈ K t i ↔ q ∈ L t i ∧ q ≠ p) →
      Inv { m with alive := update m.alive p false } K := by
    intro m K hm hr hiff
    have hal : ∀ q, update m.alive p false q = true → q ≠ p ∧ n.alive q = true := by
      intro q hq
      rw [update_false_iff, hr.alive] at hq
      exact hq
    refine Inv.of_lists ⟨hm.chain, hm.nodup, fun t i q hq => ?_, fun q hq => ?_⟩
      (fun q ha hdq => ?_) (fun q ha => ?_) ?_
    · have hqp : q ≠ p := ((hiff t i q).mp hq).2
      dsimp only
      rw [update_of_ne hqp]
      exact hm.mem t i q hq
    · exact hm.fresh q (by rw [hr.alive]; exact (hal q hq).2)
    · obtain ⟨hqp, ha⟩ := hal q ha
      rw [show (m.scbs q).socktype.tab = (n.scbs q).socktype.tab by rw [hr.socktype],
        show (m.scbs q).bucket = (n.scbs q).bucket from hr.bucket q, hiff]
      exact ⟨h.linked_of ha (by rw [← hr.dport]; exact hdq), hqp⟩
    · show (m.scbs q).socktype ≠ .unknown
      rw [hr.socktype]
      exact h.typed q (hal q ha).2
    · show 0 < m.brkScb
      rw [hr.brkScb]
      exact h.brk_pos
  have h' : (releaseSport n (n.scbs p).sport).InvBut L 0 := InvBut.of_eq h rfl rfl rfl rfl
  unfold freeSockCb
  dsimp only
  rw [show (releaseSport n (n.scbs p).sport).scbs = n.scbs from rfl]
  by_cases h0 : (n.scbs p).dport = 0
  · rw [if_neg (not_not.mpr h0)]
    refine ⟨_, L, rfl, kill h'.toLists ⟨fun _ => rfl, rfl, rfl, rfl⟩ fun t i q => ⟨fun hq => ⟨hq, ?_⟩, And.left⟩,
      fun _ _ => .refl _⟩
    rintro rfl
    exact hd h0 t i hq
  · rw [if_pos h0]
    obtain ⟨m, K, heq, hl, hr, hiff, hsub⟩ := unlinkScb_lists h'.toLists (h.linked_of hp h0)
    rw [heq]
    exact ⟨_, K, rfl, kill hl ⟨hr.scbs, hr.alive, hr.brkScb, hr.hist⟩ hiff, hsub⟩

end

/-! ## Steps -/

/-- The segment may make `tcp_recv` free the block. -/
def SockCb.mayFree (scb : SockCb) (hdr : TcpHdr) : Bool :=
  tcpFlgIsset hdr.flg tcpFlgRst || tcpFlgIsset hdr.flg tcpFlgSyn || scb.state == closing || scb.state == lastAck ||
    (tcpFlgIsset hdr.flg tcpFlgFin && (scb.state == finWait1 || scb.state == finWait2))

/-- The steps that keep the tables: `sockconnect` on a block that is not linked, `socklisten`
on one that is not linked or stays in its bucket, and no `free_sock_cb` of a linked block
without a remote port.  (`sockclose` of a TCP block frees it unless the connection is
in SYN_RCVD, ESTAB or CLOSE_WAIT; a segment for a block without a remote port gets past the early
return of `tcp_recv` only from port 0.) -/
def TableStep (n : Stack) : Op → Prop
  | .sockalloc t => t ≠ .unknown
  | .socklisten p sport =>
      n.Linked p → (if n.sportTable sport.toNat then 65535 else sport.toNat) % sockCbLen = (n.scbs p).bucket
  | .sockconnect p _ _ => ¬ n.Linked p
  | .sockclose p => n.Linked p → (n.scbs p).dport = 0 → (n.scbs p).socktype = .tcp ∧
        ((n.scbs p).state = synRcvd ∨ (n.scbs p).state = estab ∨ (n.scbs p).state = closeWait)
  | .tcpRecv m _ raddr => ∀ p, getSockCb n .tcp m.tcphdr.dport raddr m.tcphdr.sport = some p →
      (n.scbs p).dport = 0 → m.tcphdr.sport = 0 →
      (n.scbs p).state = closed ∨ (n.scbs p).state = listen ∨ (n.scbs p).state = synSent ∨
        (n.scbs p).mayFree m.tcphdr = false
  | _ => True

section
variable {n n' : Stack} {L : Tab → Nat → List Nat} {p : Nat}

section
variable (h : n.Inv L)
include h

theorem Stack.Inv.notMem_of_not_linked (hp : ¬ n.Linked p) : ∀ t i, p ∉ L t i :=
  fun t i hm => hp (h.linked_iff.mpr ⟨t, i, hm⟩)

theorem Stack.Inv.alloc (raddr : UInt32) (sport dport : UInt16) {t : SockType}
    (ht : t ≠ .unknown) : (n.alloc raddr sport dport t).1.InvBut L n.brkScb := by
  have hbrk : ∀ {t i}, ∀ q ∈ L t i, q ≠ n.brkScb :=
    fun q hq => ne_of_lt (h.fresh q (h.mem _ _ q hq).1).2
  have hother : ∀ q, q ≠ n.brkScb → (n.alloc raddr sport dport t).1.scbs q = n.scbs q ∧
      (n.alloc raddr sport dport t).1.alive q = n.alive q := by
    intro q hq
    simp [Stack.alloc, hq]
  refine ⟨⟨fun t i => ?_, h.nodup, fun t i q hq => ?_, fun q hq => ?_⟩, fun q hq ha hd => ?_,
    fun q ha => ?_, Nat.succ_pos _⟩
  · obtain ⟨b, hc⟩ := h.chain t i
    refine ⟨b, hc.congr fun q hq => ?_⟩
    simp only [Stack.next, prev, (hother q (hbrk q hq)).1, and_self]
  · rw [(hother q (hbrk q hq)).1, (hother q (hbrk q hq)).2]
    exact h.mem t i q hq
  · by_cases hq' : q = n.brkScb
    · subst hq'
      exact ⟨ne_of_gt h.brk_pos, Nat.lt_succ_self _⟩
    · rw [(hother q hq').2] at hq
      exact ⟨(h.fresh q hq).1, Nat.lt_succ_of_lt (h.fresh q hq).2⟩
  · rw [(hother q hq).2] at ha
    rw [(hother q hq).1] at hd ⊢
    exact h.linked_of ha hd
  · by_cases hq' : q = n.brkScb
    · subst hq'
      simpa [Stack.alloc, allocSockCb] using ht
    · rw [(hother q hq').2] at ha
      rw [(hother q hq').1]
      exact h.typed q ha

theorem Stack.Inv.brk_notMem : ∀ t i, n.brkScb ∉ L t i :=
  fun t i hm => Nat.lt_irrefl _ (h.fresh _ (h.mem t i _ hm).1).2

theorem sockalloc_inv {t : SockType} (ht : t ≠ .unknown) : (sockalloc n t).Inv L := by
  have h' := h.alloc 0 0 0 ht
  refine Inv.of_lists h'.toLists (fun q ha hd => ?_) h'.typed h'.brk_pos
  by_cases hq : q = n.brkScb
  · subst hq
    exact absurd (by simp [Stack.alloc, sockalloc, allocSockCb]) hd
  · exact h'.linked q hq ha hd

theorem socklisten_inv {sport : UInt16} (hg : TableStep n (.socklisten p sport)) :
    (socklisten n p sport).Inv L := by
  have hs : (getSpecifiedSport n sport).1.Inv L ∧ (getSpecifiedSport n sport).1.scbs = n.scbs := by
    unfold getSpecifiedSport
    split
    · exact ⟨h, rfl⟩
    · exact ⟨InvBut.of_eq h rfl rfl rfl rfl, rfl⟩
  obtain ⟨h1, hscb⟩ := hs
  obtain ⟨st, hst⟩ : ∃ st, socklisten n p sport = (getSpecifiedSport n sport).1.setScb p
      { n.scbs p with sport := (getSpecifiedSport n sport).2, state := st } := by
    unfold socklisten tcpListen
    dsimp only
    rw [hscb]
    split
    · exact ⟨listen, rfl⟩
    · exact ⟨(n.scbs p).state, rfl⟩
  rw [hst]
  by_cases hp : n.Linked p
  · -- the port changes within the bucket
    have hb : (getSpecifiedSport n sport).2.toNat % sockCbLen = (n.scbs p).bucket := by
      rw [← hg hp, getSpecifiedSport]
      split <;> rfl
    obtain ⟨t, i, hm⟩ := h.linked_iff.mp hp
    refine h1.setScb ?_ fun _ => .inr (.inr ⟨t, i, hm⟩)
    rw [hscb]
    exact ⟨rfl, hb, rfl, rfl⟩
  · have hnot := h.notMem_of_not_linked hp
    have hd : n.alive p = true → (n.scbs p).dport = 0 := by
      intro ha
      by_contra hd
      exact hnot _ _ (h.linked_of ha hd)
    have h2 : ((getSpecifiedSport n sport).1.setScb p { n.scbs p with
        sport := (getSpecifiedSport n sport).2, state := st }).InvBut L p :=
      h1.setFree (.inr rfl) hnot (by rw [hscb])
    refine Inv.of_lists h2.toLists (fun q ha hdq => ?_) h2.typed h2.brk_pos
    by_cases hq : q = p
    · subst hq
      have ha : n.alive q = true := by
        have heq : (getSpecifiedSport n sport).1.alive = n.alive := by
          unfold getSpecifiedSport
          split <;> rfl
        rw [← heq]
        exact ha
      simp [hd ha] at hdq
    · exact h2.linked q hq ha hdq

theorem sockaccept_inv (hp : n.alive p = true) (hs : sockaccept n p = some n') :
    ∃ L', n'.Inv L' ∧ ∀ t i, (L' t i).Sublist (L t i ++ [n.brkScb]) := by
  unfold sockaccept at hs
  split at hs
  · split at hs
    · cases hs
      exact ⟨L, h, fun t i => sublist_append_left _ _⟩
    · cases hs
  · -- a block for the same addresses, linked last in the bucket of the old one
    have h1 := h.alloc (n.scbs p).raddr (n.scbs p).sport (n.scbs p).dport (h.typed p hp)
    have h2 : (sockcopy n p).1.InvBut L n.brkScb :=
      h1.setScb ⟨rfl, rfl, rfl, rfl⟩ fun _ => .inl rfl
    have h3 : ((sockcopy n p).1.setScb p
        { (sockcopy n p).1.scbs p with acptScb := (sockcopy n p).2 }).InvBut L n.brkScb :=
      h2.setScb ⟨rfl, rfl, rfl, rfl⟩ fun hd => .inr (.inl hd)
    obtain ⟨n1, L', heq, hinv, hsub⟩ := addSockCb_inv h3
      (by simp [sockcopy, Stack.alloc, Stack.setScb]) h.brk_notMem
    exact ⟨L', some.inj (heq.symm.trans hs) ▸ hinv, hsub⟩

theorem sockacceptDone_inv (hs : sockacceptDone n p = some n') : n'.Inv L := by
  unfold sockacceptDone at hs
  split at hs
  · cases hs
    exact h.setScb ⟨rfl, rfl, rfl, rfl⟩ fun hd => .inr (.inl hd)
  · cases hs

theorem sockconnect_inv (hp : n.alive p = true) {raddr : UInt32} {dport : UInt16}
    (hg : ¬ n.Linked p) (hs : sockconnect n p raddr dport = some n') :
    ∃ L', n'.Inv L' ∧ ∀ t i, (L' t i).Sublist (L t i ++ [p]) := by
  obtain ⟨r, hr, hs⟩ := bind_eq_some_iff.mp hs
  obtain ⟨n1, hadd, hs⟩ := bind_eq_some_iff.mp hs
  obtain ⟨hscbs, hal, hbrk, htab, -⟩ := getNewSport_frame hr
  have hnot := h.notMem_of_not_linked hg
  have h1 : r.1.Inv L := InvBut.of_eq h hscbs hal hbrk htab
  have h2 : (r.1.setScb p
      { r.1.scbs p with raddr := raddr, sport := r.2, dport := dport }).InvBut L p :=
    h1.setFree (.inr rfl) hnot rfl
  obtain ⟨n2, L', heq, hinv, hsub⟩ := addSockCb_inv h2
    (show r.1.alive p = true by rw [hal]; exact hp) hnot
  obtain rfl : n2 = n1 := some.inj (heq.symm.trans hadd)
  refine ⟨L', ?_, hsub⟩
  split at hs
  · obtain ⟨c, hc, rfl⟩ := map_eq_some_iff.mp hs
    unfold tcpConnect at hc
    split at hc
    · cases hc
    · cases hc
      exact hinv.putConn ⟨rfl, rfl, rfl, rfl⟩ fun hd => .inr (.inl hd)
  · cases hs
    exact hinv

theorem socksend_inv {m : Mbuf} {flg : UInt8} (hs : socksend n p m flg = some n') : n'.Inv L := by
  unfold socksend at hs
  split at hs
  · obtain ⟨r, hr, rfl⟩ := map_eq_some_iff.mp hs
    obtain ⟨hl, hd⟩ := tcpSend_links hr
    exact h.putConn ⟨hl.socktype, hl.bucket, hl.prev, hl.next⟩ fun h' => .inr (.inl (hd ▸ h'))
  · cases hs
    exact h

end

/-- `tcp_close` does not let the block be freed in these states. -/
theorem tcpClose_keeps {c : Conn} (hs : c.scb.state = synRcvd ∨ c.scb.state = estab ∨
    c.scb.state = closeWait) : (tcpClose c).2 ≠ 0 := by
  unfold tcpClose
  rcases hs with hs | hs | hs
  · simp only [hs]
    split <;> simp
  · simp [hs]
  · simp [hs]

theorem sockclose_inv (h : n.Inv L) (hp : n.alive p = true) (hg : TableStep n (.sockclose p))
    (hs : sockclose n p = some n') : ∃ L', n'.Inv L' ∧ ∀ t i, (L' t i).Sublist (L t i) := by
  have h1 : (n.setScb p { n.scbs p with f := 0 }).Inv L :=
    h.setScb ⟨rfl, rfl, rfl, rfl⟩ fun hd => .inr (.inl hd)
  have hself : (n.setScb p { n.scbs p with f := 0 }).scbs p = { n.scbs p with f := 0 } := by
    simp
  unfold sockclose at hs
  dsimp only at hs
  rw [hself] at hs
  split at hs
  · next htcp =>
    obtain ⟨hl, hd⟩ := tcpClose_links ((n.setScb p { n.scbs p with f := 0 }).conn p)
    have hdp : (tcpClose ((n.setScb p { n.scbs p with f := 0 }).conn p)).1.scb.dport = (n.scbs p).dport := by
      rw [hd]
      show ((n.setScb p { n.scbs p with f := 0 }).scbs p).dport = _
      rw [hself]
    have h2 := h1.putConn (p := p) hl fun h' => .inr (.inl (by rw [hself]; exact hdp ▸ h'))
    split at hs
    · next h0 =>
      obtain ⟨n1, L', heq, hinv, hsub⟩ := freeSockCb_inv h2 hp fun h' t i hm => by
        have h'' : (n.scbs p).dport = 0 := by
          rw [← hdp]
          simpa using h'
        obtain ⟨-, hst⟩ := hg (h.linked_iff.mpr ⟨t, i, hm⟩) h''
        refine tcpClose_keeps (c := (n.setScb p { n.scbs p with f := 0 }).conn p) ?_ h0
        simpa only [conn, hself] using hst
      exact ⟨L', some.inj (heq.symm.trans hs) ▸ hinv, hsub⟩
    · cases hs
      exact ⟨L, h2, fun _ _ => .refl _⟩
  · next htcp =>
    obtain ⟨n1, L', heq, hinv, hsub⟩ := freeSockCb_inv h1 hp fun h' t i hm => by
      rw [hself] at h'
      exact htcp (hg (h.linked_iff.mpr ⟨t, i, hm⟩) h').1
    exact ⟨L', some.inj (heq.symm.trans hs) ▸ hinv, hsub⟩

theorem mayFree_of_switch {c : Conn} {m : Nat} {len : UInt16} {raddr : UInt32} {dport : UInt16}
    (h : (tcpRecvSwitch c m len raddr dport).2 = true) :
    c.scb.state ≠ .closed ∧ c.scb.state ≠ .listen ∧ c.scb.state ≠ .synSent ∧ c.scb.mayFree (c.hdr m) = true := by
  have hout := tcpRecvSwitch_outcome c m len raddr dport
  generalize (tcpRecvSwitch c m len raddr dport).1 = c' at hout
  generalize (tcpRecvSwitch c m len raddr dport).2 = b at hout h
  cases hout with
  | closed | listen | synSent => cases h
  | core h1 h2 h3 hc =>
    refine ⟨h1, h2, h3, ?_⟩
    have hack := c.acked_outcome m
    cases hc with
    | badSeq | ackStop | noText | text | fin | drop => cases h
    | rst hf _ | syn hf _ => simp [SockCb.mayFree, hf]
    | ackClose hv ha hc =>
      rw [ha] at hack
      generalize (c.acked m).1.state = st at hack
      cases hack with
      | stay hop => simp at hop
      | closing hs | lastAck hs => simp [SockCb.mayFree, hs]
    | finClose hv ha hs ht hf hc =>
      rw [ha] at hack
      generalize (c.acked m).1.state = st at hack hs
      cases hack with
      | stay _ _ => rcases hs with hs | hs <;> simp [SockCb.mayFree, hf, hs]
      | estab h' => simp at hs
      | finWait2 h' => simp [SockCb.mayFree, hf, h']

theorem mayFree_of_found {m : Mbuf} {len : UInt16} {raddr : UInt32} {dport : UInt16}
    (h : (tcpRecvSwitch ((n.conn p).newMbuf m) n.brk len raddr dport).2 = true) :
    (n.scbs p).state ≠ closed ∧ (n.scbs p).state ≠ listen ∧ (n.scbs p).state ≠ synSent ∧
      (n.scbs p).mayFree m.tcphdr = true := by
  have hfree := mayFree_of_switch h
  rwa [show ((n.conn p).newMbuf m).hdr n.brk = m.tcphdr from Conn.newMbuf_hdr (n.conn p) m] at hfree

theorem TableStep.keeps {m : Mbuf} {len : UInt16} {raddr : UInt32} (hg : TableStep n (.tcpRecv m len raddr))
    (hp : getSockCb n .tcp m.tcphdr.dport raddr m.tcphdr.sport = some p)
    (hw : wrongPeer (n.scbs p) m.tcphdr.sport = false) (hd : (n.scbs p).dport = 0) :
    (tcpRecvSwitch ((n.conn p).newMbuf m) n.brk len raddr m.tcphdr.sport).2 = false := by
  by_contra hfreed
  obtain ⟨h1, h2, h3, h4⟩ := mayFree_of_found (by simpa using hfreed)
  -- past the early return the segment has the port of the block
  have hsport : m.tcphdr.sport = 0 := by
    simp only [wrongPeer, hd, bne_iff_ne.mpr h1, bne_iff_ne.mpr h2, Bool.true_and, bne_eq_false_iff_eq] at hw
    exact hw.symm
  rcases hg p hp hd hsport with hst | hst | hst | hst
  · exact h1 hst
  · exact h2 hst
  · exact h3 hst
  · rw [hst] at h4
    cases h4

theorem tcpRecv_inv (h : n.Inv L) {m : Mbuf} {len : UInt16} {raddr : UInt32}
    (hg : ∀ p, getSockCb n .tcp m.tcphdr.dport raddr m.tcphdr.sport = some p → p ≠ 0 →
      wrongPeer (n.scbs p) m.tcphdr.sport = false → (n.scbs p).dport = 0 →
      (tcpRecvSwitch ((n.conn p).newMbuf m) n.brk len raddr m.tcphdr.sport).2 = false)
    (hs : tcpRecv n m len raddr = some n') : ∃ L', n'.Inv L' ∧ ∀ t i, (L' t i).Sublist (L t i) := by
  obtain ⟨r, hfind, hr⟩ := getSockCb_spec h.toLists h.brk_pos .tcp m.tcphdr.dport raddr m.tcphdr.sport
  unfold tcpRecv at hs
  rw [hfind, bind_some] at hs
  by_cases h0 : r = 0
  · rw [if_pos h0] at hs
    cases hs
    exact ⟨L, h, fun _ _ => .refl _⟩
  rw [if_neg h0] at hs
  obtain ⟨hm, -⟩ := hr.resolve_left h0
  split at hs
  · cases hs
    exact ⟨L, h, fun _ _ => .refl _⟩
  · next hw =>
    unfold tcpRecvFound at hs
    dsimp only at hs
    obtain ⟨hl, hd⟩ := tcpRecvSwitch_links ((n.conn r).newMbuf m) n.brk len raddr m.tcphdr.sport
    have h1 : Inv
        { n.putConn r (tcpRecvSwitch ((n.conn r).newMbuf m) n.brk len raddr m.tcphdr.sport).1 with
          hist := update n.hist r (n.hist r ++
            [{ raddr := raddr, dport := m.tcphdr.sport, hdr := m.tcphdr, before := n.scbs r,
               after := (tcpRecvSwitch ((n.conn r).newMbuf m) n.brk len raddr m.tcphdr.sport).1.scb }]) } L :=
      (h.putConn (p := r) hl fun _ => .inr (.inr ⟨_, _, hm⟩)).of_eq rfl rfl rfl rfl
    split at hs
    · next hfreed =>
      -- the block has a remote port, before the segment and after it
      have hd0 : (n.scbs r).dport ≠ 0 := by
        intro hd0
        rw [hg r hfind h0 (by simpa using hw) hd0] at hfreed
        cases hfreed
      obtain ⟨n1, L', heq, hinv, hsub⟩ := freeSockCb_inv h1 (h.mem _ _ r hm).1 fun h' => by
        refine absurd ?_ hd0
        have hd' := hd hfreed
        simp only [putConn, Stack.setScb, update_self] at h'
        exact hd'.symm.trans h'
      exact ⟨L', some.inj (heq.symm.trans hs) ▸ hinv, hsub⟩
    · cases hs
      exact ⟨L, h1, fun _ _ => .refl _⟩

theorem udpRecv_inv (h : n.Inv L) {m : Mbuf} {len : UInt16} {raddr : UInt32} {hdr : UdpHdr}
    (hs : udpRecv n m len raddr hdr = some n') : n'.Inv L := by
  unfold udpRecv at hs
  split at hs
  · cases hs
    exact h
  split at hs
  · cases hs
    exact h
  obtain ⟨r, hfind, hr⟩ := getSockCb_spec h.toLists h.brk_pos .udp hdr.dport raddr hdr.sport
  rw [hfind, map_some, Option.some.injEq] at hs
  by_cases h0 : r = 0
  · rw [if_pos h0] at hs
    exact hs ▸ h
  rw [if_neg h0] at hs
  obtain ⟨hm, -⟩ := hr.resolve_left h0
  rw [← hs]
  refine h.putConn ?_ fun _ => .inr (.inr ⟨_, _, hm⟩)
  simp only [conn, Stack.setScb, update_self]
  split <;> exact ⟨rfl, rfl, rfl, rfl⟩

/-- **Every step keeps the tables.** -/
theorem Stack.Inv.step (h : n.Inv L) {op : Op} (hs : guard TableStep Step n op n') : ∃ L', n'.Inv L' := by
  obtain ⟨hg, hs⟩ := hs
  cases op with
  | sockalloc t =>
    cases hs
    exact ⟨L, sockalloc_inv h hg⟩
  | socklisten p sport =>
    obtain ⟨-, hs⟩ := usable_of_some hs
    cases hs
    exact ⟨L, socklisten_inv h hg⟩
  | sockaccept p =>
    obtain ⟨ha, hs⟩ := usable_of_some hs
    obtain ⟨L', h', -⟩ := sockaccept_inv h ha hs
    exact ⟨L', h'⟩
  | sockacceptDone p =>
    obtain ⟨-, hs⟩ := usable_of_some hs
    exact ⟨L, sockacceptDone_inv h hs⟩
  | sockconnect p raddr dport =>
    obtain ⟨ha, hs⟩ := usable_of_some hs
    obtain ⟨L', h', -⟩ := sockconnect_inv h ha hg hs
    exact ⟨L', h'⟩
  | socksend p m flg =>
    obtain ⟨-, hs⟩ := usable_of_some hs
    exact ⟨L, socksend_inv h hs⟩
  | sockclose p =>
    obtain ⟨ha, hs⟩ := usable_of_some hs
    obtain ⟨L', h', -⟩ := sockclose_inv h ha hg hs
    exact ⟨L', h'⟩
  | tcpRecv m len raddr =>
    obtain ⟨L', h', -⟩ := tcpRecv_inv h (fun p hp _ => hg.keeps hp) hs
    exact ⟨L', h'⟩
  | udpRecv m len raddr hdr => exact ⟨L, udpRecv_inv h hs⟩

end

/-- The socket type of the blocks of a table. -/
def Tab.socktype : Tab → SockType
  | .tcp => .tcp
  | .udp => .udp

/-- Each bucket is a finite doubly linked list, its head has `prev = 0`, its blocks are
allocated, of the table's type and of the bucket's ports; no block occurs twice, in one bucket
or in two. -/
def Stack.TableOk (n : Stack) : Prop :=
  ∃ L : Tab → Nat → List Nat, (∀ t i, ∃ b, DSeg n.next n.prev 0 (n.table t i) (L t i) b 0) ∧ (∀ t i, (L t i).Nodup) ∧
    (∀ t i, ∀ p ∈ L t i, p ≠ 0 ∧ n.alive p = true ∧ (n.scbs p).socktype = t.socktype ∧
      (n.scbs p).sport.toNat % sockCbLen = i) ∧
    ∀ p t i t' i', p ∈ L t i → p ∈ L t' i' → t = t' ∧ i = i'

theorem Tab.socktype_of {t : Tab} {ty : SockType} (h : ty.tab = t) (hu : ty ≠ .unknown) : ty = t.socktype := by
  subst h
  cases ty with
  | unknown => exact absurd rfl hu
  | udp | tcp => rfl

theorem Stack.Inv.tableOk {n : Stack} {L : Tab → Nat → List Nat} (h : n.Inv L) : n.TableOk := by
  refine ⟨L, h.chain, h.nodup, fun t i p hp => ?_, fun p t i t' i' => h.once⟩
  obtain ⟨ha, ht, hi⟩ := h.mem t i p hp
  exact ⟨h.ne_zero p hp, ha, Tab.socktype_of ht (h.typed p ha), hi⟩

theorem socketInit_inv : socketInit.Inv fun _ _ => [] :=
  Inv.of_lists
    ⟨fun _ _ => ⟨0, rfl, rfl⟩, fun _ _ => nodup_nil, fun _ _ _ hp => (by cases hp), fun _ hp => (by cases hp)⟩
    (fun _ hp => (by cases hp)) (fun _ hp => (by cases hp)) Nat.one_pos

/-- **The table invariant.**  In every run from `socket_init` that links no linked block, moves
no linked block to another bucket and frees no linked block without a remote port, the tables
are well formed in every state reached, and the lookup in them ends. -/
theorem tableInvariant {ops : List Op} {n : Stack} (hrun : Run (guard TableStep Step) socketInit ops n) :
    n.TableOk ∧ ∀ t sport raddr dport, (getSockCb n t sport raddr dport).isSome := by
  obtain ⟨L, h⟩ : ∃ L, n.Inv L :=
    hrun.inv (I := fun n => ∃ L, n.Inv L) (fun _ _ _ ⟨_, h⟩ hs => h.step hs) ⟨_, socketInit_inv⟩
  refine ⟨h.tableOk, fun t sport raddr dport => ?_⟩
  obtain ⟨r, hr, -⟩ := getSockCb_spec h.toLists h.brk_pos t sport raddr dport
  rw [hr]
  rfl

/-- A TCP block is connected and closed before an answer. -/
theorem tableInvariant_closed : ∃ n, Run (guard TableStep Step) socketInit
        [.sockalloc .tcp, .sockconnect 1 9 80, .sockclose 1] n ∧ n.alive 1 = false ∧
      n.TableOk ∧ ∀ t sport raddr dport, (getSockCb n t sport raddr dport).isSome := by
  -- with empty tables no block is linked
  have hnot : ¬ (sockalloc socketInit .tcp).Linked 1 := by
    rintro ⟨t, i, hr⟩
    cases hr with
    | next h0 _ => exact h0 rfl
  obtain ⟨n1, h1, hd, n2, h2, ha⟩ : ∃ n1, (sockalloc socketInit .tcp).step (.sockconnect 1 9 80) = some n1 ∧
      (n1.scbs 1).dport = 80 ∧ ∃ n2, n1.step (.sockclose 1) = some n2 ∧ n2.alive 1 = false := by
    decide
  have hrun : Run (guard TableStep Step) socketInit
      [.sockalloc .tcp, .sockconnect 1 9 80, .sockclose 1] n2 := by
    refine .cons ⟨(by decide : SockType.tcp ≠ .unknown), rfl⟩ (.cons ⟨hnot, h1⟩ (.cons ⟨fun _ h0 => ?_, h2⟩ (.nil n2)))
    rw [hd] at h0
    cases h0
  exact ⟨n2, hrun, ha, tableInvariant hrun⟩

/-- **A freed block stays in the table.**  A UDP socket listens on port 53 and accepts; the
accepted block is linked without a remote port, and closing it frees it where it is. -/
theorem freed_in_table : ∃ n, Run Step socketInit
        [.sockalloc .udp, .socklisten 1 53, .sockaccept 1, .sockacceptDone 1, .sockclose 2] n ∧
      n.table .udp 53 = 2 ∧ n.alive 2 = false ∧ ¬ n.TableOk := by
  refine Run.find (P := fun n => n.table .udp 53 = 2 ∧ n.alive 2 = false) (by decide) fun n _ hv =>
    ⟨hv.1, hv.2, ?_⟩
  rintro ⟨L, hchain, -, hmem, -⟩
  obtain ⟨b, hc⟩ := hchain .udp 53
  cases hL : L .udp 53 with
  | nil =>
    rw [hL, hv.1] at hc
    exact absurd hc.2 (by decide)
  | cons y l =>
    rw [hL, hv.1] at hc
    obtain ⟨rfl, -⟩ := hc
    have ha := (hmem .udp 53 2 (by rw [hL]; exact mem_cons_self)).2.1
    rw [hv.2] at ha
    cases ha

end InternetOs.Net
