import InternetOs.Net.TableInv

/-!
# Who owns a port (`kernel/net/socket.c`)

One bit stands for a port.  A listening socket and the sockets accepted from it share it, and
`free_sock_cb` of any of them clears it; `socklisten` does not notice that a port is taken, and a
second `socklisten` or `sockconnect` forgets the first port.  Away from these:

    the bit of a port is set ↔ some socket has the port              (Ports.Inv.bit)
    sockets with one port got it from one call                       (Ports.Inv.one)

The map has `SPORT_NUM / 8` bytes, so ports from 65528 on have no bit in it.
-/

namespace InternetOs.Net

open SockCbState Function Option Stack

/-- `SPORT_ELEM`. -/
def sportElem : Nat := sportNum / 8

/-- What `socklisten` returns: the port it tests for `< 0` is unsigned. -/
def socklistenResult (n : Stack) (sport : UInt16) : Int :=
  if ((getSpecifiedSport n sport).2.toNat : Int) < 0 then -1 else 0

/-- The stack, with the number of the `socklisten` or `sockconnect` call that each block has its port from. -/
structure Ports where
  net : Stack
  call : Nat → Nat
  calls : Nat

namespace Ports

def init : Ports := { net := socketInit, call := fun _ => 0, calls := 0 }

def step (s : Ports) (op : Op) : Option Ports :=
  (s.net.step op).map fun n =>
    match op with
    | .socklisten p _ | .sockconnect p _ _ =>
      { net := n, call := update s.call p s.calls, calls := s.calls + 1 }
    | .sockaccept p =>
      if (s.net.scbs p).acptScb = 0 then
        { s with net := n, call := update s.call s.net.brkScb (s.call p) }
      else { s with net := n }
    | _ => { s with net := n }

end Ports

/-- No other block has the port of `p`, if it has one. -/
def Stack.SoleUser (n : Stack) (p : Nat) : Prop :=
  ∀ q, q ≠ p → n.alive q = true → (n.scbs q).sport = (n.scbs p).sport → (n.scbs p).sport = 0

/-- `sockclose` frees the block. -/
def SockCb.closeFrees (scb : SockCb) : Bool :=
  scb.socktype != .tcp || !(scb.state == synRcvd || scb.state == estab || scb.state == closeWait)

/-- The steps that keep the ports: a block without a port asks for one that is free and in the map, and a
block is freed only while no other has its port. -/
def PortStep (s : Ports) : Op → Prop
  | .socklisten p sport => (s.net.scbs p).sport = 0 ∧ sport ≠ 0 ∧ sport.toNat < 8 * sportElem ∧
      s.net.sportTable sport.toNat = false
  | .sockconnect p _ _ => (s.net.scbs p).sport = 0 ∧
      ∃ q, s.net.currentSport ≤ q ∧ q < 8 * sportElem ∧ s.net.sportTable q = false
  | .sockclose p => (s.net.scbs p).closeFrees = true → s.net.SoleUser p
  | .tcpRecv m _ raddr => ∀ p, getSockCb s.net .tcp m.tcphdr.dport raddr m.tcphdr.sport = some p →
      (s.net.scbs p).state ≠ .closed → (s.net.scbs p).state ≠ .listen → (s.net.scbs p).state ≠ synSent →
      (s.net.scbs p).mayFree m.tcphdr = true → s.net.SoleUser p
  | _ => True

/-! ## The search for a port -/

/-- Where the search stands: at the first port of a byte. -/
def AtByte (current : Nat) : Prop := current % 8 = 0 ∧ startOfSport ≤ current ∧ current < sportNum

/-- A byte with no clear bit: a free port is further on. -/
theorem free_behind {tbl : Nat → Bool} {cur q : Nat} (h8 : cur % 8 = 0)
    (hnone : (List.range 8).find? (fun i => !tbl (8 * (cur / 8) + i)) = none) (hq : cur ≤ q) (hf : tbl q = false) :
    cur + 8 ≤ q := by
  by_contra hlt
  have := List.find?_eq_none.mp hnone (q - cur) (List.mem_range.mpr (by omega))
  rw [show 8 * (cur / 8) + (q - cur) = q by omega, hf] at this
  exact this rfl

theorem getNewSportLoop_spec {tbl : Nat → Bool} {fuel cur isl : Nat} {r : Nat × Nat}
    (h : getNewSportLoop tbl fuel cur isl = some r) (hc : AtByte cur) :
    AtByte r.1 ∧ r.2 < 8 ∧ tbl (8 * (r.1 / 8) + r.2) = false ∧
      ∀ q, cur ≤ q → q < 8 * sportElem → tbl q = false → r.1 < 8 * sportElem := by
  have hnum : sportNum = 65535 := rfl
  have helem : sportElem = 8191 := rfl
  induction fuel generalizing cur isl with
  | zero => cases h
  | succ fuel ih =>
    simp only [getNewSportLoop] at h
    obtain ⟨h8, hlo, hhi⟩ := hc
    split at h
    · split at h
      · next i hi =>
        cases h
        have hfree := List.find?_some hi
        have hlt := List.mem_range.mp (List.mem_of_find?_eq_some hi)
        refine ⟨⟨h8, hlo, hhi⟩, hlt, by simpa using hfree, fun q hq hq' _ => ?_⟩
        omega
      · next hnone =>
        split at h
        · obtain ⟨h1, h2, h3, -⟩ := ih h ⟨by decide, le_rfl, by decide⟩
          refine ⟨h1, h2, h3, fun q hq hq' hf => ?_⟩
          omega
        · obtain ⟨h1, h2, h3, h4⟩ := ih h ⟨by omega, by omega, by omega⟩
          exact ⟨h1, h2, h3, fun q hq hq' hf => h4 q (free_behind h8 hnone hq hf) hq' hf⟩
    · cases h

/-- **`get_new_sport`** returns a port whose bit was clear, and sets that bit. -/
theorem getNewSport_spec {n : Stack} {r : Stack × UInt16} (h : getNewSport n = some r) (hc : AtByte n.currentSport) :
    AtByte r.1.currentSport ∧ startOfSport ≤ r.2.toNat ∧ n.sportTable r.2.toNat = false ∧ r.1 = { n with
        currentSport := r.1.currentSport
        sportTable := update n.sportTable r.2.toNat true } ∧
      ∀ q, n.currentSport ≤ q → q < 8 * sportElem → n.sportTable q = false → r.2.toNat < 8 * sportElem := by
  obtain ⟨x, hx, rfl⟩ := map_eq_some_iff.mp h
  obtain ⟨⟨h8, hlo, hhi⟩, hi, hfree, hin⟩ := getNewSportLoop_spec hx hc
  have hnum : sportNum = 65535 := rfl
  have hbyte : 8 * (x.1 / 8) + x.2 = x.1 + x.2 := by omega
  have hnat : (UInt16.ofNat (x.1 + x.2)).toNat = x.1 + x.2 := by
    rw [UInt16.toNat_ofNat', Nat.mod_eq_of_lt (by omega)]
  rw [hbyte] at hfree
  refine ⟨⟨h8, hlo, hhi⟩, ?_, ?_, ?_, fun q hq hq' hf => ?_⟩
  · rw [hnat]
    omega
  · rw [hnat]
    exact hfree
  · rw [hnat, ← hbyte]
  · have := hin q hq hq' hf
    rw [hnat]
    omega

/-! ## The invariant -/

structure Ports.Inv (s : Ports) : Prop where
  fresh : ∀ p, s.net.alive p = true → p < s.net.brkScb
  bit : ∀ k : UInt16, s.net.sportTable k.toNat = true ↔ k ≠ 0 ∧ ∃ p, s.net.alive p = true ∧ (s.net.scbs p).sport = k
  one : ∀ p q, s.net.alive p = true → s.net.alive q = true → (s.net.scbs p).sport = (s.net.scbs q).sport →
    (s.net.scbs p).sport ≠ 0 → s.call p = s.call q
  elem : ∀ k, s.net.sportTable k = true → k < 8 * sportElem
  current : AtByte s.net.currentSport

/-- From `n` to `n'` no block got or lost a port. -/
structure Stack.SamePorts (n n' : Stack) : Prop where
  sport : ∀ p, (n'.scbs p).sport = (n.scbs p).sport
  alive : n'.alive = n.alive
  brkScb : n'.brkScb = n.brkScb
  table : n'.sportTable = n.sportTable
  current : n'.currentSport = n.currentSport

section
variable {n n' n'' : Stack} {p : Nat}

theorem Stack.SamePorts.refl (n : Stack) : n.SamePorts n := ⟨fun _ => rfl, rfl, rfl, rfl, rfl⟩

theorem Stack.SamePorts.trans (h : n.SamePorts n') (h' : n'.SamePorts n'') : n.SamePorts n'' :=
  ⟨fun p => (h'.sport p).trans (h.sport p), h'.alive.trans h.alive, h'.brkScb.trans h.brkScb,
    h'.table.trans h.table, h'.current.trans h.current⟩

theorem Stack.samePorts_setScb (n : Stack) (p : Nat) {scb : SockCb} (h : scb.sport = (n.scbs p).sport) :
    n.SamePorts (n.setScb p scb) := by
  refine ⟨fun q => ?_, rfl, rfl, rfl, rfl⟩
  by_cases hq : q = p
  · subst hq
    simpa using h
  · simp [hq]

theorem Stack.samePorts_putConn (n : Stack) (p : Nat) {c : Conn} (h : (n.scbs p).SameHome c.scb) :
    n.SamePorts (n.putConn p c) := by
  have h' := n.samePorts_setScb p h.sport
  exact ⟨h'.sport, rfl, rfl, rfl, rfl⟩

theorem Stack.SamePorts.soleUser (h : n.SamePorts n') (hu : n.SoleUser p) : n'.SoleUser p := by
  intro q hq ha hqs
  rw [h.alive] at ha
  rw [h.sport, h.sport] at hqs
  rw [h.sport]
  exact hu q hq ha hqs

theorem samePorts_linkClosed : LinkClosed SamePorts where
  refl := .refl
  trans h h' := h.trans h'
  next n p _ := n.samePorts_setScb p rfl
  prev n p _ := n.samePorts_setScb p rfl
  head _ _ _ _ := ⟨fun _ => rfl, rfl, rfl, rfl, rfl⟩

end

namespace Ports

section
variable {s s' : Ports} {n : Stack} {p : Nat} {raddr : UInt32} {len : UInt16}

theorem Inv.same (h : s.Inv) (hn : s.net.SamePorts n) : Inv { s with net := n } := by
  refine ⟨?_, ?_, ?_, ?_, ?_⟩
  · show ∀ p, n.alive p = true → p < n.brkScb
    rw [hn.alive, hn.brkScb]
    exact h.fresh
  · show ∀ k : UInt16, n.sportTable k.toNat = true ↔ k ≠ 0 ∧ ∃ p, n.alive p = true ∧ (n.scbs p).sport = k
    simp only [hn.alive, hn.table, hn.sport]
    exact h.bit
  · show ∀ p q, n.alive p = true → n.alive q = true → (n.scbs p).sport = (n.scbs q).sport →
      (n.scbs p).sport ≠ 0 → s.call p = s.call q
    simp only [hn.alive, hn.sport]
    exact h.one
  · show ∀ k, n.sportTable k = true → k < 8 * sportElem
    rw [hn.table]
    exact h.elem
  · show AtByte n.currentSport
    rw [hn.current]
    exact h.current

theorem Inv.free (h : s.Inv) (hp : s.net.alive p = true) (hu : s.net.SoleUser p) (hs : freeSockCb s.net p = some n) :
    Inv { s with net := n } := by
  obtain ⟨n1, h1, rfl⟩ := samePorts_linkClosed.freeSockCb hs
  have hal : ∀ q, update n1.alive p false q = true ↔ q ≠ p ∧ s.net.alive q = true := by
    intro q
    rw [update_false_iff, h1.alive]
    rfl
  have hsp : ∀ q, (n1.scbs q).sport = (s.net.scbs q).sport := h1.sport
  have htab : n1.sportTable = update s.net.sportTable (s.net.scbs p).sport.toNat false := h1.table
  refine ⟨fun q hq => ?_, fun k => ?_, fun q r hq hr => ?_, fun k hk => ?_, ?_⟩
  · show q < n1.brkScb
    rw [h1.brkScb]
    exact h.fresh q ((hal q).mp hq).2
  · show n1.sportTable k.toNat = true ↔ k ≠ 0 ∧ ∃ q, update n1.alive p false q = true ∧ (n1.scbs q).sport = k
    rw [htab]
    by_cases hk : k = (s.net.scbs p).sport
    · subst hk
      rw [update_self]
      refine ⟨fun hf => (by cases hf), fun ⟨h0, q, hq, hqs⟩ => absurd (hu q ((hal q).mp hq).1 ((hal q).mp hq).2 ?_) h0⟩
      rw [← hsp q]
      exact hqs
    · have hne : k.toNat ≠ (s.net.scbs p).sport.toNat := fun e => hk (UInt16.toNat_inj.mp e)
      rw [update_of_ne hne, h.bit k]
      refine and_congr_right fun _ => ⟨fun ⟨q, hq, hqs⟩ => ⟨q, (hal q).mpr ⟨?_, hq⟩, by rw [hsp]; exact hqs⟩,
        fun ⟨q, hq, hqs⟩ => ⟨q, ((hal q).mp hq).2, by rw [← hsp]; exact hqs⟩⟩
      rintro rfl
      exact hk hqs.symm
  · show (n1.scbs q).sport = (n1.scbs r).sport → (n1.scbs q).sport ≠ 0 → s.call q = s.call r
    rw [hsp, hsp]
    exact h.one q r ((hal q).mp hq).2 ((hal r).mp hr).2
  · rw [htab] at hk
    by_cases hkp : k = (s.net.scbs p).sport.toNat
    · rw [hkp, update_self] at hk
      cases hk
    · rw [update_of_ne hkp] at hk
      exact h.elem k hk
  · show AtByte n1.currentSport
    rw [h1.current]
    exact h.current

theorem Inv.bind (h : s.Inv) {k : UInt16} (hp : s.net.alive p = true) (hp0 : (s.net.scbs p).sport = 0) (hk0 : k ≠ 0)
    (hk : s.net.sportTable k.toNat = false) (hkin : k.toNat < 8 * sportElem) (scb : SockCb) (hscb : scb.sport = k)
    (cur : Nat) (hcur : AtByte cur) :
    Inv { s with
      net := { s.net.setScb p scb with
        sportTable := update s.net.sportTable k.toNat true
        currentSport := cur }
      call := update s.call p s.calls
      calls := s.calls + 1 } := by
  -- nobody has the port yet
  have hnew : ∀ q, s.net.alive q = true → (s.net.scbs q).sport ≠ k := by
    intro q hq hqs
    rw [(h.bit k).mpr ⟨hk0, q, hq, hqs⟩] at hk
    cases hk
  have hself : (s.net.setScb p scb).scbs p = scb := by simp
  have hother : ∀ q, q ≠ p → (s.net.setScb p scb).scbs q = s.net.scbs q := by
    intro q hq
    simp [hq]
  refine ⟨h.fresh, fun j => ?_, fun q r hq hr hqr hq0 => ?_, fun j hj => ?_, hcur⟩
  · show update s.net.sportTable k.toNat true j.toNat = true ↔
      j ≠ 0 ∧ ∃ q, s.net.alive q = true ∧ ((s.net.setScb p scb).scbs q).sport = j
    by_cases hj : j = k
    · subst hj
      rw [update_self]
      exact ⟨fun _ => ⟨hk0, p, hp, by rw [hself]; exact hscb⟩, fun _ => rfl⟩
    · have hne : j.toNat ≠ k.toNat := fun e => hj (UInt16.toNat_inj.mp e)
      rw [update_of_ne hne, h.bit j]
      refine and_congr_right fun hj0 => exists_congr fun q => and_congr_right fun hq => ?_
      by_cases hqp : q = p
      · subst hqp
        rw [hself, hp0, hscb]
        exact ⟨fun e => absurd e.symm hj0, fun e => absurd e.symm hj⟩
      · rw [hother q hqp]
  · show update s.call p s.calls q = update s.call p s.calls r
    by_cases hqp : q = p
    · by_cases hrp : r = p
      · rw [hqp, hrp]
      · rw [hqp, hself, hother r hrp, hscb] at hqr
        exact absurd hqr.symm (hnew r hr)
    · by_cases hrp : r = p
      · rw [hrp, hself, hother q hqp, hscb] at hqr
        exact absurd hqr (hnew q hq)
      · rw [hother q hqp] at hqr hq0
        rw [hother r hrp] at hqr
        rw [update_of_ne hqp, update_of_ne hrp]
        exact h.one q r hq hr hqr hq0
  · have hj : update s.net.sportTable k.toNat true j = true := hj
    by_cases hjk : j = k.toNat
    · rw [hjk]
      exact hkin
    · rw [update_of_ne hjk] at hj
      exact h.elem j hj

theorem Inv.alloc (h : s.Inv) (raddr : UInt32) (sport dport : UInt16) (t : SockType) (c : Nat)
    (hp : sport = 0 ∨ ∃ p, s.net.alive p = true ∧ (s.net.scbs p).sport = sport ∧ s.call p = c) :
    Inv { s with net := (s.net.alloc raddr sport dport t).1, call := update s.call s.net.brkScb c } := by
  have hb : s.net.alive s.net.brkScb ≠ true := fun hb => lt_irrefl _ (h.fresh _ hb)
  have hself : ((s.net.alloc raddr sport dport t).1.scbs s.net.brkScb).sport = sport := by
    simp [Stack.alloc, allocSockCb]
  have hother : ∀ q, q ≠ s.net.brkScb → (s.net.alloc raddr sport dport t).1.scbs q = s.net.scbs q ∧
      (s.net.alloc raddr sport dport t).1.alive q = s.net.alive q := by
    intro q hq
    simp [Stack.alloc, hq]
  have hold : ∀ q, s.net.alive q = true → q ≠ s.net.brkScb := fun q hq e => hb (e ▸ hq)
  -- the call of a block with the new one's port
  have hcall : ∀ q, s.net.alive q = true → (s.net.scbs q).sport = sport → sport ≠ 0 → s.call q = c := by
    intro q hq hqs h0
    obtain ⟨p, hpa, hps, hpc⟩ := hp.resolve_left h0
    rw [← hpc]
    exact h.one q p hq hpa (hqs.trans hps.symm) (hqs ▸ h0)
  refine ⟨fun q hq => ?_, fun k => ?_, fun q r hq hr hqr hq0 => ?_, h.elem, h.current⟩
  · show q < s.net.brkScb + 1
    by_cases hqb : q = s.net.brkScb
    · omega
    · rw [(hother q hqb).2] at hq
      exact Nat.lt_succ_of_lt (h.fresh q hq)
  · show s.net.sportTable k.toNat = true ↔ k ≠ 0 ∧ ∃ q, (s.net.alloc raddr sport dport t).1.alive q = true ∧
      ((s.net.alloc raddr sport dport t).1.scbs q).sport = k
    rw [h.bit k]
    refine and_congr_right fun hk0 => ?_
    constructor
    · rintro ⟨q, hq, hqs⟩
      refine ⟨q, ?_⟩
      rw [(hother q (hold q hq)).1, (hother q (hold q hq)).2]
      exact ⟨hq, hqs⟩
    · rintro ⟨q, hq, hqs⟩
      by_cases hqb : q = s.net.brkScb
      · subst hqb
        rw [hself] at hqs
        obtain ⟨p, hpa, hps, -⟩ := hp.resolve_left (hqs ▸ hk0)
        exact ⟨p, hpa, hps.trans hqs⟩
      · rw [(hother q hqb).1] at hqs
        rw [(hother q hqb).2] at hq
        exact ⟨q, hq, hqs⟩
  · show update s.call s.net.brkScb c q = update s.call s.net.brkScb c r
    by_cases hqb : q = s.net.brkScb
    · by_cases hrb : r = s.net.brkScb
      · rw [hqb, hrb]
      · rw [hqb, hself, (hother r hrb).1] at hqr
        rw [hqb, hself] at hq0
        rw [(hother r hrb).2] at hr
        rw [hqb, update_self, update_of_ne hrb]
        exact (hcall r hr hqr.symm hq0).symm
    · rw [(hother q hqb).1] at hqr hq0
      rw [(hother q hqb).2] at hq
      by_cases hrb : r = s.net.brkScb
      · rw [hrb, hself] at hqr
        rw [hrb, update_self, update_of_ne hqb]
        exact hcall q hq hqr (hqr ▸ hq0)
      · rw [(hother r hrb).1] at hqr
        rw [(hother r hrb).2] at hr
        rw [update_of_ne hqb, update_of_ne hrb]
        exact h.one q r hq hr hqr hq0

/-! ## Steps -/

theorem Inv.socklisten (h : s.Inv) {sport : UInt16} (hp : s.net.alive p = true)
    (hg : PortStep s (.socklisten p sport)) :
    Inv { net := socklisten s.net p sport, call := update s.call p s.calls, calls := s.calls + 1 } := by
  obtain ⟨hp0, hk0, hkin, hfree⟩ := hg
  unfold Net.socklisten getSpecifiedSport
  rw [if_neg (by rw [hfree]; decide)]
  refine h.bind hp hp0 hk0 hfree hkin _ ?_ s.net.currentSport h.current
  split <;> rfl

theorem Inv.sockconnect (h : s.Inv) {dport : UInt16} (hp : s.net.alive p = true)
    (hg : PortStep s (.sockconnect p raddr dport)) (hs : sockconnect s.net p raddr dport = some n) :
    Inv { net := n, call := update s.call p s.calls, calls := s.calls + 1 } := by
  obtain ⟨hp0, q, hq, hqin, hqfree⟩ := hg
  obtain ⟨r, hr, hs⟩ := bind_eq_some_iff.mp hs
  obtain ⟨n1, hadd, hs⟩ := bind_eq_some_iff.mp hs
  obtain ⟨hcur, hlow, hfree, heq, hin⟩ := getNewSport_spec hr h.current
  have hk0 : r.2 ≠ 0 := fun h0 => absurd (h0 ▸ hlow) (by decide)
  have h1 := h.bind hp hp0 hk0 hfree (hin q hq hqin hqfree)
    { s.net.scbs p with raddr := raddr, sport := r.2, dport := dport } rfl _ hcur
  have h2 := h1.same (n := n1) (by
    have := samePorts_linkClosed.addSockCb hadd
    rw [heq] at this
    exact this)
  split at hs
  · obtain ⟨c, hc, rfl⟩ := map_eq_some_iff.mp hs
    refine h2.same (n1.samePorts_putConn p ?_)
    unfold tcpConnect at hc
    split at hc
    · cases hc
    · cases hc
      exact ⟨rfl, rfl, rfl, rfl⟩
  · cases hs
    exact h2

/-- The new block of `sockaccept` has the port, and the call, of the old one. -/
theorem Inv.sockaccept (h : s.Inv) (hp : s.net.alive p = true) (h0 : (s.net.scbs p).acptScb = 0)
    (hs : sockaccept s.net p = some n) :
    Inv { s with net := n, call := update s.call s.net.brkScb (s.call p) } := by
  unfold Net.sockaccept at hs
  rw [if_neg (not_not.mpr h0)] at hs
  have h1 := h.alloc (s.net.scbs p).raddr (s.net.scbs p).sport (s.net.scbs p).dport (s.net.scbs p).socktype
    (s.call p) (.inr ⟨p, hp, rfl, rfl⟩)
  have h2 := h1.same (n := (sockcopy s.net p).1) (samePorts_setScb _ _ rfl)
  have h3 := h2.same (n := (sockcopy s.net p).1.setScb p
    { (sockcopy s.net p).1.scbs p with acptScb := (sockcopy s.net p).2 }) (samePorts_setScb _ _ rfl)
  exact h3.same (samePorts_linkClosed.addSockCb hs)

theorem closeFrees_of_tcpClose (scb : SockCb) {c : Conn} (hc : c.scb.state = scb.state) (h0 : (tcpClose c).2 = 0) :
    scb.closeFrees = true := by
  have hst := fun hs => tcpClose_keeps (c := c) hs h0
  rw [hc] at hst
  unfold SockCb.closeFrees
  cases hs : scb.state <;> simp [hs] at hst ⊢

theorem Inv.sockclose (h : s.Inv) (hp : s.net.alive p = true) (hg : PortStep s (.sockclose p))
    (hs : sockclose s.net p = some n) : Inv { s with net := n } := by
  have hf : s.net.SamePorts (s.net.setScb p { s.net.scbs p with f := 0 }) := s.net.samePorts_setScb p rfl
  have h1 := h.same hf
  have hself : (s.net.setScb p { s.net.scbs p with f := 0 }).scbs p = { s.net.scbs p with f := 0 } := by
    simp
  unfold Net.sockclose at hs
  dsimp only at hs
  generalize s.net.setScb p { s.net.scbs p with f := 0 } = n1 at hs h1 hself hf
  have hput := n1.samePorts_putConn p (tcpClose_home (n1.conn p))
  split at hs
  · split at hs
    · next h0 =>
      have hfree := closeFrees_of_tcpClose (s.net.scbs p) (by simp [conn, hself]) h0
      refine Inv.free (s := { s with net := n1.putConn p (tcpClose (n1.conn p)).1 }) (h1.same hput) ?_
        (hput.soleUser (hf.soleUser (hg hfree))) hs
      show (n1.putConn p _).alive p = true
      rw [hput.alive, hf.alive]
      exact hp
    · cases hs
      exact h1.same hput
  · next ht =>
    have hfree : (s.net.scbs p).closeFrees = true := by
      rw [hself] at ht
      simp [SockCb.closeFrees, ht]
    refine Inv.free (s := { s with net := n1 }) h1 ?_ (hf.soleUser (hg hfree)) hs
    show n1.alive p = true
    rw [hf.alive]
    exact hp

theorem Inv.tcpRecv (h : s.Inv) {m : Mbuf} (hg : PortStep s (.tcpRecv m len raddr))
    (hs : tcpRecv s.net m len raddr = some n) : Inv { s with net := n } := by
  rcases tcpRecv_cases hs with rfl | ⟨p, n1, hp, h0, hal, hn1, hs⟩
  · exact h
  have hput : s.net.SamePorts n1 := by
    have := s.net.samePorts_putConn p
      (tcpRecvSwitch_home ((s.net.conn p).newMbuf m) s.net.brk len raddr m.tcphdr.sport)
    rw [hn1]
    exact ⟨this.sport, rfl, rfl, rfl, rfl⟩
  split at hs
  · next hfreed =>
    obtain ⟨h1, h2, h3, h4⟩ := mayFree_of_found hfreed
    refine Inv.free (s := { s with net := n1 }) (h.same hput) ?_ (hput.soleUser (hg p hp h1 h2 h3 h4)) hs
    show n1.alive p = true
    rw [hput.alive]
    exact hal
  · rw [hs]
    exact h.same hput

theorem Inv.udpRecv (h : s.Inv) {m : Mbuf} {hdr : UdpHdr}
    (hs : udpRecv s.net m len raddr hdr = some n) : Inv { s with net := n } := by
  unfold Net.udpRecv at hs
  split at hs
  · cases hs
    exact h
  split at hs
  · cases hs
    exact h
  obtain ⟨p, hp, rfl⟩ := map_eq_some_iff.mp hs
  split
  · exact h
  · refine h.same (s.net.samePorts_putConn p ?_)
    simp only [pushToScbRxq, conn, setScb, update_self]
    split <;> exact ⟨rfl, rfl, rfl, rfl⟩

theorem Inv.step (h : s.Inv) {op : Op} (hg : PortStep s op) (hs : s.step op = some s') : s'.Inv := by
  obtain ⟨n, hn, rfl⟩ := map_eq_some_iff.mp hs
  cases op with
  | sockalloc t =>
    cases hn
    have := h.alloc 0 0 0 t (s.call s.net.brkScb) (.inl rfl)
    rwa [update_eq_self] at this
  | socklisten p sport =>
    obtain ⟨hp, hn⟩ := usable_of_some hn
    cases hn
    exact h.socklisten hp hg
  | sockaccept p =>
    obtain ⟨hp, hn⟩ := usable_of_some hn
    dsimp only
    split
    · next h0 => exact h.sockaccept hp h0 hn
    · next h0 =>
      unfold Net.sockaccept at hn
      rw [if_pos h0] at hn
      split at hn
      · cases hn
        exact h
      · cases hn
  | sockacceptDone p =>
    obtain ⟨hp, hn⟩ := usable_of_some hn
    unfold sockacceptDone at hn
    split at hn
    · cases hn
      exact h.same (s.net.samePorts_setScb p rfl)
    · cases hn
  | sockconnect p raddr dport =>
    obtain ⟨hp, hn⟩ := usable_of_some hn
    exact h.sockconnect hp hg hn
  | socksend p m flg =>
    obtain ⟨hp, hn⟩ := usable_of_some hn
    unfold socksend at hn
    split at hn
    · obtain ⟨r, hr, rfl⟩ := map_eq_some_iff.mp hn
      exact h.same (s.net.samePorts_putConn p (tcpSend_home hr))
    · cases hn
      exact h
  | sockclose p =>
    obtain ⟨hp, hn⟩ := usable_of_some hn
    exact h.sockclose hp hg hn
  | tcpRecv m len raddr => exact h.tcpRecv hg hn
  | udpRecv m len raddr hdr => exact h.udpRecv hn

theorem Inv.init : init.Inv where
  fresh _ h := (by cases h)
  bit _ := ⟨fun h => (by cases h), fun ⟨_, _, h, _⟩ => (by cases h)⟩
  one _ _ h := (by cases h)
  elem _ h := (by cases h)
  current := ⟨by decide, by decide, by decide⟩

end

end Ports

/-- **Port ownership.**  In every run in which only blocks without a port ask for one, `socklisten` for a port that
is free, and a block is freed only while no other has its port: a port's bit is set exactly if some
socket has the port, two sockets have one port only from one call, and every bit set is in the map. -/
theorem portOwnership {ops : List Op} {s : Ports}
    (hrun : Run (guard PortStep fun s op s' => Ports.step s op = some s') Ports.init ops s) :
    (∀ k : UInt16, s.net.sportTable k.toNat = true ↔ k ≠ 0 ∧ ∃ p, s.net.alive p = true ∧ (s.net.scbs p).sport = k) ∧
    (∀ p q, s.net.alive p = true → s.net.alive q = true → (s.net.scbs p).sport = (s.net.scbs q).sport →
      (s.net.scbs p).sport ≠ 0 → s.call p = s.call q) ∧
    ∀ k, s.net.sportTable k = true → k < 8 * sportElem := by
  have h := hrun.inv (I := Ports.Inv) (fun s op s' h hs => h.step hs.1 hs.2) Ports.Inv.init
  exact ⟨h.bit, h.one, h.elem⟩

/-- A socket that listens on port 80 and one accepted from it. -/
theorem portOwnership_accepted : ∃ s, Run (guard PortStep fun s op s' => Ports.step s op = some s') Ports.init
      [.sockalloc .tcp, .socklisten 1 80, .sockaccept 1] s ∧
    (s.net.scbs 1).sport = 80 ∧ (s.net.scbs 2).sport = 80 ∧ s.net.sportTable 80 = true ∧ s.call 1 = s.call 2 := by
  obtain ⟨s2, h2, s, h3, hp1, hp2, hbit, ha1, ha2⟩ : ∃ s2,
      ({ Ports.init with net := sockalloc socketInit .tcp } : Ports).step (.socklisten 1 80) = some s2 ∧
      ∃ s, s2.step (.sockaccept 1) = some s ∧ (s.net.scbs 1).sport = 80 ∧ (s.net.scbs 2).sport = 80 ∧
        s.net.sportTable 80 = true ∧ s.net.alive 1 = true ∧ s.net.alive 2 = true := by
    decide +kernel
  have hrun : Run (guard PortStep fun s op s' => Ports.step s op = some s') Ports.init
      [.sockalloc .tcp, .socklisten 1 80, .sockaccept 1] s :=
    .cons ⟨trivial, rfl⟩ (.cons ⟨⟨by decide, by decide, by decide, rfl⟩, h2⟩ (.cons ⟨trivial, h3⟩ (.nil s)))
  have hone := (portOwnership hrun).2.1 1 2 ha1 ha2 (hp1.trans hp2.symm) (by rw [hp1]; decide)
  exact ⟨s, hrun, hp1, hp2, hbit, hone⟩

/-- A segment without data. -/
def ctlMbuf (sport dport : UInt16) (seq ack : UInt32) (flg : UInt8) : Mbuf :=
  { emptyMbuf with tcphdr := ⟨sport, dport, seq, ack, 0x50, flg, 0⟩ }

/-- Three sockets listen on port 80, and each call returns 0: the second and the third get port 65535, whose bit
stays clear.  And a listening socket whose accepted socket is reset loses its port. -/
theorem portOwnership_broken : (∃ s, Run (fun s op s' => Ports.step s op = some s') Ports.init
        [.sockalloc .tcp, .socklisten 1 80, .sockalloc .tcp, .socklisten 2 80, .sockalloc .tcp] s ∧
      s.net.sportTable 80 = true ∧ socklistenResult s.net 80 = 0 ∧ ∃ s', s.step (.socklisten 3 80) = some s' ∧
      s'.net.alive 2 = true ∧ s'.net.alive 3 = true ∧ (s'.net.scbs 2).sport = 65535 ∧
      (s'.net.scbs 3).sport = 65535 ∧ s'.call 2 ≠ s'.call 3 ∧ s'.net.sportTable 65535 = false) ∧
    ∃ s, Run (fun s op s' => Ports.step s op = some s') Ports.init
        [.sockalloc .tcp, .socklisten 1 80, .sockaccept 1, .tcpRecv (ctlMbuf 5 80 7 0 tcpFlgSyn) 20 9,
          .tcpRecv (ctlMbuf 5 80 8 0 tcpFlgRst) 20 9] s ∧
      s.net.alive 1 = true ∧ (s.net.scbs 1).state = .listen ∧ (s.net.scbs 1).sport = 80 ∧
      s.net.sportTable 80 = false := by
  constructor
  · exact Run.find (by decide +kernel) fun s _ hv => hv
  · exact Run.find (by decide +kernel) fun s _ hv => hv

end InternetOs.Net
