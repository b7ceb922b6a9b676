import InternetOs.Net.ArpTable

/-!
# Packets that wait for an address (`kernel/net/arp.c`, `eth_send`)

An IP packet for an address that the ARP table does not resolve is put on `arp_q` and an ARP request
is sent; `arp_recv` unlinks the packets for the sender of an ARP packet and sends them.  An `ArpNet`
is the table, the mbufs, the queue and the frames given to the device.  Addresses of mbufs are never
handed out twice; reading an mbuf that has been freed gives `none`.

`arp_recv` never writes `arp_q.tail`.  When it has taken the last packet of the queue and left others,
the next packet is linked behind the one that is gone.

    the packets on arp_q = those queued for an address no ARP packet came from       (ArpNet.Waits)
    arpFlush:  takes exactly the packets for the sender, in order                    (arpFlush_spec)
-/

namespace InternetOs.Net

open Function List Prod

def ethTypeIp : UInt16 := 0x0800
def ethTypeArp : UInt16 := 0x0806

/-- `struct arp`, fields in host order. -/
structure ArpHdr where
  hrd : UInt16
  pro : UInt16
  hln : UInt8
  pln : UInt8
  op : UInt16
  sha : Mac
  sip : UInt32
  tha : Mac
  tip : UInt32

def arpHdrAt (buf : Nat → UInt8) (i : Nat) : ArpHdr :=
  { hrd := be16 buf i, pro := be16 buf (i + 2), hln := buf (i + 4), pln := buf (i + 5), op := be16 buf (i + 6)
    sha := fun j => buf (i + 8 + j), sip := be32 buf (i + 14)
    tha := fun j => buf (i + 18 + j), tip := be32 buf (i + 24) }

def arpHdrBytes (h : ArpHdr) : List UInt8 :=
  be16Bytes h.hrd ++ be16Bytes h.pro ++ [h.hln, h.pln] ++ be16Bytes h.op ++ ofFn h.sha ++ be32Bytes h.sip ++
    ofFn h.tha ++ be32Bytes h.tip

/-- The check of `arp_recv`. -/
def ArpHdr.valid (h : ArpHdr) : Bool := h.hrd = 1 && h.pro = ethTypeIp && h.hln = 6 && h.pln = 4

/-- The header of a received ARP packet that `arp_recv` accepts. -/
def arpAccepts (m : Mbuf) : Option ArpHdr :=
  (mbufpull m 28).1.bind fun i => if (arpHdrAt m.buf i).valid then some (arpHdrAt m.buf i) else none

/-- The mbuf that `arp_send` fills. -/
def arpPacket (op : UInt16) (dmac : Mac) (dip : UInt32) : Option Mbuf :=
  (mbufalloc 128).map fun m =>
    { m with
      len := 28
      buf := putBytes m.buf m.head (arpHdrBytes
        { hrd := 1, pro := ethTypeIp, hln := 6, pln := 4, op := op, sha := localMac, sip := localIp, tha := dmac
          tip := dip }) }

structure ArpNet where
  table : ArpTable
  mbufs : MbufHeap
  raddr : Nat → UInt32
  alive : Nat → Bool
  brk : Nat
  arpQ : Mbufq
  /-- Free descriptors of the transmit ring. -/
  room : Nat
  /-- The frames the device has taken, with their types. -/
  out : List (Nat × UInt16)

/-- After `arpinit`. -/
def arpinit : ArpNet :=
  { table := arptableInit, mbufs := fun _ => emptyMbuf, raddr := fun _ => 0, alive := fun _ => false, brk := 1
    arpQ := ⟨0, 0⟩, room := 0, out := [] }

namespace ArpNet

/-- `e1000ndev->transmit`, and `mbuffree` when it returns -1. -/
def transmit (s : ArpNet) (a : Nat) (ethtype : UInt16) : ArpNet :=
  if s.room = 0 then { s with alive := update s.alive a false }
  else { s with room := s.room - 1, out := s.out ++ [(a, ethtype)] }

/-- A new mbuf at `a`. -/
def alloc (s : ArpNet) (a : Nat) (m : Mbuf) (raddr : UInt32) : ArpNet :=
  { s with
    mbufs := update s.mbufs a m
    raddr := update s.raddr a raddr
    alive := update s.alive a true
    brk := a + 1 }

/-- `eth_send`, with the call of `arp_send` as a parameter. -/
def ethSendBy (arpSend : ArpNet → UInt32 → Option ArpNet) (s : ArpNet) (a : Nat) (ethtype : UInt16) (dip : UInt32) :
    Option ArpNet := do
  let (table, ret, dhost) ← arptableGetMac s.table dip 0
  let s := { s with table := table }
  match ← Net.ethSend (fun _ => if ret = -1 then none else some dhost) (s.mbufs a) ethtype dip with
  | .transmit m => some (transmit { s with mbufs := update s.mbufs a m } a ethtype)
  | .arpWait _ =>
    let s ← arpSend s dip
    let push := mbufqPushtail s.mbufs s.arpQ a
    some { s with mbufs := push.1, arpQ := push.2 }

/-- `arp_send`: its frame is of type ETH_TYPE_ARP, for which `eth_send` does not call `arp_send`. -/
def arpSend (s : ArpNet) (op : UInt16) (dmac : Mac) (dip : UInt32) : Option ArpNet :=
  (arpPacket op dmac dip).bind fun m => ethSendBy (fun s _ => some s) (s.alloc s.brk m 0) s.brk ethTypeArp dip

def ethSend : ArpNet → Nat → UInt16 → UInt32 → Option ArpNet :=
  ethSendBy fun s dip => s.arpSend 1 broadcastMac dip

/-- The loop of `arp_recv` over the queue. -/
def arpFlush (sip : UInt32) : Nat → ArpNet → Nat → Nat → Option ArpNet
  | 0, _, _, _ => none
  | fuel + 1, s, prev, now =>
    if now = 0 then some s
    else if s.raddr now = sip then
      (s.ethSend now ethTypeIp (s.raddr now)).bind fun s =>
        if s.alive now then
          let next := (s.mbufs now).next
          arpFlush sip fuel
            (if prev ≠ 0 then { s with mbufs := setNext s.mbufs prev next }
             else { s with arpQ := { s.arpQ with head := next } }) prev next
        else none
    else arpFlush sip fuel s now (s.mbufs now).next

def arpRecv (s : ArpNet) (m : Mbuf) : Option ArpNet :=
  match arpAccepts m with
  | none => some s
  | some hdr => do
    let table ← arptableAdd s.table hdr.sip hdr.sha
    let s ← arpFlush hdr.sip (s.brk + 1) { s with table := table } 0 s.arpQ.head
    if hdr.op ≠ 1 ∨ hdr.tip ≠ localIp then some s else s.arpSend 2 hdr.sha hdr.sip

end ArpNet

/-- An IP packet as `ip_send` leaves it: there is room for the Ethernet header. -/
structure IpPacket where
  mbuf : Mbuf
  headroom : 14 ≤ mbuf.head

/-- An IP packet, in the new mbuf `a`, comes to `eth_send`; or an ARP packet comes in.  `room` frames fit
in the transmit ring. -/
inductive ArpEvent
  | send (a : Nat) (pkt : IpPacket) (dip : UInt32) (room : Nat)
  | recv (m : Mbuf) (room : Nat)

def ArpNet.step (s : ArpNet) : ArpEvent → Option ArpNet
  | .send a pkt dip room =>
    if s.brk ≤ a then { s with room := room }.alloc a pkt.mbuf dip |>.ethSend a ethTypeIp dip else none
  | .recv m room => { s with room := room }.arpRecv m

namespace ArpNet

/-- The links of the mbufs. -/
def next (s : ArpNet) (x : Nat) : Nat := (s.mbufs x).next

/-- The mbufs on `arp_q`. -/
def queue (s : ArpNet) : List Nat := follow s.next s.brk s.arpQ.head

/-- The IP packets the device has taken, in order. -/
def sentIp (s : ArpNet) : List Nat := (s.out.filter (·.2 = ethTypeIp)).map fst

/-- `arptable_get_mac` would return 0. -/
def resolved (s : ArpNet) (dip : UInt32) : Bool := (arptableGetMac s.table dip 0).any (·.2.1 = 0)

section
variable {s s' : ArpNet} {m : UInt32 → Option Mac} {a : Nat} {ethtype : UInt16} {dip sip : UInt32}

theorem resolved_eq (h : s.table.IsMap m) (dip : UInt32) : s.resolved dip = (m dip).isSome := by
  obtain ⟨t', ht', -⟩ := ArpTable.arptableGetMac_spec h dip 0
  rw [resolved, ht']
  cases m dip <;> rfl

/-- The frame that goes to the device is the mbuf with its header. -/
theorem ethSend_out (arp : UInt32 → Option Mac) (dip : UInt32) {mb : Mbuf}
    (hres : (arp dip).isSome = true ∨ ethtype = ethTypeArp) (hh : 14 ≤ mb.head) :
    ∃ mb', Net.ethSend arp mb ethtype dip = some (.transmit mb') ∧ mb'.next = mb.next := by
  have hpush : mbufpush mb 14 = some (mb.head - 14, { mb with head := mb.head - 14, len := mb.len + 14 }) :=
    if_neg (by omega)
  rw [Net.ethSend, hpush]
  cases hd : arp dip with
  | some mac => exact ⟨_, rfl, rfl⟩
  | none =>
    have harp : ethtype = ethTypeArp := by simpa [hd] using hres
    subst harp
    exact ⟨_, rfl, rfl⟩

/-- A frame whose destination is resolved, or an ARP frame, goes to the device. -/
theorem ethSendBy_transmits (f : ArpNet → UInt32 → Option ArpNet) (h : s.table.IsMap m)
    (hres : (m dip).isSome = true ∨ ethtype = ethTypeArp) (hh : 14 ≤ (s.mbufs a).head) :
    ∃ t' mb, t'.IsMap m ∧ mb.next = (s.mbufs a).next ∧ ethSendBy f s a ethtype dip =
      some (transmit { s with table := t', mbufs := update s.mbufs a mb } a ethtype) := by
  obtain ⟨t', ht', hm'⟩ := ArpTable.arptableGetMac_spec h dip 0
  generalize hr : ((m dip).elim (-1, 0) fun a => (0, a) : Int × Mac) = r at ht'
  have hres' : (if r.1 = -1 then none else some r.2).isSome = true ∨ ethtype = ethTypeArp := by
    refine hres.imp_left fun hd => ?_
    obtain ⟨mac, hmac⟩ := Option.isSome_iff_exists.mp hd
    simp [← hr, hmac]
  obtain ⟨mb, hmb, hnext⟩ :=
    ethSend_out (fun _ => if r.1 = -1 then none else some r.2) dip hres' hh
  refine ⟨t', mb, hm', hnext, ?_⟩
  simp [ethSendBy, ht', hmb]

/-- What a call leaves alone when it only adds mbufs: the mbufs there were, and the queue. -/
structure Adds (m : UInt32 → Option Mac) (s s' : ArpNet) : Prop where
  table : s'.table.IsMap m
  mbufs : ∀ x, x < s.brk → s'.mbufs x = s.mbufs x
  raddr : ∀ x, x < s.brk → s'.raddr x = s.raddr x
  alive : ∀ x, x < s.brk → s'.alive x = s.alive x
  brk : s.brk ≤ s'.brk
  arpQ : s'.arpQ = s.arpQ
  sentIp : ∃ l, s'.sentIp = s.sentIp ++ l ∧ ∀ a ∈ l, s.brk ≤ a ∧ a < s'.brk

theorem Adds.trans {s1 s2 : ArpNet} {m' : UInt32 → Option Mac} (h : s.Adds m' s1) (h' : s1.Adds m s2) :
    s.Adds m s2 := by
  obtain ⟨l, hl, hnew⟩ := h.sentIp
  obtain ⟨l', hl', hnew'⟩ := h'.sentIp
  have hb := h.brk
  have hb' := h'.brk
  refine ⟨h'.table, fun x hx => ?_, fun x hx => ?_, fun x hx => ?_, hb.trans hb', h'.arpQ.trans h.arpQ, l ++ l', ?_, ?_⟩
  · rw [h'.mbufs x (hx.trans_le hb), h.mbufs x hx]
  · rw [h'.raddr x (hx.trans_le hb), h.raddr x hx]
  · rw [h'.alive x (hx.trans_le hb), h.alive x hx]
  · rw [hl', hl, append_assoc]
  · intro a ha
    rcases mem_append.mp ha with ha | ha
    · have := hnew a ha
      omega
    · have := hnew' a ha
      omega

theorem alloc_adds (h : s.table.IsMap m) (ha : s.brk ≤ a) (mb : Mbuf) (r : UInt32) : s.Adds m (s.alloc a mb r) := by
  have hne : ∀ x, x < s.brk → x ≠ a := fun x hx => (hx.trans_le ha).ne
  refine ⟨h, fun x hx => ?_, fun x hx => ?_, fun x hx => ?_, Nat.le_succ_of_le ha, rfl, [], ?_, ?_⟩
  · simp [alloc, hne x hx]
  · simp [alloc, hne x hx]
  · simp [alloc, hne x hx]
  · rw [append_nil]
    rfl
  · intro x hx
    cases hx

theorem send_adds (f : ArpNet → UInt32 → Option ArpNet) (h : s.table.IsMap m) (ha : s.brk ≤ a) {mb : Mbuf}
    (hmb : 14 ≤ mb.head) (r : UInt32) (hres : (m dip).isSome = true ∨ ethtype = ethTypeArp) :
    ∃ s', ethSendBy f (s.alloc a mb r) a ethtype dip = some s' ∧ s.Adds m s' := by
  obtain ⟨t', mb', hm', -, hsend⟩ :=
    ethSendBy_transmits (s := s.alloc a mb r) (a := a) f h hres (by simpa [alloc] using hmb)
  refine ⟨_, hsend, ?_⟩
  have hne : ∀ x, x < s.brk → x ≠ a := fun x hx => (hx.trans_le ha).ne
  unfold transmit
  split
  · refine ⟨hm', fun x hx => ?_, fun x hx => ?_, fun x hx => ?_, Nat.le_succ_of_le ha, rfl, [], ?_, ?_⟩
    · simp [alloc, hne x hx]
    · simp [alloc, hne x hx]
    · simp [alloc, hne x hx]
    · rw [append_nil]
      rfl
    · intro x hx
      cases hx
  · refine ⟨hm', fun x hx => ?_, fun x hx => ?_, fun x hx => ?_, Nat.le_succ_of_le ha, rfl,
      ([(a, ethtype)].filter (·.2 = ethTypeIp)).map fst, ?_, ?_⟩
    · simp [alloc, hne x hx]
    · simp [alloc, hne x hx]
    · simp [alloc, hne x hx]
    · simp [sentIp, alloc]
    · intro x hx
      obtain ⟨f, hf, rfl⟩ := mem_map.mp hx
      rw [mem_singleton.mp (mem_of_mem_filter hf)]
      exact ⟨ha, Nat.lt_succ_self a⟩

theorem arpSend_adds (h : s.table.IsMap m) (op : UInt16) (dmac : Mac) (dip : UInt32) :
    ∃ s', s.arpSend op dmac dip = some s' ∧ s.Adds m s' := by
  obtain ⟨mb, hmb, hhead⟩ : ∃ mb, arpPacket op dmac dip = some mb ∧ mb.head = 128 := ⟨_, rfl, rfl⟩
  obtain ⟨s', hs', ha⟩ := send_adds (fun s _ => some s) h le_rfl (hhead ▸ (by decide : 14 ≤ 128)) 0
    (show (m dip).isSome = true ∨ ethTypeArp = ethTypeArp from .inr rfl)
  exact ⟨s', by rw [arpSend, hmb]; exact hs', ha⟩

/-- An IP packet for an address that is not resolved: a request is sent and the packet goes to the queue. -/
theorem ethSend_waits (h : s.table.IsMap m) (hd : m dip = none) : ∃ s', s.Adds m s' ∧ s.ethSend a ethTypeIp dip =
      some { s' with mbufs := (mbufqPushtail s'.mbufs s.arpQ a).1, arpQ := (mbufqPushtail s'.mbufs s.arpQ a).2 } := by
  obtain ⟨t', ht', hm'⟩ := ArpTable.arptableGetMac_spec h dip 0
  obtain ⟨s', hs', ha⟩ := arpSend_adds (s := { s with table := t' }) hm' 1 broadcastMac dip
  refine ⟨s', ⟨ha.table, ha.mbufs, ha.raddr, ha.alive, ha.brk, ha.arpQ, ha.sentIp⟩, ?_⟩
  have hq : s'.arpQ = s.arpQ := ha.arpQ
  simp [ethSend, ethSendBy, ht', hd, Net.ethSend, ethTypeIp, hs', hq]

/-- The packets of `rest` for `sip` are sent, in order. -/
structure Flushed (m : UInt32 → Option Mac) (sip : UInt32) (rest : List Nat) (s s' : ArpNet) : Prop where
  table : s'.table.IsMap m
  heads : ∀ x, (x ∈ rest → s.raddr x ≠ sip) → (s'.mbufs x).head = (s.mbufs x).head
  raddr : s'.raddr = s.raddr
  alive : s'.alive = s.alive
  brk : s'.brk = s.brk
  out : s'.out = s.out ++ (rest.filter (s.raddr · = sip)).map (·, ethTypeIp)

/-- `eth_send` of a packet on the queue, and the unlinking. -/
theorem flush_one {x : Nat} {pre rest : List Nat} (h : s.table.IsMap m) (hsip : (m sip).isSome = true)
    (hc : Chain s.next s.arpQ.head (pre ++ x :: rest)) (hnd : (pre ++ x :: rest).Nodup)
    (hx : 14 ≤ (s.mbufs x).head ∧ s.alive x = true) (hr : s.raddr x = sip) (hroom : s.room ≠ 0) :
    ∃ s', (∀ fuel, arpFlush sip (fuel + 1) s (pre.getLast?.getD 0) x =
        arpFlush sip fuel s' (pre.getLast?.getD 0) (rest.head?.getD 0)) ∧
      s'.room = s.room - 1 ∧ Flushed m sip [x] s s' ∧ Chain s'.next s'.arpQ.head (pre ++ rest) := by
  have hx0 : x ≠ 0 := hc.ne_zero x (by simp)
  obtain ⟨t', mb, hm', hnext, hsend⟩ := ethSendBy_transmits (fun s dip => s.arpSend 1 broadcastMac dip) h
    (show (m sip).isSome = true ∨ ethTypeIp = ethTypeArp from .inl hsip) hx.1
  rw [transmit, if_neg hroom] at hsend
  have hlink : (s.mbufs x).next = rest.head?.getD 0 := hc.link
  generalize hs1 : ({ s with
    table := t', mbufs := update s.mbufs x mb, room := s.room - 1, out := s.out ++ [(x, ethTypeIp)] } : ArpNet) =
    s1 at hsend
  have hnext1 : ∀ y, (s1.mbufs y).next = s.next y := by
    intro y
    by_cases hy : y = x
    · subst hy
      simp [← hs1, hnext, ArpNet.next]
    · simp [← hs1, hy, ArpNet.next]
  have hhead1 : ∀ y, (y ∈ [x] → s.raddr y ≠ sip) → (s1.mbufs y).head = (s.mbufs y).head := by
    intro y hy
    have hyx : y ≠ x := fun e => hy (by simp [e]) (e ▸ hr)
    simp [← hs1, hyx]
  have halive1 : s1.alive x = true := by
    rw [← hs1]
    exact hx.2
  have hall : [x].filter (s.raddr · = sip) = [x] := by simp [hr]
  have hstep : ∀ prev fuel, arpFlush sip (fuel + 1) s prev x = arpFlush sip fuel
      (if prev ≠ 0 then { s1 with mbufs := setNext s1.mbufs prev (rest.head?.getD 0) }
       else { s1 with arpQ := { s1.arpQ with head := rest.head?.getD 0 } }) prev (rest.head?.getD 0) := by
    intro prev fuel
    have hsend' : s.ethSend x ethTypeIp sip = some s1 := hsend
    have hn : (s1.mbufs x).next = rest.head?.getD 0 := (hnext1 x).trans hlink
    simp [arpFlush, hx0, hr, hsend', halive1, hn]
  have hflushed : ∀ s' : ArpNet, s'.table = s1.table → (∀ y, (s'.mbufs y).head = (s1.mbufs y).head) →
      s'.raddr = s1.raddr → s'.alive = s1.alive → s'.brk = s1.brk → s'.out = s1.out → Flushed m sip [x] s s' := by
    intro s' ht hh hra hal hb ho
    refine ⟨?_, fun y hy => (hh y).trans (hhead1 y hy), ?_, ?_, ?_, ?_⟩
    · rw [ht, ← hs1]
      exact hm'
    · rw [hra, ← hs1]
    · rw [hal, ← hs1]
    · rw [hb, ← hs1]
    · rw [ho, hall, ← hs1]
      rfl
  rcases eq_nil_or_concat' pre with rfl | ⟨l, z, rfl⟩
  · -- the head of the queue moves on
    refine ⟨{ s1 with arpQ := { s1.arpQ with head := rest.head?.getD 0 } }, hstep 0, by rw [← hs1],
      hflushed _ rfl (fun _ => rfl) rfl rfl rfl rfl, ?_⟩
    have hc' := hc.remove s.next (fun l1 y l2 e => by simp at e) fun y _ => rfl
    rw [hc.link] at hc'
    exact hc'.congr fun y _ => hnext1 y
  · -- the packet before `x` is linked to the one behind it
    have hz0 : z ≠ 0 := hc.ne_zero z (by simp)
    have hlast : (l ++ [z]).getLast?.getD 0 = z := by simp
    refine ⟨{ s1 with mbufs := setNext s1.mbufs z (rest.head?.getD 0) }, fun fuel => ?_, by rw [← hs1],
      hflushed _ rfl (fun y => ?_) rfl rfl rfl rfl, ?_⟩
    · rw [hlast, hstep z fuel, if_pos hz0]
    · by_cases hy : y = z
      · subst hy
        simp [setNext]
      · simp [setNext, hy]
    · have hc' := hc.remove (fun y => if y = z then rest.head?.getD 0 else s.next y) ?_ ?_
      · rw [if_neg (by simp)] at hc'
        have hhead : s1.arpQ.head = s.arpQ.head := by rw [← hs1]
        rw [← hhead] at hc'
        refine hc'.congr fun y _ => ?_
        simp only [ArpNet.next, setNext_next, hnext1]
      · intro l1 y l2 e
        rw [hc.link]
        -- the last packet of the part that stays is `z`, and `z` is there once
        rcases eq_nil_or_concat' l2 with rfl | ⟨l3, w, rfl⟩
        · have hy : z = y := by simpa using (append_inj' e rfl).2
          rw [if_pos hy.symm, if_pos rfl]
        · have hw : l ++ [z] = (l1 ++ y :: l3) ++ [w] := by rw [e]; simp
          obtain ⟨hl, hzw⟩ := append_inj' hw rfl
          have hyz : y ≠ z := by
            rintro rfl
            have hnd' := (nodup_append.mp hnd).1
            exact (nodup_append.mp hnd').2.2 y (by rw [hl]; simp) y mem_cons_self rfl
          rw [if_neg hyz, if_neg (by simp)]
      · intro y hy
        have hyz : y ≠ z := by
          rintro rfl
          exact (nodup_append.mp hnd).2.2 y (by simp) y (mem_cons_of_mem x hy) rfl
        exact if_neg hyz

/-- A packet that the ring has no room for is freed, and then its link is read. -/
theorem flush_full {x : Nat} (h : s.table.IsMap m) (hsip : (m sip).isSome = true) (hx0 : x ≠ 0)
    (hx : 14 ≤ (s.mbufs x).head) (hr : s.raddr x = sip) (hroom : s.room = 0) (fuel prev : Nat) :
    arpFlush sip (fuel + 1) s prev x = none := by
  obtain ⟨t', mb, -, -, hsend⟩ := ethSendBy_transmits (fun s dip => s.arpSend 1 broadcastMac dip) h
    (show (m sip).isSome = true ∨ ethTypeIp = ethTypeArp from .inl hsip) hx
  rw [transmit, if_pos hroom] at hsend
  have hsend' : s.ethSend x ethTypeIp sip = some _ := hsend
  simp [arpFlush, hx0, hr, hsend']

theorem Flushed.trans {s1 s2 : ArpNet} {x : Nat} {rest : List Nat} (h : Flushed m sip [x] s s1)
    (h' : Flushed m sip rest s1 s2) : Flushed m sip (x :: rest) s s2 := by
  refine ⟨h'.table, fun y hy => ?_, h'.raddr.trans h.raddr, h'.alive.trans h.alive, h'.brk.trans h.brk, ?_⟩
  · rw [h'.heads y fun hm => by rw [h.raddr]; exact hy (mem_cons_of_mem x hm),
      h.heads y fun hm => hy (by rw [mem_singleton.mp hm]; exact mem_cons_self)]
  · rw [h'.out, h.out, h.raddr, append_assoc, ← map_append, ← filter_append]
    rfl

theorem arpFlush_spec (hsip : (m sip).isSome = true) (rest : List Nat) :
    ∀ (pre : List Nat) (s : ArpNet) (fuel : Nat), s.table.IsMap m → Chain s.next s.arpQ.head (pre ++ rest) →
      (pre ++ rest).Nodup → (∀ x ∈ rest, 14 ≤ (s.mbufs x).head ∧ s.alive x = true) → rest.length < fuel →
      ((rest.filter (s.raddr · = sip)).length ≤ s.room →
        ∃ s', arpFlush sip fuel s (pre.getLast?.getD 0) (rest.head?.getD 0) = some s' ∧
          Flushed m sip rest s s' ∧ Chain s'.next s'.arpQ.head (pre ++ rest.filter (s.raddr · ≠ sip))) ∧
      (s.room < (rest.filter (s.raddr · = sip)).length →
        arpFlush sip fuel s (pre.getLast?.getD 0) (rest.head?.getD 0) = none) := by
  induction rest with
  | nil =>
    intro pre s fuel h hc hnd hx hf
    obtain ⟨fuel, rfl⟩ : ∃ k, fuel = k + 1 := ⟨fuel - 1, by simp at hf; omega⟩
    refine ⟨fun _ => ⟨s, by simp [arpFlush], ⟨h, fun x _ => rfl, rfl, rfl, rfl, by simp⟩, by simpa using hc⟩,
      fun hlt => ?_⟩
    simp at hlt
  | cons x rest ih =>
    intro pre s fuel h hc hnd hx hf
    obtain ⟨fuel, rfl⟩ : ∃ k, fuel = k + 1 := ⟨fuel - 1, by simp at hf; omega⟩
    have hx0 : x ≠ 0 := hc.ne_zero x (by simp)
    have hf' : rest.length < fuel := by simpa using hf
    by_cases hr : s.raddr x = sip
    · have hmatch : (x :: rest).filter (s.raddr · = sip) = x :: rest.filter (s.raddr · = sip) := by simp [hr]
      have hkeep : (x :: rest).filter (s.raddr · ≠ sip) = rest.filter (s.raddr · ≠ sip) := by simp [hr]
      rw [hmatch, hkeep]
      simp only [head?_cons, Option.getD_some, length_cons]
      by_cases hroom : s.room = 0
      · refine ⟨fun hle => by omega, fun _ => ?_⟩
        exact flush_full h hsip hx0 (hx x mem_cons_self).1 hr hroom fuel _
      · obtain ⟨s1, hstep, hroom1, hfl, hc1⟩ := flush_one h hsip hc hnd (hx x mem_cons_self) hr hroom
        have hnd1 : (pre ++ rest).Nodup := hnd.sublist (Sublist.append_left (sublist_cons_self x rest) pre)
        have hx1 : ∀ y ∈ rest, 14 ≤ (s1.mbufs y).head ∧ s1.alive y = true := by
          intro y hy
          have hyx : y ∉ [x] := by
            rintro hm
            rw [mem_singleton.mp hm] at hy
            exact (nodup_cons.mp (nodup_append.mp hnd).2.1).1 hy
          rw [hfl.heads y fun hm => absurd hm hyx, hfl.alive]
          exact hx y (mem_cons_of_mem x hy)
        obtain ⟨hok, hbad⟩ := ih pre s1 fuel hfl.table hc1 hnd1 hx1 hf'
        rw [hfl.raddr] at hok hbad
        rw [hstep fuel]
        refine ⟨fun hle => ?_, fun hlt => hbad (by omega)⟩
        obtain ⟨s', hs', hfl', hc'⟩ := hok (by omega)
        exact ⟨s', hs', hfl.trans hfl', hc'⟩
    · have hstep : arpFlush sip (fuel + 1) s (pre.getLast?.getD 0) x =
          arpFlush sip fuel s ((pre ++ [x]).getLast?.getD 0) (rest.head?.getD 0) := by
        have hlink : (s.mbufs x).next = rest.head?.getD 0 := hc.link
        simp [arpFlush, hx0, hr, hlink]
      have hassoc : pre ++ x :: rest = (pre ++ [x]) ++ rest := by simp
      obtain ⟨hok, hbad⟩ := ih (pre ++ [x]) s fuel h (hassoc ▸ hc) (hassoc ▸ hnd)
        (fun y hy => hx y (mem_cons_of_mem x hy)) hf'
      have hfilter : (x :: rest).filter (s.raddr · = sip) = rest.filter (s.raddr · = sip) := by simp [hr]
      rw [hfilter]
      simp only [head?_cons, Option.getD_some, hstep]
      refine ⟨fun hle => ?_, hbad⟩
      obtain ⟨s', hs', hfl, hc'⟩ := hok hle
      refine ⟨s', hs', ⟨hfl.table, fun y hy => hfl.heads y fun hm => hy (mem_cons_of_mem x hm), hfl.raddr,
        hfl.alive, hfl.brk, by rw [hfilter]; exact hfl.out⟩, ?_⟩
      have hkeep : (x :: rest).filter (s.raddr · ≠ sip) = x :: rest.filter (s.raddr · ≠ sip) := by simp [hr]
      rw [hkeep]
      simpa using hc'

end

end ArpNet

/-- `mbufq_pushtail` appends to the queue exactly if the tail pointer is its last packet. -/
theorem mbufqPushtail_chain {h : MbufHeap} {q : Mbufq} {l : List Nat} {a : Nat}
    (hc : Chain (fun x => (h x).next) q.head l) (hnd : l.Nodup) (ha : a ≠ 0) (hal : a ∉ l) :
    Chain (fun x => ((mbufqPushtail h q a).1 x).next) (mbufqPushtail h q a).2.head (l ++ [a]) ↔
      ∀ z ∈ l.getLast?, z = q.tail := by
  rcases eq_nil_or_concat' l with rfl | ⟨l, z, rfl⟩
  · have h0 : q.head = 0 := hc
    refine iff_of_true ?_ (by simp)
    simp only [mbufqPushtail, if_pos h0]
    refine ⟨rfl, ha, ?_⟩
    change (setNext h a 0 a).next = 0
    simp [setNext_next]
  · have h0 : q.head ≠ 0 := by
      intro h0
      have := hc
      rw [h0] at this
      simpa using this.eq_nil
    have hza : z ≠ a := fun e => hal (by simp [e])
    have hnext : ∀ x, x ≠ a → ((mbufqPushtail h q a).1 x).next = if x = q.tail then a else (h x).next := by
      intro x hx
      simp [mbufqPushtail, h0, setNext_next, hx]
    have hhead : (mbufqPushtail h q a).2.head = q.head := by simp [mbufqPushtail, h0]
    rw [hhead]
    simp only [getLast?_concat, Option.mem_some_iff, forall_eq']
    constructor
    · intro hc'
      by_contra hz
      have h1 : (h z).next = 0 := hc.link
      have h2 : ((mbufqPushtail h q a).1 z).next = a := by
        rw [append_assoc] at hc'
        exact hc'.link
      rw [hnext z hza, if_neg hz, h1] at h2
      exact ha h2.symm
    · intro hz
      rw [append_assoc]
      refine hc.snoc ha ?_ ?_ fun x hx => ?_
      · rw [hnext z hza, if_pos hz]
      · simp [mbufqPushtail, h0, setNext_next, ← hz, hza.symm]
      · have hxa : x ≠ a := fun e => hal (by simp [← e, hx])
        have hxz : x ≠ q.tail := by
          rintro rfl
          exact (nodup_append.mp hnd).2.2 _ hx z mem_cons_self hz.symm
        rw [hnext x hxa, if_neg hxz]

theorem mbufqPushtail_head (h : MbufHeap) (q : Mbufq) (a x : Nat) : ((mbufqPushtail h q a).1 x).head = (h x).head := by
  have hset : ∀ (h : MbufHeap) p v, (setNext h p v x).head = (h x).head := by
    intro h p v
    by_cases hx : x = p
    · subst hx
      simp [setNext]
    · simp [setNext, hx]
  unfold mbufqPushtail
  split <;> simp [hset]

/-! ## What should wait -/

/-- The senders of the ARP packets so far, and all packets that had to wait, in the order they came. -/
structure ArpWaits where
  arrived : List UInt32
  queued : List (Nat × UInt32)

namespace ArpWaits

def step (w : ArpWaits) : ArpEvent → ArpWaits
  | .send a _ dip _ => if dip ∈ w.arrived then w else { w with queued := w.queued ++ [(a, dip)] }
  | .recv m _ => match arpAccepts m with
    | some hdr => { w with arrived := hdr.sip :: w.arrived }
    | none => w

/-- The packets that still wait. -/
def waiting (w : ArpWaits) : List (Nat × UInt32) := w.queued.filter (·.2 ∉ w.arrived)

/-- The packets that had to wait for `dip`. -/
def queuedFor (w : ArpWaits) (dip : UInt32) : List Nat := (w.queued.filter (·.2 = dip)).map fst

end ArpWaits

def arpWaits (evs : List ArpEvent) : ArpWaits := evs.foldl ArpWaits.step ⟨[], []⟩

namespace ArpNet

/-- **The queue is right**: `arp_q` has the packets that still wait, in order; of the packets that had to wait
for `dip`, all were sent, once and in order, if an ARP packet from `dip` has come, and none before. -/
structure Waits (w : ArpWaits) (s : ArpNet) : Prop where
  queue : Chain s.next s.arpQ.head (w.waiting.map fst)
  sent : ∀ dip, s.sentIp.filter (fun a => (a, dip) ∈ w.queued) = if dip ∈ w.arrived then w.queuedFor dip else []

/-- When an event does no harm: a packet that has to wait comes when `arp_q.tail` is the last packet of `arp_q`
or `arp_q` is empty; the ring takes the packets that an ARP packet releases. -/
def Safe (s : ArpNet) : ArpEvent → Prop
  | .send _ _ dip _ => s.resolved dip = true ∨ ∀ z ∈ s.queue.getLast?, z = s.arpQ.tail
  | .recv m room => ∀ hdr ∈ arpAccepts m, (s.queue.filter (s.raddr · = hdr.sip)).length ≤ room

/-- A new mbuf is at an address that was not used. -/
def Fresh (s : ArpNet) : ArpEvent → Prop
  | .send a _ _ _ => s.brk ≤ a
  | .recv _ _ => True

structure Inv (w : ArpWaits) (s : ArpNet) : Prop where
  table : ∃ m, s.table.IsMap m ∧ ∀ dip, (m dip).isSome = true ↔ dip ∈ w.arrived
  waits : s.Waits w
  addrs : (w.queued.map fst).Nodup
  below : ∀ q ∈ w.queued, q.1 < s.brk ∧ s.raddr q.1 = q.2
  ready : ∀ q ∈ w.waiting, 14 ≤ (s.mbufs q.1).head ∧ s.alive q.1 = true
  sent : ∀ a ∈ s.sentIp, a < s.brk
  pos : 0 < s.brk

section
variable {s s' : ArpNet} {w : ArpWaits} {m : UInt32 → Option Mac}

theorem Inv.addr_inj (h : Inv w s) {a : Nat} {d d' : UInt32} (hd : (a, d) ∈ w.queued) (hd' : (a, d') ∈ w.queued) :
    d = d' :=
  (Prod.mk.inj (inj_on_of_nodup_map h.addrs hd hd' rfl)).2

theorem Inv.queue_eq (h : Inv w s) : s.queue = w.waiting.map fst := by
  refine h.waits.queue.follow_eq (length_lt_of_nodup h.pos ?_ fun x hx => ⟨h.waits.queue.ne_zero x hx, ?_⟩).le
  · exact h.addrs.sublist (filter_sublist.map _)
  · obtain ⟨q, hq, rfl⟩ := mem_map.mp hx
    exact (h.below q (mem_of_mem_filter hq)).1

/-- Only mbufs are added, and maybe the table is told of an address. -/
theorem Inv.adds (h : Inv w s) (ha : s.Adds m s') (hm : ∀ dip, (m dip).isSome = true ↔ dip ∈ w.arrived) :
    Inv w s' := by
  have hlt : ∀ q ∈ w.waiting, q.1 < s.brk := fun q hq => (h.below q (mem_of_mem_filter hq)).1
  obtain ⟨l, hl, hnew⟩ := ha.sentIp
  refine ⟨⟨m, ha.table, hm⟩, ⟨?_, ?_⟩, h.addrs, fun q hq => ?_, fun q hq => ?_,
    fun a hsent => ?_, h.pos.trans_le ha.brk⟩
  · rw [ha.arpQ]
    refine h.waits.queue.congr fun x hx => ?_
    obtain ⟨q, hq, rfl⟩ := mem_map.mp hx
    rw [ArpNet.next, ha.mbufs q.1 (hlt q hq)]
    rfl
  · intro dip
    have hnone : l.filter (fun a => (a, dip) ∈ w.queued) = [] := by
      rw [filter_eq_nil_iff]
      intro a hal
      have hge := (hnew a hal).1
      have hnot : (a, dip) ∉ w.queued := fun hq => absurd (h.below _ hq).1 (by omega)
      simpa using hnot
    rw [hl, filter_append, hnone, append_nil]
    exact h.waits.sent dip
  · obtain ⟨hb, hr⟩ := h.below q hq
    exact ⟨hb.trans_le ha.brk, (ha.raddr q.1 hb).trans hr⟩
  · rw [ha.mbufs q.1 (hlt q hq), ha.alive q.1 (hlt q hq)]
    exact h.ready q hq
  · rw [hl] at hsent
    rcases mem_append.mp hsent with hsent | hsent
    · exact (h.sent a hsent).trans_le ha.brk
    · exact (hnew a hsent).2

theorem Inv.flushed {sip : UInt32} (h : Inv w s) (hfl : Flushed m sip (w.waiting.map fst) s s')
    (hc : Chain s'.next s'.arpQ.head ((w.waiting.map fst).filter (s.raddr · ≠ sip)))
    (hm : ∀ dip, (m dip).isSome = true ↔ dip ∈ sip :: w.arrived) :
    Inv { w with arrived := sip :: w.arrived } s' := by
  have hqueued : ∀ q ∈ w.waiting, q ∈ w.queued := fun q hq => mem_of_mem_filter hq
  have hstay : (w.waiting.map fst).filter (s.raddr · ≠ sip) =
      (ArpWaits.waiting { w with arrived := sip :: w.arrived }).map fst := by
    rw [filter_map]
    congr 1
    rw [ArpWaits.waiting, filter_filter]
    refine filter_congr fun q hq => ?_
    simp [(h.below q hq).2]
  have hgo : (w.waiting.map fst).filter (s.raddr · = sip) = (w.waiting.filter (·.2 = sip)).map fst := by
    rw [filter_map]
    congr 1
    refine filter_congr fun q hq => ?_
    simp [(h.below q (hqueued q hq)).2]
  have hsent : s'.sentIp = s.sentIp ++ (w.waiting.filter (·.2 = sip)).map fst := by
    have htype : ∀ l : List Nat, ((l.map fun a => (a, ethTypeIp)).filter (·.2 = ethTypeIp)).map fst = l := by
      intro l
      simp [filter_map, comp_def]
    rw [sentIp, hfl.out, filter_append, map_append, htype, hgo]
    rfl
  refine ⟨⟨m, hfl.table, hm⟩, ⟨hstay ▸ hc, fun dip => ?_⟩, h.addrs, fun q hq => ?_, fun q hq => ?_, fun a ha => ?_, ?_⟩
  · have hold := h.waits.sent dip
    have hqf : ArpWaits.queuedFor { w with arrived := sip :: w.arrived } dip = w.queuedFor dip := rfl
    rw [hsent, filter_append, hold, hqf]
    by_cases hd : dip = sip
    · subst hd
      have hall : ((w.waiting.filter (·.2 = dip)).map fst).filter (fun a => (a, dip) ∈ w.queued) =
          (w.waiting.filter (·.2 = dip)).map fst := by
        rw [filter_eq_self]
        intro a ha
        obtain ⟨⟨a', d⟩, hq, rfl⟩ := mem_map.mp ha
        obtain ⟨hq, hqd⟩ := mem_filter.mp hq
        have hdd : d = dip := by simpa using hqd
        simpa [hdd] using hqueued _ hq
      rw [hall, if_pos mem_cons_self]
      by_cases harr : dip ∈ w.arrived
      · -- nobody waits for an address that is known
        have hnone : w.waiting.filter (·.2 = dip) = [] := by
          rw [ArpWaits.waiting, filter_filter, filter_eq_nil_iff]
          intro q hq hqd
          simp only [Bool.and_eq_true, decide_eq_true_eq] at hqd
          exact hqd.2 (hqd.1 ▸ harr)
        rw [if_pos harr, hnone, map_nil, append_nil]
      · rw [if_neg harr, nil_append, ArpWaits.waiting, filter_filter]
        congr 1
        refine filter_congr fun q hq => ?_
        by_cases hqd : q.2 = dip
        · simp [hqd, harr]
        · simp [hqd]
    · have hnone : ((w.waiting.filter (·.2 = sip)).map fst).filter (fun a => (a, dip) ∈ w.queued) = [] := by
        rw [filter_eq_nil_iff]
        intro a ha hin
        obtain ⟨⟨a', d⟩, hq, rfl⟩ := mem_map.mp ha
        obtain ⟨hq, hqd⟩ := mem_filter.mp hq
        have hdd : d = sip := by simpa using hqd
        have hin' : (a', dip) ∈ w.queued := by simpa using hin
        exact hd ((h.addr_inj hin' (hqueued _ hq)).trans hdd)
      rw [hnone]
      simp [hd]
  · rw [hfl.brk, hfl.raddr]
    exact h.below q hq
  · obtain ⟨hq, hnot⟩ := mem_filter.mp hq
    have hnot' : q.2 ≠ sip ∧ q.2 ∉ w.arrived := by simpa using hnot
    rw [hfl.heads q.1 fun _ => by rw [(h.below q hq).2]; exact hnot'.1, hfl.alive]
    exact h.ready q (mem_filter.mpr ⟨hq, by simpa using hnot'.2⟩)
  · rw [hsent] at ha
    rw [hfl.brk]
    rcases mem_append.mp ha with ha | ha
    · exact h.sent a ha
    · obtain ⟨q, hq, rfl⟩ := mem_map.mp ha
      exact (h.below q (hqueued q (mem_of_mem_filter hq))).1
  · rw [hfl.brk]
    exact h.pos

theorem Inv.room (h : Inv w s) (room : Nat) : Inv w { s with room := room } :=
  ⟨h.table, ⟨h.waits.queue, h.waits.sent⟩, h.addrs, h.below, h.ready, h.sent, h.pos⟩

/-- **An ARP packet.**  The packets for its sender are released if the ring takes them all; otherwise the link
of a freed mbuf is read. -/
theorem Inv.recv (h : Inv w s) (mb : Mbuf) (room : Nat) :
    (s.Safe (.recv mb room) → ∃ s', s.step (.recv mb room) = some s' ∧ Inv (w.step (.recv mb room)) s') ∧
      (¬ s.Safe (.recv mb room) → s.step (.recv mb room) = none) := by
  cases hacc : arpAccepts mb with
  | none =>
    refine ⟨fun _ => ⟨{ s with room := room }, by simp [step, arpRecv, hacc], ?_⟩, fun hno => ?_⟩
    · simp only [ArpWaits.step, hacc]
      exact h.room room
    · exact absurd (by simp [Safe, hacc]) hno
  | some hdr =>
    obtain ⟨m, hmap, harr⟩ := h.table
    obtain ⟨t', ht', hmap'⟩ := ArpTable.arptableAdd_spec hmap hdr.sip hdr.sha
    have harr' : ∀ dip, (update m hdr.sip (some hdr.sha) dip).isSome = true ↔ dip ∈ hdr.sip :: w.arrived := by
      intro dip
      by_cases hd : dip = hdr.sip
      · simp [hd]
      · simp [hd, harr dip]
    have hready : ∀ x ∈ w.waiting.map fst, 14 ≤ (s.mbufs x).head ∧ s.alive x = true := by
      intro x hx
      obtain ⟨q, hq, rfl⟩ := mem_map.mp hx
      exact h.ready q hq
    have hnd : (w.waiting.map fst).Nodup := h.addrs.sublist (filter_sublist.map _)
    have hlen : (w.waiting.map fst).length < s.brk + 1 := by
      refine Nat.lt_succ_of_lt (length_lt_of_nodup h.pos hnd fun x hx => ⟨h.waits.queue.ne_zero x hx, ?_⟩)
      obtain ⟨q, hq, rfl⟩ := mem_map.mp hx
      exact (h.below q (mem_of_mem_filter hq)).1
    have hhead : s.arpQ.head = (w.waiting.map fst).head?.getD 0 := by
      have hc := h.waits.queue
      cases hl : w.waiting.map fst with
      | nil =>
        rw [hl] at hc
        exact hc
      | cons x l =>
        rw [hl] at hc
        exact hc.1
    obtain ⟨hok, hbad⟩ := arpFlush_spec (show (update m hdr.sip (some hdr.sha) hdr.sip).isSome = true by simp)
      (w.waiting.map fst) [] { s with table := t', room := room } (s.brk + 1) hmap' h.waits.queue hnd hready hlen
    have hflush : ∀ r, arpFlush hdr.sip (s.brk + 1) { s with table := t', room := room } 0
        ((w.waiting.map fst).head?.getD 0) = r →
        s.step (.recv mb room) = r.bind fun s =>
          if hdr.op ≠ 1 ∨ hdr.tip ≠ localIp then some s else s.arpSend 2 hdr.sha hdr.sip := by
      rintro r rfl
      simp [step, arpRecv, hacc, ht', hhead]
    have hsafe : s.Safe (.recv mb room) ↔ ((w.waiting.map fst).filter (s.raddr · = hdr.sip)).length ≤ room := by
      simp [Safe, hacc, h.queue_eq]
    rw [hsafe]
    constructor
    · intro hle
      obtain ⟨s1, hs1, hfl, hc⟩ := hok hle
      have hinv : Inv { w with arrived := hdr.sip :: w.arrived } s1 := by
        refine (h.room room).flushed (s := { s with room := room }) ?_ hc harr'
        exact ⟨hfl.table, hfl.heads, hfl.raddr, hfl.alive, hfl.brk, hfl.out⟩
      rw [hflush _ hs1]
      simp only [ArpWaits.step, hacc]
      split
      · exact ⟨s1, rfl, hinv⟩
      · obtain ⟨s2, hs2, hadds⟩ := arpSend_adds hfl.table 2 hdr.sha hdr.sip
        exact ⟨s2, hs2, hinv.adds hadds harr'⟩
    · intro hlt
      have hnone := hbad (Nat.lt_of_not_le hlt)
      rw [hflush _ hnone, Option.bind_none]

theorem Waits.queued {a : Nat} {dip : UInt32} (hs : ∀ x ∈ s.sentIp, x ≠ a) (hd : dip ∉ w.arrived)
    (hw : s.Waits w) (d : UInt32) : s.sentIp.filter (fun x => (x, d) ∈ w.queued ++ [(a, dip)]) =
      if d ∈ w.arrived then ArpWaits.queuedFor { w with queued := w.queued ++ [(a, dip)] } d else [] := by
  have hfilter : s.sentIp.filter (fun x => (x, d) ∈ w.queued ++ [(a, dip)]) =
      s.sentIp.filter (fun x => (x, d) ∈ w.queued) := by
    refine filter_congr fun x hx => ?_
    simp [hs x hx]
  rw [hfilter, hw.sent d]
  split
  · next hin =>
    have hne : dip ≠ d := fun e => hd (e ▸ hin)
    simp [ArpWaits.queuedFor, hne]
  · rfl

/-- **An IP packet.**  Nothing else changes if its destination is resolved; otherwise it is appended to the
queue exactly if the tail pointer is right. -/
theorem Inv.send (h : Inv w s) {a : Nat} (ha : s.brk ≤ a) (pkt : IpPacket) (dip : UInt32) (room : Nat) :
    ∃ s', s.step (.send a pkt dip room) = some s' ∧
      (s.Safe (.send a pkt dip room) → Inv (w.step (.send a pkt dip room)) s') ∧
      (s'.Waits (w.step (.send a pkt dip room)) → s.Safe (.send a pkt dip room)) := by
  obtain ⟨m, hmap, harr⟩ := h.table
  have hstep : s.step (.send a pkt dip room) = ({ s with room := room }.alloc a pkt.mbuf dip).ethSend a ethTypeIp dip :=
    if_pos ha
  have hres : s.resolved dip = true ↔ dip ∈ w.arrived := by rw [resolved_eq hmap, harr]
  by_cases hd : dip ∈ w.arrived
  · obtain ⟨s', hs', hadds⟩ := send_adds (s := { s with room := room })
      (fun s dip => s.arpSend 1 broadcastMac dip) hmap ha pkt.headroom dip
      (show (m dip).isSome = true ∨ ethTypeIp = ethTypeArp from .inl ((harr dip).mpr hd))
    refine ⟨s', hstep.trans hs', fun _ => ?_, fun _ => .inl (hres.mpr hd)⟩
    rw [ArpWaits.step, if_pos hd]
    exact (h.room room).adds hadds harr
  · have hnone : m dip = none := by
      have := (harr dip).not.mpr hd
      simpa using this
    have halloc := alloc_adds (s := { s with room := room }) hmap ha pkt.mbuf dip
    obtain ⟨s1, hadds, hsend⟩ := ethSend_waits (a := a) (s := { s with room := room }.alloc a pkt.mbuf dip) hmap hnone
    have hinv : Inv w s1 := (h.room room).adds (halloc.trans hadds) harr
    have haq : a < ({ s with room := room }.alloc a pkt.mbuf dip).brk := Nat.lt_succ_self a
    have hlt : ∀ q ∈ w.queued, q.1 < a := fun q hq => (h.below q hq).1.trans_le ha
    have hwlt : a ∉ w.waiting.map fst := by
      intro hin
      obtain ⟨q, hq, he⟩ := mem_map.mp hin
      exact absurd (hlt q (mem_of_mem_filter hq)) (by omega)
    have ha0 : a ≠ 0 := by
      have := h.pos
      omega
    have hwaiting : ArpWaits.waiting { w with queued := w.queued ++ [(a, dip)] } = w.waiting ++ [(a, dip)] := by
      simp [ArpWaits.waiting, hd]
    have hnd : (w.waiting.map fst).Nodup := h.addrs.sublist (filter_sublist.map _)
    have hq1 : s1.arpQ = s.arpQ := hadds.arpQ
    have hc : Chain (fun x => (s1.mbufs x).next) s.arpQ.head (w.waiting.map fst) := hq1 ▸ hinv.waits.queue
    have hpush := mbufqPushtail_chain hc hnd ha0 hwlt
    have hsafe : s.Safe (.send a pkt dip room) ↔ ∀ z ∈ (w.waiting.map fst).getLast?, z = s.arpQ.tail := by
      rw [Safe, hres, h.queue_eq]
      exact or_iff_right hd
    have hw : w.step (.send a pkt dip room) = { w with queued := w.queued ++ [(a, dip)] } := if_neg hd
    have hsent1 : ∀ x ∈ s1.sentIp, x ≠ a := by
      obtain ⟨l, hl, hnew⟩ := hadds.sentIp
      intro x hx
      rw [hl] at hx
      rcases mem_append.mp hx with hx | hx
      · exact ((h.sent x hx).trans_le ha).ne
      · exact (haq.trans_le (hnew x hx).1).ne'
    have hra : s1.raddr a = dip := (hadds.raddr a haq).trans (update_self _ _ _)
    have hmb : s1.mbufs a = pkt.mbuf := (hadds.mbufs a haq).trans (update_self _ _ _)
    have hal : s1.alive a = true := (hadds.alive a haq).trans (update_self _ _ _)
    refine ⟨_, hstep.trans hsend, fun hs => ?_, fun hwaits => ?_⟩
    · rw [hw]
      refine ⟨hinv.table, ⟨?_, ?_⟩, ?_, ?_, ?_, hinv.sent, hinv.pos⟩
      · rw [hwaiting, map_append]
        exact hpush.mpr (hsafe.mp hs)
      · exact Waits.queued (s := s1) hsent1 hd hinv.waits
      · rw [map_append]
        refine nodup_append.mpr ⟨h.addrs, nodup_singleton _, fun x hx y hy => ?_⟩
        obtain ⟨q, hq, rfl⟩ := mem_map.mp hx
        rw [mem_singleton.mp hy]
        exact (hlt q hq).ne
      · intro q hq
        rcases mem_append.mp hq with hq | hq
        · exact hinv.below q hq
        · rw [mem_singleton.mp hq]
          exact ⟨haq.trans_le hadds.brk, hra⟩
      · intro q hq
        rw [hwaiting] at hq
        rw [mbufqPushtail_head]
        rcases mem_append.mp hq with hq | hq
        · exact hinv.ready q hq
        · rw [mem_singleton.mp hq, hmb]
          exact ⟨pkt.headroom, hal⟩
    · rw [hw] at hwaits
      have hchain := hwaits.queue
      rw [hwaiting, map_append] at hchain
      exact hsafe.mpr (hpush.mp hchain)

end

end ArpNet

theorem arpinit_inv : ArpNet.Inv ⟨[], []⟩ arpinit := by
  refine ⟨⟨fun _ => none, arptableInit_isMap, by simp⟩, ⟨rfl, fun dip => rfl⟩, nodup_nil, ?_, ?_, ?_, by decide⟩
  · intro q hq
    cases hq
  · intro q hq
    cases hq
  · intro a ha
    cases ha

theorem arpNet_inv {evs : List ArpEvent} {s : ArpNet}
    (h : Run (guard ArpNet.Safe fun s e s' => s.step e = some s') arpinit evs s) : ArpNet.Inv (arpWaits evs) s := by
  refine h.inv_trace (I := fun evs s => ArpNet.Inv (arpWaits evs) s) ?_ arpinit_inv
  rintro evs s e s' hinv ⟨hsafe, hstep⟩
  rw [arpWaits, foldl_append]
  change ArpNet.Inv ((arpWaits evs).step e) s'
  cases e with
  | send a pkt dip room =>
    have ha : s.brk ≤ a := by
      by_contra hno
      rw [ArpNet.step, if_neg hno] at hstep
      cases hstep
    obtain ⟨s1, hs1, hok, -⟩ := hinv.send ha pkt dip room
    rw [hs1] at hstep
    cases hstep
    exact hok hsafe
  | recv mb room =>
    obtain ⟨s1, hs1, hok⟩ := (hinv.recv mb room).1 hsafe
    rw [hs1] at hstep
    cases hstep
    exact hok

/-- **The packets that wait.**  In a run of packets that meet the condition, `arp_q` has exactly the packets that
still wait, and the packets released were sent once and in order; the next event keeps that exactly if it
meets the condition. -/
theorem arpQueueWaits {evs : List ArpEvent} {s : ArpNet}
    (h : Run (guard ArpNet.Safe fun s e s' => s.step e = some s') arpinit evs s) :
    s.Waits (arpWaits evs) ∧ s.queue = (arpWaits evs).waiting.map fst ∧
      ∀ e, s.Fresh e → ((∃ s', s.step e = some s' ∧ s'.Waits (arpWaits (evs ++ [e]))) ↔ s.Safe e) := by
  have hinv := arpNet_inv h
  refine ⟨hinv.waits, hinv.queue_eq, fun e he => ?_⟩
  have hafter : arpWaits (evs ++ [e]) = (arpWaits evs).step e := by simp [arpWaits]
  rw [hafter]
  cases e with
  | send a pkt dip room =>
    obtain ⟨s', hs', hok, hbad⟩ := hinv.send he pkt dip room
    constructor
    · rintro ⟨s1, hs1, hw⟩
      rw [hs'] at hs1
      cases hs1
      exact hbad hw
    · intro hsafe
      exact ⟨s', hs', (hok hsafe).waits⟩
  | recv mb room =>
    obtain ⟨hok, hbad⟩ := hinv.recv mb room
    constructor
    · rintro ⟨s', hs', -⟩
      by_contra hno
      rw [hbad hno] at hs'
      cases hs'
    · intro hsafe
      obtain ⟨s', hs', hinv'⟩ := hok hsafe
      exact ⟨s', hs', hinv'.waits⟩

instance (s : ArpNet) (e : ArpEvent) : Decidable (s.Safe e) :=
  match e with
  | .send _ _ dip _ => inferInstanceAs (Decidable (s.resolved dip = true ∨ ∀ z ∈ s.queue.getLast?, z = s.arpQ.tail))
  | .recv m room =>
    inferInstanceAs (Decidable (∀ hdr ∈ arpAccepts m, (s.queue.filter (s.raddr · = hdr.sip)).length ≤ room))

/-- An ARP reply from `sip`. -/
def arpReplyFrom (sip : UInt32) : Mbuf :=
  { emptyMbuf with
    head := 0
    len := 28
    buf := asBuf (arpHdrBytes
      { hrd := 1, pro := ethTypeIp, hln := 6, pln := 4, op := 2, sha := localMac, sip := sip, tha := localMac
        tip := localIp }) }

/-- A packet with nothing but headroom. -/
def barePacket : IpPacket := ⟨{ emptyMbuf with head := 128 }, by decide⟩

/-- Packets for two addresses wait; the first address answers, then the second. -/
theorem arpQueueWaits_run : ∃ s : ArpNet, s.sentIp = [10, 30, 20] ∧
    s.Waits (arpWaits [.send 10 barePacket 1 4, .send 20 barePacket 2 4, .send 30 barePacket 1 4,
      .send 40 barePacket 3 4, .recv (arpReplyFrom 1) 4, .recv (arpReplyFrom 2) 4]) := by
  obtain ⟨s, -, h⟩ := Run.find_guard (s := arpinit) (P := fun s => s.sentIp = [10, 30, 20]) (by decide +kernel)
    fun s hs hv => (⟨hv, (arpQueueWaits hs).1⟩ : s.sentIp = [10, 30, 20] ∧ s.Waits (arpWaits
      [.send 10 barePacket 1 4, .send 20 barePacket 2 4, .send 30 barePacket 1 4, .send 40 barePacket 3 4,
        .recv (arpReplyFrom 1) 4, .recv (arpReplyFrom 2) 4]))
  exact ⟨s, h⟩

/-- The address of the packet that came last answers first; the next packet is not on the queue. -/
theorem arpQueue_loses : ∃ s : ArpNet, Run (fun s e s' => ArpNet.step s e = some s') arpinit
      [.send 10 barePacket 1 4, .send 20 barePacket 2 4, .recv (arpReplyFrom 2) 4, .send 30 barePacket 1 4] s ∧
    s.queue = [10] ∧
    (arpWaits [.send 10 barePacket 1 4, .send 20 barePacket 2 4, .recv (arpReplyFrom 2) 4,
      .send 30 barePacket 1 4]).waiting = [(10, 1), (30, 1)] := by
  exact Run.find (by decide +kernel) fun s _ hq => ⟨hq, by decide +kernel⟩

end InternetOs.Net
