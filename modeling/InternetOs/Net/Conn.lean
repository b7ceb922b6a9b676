import InternetOs.Lib.Run
import InternetOs.Net.TcpCases

/-!
# One connection: its steps and its two queues

`sockrecvIter` is one pass through the loop of `sockrecv` (`kernel/net/socket.c`).
A `Sess` is one control block with its readers and writers; an `Ev` is a step of
its life: an arriving segment, a pass of a reader, a `tcp_send`, a `tcp_close`.
The block is found by `get_sock_cb` until `free_sock_cb` has freed it (`freed`).

`Conn.QInv c lr lt`: `rxq` holds the mbufs `lr`, `txq` the mbufs `lt`, and they
are different mbufs.  Each function has one lemma saying what it does to them.
-/

namespace InternetOs.Net

open SockCbState List

/-! ## The reader -/

/-- How a pass through the loop of `sockrecv` ends. -/
inductive RecvCtl
  | ret (r : Int)
  | again (n res : Nat)
  deriving DecidableEq, Repr

/-- The rest of a pass of the TCP loop of `sockrecv` once it has popped the mbuf `m`.  The second component is
the bytes it hands to `copyout`. -/
def sockrecvCopy (c : Conn) (m n res : Nat) : Conn × List UInt8 × RecvCtl :=
  let mb := c.mbufs m
  let acceptableSize := if n > mb.len then mb.len else n
  let copied := mb.data.take acceptableSize
  let c := { c with scb := { c.scb with
    rcv := { c.scb.rcv with wnd := c.scb.rcv.wnd + UInt32.ofNat acceptableSize } } }
  if n > mb.len then
    if tcpFlgIsset mb.tcphdr.flg tcpFlgPsh then (c, copied, .ret (res + acceptableSize : Nat))
    else (c, copied, .again (n - acceptableSize) (res + acceptableSize))
  else
    let h := Function.update c.mbufs m (mbufpull mb acceptableSize).2
    let push := mbufqPushhead h c.scb.rxq m
    ({ c with mbufs := push.1, scb := { c.scb with rxq := push.2 } }, copied, .ret (res + acceptableSize : Nat))

/-- One pass of the TCP loop of `sockrecv` over the block it found: `n` bytes are still
wanted and `res` were copied by earlier passes. -/
def sockrecvIter (c : Conn) (nonblockable : Bool) (n res : Nat) : Conn × List UInt8 × RecvCtl :=
  if c.scb.state = .closeWait then (c, [], .ret (-1))
  else
    let m := (popFromScbRxq c.mbufs c.scb).1
    let c := { c with scb := (popFromScbRxq c.mbufs c.scb).2 }
    if m = 0 then
      if nonblockable then (c, [], .ret res) else (c, [], .again n res)
    else sockrecvCopy c m n res

/-! ## The steps of a connection -/

/-- `copied` is what readers got, `written` what `tcp_send` accepted, one entry a call. -/
structure Sess where
  conn : Conn
  freed : Bool
  copied : List UInt8
  written : List (List UInt8)

inductive Ev
  /-- A frame arrives, in an mbuf of its own; `len` is the IP payload length. -/
  | seg (m : Mbuf) (len : UInt16) (raddr : UInt32)
  /-- A pass of a reader that still wants `n` bytes. -/
  | recv (nonblockable : Bool) (n : Nat)
  | send (m : Mbuf) (flg : UInt8)
  | close

/-- The arrival of a frame at the block. -/
def Sess.seg (s : Sess) (m : Mbuf) (len : UInt16) (raddr : UInt32) : Sess :=
  let r := tcpRecvSwitch (s.conn.newMbuf m) s.conn.brk len raddr m.tcphdr.sport
  { s with conn := r.1, freed := r.2 }

theorem Sess.seg_closed {s : Sess} (h : s.conn.scb.state = closed) (m : Mbuf) (len : UInt16)
    (raddr : UInt32) : s.seg m len raddr = { s with conn := s.conn.newMbuf m, freed := false } := by
  simp [Sess.seg, tcpRecvSwitch, show (s.conn.newMbuf m).scb.state = closed from h]

theorem Sess.seg_listen {s : Sess} (h : s.conn.scb.state = listen) (m : Mbuf) (len : UInt16) (raddr : UInt32) :
    s.seg m len raddr = { s with
      conn := (tcpRecvListen (s.conn.newMbuf m) s.conn.brk raddr m.tcphdr.sport).1
      freed := false } := by
  simp [Sess.seg, tcpRecvSwitch, show (s.conn.newMbuf m).scb.state = listen from h]

theorem Sess.seg_synSent {s : Sess} (h : s.conn.scb.state = synSent) (m : Mbuf) (len : UInt16) (raddr : UInt32) :
    s.seg m len raddr = { s with
      conn := (tcpRecvSynSent (s.conn.newMbuf m) s.conn.brk).1, freed := false } := by
  simp [Sess.seg, tcpRecvSwitch, show (s.conn.newMbuf m).scb.state = synSent from h]

theorem Sess.seg_core (s : Sess) (h1 : s.conn.scb.state ≠ closed) (h2 : s.conn.scb.state ≠ listen)
    (h3 : s.conn.scb.state ≠ synSent) (m : Mbuf) (len : UInt16) (raddr : UInt32) :
    ∃ c' op, CoreOutcome (s.conn.newMbuf m) s.conn.brk len c' op ∧
      s.seg m len raddr = { s with conn := c', freed := op == .closeScb } := by
  refine ⟨_, _, tcpRecvCore_outcome (s.conn.newMbuf m) s.conn.brk len, ?_⟩
  have h := tcpRecvSwitch_core (c := s.conn.newMbuf m) h1 h2 h3 s.conn.brk len raddr m.tcphdr.sport
  simp only [Sess.seg, h]

/-- One step; `none` is a call on a freed block. -/
def Sess.step (s : Sess) : Ev → Option Sess
  | .seg m len raddr => if s.freed then some s else some (s.seg m len raddr)
  | .recv nonblockable n =>
    if s.freed then some s
    else
      let r := sockrecvIter s.conn nonblockable n 0
      some { s with conn := r.1, copied := s.copied ++ r.2.1 }
  | .send m flg =>
    if s.freed then none
    else (tcpSend (s.conn.newMbuf m) s.conn.brk flg).map fun r =>
      { s with conn := r.1, written := if r.2 = (0 : Int) then s.written ++ [m.data] else s.written }
  | .close =>
    if s.freed then none
    else some { s with conn := (tcpClose s.conn).1, freed := (tcpClose s.conn).2 == 0 }

def Sess.Step (s : Sess) (e : Ev) (s' : Sess) : Prop := s.step e = some s'

theorem Sess.step_live {s s' : Sess} (hf : s.freed = false) {e : Ev} (hs : s.step e = some s') : match e with
    | .seg m len raddr => s.seg m len raddr = s'
    | .recv nb n =>
      let r := sockrecvIter s.conn nb n 0
      { s with conn := r.1, copied := s.copied ++ r.2.1 } = s'
    | .send m flg => ∃ r, tcpSend (s.conn.newMbuf m) s.conn.brk flg = some r ∧
      { s with conn := r.1, written := if r.2 = (0 : Int) then s.written ++ [m.data] else s.written } = s'
    | .close => { s with conn := (tcpClose s.conn).1, freed := (tcpClose s.conn).2 == 0 } = s' := by
  cases e <;> simpa [Sess.step, hf] using hs

/-! ## The queues -/

structure Conn.QInv (c : Conn) (lr lt : List Nat) : Prop where
  rx : c.scb.rxq.Holds c.mbufs lr
  tx : c.scb.txq.Holds c.mbufs lt
  disj : ∀ x ∈ lr, x ∉ lt
  lt_brk : ∀ x, x ∈ lr ∨ x ∈ lt → x < c.brk
  brk_pos : 0 < c.brk

section
variable {c c' : Conn} {lr lt : List Nat}

section
variable (h : c.QInv lr lt)
include h

theorem Conn.QInv.of_eq (hr : c'.scb.rxq = c.scb.rxq)
    (ht : c'.scb.txq = c.scb.txq) (hm : c'.mbufs = c.mbufs) (hb : c'.brk = c.brk) : c'.QInv lr lt :=
  ⟨by rw [hr, hm]; exact h.rx, by rw [ht, hm]; exact h.tx, h.disj,
    by rw [hb]; exact h.lt_brk, by rw [hb]; exact h.brk_pos⟩

theorem Conn.QInv.becomes {scb : SockCb} (hc : c.Becomes scb c')
    (hr : scb.rxq = c.scb.rxq) (ht : scb.txq = c.scb.txq) : c'.QInv lr lt :=
  h.of_eq (by rw [hc.scb, hr]) (by rw [hc.scb, ht]) hc.mbufs hc.brk

theorem Conn.QInv.brk_notMem : c.brk ∉ lr ∧ c.brk ∉ lt :=
  ⟨fun hx => Nat.lt_irrefl _ (h.lt_brk _ (Or.inl hx)), fun hx => Nat.lt_irrefl _ (h.lt_brk _ (Or.inr hx))⟩

theorem Conn.QInv.update {p : Nat} (hp : p ∉ lr ∧ p ∉ lt) (m : Mbuf)
    (hm : c'.mbufs = Function.update c.mbufs p m) (hr : c'.scb.rxq = c.scb.rxq)
    (ht : c'.scb.txq = c.scb.txq) (hb : c.brk ≤ c'.brk) : c'.QInv lr lt := by
  have hne : ∀ x, x ∈ lr ∨ x ∈ lt → x ≠ p := by
    rintro x (hx | hx) rfl
    · exact hp.1 hx
    · exact hp.2 hx
  refine ⟨?_, ?_, h.disj, fun x hx => lt_of_lt_of_le (h.lt_brk x hx) hb, ?_⟩
  · rw [hr, hm]
    exact h.rx.congr fun x hx => by rw [Function.update_of_ne (hne x (.inl hx))]
  · rw [ht, hm]
    exact h.tx.congr fun x hx => by rw [Function.update_of_ne (hne x (.inr hx))]
  · have := h.brk_pos
    omega

theorem Conn.QInv.newMbuf (m : Mbuf) : (c.newMbuf m).QInv lr lt :=
  h.update h.brk_notMem m rfl rfl rfl (Nat.le_succ _)

theorem Conn.QInv.bytesOf_newMbuf (m : Mbuf) : bytesOf (c.newMbuf m).mbufs lr = bytesOf c.mbufs lr :=
  bytesOf_congr fun p hp => by
    have hne : p ≠ c.brk := by
      rintro rfl
      exact h.brk_notMem.1 hp
    simp [Conn.newMbuf, hne]

theorem Conn.QInv.pushRx {m : Nat} (hm0 : m ≠ 0) (hmb : m < c.brk) (hm : m ∉ lr ∧ m ∉ lt)
    (hmb' : c'.mbufs = (mbufqPushtail c.mbufs c.scb.rxq m).1)
    (hr : c'.scb.rxq = (mbufqPushtail c.mbufs c.scb.rxq m).2)
    (ht : c'.scb.txq = c.scb.txq) (hb : c'.brk = c.brk) : c'.QInv (lr ++ [m]) lt := by
  refine ⟨?_, ?_, ?_, ?_, by rw [hb]; exact h.brk_pos⟩
  · rw [hr, hmb']
    exact mbufqPushtail_holds h.rx hm0 hm.1
  · rw [ht, hmb']
    exact mbufqPushtail_other h.rx h.tx h.disj hm.2
  · intro x hx
    rcases mem_append.mp hx with hx | hx
    · exact h.disj x hx
    · rw [List.mem_singleton.mp hx]; exact hm.2
  · rw [hb]
    rintro x (hx | hx)
    · rcases mem_append.mp hx with hx | hx
      · exact h.lt_brk x (.inl hx)
      · rw [List.mem_singleton.mp hx]; exact hmb
    · exact h.lt_brk x (.inr hx)

theorem Conn.QInv.pushTx {m : Nat} (hm0 : m ≠ 0) (hmb : m < c.brk) (hm : m ∉ lr ∧ m ∉ lt)
    (hmb' : c'.mbufs = (mbufqPushtail c.mbufs c.scb.txq m).1)
    (ht : c'.scb.txq = (mbufqPushtail c.mbufs c.scb.txq m).2)
    (hr : c'.scb.rxq = c.scb.rxq) (hb : c'.brk = c.brk) : c'.QInv lr (lt ++ [m]) := by
  refine ⟨?_, ?_, ?_, ?_, by rw [hb]; exact h.brk_pos⟩
  · rw [hr, hmb']
    exact mbufqPushtail_other h.tx h.rx (fun x hx hx' => h.disj x hx' hx) hm.1
  · rw [ht, hmb']
    exact mbufqPushtail_holds h.tx hm0 hm.2
  · intro x hx hx'
    rcases mem_append.mp hx' with hx' | hx'
    · exact h.disj x hx hx'
    · rw [List.mem_singleton.mp hx'] at hx; exact hm.1 hx
  · rw [hb]
    rintro x (hx | hx)
    · exact h.lt_brk x (.inl hx)
    · rcases mem_append.mp hx with hx | hx
      · exact h.lt_brk x (.inr hx)
      · rw [List.mem_singleton.mp hx]; exact hmb

/-- An mbuf outside both queues is overwritten and pushed on `rxq`: its new bytes come last. -/
theorem Conn.QInv.overwriteRx {m : Nat} (hm0 : m ≠ 0) (hmb : m < c.brk) (hm : m ∉ lr ∧ m ∉ lt) (mb : Mbuf)
    (hmb' : c'.mbufs = (mbufqPushtail (Function.update c.mbufs m mb) c.scb.rxq m).1)
    (hr : c'.scb.rxq = (mbufqPushtail (Function.update c.mbufs m mb) c.scb.rxq m).2)
    (ht : c'.scb.txq = c.scb.txq) (hb : c'.brk = c.brk) :
    c'.QInv (lr ++ [m]) lt ∧ bytesOf c'.mbufs (lr ++ [m]) = bytesOf c.mbufs lr ++ mb.data := by
  have hw : Conn.QInv { c with mbufs := Function.update c.mbufs m mb } lr lt :=
    h.update hm mb rfl rfl rfl (le_rfl)
  refine ⟨hw.pushRx hm0 hmb hm hmb' hr ht hb, ?_⟩
  -- the queue links change, the bytes do not
  have hlr : bytesOf c'.mbufs lr = bytesOf c.mbufs lr :=
    bytesOf_congr fun p hp => by
      have hne : p ≠ m := by
        rintro rfl
        exact hm.1 hp
      simp [hmb', hne]
  rw [bytesOf_append, hlr, hmb']
  simp

end

end

/-- **A pass of a reader.**  What it copies is what it takes from the front of `rxq`, and
`rcv.wnd` grows by as much. -/
theorem sockrecvIter_spec {c : Conn} {lr lt : List Nat} (h : c.QInv lr lt) (nb : Bool) (n res : Nat) :
    ∃ lr', (sockrecvIter c nb n res).1.QInv lr' lt ∧
      (sockrecvIter c nb n res).2.1 ++ bytesOf (sockrecvIter c nb n res).1.mbufs lr' = bytesOf c.mbufs lr ∧
      (sockrecvIter c nb n res).1.scb = { c.scb with
        rxq := (sockrecvIter c nb n res).1.scb.rxq
        rcv := { c.scb.rcv with
          wnd := c.scb.rcv.wnd + UInt32.ofNat (sockrecvIter c nb n res).2.1.length } } ∧
      (sockrecvIter c nb n res).1.pushed = c.pushed := by
  unfold sockrecvIter
  split
  · exact ⟨lr, h, rfl, by simp, rfl⟩
  · unfold popFromScbRxq
    cases lr with
    | nil =>
      have hpop := mbufqPophead_nil h.rx
      rw [hpop]
      simp only [if_true]
      split
      · exact ⟨[], h, rfl, by simp, rfl⟩
      · exact ⟨[], h, rfl, by simp, rfl⟩
    | cons m l =>
      obtain ⟨hpm, hph⟩ := mbufqPophead_holds h.rx
      have hm0 : m ≠ 0 := h.rx.chain.2.1
      have hml : m ∉ l := (nodup_cons.mp h.rx.nodup).1
      have hmt : m ∉ lt := h.disj m mem_cons_self
      rw [hpm, if_neg hm0, sockrecvCopy]
      by_cases hn : n > (c.mbufs m).len
      · -- the whole mbuf is taken and not put back
        have hq : ∀ wnd, Conn.QInv { c with scb := { c.scb with
            rxq := (mbufqPophead c.mbufs c.scb.rxq).2, rcv := { c.scb.rcv with wnd := wnd } } } l lt :=
          fun wnd => ⟨hph, h.tx, fun x hx => h.disj x (mem_cons_of_mem m hx),
            fun x hx => h.lt_brk x (hx.imp_left (mem_cons_of_mem m)), h.brk_pos⟩
        simp only [if_pos hn]
        split
        · exact ⟨l, hq _, by simp, by simp, rfl⟩
        · exact ⟨l, hq _, by simp, by simp, rfl⟩
      · -- the front of the mbuf is taken, the rest goes back to the head of the queue
        simp only [if_neg hn]
        have hpull : (mbufpull (c.mbufs m) n).2.data = (c.mbufs m).data.drop n :=
          mbufpull_data _ _ (by omega)
        refine ⟨m :: l, ⟨?_, ?_, h.disj, h.lt_brk, h.brk_pos⟩, ?_, ?_, trivial⟩
        · refine mbufqPushhead_holds h.rx fun p hp => ?_
          have hpm' : p ≠ m := fun e => hml (e ▸ hp)
          rw [Function.update_of_ne hpm']
        · refine h.tx.congr fun p hp => ?_
          have hpm' : p ≠ m := fun e => hmt (e ▸ hp)
          simp [mbufqPushhead, setNext_next, hpm']
        · have hl : bytesOf (mbufqPushhead (Function.update c.mbufs m (mbufpull (c.mbufs m) n).2)
              (mbufqPophead c.mbufs c.scb.rxq).2 m).1 l = bytesOf c.mbufs l :=
            bytesOf_congr fun p hp => by
              have hpm' : p ≠ m := fun e => hml (e ▸ hp)
              simp [mbufqPushhead, hpm']
          rw [bytesOf_cons, bytesOf_cons, hl]
          simp only [mbufqPushhead, setNext_data, Function.update_self, hpull]
          rw [← append_assoc, take_append_drop]
        · simp only [length_take, Mbuf.length_data]
          rw [Nat.min_eq_left (by omega)]

/-- A reader touches neither the state nor `snd`, and sends nothing. -/
theorem sockrecvIter_frame (c : Conn) (nb : Bool) (n res : Nat) :
    (sockrecvIter c nb n res).1.scb.state = c.scb.state ∧ (sockrecvIter c nb n res).1.scb.snd = c.scb.snd ∧
      (sockrecvIter c nb n res).1.out = c.out := by
  unfold sockrecvIter sockrecvCopy
  dsimp only
  split
  · exact ⟨rfl, rfl, rfl⟩
  · split
    · split <;> exact ⟨rfl, rfl, rfl⟩
    · split
      · split <;> exact ⟨rfl, rfl, rfl⟩
      · exact ⟨rfl, rfl, rfl⟩

/-! ## The writer -/

/-- The segment the loop of `tcp_send` makes of a queued mbuf. -/
def flushSeg (c : Conn) (m : Nat) : TcpSeg :=
  let p := (c.mbufs m).params
  { raddr := c.scb.raddr, sport := c.scb.sport, dport := c.scb.dport, seq := p.sndnxt
    ack := if tcpFlgIsset p.flg tcpFlgAck then c.scb.rcv.nxtSeq else 0
    wnd := c.scb.rcv.wnd.toUInt16, flg := p.flg, payloadLen := p.datalen, data := (c.mbufs m).data }

/-- `snd.nxt_seq` after the mbufs `l` were sent. -/
def flushNxt (c : Conn) (l : List Nat) : UInt32 :=
  l.foldl (fun a m => a + (c.mbufs m).params.datalen.toUInt32) c.scb.snd.nxtSeq

/-- **The send loop ends**, with `txq` empty and one segment for each queued mbuf. -/
theorem tcpFlush_spec (l : List Nat) : ∀ (c : Conn) (fuel : Nat), c.scb.txq.Holds c.mbufs l → l.length < fuel →
      ∃ q : Mbufq, q.Holds c.mbufs [] ∧ tcpFlush fuel c = some { c with
        scb := { c.scb with txq := q, snd := { c.scb.snd with nxtSeq := flushNxt c l } }
        out := c.out ++ l.map (flushSeg c) } := by
  induction l with
  | nil =>
    intro c fuel hq hf
    obtain ⟨fuel, rfl⟩ : ∃ k, fuel = k + 1 := ⟨fuel - 1, by simp at hf; omega⟩
    refine ⟨c.scb.txq, hq, ?_⟩
    simp [tcpFlush, popFromScbTxq, mbufqPophead_nil hq, flushNxt]
  | cons m l ih =>
    intro c fuel hq hf
    obtain ⟨fuel, rfl⟩ : ∃ k, fuel = k + 1 := ⟨fuel - 1, by simp at hf; omega⟩
    obtain ⟨hpm, hph⟩ := mbufqPophead_holds hq
    have hm0 : m ≠ 0 := hq.chain.2.1
    -- the state after the first segment: the same heap, so the same segments to come
    obtain ⟨q, hq', heq⟩ := ih
      { c with
        scb := { c.scb with
          txq := (mbufqPophead c.mbufs c.scb.txq).2
          snd := { c.scb.snd with
            nxtSeq := c.scb.snd.nxtSeq + (c.mbufs m).params.datalen.toUInt32 } }
        out := c.out ++ [flushSeg c m] } fuel hph (by simp at hf; omega)
    refine ⟨q, hq', ?_⟩
    have hseg : (flushSeg { c with
        scb := { c.scb with
          txq := (mbufqPophead c.mbufs c.scb.txq).2
          snd := { c.scb.snd with
            nxtSeq := c.scb.snd.nxtSeq + (c.mbufs m).params.datalen.toUInt32 } }
        out := c.out ++ [flushSeg c m] }) = flushSeg c := rfl
    rw [hseg] at heq
    simp only [tcpFlush, popFromScbTxq, hpm, if_neg hm0]
    refine Eq.trans heq ?_
    simp [flushNxt]

theorem Conn.QInv.length_tx {c : Conn} {lr lt : List Nat} (h : c.QInv lr lt) : lt.length < c.brk + 1 := by
  have hsub : lt ⊆ List.range c.brk := fun x hx => mem_range.mpr (h.lt_brk x (.inr hx))
  have := (List.Nodup.subperm h.tx.nodup hsub).length_le
  rw [length_range] at this
  omega

section
variable {c : Conn} {lr lt : List Nat} {m : Nat}

theorem Conn.QInv.pushToScbTxq (h : c.QInv lr lt) (hm0 : m ≠ 0) (hmb : m < c.brk)
    (hm : m ∉ lr ∧ m ∉ lt) (sndnxt : UInt32) (flg : UInt8) (datalen : UInt16) :
    Conn.QInv { c with
      mbufs := (Net.pushToScbTxq c.mbufs c.scb m sndnxt flg datalen).1
      scb := (Net.pushToScbTxq c.mbufs c.scb m sndnxt flg datalen).2 } lr (lt ++ [m]) ∧
    (∀ x ∈ lr, ((Net.pushToScbTxq c.mbufs c.scb m sndnxt flg datalen).1 x).data = (c.mbufs x).data) := by
  let mb : Mbuf := { c.mbufs m with params := ⟨sndnxt, flg, datalen⟩ }
  have hp : Conn.QInv { c with mbufs := Function.update c.mbufs m mb } lr lt :=
    h.update hm mb rfl rfl rfl (le_rfl)
  refine ⟨hp.pushTx hm0 hmb hm rfl rfl rfl rfl, fun x hx => ?_⟩
  have hxm : x ≠ m := fun e => hm.1 (e ▸ hx)
  simp [Net.pushToScbTxq, hxm]

/-- **`tcp_send` returns**, and does not touch the receive side. -/
theorem tcpSend_spec (h : c.QInv lr lt) (hm0 : m ≠ 0) (hmb : m < c.brk) (hm : m ∉ lr ∧ m ∉ lt) (flg : UInt8) :
    ∃ c' r lt', tcpSend c m flg = some (c', r) ∧ c'.QInv lr lt' ∧
      bytesOf c'.mbufs lr = bytesOf c.mbufs lr ∧ c'.scb.rcv = c.scb.rcv ∧
      c'.pushed = c.pushed ∧ (c.scb.state ≠ listen → c'.scb.state = c.scb.state) := by
  obtain ⟨hq, hd⟩ := h.pushToScbTxq hm0 hmb hm c.scb.snd.nxtSeq flg (UInt16.ofNat (c.mbufs m).len)
  unfold tcpSend
  rw [if_neg hm0]
  dsimp only
  split
  · next hs =>
    split
    · exact ⟨_, _, lt, rfl, h.of_eq rfl rfl rfl rfl, rfl, rfl, rfl, fun hl => absurd hs hl⟩
    · exact ⟨_, _, lt, rfl, h, rfl, rfl, rfl, fun _ => rfl⟩
  · exact ⟨_, _, lt ++ [m], rfl, hq, bytesOf_congr hd, rfl, rfl, fun _ => rfl⟩
  · exact ⟨_, _, lt ++ [m], rfl, hq, bytesOf_congr hd, rfl, rfl, fun _ => rfl⟩
  · obtain ⟨q, hq0, heq⟩ := tcpFlush_spec (lt ++ [m]) _ (c.brk + 1) hq.tx hq.length_tx
    rw [heq]
    refine ⟨_, _, [], rfl, ⟨hq.rx, hq0, fun x _ => not_mem_nil, fun x hx => ?_, hq.brk_pos⟩,
      bytesOf_congr hd, rfl, rfl, fun _ => rfl⟩
    exact hq.lt_brk x (hx.imp_right fun hx => absurd hx not_mem_nil)
  · exact ⟨_, _, lt, rfl, h, rfl, rfl, rfl, fun _ => rfl⟩

end

/-- The FIN `tcp_close` sends in `c`. -/
def finSeg (c : Conn) : TcpSeg :=
  { raddr := c.scb.raddr, sport := c.scb.sport, dport := c.scb.dport, seq := c.scb.snd.nxtSeq
    ack := c.scb.rcv.nxtSeq, wnd := c.scb.rcv.wnd.toUInt16, flg := tcpFlgFin ||| tcpFlgAck
    payloadLen := 0, data := [] }

/-- The block after that FIN, in state `st`. -/
def finScb (c : Conn) (st : SockCbState) : SockCb :=
  { c.scb with state := st, snd := { c.scb.snd with nxtSeq := c.scb.snd.nxtSeq + 1 } }

/-- Every way through `tcp_close`: nothing is left to do, a FIN is sent, or (in SYN_RCVD with
nothing queued) it is queued. -/
inductive CloseOutcome (c : Conn) : Conn → Int → Prop
  | done : CloseOutcome c c 0
  | fin (st : SockCbState) (hst : (c.scb.state = synRcvd ∨ c.scb.state = estab) ∧ st = finWait1 ∨
      c.scb.state = closeWait ∧ st = lastAck) :
      CloseOutcome c { c with scb := finScb c st, out := c.out ++ [finSeg c] } (-1)
  | queued (hst : c.scb.state = synRcvd) :
      CloseOutcome c { c.newMbuf emptyMbuf with
        mbufs := (pushToScbTxq (c.newMbuf emptyMbuf).mbufs c.scb c.brk c.scb.snd.nxtSeq
          (tcpFlgFin ||| tcpFlgAck) 0).1
        scb := (pushToScbTxq (c.newMbuf emptyMbuf).mbufs c.scb c.brk c.scb.snd.nxtSeq
          (tcpFlgFin ||| tcpFlgAck) 0).2 } (-1)

theorem tcpClose_outcome (c : Conn) : ∃ c' v, tcpClose c = (c', v) ∧ CloseOutcome c c' v := by
  unfold tcpClose
  split
  · next h =>
    split
    · exact ⟨_, _, rfl, .fin finWait1 (.inl ⟨.inl h, rfl⟩)⟩
    · exact ⟨_, _, rfl, .queued h⟩
  · next h => exact ⟨_, _, rfl, .fin finWait1 (.inl ⟨.inr h, rfl⟩)⟩
  · next h => exact ⟨_, _, rfl, .fin lastAck (.inr ⟨h, rfl⟩)⟩
  · exact ⟨_, _, rfl, .done⟩

theorem tcpClose_spec {c : Conn} {lr lt : List Nat} (h : c.QInv lr lt) :
    ∃ lt', (tcpClose c).1.QInv lr lt' ∧ bytesOf (tcpClose c).1.mbufs lr = bytesOf c.mbufs lr ∧
      (tcpClose c).1.scb.rcv = c.scb.rcv ∧ (tcpClose c).1.pushed = c.pushed := by
  obtain ⟨c', v, hclose, hout⟩ := tcpClose_outcome c
  rw [hclose]
  cases hout with
  | done => exact ⟨lt, h, rfl, rfl, rfl⟩
  | fin st hst => exact ⟨lt, h.of_eq rfl rfl rfl rfl, rfl, rfl, rfl⟩
  | queued hst =>
    have hq := (h.newMbuf emptyMbuf).pushToScbTxq (m := c.brk) (ne_of_gt h.brk_pos)
      (Nat.lt_succ_self _) h.brk_notMem c.scb.snd.nxtSeq (tcpFlgFin ||| tcpFlgAck) 0
    exact ⟨lt ++ [c.brk], hq.1, (bytesOf_congr hq.2).trans (h.bytesOf_newMbuf _), rfl, rfl⟩

/-! ## Steps keep the queues -/

/-- `lr` and `lt` are the mbufs of the two queues, and readers got what is not still queued. -/
structure Sess.Read (s : Sess) (lr lt : List Nat) : Prop where
  queues : s.conn.QInv lr lt
  read : s.copied ++ bytesOf s.conn.mbufs lr = s.conn.pushed

section
variable {s s' : Sess} {lr lt : List Nat}

theorem Sess.Read.becomes (h : s.Read lr lt) {m : Mbuf} {scb : SockCb} {c' : Conn}
    (hc : (s.conn.newMbuf m).Becomes scb c') (hrxq : scb.rxq = s.conn.scb.rxq)
    (htxq : scb.txq = s.conn.scb.txq) (b : Bool) : Sess.Read { s with conn := c', freed := b } lr lt := by
  refine ⟨(h.queues.newMbuf m).becomes hc hrxq htxq, ?_⟩
  show s.copied ++ bytesOf c'.mbufs lr = c'.pushed
  rw [hc.mbufs, hc.pushed, h.queues.bytesOf_newMbuf]
  exact h.read

/-- **A segment in any state** leaves `txq`, and adds at most its text to `rxq`. -/
theorem Sess.Read.seg (h : s.Read lr lt) (m : Mbuf) (len : UInt16) (raddr : UInt32) :
    ∃ lr', (s.seg m len raddr).Read lr' lt := by
  obtain ⟨⟨_, _, _, _, _, _, hscb, -⟩, hbrk, hq⟩ :=
    tcpRecvSwitch_frame (s.conn.newMbuf m) s.conn.brk len raddr m.tcphdr.sport
  unfold Sess.seg
  generalize tcpRecvSwitch (s.conn.newMbuf m) s.conn.brk len raddr m.tcphdr.sport = r at hscb hbrk hq ⊢
  have htxq : r.1.scb.txq = s.conn.scb.txq := by rw [hscb]; rfl
  rcases hq with ⟨hr, hm, hp⟩ | ⟨-, mb, hm, hr, hp⟩
  · refine ⟨lr, (h.queues.newMbuf m).of_eq hr htxq hm hbrk, ?_⟩
    show s.copied ++ bytesOf r.1.mbufs lr = r.1.pushed
    rw [hm, hp, h.queues.bytesOf_newMbuf]
    exact h.read
  · obtain ⟨hq, hbytes⟩ := (h.queues.newMbuf m).overwriteRx (ne_of_gt h.queues.brk_pos)
      (Nat.lt_succ_self _) h.queues.brk_notMem _ hm hr htxq hbrk
    refine ⟨_, hq, ?_⟩
    show s.copied ++ bytesOf r.1.mbufs (lr ++ [s.conn.brk]) = r.1.pushed
    rw [hbytes, hp, h.queues.bytesOf_newMbuf, ← append_assoc, h.read]
    rfl

theorem Sess.Read.recv (h : s.Read lr lt) (nb : Bool) (n : Nat) (hs : s.step (.recv nb n) = some s')
    (hf : s.freed = false) : ∃ lr' x, s'.Read lr' lt ∧ s'.copied = s.copied ++ x ∧ s'.conn.pushed = s.conn.pushed ∧
      s'.conn.scb.state = s.conn.scb.state ∧ s'.freed = false ∧
      s'.conn.scb.rcv = { s.conn.scb.rcv with
        wnd := s.conn.scb.rcv.wnd + UInt32.ofNat x.length } := by
  obtain ⟨lr', hq, hb, hscb, hp⟩ := sockrecvIter_spec h.queues nb n 0
  cases Sess.step_live hf hs
  refine ⟨lr', _, ⟨hq, ?_⟩, rfl, hp, by dsimp only; rw [hscb], hf, by dsimp only; rw [hscb]⟩
  rw [append_assoc, hb, hp]
  exact h.read

theorem Sess.Read.send (h : s.Read lr lt) (m : Mbuf) (flg : UInt8) (hf : s.freed = false) :
    ∃ s' lt', s.step (.send m flg) = some s' ∧ s'.Read lr lt' ∧ s'.copied = s.copied ∧
      s'.conn.pushed = s.conn.pushed ∧ s'.freed = false ∧ s'.conn.scb.rcv = s.conn.scb.rcv ∧
      bytesOf s'.conn.mbufs lr = bytesOf s.conn.mbufs lr ∧
      (s.conn.scb.state ≠ listen → s'.conn.scb.state = s.conn.scb.state) := by
  obtain ⟨c', r, lt', heq, hq, hb, hrcv, hp, hst⟩ :=
    tcpSend_spec (h.queues.newMbuf m) (ne_of_gt h.queues.brk_pos) (Nat.lt_succ_self _)
      h.queues.brk_notMem flg
  rw [h.queues.bytesOf_newMbuf] at hb
  refine ⟨{ s with conn := c', written := if r = 0 then s.written ++ [m.data] else s.written }, lt', ?_,
    ⟨hq, ?_⟩, rfl, hp, hf, hrcv, hb, hst⟩
  · simp [Sess.step, hf, heq]
  · show s.copied ++ bytesOf c'.mbufs lr = c'.pushed
    rw [hb, hp]
    exact h.read

theorem Sess.Read.close (h : s.Read lr lt) (hs : s.step .close = some s') (hf : s.freed = false) :
    ∃ lt', s'.Read lr lt' ∧ s'.conn.pushed = s.conn.pushed ∧ s'.conn.scb.rcv = s.conn.scb.rcv ∧
      bytesOf s'.conn.mbufs lr = bytesOf s.conn.mbufs lr ∧
      s'.conn.scb.state = (tcpClose s.conn).1.scb.state := by
  obtain ⟨lt', hq, hb, hrcv, hp⟩ := tcpClose_spec h.queues
  cases Sess.step_live hf hs
  refine ⟨lt', ⟨hq, ?_⟩, hp, hrcv, hb, rfl⟩
  rw [hb, hp]
  exact h.read

theorem Sess.step_freed {e : Ev} (hf : s.freed = true) (hs : s.step e = some s') : s' = s := by
  cases e with
  | seg _ _ _ | recv _ _ => simp only [Sess.step, hf, if_true, Option.some.injEq] at hs; exact hs.symm
  | send _ _ | close => simp [Sess.step, hf] at hs

/-- **No step breaks the queues.** -/
theorem Sess.Read.step (h : s.Read lr lt) {e : Ev} (hs : s.step e = some s') : ∃ lr' lt', s'.Read lr' lt' := by
  cases hf : s.freed with
  | true =>
    rw [Sess.step_freed hf hs]
    exact ⟨lr, lt, h⟩
  | false =>
    cases e with
    | seg m len raddr =>
      cases Sess.step_live hf hs
      obtain ⟨lr', hr⟩ := h.seg m len raddr
      exact ⟨lr', lt, hr⟩
    | recv nb n =>
      obtain ⟨lr', x, hr, -⟩ := h.recv nb n hs hf
      exact ⟨lr', lt, hr⟩
    | send m flg =>
      obtain ⟨s1, lt', heq, hr, -⟩ := h.send m flg hf
      obtain rfl : s1 = s' := Option.some.inj (heq.symm.trans hs)
      exact ⟨lr, lt', hr⟩
    | close =>
      obtain ⟨lt', hr, -⟩ := h.close hs hf
      exact ⟨lr, lt', hr⟩

end

/-- An established connection with nothing queued. -/
def openConn : Conn :=
  { scb := { allocSockCb 1 9 20000 80 .tcp with state := estab }
    mbufs := fun _ => emptyMbuf, brk := 1, out := [], pushed := [] }

end InternetOs.Net
