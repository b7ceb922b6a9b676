import InternetOs.Net.Conn

/-!
# Blocking reads of a TCP socket (`sockrecv`)

A read that takes exactly the bytes left of a segment puts the segment back empty, flags and all.  If it
has PSH, the next read stops at it and returns 0, which callers take for the end of the stream:

    no read ends exactly at the end of a segment with PSH → every read returns between 1 and n
                                                                             (tcpReads)
-/

namespace InternetOs.Net

open SockCbState Function List

def Mbuf.psh (m : Mbuf) : Bool := tcpFlgIsset m.tcphdr.flg tcpFlgPsh

/-- A read under way: it asked for `asked` bytes, of which `n` are still wanted. -/
structure ReadCall where
  asked : Nat
  n : Nat
  res : Nat

/-- A connection and the read under way on it.  `returned` are the reads so far, each with what it asked for. -/
structure TcpReader where
  conn : Conn
  call : Option ReadCall
  returned : List (Nat × Int)

inductive TcpReadEv
  /-- `tcp_recv` has taken the text of a segment. -/
  | arrive (m : Mbuf)
  | call (n : Nat)
  | pass

namespace TcpReader

/-- A pass of the loop of `sockrecv`. -/
def pass (s : TcpReader) (k : ReadCall) : TcpReader :=
  let x := sockrecvIter s.conn false k.n k.res
  match x.2.2 with
  | .ret v => { conn := x.1, call := none, returned := s.returned ++ [(k.asked, v)] }
  | .again n res => { s with conn := x.1, call := some { k with n := n, res := res } }

/-- One step; `none` is an empty segment, a read of nothing, a second read, or a pass of no read. -/
def step (s : TcpReader) : TcpReadEv → Option TcpReader
  | .arrive m =>
    if m.len = 0 then none
    else
      let c := s.conn.newMbuf m
      let push := pushToScbRxq c.mbufs c.scb s.conn.brk
      some { s with conn := { c with mbufs := push.1, scb := push.2 } }
  | .call n => if n = 0 ∨ s.call.isSome then none else some { s with call := some ⟨n, n, 0⟩ }
  | .pass => s.call.map s.pass

def Step (s : TcpReader) (e : TcpReadEv) (s' : TcpReader) : Prop := s.step e = some s'

/-- A read does not end exactly at the end of a segment with PSH. -/
def NoExact (s : TcpReader) : TcpReadEv → Prop
  | .pass => ∀ k, s.call = some k → s.conn.scb.rxq.head ≠ 0 → (s.conn.mbufs s.conn.scb.rxq.head).psh = true →
      k.n ≠ (s.conn.mbufs s.conn.scb.rxq.head).len
  | _ => True

/-- An established connection on which nothing was received or read. -/
structure Start (s : TcpReader) : Prop where
  state : s.conn.scb.state = estab
  queue : s.conn.scb.rxq.head = 0
  brk : 0 < s.conn.brk
  call : s.call = none
  returned : s.returned = []

/-- `rxq` holds the mbufs `l`, and none of them is empty with PSH. -/
structure Inv (s : TcpReader) (l : List Nat) : Prop where
  state : s.conn.scb.state = estab
  queue : s.conn.scb.rxq.Holds s.conn.mbufs l
  lt_brk : ∀ x ∈ l, x < s.conn.brk
  brk : 0 < s.conn.brk
  full : ∀ x ∈ l, (s.conn.mbufs x).psh = true → 0 < (s.conn.mbufs x).len
  call : ∀ k, s.call = some k → 0 < k.n ∧ k.n + k.res = k.asked
  returned : ∀ r ∈ s.returned, 1 ≤ r.2 ∧ r.2 ≤ r.1

section
variable {s s' : TcpReader} {l : List Nat}

theorem Start.inv (h : s.Start) : s.Inv [] where
  state := h.state
  queue := by
    unfold Mbufq.Holds
    rw [h.queue]
    exact Queue.nil _
  lt_brk := by simp
  brk := h.brk
  full := by simp
  call := by simp [h.call]
  returned := by simp [h.returned]

theorem Inv.arrive (h : s.Inv l) {m : Mbuf} (hs : s.step (.arrive m) = some s') : s'.Inv (l ++ [s.conn.brk]) := by
  have hnew : s.conn.brk ∉ l := fun hm => lt_irrefl _ (h.lt_brk _ hm)
  simp only [step] at hs
  split at hs
  · cases hs
  next hlen =>
  cases hs
  refine ⟨h.state, mbufqPushtail_new h.queue (ne_of_gt h.brk) hnew m, fun x hx => ?_, Nat.succ_pos _,
    fun x hx => ?_, h.call, h.returned⟩
  · show x < s.conn.brk + 1
    rcases mem_append.mp hx with hx | hx
    · exact Nat.lt_succ_of_lt (h.lt_brk x hx)
    · rw [List.mem_singleton.mp hx]
      exact Nat.lt_succ_self _
  · obtain ⟨v, hv⟩ := mbufqPushtail_eq (update s.conn.mbufs s.conn.brk m) s.conn.scb.rxq s.conn.brk x
    show ((mbufqPushtail (update s.conn.mbufs s.conn.brk m) s.conn.scb.rxq s.conn.brk).1 x).psh = true →
      0 < ((mbufqPushtail (update s.conn.mbufs s.conn.brk m) s.conn.scb.rxq s.conn.brk).1 x).len
    rw [hv]
    rcases mem_append.mp hx with hx | hx
    · have hne : x ≠ s.conn.brk := fun e => hnew (e ▸ hx)
      rw [update_of_ne hne]
      exact h.full x hx
    · rw [List.mem_singleton.mp hx, update_self]
      exact fun _ => pos_of_ne_zero hlen

/-- A pass that does not end exactly at the end of a segment with PSH. -/
theorem Inv.pass (h : s.Inv l) {k : ReadCall} (hk : s.call = some k) (hn : s.NoExact .pass) :
    ∃ l', (s.pass k).Inv l' := by
  obtain ⟨hpos, hasked⟩ := h.call k hk
  have hst : s.conn.scb.state ≠ closeWait := by
    rw [h.state]
    decide
  unfold TcpReader.pass sockrecvIter popFromScbRxq
  rw [if_neg hst]
  cases l with
  | nil =>
    rw [mbufqPophead_nil h.queue]
    refine ⟨[], h.state, h.queue, h.lt_brk, h.brk, h.full, ?_, h.returned⟩
    rintro _ ⟨⟩
    exact ⟨hpos, hasked⟩
  | cons m l =>
    obtain ⟨hpm, hph⟩ := mbufqPophead_holds h.queue
    have hm0 : m ≠ 0 := h.queue.chain.2.1
    have hhead : s.conn.scb.rxq.head = m := h.queue.chain.1
    have hml : m ∉ l := (nodup_cons.mp h.queue.nodup).1
    have hnm := hn k hk
    rw [hhead] at hnm
    rw [hpm, if_neg hm0, sockrecvCopy]
    by_cases hlen : k.n > (s.conn.mbufs m).len
    · -- the mbuf is taken whole
      have hlt : ∀ x ∈ l, x < s.conn.brk := fun x hx => h.lt_brk x (mem_cons_of_mem m hx)
      have hfull : ∀ x ∈ l, (s.conn.mbufs x).psh = true → 0 < (s.conn.mbufs x).len :=
        fun x hx => h.full x (mem_cons_of_mem m hx)
      simp only [if_pos hlen]
      by_cases hpsh : tcpFlgIsset (s.conn.mbufs m).tcphdr.flg tcpFlgPsh = true
      · rw [if_pos hpsh]
        refine ⟨l, h.state, hph, hlt, h.brk, hfull, by simp, ?_⟩
        have := h.full m mem_cons_self hpsh
        refine forall_mem_append.mpr ⟨h.returned, forall_mem_singleton.mpr ?_⟩
        omega
      · rw [if_neg hpsh]
        refine ⟨l, h.state, hph, hlt, h.brk, hfull, ?_, h.returned⟩
        rintro _ ⟨⟩
        dsimp only
        omega
    · -- the rest of the mbuf goes back
      simp only [if_neg hlen]
      refine ⟨m :: l, h.state, ?_, h.lt_brk, h.brk, ?_, by simp, ?_⟩
      · refine mbufqPushhead_holds h.queue fun x hx => ?_
        have hxm : x ≠ m := fun e => hml (e ▸ hx)
        rw [update_of_ne hxm]
      · refine forall_mem_cons.mpr ⟨fun hpsh => ?_, fun x hx => ?_⟩
        · have hpsh : (s.conn.mbufs m).psh = true := by
            simpa [mbufqPushhead, setNext, mbufpull, Mbuf.psh, not_lt.mpr (Nat.le_of_not_lt hlen)] using hpsh
          have := hnm hm0 hpsh
          simp [mbufqPushhead, setNext, mbufpull, not_lt.mpr (Nat.le_of_not_lt hlen)]
          omega
        · have hxm : x ≠ m := fun e => hml (e ▸ hx)
          have := h.full x (mem_cons_of_mem m hx)
          simpa [mbufqPushhead, setNext, hxm] using this
      · refine forall_mem_append.mpr ⟨h.returned, forall_mem_singleton.mpr ?_⟩
        omega

theorem Inv.step (h : s.Inv l) {e : TcpReadEv} (hs : guard NoExact Step s e s') : ∃ l', s'.Inv l' := by
  obtain ⟨hn, hs⟩ := hs
  cases e with
  | arrive m => exact ⟨_, h.arrive hs⟩
  | call n =>
    simp only [Step, TcpReader.step] at hs
    split at hs
    · cases hs
    next hc =>
    cases hs
    refine ⟨l, h.state, h.queue, h.lt_brk, h.brk, h.full, ?_, h.returned⟩
    rintro _ ⟨⟩
    exact ⟨pos_of_ne_zero fun e => hc (.inl e), rfl⟩
  | pass =>
    obtain ⟨k, hk, rfl⟩ := Option.map_eq_some_iff.mp hs
    exact h.pass hk hn

end

end TcpReader

/-- **Blocking reads.**  On an established connection, whatever non-empty segments arrive, with PSH or without, and
whatever reads were made: in every run in which no read ends exactly at the end of a segment with PSH, every read
that has returned has returned between 1 and the number of bytes it asked for. -/
theorem tcpReads {s₀ s : TcpReader} (h0 : s₀.Start) {evs : List TcpReadEv}
    (h : Run (guard TcpReader.NoExact TcpReader.Step) s₀ evs s) : ∀ r ∈ s.returned, 1 ≤ r.2 ∧ r.2 ≤ r.1 := by
  obtain ⟨l, hi⟩ := Run.inv (I := fun s => ∃ l, TcpReader.Inv s l)
    (fun _ _ _ hi hs => hi.elim fun _ hi => hi.step hs) h ⟨[], h0.inv⟩
  exact hi.returned

/-- Three bytes with PSH. -/
def pshText : Mbuf := { emptyMbuf with len := 3, tcphdr := { emptyMbuf.tcphdr with flg := tcpFlgPsh } }

def openReader : TcpReader := { conn := openConn, call := none, returned := [] }

/-- A read for more than there is. -/
theorem tcpReads_psh : ∃ s,
    Run (guard TcpReader.NoExact TcpReader.Step) openReader [.arrive pshText, .call 5, .pass] s ∧
    s.returned = [(5, 3)] ∧ ∀ r ∈ s.returned, 1 ≤ r.2 ∧ r.2 ≤ r.1 := by
  have hrun : Run (guard TcpReader.NoExact TcpReader.Step) openReader [.arrive pshText, .call 5, .pass] _ :=
    .cons ⟨trivial, rfl⟩ (.cons ⟨trivial, rfl⟩ (.cons ⟨?_, rfl⟩ (.nil _)))
  · exact ⟨_, hrun, rfl, tcpReads ⟨rfl, rfl, by decide, rfl, rfl⟩ hrun⟩
  · rintro k ⟨⟩
    decide

/-- Two reads for the three bytes: the second returns 0. -/
theorem tcpReads_zero : ∃ s, Run TcpReader.Step openReader [.arrive pshText, .call 3, .pass, .call 3, .pass] s ∧
    s.conn.scb.state = estab ∧ s.returned = [(3, 3), (3, 0)] :=
  ⟨_, .cons rfl (.cons rfl (.cons rfl (.cons rfl (.cons rfl (.nil _))))), rfl, rfl⟩

end InternetOs.Net
