import InternetOs.Net.Receive

/-!
# Reads of a UDP socket (`sockrecv`)

A read copies up to `n` bytes of the first datagram, but takes `n - 1` off it when it puts it back: the last
byte copied is there for the next read again.  A read for more than the datagram has takes it whole:

    each read asks for more than the first datagram has → what the reads return is the front of
      what arrived, and enough reads return all of it                            (udpReads)
-/

namespace InternetOs.Net

open List

/-- A UDP socket, with the bytes of the datagrams that arrived and those that reads returned. -/
structure UdpSess where
  stack : Stack
  arrived : List UInt8
  returned : List UInt8

inductive UdpEv
  /-- `udp_recv` has accepted a datagram for the block. -/
  | arrive (m : Mbuf)
  /-- `sockrecv` for `n` bytes; with no datagram it returns 0, or waits. -/
  | read (n : UInt32)

/-- `udp_recv` pushes the datagram on `rxq`. -/
def udpArrive (n : Stack) (p : Nat) (m : Mbuf) : Stack :=
  let c := (n.conn p).newMbuf m
  let push := pushToScbRxq c.mbufs c.scb n.brk
  n.putConn p { c with mbufs := push.1, scb := push.2 }

/-- What `udpRead` copies to the user. -/
def udpCopied (n : Stack) (p : Nat) (cnt : UInt32) : List UInt8 :=
  let pop := popFromScbRxq n.mbufs (n.scbs p)
  let m := n.mbufs pop.1
  if pop.1 = 0 then [] else m.data.take (if cnt.toNat > m.len then m.len else cnt.toNat)

namespace UdpSess

def step (p : Nat) (s : UdpSess) : UdpEv → UdpSess
  | .arrive m => { s with stack := udpArrive s.stack p m, arrived := s.arrived ++ m.data }
  | .read n => { s with stack := udpRead s.stack p n, returned := s.returned ++ udpCopied s.stack p n }

def Step (p : Nat) (s : UdpSess) (e : UdpEv) (s' : UdpSess) : Prop := s' = s.step p e

/-- A read asks for more than the first datagram of the queue has. -/
def Wide (p : Nat) (s : UdpSess) : UdpEv → Prop
  | .arrive _ => True
  | .read n => (s.stack.scbs p).rxq.head ≠ 0 → (s.stack.mbufs (s.stack.scbs p).rxq.head).len < n.toNat

/-- Nothing has arrived at the block yet. -/
structure Start (p : Nat) (s : UdpSess) : Prop where
  queue : (s.stack.scbs p).rxq.head = 0
  brk : 0 < s.stack.brk
  arrived : s.arrived = []
  returned : s.returned = []

/-- `rxq` holds the mbufs `l`, and their bytes are the ones that were not returned. -/
structure Inv (p : Nat) (s : UdpSess) (l : List Nat) : Prop where
  queue : (s.stack.scbs p).rxq.Holds s.stack.mbufs l
  lt_brk : ∀ x ∈ l, x < s.stack.brk
  brk : 0 < s.stack.brk
  bytes : s.returned ++ bytesOf s.stack.mbufs l = s.arrived

section
variable {p : Nat} {s s' : UdpSess} {l : List Nat}

theorem Start.inv (h : s.Start p) : s.Inv p [] where
  queue := by
    unfold Mbufq.Holds
    rw [h.queue]
    exact Queue.nil _
  lt_brk := by simp
  brk := h.brk
  bytes := by rw [h.arrived, h.returned, bytesOf_nil, append_nil]

theorem Inv.arrive (h : s.Inv p l) (m : Mbuf) : (s.step p (.arrive m)).Inv p (l ++ [s.stack.brk]) := by
  have hnew : s.stack.brk ∉ l := fun hm => lt_irrefl _ (h.lt_brk _ hm)
  have hne : ∀ x ∈ l, x ≠ s.stack.brk := fun x hx e => hnew (e ▸ hx)
  have hpush := mbufqPushtail_new h.queue (ne_of_gt h.brk) hnew m
  refine ⟨?_, ?_, Nat.succ_pos _, ?_⟩
  · simpa [step, udpArrive, Stack.putConn, Stack.setScb, pushToScbRxq, Conn.newMbuf, Stack.conn] using hpush
  · intro x hx
    show x < s.stack.brk + 1
    rcases mem_append.mp hx with hx | hx
    · exact Nat.lt_succ_of_lt (h.lt_brk x hx)
    · rw [List.mem_singleton.mp hx]
      exact Nat.lt_succ_self _
  · have hold : bytesOf (mbufqPushtail (Function.update s.stack.mbufs s.stack.brk m)
      (s.stack.scbs p).rxq s.stack.brk).1 l =
        bytesOf s.stack.mbufs l := bytesOf_congr fun x hx => by simp [hne x hx]
    show s.returned ++ bytesOf (mbufqPushtail (Function.update s.stack.mbufs s.stack.brk m) (s.stack.scbs p).rxq
      s.stack.brk).1 (l ++ [s.stack.brk]) = s.arrived ++ m.data
    rw [bytesOf_append, hold, ← append_assoc, h.bytes]
    simp

theorem Inv.read (h : s.Inv p l) {n : UInt32} (hw : s.Wide p (.read n)) : (s.step p (.read n)).Inv p l.tail := by
  cases l with
  | nil =>
    have hpop := mbufqPophead_nil h.queue
    have hstack : udpRead s.stack p n = s.stack := by
      simp [udpRead, popFromScbRxq, hpop, Stack.setScb]
    have hcopied : udpCopied s.stack p n = [] := by simp [udpCopied, popFromScbRxq, hpop]
    rw [step, hstack, hcopied, append_nil]
    exact h
  | cons m l =>
    obtain ⟨hpm, hph⟩ := mbufqPophead_holds h.queue
    have hm0 : m ≠ 0 := h.queue.chain.2.1
    have hhead : (s.stack.scbs p).rxq.head = m := h.queue.chain.1
    have hlen : (s.stack.mbufs m).len < n.toNat := by
      have := hw (by rw [hhead]; exact hm0)
      rwa [hhead] at this
    have hless : ¬ (s.stack.mbufs m).len > (n - 1).toNat := by
      have hone : (n - 1).toNat = n.toNat - 1 := by
        rw [UInt32.toNat_sub_of_le]
        · rfl
        · exact UInt32.le_iff_toNat_le.mpr (show 1 ≤ n.toNat by omega)
      omega
    have hstack : udpRead s.stack p n = s.stack.setScb p
        { s.stack.scbs p with rxq := (mbufqPophead s.stack.mbufs (s.stack.scbs p).rxq).2 } := by
      have hmem : ∀ scb, (s.stack.setScb p scb).mbufs = s.stack.mbufs := fun _ => rfl
      simp [udpRead, udpCopy, popFromScbRxq, hpm, hm0, hmem, hless]
    have hcopied : udpCopied s.stack p n = (s.stack.mbufs m).data := by
      rw [udpCopied]
      simp only [popFromScbRxq, hpm, if_neg hm0, if_pos hlen]
      rw [← Mbuf.length_data, take_length]
    refine ⟨?_, fun x hx => ?_, ?_, ?_⟩
    · rw [step, hstack]
      simpa [Stack.setScb] using hph
    · rw [step, hstack]
      exact h.lt_brk x (mem_cons_of_mem m hx)
    · rw [step, hstack]
      exact h.brk
    · rw [step, hstack, hcopied]
      show (s.returned ++ (s.stack.mbufs m).data) ++ bytesOf s.stack.mbufs l = s.arrived
      rw [append_assoc]
      exact h.bytes

theorem Inv.step (h : s.Inv p l) {e : UdpEv} (hs : guard (Wide p) (Step p) s e s') : ∃ l', s'.Inv p l' := by
  obtain ⟨hw, rfl⟩ := hs
  cases e with
  | arrive m => exact ⟨_, h.arrive m⟩
  | read n => exact ⟨_, h.read hw⟩

theorem Inv.reads (h : s.Inv p l) {reads : List UdpEv} (hr : ∀ e ∈ reads, ∃ n, e = .read n)
    (hrun : Run (guard (Wide p) (Step p)) s reads s') : s'.Inv p (l.drop reads.length) := by
  induction hrun generalizing l with
  | nil => exact h
  | cons hs _ ih =>
    obtain ⟨n, rfl⟩ := hr _ mem_cons_self
    obtain ⟨hw, rfl⟩ := hs
    have := ih (h.read hw) fun e he => hr e (mem_cons_of_mem _ he)
    rwa [drop_tail] at this

end

end UdpSess

/-- **Reads of a UDP socket.**  In every run in which each read asks for more than the first datagram has, what the
reads have returned is the front of what has arrived, and after enough reads it is all of it, each byte once. -/
theorem udpReads {p : Nat} {s₀ s : UdpSess} (h0 : s₀.Start p) {evs : List UdpEv}
    (h : Run (guard (UdpSess.Wide p) (UdpSess.Step p)) s₀ evs s) :
    s.returned <+: s.arrived ∧ ∃ k, ∀ reads s', (∀ e ∈ reads, ∃ n, e = .read n) → k ≤ reads.length →
        Run (guard (UdpSess.Wide p) (UdpSess.Step p)) s reads s' → s'.returned = s'.arrived := by
  obtain ⟨l, hi⟩ := Run.inv (I := fun s => ∃ l, UdpSess.Inv p s l)
    (fun _ _ _ hi hs => hi.elim fun _ hi => hi.step hs) h ⟨[], h0.inv⟩
  refine ⟨⟨_, hi.bytes⟩, l.length, fun reads s' hr hk hrun => ?_⟩
  have hb := (hi.reads hr hrun).bytes
  rwa [drop_eq_nil_of_le hk, bytesOf_nil, append_nil] at hb

/-- A new UDP socket, at the block 1. -/
def newUdpSess : UdpSess := { stack := sockalloc socketInit .udp, arrived := [], returned := [] }

def datagram (bytes : List UInt8) :
    Mbuf := { emptyMbuf with len := bytes.length, buf := fun i => bytes.getD (i - 4000) 0 }

/-- A datagram of two bytes and a read for three. -/
theorem udpReads_two :
    let s := (newUdpSess.step 1 (.arrive (datagram [7, 8]))).step 1 (.read 3)
    s.returned = [7, 8] ∧ s.returned <+: s.arrived := by
  have hs : newUdpSess.Start 1 := ⟨rfl, by decide, rfl, rfl⟩
  have hrun : Run (guard (UdpSess.Wide 1) (UdpSess.Step 1)) newUdpSess [.arrive (datagram [7, 8]), .read 3]
      ((newUdpSess.step 1 (.arrive (datagram [7, 8]))).step 1 (.read 3)) :=
    .cons ⟨trivial, rfl⟩ (.cons ⟨fun _ => by decide, rfl⟩ (.nil _))
  exact ⟨by decide +kernel, (udpReads hs hrun).1⟩

/-- Two reads of one byte return the first byte twice. -/
theorem udpReads_again :
    let s := ((newUdpSess.step 1 (.arrive (datagram [7, 8]))).step 1 (.read 1)).step 1 (.read 1)
    s.arrived = [7, 8] ∧ s.returned = [7, 7] ∧ ¬ s.returned <+: s.arrived := by
  refine ⟨by decide +kernel, by decide +kernel, by decide +kernel⟩

end InternetOs.Net
