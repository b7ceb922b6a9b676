import InternetOs.Lib.Chain

/-!
# Packet buffers and their queues (`kernel/net/mbuf.c`)

An mbuf is modelled with its whole buffer: `head` is the offset of `m->head` in
`m->buf`, so the bytes it presents (`Mbuf.data`) are `buf[head .. head + len)`.
Mbufs live in a heap of nodes linked through `next`; address `0` is null.

`mbufq_pophead` and `mbufq_pushhead` never touch `q->tail`.  `mbufqPushtail_holds`,
`mbufqPophead_holds` and `mbufqPushhead_holds` say what that leaves of the FIFO.
-/

namespace InternetOs.Net

open List

def mbufSize : Nat := 8192
def ethMaxSize : Nat := 4000

/-- `struct tcp`, fields in host order. -/
structure TcpHdr where
  sport : UInt16
  dport : UInt16
  seq : UInt32
  ack : UInt32
  off : UInt8
  flg : UInt8
  wnd : UInt16
  deriving DecidableEq, Repr

/-- `params.tcp`: what `push_to_scb_txq` notes on a queued mbuf. -/
structure TcpParams where
  sndnxt : UInt32
  flg : UInt8
  datalen : UInt16
  deriving DecidableEq, Repr

structure Mbuf where
  next : Nat
  head : Nat
  len : Nat
  buf : Nat → UInt8
  params : TcpParams
  tcphdr : TcpHdr

/-- The bytes an mbuf presents. -/
def Mbuf.data (m : Mbuf) : List UInt8 := (range m.len).map fun i => m.buf (m.head + i)

@[simp] theorem Mbuf.length_data (m : Mbuf) : m.data.length = m.len := by simp [Mbuf.data]

/-- Strip `len` bytes from the start; null when fewer are there. -/
def mbufpull (m : Mbuf) (len : Nat) : Option Nat × Mbuf :=
  if m.len < len then (none, m)
  else (some m.head, { m with len := m.len - len, head := m.head + len })

/-- Prepend `len` bytes; `none` is the panic when the headroom is too small. -/
def mbufpush (m : Mbuf) (len : Nat) : Option (Nat × Mbuf) :=
  if m.head < len then none
  else some (m.head - len, { m with head := m.head - len, len := m.len + len })

/-- A fresh, zeroed mbuf; null when the headroom does not fit. -/
def mbufalloc (headroom : Nat) : Option Mbuf :=
  if mbufSize < headroom then none
  else some
    { next := 0, head := headroom, len := 0, buf := fun _ => 0, params := ⟨0, 0, 0⟩, tcphdr := ⟨0, 0, 0, 0, 0, 0, 0⟩ }

theorem mbufpull_data (m : Mbuf) (n : Nat) (h : n ≤ m.len) : (mbufpull m n).2.data = m.data.drop n := by
  unfold mbufpull
  rw [if_neg (by omega)]
  apply ext_getElem
  · simp
  · intro i h1 h2
    simp only [Mbuf.data, getElem_map, getElem_range, getElem_drop]
    congr 1
    omega

/-! ## Queues -/

abbrev MbufHeap := Nat → Mbuf

structure Mbufq where
  head : Nat
  tail : Nat
  deriving DecidableEq, Repr

def setNext (h : MbufHeap) (p v : Nat) : MbufHeap := Function.update h p { h p with next := v }

def mbufqPushtail (h : MbufHeap) (q : Mbufq) (m : Nat) : MbufHeap × Mbufq :=
  let h := setNext h m 0
  if q.head = 0 then (h, { head := m, tail := m })
  else (setNext h q.tail m, { q with tail := m })

def mbufqPushhead (h : MbufHeap) (q : Mbufq) (m : Nat) : MbufHeap × Mbufq :=
  (setNext h m q.head, { q with head := m })

def mbufqPophead (h : MbufHeap) (q : Mbufq) : Nat × Mbufq :=
  if q.head = 0 then (0, q) else (q.head, { q with head := (h q.head).next })

def mbufqEmpty (q : Mbufq) : Bool := q.head == 0

/-- `mbufq_init` clears the head only. -/
def mbufqInit (q : Mbufq) : Mbufq := { q with head := 0 }

/-- `q` holds exactly the mbufs `l`, first to last. -/
def Mbufq.Holds (h : MbufHeap) (q : Mbufq) (l : List Nat) : Prop :=
  Queue (fun p => (h p).next) q.head q.tail l

/-- The bytes of a list of mbufs, in order. -/
def bytesOf (h : MbufHeap) (l : List Nat) : List UInt8 := l.flatMap fun p => (h p).data

theorem setNext_next (h : MbufHeap) (p v x : Nat) : (setNext h p v x).next = if x = p then v else (h x).next := by
  unfold setNext
  by_cases hx : x = p
  · subst hx; simp
  · simp [hx]

@[simp] theorem setNext_data (h : MbufHeap) (p v x : Nat) : (setNext h p v x).data = (h x).data := by
  unfold setNext
  by_cases hx : x = p
  · subst hx; simp [Mbuf.data]
  · simp [hx]

theorem mbufqPushtail_eq (h : MbufHeap) (q : Mbufq) (m x : Nat) :
    ∃ v, (mbufqPushtail h q m).1 x = { h x with next := v } := by
  have hset : ∀ (h : MbufHeap) (p v : Nat), ∃ w, setNext h p v x = { h x with next := w } := by
    intro h p v
    unfold setNext
    by_cases hx : x = p
    · exact ⟨v, by simp [hx]⟩
    · exact ⟨(h x).next, by simp [hx]⟩
  unfold mbufqPushtail
  split
  · exact hset h m 0
  · obtain ⟨v, hv⟩ := hset (setNext h m 0) q.tail m
    obtain ⟨w, hw⟩ := hset h m 0
    rw [hw] at hv
    exact ⟨v, hv⟩

@[simp] theorem mbufqPushtail_data (h : MbufHeap) (q : Mbufq) (m x : Nat) :
    ((mbufqPushtail h q m).1 x).data = (h x).data := by
  obtain ⟨v, hv⟩ := mbufqPushtail_eq h q m x
  rw [hv]
  rfl

@[simp] theorem mbufqPushtail_params (h : MbufHeap) (q : Mbufq) (m x : Nat) :
    ((mbufqPushtail h q m).1 x).params = (h x).params := by
  obtain ⟨v, hv⟩ := mbufqPushtail_eq h q m x
  rw [hv]

theorem bytesOf_congr {h h' : MbufHeap} {l : List Nat} (heq : ∀ p ∈ l, (h' p).data = (h p).data) :
    bytesOf h' l = bytesOf h l := by
  unfold bytesOf
  induction l with
  | nil => rfl
  | cons x xs ih =>
    rw [flatMap_cons, flatMap_cons, heq x mem_cons_self,
      ih fun p hp => heq p (mem_cons_of_mem x hp)]

@[simp] theorem bytesOf_nil (h : MbufHeap) : bytesOf h [] = [] := rfl

@[simp] theorem bytesOf_cons (h : MbufHeap) (x : Nat) (l : List Nat) :
    bytesOf h (x :: l) = (h x).data ++ bytesOf h l := by
  simp [bytesOf]

@[simp] theorem bytesOf_append (h : MbufHeap) (l l' : List Nat) :
    bytesOf h (l ++ l') = bytesOf h l ++ bytesOf h l' := by
  simp [bytesOf]

section
variable {h h' : MbufHeap} {q : Mbufq} {l : List Nat} {m : Nat}

theorem Mbufq.Holds.congr (hq : q.Holds h l) (heq : ∀ p ∈ l, (h' p).next = (h p).next) : q.Holds h' l :=
  Queue.congr hq heq

theorem Mbufq.Holds.head_eq_zero (hq : q.Holds h l) : q.head = 0 ↔ l = [] := by
  constructor
  · intro h0
    have := hq.chain
    rw [h0] at this
    exact this.eq_nil
  · rintro rfl
    exact hq.chain

theorem mbufqPushtail_holds (hq : q.Holds h l) (hm : m ≠ 0) (hml : m ∉ l) :
    (mbufqPushtail h q m).2.Holds (mbufqPushtail h q m).1 (l ++ [m]) := by
  unfold mbufqPushtail
  split
  · next h0 =>
    obtain rfl := hq.head_eq_zero.mp h0
    exact Queue.singleton hm (by simp [setNext_next])
  · next h0 =>
    have hne : l ≠ [] := fun e => h0 (hq.head_eq_zero.mpr e)
    have htl : q.tail ≠ m := by
      obtain ⟨l0, t, rfl⟩ := (eq_nil_or_concat' l).resolve_left hne
      rw [hq.tail l0 t rfl]
      exact fun e => hml (by simp [e])
    refine Queue.pushTail hq hne hm hml ?_ ?_ fun x hx hxt => ?_
    · simp [setNext_next]
    · simp [setNext_next, htl.symm]
    · have hxm : x ≠ m := fun e => hml (e ▸ hx)
      simp [setNext_next, hxt, hxm]

theorem mbufqPushtail_new (hq : q.Holds h l) (hm : m ≠ 0) (hml : m ∉ l) (mb : Mbuf) :
    (mbufqPushtail (Function.update h m mb) q m).2.Holds (mbufqPushtail (Function.update h m mb) q m).1 (l ++ [m]) := by
  refine mbufqPushtail_holds (hq.congr fun x hx => ?_) hm hml
  have hxm : x ≠ m := fun e => hml (e ▸ hx)
  rw [Function.update_of_ne hxm]

/-- `mbufq_pushtail` writes the links of the new mbuf and of the last one of its queue;
a queue that shares no mbuf with them does not notice. -/
theorem mbufqPushtail_other {q' : Mbufq} {l' : List Nat} (hq : q.Holds h l) (hq' : q'.Holds h l')
    (hdisj : ∀ x ∈ l, x ∉ l') (hm : m ∉ l') : q'.Holds (mbufqPushtail h q m).1 l' := by
  refine hq'.congr fun x hx => ?_
  have hxm : x ≠ m := fun e => hm (e ▸ hx)
  unfold mbufqPushtail
  split
  · simp [setNext_next, hxm]
  · next h0 =>
    have hxt : x ≠ q.tail := by
      obtain ⟨l0, t, hl⟩ := (eq_nil_or_concat' l).resolve_left
        fun e => h0 (hq.head_eq_zero.mpr e)
      rw [hq.tail l0 t hl]
      rintro rfl
      exact hdisj x (by simp [hl]) hx
    simp [setNext_next, hxm, hxt]

theorem mbufqPophead_nil (hq : q.Holds h []) : mbufqPophead h q = (0, q) := by
  unfold mbufqPophead
  rw [if_pos (hq.head_eq_zero.mpr rfl)]

theorem mbufqPophead_holds (hq : q.Holds h (m :: l)) : (mbufqPophead h q).1 = m ∧ (mbufqPophead h q).2.Holds h l := by
  have hm : q.head = m := hq.chain.1
  have hm0 : m ≠ 0 := hq.chain.2.1
  unfold mbufqPophead
  rw [if_neg (by rw [hm]; exact hm0), hm]
  exact ⟨rfl, Queue.popHead hq⟩

/-- `mbufq_pushhead` of the mbuf that `mbufq_pophead` has just returned: the tail
pointer, which neither of them wrote, is the last mbuf of the restored queue. -/
theorem mbufqPushhead_holds (hq : q.Holds h (m :: l)) (heq : ∀ p ∈ l, (h' p).next = (h p).next) :
    (mbufqPushhead h' (mbufqPophead h q).2 m).2.Holds (mbufqPushhead h' (mbufqPophead h q).2 m).1 (m :: l) := by
  have hm : q.head = m := hq.chain.1
  have hm0 : m ≠ 0 := hq.chain.2.1
  have hml : m ∉ l := (nodup_cons.mp hq.nodup).1
  unfold mbufqPushhead mbufqPophead
  rw [if_neg (by rw [hm]; exact hm0), hm]
  refine Queue.popHead_pushHead hq ?_ fun x hx => ?_
  · simp [setNext_next]
  · have hxm : x ≠ m := fun e => hml (e ▸ hx)
    simp only [setNext_next, if_neg hxm]
    exact heq x hx

end

end InternetOs.Net
