import InternetOs.Lib.Run
import InternetOs.Net.Mbuf

/-!
# The transmit ring (`kernel/net/dev/e1000.c`)

`e1000_transmit` puts a frame into the descriptor at the tail.  It looks at the status of that
descriptor, but the mbuf it frees is the one of the descriptor before, which the device may
still be reading (transmitOwnership_lag).  The frames are numbered in the order in which they
are accepted:

    a frame is overwritten only after the device is done with it            (Tx.Inv.reused)
    no frame is freed twice                                                 (Tx.Inv.nodup)
    it is freed only after the device is done with it,
      when the descriptor before the tail is done at each call              (transmitOwnership)
-/

namespace InternetOs.Net

open Function List Option

/-- `TX_RING_SIZE`. -/
def txRingSize : Nat := 16

/-- `E1000_TXD_STAT_DD`. -/
def txdStatDd : UInt8 := 1

/-- `E1000_TXD_CMD_RS | E1000_TXD_CMD_EOP`. -/
def txdCmd : UInt8 := 0x08 ||| 0x01

/-- `struct tx_desc`.  An address is an mbuf and an offset in its buffer. -/
structure TxDesc where
  addr : Nat × Nat
  length : UInt16
  cmd : UInt8
  status : UInt8

/-- The transmit side of `struct e1000_dev`, with the register `E1000_TDT`. -/
structure TxRing where
  tdt : Nat
  ring : Nat → TxDesc
  mbuf : Nat → Nat

/-- As `e1000_init_core` leaves it. -/
def TxRing.init : TxRing :=
  { tdt := 0, ring := fun _ => { addr := (0, 0), length := 0, cmd := 0, status := txdStatDd }, mbuf := fun _ => 0 }

/-- The operator `!` of C. -/
def lnot (x : UInt8) : UInt8 := if x = 0 then 1 else 0

/-- The descriptor before. -/
def txPrev (index : Nat) : Nat := if index = 0 then txRingSize - 1 else index - 1

/-- The descriptor is taken; `!` binds more tightly than `&`. -/
def TxRing.busy (t : TxRing) (index : Nat) : Bool := lnot (t.ring index).status &&& txdStatDd != 0

/-- `e1000_transmit`: the result, the ring and the mbufs that were freed. -/
def e1000Transmit (heap : MbufHeap) (m : Nat) (t : TxRing) : Int × TxRing × List Nat :=
  let index := t.tdt
  if t.busy index then (-1, t, [])
  else
    let prevMbuf := t.mbuf (txPrev index)
    let mbuf := if prevMbuf ≠ 0 then update t.mbuf (txPrev index) 0 else t.mbuf
    let desc := { addr := (m, (heap m).head), length := UInt16.ofNat (heap m).len, cmd := txdCmd, status := 0 }
    (0, { tdt := (index + 1) % txRingSize, ring := update t.ring index desc,
          mbuf := update mbuf index m }, if prevMbuf ≠ 0 then [prevMbuf] else [])

/-! ## Driver and device -/

/-- The ring, the device's head, and what has become of the frames.  `frames` are the mbufs accepted
so far; `owner` is the number of the frame that a descriptor was last used for. -/
structure Tx where
  dev : TxRing
  tdh : Nat
  frames : List Nat
  owner : Nat → Option Nat
  done : List Nat
  freed : List Nat
  reused : List Nat

inductive TxCall
  /-- `e1000_transmit`, called by `eth_send`. -/
  | send (heap : MbufHeap) (m : Nat)
  /-- The device has read the buffer of the next descriptor and sets its status. -/
  | complete (status : UInt8)

namespace Tx

def init : Tx :=
  { dev := .init, tdh := 0, frames := [], owner := fun _ => none, done := [], freed := [], reused := [] }

def step (s : Tx) : TxCall → Option Tx
  | .send heap m =>
    let index := s.dev.tdt
    let r := e1000Transmit heap m s.dev
    if r.1 = -1 then some s
    else some
      { s with
        dev := r.2.1
        frames := s.frames ++ [m]
        owner := update s.owner index (some s.frames.length)
        freed := if r.2.2 = [] then s.freed else (s.owner (txPrev index)).toList ++ s.freed
        reused := (s.owner index).toList ++ s.reused }
  | .complete status =>
    match s.owner s.tdh with
    | some k =>
      if (s.dev.ring s.tdh).status = 0 ∧ status &&& txdStatDd ≠ 0 then some
        { s with
          dev := { s.dev with ring := update s.dev.ring s.tdh { s.dev.ring s.tdh with status := status } }
          tdh := (s.tdh + 1) % txRingSize
          done := k :: s.done }
      else none
    | none => none

/-- The mbuf that a call frees is one the device is done with. -/
def PrevDone (s : Tx) : TxCall → Prop
  | .send _ _ => s.dev.busy s.dev.tdt = true ∨ s.dev.mbuf (txPrev s.dev.tdt) = 0 ∨
      (s.dev.ring (txPrev s.dev.tdt)).status ≠ 0
  | .complete _ => True

instance (s : Tx) : (c : TxCall) → Decidable (s.PrevDone c)
  | .send _ _ => inferInstanceAs (Decidable (_ ∨ _ ∨ _))
  | .complete _ => inferInstanceAs (Decidable True)

/-! ## The invariant -/

structure Inv (s : Tx) : Prop where
  fresh : ∀ j k, s.owner j = some k → k < s.frames.length
  inj : ∀ i j k, s.owner i = some k → s.owner j = some k → i = j
  status : ∀ j k, s.owner j = some k → ((s.dev.ring j).status ≠ 0 ↔ k ∈ s.done)
  past : ∀ k ∈ s.done, k < s.frames.length
  mbuf : ∀ j, s.dev.mbuf j ≠ 0 → ∃ k, s.owner j = some k ∧ s.frames[k]? = some (s.dev.mbuf j) ∧ k ∉ s.freed
  freed : ∀ k ∈ s.freed, k < s.frames.length
  nodup : s.freed.Nodup
  reused : ∀ k ∈ s.reused, k ∈ s.done

variable {s s' : Tx}

theorem busy_iff (t : TxRing) (index : Nat) : t.busy index = true ↔ (t.ring index).status = 0 := by
  unfold TxRing.busy lnot
  by_cases h : (t.ring index).status = 0
  · rw [if_pos h]
    exact ⟨fun _ => h, fun _ => by decide⟩
  · rw [if_neg h]
    exact ⟨fun hb => absurd hb (by decide), fun hz => absurd hz h⟩

theorem step_send {heap : MbufHeap} {m : Nat} (hs : s.step (.send heap m) = some s') :
    s' = s ∨ ((s.dev.ring s.dev.tdt).status ≠ 0 ∧ s'.frames = s.frames ++ [m] ∧ s'.done = s.done ∧
      s'.owner = update s.owner s.dev.tdt (some s.frames.length) ∧
      s'.reused = (s.owner s.dev.tdt).toList ++ s.reused ∧
      (∀ j, j ≠ s.dev.tdt → (s'.dev.ring j).status = (s.dev.ring j).status) ∧
      (s'.dev.ring s.dev.tdt).status = 0 ∧
      s'.dev.mbuf s.dev.tdt = m ∧
      (∀ j, j ≠ s.dev.tdt → s'.dev.mbuf j = if j = txPrev s.dev.tdt then 0 else s.dev.mbuf j) ∧
      s'.freed = if s.dev.mbuf (txPrev s.dev.tdt) = 0 then s.freed
        else (s.owner (txPrev s.dev.tdt)).toList ++ s.freed) := by
  simp only [step, e1000Transmit] at hs
  by_cases hb : s.dev.busy s.dev.tdt = true
  · rw [if_pos hb] at hs
    exact .inl (some.inj hs).symm
  · rw [if_neg hb] at hs
    rw [busy_iff] at hb
    cases hs
    refine .inr ⟨hb, rfl, rfl, rfl, rfl, ?_, ?_, update_self .., ?_, ?_⟩
    · intro j hj
      dsimp only
      rw [update_of_ne hj]
    · dsimp only
      rw [update_self]
    · intro j hj
      dsimp only
      rw [update_of_ne hj]
      by_cases hp : s.dev.mbuf (txPrev s.dev.tdt) = 0
      · rw [if_neg (not_not.mpr hp)]
        split_ifs with hjp
        · rw [hjp, hp]
        · rfl
      · rw [if_pos hp]
        split_ifs with hjp
        · rw [hjp, update_self]
        · rw [update_of_ne hjp]
    · by_cases hp : s.dev.mbuf (txPrev s.dev.tdt) = 0
      · simp [hp]
      · simp [hp]

theorem Inv.send (h : s.Inv) {heap : MbufHeap} {m : Nat} (hs : s.step (.send heap m) = some s') : s'.Inv := by
  rcases step_send hs with rfl | ⟨hst, hframes, hdone, howner, hover, hring, hzero, hnew, hmb, hfreed⟩
  · exact h
  have hcount : s'.frames.length = s.frames.length + 1 := by
    rw [hframes, length_append, length_singleton]
  -- the frame whose mbuf is freed was not freed before
  have hold : ∀ k ∈ s'.freed, k ∈ s.freed ∨ s.owner (txPrev s.dev.tdt) = some k := by
    intro k hk
    rw [hfreed] at hk
    split_ifs at hk with hp
    · exact .inl hk
    · rcases mem_append.mp hk with hk | hk
      · exact .inr (mem_toList.mp hk)
      · exact .inl hk
  constructor
  · intro j k hj
    rw [hcount]
    rw [howner] at hj
    by_cases hji : j = s.dev.tdt
    · rw [hji, update_self] at hj
      cases hj
      omega
    · rw [update_of_ne hji] at hj
      exact Nat.lt_succ_of_lt (h.fresh j k hj)
  · intro i j k hi hj
    rw [howner] at hi hj
    by_cases hi' : i = s.dev.tdt
    · by_cases hj' : j = s.dev.tdt
      · rw [hi', hj']
      · rw [hi', update_self] at hi
        rw [update_of_ne hj'] at hj
        have := h.fresh j k hj
        have := some.inj hi
        omega
    · rw [update_of_ne hi'] at hi
      by_cases hj' : j = s.dev.tdt
      · rw [hj', update_self] at hj
        have := h.fresh i k hi
        have := some.inj hj
        omega
      · rw [update_of_ne hj'] at hj
        exact h.inj i j k hi hj
  · intro j k hj
    rw [howner] at hj
    rw [hdone]
    by_cases hji : j = s.dev.tdt
    · rw [hji, update_self] at hj
      cases hj
      rw [hji, hzero]
      exact ⟨fun hne => absurd rfl hne, fun hk => absurd (h.past _ hk) (lt_irrefl _)⟩
    · rw [update_of_ne hji] at hj
      rw [hring j hji]
      exact h.status j k hj
  · intro k hk
    rw [hdone] at hk
    rw [hcount]
    exact Nat.lt_succ_of_lt (h.past k hk)
  · intro j hj
    rw [howner]
    by_cases hji : j = s.dev.tdt
    · refine ⟨s.frames.length, by rw [hji, update_self], ?_, fun hk => ?_⟩
      · rw [hframes, hji, hnew, getElem?_concat_length]
      rcases hold _ hk with hk | hk
      · exact absurd (h.freed _ hk) (lt_irrefl _)
      · exact absurd (h.fresh _ _ hk) (lt_irrefl _)
    · rw [hmb j hji] at hj
      split_ifs at hj with hjp
      · exact absurd rfl hj
      · obtain ⟨k, hk, hm, hnf⟩ := h.mbuf j hj
        refine ⟨k, by rw [update_of_ne hji]; exact hk, ?_, fun hin => ?_⟩
        · rw [hmb j hji, if_neg hjp, hframes, getElem?_append_left (h.fresh j k hk)]
          exact hm
        rcases hold _ hin with hin | hin
        · exact hnf hin
        · exact hjp (h.inj _ _ _ hk hin)
  · intro k hk
    rw [hcount]
    rcases hold k hk with hk | hk
    · exact Nat.lt_succ_of_lt (h.freed k hk)
    · exact Nat.lt_succ_of_lt (h.fresh _ k hk)
  · rw [hfreed]
    split_ifs with hp
    · exact h.nodup
    · obtain ⟨k, hk, -, hnf⟩ := h.mbuf _ hp
      rw [hk]
      exact nodup_cons.mpr ⟨hnf, h.nodup⟩
  · intro k hk
    rw [hover] at hk
    rw [hdone]
    rcases mem_append.mp hk with hk | hk
    · exact (h.status _ k (mem_toList.mp hk)).mp hst
    · exact h.reused k hk

theorem Inv.complete (h : s.Inv) {st : UInt8} (hs : s.step (.complete st) = some s') :
    s'.Inv ∧ s'.freed = s.freed ∧ ∀ k ∈ s.done, k ∈ s'.done := by
  simp only [step] at hs
  cases ho : s.owner s.tdh with
  | none =>
    rw [ho] at hs
    cases hs
  | some k =>
    rw [ho] at hs
    split_ifs at hs with hc
    have hst : st ≠ 0 := by
      rintro rfl
      exact hc.2 (by decide)
    cases hs
    refine ⟨⟨h.fresh, h.inj, ?_, ?_, h.mbuf, h.freed, h.nodup, fun x hx => mem_cons_of_mem _ (h.reused x hx)⟩,
      rfl, fun x hx => mem_cons_of_mem _ hx⟩
    · intro j x hj
      dsimp only
      by_cases hjt : j = s.tdh
      · rw [hjt] at hj
        obtain rfl : k = x := some.inj (ho.symm.trans hj)
        rw [hjt, update_self]
        exact ⟨fun _ => mem_cons_self, fun _ => hst⟩
      · rw [update_of_ne hjt, h.status j x hj, mem_cons]
        constructor
        · exact .inr
        · rintro (rfl | hx)
          · exact absurd (h.inj _ _ _ hj ho) hjt
          · exact hx
    · intro x hx
      rcases mem_cons.mp hx with rfl | hx
      · exact h.fresh _ _ ho
      · exact h.past x hx

theorem Inv.step (h : s.Inv) {c : TxCall} (hs : s.step c = some s') : s'.Inv := by
  cases c with
  | send heap m => exact h.send hs
  | complete st => exact (h.complete hs).1

/-- What is freed is done, when the condition holds at each call. -/
theorem Inv.freed_done (h : s.Inv) (hd : ∀ k ∈ s.freed, k ∈ s.done) {c : TxCall} (hg : s.PrevDone c)
    (hs : s.step c = some s') : ∀ k ∈ s'.freed, k ∈ s'.done := by
  cases c with
  | complete st =>
    obtain ⟨-, hf, hmono⟩ := h.complete hs
    rw [hf]
    exact fun k hk => hmono k (hd k hk)
  | send heap m =>
    rcases step_send hs with rfl | ⟨hst, -, hdone, -, -, -, -, -, -, hfreed⟩
    · exact hd
    intro k hk
    rw [hfreed] at hk
    rw [hdone]
    split_ifs at hk with hp
    · exact hd k hk
    · rcases mem_append.mp hk with hk | hk
      · rcases hg with hb | hz | hne
        · exact absurd ((busy_iff _ _).mp hb) hst
        · exact absurd hz hp
        · exact (h.status _ k (mem_toList.mp hk)).mp hne
      · exact hd k hk

theorem Inv.init : init.Inv where
  fresh _ _ h := by cases h
  inj _ _ _ h := by cases h
  status _ _ h := by cases h
  past _ h := absurd h not_mem_nil
  mbuf _ h := absurd rfl h
  freed _ h := absurd h not_mem_nil
  nodup := nodup_nil
  reused _ h := absurd h not_mem_nil

end Tx

/-- **Transmit buffers.**  In every run the mbuf in a slot is that of the last frame put there, no frame is
freed twice, and a descriptor is overwritten only after it is done.  If at each call the descriptor
before the tail is done, or its mbuf is gone, then a frame is freed only after its descriptor is done. -/
theorem transmitOwnership {calls : List TxCall} {s : Tx} :
    (Run (fun s c s' => Tx.step s c = some s') Tx.init calls s →
      (∀ j, s.dev.mbuf j ≠ 0 → ∃ k, s.owner j = some k ∧ s.frames[k]? = some (s.dev.mbuf j)) ∧
      s.freed.Nodup ∧ ∀ k ∈ s.reused, k ∈ s.done) ∧
    (Run (guard Tx.PrevDone fun s c s' => Tx.step s c = some s') Tx.init calls s → ∀ k ∈ s.freed, k ∈ s.done) := by
  constructor
  · intro hrun
    have h := hrun.inv (I := Tx.Inv) (fun s c s' h hs => h.step hs) Tx.Inv.init
    refine ⟨fun j hj => ?_, h.nodup, h.reused⟩
    obtain ⟨k, hk, hm, -⟩ := h.mbuf j hj
    exact ⟨k, hk, hm⟩
  · intro hrun
    have h := hrun.inv (I := fun s => s.Inv ∧ ∀ k ∈ s.freed, k ∈ s.done)
      (fun s c s' h hs => ⟨h.1.step hs.2, h.1.freed_done h.2 hs.1 hs.2⟩)
      ⟨Tx.Inv.init, fun k hk => absurd hk not_mem_nil⟩
    exact h.2

/-- One mbuf, as `mbufalloc` gives it. -/
def txHeap : MbufHeap := fun _ => (mbufalloc 128).getD ⟨0, 0, 0, fun _ => 0, ⟨0, 0, 0⟩, ⟨0, 0, 0, 0, 0, 0, 0⟩⟩

/-- The device sends the first frame before the second is queued. -/
theorem transmitOwnership_prompt : ∃ s, Run (guard Tx.PrevDone fun s c s' => Tx.step s c = some s') Tx.init
      [.send txHeap 5, .complete 1, .send txHeap 6] s ∧ s.freed = [0] ∧ s.freed.Nodup ∧ ∀ k ∈ s.freed, k ∈ s.done := by
  exact Run.find_guard (by decide +kernel) fun s hs hf =>
    ⟨hf, (transmitOwnership.1 (hs.mono fun _ _ _ h => h.2)).2.1, transmitOwnership.2 hs⟩

/-- Two frames without a completion between them: the first is freed while the device has it. -/
theorem transmitOwnership_lag : ∃ s,
    Run (fun s c s' => Tx.step s c = some s') Tx.init [.send txHeap 5, .send txHeap 6] s ∧
      0 ∈ s.freed ∧ 0 ∉ s.done ∧ (s.dev.ring 0).status = 0 := by
  exact Run.find (by decide +kernel) fun s _ hv => hv

end InternetOs.Net
