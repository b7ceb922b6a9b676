import InternetOs.Lib.CircularBuffer
import InternetOs.Lib.Run

/-!
# Pipes (`kernel/proc/pipe.c`)

A pipe and the processes that are in the middle of a call on it.  A step is a critical section: it runs from `acquire`,
or from the return of `sleep`, to the next `sleep` or to the end of the call.  A process that sleeps may be woken at any
time, and may be killed at any time; user buffers are valid, so `copyin` and `copyout` do not fail.  `put` and `taken`
are ghosts: the bytes that were stored and the bytes that were fetched since `pipealloc`.

    nwrite - nread ≤ PIPESIZE, taken ++ buffered = put, 0 means end of file               (pipeFifo)
-/

namespace InternetOs.Proc

open SeqNum Circular Option

/-- `PIPESIZE`. -/
def pipesize : Nat := 512

/-- `struct pipe`. -/
structure Pipe where
  data : Nat → UInt8
  nread : UInt32
  nwrite : UInt32
  readopen : Bool
  writeopen : Bool
  put : List UInt8
  taken : List UInt8

/-- As `pipealloc` leaves it; the data are what was in the memory. -/
def pipealloc (data : Nat → UInt8) : Pipe :=
  { data := data, nread := 0, nwrite := 0, readopen := true, writeopen := true, put := [], taken := [] }

/-- `pi->data[pi->nwrite++ % PIPESIZE] = ch`. -/
def Pipe.store (pi : Pipe) (ch : UInt8) : Pipe :=
  { pi with
    data := Function.update pi.data (pi.nwrite.toNat % pipesize) ch, nwrite := pi.nwrite + 1, put := pi.put ++ [ch] }

/-- `ch = pi->data[pi->nread++ % PIPESIZE]`. -/
def Pipe.fetch (pi : Pipe) : Pipe :=
  { pi with nread := pi.nread + 1, taken := pi.taken ++ [pi.data (pi.nread.toNat % pipesize)] }

/-- The bytes in the pipe. -/
def Pipe.buffered (pi : Pipe) : List UInt8 := contents pipesize pi.data pi.nread pi.nwrite

/-! ## Calls -/

/-- Where a process is: outside, asleep in `pipewrite` with these bytes of its `n` left, or asleep in `piperead`. -/
inductive PipePlace
  | user
  | writing (n : Int) (rest : List UInt8)
  | reading (n : Int)
  deriving DecidableEq, Repr

/-- How a critical section ends. -/
inductive PipeEnd
  | ret (r : Int)
  | sleep (place : PipePlace)
  deriving DecidableEq, Repr

/-- The loop of `pipewrite` over the bytes that are left. -/
def pipewrite (killed : Bool) (n : Int) : Pipe → List UInt8 → Pipe × PipeEnd
  | pi, [] => (pi, .ret n)
  | pi, ch :: rest =>
    if pi.nwrite = pi.nread + UInt32.ofNat pipesize then
      if pi.readopen = false ∨ killed = true then (pi, .ret (-1)) else (pi, .sleep (.writing n (ch :: rest)))
    else pipewrite killed n (pi.store ch) rest

/-- The copying loop of `piperead`; it has come to `i`. -/
def pipereadCopy : Nat → Pipe → Nat → Pipe × Nat
  | 0, pi, i => (pi, i)
  | k + 1, pi, i => if pi.nread = pi.nwrite then (pi, i) else pipereadCopy k pi.fetch (i + 1)

/-- `piperead` from its waiting loop on. -/
def pipereadWait (pi : Pipe) (killed : Bool) (n : Int) : Pipe × PipeEnd :=
  if pi.nread = pi.nwrite ∧ pi.writeopen = true then
    if killed then (pi, .ret (-1)) else (pi, .sleep (.reading n))
  else
    let r := pipereadCopy n.toNat pi 0
    (r.1, .ret r.2)

def piperead (pi : Pipe) (killed : Bool) (n : Int) (nonblockable : Bool) : Pipe × PipeEnd :=
  if nonblockable = true ∧ pi.nread = pi.nwrite ∧ pi.writeopen = true then (pi, .ret 0)
  else pipereadWait pi killed n

def pipeclose (pi : Pipe) (writable : Bool) : Pipe :=
  if writable then { pi with writeopen := false } else { pi with readopen := false }

/-! ## The system -/

/-- A pipe and its processes; `freed` once both ends are closed. -/
structure PipeSys where
  pipe : Pipe
  place : Nat → PipePlace
  freed : Bool

def PipeSys.init (data : Nat → UInt8) : PipeSys := { pipe := pipealloc data, place := fun _ => .user, freed := false }

/-- A call, a process that goes on after `sleep`, or the last close of an end. -/
inductive PipeEv
  | write (p : Nat) (n : Int) (bytes : List UInt8) (killed : Bool)
  | read (p : Nat) (n : Int) (nonblockable killed : Bool)
  | resume (p : Nat) (killed : Bool)
  | close (writable : Bool)

/-- The process `p` ends a critical section. -/
def PipeSys.finish (s : PipeSys) (p : Nat) (r : Pipe × PipeEnd) : PipeSys × Option Int :=
  match r.2 with
  | .ret v => ({ s with pipe := r.1, place := Function.update s.place p .user }, some v)
  | .sleep place => ({ s with pipe := r.1, place := Function.update s.place p place }, none)

/-- A step and what the call returns, if it does.  Nothing happens on a pipe that was freed: files count who has it
open. -/
def PipeSys.step (s : PipeSys) : PipeEv → Option (PipeSys × Option Int)
  | .write p n bytes killed =>
    if s.freed = false ∧ s.place p = .user ∧ bytes.length = n.toNat then
      some (s.finish p (pipewrite killed n s.pipe bytes)) else none
  | .read p n nonblockable killed =>
    if s.freed = false ∧ s.place p = .user then some (s.finish p (piperead s.pipe killed n nonblockable)) else none
  | .resume p killed =>
    if s.freed then none
    else match s.place p with
      | .user => none
      | .writing n rest => some (s.finish p (pipewrite killed n s.pipe rest))
      | .reading n => some (s.finish p (pipereadWait s.pipe killed n))
  | .close writable =>
    if s.freed then none
    else
      let pi := pipeclose s.pipe writable
      some ({ s with pipe := pi, freed := !pi.readopen && !pi.writeopen }, none)

/-- The event is a critical section of a read of at least one byte on a blocking pipe. -/
def PipeSys.BlockingRead (s : PipeSys) : PipeEv → Prop
  | .read _ n nonblockable _ => 0 < n ∧ nonblockable = false
  | .resume p _ => ∃ n, s.place p = .reading n ∧ 0 < n
  | _ => False

/-! ## The queue -/

/-- The bytes fetched and those in the pipe are the bytes stored. -/
structure Pipe.Inv (pi : Pipe) : Prop where
  bound : ahead pi.nread pi.nwrite ≤ pipesize
  fifo : pi.taken ++ pi.buffered = pi.put

section
variable {pi : Pipe}

theorem Pipe.Inv.alloc (data : Nat → UInt8) : (pipealloc data).Inv :=
  ⟨by simp [pipealloc], by simp [pipealloc, Pipe.buffered]⟩

theorem Pipe.full_iff : pi.nwrite = pi.nread + UInt32.ofNat pipesize ↔ ahead pi.nread pi.nwrite = pipesize :=
  (ahead_eq_iff (k := UInt32.ofNat pipesize)).symm

theorem Pipe.Inv.store (h : pi.Inv) (hfull : pi.nwrite ≠ pi.nread + UInt32.ofNat pipesize) (ch : UInt8) :
    (pi.store ch).Inv := by
  have hlt : ahead pi.nread pi.nwrite < pipesize :=
    Nat.lt_of_le_of_ne h.bound fun heq => hfull (Pipe.full_iff.mpr heq)
  constructor
  · show ahead pi.nread (pi.nwrite + 1) ≤ pipesize
    rw [ahead_succ (by unfold pipesize at hlt; omega)]
    exact hlt
  · show pi.taken ++ contents pipesize (Function.update pi.data (pi.nwrite.toNat % pipesize) ch) pi.nread
      (pi.nwrite + 1) = pi.put ++ [ch]
    rw [contents_push (by decide) (by decide) hlt, ← List.append_assoc]
    exact congrArg (· ++ [ch]) h.fifo

theorem Pipe.Inv.fetch (h : pi.Inv) (hempty : pi.nread ≠ pi.nwrite) : pi.fetch.Inv := by
  have hpred := ahead_succ_left hempty
  have hbound := h.bound
  constructor
  · show ahead (pi.nread + 1) pi.nwrite ≤ pipesize
    omega
  · show (pi.taken ++ [pi.data (pi.nread.toNat % pipesize)]) ++
      contents pipesize pi.data (pi.nread + 1) pi.nwrite = pi.put
    rw [List.append_assoc, List.singleton_append, ← contents_pop _ (by decide) hempty]
    exact h.fifo

theorem Pipe.Inv.pipewrite (h : pi.Inv) (killed : Bool) (n : Int) (bytes : List UInt8) :
    (pipewrite killed n pi bytes).1.Inv := by
  induction bytes generalizing pi with
  | nil => exact h
  | cons ch rest ih =>
    unfold Proc.pipewrite
    split
    · split
      · exact h
      · exact h
    · next hfull => exact ih (h.store hfull ch)

theorem Pipe.Inv.pipereadCopy (h : pi.Inv) (k i : Nat) : (pipereadCopy k pi i).1.Inv := by
  induction k generalizing pi i with
  | zero => exact h
  | succ k ih =>
    unfold Proc.pipereadCopy
    split
    · exact h
    · next hempty => exact ih (h.fetch hempty) (i + 1)

theorem Pipe.Inv.pipereadWait (h : pi.Inv) (killed : Bool) (n : Int) : (pipereadWait pi killed n).1.Inv := by
  unfold Proc.pipereadWait
  split
  · split
    · exact h
    · exact h
  · exact h.pipereadCopy _ _

theorem Pipe.Inv.piperead (h : pi.Inv) (killed : Bool) (n : Int) (nonblockable : Bool) :
    (piperead pi killed n nonblockable).1.Inv := by
  unfold Proc.piperead
  split
  · exact h
  · exact h.pipereadWait killed n

theorem Pipe.Inv.pipeclose (h : pi.Inv) (writable : Bool) : (pipeclose pi writable).Inv := by
  unfold Proc.pipeclose
  split
  · exact ⟨h.bound, h.fifo⟩
  · exact ⟨h.bound, h.fifo⟩

end

/-! ## Runs -/

section
variable {s s' : PipeSys} {e : PipeEv} {v : Option Int}

theorem PipeSys.finish_pipe (s : PipeSys) (p : Nat) (r : Pipe × PipeEnd) : (s.finish p r).1.pipe = r.1 := by
  unfold PipeSys.finish
  split <;> rfl

theorem PipeSys.finish_ret {p : Nat} {r : Pipe × PipeEnd} {v : Int} (h : (s.finish p r).2 = some v) : r.2 = .ret v := by
  unfold PipeSys.finish at h
  split at h
  · next w hw => rw [hw, some.inj h]
  · cases h

theorem PipeSys.step_inv (h : s.pipe.Inv) (hs : s.step e = some (s', v)) : s'.pipe.Inv := by
  have key : ∀ {p : Nat} {r : Pipe × PipeEnd}, s.finish p r = (s', v) → r.1.Inv → s'.pipe.Inv := fun hf hr => by
    obtain rfl : (s.finish _ _).1 = s' := congrArg Prod.fst hf
    rw [PipeSys.finish_pipe]
    exact hr
  cases e with
  | write p n bytes killed =>
    obtain ⟨-, hf⟩ := ite_none_right_eq_some.mp hs
    exact key (some.inj hf) (h.pipewrite killed n bytes)
  | read p n nonblockable killed =>
    obtain ⟨-, hf⟩ := ite_none_right_eq_some.mp hs
    exact key (some.inj hf) (h.piperead killed n nonblockable)
  | resume p killed =>
    obtain ⟨-, hs⟩ := ite_none_left_eq_some.mp hs
    split at hs
    · cases hs
    · exact key (some.inj hs) (h.pipewrite killed _ _)
    · exact key (some.inj hs) (h.pipereadWait killed _)
  | close writable =>
    obtain ⟨-, hf⟩ := ite_none_left_eq_some.mp hs
    obtain ⟨rfl, -⟩ := Prod.mk.inj (some.inj hf)
    exact h.pipeclose writable

theorem pipereadCopy_pos {pi : Pipe} {n : Int} (hn : 0 < n) (h : (pipereadCopy n.toNat pi 0).2 = 0) :
    pi.nread = pi.nwrite := by
  have hmono : ∀ (k : Nat) (pi : Pipe) (i : Nat), i ≤ (pipereadCopy k pi i).2 := by
    intro k
    induction k with
    | zero => exact fun _ i => Nat.le_refl i
    | succ k ih =>
      intro pi i
      unfold pipereadCopy
      split
      · exact Nat.le_refl i
      · exact Nat.le_of_succ_le (ih pi.fetch (i + 1))
  obtain ⟨k, hk⟩ : ∃ k, n.toNat = k + 1 := ⟨n.toNat - 1, by omega⟩
  by_contra hne
  rw [hk] at h
  unfold pipereadCopy at h
  rw [if_neg hne] at h
  have := hmono k pi.fetch (0 + 1)
  omega

theorem pipereadWait_zero {pi : Pipe} {killed : Bool} {n : Int} (hn : 0 < n)
    (h : (pipereadWait pi killed n).2 = .ret 0) : pi.nread = pi.nwrite ∧ pi.writeopen = false := by
  unfold pipereadWait at h
  split at h
  · split at h
    · cases h
    · cases h
  · next hwait =>
    have hempty := pipereadCopy_pos hn (Int.ofNat_eq_zero.mp (PipeEnd.ret.inj h))
    exact ⟨hempty, by simpa [hempty] using hwait⟩

theorem PipeSys.step_eof (hs : s.step e = some (s', some 0)) (hb : s.BlockingRead e) :
    s.pipe.nread = s.pipe.nwrite ∧ s.pipe.writeopen = false := by
  cases e with
  | write | close => exact hb.elim
  | read p n nonblockable killed =>
    obtain ⟨hn, rfl⟩ := hb
    obtain ⟨-, hf⟩ := ite_none_right_eq_some.mp hs
    have hret := PipeSys.finish_ret (congrArg Prod.snd (some.inj hf))
    exact pipereadWait_zero hn hret
  | resume p killed =>
    obtain ⟨n, hp, hn⟩ := hb
    obtain ⟨-, hs⟩ := ite_none_left_eq_some.mp hs
    rw [hp] at hs
    exact pipereadWait_zero hn (PipeSys.finish_ret (congrArg Prod.snd (some.inj hs)))

/-- In every run the pipe is a queue of at most PIPESIZE bytes; a blocking read of at least one byte returns 0 only at
the end of file. -/
theorem pipeFifo {data : Nat → UInt8} {evs : List PipeEv}
    (h : Run (fun s e s' => ∃ v, PipeSys.step s e = some (s', v)) (.init data) evs s) :
    ahead s.pipe.nread s.pipe.nwrite ≤ pipesize ∧ s.pipe.taken ++ s.pipe.buffered = s.pipe.put ∧
      ∀ e s', s.step e = some (s', some 0) → s.BlockingRead e →
        s.pipe.nread = s.pipe.nwrite ∧ s.pipe.writeopen = false := by
  have hinv : s.pipe.Inv :=
    Run.inv (I := fun s => s.pipe.Inv) (fun _ _ _ hi ⟨_, hs⟩ => PipeSys.step_inv hi hs) h (.alloc data)
  exact ⟨hinv.bound, hinv.fifo, fun _ _ hs hb => PipeSys.step_eof hs hb⟩

/-- Three bytes are written and two of them read. -/
theorem pipeFifo_three : ∃ s, Run (fun s e s' => ∃ v, PipeSys.step s e = some (s', v)) (.init fun _ => 0)
    [.write 0 3 [1, 2, 3] false, .read 1 2 false false] s ∧ s.pipe.taken = [1, 2] ∧
    s.pipe.taken ++ s.pipe.buffered = s.pipe.put := by
  have hrun : Run (fun s e s' => ∃ v, PipeSys.step s e = some (s', v)) (.init fun _ => 0)
      [.write 0 3 [1, 2, 3] false, .read 1 2 false false] _ := .cons ⟨_, rfl⟩ (.cons ⟨_, rfl⟩ (.nil _))
  exact ⟨_, hrun, rfl, (pipeFifo hrun).2.1⟩

end

end InternetOs.Proc
