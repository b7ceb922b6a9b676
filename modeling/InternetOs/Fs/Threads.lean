import Mathlib
import InternetOs.Lib.Run
import InternetOs.Fs.Log

/-!
# System calls and the commit, interleaved

Any number of system calls use the buffer cache and the log at the same time, and the one that
ends the last operation commits while others may go on reading blocks.  A thread is stopped
between two calls into the cache or the log: `log_write` makes its two checks before it takes
the lock, and `commit` is the program `commitProg`, of which `commitStep` executes one
instruction.

    exec (commitProg log) = commit                                        (commit_eq)
    log_write = logCheck, then logRecord                                  (logWrite_eq)
    end_op = endOpLocked, the commit, endOpUnlock                         (endOp_eq)
-/

namespace InternetOs.Fs

open Kern

/-! ## The commit as a program -/

/-- What is left of a commit.  `install` is the `bwrite` of `install_trans`. -/
inductive Prog
  | done
  | bread (b : UInt32) (k : Nat → Prog)
  | memmove (dst src : Nat) (k : Prog)
  | head (buf : Nat) (k : Prog)
  | bwrite (i : Nat) (k : Prog)
  | install (i : Nat) (k : Prog)
  | bunpin (i : Nat) (k : Prog)
  | brelse (i : Nat) (k : Prog)
  | clear (k : Prog)

namespace Prog

/-- `body tail` for `cnt` values of `tail` from `from` on, then `k`. -/
def loop (body : Nat → Prog → Prog) (k : Prog) : Nat → Nat → Prog
  | _, 0 => k
  | tail, cnt + 1 => body tail (loop body k (tail + 1) cnt)

def writeLogBody (log : Log) (tail : Nat) (k : Prog) : Prog :=
  .bread (log.slot tail) fun dst => .bread (log.lh.block tail) fun src =>
    .memmove dst src (.bwrite dst (.brelse src (.brelse dst k)))

def installBody (log : Log) (tail : Nat) (k : Prog) : Prog :=
  .bread (log.slot tail) fun lbuf => .bread (log.lh.block tail) fun dbuf =>
    .memmove dbuf lbuf (.install dbuf (.bunpin dbuf (.brelse lbuf (.brelse dbuf k))))

def writeHead (log : Log) (k : Prog) : Prog :=
  .bread log.start fun buf => .head buf (.bwrite buf (.brelse buf k))

/-- Stores the header of the log in a buffer. -/
def putLh (buf : Nat) : K Unit := modify fun s => s.setData buf (putHead (s.bufs buf).data s.log.lh)

def exec (dev : UInt32) : Prog → K Unit
  | .done => pure ()
  | .bread b k => do
    let i ← Fs.bread dev b
    (k i).exec dev
  | .memmove dst src k => do
    Fs.memmove dst src
    k.exec dev
  | .head buf k => do
    putLh buf
    k.exec dev
  | .bwrite i k => do
    Fs.bwrite i
    k.exec dev
  | .install i k => do
    Fs.bwrite i
    k.exec dev
  | .bunpin i k => do
    Fs.bunpin i
    k.exec dev
  | .brelse i k => do
    Fs.brelse i
    k.exec dev
  | .clear k => do
    setLh fun lh => { lh with n := 0 }
    k.exec dev

end Prog

/-- `commit` with entries in the log. -/
def commitProg (log : Log) : Prog :=
  .loop (.writeLogBody log)
    (.writeHead log (.loop (.installBody log) (.clear (.writeHead log .done)) 0 log.lh.n.toNat))
    0 log.lh.n.toNat

/-! ## `log_write` and `end_op` in their atomic parts -/

/-- The checks of `log_write`, which it makes without the lock. -/
def logCheck : K Unit := do
  let log := (← get).log
  if log.lh.n ≥ logsize ∨ log.lh.n ≥ log.size - 1 then throw "too big a transaction"
  if log.outstanding < 1 then throw "log_write outside of trans"

/-- The rest of `log_write`. -/
def logRecord (b : Nat) : K Unit := do
  let log := (← get).log
  let blockno := ((← get).bufs b).blockno
  if log.lh.place blockno = log.lh.n.toNat then bpin b
  setLh fun lh => lh.record blockno

/-- `end_op` as far as it holds the lock; `true` if it has to commit. -/
def endOpLocked : K Bool := do
  modify fun s => { s with log := { s.log with outstanding := s.log.outstanding - 1 } }
  if (← get).log.committing then throw "log.committing"
  if (← get).log.outstanding = 0 then
    modify fun s => { s with log := { s.log with committing := true } }
    return true
  else return false

def endOpUnlock : K Unit := modify fun s => { s with log := { s.log with committing := false } }

theorem logWrite_eq (b : Nat) : logWrite b = logCheck >>= fun _ => logRecord b := by
  funext s
  unfold logWrite logCheck logRecord
  simp only [bind, EStateM.bind, get, getThe, MonadStateOf.get, EStateM.get, throw, throwThe,
    MonadExceptOf.throw, pure]
  split_ifs <;> rfl

/-- An operation has ended. -/
def Kern.ended (s : Kern) : Kern := { s with log := { s.log with outstanding := s.log.outstanding - 1 } }

def Kern.setCommitting (s : Kern) (c : Bool) : Kern := { s with log := { s.log with committing := c } }

theorem endOpLocked_run (s : Kern) : endOpLocked s = if s.log.committing then .error "log.committing" s.ended
    else if s.log.outstanding - 1 = 0 then .ok true (s.ended.setCommitting true)
    else .ok false s.ended := by
  unfold endOpLocked
  by_cases h1 : s.log.committing = true <;> by_cases h2 : s.log.outstanding - 1 = 0 <;>
    simp [bind, EStateM.bind, get, getThe, MonadStateOf.get, EStateM.get, throw, throwThe,
      MonadExceptOf.throw, EStateM.throw, pure, EStateM.pure, modify, modifyGet, MonadStateOf.modifyGet,
      EStateM.modifyGet, h1, h2, ended, setCommitting]

theorem endOp_eq :
    endOp = endOpLocked >>= fun last => if last then commit >>= fun _ => endOpUnlock else pure () := by
  funext s
  show _ = EStateM.bind _ _ s
  unfold EStateM.bind
  rw [endOpLocked_run]
  unfold endOp
  by_cases h1 : s.log.committing = true <;> by_cases h2 : s.log.outstanding - 1 = 0 <;>
    simp [bind, EStateM.bind, get, getThe, MonadStateOf.get, EStateM.get, throw, throwThe,
      MonadExceptOf.throw, EStateM.throw, pure, EStateM.pure, modify, modifyGet, MonadStateOf.modifyGet,
      EStateM.modifyGet, h1, h2, ended, setCommitting, endOpUnlock]

/-! ## The program is the function -/

section
variable {α β : Type} {dev : UInt32} {log : Log}

/-- The programs do the same where the log is `log`. -/
def SameOn (log : Log) (x y : K α) : Prop := ∀ s, s.log = log → x s = y s

/-- The program leaves the log alone. -/
def KeepsLog (x : K α) : Prop := ∀ s a s', x s = .ok a s' → s'.log = s.log

theorem SameOn.bind {x : K α} {f g : α → K β} (hx : KeepsLog x) (h : ∀ a, SameOn log (f a) (g a)) :
    SameOn log (x >>= f) (x >>= g) := by
  intro s hs
  show EStateM.bind x f s = EStateM.bind x g s
  unfold EStateM.bind
  cases hr : x s with
  | ok a s' => exact h a s' ((hx s a s' hr).trans hs)
  | error e s' => rfl

theorem KeepsLog.bind {x : K α} {f : α → K β} (hx : KeepsLog x) (hf : ∀ a, KeepsLog (f a)) :
    KeepsLog (x >>= f) := by
  intro s b s' hr
  obtain ⟨a, s1, hxs, hfs⟩ := bind_ok hr
  exact (hf a s1 b s' hfs).trans (hx s a s1 hxs)

theorem KeepsLog.modify {g : Kern → Kern} (hg : ∀ s, (g s).log = s.log) : KeepsLog (modify g : K Unit) := by
  intro s a s' hr
  cases hr
  exact hg s

theorem KeepsLog.pure (a : α) : KeepsLog (pure a : K α) := by
  intro s b s' hr
  cases hr
  rfl

theorem Kern.log_fill (s : Kern) (i : Nat) : (s.fill i).log = s.log := by
  unfold fill
  split <;> rfl

theorem Kern.log_toFront (s : Kern) (i : Nat) : (s.toFront i).log = s.log := by
  unfold toFront
  split <;> rfl

theorem keepsLog_bget (dev b : UInt32) : KeepsLog (bget dev b) := by
  intro s i s' hr
  unfold bget at hr
  split at hr
  · cases hr
    rfl
  · split at hr
    · cases hr
      rfl
    · cases hr

theorem keepsLog_bread (dev b : UInt32) : KeepsLog (bread dev b) :=
  (keepsLog_bget dev b).bind fun i =>
    (KeepsLog.modify fun s => s.log_fill i).bind fun _ => KeepsLog.pure i

theorem keepsLog_brelse (i : Nat) : KeepsLog (brelse i) :=
  KeepsLog.modify fun s => (s.addRef i (-1)).log_toFront i

theorem keepsLog_memmove (dst src : Nat) : KeepsLog (memmove dst src) :=
  KeepsLog.modify (g := fun s => s.setData dst (s.bufs src).data) fun _ => rfl

theorem keepsLog_bwrite (i : Nat) : KeepsLog (bwrite i) := KeepsLog.modify (g := (write · i)) fun _ => rfl

theorem keepsLog_bunpin (i : Nat) : KeepsLog (bunpin i) :=
  KeepsLog.modify (g := (addRef · i (-1))) fun _ => rfl

theorem keepsLog_putLh (buf : Nat) : KeepsLog (Prog.putLh buf) :=
  KeepsLog.modify (g := fun s => s.setData buf (putHead (s.bufs buf).data s.log.lh)) fun _ => rfl

theorem keepsLog_upto {body : Nat → K Unit} (h : ∀ tail, KeepsLog (body tail)) (cnt : Nat) :
    ∀ tail, KeepsLog (uptoFrom body tail cnt) := by
  induction cnt with
  | zero => exact fun _ => KeepsLog.pure ()
  | succ cnt ih => exact fun tail => (h tail).bind fun _ => ih (tail + 1)

namespace Prog

theorem exec_loop {body : Nat → Prog → Prog} {kbody : Nat → K Unit} {k : Prog}
    (h : ∀ tail k, (body tail k).exec dev = kbody tail >>= fun _ => k.exec dev) (cnt : Nat) :
    ∀ tail, (loop body k tail cnt).exec dev = uptoFrom kbody tail cnt >>= fun _ => k.exec dev := by
  induction cnt with
  | zero =>
    intro tail
    rfl
  | succ cnt ih =>
    intro tail
    rw [uptoFrom, loop, h, ih, bind_assoc]

theorem exec_writeHead {k : Prog} (hdev : log.dev = dev) :
    SameOn log ((writeHead log k).exec dev) (Fs.writeHead >>= fun _ => k.exec dev) := by
  intro s hs
  subst hs hdev
  have key : SameOn s.log
      (Fs.bread s.log.dev s.log.start >>= fun buf => putLh buf >>= fun _ => Fs.bwrite buf >>= fun _ =>
        Fs.brelse buf >>= fun _ => k.exec s.log.dev)
      (Fs.bread s.log.dev s.log.start >>= fun buf =>
        (modify fun s' => s'.setData buf (putHead (s'.bufs buf).data s.log.lh)) >>= fun _ =>
        Fs.bwrite buf >>= fun _ => Fs.brelse buf >>= fun _ => k.exec s.log.dev) := by
    refine SameOn.bind (keepsLog_bread _ _) fun buf s' hs' => ?_
    show EStateM.bind _ _ s' = EStateM.bind _ _ s'
    unfold putLh
    simp only [EStateM.bind, modify, modifyGet, MonadStateOf.modifyGet, EStateM.modifyGet, hs']
  refine (key s rfl).trans ?_
  unfold Fs.writeHead
  simp only [bind_assoc]
  rfl

end Prog

/-- The body of the loop of `write_log`. -/
def writeLogStep (log : Log) (tail : Nat) : K Unit := do
  let dst ← bread log.dev (log.slot tail)
  let src ← bread log.dev (log.lh.block tail)
  memmove dst src
  bwrite dst
  brelse src
  brelse dst

/-- The body of the loop of `install_trans`. -/
def installStep (log : Log) (tail : Nat) : K Unit := do
  let lbuf ← bread log.dev (log.slot tail)
  let dbuf ← bread log.dev (log.lh.block tail)
  memmove dbuf lbuf
  bwrite dbuf
  bunpin dbuf
  brelse lbuf
  brelse dbuf

theorem keepsLog_writeLogStep (log : Log) (tail : Nat) : KeepsLog (writeLogStep log tail) :=
  (keepsLog_bread _ _).bind fun dst => (keepsLog_bread _ _).bind fun src =>
    (keepsLog_memmove dst src).bind fun _ => (keepsLog_bwrite dst).bind fun _ =>
    (keepsLog_brelse src).bind fun _ => keepsLog_brelse dst

theorem keepsLog_installStep (log : Log) (tail : Nat) : KeepsLog (installStep log tail) :=
  (keepsLog_bread _ _).bind fun lbuf => (keepsLog_bread _ _).bind fun dbuf =>
    (keepsLog_memmove dbuf lbuf).bind fun _ => (keepsLog_bwrite dbuf).bind fun _ =>
    (keepsLog_bunpin dbuf).bind fun _ => (keepsLog_brelse lbuf).bind fun _ => keepsLog_brelse dbuf

theorem keepsLog_writeHead : KeepsLog writeHead := by
  intro s a s' hr
  have key : KeepsLog (bread s.log.dev s.log.start >>= fun buf =>
      (modify fun s' => s'.setData buf (putHead (s'.bufs buf).data s.log.lh)) >>= fun _ =>
      bwrite buf >>= fun _ => brelse buf) :=
    (keepsLog_bread _ _).bind fun buf =>
      (KeepsLog.modify (g := fun s' => s'.setData buf (putHead (s'.bufs buf).data s.log.lh)) fun _ => rfl).bind
      fun _ => (keepsLog_bwrite buf).bind fun _ => keepsLog_brelse buf
  exact key s a s' hr

theorem keepsLog_installTrans : KeepsLog installTrans := by
  intro s a s' hr
  exact keepsLog_upto (keepsLog_installStep s.log) s.log.lh.n.toNat 0 s a s' hr

theorem readHead_log {s s' : Kern} (h : readHead s = .ok () s') : ∃ lh, s'.log = { s.log with lh := lh } := by
  obtain ⟨buf, s1, h1, h⟩ := bind_ok (x := bread s.log.dev s.log.start) h
  obtain ⟨s1', s2, h2, h⟩ := bind_ok h
  cases h2
  obtain ⟨_, s3, h3, h⟩ := bind_ok h
  cases h3
  rw [keepsLog_brelse buf _ _ _ h]
  rw [← keepsLog_bread _ _ _ _ _ h1]
  exact ⟨_, rfl⟩

/-- **The program is `commit`.** -/
theorem commit_eq {s : Kern} (hn : 0 < s.log.lh.n) : (commitProg s.log).exec s.log.dev s = commit s := by
  have hlog : ∀ tail k, (Prog.writeLogBody s.log tail k).exec s.log.dev =
      writeLogStep s.log tail >>= fun _ => k.exec s.log.dev := by
    intro tail k
    simp only [Prog.writeLogBody, Prog.exec, writeLogStep, bind_assoc]
  have hinstall : ∀ tail k, (Prog.installBody s.log tail k).exec s.log.dev =
      installStep s.log tail >>= fun _ => k.exec s.log.dev := by
    intro tail k
    simp only [Prog.installBody, Prog.exec, installStep, bind_assoc]
  have hcommit : commit s = (writeLog >>= fun _ => writeHead >>= fun _ => installTrans >>= fun _ =>
      setLh (fun lh => { lh with n := 0 }) >>= fun _ => writeHead) s := by
    show (if s.log.lh.n > 0 then _ else _ : K Unit) s = _
    rw [if_pos hn]
  rw [hcommit]
  unfold commitProg
  rw [Prog.exec_loop hlog]
  -- where the log has not changed, each function reads the same entries as the program
  refine SameOn.bind (keepsLog_upto (keepsLog_writeLogStep s.log) _ 0) (fun _ s1 hs1 => ?_) s rfl
  refine (Prog.exec_writeHead rfl s1 hs1).trans ?_
  refine SameOn.bind keepsLog_writeHead (fun _ s2 hs2 => ?_) s1 hs1
  rw [Prog.exec_loop hinstall]
  have hi : (installTrans >>= fun _ => setLh (fun lh => { lh with n := 0 }) >>= fun _ => writeHead) s2 =
      (uptoFrom (installStep s.log) 0 s.log.lh.n.toNat >>= fun _ =>
        setLh (fun lh => { lh with n := 0 }) >>= fun _ => writeHead) s2 := by
    rw [← hs2]
    rfl
  rw [hi]
  refine SameOn.bind (keepsLog_upto (keepsLog_installStep s.log) _ 0) (fun _ s3 hs3 => ?_) s2 hs2
  have hdev : ({ s.log with lh := { s.log.lh with n := 0 } } : Log).dev = s.log.dev := rfl
  refine (Prog.exec_writeHead (k := .done) hdev
    { s3 with log := { s3.log with lh := { s3.log.lh with n := 0 } } } (by rw [hs3])).trans ?_
  show (writeHead >>= fun _ => pure ()) _ = writeHead _
  rw [bind_pure_unit]

theorem commit_eq_two : ∃ s : Kern, s.log.lh.n = 2 ∧ (commitProg s.log).exec s.log.dev s = commit s :=
  ⟨binit (fun _ _ => 0) ⟨2, 30, 0, true, 1, 2, fun i => UInt32.ofNat (60 + i)⟩, rfl, commit_eq two_pos⟩

end

/-! ## The system -/

/-- An operation between `begin_op` and `end_op`: the blocks it has logged, and the buffer of a
`log_write` that has passed its checks. -/
structure FsOp where
  blocks : List UInt32
  pending : Option Nat
deriving DecidableEq

/-- The kernel and what its threads are about.  `held` are the buffers that system calls have
read and not released, `mine` those of the committing thread with their blocks, `pins` those that
`log_write` has pinned and nobody has unpinned, `installed` the number of blocks that
`install_trans` has written. -/
structure Sys where
  kern : Kern
  held : List Nat
  mine : List (Nat × UInt32)
  pins : List Nat
  installed : Nat
  ops : List FsOp
  committer : Prog

inductive Call
  | beginOp
  | bread (dev b : UInt32)
  | store (i : Nat) (data : Block)
  | brelse (i : Nat)
  | logCheck (o i : Nat)
  | logRecord (o : Nat)
  | endOp (o : Nat)
  | commitStep

/-- The outcome of a program that does not panic. -/
def runK {α : Type} (x : K α) (s : Kern) : Option (α × Kern) :=
  match x s with
  | .ok a s' => some (a, s')
  | .error _ _ => none

namespace Sys

/-- One instruction of the committing thread. -/
def commitStep (s : Sys) : Option Sys :=
  match s.committer with
  | .done => (runK endOpUnlock s.kern).map fun r => { s with kern := r.2 }
  | .bread b k => (runK (Fs.bread s.kern.log.dev b) s.kern).map fun r =>
    { s with kern := r.2, mine := (r.1, b) :: s.mine, committer := k r.1 }
  | .memmove dst src k => (runK (Fs.memmove dst src) s.kern).map fun r =>
    { s with kern := r.2, committer := k }
  | .head buf k => (runK (Prog.putLh buf) s.kern).map fun r => { s with kern := r.2, committer := k }
  | .bwrite i k => (runK (Fs.bwrite i) s.kern).map fun r => { s with kern := r.2, committer := k }
  | .install i k => (runK (Fs.bwrite i) s.kern).map fun r =>
    { s with kern := r.2, committer := k, installed := s.installed + 1 }
  | .bunpin i k => (runK (Fs.bunpin i) s.kern).map fun r =>
    { s with kern := r.2, committer := k, pins := s.pins.erase i }
  | .brelse i k => (runK (Fs.brelse i) s.kern).map fun r =>
    { s with kern := r.2, committer := k, mine := s.mine.eraseP fun p => p.1 == i }
  | .clear k => (runK (setLh fun lh => { lh with n := 0 }) s.kern).map fun r =>
    { s with kern := r.2, committer := k, installed := 0 }

/-- A thread that has to sleep in `begin_op` changes nothing.  A buffer is released by the one who
has its lock, so not while its `log_write` is pending. -/
def step (s : Sys) : Call → Option Sys
  | .beginOp => (runK Fs.beginOp s.kern).map fun r =>
    { s with kern := r.2, ops := if r.1 then ⟨[], none⟩ :: s.ops else s.ops }
  | .bread dev b => (runK (Fs.bread dev b) s.kern).map fun r =>
    { s with kern := r.2, held := r.1 :: s.held }
  | .store i data =>
    if i ∈ s.held then some { s with kern := s.kern.setData i data } else none
  | .brelse i =>
    if i ∈ s.held ∧ ∀ op ∈ s.ops, op.pending ≠ some i then
      (runK (Fs.brelse i) s.kern).map fun r => { s with kern := r.2, held := s.held.erase i }
    else none
  | .logCheck o i =>
    match s.ops[o]? with
    | some ⟨blocks, none⟩ =>
      if i ∈ s.held ∧ (s.kern.bufs i).dev = s.kern.log.dev then
        (runK Fs.logCheck s.kern).map fun r => { s with kern := r.2, ops := s.ops.set o ⟨blocks, some i⟩ }
      else none
    | _ => none
  | .logRecord o =>
    match s.ops[o]? with
    | some ⟨blocks, some i⟩ =>
      (runK (Fs.logRecord i) s.kern).map fun r =>
        { s with
          kern := r.2
          pins := if s.kern.log.lh.n < r.2.log.lh.n then s.pins ++ [i] else s.pins
          ops := s.ops.set o ⟨blocks.insert (s.kern.bufs i).blockno, none⟩ }
    | _ => none
  | .endOp o =>
    match s.ops[o]? with
    | some ⟨_, none⟩ =>
      (runK endOpLocked s.kern).map fun r =>
        { s with
          kern := r.2
          ops := s.ops.eraseIdx o
          committer := if r.1 = true ∧ (0 : Int) < r.2.log.lh.n then commitProg r.2.log else s.committer }
    | _ => none
  | .commitStep => if s.kern.log.committing then s.commitStep else none

/-- The call leaves every operation with at most `k` different blocks. -/
def within (k : Nat) (s : Sys) : Call → Bool
  | .logRecord o =>
    match s.ops[o]? with
    | some ⟨blocks, some i⟩ => decide ((blocks.insert (s.kern.bufs i).blockno).length ≤ k)
    | _ => true
  | _ => true

end Sys

/-- `s` is what `initlog` leaves on a disk with the contents `image`. -/
def Boots (image : UInt32 → Block) (dev logstart : UInt32) (nlog : Int) (s : Sys) : Prop :=
  ∃ k, initlog dev logstart nlog (binit image Log.zero) = .ok () k ∧
    s = { kern := k, held := [], mine := [], pins := [], installed := 0, ops := [], committer := .done }

/-- The disk that is all zero, booted. -/
def freshSys : Sys :=
  { kern := endState (initlog 1 2 logsize) (binit (fun _ _ => 0) Log.zero), held := [], mine := [], pins := []
    installed := 0, ops := [], committer := .done }

theorem freshSys_boots : Boots (fun _ _ => 0) 1 2 logsize freshSys :=
  ⟨_, ok_endState (by decide +kernel), rfl⟩

/-! ## What the calls do to the log -/

theorem runK_eq_some {α : Type} {x : K α} {s : Kern} {r : α × Kern} : runK x s = some r ↔ x s = .ok r.1 r.2 := by
  unfold runK
  cases x s with
  | ok a s' =>
    constructor
    · intro h
      cases h
      rfl
    · intro h
      cases h
      rfl
  | error e s' => exact ⟨fun h => (by cases h), fun h => (by cases h)⟩

theorem logCheck_run (s : Kern) : logCheck s =
    if s.log.lh.n ≥ logsize ∨ s.log.lh.n ≥ s.log.size - 1 then .error "too big a transaction" s
    else if s.log.outstanding < 1 then .error "log_write outside of trans" s
    else .ok () s := by
  unfold logCheck
  by_cases h1 : s.log.lh.n ≥ logsize ∨ s.log.lh.n ≥ s.log.size - 1 <;> by_cases h2 : s.log.outstanding < 1 <;>
    simp only [bind, EStateM.bind, get, getThe, MonadStateOf.get, EStateM.get, throw, throwThe,
      MonadExceptOf.throw, EStateM.throw, pure, EStateM.pure, h1, h2, if_true, if_false]

/-- The block is recorded in the header. -/
def Kern.record (s : Kern) (blockno : UInt32) : Kern :=
  { s with log := { s.log with lh := s.log.lh.record blockno } }

theorem logRecord_run (i : Nat) (s : Kern) : logRecord i s =
    .ok () ((if s.log.lh.place (s.bufs i).blockno = s.log.lh.n.toNat then s.addRef i 1 else s).record
      (s.bufs i).blockno) := by
  unfold logRecord
  by_cases h1 : s.log.lh.place (s.bufs i).blockno = s.log.lh.n.toNat
  · show EStateM.bind _ _ s = _
    simp only [bind, EStateM.bind, get, getThe, MonadStateOf.get, EStateM.get, h1]
    rfl
  · show EStateM.bind _ _ s = _
    simp only [bind, EStateM.bind, get, getThe, MonadStateOf.get, EStateM.get, h1]
    rfl

/-- An operation has begun. -/
def Kern.begun (s : Kern) : Kern := { s with log := { s.log with outstanding := s.log.outstanding + 1 } }

theorem beginOp_run (s : Kern) : beginOp s =
    if s.log.committing ∨ s.log.lh.n + (s.log.outstanding + 1) * maxopblocks > logsize then .ok false s
    else .ok true s.begun := by
  unfold beginOp
  by_cases h1 : s.log.committing = true <;>
    by_cases h2 : s.log.lh.n + (s.log.outstanding + 1) * maxopblocks > logsize <;>
    simp [bind, EStateM.bind, get, getThe, MonadStateOf.get, EStateM.get, pure, EStateM.pure, modify, modifyGet,
      MonadStateOf.modifyGet, EStateM.modifyGet, h1, h2, begun]

end InternetOs.Fs
