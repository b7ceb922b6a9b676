import InternetOs.Fs.Bio

/-!
# The log (`kernel/fs/log.c`)

The functions of the log over the buffer cache, and how the header block reads.  A loop
`for (tail = 0; tail < log.lh.n; tail++)` is `upto`.

    headN (putHead b lh) = lh.n,  headBlock (putHead b lh) i = lh.block i      (headN_putHead, headBlock_putHead)
-/

namespace InternetOs.Fs

open List

/-- `LOGSIZE`. -/
def logsize : Nat := 30

/-- `MAXOPBLOCKS`. -/
def maxopblocks : Int := 10

/-! ## The header block -/

def getByte (b : Block) (j : Nat) : UInt8 := if h : j < bsize then b ⟨j, h⟩ else 0

/-- The 32-bit word number `i` of a block, little endian. -/
def getWord (b : Block) (i : Nat) : UInt32 :=
  UInt32.ofNat ((getByte b (4 * i)).toNat + 256 * (getByte b (4 * i + 1)).toNat +
    65536 * (getByte b (4 * i + 2)).toNat + 16777216 * (getByte b (4 * i + 3)).toNat)

def setWord (b : Block) (i : Nat) (w : UInt32) : Block := fun x =>
  if x.val / 4 = i then UInt8.ofNat (w.toNat / 256 ^ (x.val % 4)) else b x

/-- `hb->n = log.lh.n`, then the loop over `hb->block`. -/
def putHead (b : Block) (lh : LogHeader) : Block :=
  (range lh.n.toNat).foldl (fun b i => setWord b (i + 1) (lh.block i))
    (setWord b 0 (Int32.ofInt lh.n).toUInt32)

/-- The header without entries; what `block` held stays. -/
def clearHead (b : Block) : Block := setWord b 0 0

/-- `lh->n`. -/
def headN (b : Block) : Int := (getWord b 0).toInt32.toInt

/-- `lh->block[i]`. -/
def headBlock (b : Block) (i : Nat) : UInt32 := getWord b (i + 1)

/-! ## The functions -/

def setLh (f : LogHeader → LogHeader) : K Unit :=
  modify fun s => { s with log := { s.log with lh := f s.log.lh } }

/-- The block of the log for entry number `tail`. -/
def Log.slot (log : Log) (tail : Nat) : UInt32 := log.start + UInt32.ofNat (tail + 1)

def installTrans : K Unit := do
  let log := (← get).log
  upto (fun tail => do
    let lbuf ← bread log.dev (log.slot tail)
    let dbuf ← bread log.dev (log.lh.block tail)
    memmove dbuf lbuf
    bwrite dbuf
    bunpin dbuf
    brelse lbuf
    brelse dbuf) log.lh.n.toNat

def readHead : K Unit := do
  let log := (← get).log
  let buf ← bread log.dev log.start
  let data := ((← get).bufs buf).data
  setLh fun lh =>
    { n := headN data, block := fun i => if (i : Int) < headN data then headBlock data i else lh.block i }
  brelse buf

def writeHead : K Unit := do
  let log := (← get).log
  let buf ← bread log.dev log.start
  modify fun s => s.setData buf (putHead (s.bufs buf).data log.lh)
  bwrite buf
  brelse buf

def recoverFromLog : K Unit := do
  readHead
  installTrans
  setLh fun lh => { lh with n := 0 }
  writeHead

/-- `initlog`, with the fields of the superblock it reads. -/
def initlog (dev logstart : UInt32) (nlog : Int) : K Unit := do
  modify fun s => { s with log := { s.log with start := logstart, size := nlog, dev := dev } }
  recoverFromLog

def writeLog : K Unit := do
  let log := (← get).log
  upto (fun tail => do
    let dst ← bread log.dev (log.slot tail)
    let src ← bread log.dev (log.lh.block tail)
    memmove dst src
    bwrite dst
    brelse src
    brelse dst) log.lh.n.toNat

def commit : K Unit := do
  if (← get).log.lh.n > 0 then
    writeLog
    writeHead
    installTrans
    setLh fun lh => { lh with n := 0 }
    writeHead

/-- `begin_op`; `false` if it has to sleep. -/
def beginOp : K Bool := do
  let log := (← get).log
  if log.committing then return false
  else if log.lh.n + (log.outstanding + 1) * maxopblocks > logsize then return false
  else
    modify fun s => { s with log := { s.log with outstanding := s.log.outstanding + 1 } }
    return true

def endOp : K Unit := do
  modify fun s => { s with log := { s.log with outstanding := s.log.outstanding - 1 } }
  if (← get).log.committing then throw "log.committing"
  if (← get).log.outstanding = 0 then
    modify fun s => { s with log := { s.log with committing := true } }
    commit
    modify fun s => { s with log := { s.log with committing := false } }

/-- The place of a block in the header, or the place after the last. -/
def LogHeader.place (lh : LogHeader) (blockno : UInt32) : Nat :=
  ((range lh.n.toNat).find? fun i => lh.block i == blockno).getD lh.n.toNat

/-- A block is recorded where it is already, or after the last. -/
def LogHeader.record (lh : LogHeader) (blockno : UInt32) : LogHeader :=
  { n := if lh.place blockno = lh.n.toNat then lh.n + 1 else lh.n
    block := Function.update lh.block (lh.place blockno) blockno }

def logWrite (b : Nat) : K Unit := do
  let log := (← get).log
  if log.lh.n ≥ logsize ∨ log.lh.n ≥ log.size - 1 then throw "too big a transaction"
  if log.outstanding < 1 then throw "log_write outside of trans"
  let blockno := ((← get).bufs b).blockno
  if log.lh.place blockno = log.lh.n.toNat then bpin b
  setLh fun lh => lh.record blockno

/-- The kernel when `binit` is called: the log is all zero. -/
def Log.zero : Log :=
  { start := 0, size := 0, outstanding := 0, committing := false, dev := 0, lh := { n := 0, block := fun _ => 0 } }

/-- A header with one entry, for block 60. -/
def oneEntry : UInt32 → Block := fun b => if b = 2 then setWord (setWord (fun _ => 0) 0 1) 1 60 else fun _ => 0

/-! ## Reading back the header -/

section
variable {b : Block} {i j : Nat}

theorem getByte_setWord_ne {w : UInt32} {x : Nat} (h : x / 4 ≠ i) : getByte (setWord b i w) x = getByte b x := by
  unfold getByte setWord
  by_cases hx : x < bsize
  · rw [dif_pos hx, dif_pos hx]
    exact if_neg h
  · rw [dif_neg hx, dif_neg hx]

theorem getWord_setWord_ne (w : UInt32) (h : i ≠ j) : getWord (setWord b i w) j = getWord b j := by
  unfold getWord
  rw [getByte_setWord_ne (by omega), getByte_setWord_ne (by omega), getByte_setWord_ne (by omega),
    getByte_setWord_ne (by omega)]

theorem getByte_setWord {w : UInt32} {r : Nat} (hi : i < 256) (hr : r < 4) :
    (getByte (setWord b i w) (4 * i + r)).toNat = w.toNat / 256 ^ r % 256 := by
  have hlt : 4 * i + r < bsize := by unfold bsize; omega
  unfold getByte setWord
  rw [dif_pos hlt]
  dsimp only
  rw [if_pos (by omega), show (4 * i + r) % 4 = r by omega]
  simp

theorem getWord_setWord (w : UInt32) (hi : i < 256) : getWord (setWord b i w) i = w := by
  unfold getWord
  have h0 := getByte_setWord (b := b) (w := w) hi (show 0 < 4 by decide)
  rw [add_zero] at h0
  rw [h0, getByte_setWord hi (by decide), getByte_setWord hi (by decide), getByte_setWord hi (by decide)]
  have hw : w.toNat < 4294967296 := w.toNat_lt
  have hsum : w.toNat / 256 ^ 0 % 256 + 256 * (w.toNat / 256 ^ 1 % 256) + 65536 * (w.toNat / 256 ^ 2 % 256) +
      16777216 * (w.toNat / 256 ^ 3 % 256) = w.toNat := by
    norm_num
    omega
  rw [hsum]
  exact UInt32.ofNat_toNat

theorem getWord_foldl (f : Nat → UInt32) (n : Nat) (hn : n < 256) :
    getWord ((range n).foldl (fun b i => setWord b (i + 1) (f i)) b) j =
      if 0 < j ∧ j ≤ n then f (j - 1) else getWord b j := by
  induction n with
  | zero =>
    rw [if_neg (by omega)]
    rfl
  | succ n ih =>
    rw [range_succ, foldl_append, foldl_cons, foldl_nil]
    by_cases hj : j = n + 1
    · subst hj
      rw [getWord_setWord _ hn, if_pos (by omega)]
      rfl
    · rw [getWord_setWord_ne _ (Ne.symm hj), ih (by omega)]
      by_cases hlt : 0 < j ∧ j ≤ n
      · rw [if_pos hlt, if_pos (by omega)]
      · rw [if_neg hlt, if_neg (by omega)]

theorem headN_putHead {lh : LogHeader} (h0 : 0 ≤ lh.n) (hn : lh.n ≤ 29) : headN (putHead b lh) = lh.n := by
  unfold headN putHead
  rw [getWord_foldl _ _ (by omega), if_neg (by omega), getWord_setWord _ (by decide)]
  rw [Int32.toInt32_toUInt32, Int32.toInt_ofInt_of_le (by omega) (by omega)]

theorem headN_clearHead : headN (clearHead b) = 0 := by
  rfl

theorem headBlock_putHead {lh : LogHeader} (hn : lh.n ≤ 29) (hi : (i : Int) < lh.n) :
    headBlock (putHead b lh) i = lh.block i := by
  unfold headBlock putHead
  rw [getWord_foldl _ _ (by omega), if_pos (by omega)]
  rfl

/-! ## Log absorption -/

theorem LogHeader.place_spec (lh : LogHeader) (blockno : UInt32) :
    (lh.place blockno < lh.n.toNat ∧ lh.block (lh.place blockno) = blockno) ∨
      (lh.place blockno = lh.n.toNat ∧ ∀ i < lh.n.toNat, lh.block i ≠ blockno) := by
  unfold LogHeader.place
  cases hf : (range lh.n.toNat).find? fun i => lh.block i == blockno with
  | some i =>
    have hi := mem_range.mp (mem_of_find?_eq_some hf)
    have hp := find?_some hf
    exact .inl ⟨hi, by simpa using hp⟩
  | none =>
    refine .inr ⟨rfl, fun i hi => ?_⟩
    simpa using find?_eq_none.mp hf i (mem_range.mpr hi)

end

end InternetOs.Fs
