import InternetOs.Lib.Run

/-!
# The disk driver (`kernel/dev/virtio_disk.c`)

The driver's side of the virtio queue, the device, and the processes that are in the middle of `virtio_disk_rw`.  The
steps are the critical sections of `virtio_disk_rw` (from `acquire` or the return of `sleep` to the next `sleep` or to
the end), single turns of the loop of `virtio_disk_intr`, and those of the device: it takes the next available chain, or
completes one of those it has taken.  A process that sleeps may be woken at any time, an interrupt may come at any time.

Callers hold the sleep lock of their buffer, so no two are in `virtio_disk_rw` with the same one; `busy` says for which
buffers that is so.  What the request header and the data hold, and the lengths of the descriptors, is left out.
-/

namespace InternetOs.Dev

open Function

/-- `NUM`. -/
def numDesc : Nat := 8

/-- Where a descriptor points: nowhere, to a request header, to the data of a buffer or to `info[i].status`. -/
inductive DescAddr
  | zero
  | outhdr
  | data (b : Nat)
  | status (i : Nat)
  deriving DecidableEq, Repr

structure VRingDesc where
  addr : DescAddr
  flags : UInt16
  next : Nat
  deriving DecidableEq, Repr

/-- `VRING_DESC_F_NEXT`. -/
def vringDescFNext : UInt16 := 1

/-- `VRING_DESC_F_WRITE`. -/
def vringDescFWrite : UInt16 := 2

/-- `struct disk`: `avail[1]` and `avail[2...]`, `used->id` and `used->elems[...].id`, and the driver's own records. -/
structure Disk where
  desc : Nat → VRingDesc
  availIdx : UInt16
  availRing : Nat → Nat
  usedId : UInt16
  usedElems : Nat → Nat
  free : Nat → Bool
  usedIdx : Nat
  infoB : Nat → Nat
  infoStatus : Nat → UInt8

/-- The panics: the two of `free_desc`, that of `virtio_disk_intr`, and a null buffer there. -/
inductive DiskPanic
  | intr1
  | intr2
  | status
  | null
  deriving DecidableEq, Repr

/-! ## Descriptors -/

def allocDesc (d : Disk) : Option (Nat × Disk) :=
  ((List.range numDesc).find? d.free).map fun i => (i, { d with free := update d.free i false })

def freeDesc (d : Disk) (i : Nat) : Except DiskPanic Disk :=
  if numDesc ≤ i then .error .intr1
  else if d.free i then .error .intr2
  else .ok { d with desc := update d.desc i { d.desc i with addr := .zero }, free := update d.free i true }

/-- `free_chain`.  A chain of more than NUM descriptors meets one of them again, which is free by then. -/
def freeChain : Nat → Disk → Nat → Except DiskPanic Disk
  | 0, _, _ => .error .intr2
  | fuel + 1, d, i => do
    let d ← freeDesc d i
    if (d.desc i).flags &&& vringDescFNext ≠ 0 then freeChain fuel d (d.desc i).next else pure d

/-- The loop of `alloc3_desc`: `k` more descriptors behind `idx`, or all of them are given back. -/
def allocLoop : Nat → List Nat → Disk → Except DiskPanic (Disk × Option (List Nat))
  | 0, idx, d => pure (d, some idx)
  | k + 1, idx, d =>
    match allocDesc d with
    | none => do
      let d ← idx.foldlM freeDesc d
      pure (d, none)
    | some (i, d) => allocLoop k (idx ++ [i]) d

def alloc3Desc (d : Disk) : Except DiskPanic (Disk × Option (List Nat)) := allocLoop 3 [] d

/-- `virtio_disk_rw` from the formatting of the descriptors to the notification of the device. -/
def submit (d : Disk) (b : Nat) (write : Bool) (i0 i1 i2 : Nat) : Disk :=
  let desc := update d.desc i0 { addr := .outhdr, flags := vringDescFNext, next := i1 }
  let desc := update desc i1
    { addr := .data b, flags := (if write then 0 else vringDescFWrite) ||| vringDescFNext, next := i2 }
  let desc := update desc i2 { addr := .status i0, flags := vringDescFWrite, next := 0 }
  { d with
    desc := desc
    infoStatus := update d.infoStatus i0 0
    infoB := update d.infoB i0 b
    availRing := update d.availRing (d.availIdx.toNat % numDesc) i0
    availIdx := d.availIdx + 1 }

/-! ## The system -/

/-- A request in flight: its buffer, its descriptors, and its number (a ghost). -/
structure Req where
  b : Nat
  i0 : Nat
  i1 : Nat
  i2 : Nat
  num : Nat
  deriving DecidableEq, Repr

def Req.descs (r : Req) : List Nat := [r.i0, r.i1, r.i2]

/-- Where a process is: outside, asleep for want of descriptors, or asleep until its request is done. -/
inductive RwPlace
  | user
  | waitDesc (b : Nat) (write : Bool)
  | waitDone (r : Req)
  deriving DecidableEq, Repr

/-- The buffer a process is in `virtio_disk_rw` with. -/
def RwPlace.buf : RwPlace → Option Nat
  | .user => none
  | .waitDesc b _ => some b
  | .waitDone r => some r.b

/-- A chain the device has taken: its first descriptor, and where the status goes. -/
structure Flight where
  id : Nat
  status : Option Nat
  num : Nat
  deriving DecidableEq, Repr

/-- The driver, `b->disk` for each buffer, the processes and the device.  Ghosts: the number of requests, the number
of the request that starts at a descriptor, and the requests completed by the device and noticed by the driver. -/
structure DiskSys where
  disk : Disk
  bufDisk : Nat → Bool
  place : Nat → RwPlace
  busy : Nat → Bool
  lastAvail : UInt16
  inflight : List Flight
  count : Nat
  numAt : Nat → Nat
  completed : List Nat
  noticed : List Nat

/-- As `virtio_disk_init` leaves it. -/
def DiskSys.init : DiskSys :=
  { disk :=
      { desc := fun _ => { addr := .zero, flags := 0, next := 0 }, availIdx := 0, availRing := fun _ => 0, usedId := 0
        usedElems := fun _ => 0, free := fun _ => true, usedIdx := 0, infoB := fun _ => 0, infoStatus := fun _ => 0 }
    bufDisk := fun _ => false, place := fun _ => .user, busy := fun _ => false, lastAvail := 0, inflight := []
    count := 0, numAt := fun _ => 0, completed := [], noticed := [] }

/-- The last descriptor of a chain, as the device follows it. -/
def lastDesc (desc : Nat → VRingDesc) : Nat → Nat → Nat
  | 0, i => i
  | fuel + 1, i => if (desc i).flags &&& vringDescFNext ≠ 0 then lastDesc desc fuel (desc i).next else i

/-- The status byte a descriptor points to. -/
def DescAddr.statusOf : DescAddr → Option Nat
  | .status i => some i
  | _ => none

inductive DiskEv
  | rw (p b : Nat) (write : Bool)
  | resume (p : Nat)
  | consume
  | complete (k : Nat) (status : UInt8)
  | intr

/-- A turn of the allocation loop of `virtio_disk_rw`. -/
def DiskSys.tryRw (s : DiskSys) (p b : Nat) (write : Bool) : Except DiskPanic DiskSys := do
  let r ← alloc3Desc s.disk
  match r.2 with
  | none => pure { s with disk := r.1, place := update s.place p (.waitDesc b write) }
  | some idx =>
    let i0 := idx.getD 0 0
    let i1 := idx.getD 1 0
    let i2 := idx.getD 2 0
    pure { s with
      disk := submit r.1 b write i0 i1 i2
      bufDisk := update s.bufDisk b true
      place := update s.place p (.waitDone ⟨b, i0, i1, i2, s.count⟩)
      count := s.count + 1
      numAt := update s.numAt i0 s.count }

/-- The end of `virtio_disk_rw`. -/
def DiskSys.finish (s : DiskSys) (p : Nat) (r : Req) : Except DiskPanic DiskSys := do
  let d ← freeChain (numDesc + 1) { s.disk with infoB := update s.disk.infoB r.i0 0 } r.i0
  pure { s with disk := d, place := update s.place p .user, busy := update s.busy r.b false }

/-- The device takes the next chain. -/
def DiskSys.consume (s : DiskSys) : DiskSys :=
  let id := s.disk.availRing (s.lastAvail.toNat % numDesc)
  let status := (s.disk.desc (lastDesc s.disk.desc numDesc id)).addr.statusOf
  { s with lastAvail := s.lastAvail + 1, inflight := s.inflight ++ [⟨id, status, s.numAt id⟩] }

/-- The device completes the `k`-th of the chains it has taken. -/
def DiskSys.complete (s : DiskSys) (k : Nat) (f : Flight) (status : UInt8) : DiskSys :=
  let infoStatus := match f.status with
    | some i => update s.disk.infoStatus i status
    | none => s.disk.infoStatus
  { s with
    disk := { s.disk with
      infoStatus := infoStatus
      usedElems := update s.disk.usedElems (s.disk.usedId.toNat % numDesc) f.id
      usedId := s.disk.usedId + 1 }
    inflight := s.inflight.eraseIdx k
    completed := s.completed ++ [f.num] }

/-- A turn of the loop of `virtio_disk_intr`. -/
def DiskSys.intr (s : DiskSys) : Except DiskPanic DiskSys :=
  let id := s.disk.usedElems s.disk.usedIdx
  if s.disk.infoStatus id ≠ 0 then .error .status
  else if s.disk.infoB id = 0 then .error .null
  else .ok { s with
    bufDisk := update s.bufDisk (s.disk.infoB id) false
    disk := { s.disk with usedIdx := (s.disk.usedIdx + 1) % numDesc }
    noticed := s.noticed ++ [s.numAt id] }

/-- The condition of that loop. -/
def Disk.pending (d : Disk) : Prop := d.usedIdx % numDesc ≠ d.usedId.toNat % numDesc

instance (d : Disk) : Decidable d.pending := by
  unfold Disk.pending
  infer_instance

/-- A step; `none` if it cannot be taken. -/
def DiskSys.step (s : DiskSys) : DiskEv → Option (Except DiskPanic DiskSys)
  | .rw p b write =>
    if s.place p = .user ∧ b ≠ 0 ∧ s.busy b = false then
      some ({ s with busy := update s.busy b true }.tryRw p b write) else none
  | .resume p =>
    match s.place p with
    | .user => none
    | .waitDesc b write => some (s.tryRw p b write)
    | .waitDone r => if s.bufDisk r.b then some (.ok s) else some (s.finish p r)
  | .consume => if s.lastAvail = s.disk.availIdx then none else some (.ok s.consume)
  | .complete k status => s.inflight[k]?.map fun f => .ok (s.complete k f status)
  | .intr => if s.disk.pending then some s.intr else none

end InternetOs.Dev
