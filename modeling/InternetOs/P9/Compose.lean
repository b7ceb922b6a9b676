import InternetOs.Lib.Codec
import InternetOs.P9.Parse

/-!
# Replies (`user/9psv/utils/fcompose.c`, `utils/fsize.c`, `utils/string.c`, `fcalls/*.c`)

`p9_getfcallsize` says how long a reply is, by a table of functions of its own; `composefcall` writes
it, by another.  Both are compared with the format: `RMsg.payload` is what follows the header of a
message, and `getReply` reads a message back.

    composefcall writes p9_getfcallsize bytes, which are read back as the reply,
      and compose_stat the size of the stat and 2                          (composeDecodes)
-/

namespace InternetOs.P9

/-! ## The fields of a reply -/

/-- A C string: null, or the bytes before the terminating 0. -/
abbrev CStr := Option (List UInt8)

/-- `struct p9_qid`. -/
structure Qid where
  path : UInt64
  vers : UInt32
  type : UInt8
  deriving DecidableEq

/-- `struct p9_stat`. -/
structure P9Stat where
  size : Nat
  type : UInt16
  dev : UInt32
  qid : Qid
  mode : UInt32
  atime : UInt32
  mtime : UInt32
  length : UInt64
  name : CStr
  uid : CStr
  gid : CStr
  muid : CStr

/-- The `ofcall` of a request.  The members of the union that a reply of the type does not have are not
looked at. -/
structure Ofcall where
  size : UInt32
  type : UInt8
  tag : UInt16
  msize : UInt32
  version : CStr
  ename : CStr
  qid : Qid
  iounit : UInt32
  nwqid : UInt16
  wqid : Vector Qid maxwelem
  count : UInt32
  data : List UInt8
  parlen : UInt16
  nstat : UInt16
  stat : Option P9Stat

/-! ## Writing -/

/-- Bytes one after the other; the pointer behind them. -/
def wrAll : List UInt8 → Nat → P9M Nat
  | [], p => pure p
  | b :: bs, p => do
    wr p b
    wrAll bs (p + 1)

/-- `PBIT8`, and the others, with the pointer moved on. -/
def pbit8 (v : UInt8) : Nat → P9M Nat := wrAll [v]

def pbit16 (v : UInt16) : Nat → P9M Nat := wrAll [v.toUInt8, (v >>> 8).toUInt8]

def pbit32 (v : UInt32) : Nat → P9M Nat :=
  wrAll [v.toUInt8, (v >>> 8).toUInt8, (v >>> 16).toUInt8, (v >>> 24).toUInt8]

def pbit64 (v : UInt64) : Nat → P9M Nat :=
  wrAll [v.toUInt8, (v >>> 8).toUInt8, (v >>> 16).toUInt8, (v >>> 24).toUInt8,
    (v >>> 32).toUInt8, (v >>> 40).toUInt8, (v >>> 48).toUInt8, (v >>> 56).toUInt8]

/-- `p9_pstring`. -/
def p9Pstring (s : CStr) (p : Nat) : P9M Nat := match s with
  | none => pbit16 0 p
  | some s => do
    let p ← pbit16 (UInt16.ofNat s.length) p
    wrAll s p

/-- The three lines that write a qid. -/
def putQid (qid : Qid) (p : Nat) : P9M Nat := do
  let p ← pbit8 qid.type p
  let p ← pbit32 qid.vers p
  pbit64 qid.path p

/-- A composer; the source returns 0, here the pointer behind the last byte is returned. -/
abbrev Composer := Ofcall → Nat → P9M Nat

def composeRversion : Composer := fun f p => do
  let p ← pbit32 f.msize p
  p9Pstring f.version p

def composeRattach : Composer := fun f => putQid f.qid

def composeRerror : Composer := fun f => p9Pstring f.ename

/-- `compose_rflush`, `compose_rclunk`, `compose_rremove` and `compose_rwstat`. -/
def composeEmpty : Composer := fun _ p => pure p

def composeRflush : Composer := composeEmpty
def composeRclunk : Composer := composeEmpty
def composeRremove : Composer := composeEmpty
def composeRwstat : Composer := composeEmpty

/-- The loop of `compose_rwalk`, from `wqid[i]` on. -/
def putQids (wqid : Vector Qid maxwelem) : Nat → Nat → Nat → P9M Nat
  | 0, _, p => pure p
  | n + 1, i, p => match wqid.toList[i]? with
    | none => throw .outside
    | some qid => do
      let p ← putQid qid p
      putQids wqid n (i + 1) p

def composeRwalk : Composer := fun f p => do
  let p ← pbit16 f.nwqid p
  putQids f.wqid f.nwqid.toNat 0 p

/-- `compose_ropen` and `compose_rcreate`. -/
def composeQidIounit : Composer := fun f p => do
  let p ← putQid f.qid p
  pbit32 f.iounit p

def composeRopen : Composer := composeQidIounit
def composeRcreate : Composer := composeQidIounit

/-- The loop of `compose_rread`, from `data[i]` on. -/
def putData (data : List UInt8) : Nat → Nat → Nat → P9M Nat
  | 0, _, p => pure p
  | n + 1, i, p => match data[i]? with
    | none => throw .outside
    | some b => do
      let p ← pbit8 b p
      putData data n (i + 1) p

def composeRread : Composer := fun f p => do
  let p ← pbit32 f.count p
  putData f.data f.count.toNat 0 p

def composeRwrite : Composer := fun f => pbit32 f.count

/-- The lines that `compose_rstat` and `compose_stat` share. -/
def putStat (stat : P9Stat) (p : Nat) : P9M Nat := do
  let p ← pbit16 stat.type p
  let p ← pbit32 stat.dev p
  let p ← putQid stat.qid p
  let p ← pbit32 stat.mode p
  let p ← pbit32 stat.atime p
  let p ← pbit32 stat.mtime p
  let p ← pbit64 stat.length p
  let p ← p9Pstring stat.name p
  let p ← p9Pstring stat.uid p
  let p ← p9Pstring stat.gid p
  p9Pstring stat.muid p

def composeRstat : Composer := fun f p => do
  let p ← pbit16 f.parlen p
  let p ← pbit16 f.nstat p
  match f.stat with
  | none => throw .null
  | some stat => putStat stat p

/-- The record of an entry of a directory. -/
def composeStat (stat : P9Stat) (p : Nat) : P9M Nat := do
  let p ← pbit16 (UInt16.ofNat stat.size) p
  putStat stat p

/-- The table, for the types of replies. -/
def composefunc : Nat → Option Composer
  | 101 => some composeRversion
  | 103 => some composeEmpty
  | 105 => some composeRattach
  | 107 => some composeRerror
  | 109 => some composeRflush
  | 111 => some composeRwalk
  | 113 => some composeRopen
  | 115 => some composeRcreate
  | 117 => some composeRread
  | 119 => some composeRwrite
  | 121 => some composeRclunk
  | 123 => some composeRremove
  | 125 => some composeRstat
  | 127 => some composeRwstat
  | _ => none

/-- `composefcall`, into the buffer from its start. -/
def composefcall (f : Ofcall) : P9M Unit := do
  let p ← pbit32 f.size 0
  let p ← pbit8 f.type p
  let p ← pbit16 f.tag p
  match composefunc f.type.toNat with
  | none => throw .nofunc
  | some compose =>
    let _ ← compose f p
    pure ()

/-! ## Sizes -/

/-- `p9_stringsz`. -/
def p9Stringsz : CStr → UInt16
  | none => 2
  | some s => UInt16.ofNat (2 + s.length)

/-- A size, an `int`, as it is added to a `uint32_t`. -/
abbrev Sizer := Ofcall → UInt32

def sizeRversion : Sizer := fun f => 4 + (p9Stringsz f.version).toUInt32
def sizeRauth : Sizer := fun _ => 13
def sizeRattach : Sizer := fun _ => 13
def sizeRerror : Sizer := fun f => (p9Stringsz f.ename).toUInt32
def sizeRflush : Sizer := fun _ => 0
def sizeRwalk : Sizer := fun f => 2 + f.nwqid.toUInt32 * 13
def sizeRopen : Sizer := fun _ => 13 + 4
def sizeRcreate : Sizer := fun _ => 13 + 4
def sizeRread : Sizer := fun f => 4 + f.count
def sizeRwrite : Sizer := fun _ => 4
def sizeRclunk : Sizer := fun _ => 0
def sizeRremove : Sizer := fun _ => 0
def sizeRstat : Sizer := fun f => 2 + f.parlen.toUInt32
def sizeRwstat : Sizer := fun _ => 0

/-- The table, for the types of replies. -/
def sizefunc : Nat → Option Sizer
  | 101 => some sizeRversion
  | 103 => some sizeRauth
  | 105 => some sizeRattach
  | 107 => some sizeRerror
  | 109 => some sizeRflush
  | 111 => some sizeRwalk
  | 113 => some sizeRopen
  | 115 => some sizeRcreate
  | 117 => some sizeRread
  | 119 => some sizeRwrite
  | 121 => some sizeRclunk
  | 123 => some sizeRremove
  | 125 => some sizeRstat
  | 127 => some sizeRwstat
  | _ => none

/-- `p9_getfcallsize`; `none` where it calls through an empty slot. -/
def p9Getfcallsize (f : Ofcall) : Option UInt32 := (sizefunc f.type.toNat).map fun size => 4 + 1 + 2 + size f

/-! ## The stat of a file -/

/-- `struct stat`. -/
structure Stat where
  dev : UInt32
  ino : UInt32
  type : UInt16
  size : UInt64

/-- `T_DIR`. -/
def tDir : UInt16 := 1

/-- `to_qid_type`, with `P9_ODIR`. -/
def toQidType (t : UInt16) : UInt8 := if t &&& tDir ≠ 0 then 0x80 else 0

/-- `p9_getfilename`: what is behind the last `/`. -/
def p9Getfilename (path : List UInt8) : List UInt8 := (path.reverse.takeWhile (· ≠ 47)).reverse

/-- The bytes of a string in the source. -/
def cbytes (s : String) : List UInt8 := s.toList.map fun c => UInt8.ofNat c.toNat

/-- What `p9_getstat` fills in from the result of `fstat`. -/
def p9StatOf (st : Stat) (path : List UInt8) : P9Stat :=
  let name := p9Getfilename path
  let uid := cbytes "nobody"
  let gid := []
  let muid := []
  { type := 0
    dev := st.dev
    qid := { path := st.ino.toUInt64, vers := 0, type := toQidType st.type }
    mode := (st.type &&& tDir).toUInt32 <<< 31 + 0x1ff
    atime := 0
    mtime := 0
    length := if st.type &&& tDir ≠ 0 then 0 else st.size
    name := some name
    uid := some uid
    gid := some gid
    muid := some muid
    size := 41 - 2 + name.length + uid.length + gid.length + muid.length + 2 * 4 }

/-! ## The format -/

/-- The stat of a file as it is sent. -/
structure Dir where
  type : UInt16
  dev : UInt32
  qid : Qid
  mode : UInt32
  atime : UInt32
  mtime : UInt32
  length : UInt64
  name : List UInt8
  uid : List UInt8
  gid : List UInt8
  muid : List UInt8
  deriving DecidableEq

/-- An R-message. -/
inductive RMsg
  | version (msize : UInt32) (version : List UInt8)
  | attach (qid : Qid)
  | error (ename : List UInt8)
  | flush
  | walk (wqid : List Qid)
  | ropen (qid : Qid) (iounit : UInt32)
  | create (qid : Qid) (iounit : UInt32)
  | read (data : List UInt8)
  | write (count : UInt32)
  | clunk
  | remove
  | stat (stat : Dir)
  | wstat
  deriving DecidableEq

def encodeQid (qid : Qid) : List UInt8 := [qid.type] ++ (leBytes 4 qid.vers.toNat ++ leBytes 8 qid.path.toNat)

/-- A stat behind its size. -/
def Dir.fields (d : Dir) : List UInt8 :=
  leBytes 2 d.type.toNat ++ (leBytes 4 d.dev.toNat ++ (encodeQid d.qid ++ (leBytes 4 d.mode.toNat ++
    (leBytes 4 d.atime.toNat ++ (leBytes 4 d.mtime.toNat ++ (leBytes 8 d.length.toNat ++ (encodeString d.name ++
      (encodeString d.uid ++ (encodeString d.gid ++ encodeString d.muid)))))))))

/-- A stat with its size in front. -/
def Dir.encode (d : Dir) : List UInt8 := leBytes 2 d.fields.length ++ d.fields

namespace RMsg

def type : RMsg → UInt8
  | version _ _ => 101
  | attach _ => 105
  | error _ => 107
  | flush => 109
  | walk _ => 111
  | ropen _ _ => 113
  | create _ _ => 115
  | read _ => 117
  | write _ => 119
  | clunk => 121
  | remove => 123
  | stat _ => 125
  | wstat => 127

/-- What follows the header. -/
def payload : RMsg → List UInt8
  | version msize s => leBytes 4 msize.toNat ++ encodeString s
  | attach qid => encodeQid qid
  | error ename => encodeString ename
  | walk wqid => leBytes 2 wqid.length ++ wqid.flatMap encodeQid
  | ropen qid iounit | create qid iounit => encodeQid qid ++ leBytes 4 iounit.toNat
  | read data => leBytes 4 data.length ++ data
  | write count => leBytes 4 count.toNat
  | stat d => leBytes 2 d.encode.length ++ d.encode
  | flush | clunk | remove | wstat => []

end RMsg

def getString : Get UInt8 (List UInt8) := do
  let n ← getLe 2
  getBytes n

def getQid : Get UInt8 Qid := do
  let type ← getU8
  let vers ← getU32
  let path ← getU64
  pure { path := path, vers := vers, type := type }

/-- A counted part of the message, read as a whole by `g`. -/
def getCounted {α : Type} (g : Get UInt8 α) : Get UInt8 α := do
  let n ← getLe 2
  let l ← getBytes n
  StateT.lift (g.all l)

def getDir : Get UInt8 Dir := getCounted do
  let type ← getU16
  let dev ← getU32
  let qid ← getQid
  let mode ← getU32
  let atime ← getU32
  let mtime ← getU32
  let length ← getU64
  let name ← getString
  let uid ← getString
  let gid ← getString
  let muid ← getString
  pure { type, dev, qid, mode, atime, mtime, length, name, uid, gid, muid }

/-- What follows the header, of a message of the type. -/
def getPayload : Nat → Get UInt8 RMsg
  | 101 => do
    let msize ← getU32
    let version ← getString
    pure (.version msize version)
  | 105 => do pure (.attach (← getQid))
  | 107 => do pure (.error (← getString))
  | 109 => pure .flush
  | 111 => do
    let n ← getLe 2
    pure (.walk (← getMany getQid n))
  | 113 => do
    let qid ← getQid
    pure (.ropen qid (← getU32))
  | 115 => do
    let qid ← getQid
    pure (.create qid (← getU32))
  | 117 => do
    let n ← getLe 4
    pure (.read (← getBytes n))
  | 119 => do pure (.write (← getU32))
  | 121 => pure .clunk
  | 123 => pure .remove
  | 125 => do pure (.stat (← getCounted getDir))
  | 127 => pure .wstat
  | _ => failure

/-- The size, tag and message in the bytes. -/
def getReply : Get UInt8 (UInt32 × UInt16 × RMsg) := do
  let size ← getU32
  let type ← getU8
  let tag ← getU16
  let m ← getPayload type.toNat
  pure (size, tag, m)

/-! ## What the writers write -/

/-- The buffer with `bytes` at `p`. -/
def splice (buf : List UInt8) (p : Nat) (bytes : List UInt8) : List UInt8 :=
  buf.take p ++ bytes ++ buf.drop (p + bytes.length)

variable {buf : List UInt8} {p : Nat} {m : RMsg}

theorem length_splice {bytes : List UInt8} (h : p + bytes.length ≤ buf.length) :
    (splice buf p bytes).length = buf.length := by
  simp [splice]
  omega

theorem splice_nil (buf : List UInt8) (p : Nat) : splice buf p [] = buf := by
  simp [splice]

theorem splice_splice {bytes : List UInt8} (h : p + bytes.length ≤ buf.length) (bytes' : List UInt8) :
    splice (splice buf p bytes) (p + bytes.length) bytes' = splice buf p (bytes ++ bytes') := by
  have hpre : (buf.take p ++ bytes).length = p + bytes.length := by
    rw [List.length_append, List.length_take]
    omega
  have htake : (splice buf p bytes).take (p + bytes.length) = buf.take p ++ bytes := by
    rw [splice, List.take_left' hpre]
  have hdrop : (splice buf p bytes).drop (p + bytes.length + bytes'.length) =
      buf.drop (p + (bytes ++ bytes').length) := by
    rw [splice, ← List.drop_drop, List.drop_left' hpre, List.drop_drop, List.length_append, add_assoc]
  rw [splice, htake, hdrop, splice, List.append_assoc (buf.take p)]

/-- The program puts `bytes` where it is told to and returns the pointer behind them; it faults if they do not fit. -/
def Writes (x : Nat → P9M Nat) (bytes : List UInt8) : Prop := ∀ p buf, p ≤ buf.length →
  (p + bytes.length ≤ buf.length → x p buf = .ok (p + bytes.length) (splice buf p bytes)) ∧
    (buf.length < p + bytes.length → Faults (x p) buf)

theorem Writes.pure : Writes (fun p => Pure.pure p) [] := by
  intro p buf hp
  refine ⟨fun _ => ?_, fun h => absurd hp (by simpa using h)⟩
  rw [splice_nil]
  rfl

theorem Writes.bind {x y : Nat → P9M Nat} {a b : List UInt8} (hx : Writes x a) (hy : Writes y b) :
    Writes (fun p => x p >>= y) (a ++ b) := by
  intro p buf hp
  rw [List.length_append]
  obtain ⟨hok, hbad⟩ := hx p buf hp
  by_cases ha : p + a.length ≤ buf.length
  · have hlen := length_splice ha
    obtain ⟨hok', hbad'⟩ := hy (p + a.length) (splice buf p a) (by omega)
    rw [hlen, add_assoc] at hok' hbad'
    refine ⟨fun h => ?_, fun h => Faults.bind_of_ok (hok ha) (hbad' h)⟩
    change (x p >>= y) buf = _
    rw [bind_of_ok (hok ha), hok' h, splice_splice ha]
  · exact ⟨fun h => absurd h (by omega), fun _ => (hbad (by omega)).bind⟩

theorem Writes.congr {x : Nat → P9M Nat} {a b : List UInt8} (hx : Writes x a) (h : a = b) : Writes x b := h ▸ hx

theorem wr_at (h : p < buf.length) (b : UInt8) : wr p b buf = .ok () (splice buf p [b]) := by
  unfold wr
  rw [bind_of_ok (rfl : (get : P9M _) buf = .ok buf buf), if_pos h]
  have hset : buf.set p b = splice buf p [b] := by
    rw [List.set_eq_take_append_cons_drop, if_pos h]
    simp [splice]
  rw [← hset]
  rfl

theorem wrAll_writes (bytes : List UInt8) : Writes (wrAll bytes) bytes := by
  induction bytes with
  | nil => exact Writes.pure
  | cons b bytes ih =>
    have hb : Writes (fun p => do wr p b; Pure.pure (p + 1)) [b] := by
      intro p buf hp
      refine ⟨fun h => ?_, fun h => Faults.bind ?_⟩
      · change (wr p b >>= fun _ => Pure.pure (p + 1)) buf = _
        rw [bind_of_ok (wr_at h b)]
        rfl
      · refine ⟨.outside, buf, ?_⟩
        unfold wr
        rw [bind_of_ok (rfl : (get : P9M _) buf = .ok buf buf), if_neg (by rw [List.length_singleton] at h; omega)]
        rfl
    have key : wrAll (b :: bytes) = fun p => (do wr p b; Pure.pure (p + 1)) >>= wrAll bytes := by
      funext p
      rw [wrAll]
      simp
    rw [key]
    exact hb.bind ih

theorem pbit8_writes (v : UInt8) : Writes (pbit8 v) [v] := wrAll_writes _

theorem pbit16_writes (v : UInt16) : Writes (pbit16 v) (leBytes 2 v.toNat) := (wrAll_writes _).congr (leBytes_u16 v)

theorem pbit32_writes (v : UInt32) : Writes (pbit32 v) (leBytes 4 v.toNat) := (wrAll_writes _).congr (leBytes_u32 v)

theorem pbit64_writes (v : UInt64) : Writes (pbit64 v) (leBytes 8 v.toNat) := (wrAll_writes _).congr (leBytes_u64 v)

theorem putQid_writes (qid : Qid) : Writes (putQid qid) (encodeQid qid) :=
  (pbit8_writes _).bind ((pbit32_writes _).bind (pbit64_writes _))

/-- The string a pointer stands for on the wire. -/
def CStr.bytes (s : CStr) : List UInt8 := s.getD []

theorem p9Pstring_writes {s : CStr} (h : s.bytes.length < 2 ^ 16) : Writes (p9Pstring s) (encodeString s.bytes) := by
  cases s with
  | none => exact (pbit16_writes 0).congr rfl
  | some s =>
    refine ((pbit16_writes (UInt16.ofNat s.length)).bind (wrAll_writes s)).congr ?_
    rw [show (UInt16.ofNat s.length).toNat = s.length from UInt16.toNat_ofNat_of_lt' h]
    rfl

theorem putQids_writes (wqid : Vector Qid maxwelem) (n i : Nat) (h : i + n ≤ maxwelem) :
    Writes (putQids wqid n i) (((wqid.toList.drop i).take n).flatMap encodeQid) := by
  induction n generalizing i with
  | zero => exact Writes.pure
  | succ n ih =>
    have hi : i < wqid.toList.length := by
      rw [Vector.length_toList]
      omega
    have hcons : (wqid.toList.drop i).take (n + 1) = wqid.toList[i] :: (wqid.toList.drop (i + 1)).take n := by
      rw [List.drop_eq_getElem_cons hi, List.take_succ_cons]
    have hput : putQids wqid (n + 1) i = fun p => putQid wqid.toList[i] p >>= putQids wqid n (i + 1) := by
      funext p
      rw [putQids, List.getElem?_eq_getElem hi]
    rw [hcons, hput]
    exact (putQid_writes _).bind (ih (i + 1) (by omega))

theorem putData_writes (data : List UInt8) (n i : Nat) (h : i + n ≤ data.length) :
    Writes (putData data n i) ((data.drop i).take n) := by
  induction n generalizing i with
  | zero => exact Writes.pure
  | succ n ih =>
    have hi : i < data.length := by omega
    have hput : putData data (n + 1) i = fun p => pbit8 data[i] p >>= putData data n (i + 1) := by
      funext p
      rw [putData, List.getElem?_eq_getElem hi]
    rw [List.drop_eq_getElem_cons hi, hput]
    exact (pbit8_writes data[i]).bind (ih (i + 1) (by omega))

/-- What is sent of a stat. -/
def P9Stat.dir (s : P9Stat) : Dir :=
  { type := s.type, dev := s.dev, qid := s.qid, mode := s.mode, atime := s.atime, mtime := s.mtime,
    length := s.length, name := s.name.bytes, uid := s.uid.bytes, gid := s.gid.bytes, muid := s.muid.bytes }

/-- The strings of a stat are not too long to be counted. -/
structure P9Stat.Short (s : P9Stat) : Prop where
  name : s.name.bytes.length < 2 ^ 16
  uid : s.uid.bytes.length < 2 ^ 16
  gid : s.gid.bytes.length < 2 ^ 16
  muid : s.muid.bytes.length < 2 ^ 16

theorem putStat_writes {s : P9Stat} (h : s.Short) : Writes (putStat s) s.dir.fields :=
  (pbit16_writes _).bind ((pbit32_writes _).bind ((putQid_writes _).bind ((pbit32_writes _).bind
    ((pbit32_writes _).bind ((pbit32_writes _).bind ((pbit64_writes _).bind ((p9Pstring_writes h.name).bind
      ((p9Pstring_writes h.uid).bind ((p9Pstring_writes h.gid).bind (p9Pstring_writes h.muid))))))))))

/-! ## What is read back -/

theorem decodes_string {s : List UInt8} (h : s.length < 2 ^ 16) : Decodes getString (encodeString s) s :=
  (decodes_le (w := 2) h).bind (decodes_bytes s)

theorem decodes_qid (qid : Qid) : Decodes getQid (encodeQid qid) qid :=
  (decodes_u8 _).bind ((decodes_u32 _).bind ((decodes_u64 _).map (Qid.mk · qid.vers qid.type)))

theorem decodes_counted {α : Type} {g : Get UInt8 α} {l : List UInt8} {a : α} (h : Decodes g l a)
    (hl : l.length < 2 ^ 16) : Decodes (getCounted g) (leBytes 2 l.length ++ l) a := by
  have hall : Decodes (StateT.lift (g.all l) : Get UInt8 α) [] a := by
    intro rest
    rw [h.all]
    rfl
  have hl' : Decodes (getBytes l.length >>= fun l => StateT.lift (g.all l)) (l ++ []) a := (decodes_bytes l).bind hall
  rw [List.append_nil] at hl'
  exact (decodes_le (w := 2) hl).bind hl'

theorem Dir.length_fields (d : Dir) :
    d.fields.length = 47 + d.name.length + d.uid.length + d.gid.length + d.muid.length := by
  simp [fields, encodeQid, encodeString]
  omega

theorem decodes_dir {d : Dir} (h : d.fields.length < 2 ^ 16) : Decodes getDir d.encode d := by
  have hlen := d.length_fields
  refine decodes_counted ?_ h
  exact (decodes_u16 _).bind ((decodes_u32 _).bind ((decodes_qid _).bind ((decodes_u32 _).bind ((decodes_u32 _).bind
    ((decodes_u32 _).bind ((decodes_u64 _).bind ((decodes_string (by omega)).bind ((decodes_string (by omega)).bind
      ((decodes_string (by omega)).bind ((decodes_string (by omega)).map _))))))))))

/-- The counts of a message are not too large for their fields. -/
def RMsg.Short : RMsg → Prop
  | version _ s | error s => s.length < 2 ^ 16
  | walk wqid => wqid.length < 2 ^ 16
  | read data => data.length < 2 ^ 31
  | stat d => d.encode.length < 2 ^ 16
  | _ => True

theorem decodes_payload (h : m.Short) : Decodes (getPayload m.type.toNat) m.payload m := by
  cases m with
  | version msize s => exact (decodes_u32 msize).bind ((decodes_string h).map _)
  | attach qid => exact (decodes_qid qid).map _
  | error ename => exact (decodes_string h).map _
  | walk wqid => exact (decodes_le (w := 2) h).bind ((decodes_many decodes_qid wqid).map _)
  | ropen qid iounit | create qid iounit => exact (decodes_qid qid).bind ((decodes_u32 iounit).map _)
  | read data => exact (decodes_le (w := 4) (lt_trans h (by decide))).bind ((decodes_bytes data).map _)
  | write count => exact (decodes_u32 count).map _
  | stat d =>
    have hlen : d.encode.length = 2 + d.fields.length := by simp [Dir.encode]
    have hshort : d.encode.length < 2 ^ 16 := h
    exact (decodes_counted (decodes_dir (by omega)) h).map _
  | flush | clunk | remove | wstat => exact Decodes.pure _

/-- **The bytes of a message.** -/
def RMsg.encode (tag : UInt16) (m : RMsg) : List UInt8 :=
  leBytes 4 (7 + m.payload.length) ++ ([m.type] ++ (leBytes 2 tag.toNat ++ m.payload))

theorem RMsg.length_encode (m : RMsg) (tag : UInt16) : (m.encode tag).length = 7 + m.payload.length := by
  simp [encode]
  omega

theorem length_qids (l : List Qid) : (l.flatMap encodeQid).length = l.length * 13 := by
  simp [encodeQid]

theorem RMsg.Short.length_payload (h : m.Short) : m.payload.length < 2 ^ 31 + 4 := by
  cases m with
  | version _ s | error s =>
    have hs : s.length < 2 ^ 16 := h
    simp [payload, encodeString]
    omega
  | walk wqid =>
    have hs : wqid.length < 2 ^ 16 := h
    simp only [payload, List.length_append, length_leBytes, length_qids]
    omega
  | read data =>
    have hs : data.length < 2 ^ 31 := h
    simp [payload]
    omega
  | stat d =>
    have hs : d.encode.length < 2 ^ 16 := h
    simp only [payload, List.length_append, length_leBytes]
    omega
  | _ => simp [payload, encodeQid]

theorem decodes_reply (h : m.Short) (tag : UInt16) :
    Decodes getReply (m.encode tag) (UInt32.ofNat (m.encode tag).length, tag, m) := by
  have hsize : (UInt32.ofNat (7 + m.payload.length)).toNat = 7 + m.payload.length :=
    UInt32.toNat_ofNat_of_lt' (by
      have : UInt32.size = 4294967296 := rfl
      have := h.length_payload
      omega)
  have hfirst := decodes_u32 (UInt32.ofNat (7 + m.payload.length))
  rw [hsize] at hfirst
  rw [m.length_encode]
  exact hfirst.bind ((decodes_u8 _).bind ((decodes_u16 tag).bind ((decodes_payload h).map _)))

/-! ## The reply that is written -/

/-- The message a reply is. -/
def Ofcall.msg (f : Ofcall) : Option RMsg := match f.type.toNat with
  | 101 => some (.version f.msize f.version.bytes)
  | 105 => some (.attach f.qid)
  | 107 => some (.error f.ename.bytes)
  | 109 => some .flush
  | 111 => some (.walk (f.wqid.toList.take f.nwqid.toNat))
  | 113 => some (.ropen f.qid f.iounit)
  | 115 => some (.create f.qid f.iounit)
  | 117 => some (.read f.data)
  | 119 => some (.write f.count)
  | 121 => some .clunk
  | 123 => some .remove
  | 125 => f.stat.map fun stat => .stat stat.dir
  | 127 => some .wstat
  | _ => none

/-- The replies that are to be written: of a type that is answered with, strings that can be counted, at most 16
qids, all of the data, and a stat that `p9_getstat` filled with its size as `rstat` sets it. -/
structure Ofcall.Proper (f : Ofcall) : Prop where
  known : f.type.toNat ∈ [101, 105, 107, 109, 111, 113, 115, 117, 119, 121, 123, 125, 127]
  version : f.type.toNat = 101 → f.version.bytes.length < 65000
  ename : f.type.toNat = 107 → f.ename.bytes.length < 65000
  walk : f.type.toNat = 111 → f.nwqid.toNat ≤ maxwelem
  read : f.type.toNat = 117 → f.count.toNat = f.data.length ∧ f.count.toNat < 2 ^ 31 - 16
  stat : f.type.toNat = 125 → ∃ st path, (p9Getfilename path).length < 65000 ∧ f.stat = some (p9StatOf st path) ∧
    f.nstat = UInt16.ofNat (p9StatOf st path).size ∧ f.parlen = UInt16.ofNat ((p9StatOf st path).size + 2)

/-- The two tables agree with the format on a reply. -/
structure Ofcall.Composed (f : Ofcall) (m : RMsg) : Prop where
  msg : f.msg = some m
  type : m.type = f.type
  short : m.Short
  size : ∃ size, sizefunc f.type.toNat = some size ∧ (size f).toNat = m.payload.length
  compose : ∃ compose, composefunc f.type.toNat = some compose ∧ Writes (compose f) m.payload

section
variable {f : Ofcall} {path : List UInt8} {m : RMsg}

theorem toNat_p9Stringsz {s : CStr} (h : s.bytes.length < 65000) : (p9Stringsz s).toNat = 2 + s.bytes.length := by
  cases s with
  | none => rfl
  | some s =>
    have hs : s.length < 65000 := h
    exact UInt16.toNat_ofNat_of_lt' (by
      have : UInt16.size = 65536 := rfl
      omega)

theorem type_eq {t : UInt8} {n : Nat} (h : t.toNat = n) (v : UInt8) (hv : v.toNat = n) : v = t :=
  UInt8.toNat_inj.mp (hv.trans h.symm)

theorem composed_version (ht : f.type.toNat = 101) (h : f.version.bytes.length < 65000) :
    f.Composed (.version f.msize f.version.bytes) where
  msg := by simp [Ofcall.msg, ht]
  type := type_eq ht _ rfl
  short := lt_trans h (by decide)
  size := by
    refine ⟨sizeRversion, by rw [ht]; rfl, ?_⟩
    rw [sizeRversion, UInt32.toNat_add, UInt16.toNat_toUInt32, toNat_p9Stringsz h]
    simp [RMsg.payload, encodeString]
    omega
  compose := ⟨composeRversion, by rw [ht]; rfl, (pbit32_writes _).bind (p9Pstring_writes (lt_trans h (by decide)))⟩

theorem composed_error (ht : f.type.toNat = 107) (h : f.ename.bytes.length < 65000) :
    f.Composed (.error f.ename.bytes) where
  msg := by simp [Ofcall.msg, ht]
  type := type_eq ht _ rfl
  short := lt_trans h (by decide)
  size := by
    refine ⟨sizeRerror, by rw [ht]; rfl, ?_⟩
    rw [sizeRerror, UInt16.toNat_toUInt32, toNat_p9Stringsz h]
    simp [RMsg.payload, encodeString]
  compose := ⟨composeRerror, by rw [ht]; rfl, p9Pstring_writes (lt_trans h (by decide))⟩

theorem composed_walk (ht : f.type.toNat = 111) (h : f.nwqid.toNat ≤ maxwelem) :
    f.Composed (.walk (f.wqid.toList.take f.nwqid.toNat)) := by
  have hlen : (f.wqid.toList.take f.nwqid.toNat).length = f.nwqid.toNat := by
    rw [List.length_take, Vector.length_toList]
    omega
  have hpay : (RMsg.walk (f.wqid.toList.take f.nwqid.toNat)).payload =
      leBytes 2 f.nwqid.toNat ++ ((f.wqid.toList.drop 0).take f.nwqid.toNat).flatMap encodeQid := by
    rw [RMsg.payload, hlen, List.drop_zero]
  refine ⟨by simp [Ofcall.msg, ht], type_eq ht _ rfl, ?_, ⟨sizeRwalk, by rw [ht]; rfl, ?_⟩,
    ⟨composeRwalk, by rw [ht]; rfl, ?_⟩⟩
  · change (f.wqid.toList.take f.nwqid.toNat).length < 2 ^ 16
    rw [hlen]
    exact f.nwqid.toNat_lt
  · have h16 : f.nwqid.toNat ≤ 16 := h
    rw [hpay, List.drop_zero, List.length_append, length_leBytes, length_qids, hlen, sizeRwalk, UInt32.toNat_add,
      UInt32.toNat_mul, UInt16.toNat_toUInt32]
    change (2 + f.nwqid.toNat * 13 % 2 ^ 32) % 2 ^ 32 = _
    omega
  · rw [hpay]
    exact (pbit16_writes _).bind (putQids_writes _ _ 0 (by omega))

theorem composed_read (ht : f.type.toNat = 117) (h : f.count.toNat = f.data.length)
    (hlt : f.count.toNat < 2 ^ 31 - 16) : f.Composed (.read f.data) := by
  have hpay : (RMsg.read f.data).payload = leBytes 4 f.count.toNat ++ (f.data.drop 0).take f.count.toNat := by
    rw [RMsg.payload, h, List.drop_zero, List.take_length]
  refine ⟨by simp [Ofcall.msg, ht], type_eq ht _ rfl, ?_, ⟨sizeRread, by rw [ht]; rfl, ?_⟩,
    ⟨composeRread, by rw [ht]; rfl, ?_⟩⟩
  · change f.data.length < 2 ^ 31
    omega
  · rw [RMsg.payload, List.length_append, length_leBytes]
    change (4 + f.count.toNat) % 2 ^ 32 = _
    omega
  · rw [hpay]
    exact (pbit32_writes _).bind (putData_writes _ _ 0 (by omega))

theorem p9StatOf_size (st : Stat) (path : List UInt8) :
    (p9StatOf st path).size = (p9StatOf st path).dir.fields.length := by
  rw [Dir.length_fields]
  simp only [p9StatOf, P9Stat.dir, CStr.bytes, Option.getD_some]
  omega

theorem p9StatOf_size_lt (st : Stat) (h : (p9Getfilename path).length < 65000) : (p9StatOf st path).size < 65100 := by
  have huid : (cbytes "nobody").length = 6 := by decide
  simp only [p9StatOf, List.length_nil]
  omega

theorem p9StatOf_short {st : Stat} (h : (p9Getfilename path).length < 65000) : (p9StatOf st path).Short :=
  ⟨lt_trans h (by decide), (by decide : (cbytes "nobody").length < 2 ^ 16), (by decide : 0 < 2 ^ 16),
    (by decide : 0 < 2 ^ 16)⟩

theorem p9StatOf_encode (st : Stat) (path : List UInt8) :
    (p9StatOf st path).dir.encode.length = (p9StatOf st path).size + 2 := by
  rw [Dir.encode, List.length_append, length_leBytes, ← p9StatOf_size, add_comm]

theorem composeStat_writes (st : Stat) (h : (p9Getfilename path).length < 65000) :
    Writes (composeStat (p9StatOf st path)) (p9StatOf st path).dir.encode := by
  have h16 : UInt16.size = 65536 := rfl
  have hlt := p9StatOf_size_lt st h
  have hfirst := pbit16_writes (UInt16.ofNat (p9StatOf st path).size)
  rw [UInt16.toNat_ofNat_of_lt' (by omega)] at hfirst
  rw [Dir.encode, ← p9StatOf_size]
  exact hfirst.bind (putStat_writes (p9StatOf_short h))

theorem composed_stat {st : Stat} (ht : f.type.toNat = 125) (h : (p9Getfilename path).length < 65000)
    (hstat : f.stat = some (p9StatOf st path)) (hn : f.nstat = UInt16.ofNat (p9StatOf st path).size)
    (hp : f.parlen = UInt16.ofNat ((p9StatOf st path).size + 2)) : f.Composed (.stat (p9StatOf st path).dir) := by
  have hlt := p9StatOf_size_lt st h
  have hsize := p9StatOf_size st path
  have h16 : UInt16.size = 65536 := rfl
  have hn' : f.nstat.toNat = (p9StatOf st path).size := by rw [hn, UInt16.toNat_ofNat_of_lt' (by omega)]
  have hp' : f.parlen.toNat = (p9StatOf st path).size + 2 := by rw [hp, UInt16.toNat_ofNat_of_lt' (by omega)]
  have henc := p9StatOf_encode st path
  have hpay : (RMsg.stat (p9StatOf st path).dir).payload =
      leBytes 2 f.parlen.toNat ++ (leBytes 2 f.nstat.toNat ++ (p9StatOf st path).dir.fields) := by
    rw [RMsg.payload, henc, Dir.encode, ← hsize, hn', hp']
  refine ⟨by simp [Ofcall.msg, ht, hstat], type_eq ht _ rfl, ?_, ⟨sizeRstat, by rw [ht]; rfl, ?_⟩,
    ⟨composeRstat, by rw [ht]; rfl, ?_⟩⟩
  · change (p9StatOf st path).dir.encode.length < 2 ^ 16
    omega
  · rw [hpay, List.length_append, List.length_append, length_leBytes, length_leBytes, ← hsize, sizeRstat,
      UInt32.toNat_add, UInt16.toNat_toUInt32, hp']
    change (2 + ((p9StatOf st path).size + 2)) % 2 ^ 32 = _
    omega
  · rw [hpay]
    unfold composeRstat
    rw [hstat]
    exact (pbit16_writes _).bind ((pbit16_writes _).bind (putStat_writes (p9StatOf_short h)))

theorem Ofcall.Proper.composed (h : f.Proper) : ∃ m, f.Composed m := by
  have hk := h.known
  simp only [List.mem_cons, List.not_mem_nil, or_false] at hk
  rcases hk with ht | ht | ht | ht | ht | ht | ht | ht | ht | ht | ht | ht | ht
  · exact ⟨_, composed_version ht (h.version ht)⟩
  · exact ⟨.attach f.qid, by simp [msg, ht], type_eq ht _ rfl, trivial, ⟨sizeRattach, by rw [ht]; rfl, rfl⟩,
      ⟨composeRattach, by rw [ht]; rfl, putQid_writes _⟩⟩
  · exact ⟨_, composed_error ht (h.ename ht)⟩
  · exact ⟨.flush, by simp [msg, ht], type_eq ht _ rfl, trivial, ⟨sizeRflush, by rw [ht]; rfl, rfl⟩,
      ⟨composeRflush, by rw [ht]; rfl, Writes.pure⟩⟩
  · exact ⟨_, composed_walk ht (h.walk ht)⟩
  · exact ⟨.ropen f.qid f.iounit, by simp [msg, ht], type_eq ht _ rfl, trivial, ⟨sizeRopen, by rw [ht]; rfl, rfl⟩,
      ⟨composeRopen, by rw [ht]; rfl, (putQid_writes _).bind (pbit32_writes _)⟩⟩
  · exact ⟨.create f.qid f.iounit, by simp [msg, ht], type_eq ht _ rfl, trivial, ⟨sizeRcreate, by rw [ht]; rfl, rfl⟩,
      ⟨composeRcreate, by rw [ht]; rfl, (putQid_writes _).bind (pbit32_writes _)⟩⟩
  · obtain ⟨hcount, hlt⟩ := h.read ht
    exact ⟨_, composed_read ht hcount hlt⟩
  · exact ⟨.write f.count, by simp [msg, ht], type_eq ht _ rfl, trivial, ⟨sizeRwrite, by rw [ht]; rfl, rfl⟩,
      ⟨composeRwrite, by rw [ht]; rfl, pbit32_writes _⟩⟩
  · exact ⟨.clunk, by simp [msg, ht], type_eq ht _ rfl, trivial, ⟨sizeRclunk, by rw [ht]; rfl, rfl⟩,
      ⟨composeRclunk, by rw [ht]; rfl, Writes.pure⟩⟩
  · exact ⟨.remove, by simp [msg, ht], type_eq ht _ rfl, trivial, ⟨sizeRremove, by rw [ht]; rfl, rfl⟩,
      ⟨composeRremove, by rw [ht]; rfl, Writes.pure⟩⟩
  · obtain ⟨st, path, hname, hstat, hn, hp⟩ := h.stat ht
    exact ⟨_, composed_stat ht hname hstat hn hp⟩
  · exact ⟨.wstat, by simp [msg, ht], type_eq ht _ rfl, trivial, ⟨sizeRwstat, by rw [ht]; rfl, rfl⟩,
      ⟨composeRwstat, by rw [ht]; rfl, Writes.pure⟩⟩

theorem Ofcall.Composed.getfcallsize (h : f.Composed m) :
    p9Getfcallsize f = some (UInt32.ofNat (7 + m.payload.length)) := by
  obtain ⟨size, hs, hsize⟩ := h.size
  rw [p9Getfcallsize, hs, Option.map_some]
  congr 1
  apply UInt32.toNat_inj.mp
  rw [UInt32.toNat_add, hsize]
  rfl

theorem Ofcall.Composed.toNat_size (h : f.Composed m) :
    (UInt32.ofNat (7 + m.payload.length)).toNat = 7 + m.payload.length :=
  UInt32.toNat_ofNat_of_lt' (by
    have : UInt32.size = 4294967296 := rfl
    have := h.short.length_payload
    omega)

/-- With its size filled in, the reply is written as the format has it; if it does not fit there is a fault. -/
theorem Ofcall.Composed.composefcall (h : f.Composed m) (hsize : f.size = UInt32.ofNat (7 + m.payload.length))
    (buf : List UInt8) : ((m.encode f.tag).length ≤ buf.length →
        P9.composefcall f buf = .ok () (m.encode f.tag ++ buf.drop (m.encode f.tag).length)) ∧
      (buf.length < (m.encode f.tag).length → Faults (P9.composefcall f) buf) := by
  obtain ⟨compose, hc, hw⟩ := h.compose
  have hput : Writes (fun p => do
      let p ← pbit32 f.size p
      let p ← pbit8 f.type p
      let p ← pbit16 f.tag p
      compose f p) (m.encode f.tag) := by
    have hfirst := pbit32_writes f.size
    have htype := pbit8_writes f.type
    rw [hsize, h.toNat_size, ← hsize] at hfirst
    rw [← h.type] at htype
    rw [← h.type]
    exact hfirst.bind (htype.bind ((pbit16_writes f.tag).bind hw))
  have hrun : P9.composefcall f = (do
      let p ← pbit32 f.size 0
      let p ← pbit8 f.type p
      let p ← pbit16 f.tag p
      compose f p) >>= fun _ => Pure.pure () := by
    unfold P9.composefcall
    rw [hc]
    simp only [bind_assoc]
  obtain ⟨hok, hbad⟩ := hput 0 buf (Nat.zero_le _)
  rw [zero_add] at hok hbad
  rw [hrun]
  refine ⟨fun hle => ?_, fun hlt => (hbad hlt).bind⟩
  rw [bind_of_ok (hok hle)]
  simp [splice]
  rfl

/-- The members that are read are not changed by `respond`. -/
theorem Ofcall.Proper.withSize (h : f.Proper) (n : UInt32) : Proper { f with size := n } :=
  ⟨h.known, h.version, h.ename, h.walk, h.read, h.stat⟩

end

/-- **Replies are written as the format has them.**  With the size that `respond` fills in, `composefcall` writes
`p9_getfcallsize` bytes, that are read back as the size, the tag and the message; the record that
`compose_stat` writes is 2 bytes longer than the size of the stat, and read back too. -/
theorem composeDecodes :
    (∀ f : Ofcall, f.Proper → ∃ n m, p9Getfcallsize f = some n ∧ f.msg = some m ∧ m.type = f.type ∧
      ∀ buf, n.toNat ≤ buf.length → ∃ bytes, bytes.length = n.toNat ∧
        composefcall { f with size := n } buf = .ok () (bytes ++ buf.drop n.toNat) ∧
        getReply.all bytes = some (n, f.tag, m)) ∧
    ∀ st path, (p9Getfilename path).length < 65000 → ∀ p buf,
      p + ((p9StatOf st path).size + 2) ≤ buf.length → ∃ bytes, bytes.length = (p9StatOf st path).size + 2 ∧
        composeStat (p9StatOf st path) p buf = .ok (p + ((p9StatOf st path).size + 2))
          (buf.take p ++ bytes ++ buf.drop (p + ((p9StatOf st path).size + 2))) ∧
        getDir.all bytes = some (p9StatOf st path).dir := by
  constructor
  · intro f h
    obtain ⟨m, hm⟩ := h.composed
    obtain ⟨m', hm'⟩ := (h.withSize (UInt32.ofNat (7 + m.payload.length))).composed
    obtain rfl : m = m' := Option.some.inj (hm.msg.symm.trans hm'.msg)
    refine ⟨_, m, hm.getfcallsize, hm.msg, hm.type, fun buf hbuf => ⟨m.encode f.tag, ?_, ?_, ?_⟩⟩
    · rw [hm.toNat_size, m.length_encode]
    · have hlen : (UInt32.ofNat (7 + m.payload.length)).toNat = (m.encode f.tag).length := by
        rw [hm.toNat_size, m.length_encode]
      rw [hlen] at hbuf ⊢
      exact (hm'.composefcall rfl buf).1 hbuf
    · rw [← m.length_encode f.tag]
      exact (decodes_reply hm.short f.tag).all
  · intro st path h p buf hbuf
    have hlt := p9StatOf_size_lt st h
    have hsize := p9StatOf_size st path
    have henc := p9StatOf_encode st path
    have hok := (composeStat_writes st h p buf (by omega)).1 (by omega)
    rw [splice, henc] at hok
    exact ⟨_, henc, hok, (decodes_dir (by omega)).all⟩

/-- An Rerror. -/
theorem composeDecodes_error : ∃ f : Ofcall, f.msg = some (.error (cbytes "No such file or directory")) ∧ f.tag = 7 ∧
    ∃ n, p9Getfcallsize f = some n ∧ n = 34 ∧ ∃ bytes, bytes.length = 34 ∧
      composefcall { f with size := n } (List.replicate 8192 0) = .ok () (bytes ++ (List.replicate 8192 0).drop 34) ∧
      getReply.all bytes = some (n, 7, .error (cbytes "No such file or directory")) := by
  let f : Ofcall :=
    { size := 0, type := 107, tag := 7, msize := 0, version := none, ename := some (cbytes "No such file or directory"),
      qid := ⟨0, 0, 0⟩, iounit := 0, nwqid := 0, wqid := Vector.replicate _ ⟨0, 0, 0⟩, count := 0, data := [],
      parlen := 0, nstat := 0, stat := none }
  have hf : f.Proper := by
    refine ⟨by decide, fun h => ?_, fun _ => by decide, fun h => ?_, fun h => ?_, fun h => ?_⟩
    all_goals exact absurd h (by decide)
  obtain ⟨n, m, hn, hm, -, hwrite⟩ := composeDecodes.1 f hf
  obtain rfl : n = 34 := Option.some.inj (hn.symm.trans (by decide +kernel))
  obtain rfl : m = .error (cbytes "No such file or directory") := Option.some.inj (hm.symm.trans rfl)
  obtain ⟨bytes, hlen, hok, hget⟩ := hwrite (List.replicate 8192 0) (by rw [List.length_replicate]; decide)
  exact ⟨f, rfl, rfl, 34, hn, rfl, bytes, hlen, hok, hget⟩

end InternetOs.P9
