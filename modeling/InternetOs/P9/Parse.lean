import InternetOs.P9.Wire

/-!
# Parsing requests (`user/9psv/utils/fparse.c`, `fcalls/*.c`)

`parsefcall` reads the header and calls the parser for the type of the message.  Strings are
terminated in the receive buffer, so a parsed request points into it; the data of a Twrite are
copied to a block of their own.

    parsefcall (encode tag m) is the message m   (parseEncode)
-/

namespace InternetOs.P9

open List

/-- The members of the union in `struct p9_fcall` that the parsers fill.  A string is a pointer into the
buffer, `data` the allocated block. -/
inductive Body
  | none
  | version (msize : UInt32) (version : Nat)
  | attach (afid : UInt32) (uname aname : Nat)
  | flush (oldtag : UInt16)
  | walk (newfid : UInt32) (nwname : UInt16) (wname : List Nat)
  | topen (mode : UInt8)
  | create (name : Nat) (perm : UInt32) (mode : UInt8)
  | read (offset : UInt64) (count : UInt32)
  | write (offset : UInt64) (count : UInt32) (data : List UInt8)

structure Fcall where
  size : UInt32
  type : UInt8
  tag : UInt16
  fid : UInt32
  body : Body

/-- `P9_NOTAG`. -/
def notag : UInt16 := 0xffff

/-- `P9_MAXWELEM`. -/
def maxwelem : Nat := 16

/-- `P9_MAXMSGLEN`. -/
def maxmsglen : Nat := 8192

/-- `P9_MAXDATALEN`, `-4`, as the `uint32_t` it is converted to when it is compared with a count. -/
def maxdatalen : UInt32 := (8192 - (8192 + 4))

/-! ## The parsers -/

/-- A parser: what `f` becomes, or null. -/
abbrev Parser := Fcall → Nat → Nat → P9M (Option Fcall)

def parseTversion : Parser := fun f p len =>
  if f.tag ≠ notag then pure none
  else do
    let ep := p + len
    let msize ← gbit32 p
    match ← p9Gstring (p + 4) ep with
    | none => pure none
    | some (_, version) => pure (some { f with body := .version msize version })

def parseTattach : Parser := fun f p len => do
  let ep := p + len
  let fid ← gbit32 p
  let afid ← gbit32 (p + 4)
  match ← p9Gstring (p + 8) ep with
  | none => pure none
  | some (p, uname) =>
    match ← p9Gstring p ep with
    | none => pure none
    | some (_, aname) => pure (some { f with fid := fid, body := .attach afid uname aname })

def parseTflush : Parser := fun f p _ => do
  let oldtag ← gbit16 p
  pure (some { f with body := .flush oldtag })

/-- The loop of `parse_twalk`, with the names stored so far. -/
def parseNames (ep : Nat) : Nat → List Nat → Nat → P9M (Option (List Nat))
  | 0, wname, _ => pure (some wname)
  | n + 1, wname, p => do
    match ← p9Gstring p ep with
    | none => pure none
    | some (p, s) => if maxwelem ≤ wname.length then throw .names else parseNames ep n (wname ++ [s]) p

def parseTwalk : Parser := fun f p len => do
  let ep := p + len
  let fid ← gbit32 p
  let newfid ← gbit32 (p + 4)
  let nwname ← gbit16 (p + 8)
  match ← parseNames ep nwname.toNat [] (p + 10) with
  | none => pure none
  | some wname => pure (some { f with fid := fid, body := .walk newfid nwname wname })

def parseTopen : Parser := fun f p _ => do
  let fid ← gbit32 p
  let mode ← rd (p + 4)
  pure (some { f with fid := fid, body := .topen mode })

/-- The result of `p9_gstring` is not looked at: null is read from. -/
def parseTcreate : Parser := fun f p len => do
  let ep := p + len
  let fid ← gbit32 p
  match ← p9Gstring (p + 4) ep with
  | none => throw .null
  | some (p, name) =>
    let perm ← gbit32 p
    let mode ← rd (p + 4)
    pure (some { f with fid := fid, body := .create name perm mode })

def parseTread : Parser := fun f p _ => do
  let fid ← gbit32 p
  let offset ← gbit64 (p + 4)
  let count ← gbit32 (p + 12)
  pure (some { f with fid := fid, body := .read offset count })

/-- The loop of `parse_twrite`. -/
def rdBytes : Nat → Nat → P9M (List UInt8)
  | 0, _ => pure []
  | n + 1, p => do
    let b ← rd p
    let bs ← rdBytes n (p + 1)
    pure (b :: bs)

def parseTwrite : Parser := fun f p _ => do
  let fid ← gbit32 p
  let offset ← gbit64 (p + 4)
  let count ← gbit32 (p + 12)
  let count := if count ≥ maxdatalen then maxdatalen else count
  let data ← rdBytes count.toNat (p + 16)
  pure (some { f with fid := fid, body := .write offset count data })

/-- `parse_tclunk`, `parse_tremove` and `parse_tstat`. -/
def parseFid : Parser := fun f p _ => do
  let fid ← gbit32 p
  pure (some { f with fid := fid })

def parseTclunk : Parser := parseFid
def parseTremove : Parser := parseFid
def parseTstat : Parser := parseFid

def parseTwstat : Parser := fun f _ _ => pure (some f)

def parseIgnore : Parser := fun _ _ _ => pure none

/-- The table; `none` where it has no entry or is not long enough. -/
def parsefunc : Nat → Option Parser
  | 100 => some parseTversion
  | 102 => some parseIgnore
  | 104 => some parseTattach
  | 106 => some parseIgnore
  | 108 => some parseTflush
  | 110 => some parseTwalk
  | 112 => some parseTopen
  | 114 => some parseTcreate
  | 116 => some parseTread
  | 118 => some parseTwrite
  | 120 => some parseTclunk
  | 122 => some parseTremove
  | 124 => some parseTstat
  | 126 => some parseTwstat
  | _ => none

/-- `parsefcall`, of the buffer from its start; the header has the length that is passed in `size`. -/
def parsefcall (size : Nat) : P9M (Option Fcall) := do
  if size < 7 then pure none
  else
    let fsize ← gbit32 0
    let type ← rd 4
    let tag ← gbit16 5
    let mlen := fsize.toNat - 7
    match parsefunc type.toNat with
    | none => throw .nofunc
    | some parse => parse { size := fsize, type := type, tag := tag, fid := 0, body := .none } 7 mlen

/-! ## The format -/

/-- A T-message. -/
inductive TMsg
  | version (msize : UInt32) (version : List UInt8)
  | attach (fid afid : UInt32) (uname aname : List UInt8)
  | flush (oldtag : UInt16)
  | walk (fid newfid : UInt32) (wname : List (List UInt8))
  | topen (fid : UInt32) (mode : UInt8)
  | create (fid : UInt32) (name : List UInt8) (perm : UInt32) (mode : UInt8)
  | read (fid : UInt32) (offset : UInt64) (count : UInt32)
  | write (fid : UInt32) (offset : UInt64) (data : List UInt8)
  | clunk (fid : UInt32)
  | remove (fid : UInt32)
  | stat (fid : UInt32)
  deriving DecidableEq

/-- A string on the wire. -/
def encodeString (s : List UInt8) : List UInt8 := leBytes 2 s.length ++ s

namespace TMsg

def type : TMsg → UInt8
  | version _ _ => 100
  | attach _ _ _ _ => 104
  | flush _ => 108
  | walk _ _ _ => 110
  | topen _ _ => 112
  | create _ _ _ _ => 114
  | read _ _ _ => 116
  | write _ _ _ => 118
  | clunk _ => 120
  | remove _ => 122
  | stat _ => 124

/-- The fid of a message; a message without one leaves the field 0. -/
def fid : TMsg → UInt32
  | version _ _ | flush _ => 0
  | attach fid _ _ _ | walk fid _ _ | topen fid _ | create fid _ _ _ | read fid _ _ | write fid _ _ => fid
  | clunk fid | remove fid | stat fid => fid

/-- The strings of a message. -/
def strings : TMsg → List (List UInt8)
  | version _ s => [s]
  | attach _ _ s s' => [s, s']
  | walk _ _ ss => ss
  | create _ s _ _ => [s]
  | _ => []

/-- What follows the header. -/
def payload : TMsg → List UInt8
  | version msize s => leBytes 4 msize.toNat ++ encodeString s
  | attach fid afid uname aname =>
    leBytes 4 fid.toNat ++ (leBytes 4 afid.toNat ++ (encodeString uname ++ encodeString aname))
  | flush oldtag => leBytes 2 oldtag.toNat
  | walk fid newfid wname =>
    leBytes 4 fid.toNat ++ (leBytes 4 newfid.toNat ++ (leBytes 2 wname.length ++ wname.flatMap encodeString))
  | topen fid mode => leBytes 4 fid.toNat ++ [mode]
  | create fid name perm mode => leBytes 4 fid.toNat ++ (encodeString name ++ (leBytes 4 perm.toNat ++ [mode]))
  | read fid offset count => leBytes 4 fid.toNat ++ (leBytes 8 offset.toNat ++ leBytes 4 count.toNat)
  | write fid offset data =>
    leBytes 4 fid.toNat ++ (leBytes 8 offset.toNat ++ (leBytes 4 data.length ++ data))
  | clunk fid | remove fid | stat fid => leBytes 4 fid.toNat

/-- **The bytes of a message.** -/
def encode (tag : UInt16) (m : TMsg) : List UInt8 :=
  leBytes 4 (7 + m.payload.length) ++ (m.type :: (leBytes 2 tag.toNat ++ m.payload))

/-- The messages the server takes: they fit in its buffer, their strings are C strings, there are at most 16 names
in a walk, and a version request has no tag. -/
structure Handled (tag : UInt16) (m : TMsg) : Prop where
  fits : (m.encode tag).length ≤ maxmsglen
  strings : ∀ s ∈ m.strings, (0 : UInt8) ∉ s
  names : ∀ fid newfid wname, m = walk fid newfid wname → wname.length ≤ maxwelem
  notag : ∀ msize s, m = version msize s → tag = notag

end TMsg

theorem TMsg.length_string (m : TMsg) {s : List UInt8} (hs : s ∈ m.strings) : s.length ≤ m.payload.length := by
  cases m with
  | version _ s' | create _ s' =>
    obtain rfl : s = s' := by simpa [strings] using hs
    simp [payload, encodeString]
    omega
  | attach fid afid s' s'' =>
    rcases (by simpa [strings] using hs : s = s' ∨ s = s'') with rfl | rfl
    · simp [payload, encodeString]
      omega
    · simp [payload, encodeString]
      omega
  | walk fid newfid wname =>
    have hmem : s ∈ wname := hs
    have hle : s.length ≤ (wname.flatMap encodeString).length := by
      obtain ⟨l1, l2, rfl⟩ := append_of_mem hmem
      simp [encodeString]
      omega
    simp only [payload, length_append]
    omega
  | _ => cases hs

/-- The message that a parsed request says, with its strings read from the buffer. -/
def Fcall.message (f : Fcall) (buf : List UInt8) : Option TMsg :=
  match f.type.toNat, f.body with
  | 100, .version msize s => some (.version msize (cstr buf s))
  | 104, .attach afid s s' => some (.attach f.fid afid (cstr buf s) (cstr buf s'))
  | 108, .flush oldtag => some (.flush oldtag)
  | 110, .walk newfid nwname wname =>
    if nwname.toNat = wname.length then some (.walk f.fid newfid (wname.map (cstr buf))) else none
  | 112, .topen mode => some (.topen f.fid mode)
  | 114, .create s perm mode => some (.create f.fid (cstr buf s) perm mode)
  | 116, .read offset count => some (.read f.fid offset count)
  | 118, .write offset count data => if count.toNat = data.length then some (.write f.fid offset data) else none
  | 120, .none => some (.clunk f.fid)
  | 122, .none => some (.remove f.fid)
  | 124, .none => some (.stat f.fid)
  | _, _ => none

/-! ## What each parser does -/

/-- The first of `n` counted strings that are whole. -/
def wholeStrings : Nat → List UInt8 → List (List UInt8)
  | 0, _ => []
  | n + 1, l => match takeString l with
    | none => []
    | some (s, rest) => s :: wholeStrings n rest

section
variable {f : Fcall} {buf rest : List UInt8} {p len : Nat}

theorem rdBytes_at (data : List UInt8) {p : Nat} (h : buf.drop p = data ++ rest) :
    rdBytes data.length p buf = .ok data buf := by
  induction data generalizing p with
  | nil => rfl
  | cons b bs ih =>
    rw [length_cons, rdBytes, bind_of_ok (rd_at h), bind_of_ok (ih (drop_succ h))]
    rfl

theorem rdBytes_short {n p : Nat} (h : (buf.drop p).length < n) : Faults (rdBytes n p) buf := by
  induction n generalizing p with
  | zero => omega
  | succ n ih =>
    rcases rd_faults_or buf p with ⟨b, rest, hd, hr⟩ | ⟨-, hf⟩
    · refine Faults.bind_of_ok hr (Faults.bind (ih ?_))
      rw [drop_succ hd]
      rw [hd, length_cons] at h
      omega
    · exact hf.bind

theorem parseTversion_spec {msize : UInt32} (hlen : buf.length = p + len) (htag : f.tag = notag)
    (hd : buf.drop p = leBytes 4 msize.toNat ++ rest) :
    (takeString rest = none ∧ parseTversion f p len buf = .ok none buf) ∨
      ∃ s rest' buf', takeString rest = some (s, rest') ∧ buf'.length = buf.length ∧ StrAt buf' (p + 4 + 1) s ∧
        parseTversion f p len buf = .ok (some { f with body := .version msize (p + 4 + 1) }) buf' := by
  have h4 := drop_add hd (length_leBytes 4 _)
  unfold parseTversion
  rw [if_neg (not_not.mpr htag), bind_of_ok (gbit32_at hd), ← hlen]
  cases hs : takeString rest with
  | none =>
    refine .inl ⟨rfl, ?_⟩
    rw [bind_of_ok (p9Gstring_none (h4 ▸ hs))]
    rfl
  | some r =>
    obtain ⟨s, rest'⟩ := r
    obtain ⟨buf', hg, -, -, hlen', hstr⟩ := p9Gstring_some (h4 ▸ hs)
    refine .inr ⟨s, rest', buf', rfl, hlen', hstr, ?_⟩
    rw [bind_of_ok hg]
    rfl

theorem parseTattach_spec {fid afid : UInt32} (hlen : buf.length = p + len)
    (hd : buf.drop p = leBytes 4 fid.toNat ++ (leBytes 4 afid.toNat ++ rest)) :
    (wholeStrings 2 rest).length < 2 ∧ (∃ buf', buf'.length = buf.length ∧ parseTattach f p len buf = .ok none buf') ∨
      ∃ s s' buf', wholeStrings 2 rest = [s, s'] ∧ buf'.length = buf.length ∧ StrAt buf' (p + 8 + 1) s ∧
        StrAt buf' (p + 8 + 2 + s.length + 1) s' ∧ parseTattach f p len buf =
          .ok (some { f with fid := fid, body := .attach afid (p + 8 + 1) (p + 8 + 2 + s.length + 1) }) buf' := by
  have h4 := drop_add hd (length_leBytes 4 _)
  have h8 : buf.drop (p + 4 + 4) = rest := drop_add h4 (length_leBytes 4 _)
  unfold parseTattach
  rw [bind_of_ok (gbit32_at hd), bind_of_ok (gbit32_at h4), ← hlen]
  cases hs : takeString rest with
  | none =>
    refine .inl ⟨by simp [wholeStrings, hs], buf, rfl, ?_⟩
    rw [bind_of_ok (p9Gstring_none (h8 ▸ hs))]
    rfl
  | some r =>
    obtain ⟨s, rest1⟩ := r
    obtain ⟨buf1, hg1, hd1, htake1, hlen1, hstr1⟩ := p9Gstring_some (h8 ▸ hs)
    rw [bind_of_ok hg1, ← hlen1]
    cases hs' : takeString rest1 with
    | none =>
      refine .inl ⟨by simp [wholeStrings, hs, hs'], buf1, rfl, ?_⟩
      change (p9Gstring (p + 8 + 2 + s.length) buf1.length >>= _) buf1 = _
      rw [bind_of_ok (p9Gstring_none (hd1 ▸ hs'))]
      rfl
    | some r' =>
      obtain ⟨s', rest2⟩ := r'
      obtain ⟨buf2, hg2, -, htake2, hlen2, hstr2⟩ := p9Gstring_some (hd1 ▸ hs')
      refine .inr ⟨s, s', buf2, by simp [wholeStrings, hs, hs'], hlen2, ?_, hstr2, ?_⟩
      · exact hstr1.congr (by omega) htake2
      · change (p9Gstring (p + 8 + 2 + s.length) buf1.length >>= _) buf1 = _
        rw [bind_of_ok hg2]
        rfl

theorem parseNames_spec (n : Nat) : ∀ (wname : List Nat) (p : Nat) (buf : List UInt8), wname.length ≤ maxwelem →
    (maxwelem < wname.length + (wholeStrings n (buf.drop p)).length → Faults (parseNames buf.length n wname p) buf) ∧
    (wname.length + (wholeStrings n (buf.drop p)).length ≤ maxwelem →
      ∃ r buf', parseNames buf.length n wname p buf = .ok r buf' ∧ buf'.length = buf.length ∧
        buf'.take p = buf.take p ∧
        (r = none ∧ (wholeStrings n (buf.drop p)).length < n ∨
          ∃ ps, r = some (wname ++ ps) ∧ (wholeStrings n (buf.drop p)).length = n ∧
            List.Forall₂ (StrAt buf') ps (wholeStrings n (buf.drop p)))) := by
  induction n with
  | zero =>
    intro wname p buf hle
    refine ⟨fun hlt => absurd hlt (by simpa [wholeStrings] using hle), fun _ => ?_⟩
    exact ⟨some wname, buf, rfl, rfl, rfl, .inr ⟨[], by simp, rfl, .nil⟩⟩
  | succ n ih =>
    intro wname p buf hle
    cases hs : takeString (buf.drop p) with
    | none =>
      have hw : wholeStrings (n + 1) (buf.drop p) = [] := by simp [wholeStrings, hs]
      rw [hw]
      refine ⟨fun hlt => absurd hlt (by simpa using hle), fun _ => ⟨none, buf, ?_, rfl, rfl, .inl ⟨rfl, by simp⟩⟩⟩
      rw [parseNames, bind_of_ok (p9Gstring_none hs)]
      rfl
    | some r =>
      obtain ⟨s, rest⟩ := r
      obtain ⟨buf1, hg, hd, htake, hlen, hstr⟩ := p9Gstring_some hs
      have hw : wholeStrings (n + 1) (buf.drop p) = s :: wholeStrings n (buf1.drop (p + 2 + s.length)) := by
        simp [wholeStrings, hs, hd]
      rw [hw]
      by_cases hfull : maxwelem ≤ wname.length
      · refine ⟨fun _ => Faults.bind_of_ok hg ?_, fun hle' => ?_⟩
        · change Faults (if maxwelem ≤ wname.length then _ else _) buf1
          rw [if_pos hfull]
          exact ⟨_, _, rfl⟩
        · rw [length_cons] at hle'
          omega
      · have hle1 : (wname ++ [p + 1]).length ≤ maxwelem := by
          rw [length_append, length_singleton]
          omega
        obtain ⟨hbad, hok⟩ := ih (wname ++ [p + 1]) (p + 2 + s.length) buf1 hle1
        rw [length_append, length_singleton, hlen] at hbad hok
        have hnext : ∀ r, parseNames buf.length n (wname ++ [p + 1]) (p + 2 + s.length) buf1 = r →
            (p9Gstring p buf.length >>= fun x => match x with
              | none => pure none
              | some (p, s) =>
                if maxwelem ≤ wname.length then throw Fault.names
                else parseNames buf.length n (wname ++ [s]) p) buf = r := by
          intro r hr
          rw [bind_of_ok hg]
          change (if maxwelem ≤ wname.length then _ else _ : P9M _) buf1 = _
          rw [if_neg hfull]
          exact hr
        rw [length_cons]
        constructor
        · intro hlt
          obtain ⟨e, buf', he⟩ := hbad (by omega)
          exact ⟨e, buf', hnext _ he⟩
        · intro hle'
          obtain ⟨r, buf2, hr, hlen2, htake2, hcase⟩ := hok (by omega)
          have htake' : buf2.take p = buf.take p := by
            have := congrArg (List.take p) htake2
            rw [take_take, take_take, Nat.min_eq_left (by omega)] at this
            exact this.trans htake
          refine ⟨r, buf2, hnext _ hr, hlen2, htake', ?_⟩
          rcases hcase with ⟨hnone, hlt⟩ | ⟨ps, hps, hn, hall⟩
          · exact .inl ⟨hnone, by omega⟩
          · refine .inr ⟨(p + 1) :: ps, by rw [hps]; simp, by omega, .cons ?_ hall⟩
            exact hstr.congr (by omega) htake2

theorem parseTwalk_spec {fid newfid : UInt32} {nwname : UInt16} (hlen : buf.length = p + len)
    (hd : buf.drop p = leBytes 4 fid.toNat ++ (leBytes 4 newfid.toNat ++ (leBytes 2 nwname.toNat ++ rest))) :
    (maxwelem < (wholeStrings nwname.toNat rest).length → Faults (parseTwalk f p len) buf) ∧
    ((wholeStrings nwname.toNat rest).length ≤ maxwelem → (wholeStrings nwname.toNat rest).length < nwname.toNat ∧
          (∃ buf', buf'.length = buf.length ∧ parseTwalk f p len buf = .ok none buf') ∨
        (wholeStrings nwname.toNat rest).length = nwname.toNat ∧ ∃ ps buf', buf'.length = buf.length ∧
          List.Forall₂ (StrAt buf') ps (wholeStrings nwname.toNat rest) ∧ parseTwalk f p len buf =
            .ok (some { f with fid := fid, body := .walk newfid nwname ps }) buf') := by
  have h4 := drop_add hd (length_leBytes 4 _)
  have h8 : buf.drop (p + 4 + 4) = _ := drop_add h4 (length_leBytes 4 _)
  have h10 : buf.drop (p + 8 + 2) = rest := drop_add h8 (length_leBytes 2 _)
  obtain ⟨hbad, hok⟩ := parseNames_spec nwname.toNat [] (p + 10) buf (by decide)
  rw [h10, length_nil, zero_add] at hbad hok
  constructor
  · intro hlt
    refine Faults.bind_of_ok (gbit32_at hd) (Faults.bind_of_ok (gbit32_at h4) (Faults.bind_of_ok (gbit16_at h8) ?_))
    rw [← hlen]
    exact (hbad hlt).bind
  · intro hle
    obtain ⟨r, buf', hr, hlen', -, hcase⟩ := hok hle
    unfold parseTwalk
    rw [bind_of_ok (gbit32_at hd), bind_of_ok (gbit32_at h4), bind_of_ok (gbit16_at h8), ← hlen, bind_of_ok hr]
    rcases hcase with ⟨rfl, hlt⟩ | ⟨ps, rfl, hn, hall⟩
    · exact .inl ⟨hlt, buf', hlen', rfl⟩
    · exact .inr ⟨hn, ps, buf', hlen', hall, rfl⟩

theorem parseTopen_spec {fid : UInt32} {mode : UInt8} (hd : buf.drop p = leBytes 4 fid.toNat ++ mode :: rest) :
    parseTopen f p len buf = .ok (some { f with fid := fid, body := .topen mode }) buf := by
  have h4 := drop_add hd (length_leBytes 4 _)
  unfold parseTopen
  rw [bind_of_ok (gbit32_at hd), bind_of_ok (rd_at h4)]
  rfl

theorem parseTcreate_spec {fid : UInt32} (hlen : buf.length = p + len) (hd : buf.drop p = leBytes 4 fid.toNat ++ rest) :
    ((∀ s rest', takeString rest = some (s, rest') → rest'.length < 5) → Faults (parseTcreate f p len) buf) ∧
    ∀ s (perm : UInt32) mode rest', takeString rest = some (s, leBytes 4 perm.toNat ++ mode :: rest') →
      ∃ buf', buf'.length = buf.length ∧ StrAt buf' (p + 4 + 1) s ∧ parseTcreate f p len buf =
        .ok (some { f with fid := fid, body := .create (p + 4 + 1) perm mode }) buf' := by
  have h4 := drop_add hd (length_leBytes 4 _)
  constructor
  · intro hshort
    refine Faults.bind_of_ok (gbit32_at hd) ?_
    rw [← hlen]
    cases hs : takeString rest with
    | none => exact Faults.bind_of_ok (p9Gstring_none (h4 ▸ hs)) ⟨_, _, rfl⟩
    | some r =>
      obtain ⟨s, rest'⟩ := r
      obtain ⟨buf', hg, hd', -, -, -⟩ := p9Gstring_some (h4 ▸ hs)
      refine Faults.bind_of_ok hg ?_
      change Faults (gbit32 (p + 4 + 2 + s.length) >>= _) buf'
      have hlt := hshort s rest' hs
      by_cases h4' : 4 ≤ rest'.length
      · obtain ⟨perm, rest2, hv⟩ := exists_u32 h4'
        rw [hv] at hd'
        refine Faults.bind_of_ok (gbit32_at hd') (Faults.bind ⟨_, _, rd_short ?_⟩)
        rw [← drop_eq_nil_iff, drop_add hd' (length_leBytes 4 _), ← length_eq_zero_iff]
        rw [hv, length_append, length_leBytes] at hlt
        omega
      · exact (gbit32_short (by rw [hd']; omega)).bind
  · intro s perm mode rest' hs
    obtain ⟨buf', hg, hd', -, hlen', hstr⟩ := p9Gstring_some (h4 ▸ hs)
    refine ⟨buf', hlen', hstr, ?_⟩
    have hd'' := drop_add hd' (length_leBytes 4 _)
    unfold parseTcreate
    rw [bind_of_ok (gbit32_at hd), ← hlen, bind_of_ok hg]
    change (gbit32 (p + 4 + 2 + s.length) >>= _) buf' = _
    rw [bind_of_ok (gbit32_at hd'), bind_of_ok (rd_at hd'')]
    rfl

theorem parseTread_spec {fid count : UInt32} {offset : UInt64}
    (hd : buf.drop p = leBytes 4 fid.toNat ++ (leBytes 8 offset.toNat ++ (leBytes 4 count.toNat ++ rest))) :
    parseTread f p len buf = .ok (some { f with fid := fid, body := .read offset count }) buf := by
  have h4 := drop_add hd (length_leBytes 4 _)
  have h12 : buf.drop (p + 4 + 8) = _ := drop_add h4 (length_leBytes 8 _)
  unfold parseTread
  rw [bind_of_ok (gbit32_at hd), bind_of_ok (gbit64_at h4), bind_of_ok (gbit32_at h12)]
  rfl

theorem parseTwrite_spec (len : Nat) {fid count : UInt32} {offset : UInt64}
    (hd : buf.drop p = leBytes 4 fid.toNat ++ (leBytes 8 offset.toNat ++ (leBytes 4 count.toNat ++ rest)))
    (hrest : rest.length < maxdatalen.toNat) : (rest.length < count.toNat → Faults (parseTwrite f p len) buf) ∧
    ∀ data rest', rest = data ++ rest' → data.length = count.toNat → parseTwrite f p len buf =
      .ok (some { f with fid := fid, body := .write offset count data }) buf := by
  have h4 := drop_add hd (length_leBytes 4 _)
  have h12 : buf.drop (p + 4 + 8) = _ := drop_add h4 (length_leBytes 8 _)
  have h16 : buf.drop (p + 4 + 8 + 4) = rest := drop_add h12 (length_leBytes 4 _)
  constructor
  · intro hlt
    refine Faults.bind_of_ok (gbit32_at hd) (Faults.bind_of_ok (gbit64_at h4) (Faults.bind_of_ok (gbit32_at h12)
      (Faults.bind (rdBytes_short ?_))))
    rw [h16]
    split
    · exact hrest
    · exact hlt
  · intro data rest' hdata hcount
    have hsmall : ¬ count ≥ maxdatalen := by
      rw [ge_iff_le, UInt32.le_iff_toNat_le]
      rw [hdata, length_append] at hrest
      omega
    unfold parseTwrite
    rw [bind_of_ok (gbit32_at hd), bind_of_ok (gbit64_at h4), bind_of_ok (gbit32_at h12)]
    rw [hdata] at h16
    simp only [if_neg hsmall]
    rw [← hcount, bind_of_ok (rdBytes_at data h16)]
    rfl

theorem parseFid_spec {fid : UInt32} (hd : buf.drop p = leBytes 4 fid.toNat ++ rest) :
    parseFid f p len buf = .ok (some { f with fid := fid }) buf := by
  unfold parseFid
  rw [bind_of_ok (gbit32_at hd)]
  rfl

end

/-- The request with the header read. -/
def headOf (size : UInt32) (type : UInt8) (tag : UInt16) : Fcall :=
  { size := size, type := type, tag := tag, fid := 0, body := .none }

/-- A buffer that starts with a header and is as long as it says. -/
structure HasHeader (buf : List UInt8) (size : UInt32) (type : UInt8) (tag : UInt16) (body : List UInt8) : Prop where
  bytes : buf = leBytes 4 size.toNat ++ (type :: (leBytes 2 tag.toNat ++ body))
  size : size.toNat = buf.length

section
variable {buf body : List UInt8} {size : UInt32} {type : UInt8} {tag : UInt16}

theorem HasHeader.length (h : HasHeader buf size type tag body) : buf.length = 7 + body.length := by
  rw [h.bytes]
  simp
  omega

theorem HasHeader.drop (h : HasHeader buf size type tag body) : buf.drop 7 = body := by
  have h4 : buf.drop (0 + 4) = type :: (leBytes 2 tag.toNat ++ body) := drop_add (p := 0) h.bytes (length_leBytes 4 _)
  have h5 : buf.drop (0 + 4 + 1) = leBytes 2 tag.toNat ++ body := drop_succ h4
  exact drop_add h5 (length_leBytes 2 _)

theorem HasHeader.parsefcall (h : HasHeader buf size type tag body) : P9.parsefcall buf.length buf =
    (match parsefunc type.toNat with
      | none => throw Fault.nofunc
      | some parse => parse (headOf size type tag) 7 body.length : P9M (Option Fcall)) buf := by
  have h0 : buf.drop 0 = leBytes 4 size.toNat ++ (type :: (leBytes 2 tag.toNat ++ body)) := h.bytes
  have h4 : buf.drop 4 = type :: (leBytes 2 tag.toNat ++ body) := by
    have := drop_add h0 (length_leBytes 4 _)
    rwa [zero_add] at this
  have hlen := h.length
  have hmlen : size.toNat - 7 = body.length := by
    rw [h.size]
    omega
  unfold P9.parsefcall
  rw [if_neg (by omega), bind_of_ok (gbit32_at h0), bind_of_ok (rd_at h4), bind_of_ok (gbit16_at (drop_succ h4)), hmlen]
  rfl

end

theorem wholeStrings_encode {ss : List (List UInt8)} (h : ∀ s ∈ ss, s.length < 2 ^ 16) (rest : List UInt8) :
    wholeStrings ss.length (ss.flatMap encodeString ++ rest) = ss := by
  induction ss with
  | nil => rfl
  | cons s ss ih =>
    have hs : takeString ((s :: ss).flatMap encodeString ++ rest) = some (s, ss.flatMap encodeString ++ rest) := by
      rw [flatMap_cons, encodeString, append_assoc (leBytes 2 s.length ++ s)]
      exact takeString_append (h s mem_cons_self) _
    simp only [length_cons, wholeStrings, hs]
    rw [ih fun s hs => h s (mem_cons_of_mem _ hs)]

theorem map_cstr {buf : List UInt8} {ps : List Nat} {ss : List (List UInt8)} (h : List.Forall₂ (StrAt buf) ps ss)
    (h0 : ∀ s ∈ ss, (0 : UInt8) ∉ s) : ps.map (cstr buf) = ss := by
  induction h with
  | nil => rfl
  | cons hp _ ih =>
    rw [map_cons, hp.cstr (h0 _ mem_cons_self), ih fun s hs => h0 s (mem_cons_of_mem _ hs)]

/-- A pointer to a C string that is inside the buffer. -/
def InBuf (buf : List UInt8) (p : Nat) : Prop := ∃ s, StrAt buf p s

/-- The pointers of a request are to strings in the buffer, or a block of the length it says. -/
def Body.Inside (buf : List UInt8) : Body → Prop
  | .version _ p => InBuf buf p
  | .attach _ p p' => InBuf buf p ∧ InBuf buf p'
  | .walk _ nwname ps => ps.length = nwname.toNat ∧ ps.length ≤ maxwelem ∧ ∀ p ∈ ps, InBuf buf p
  | .create p _ _ => InBuf buf p
  | .write _ count data => data.length = count.toNat
  | .none | .flush _ | .topen _ | .read _ _ => True

theorem inBuf_of_forall {buf : List UInt8} {ps : List Nat} {ss : List (List UInt8)}
    (h : List.Forall₂ (StrAt buf) ps ss) {p : Nat} (hp : p ∈ ps) : InBuf buf p := by
  induction h with
  | nil => cases hp
  | cons hs _ ih =>
    rcases mem_cons.mp hp with rfl | hp
    · exact ⟨_, hs⟩
    · exact ih hp

/-- The request is the message `m`, with its strings in the buffer. -/
structure Fcall.Says (size : UInt32) (tag : UInt16) (m : TMsg) (buf : List UInt8) (f : Fcall) : Prop where
  size : f.size = size
  type : f.type = m.type
  tag : f.tag = tag
  fid : f.fid = m.fid
  message : f.message buf = some m
  inside : f.body.Inside buf

section
variable {buf : List UInt8} {len : Nat} {size : UInt32} {tag : UInt16} {fid : UInt32}

theorem parseTversion_encode {msize : UInt32} {s : List UInt8} (hlen : buf.length = 7 + len)
    (hd : buf.drop 7 = (TMsg.version msize s).payload) (htag : tag = notag) (hs : s.length < 2 ^ 16)
    (h0 : (0 : UInt8) ∉ s) : ∃ f buf', parseTversion (headOf size 100 tag) 7 len buf = .ok (some f) buf' ∧
      f.Says size tag (.version msize s) buf' := by
  have htake : takeString (encodeString s) = some (s, []) := by
    have := takeString_append hs []
    rwa [append_nil] at this
  rcases parseTversion_spec (f := headOf size 100 tag) hlen htag hd with
    ⟨hnone, -⟩ | ⟨s', rest', buf', hsome, -, hstr, hp⟩
  · rw [htake] at hnone
    cases hnone
  · rw [htake] at hsome
    obtain ⟨rfl, -⟩ := Prod.mk.inj (Option.some.inj hsome)
    refine ⟨_, buf', hp, rfl, rfl, rfl, rfl, ?_, ⟨s, hstr⟩⟩
    rw [← hstr.cstr h0]
    rfl

theorem parseTattach_encode {afid : UInt32} {s s' : List UInt8} (hlen : buf.length = 7 + len)
    (hd : buf.drop 7 = (TMsg.attach fid afid s s').payload) (hs : s.length < 2 ^ 16) (hs' : s'.length < 2 ^ 16)
    (h0 : (0 : UInt8) ∉ s) (h0' : (0 : UInt8) ∉ s') :
    ∃ f buf', parseTattach (headOf size 104 tag) 7 len buf = .ok (some f) buf' ∧
      f.Says size tag (.attach fid afid s s') buf' := by
  have hwhole : wholeStrings 2 (encodeString s ++ encodeString s') = [s, s'] := by
    have hall : ∀ t ∈ [s, s'], t.length < 2 ^ 16 := by
      intro t ht
      rcases (by simpa using ht : t = s ∨ t = s') with rfl | rfl
      · exact hs
      · exact hs'
    simpa using wholeStrings_encode hall []
  rcases parseTattach_spec (f := headOf size 104 tag) hlen hd with
    ⟨hshort, -⟩ | ⟨t, t', buf', hsome, -, hstr, hstr', hp⟩
  · rw [hwhole] at hshort
    simp at hshort
  · rw [hwhole] at hsome
    obtain ⟨rfl, rfl⟩ : s = t ∧ s' = t' := by simpa using hsome
    refine ⟨_, buf', hp, rfl, rfl, rfl, rfl, ?_, ⟨s, hstr⟩, ⟨s', hstr'⟩⟩
    change some (TMsg.attach fid afid _ _) = _
    rw [hstr.cstr h0, hstr'.cstr h0']

theorem parseTwalk_encode {newfid : UInt32} {wname : List (List UInt8)} (hlen : buf.length = 7 + len)
    (hd : buf.drop 7 = (TMsg.walk fid newfid wname).payload) (hn : wname.length ≤ maxwelem)
    (hs : ∀ s ∈ wname, s.length < 2 ^ 16) (h0 : ∀ s ∈ wname, (0 : UInt8) ∉ s) :
    ∃ f buf', parseTwalk (headOf size 110 tag) 7 len buf = .ok (some f) buf' ∧
      f.Says size tag (.walk fid newfid wname) buf' := by
  obtain ⟨nwname, hnw⟩ : ∃ n : UInt16, n.toNat = wname.length :=
    ⟨UInt16.ofNat wname.length, UInt16.toNat_ofNat_of_lt' (hn.trans_lt (by decide))⟩
  rw [TMsg.payload, ← hnw] at hd
  have hwhole : wholeStrings nwname.toNat (wname.flatMap encodeString) = wname := by
    have := wholeStrings_encode hs []
    rwa [append_nil, ← hnw] at this
  rcases (parseTwalk_spec (f := headOf size 110 tag) hlen hd).2 (by rw [hwhole]; exact hn) with
    ⟨hshort, -⟩ | ⟨-, ps, buf', -, hall, hp⟩
  · rw [hwhole] at hshort
    omega
  · rw [hwhole] at hall
    have hlen' : nwname.toNat = ps.length := by rw [hnw, hall.length_eq]
    refine ⟨_, buf', hp, rfl, rfl, rfl, rfl, ?_, hlen'.symm, ?_, fun p hp => inBuf_of_forall hall hp⟩
    swap
    · rw [← hlen', hnw]
      exact hn
    rw [← map_cstr hall h0]
    exact if_pos hlen'

theorem parseTcreate_encode {s : List UInt8} {perm : UInt32} {mode : UInt8} (hlen : buf.length = 7 + len)
    (hd : buf.drop 7 = (TMsg.create fid s perm mode).payload) (hs : s.length < 2 ^ 16) (h0 : (0 : UInt8) ∉ s) :
    ∃ f buf', parseTcreate (headOf size 114 tag) 7 len buf = .ok (some f) buf' ∧
      f.Says size tag (.create fid s perm mode) buf' := by
  have htake : takeString (encodeString s ++ (leBytes 4 perm.toNat ++ [mode])) =
      some (s, leBytes 4 perm.toNat ++ [mode]) := takeString_append hs _
  obtain ⟨buf', -, hstr, hp⟩ := (parseTcreate_spec (f := headOf size 114 tag) hlen hd).2 s perm mode [] htake
  refine ⟨_, buf', hp, rfl, rfl, rfl, rfl, ?_, ⟨s, hstr⟩⟩
  rw [← hstr.cstr h0]
  rfl

theorem parseTwrite_encode {offset : UInt64} {data : List UInt8}
    (hd : buf.drop 7 = (TMsg.write fid offset data).payload) (hdata : data.length < maxdatalen.toNat) :
    ∃ f buf', parseTwrite (headOf size 118 tag) 7 len buf = .ok (some f) buf' ∧
      f.Says size tag (.write fid offset data) buf' := by
  obtain ⟨count, hcount⟩ : ∃ n : UInt32, n.toNat = data.length :=
    ⟨UInt32.ofNat data.length, UInt32.toNat_ofNat_of_lt' (hdata.trans (by decide))⟩
  rw [TMsg.payload, ← hcount] at hd
  refine ⟨_, buf, (parseTwrite_spec (f := headOf size 118 tag) _ hd hdata).2 data [] (by simp) hcount.symm,
    rfl, rfl, rfl, rfl, if_pos hcount, hcount.symm⟩

end

theorem exists_request {tag : UInt16} {m : TMsg} (h : m.Handled tag) : ∃ f buf,
    parsefcall (m.encode tag).length (m.encode tag) = .ok (some f) buf ∧
      f.Says (UInt32.ofNat (m.encode tag).length) tag m buf := by
  have hfits := h.fits
  have hlen : (m.encode tag).length = 7 + m.payload.length := by
    simp [TMsg.encode]
    omega
  have hpay : m.payload.length < 8192 := by
    have : maxmsglen = 8192 := rfl
    omega
  obtain ⟨size, hsize⟩ : ∃ size : UInt32, size.toNat = 7 + m.payload.length :=
    ⟨UInt32.ofNat (7 + m.payload.length), UInt32.toNat_ofNat_of_lt' (by
      have : UInt32.size = 4294967296 := rfl
      omega)⟩
  have hh : HasHeader (m.encode tag) size m.type tag m.payload := ⟨by rw [TMsg.encode, hsize], by rw [hsize, hlen]⟩
  have hd := hh.drop
  have hbuf := hh.length
  rw [← hh.size, UInt32.ofNat_toNat, hh.size]
  rw [hh.parsefcall]
  generalize m.encode tag = buf at *
  -- every string of the message is shorter than the message
  have hshort : ∀ s ∈ m.strings, s.length < 2 ^ 16 := fun s hs => (m.length_string hs).trans_lt (by omega)
  cases m with
  | version msize s =>
    exact parseTversion_encode hbuf hd (h.notag _ _ rfl) (hshort s (by simp [TMsg.strings]))
      (h.strings s (by simp [TMsg.strings]))
  | attach fid afid s s' =>
    exact parseTattach_encode hbuf hd (hshort s (by simp [TMsg.strings])) (hshort s' (by simp [TMsg.strings]))
      (h.strings s (by simp [TMsg.strings])) (h.strings s' (by simp [TMsg.strings]))
  | flush oldtag =>
    refine ⟨{ headOf size 108 tag with body := .flush oldtag }, buf, ?_, rfl, rfl, rfl, rfl, rfl, trivial⟩
    change (gbit16 7 >>= _) buf = _
    rw [bind_of_ok (gbit16_at (show buf.drop 7 = leBytes 2 oldtag.toNat ++ [] by rw [hd, append_nil]; rfl))]
    rfl
  | walk fid newfid wname => exact parseTwalk_encode hbuf hd (h.names _ _ _ rfl) hshort h.strings
  | topen fid mode => exact ⟨_, buf, parseTopen_spec hd, rfl, rfl, rfl, rfl, rfl, trivial⟩
  | create fid s perm mode =>
    exact parseTcreate_encode hbuf hd (hshort s (by simp [TMsg.strings])) (h.strings s (by simp [TMsg.strings]))
  | read fid offset count =>
    have hread : buf.drop 7 = leBytes 4 fid.toNat ++ (leBytes 8 offset.toNat ++ (leBytes 4 count.toNat ++ [])) := by
      rw [hd]
      rfl
    exact ⟨_, buf, parseTread_spec hread, rfl, rfl, rfl, rfl, rfl, trivial⟩
  | write fid offset data =>
    refine parseTwrite_encode hd ?_
    have hle : data.length ≤ (TMsg.write fid offset data).payload.length := by
      simp [TMsg.payload]
      omega
    exact hle.trans_lt (hpay.trans (by decide))
  | clunk | remove | stat =>
    exact ⟨_, buf, parseFid_spec (hd.trans (append_nil _).symm), rfl, rfl, rfl, rfl, rfl, trivial⟩

/-- **Requests are decoded.**  The bytes of a message are parsed to a request with its size, type, tag and fid, that
says the same message. -/
theorem parseEncode {tag : UInt16} {m : TMsg} (h : m.Handled tag) : ∃ f buf,
    parsefcall (m.encode tag).length (m.encode tag) = .ok (some f) buf ∧ f.size.toNat = (m.encode tag).length ∧
      f.type = m.type ∧ f.tag = tag ∧ f.fid = m.fid ∧ f.message buf = some m := by
  obtain ⟨f, buf, hp, hf⟩ := exists_request h
  have hsize : (m.encode tag).length < UInt32.size := h.fits.trans_lt (by decide)
  exact ⟨f, buf, hp, by rw [hf.size, UInt32.toNat_ofNat_of_lt' hsize], hf.type, hf.tag, hf.fid, hf.message⟩

/-- A walk of two names. -/
theorem parseEncode_walk : ∃ f buf, parsefcall 24 ((TMsg.walk 1 2 [[117], [98, 99]]).encode 3) = .ok (some f) buf ∧
    f.message buf = some (.walk 1 2 [[117], [98, 99]]) := by
  have h : (TMsg.walk 1 2 [[117], [98, 99]]).Handled 3 := by
    refine ⟨by decide, by decide, ?_, ?_⟩
    · rintro _ _ _ ⟨⟩
      decide
    · rintro _ _ ⟨⟩
  obtain ⟨f, buf, hp, -, -, -, -, hm⟩ := parseEncode h
  exact ⟨f, buf, hp, hm⟩

end InternetOs.P9
