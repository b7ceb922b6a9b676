import InternetOs.P9.Parse

/-!
# Messages that do not keep to the format (`user/9psv/utils/fparse.c`, `fcalls/*.c`)

Only `p9_gstring` looks at the end of the message.  The fields of fixed width are read without
a check, the table of parsers is indexed by any type, and the names of a walk are stored
without a look at how many there are.

    parsefcall stays inside the buffer, and rejects what is too short,
      exactly for the messages of ParseSafe                             (parseRobust)
-/

namespace InternetOs.P9

open List

/-! ## What a type requires -/

/-- The type of the message in the buffer. -/
def msgType (buf : List UInt8) : Nat := (buf.getD 4 0).toNat

/-- Its tag. -/
def msgTag (buf : List UInt8) : Nat := leNat ((buf.drop 5).take 2)

/-- A counted string is whole, with `n` bytes behind it. -/
def stringThen (n : Nat) (l : List UInt8) : Bool := match takeString l with
  | none => false
  | some (_, rest) => n ≤ rest.length

/-- The number that `w` bytes at `p` are. -/
def fieldAt (w p : Nat) (l : List UInt8) : Nat := leNat ((l.drop p).take w)

/-- What follows the header is as long as the format asks for in a message of the type; no message has an
unknown type. -/
def longEnough (type : Nat) (body : List UInt8) : Bool := match type with
  | 100 => 4 ≤ body.length && stringThen 0 (body.drop 4)
  | 102 => 4 ≤ body.length && (wholeStrings 2 (body.drop 4)).length = 2
  | 104 => 8 ≤ body.length && (wholeStrings 2 (body.drop 8)).length = 2
  | 108 => 2 ≤ body.length
  | 110 => 10 ≤ body.length && (wholeStrings (fieldAt 2 8 body) (body.drop 10)).length = fieldAt 2 8 body
  | 112 => 5 ≤ body.length
  | 114 => 4 ≤ body.length && stringThen 5 (body.drop 4)
  | 116 => 16 ≤ body.length
  | 118 => 16 ≤ body.length && 16 + fieldAt 4 12 body ≤ body.length
  | 120 | 122 | 124 => 4 ≤ body.length
  | 126 => 4 ≤ body.length && stringThen 0 (body.drop 4)
  | _ => false

/-- The messages that are parsed as they should be.  Those of a type with strings are looked at, from the first
string on and but for Tcreate; a walk has no more than 16 names that are whole. -/
def parseSafe (type tag : Nat) (body : List UInt8) : Bool := match type with
  | 100 => tag ≠ notag.toNat || 4 ≤ body.length
  | 102 | 106 => true
  | 104 => 8 ≤ body.length
  | 110 => 10 ≤ body.length && (wholeStrings (fieldAt 2 8 body) (body.drop 10)).length ≤ maxwelem
  | _ => longEnough type body

/-! ## What the parser has to do -/

/-- The run ends without a fault, with null or with a request whose pointers are good; with null if the
message is too short. -/
def Robust (long : Bool) (parse : P9M (Option Fcall)) (buf : List UInt8) : Prop :=
  ∃ r buf', parse buf = .ok r buf' ∧ buf'.length = buf.length ∧ (∀ f, r = some f → f.body.Inside buf') ∧
    (long = false → r = none)

section
variable {long : Bool} {parse : P9M (Option Fcall)} {buf buf' : List UInt8}

theorem robust_congr {parse' : P9M (Option Fcall)} (h : parse buf = parse' buf) :
    Robust long parse buf ↔ Robust long parse' buf := by
  unfold Robust
  rw [h]

theorem Robust.of_none (h : parse buf = .ok none buf') (hlen : buf'.length = buf.length) : Robust long parse buf :=
  ⟨none, buf', h, hlen, fun _ hf => (nomatch hf), fun _ => rfl⟩

theorem Robust.of_some {f : Fcall} (h : parse buf = .ok (some f) buf') (hlen : buf'.length = buf.length)
    (hf : f.body.Inside buf') (hlong : long = true) : Robust long parse buf := by
  refine ⟨some f, buf', h, hlen, ?_, fun hshort => ?_⟩
  · rintro _ ⟨⟩
    exact hf
  · rw [hlong] at hshort
    cases hshort

theorem Faults.not_robust (h : Faults parse buf) : ¬ Robust long parse buf := by
  rintro ⟨r, buf', hok, -⟩
  obtain ⟨e, s, he⟩ := h
  rw [he] at hok
  cases hok

theorem not_robust_of_short {f : Fcall} (h : parse buf = .ok (some f) buf') : ¬ Robust false parse buf := by
  rintro ⟨r, s, hok, -, -, hnone⟩
  rw [h, hnone rfl] at hok
  cases hok

end

/-! ## Each parser -/

section
variable {rest body : List UInt8} {w v : Nat}

section
variable (h : body = leBytes w v ++ rest)
include h

theorem length_body : body.length = w + rest.length := by
  rw [h, length_append, length_leBytes]

theorem drop_body (n : Nat) : body.drop (w + n) = rest.drop n := by
  rw [h, ← drop_drop, drop_left' (length_leBytes w _)]

theorem fieldAt_body (w' n : Nat) : fieldAt w' (w + n) body = fieldAt w' n rest := by
  rw [fieldAt, fieldAt, drop_body h]

theorem fieldAt_zero (hv : v < 256 ^ w) : fieldAt w 0 body = v := by
  rw [fieldAt, drop_zero, h, take_left' (length_leBytes w _), leNat_leBytes hv]

end

end

section
variable {f : Fcall} {buf body : List UInt8} {len : Nat}

theorem gbit32_faults_or {p : Nat} (h : buf.drop p = body) :
    (body.length < 4 ∧ Faults (gbit32 p) buf) ∨ ∃ (v : UInt32) (rest : List UInt8), body = leBytes 4 v.toNat ++ rest ∧
      buf.drop (p + 4) = rest ∧ gbit32 p buf = .ok v buf := by
  by_cases h4 : 4 ≤ body.length
  · obtain ⟨v, rest, hd⟩ := exists_u32 h4
    rw [hd] at h
    exact .inr ⟨v, rest, hd, drop_add h (length_leBytes 4 _), gbit32_at h⟩
  · exact .inl ⟨by omega, gbit32_short (by rw [h]; omega)⟩

theorem robust_version (hlen : buf.length = 7 + len) (hb : buf.drop 7 = body) :
    Robust (longEnough 100 body) (parseTversion f 7 len) buf ↔ parseSafe 100 f.tag.toNat body = true := by
  by_cases htag : f.tag = notag
  swap
  · have hne : f.tag.toNat ≠ notag.toNat := fun h => htag (UInt16.toNat_inj.mp h)
    have hp : parseTversion f 7 len buf = .ok none buf := by
      unfold parseTversion
      rw [if_pos htag]
      rfl
    exact iff_of_true (Robust.of_none hp rfl) (by simp [parseSafe, hne])
  rcases gbit32_faults_or hb with ⟨hshort, hf⟩ | ⟨msize, rest, hd, -, -⟩
  · have hp : Faults (parseTversion f 7 len) buf := by
      unfold parseTversion
      rw [if_neg (not_not.mpr htag)]
      exact hf.bind
    exact iff_of_false hp.not_robust (by simp [parseSafe, htag, hshort])
  · have h4 : 4 ≤ body.length := by
      have := length_body hd
      omega
    have hdrop : body.drop 4 = rest := drop_body hd 0
    refine iff_of_true ?_ (by simp [parseSafe, h4])
    rcases parseTversion_spec hlen htag (hb.trans hd) with ⟨-, hp⟩ | ⟨s, rest', buf', hs, hlen', hstr, hp⟩
    · exact Robust.of_none hp rfl
    · exact Robust.of_some hp hlen' ⟨s, hstr⟩ (by simp [longEnough, h4, hdrop, stringThen, hs])

theorem robust_attach (hlen : buf.length = 7 + len) (hb : buf.drop 7 = body) :
    Robust (longEnough 104 body) (parseTattach f 7 len) buf ↔ parseSafe 104 f.tag.toNat body = true := by
  rcases gbit32_faults_or hb with ⟨hshort, hf⟩ | ⟨fid, rest, hd, hb1, hr1⟩
  · exact iff_of_false hf.bind.not_robust (by simp [parseSafe]; omega)
  have hlen1 := length_body hd
  rcases gbit32_faults_or hb1 with ⟨hshort, hf⟩ | ⟨afid, rest', hd', -, -⟩
  · exact iff_of_false (Faults.bind_of_ok hr1 hf.bind).not_robust (by simp [parseSafe]; omega)
  have hlen2 := length_body hd'
  have h8 : 8 ≤ body.length := by omega
  have hdrop : body.drop 8 = rest' := (drop_body hd 4).trans (drop_body hd' 0)
  rw [hd'] at hd
  refine iff_of_true ?_ (by simp [parseSafe, h8])
  rcases parseTattach_spec hlen (hb.trans hd) with ⟨-, buf', hlen', hp⟩ | ⟨s, s', buf', hs, hlen', hstr, hstr', hp⟩
  · exact Robust.of_none hp hlen'
  · exact Robust.of_some hp hlen' ⟨⟨s, hstr⟩, ⟨s', hstr'⟩⟩ (by simp [longEnough, h8, hdrop, hs])

/-- A parser that reads fields of fixed width only: `n` bytes, whether or not they are there. -/
theorem robust_fixed {parse : P9M (Option Fcall)} {n : Nat} (hshort : body.length < n → Faults parse buf)
    (hok : n ≤ body.length → ∃ f, parse buf = .ok (some f) buf ∧ f.body.Inside buf) :
    Robust (decide (n ≤ body.length)) parse buf ↔ decide (n ≤ body.length) = true := by
  by_cases hn : n ≤ body.length
  · obtain ⟨f, hp, hf⟩ := hok hn
    exact iff_of_true (Robust.of_some hp rfl hf (by simp [hn])) (by simp [hn])
  · exact iff_of_false (hshort (by omega)).not_robust (by simp [hn])

section
variable (hb : buf.drop 7 = body)
include hb

theorem robust_flush :
    Robust (longEnough 108 body) (parseTflush f 7 len) buf ↔ parseSafe 108 f.tag.toNat body = true := by
  refine robust_fixed (n := 2) (fun hlt => (gbit16_short (by rw [hb]; exact hlt)).bind) fun hle => ?_
  obtain ⟨oldtag, rest, hd⟩ := exists_u16 hle
  refine ⟨{ f with body := .flush oldtag }, ?_, trivial⟩
  unfold parseTflush
  rw [bind_of_ok (gbit16_at (hb.trans hd))]
  rfl

theorem robust_open :
    Robust (longEnough 112 body) (parseTopen f 7 len) buf ↔ parseSafe 112 f.tag.toNat body = true := by
  refine robust_fixed (n := 5) (fun hlt => ?_) fun hle => ?_
  · rcases gbit32_faults_or hb with ⟨-, hf⟩ | ⟨fid, rest, hd, hb1, hr1⟩
    · exact hf.bind
    · have hnil : rest = [] := by
        have := length_body hd
        exact length_eq_zero_iff.mp (by omega)
      refine Faults.bind_of_ok hr1 (Faults.bind ⟨_, _, rd_short ?_⟩)
      exact drop_eq_nil_iff.mp (hb1.trans hnil)
  · obtain ⟨fid, rest, hd⟩ := exists_u32 (show 4 ≤ body.length by omega)
    cases rest with
    | nil =>
      have := length_body hd
      simp at this
      omega
    | cons mode rest => exact ⟨_, parseTopen_spec (hb.trans hd), trivial⟩

theorem robust_fid {size : UInt32} {type : UInt8} {tag : UInt16} :
    Robust (decide (4 ≤ body.length)) (parseFid (headOf size type tag) 7 len) buf ↔
      decide (4 ≤ body.length) = true := by
  refine robust_fixed (fun hlt => (gbit32_short (by rw [hb]; exact hlt)).bind) fun hle => ?_
  obtain ⟨fid, rest, hd⟩ := exists_u32 hle
  exact ⟨_, parseFid_spec (hb.trans hd), trivial⟩

theorem io_faults_or : body.length < 16 ∧
      (∀ k : UInt32 → UInt64 → UInt32 → P9M (Option Fcall), Faults (do
        let fid ← gbit32 7
        let offset ← gbit64 11
        let count ← gbit32 19
        k fid offset count) buf) ∨
    ∃ (fid : UInt32) (offset : UInt64) (count : UInt32) (rest : List UInt8), 16 + rest.length = body.length ∧
      body = leBytes 4 fid.toNat ++ (leBytes 8 offset.toNat ++ (leBytes 4 count.toNat ++ rest)) := by
  rcases gbit32_faults_or hb with ⟨hshort, hf⟩ | ⟨fid, rest, hd, hb1, hr1⟩
  · exact .inl ⟨by omega, fun _ => hf.bind⟩
  have hlen1 := length_body hd
  by_cases h8 : 8 ≤ rest.length
  swap
  · refine .inl ⟨by omega, fun _ => Faults.bind_of_ok hr1 (gbit64_short ?_).bind⟩
    rw [hb1]
    omega
  obtain ⟨offset, rest2, hd2⟩ := exists_u64 h8
  have hlen2 := length_body hd2
  rw [hd2] at hb1
  rcases gbit32_faults_or (drop_add hb1 (length_leBytes 8 _)) with ⟨hshort, hf⟩ | ⟨count, rest3, hd3, -, -⟩
  · exact .inl ⟨by omega, fun _ => Faults.bind_of_ok hr1 (Faults.bind_of_ok (gbit64_at hb1) hf.bind)⟩
  · have hlen3 := length_body hd3
    exact .inr ⟨fid, offset, count, rest3, by omega, by rw [hd, hd2, hd3]⟩

theorem robust_read :
    Robust (longEnough 116 body) (parseTread f 7 len) buf ↔ parseSafe 116 f.tag.toNat body = true := by
  rcases io_faults_or hb with ⟨hshort, hf⟩ | ⟨fid, offset, count, rest, hlen, hd⟩
  · exact robust_fixed (n := 16) (fun _ => hf _) fun hle => absurd hle (by omega)
  · exact robust_fixed (n := 16) (fun hlt => absurd hlt (by omega)) fun _ => ⟨_, parseTread_spec (hb.trans hd), trivial⟩

end

theorem fieldAt_count {fid count : UInt32} {offset : UInt64} {rest : List UInt8}
    (hd : body = leBytes 4 fid.toNat ++ (leBytes 8 offset.toNat ++ (leBytes 4 count.toNat ++ rest))) :
    fieldAt 4 12 body = count.toNat :=
  (fieldAt_body hd 4 8).trans ((fieldAt_body rfl 4 0).trans (fieldAt_zero rfl count.toNat_lt))

theorem robust_write (hlen : body.length < 2 ^ 31) (hb : buf.drop 7 = body) :
    Robust (longEnough 118 body) (parseTwrite f 7 len) buf ↔ parseSafe 118 f.tag.toNat body = true := by
  rcases io_faults_or hb with ⟨hshort, hf⟩ | ⟨fid, offset, count, rest, hlen', hd⟩
  · exact iff_of_false (hf _).not_robust (by simp [parseSafe, longEnough]; omega)
  have hcount := fieldAt_count hd
  have hmax : maxdatalen.toNat = 4294967292 := rfl
  obtain ⟨hbad, hok⟩ := parseTwrite_spec (f := f) len (hb.trans hd) (by omega)
  by_cases hfit : count.toNat ≤ rest.length
  · have hlong : longEnough 118 body = true := by simp [longEnough]; omega
    refine iff_of_true (Robust.of_some (hok _ _ (take_append_drop count.toNat rest).symm ?_) rfl ?_ hlong) hlong
    · rw [length_take]
      omega
    · exact length_take_of_le hfit
  · have hlong : ¬ longEnough 118 body = true := by simp [longEnough]; omega
    exact iff_of_false (hbad (by omega)).not_robust hlong

theorem robust_create (hlen : buf.length = 7 + len) (hb : buf.drop 7 = body) :
    Robust (longEnough 114 body) (parseTcreate f 7 len) buf ↔ parseSafe 114 f.tag.toNat body = true := by
  change _ ↔ longEnough 114 body = true
  rcases gbit32_faults_or hb with ⟨hshort, hf⟩ | ⟨fid, rest, hd, -, -⟩
  · exact iff_of_false hf.bind.not_robust (by simp [longEnough]; omega)
  have hlen1 := length_body hd
  have hdrop : body.drop 4 = rest := drop_body hd 0
  obtain ⟨hbad, hok⟩ := parseTcreate_spec (f := f) hlen (hb.trans hd)
  have hlong : longEnough 114 body = stringThen 5 rest := by
    simp [longEnough, hdrop]
    omega
  rw [hlong]
  cases hs : takeString rest with
  | none =>
    refine iff_of_false (hbad ?_).not_robust (by simp [stringThen, hs])
    rw [hs]
    exact fun _ _ h => nomatch h
  | some r =>
    obtain ⟨s, rest'⟩ := r
    by_cases h5 : 5 ≤ rest'.length
    · have hthen : stringThen 5 rest = true := by simp [stringThen, hs, h5]
      obtain ⟨perm, rest2, hd2⟩ := exists_u32 (show 4 ≤ rest'.length by omega)
      have hlen2 := length_body hd2
      cases rest2 with
      | nil =>
        rw [length_nil] at hlen2
        omega
      | cons mode rest2 =>
        obtain ⟨buf', hlen', hstr, hp⟩ := hok s perm mode rest2 (by rw [hs, hd2])
        exact iff_of_true (Robust.of_some hp hlen' ⟨s, hstr⟩ hthen) hthen
    · refine iff_of_false (hbad ?_).not_robust (by simp [stringThen, hs]; omega)
      intro s' rest'' h
      rw [hs] at h
      cases h
      omega

theorem robust_walk (hlen : buf.length = 7 + len) (hb : buf.drop 7 = body) :
    Robust (longEnough 110 body) (parseTwalk f 7 len) buf ↔ parseSafe 110 f.tag.toNat body = true := by
  rcases gbit32_faults_or hb with ⟨hshort, hf⟩ | ⟨fid, rest, hd, hb1, hr1⟩
  · exact iff_of_false hf.bind.not_robust (by simp [parseSafe]; omega)
  have hlen1 := length_body hd
  rcases gbit32_faults_or hb1 with ⟨hshort, hf⟩ | ⟨newfid, rest2, hd2, hb2, hr2⟩
  · exact iff_of_false (Faults.bind_of_ok hr1 hf.bind).not_robust (by simp [parseSafe]; omega)
  have hlen2 := length_body hd2
  by_cases h2 : 2 ≤ rest2.length
  swap
  · have hf : Faults (gbit16 (7 + 4 + 4)) buf := gbit16_short (by rw [hb2]; omega)
    exact iff_of_false (Faults.bind_of_ok hr1 (Faults.bind_of_ok hr2 hf.bind)).not_robust (by simp [parseSafe]; omega)
  obtain ⟨nwname, rest3, hd3⟩ := exists_u16 h2
  have h10 : 10 ≤ body.length := by omega
  have hdrop : body.drop 10 = rest3 := (drop_body hd 6).trans ((drop_body hd2 2).trans (drop_body hd3 0))
  have hnum : fieldAt 2 8 body = nwname.toNat :=
    (fieldAt_body hd 2 4).trans ((fieldAt_body hd2 2 0).trans (fieldAt_zero hd3 nwname.toNat_lt))
  have hsafe : parseSafe 110 f.tag.toNat body = true ↔ (wholeStrings nwname.toNat rest3).length ≤ maxwelem := by
    simp [parseSafe, h10, hdrop, hnum]
  rw [hsafe]
  rw [hd3] at hd2
  rw [hd2] at hd
  obtain ⟨hbad, hok⟩ := parseTwalk_spec (f := f) hlen (hb.trans hd)
  by_cases hle : (wholeStrings nwname.toNat rest3).length ≤ maxwelem
  · refine iff_of_true ?_ hle
    rcases hok hle with ⟨-, buf', hlen', hp⟩ | ⟨hn, ps, buf', hlen', hall, hp⟩
    · exact Robust.of_none hp hlen'
    · refine Robust.of_some hp hlen' ⟨by rw [hall.length_eq, hn], hall.length_eq ▸ hle, ?_⟩ ?_
      · exact fun p hp => inBuf_of_forall hall hp
      · simp [longEnough, h10, hdrop, hnum, hn]
  · exact iff_of_false (hbad (by omega)).not_robust hle

theorem robust_wstat {size : UInt32} {type : UInt8} {tag : UInt16} :
    Robust (longEnough 126 body) (parseTwstat (headOf size type tag) 7 len) buf ↔ longEnough 126 body = true := by
  have hp : parseTwstat (headOf size type tag) 7 len buf = .ok (some (headOf size type tag)) buf := rfl
  cases hlong : longEnough 126 body with
  | false => exact iff_of_false (not_robust_of_short hp) Bool.false_ne_true
  | true => exact iff_of_true (Robust.of_some hp rfl trivial rfl) rfl

theorem robust_ignore {long : Bool} : Robust long (parseIgnore f 7 len) buf :=
  Robust.of_none (show parseIgnore f 7 len buf = .ok none buf from rfl) rfl

theorem parseSafe_of_none {type tag : Nat} (h : parsefunc type = none) : parseSafe type tag body = false := by
  unfold parseSafe longEnough
  split
  all_goals first | (split; all_goals first | rfl | cases h) | cases h

end

/-- What the parser has to do with a buffer. -/
def ParsesWell (buf : List UInt8) : Prop :=
  Robust (longEnough (msgType buf) (buf.drop 7)) (parsefcall buf.length) buf

theorem exists_header {buf : List UInt8} (h7 : 7 ≤ buf.length) (hsize : leNat (buf.take 4) = buf.length) :
    ∃ size type tag, HasHeader buf size type tag (buf.drop 7) ∧ msgType buf = type.toNat ∧ msgTag buf = tag.toNat := by
  obtain ⟨size, rest, hd⟩ := exists_u32 (show 4 ≤ buf.length by omega)
  have hlen := length_body hd
  cases rest with
  | nil =>
    rw [length_nil] at hlen
    omega
  | cons type rest =>
    rw [length_cons] at hlen
    obtain ⟨tag, rest', hd'⟩ := exists_u16 (show 2 ≤ rest.length by omega)
    rw [hd'] at hd
    have hval : leNat (buf.take 4) = size.toNat := by
      rw [hd, take_left' (length_leBytes 4 _)]
      exact leNat_leBytes size.toNat_lt
    have hh : HasHeader buf size type tag rest' := ⟨hd, by rw [← hval, hsize]⟩
    have h4 : buf.drop 4 = type :: (leBytes 2 tag.toNat ++ rest') := drop_body hd 0
    refine ⟨size, type, tag, hh.drop.symm ▸ hh, ?_, ?_⟩
    · have hget : buf[4]? = some type := by
        rw [← add_zero 4, ← getElem?_drop, h4]
        rfl
      rw [msgType, getD_eq_getElem?_getD, hget]
      rfl
    · have h5 : buf.drop 5 = leBytes 2 tag.toNat ++ rest' := drop_succ h4
      rw [msgTag, h5, take_left' (length_leBytes 2 _)]
      exact leNat_leBytes tag.toNat_lt

/-- **What is read of a message.**  Of a buffer as long as its first four bytes say, which is an `int`, the parser
reads and writes only what is inside, calls a parser of the table, stores at most 16 names and
returns good pointers, and rejects the messages that are too short, exactly if the message is one of `parseSafe`. -/
theorem parseRobust {buf : List UInt8} (h7 : 7 ≤ buf.length) (hint : buf.length < 2 ^ 31)
    (hsize : leNat (buf.take 4) = buf.length) :
    ParsesWell buf ↔ parseSafe (msgType buf) (msgTag buf) (buf.drop 7) = true := by
  obtain ⟨size, type, tag, hh, htype, htag⟩ := exists_header h7 hsize
  have hlen := hh.length
  have hbody : (buf.drop 7).length < 2 ^ 31 := by omega
  rw [ParsesWell, htype, htag]
  cases hp : parsefunc type.toNat with
  | none =>
    have hparse : parsefcall buf.length buf = (throw Fault.nofunc : P9M (Option Fcall)) buf := by
      rw [hh.parsefcall, hp]
    rw [robust_congr hparse, parseSafe_of_none hp]
    exact iff_of_false (Faults.not_robust ⟨_, _, rfl⟩) Bool.false_ne_true
  | some parse =>
    have hparse : parsefcall buf.length buf = parse (headOf size type tag) 7 (buf.drop 7).length buf := by
      rw [hh.parsefcall, hp]
    rw [robust_congr hparse]
    generalize hb : buf.drop 7 = body at *
    generalize type.toNat = n at *
    unfold parsefunc at hp
    split at hp
    all_goals cases hp
    · exact robust_version hlen hb
    · exact iff_of_true robust_ignore rfl
    · exact robust_attach hlen hb
    · exact iff_of_true robust_ignore rfl
    · exact robust_flush hb
    · exact robust_walk hlen hb
    · exact robust_open hb
    · exact robust_create hlen hb
    · exact robust_read hb
    · exact robust_write hbody hb
    · exact robust_fid hb
    · exact robust_fid hb
    · exact robust_fid hb
    · exact robust_wstat

/-- A Tclunk with its fid. -/
theorem parseRobust_clunk : ParsesWell [11, 0, 0, 0, 120, 1, 0, 5, 0, 0, 0] :=
  (parseRobust (by decide) (by decide) (by decide)).mpr (by decide)

/-- A Tread of a header only: its fid is read behind the end of the message. -/
theorem parse_reads_outside : ¬ ParsesWell [7, 0, 0, 0, 116, 0, 0] := by
  have hp : Faults (parsefcall 7) [7, 0, 0, 0, 116, 0, 0] := ⟨_, _, rfl⟩
  exact hp.not_robust

end InternetOs.P9
