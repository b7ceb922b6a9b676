import InternetOs.Lib.Draws
import InternetOs.Lib.LittleEndian

/-!
# Bytes on the wire (`user/9psv/p9.h`, `utils/string.c`)

The macros that read and write fields, over a buffer whose bytes are the state of a program.
A pointer into the buffer is an offset.  An access outside the buffer, a read through a null
pointer, a call through an empty slot of a function table and a store behind `wname[15]` are
faults.

    gbit32 reads what `leBytes 4` writes, and so on                     (gbit16_at, gbit32_at, gbit64_at)
    gstring moves a string over its own count and leaves what follows   (p9Gstring_some)
-/

namespace InternetOs.P9

open List

inductive Fault
  | outside | null | nofunc | names
  deriving DecidableEq, Repr

abbrev P9M := EStateM Fault (List UInt8)

/-- `p[0]`. -/
def rd (p : Nat) : P9M UInt8 := do
  match (← get)[p]? with
  | some b => pure b
  | none => throw .outside

/-- `GBIT16`. -/
def gbit16 (p : Nat) : P9M UInt16 := do
  let a ← rd p
  let b ← rd (p + 1)
  pure (a.toUInt16 ||| b.toUInt16 <<< 8)

/-- `GBIT32`. -/
def gbit32 (p : Nat) : P9M UInt32 := do
  let a ← rd p
  let b ← rd (p + 1)
  let c ← rd (p + 2)
  let d ← rd (p + 3)
  pure (a.toUInt32 ||| b.toUInt32 <<< 8 ||| c.toUInt32 <<< 16 ||| d.toUInt32 <<< 24)

/-- `GBIT64`: the upper half is an `int` when it is converted, so its sign is extended before the shift. -/
def gbit64 (p : Nat) : P9M UInt64 := do
  let lo ← gbit32 p
  let hi ← gbit32 (p + 4)
  pure (lo.toUInt64 ||| hi.toInt32.toInt64.toUInt64 <<< 32)

/-- `memmove(dst, src, n)`. -/
def memmove (dst src n : Nat) : P9M Unit := do
  let buf ← get
  if dst + n ≤ buf.length ∧ src + n ≤ buf.length then
    set (buf.take dst ++ (buf.drop src).take n ++ buf.drop (dst + n))
  else throw .outside

/-- `p[0] = v`. -/
def wr (p : Nat) (v : UInt8) : P9M Unit := do
  let buf ← get
  if p < buf.length then set (buf.set p v) else throw .outside

/-- `p9_gstring`: null, or the pointer behind the string and the string. -/
def p9Gstring (p ep : Nat) : P9M (Option (Nat × Nat)) := do
  if p + 2 > ep then return none
  let n := (← gbit16 p).toNat
  let p := p + 1
  if p + n + 1 > ep then return none
  memmove p (p + 1) n
  wr (p + n) 0
  return some (p + n + 1, p)

/-- The C string at `p`. -/
def cstr (buf : List UInt8) (p : Nat) : List UInt8 := (buf.drop p).takeWhile (· ≠ 0)

/-! ## Reading fields -/

section
variable {buf rest : List UInt8} {p : Nat}

theorem rd_at {b : UInt8} (h : buf.drop p = b :: rest) : rd p buf = .ok b buf := by
  have hb : buf[p]? = some b := by
    have := congrArg (·[0]?) h
    simpa using this
  unfold rd
  rw [bind_of_ok (rfl : (get : P9M _) buf = .ok buf buf), hb]
  rfl

theorem rd_short (h : buf.length ≤ p) : rd p buf = .error .outside buf := by
  have hb : buf[p]? = none := getElem?_eq_none h
  unfold rd
  rw [bind_of_ok (rfl : (get : P9M _) buf = .ok buf buf), hb]
  rfl

theorem drop_add {l : List UInt8} {n : Nat} (h : buf.drop p = l ++ rest) (hn : l.length = n) :
    buf.drop (p + n) = rest := by
  rw [← drop_drop, h, ← hn, drop_left]

theorem drop_succ {b : UInt8} (h : buf.drop p = b :: rest) : buf.drop (p + 1) = rest :=
  drop_add (l := [b]) h rfl

theorem gbit16_at {v : UInt16} (h : buf.drop p = leBytes 2 v.toNat ++ rest) : gbit16 p buf = .ok v buf := by
  have hv : (UInt8.ofNat v.toNat).toUInt16 ||| (UInt8.ofNat (v.toNat / 256)).toUInt16 <<< 8 = v := by
    apply UInt16.toNat_inj.mp
    rw [toNat_u16]
    exact leNat_leBytes (w := 2) v.toNat_lt
  unfold gbit16
  rw [bind_of_ok (rd_at h), bind_of_ok (rd_at (drop_succ h)), hv]
  rfl

theorem gbit32_at {v : UInt32} (h : buf.drop p = leBytes 4 v.toNat ++ rest) : gbit32 p buf = .ok v buf := by
  have h1 := drop_succ h
  have h2 := drop_succ h1
  have h3 := drop_succ h2
  have hv : (UInt8.ofNat v.toNat).toUInt32 ||| (UInt8.ofNat (v.toNat / 256)).toUInt32 <<< 8 |||
      (UInt8.ofNat (v.toNat / 256 / 256)).toUInt32 <<< 16 |||
      (UInt8.ofNat (v.toNat / 256 / 256 / 256)).toUInt32 <<< 24 = v := by
    apply UInt32.toNat_inj.mp
    rw [toNat_u32]
    exact leNat_leBytes (w := 4) v.toNat_lt
  unfold gbit32
  rw [bind_of_ok (rd_at h), bind_of_ok (rd_at h1), bind_of_ok (rd_at h2), bind_of_ok (rd_at h3), hv]
  rfl

theorem gbit64_at {v : UInt64} (h : buf.drop p = leBytes 8 v.toNat ++ rest) : gbit64 p buf = .ok v buf := by
  have hv := v.toNat_lt
  let lo : UInt32 := UInt32.ofNat v.toNat
  let hi : UInt32 := UInt32.ofNat (v.toNat / 2 ^ 32)
  have hlo : lo.toNat = v.toNat % 256 ^ 4 := UInt32.toNat_ofNat'
  have hhi : hi.toNat = v.toNat / 256 ^ 4 := by
    exact Nat.mod_eq_of_lt (by omega)
  rw [show 8 = 4 + 4 from rfl, leBytes_add, ← hhi, ← leBytes_mod 4 v.toNat, ← hlo, append_assoc] at h
  have h4 := drop_add h (length_leBytes 4 _)
  have hval : lo.toUInt64 ||| hi.toInt32.toInt64.toUInt64 <<< 32 = v := by
    apply UInt64.toNat_inj.mp
    rw [toNat_u64]
    omega
  unfold gbit64
  rw [bind_of_ok (gbit32_at h), bind_of_ok (gbit32_at h4), hval]
  rfl

theorem exists_u16 (h : 2 ≤ rest.length) : ∃ (v : UInt16) (rest' : List UInt8), rest = leBytes 2 v.toNat ++ rest' := by
  obtain ⟨n, rest', hn, he⟩ := exists_leBytes h
  exact ⟨UInt16.ofNat n, rest', by rw [UInt16.toNat_ofNat_of_lt' hn]; exact he⟩

theorem exists_u32 (h : 4 ≤ rest.length) : ∃ (v : UInt32) (rest' : List UInt8), rest = leBytes 4 v.toNat ++ rest' := by
  obtain ⟨n, rest', hn, he⟩ := exists_leBytes h
  exact ⟨UInt32.ofNat n, rest', by rw [UInt32.toNat_ofNat_of_lt' hn]; exact he⟩

theorem exists_u64 (h : 8 ≤ rest.length) : ∃ (v : UInt64) (rest' : List UInt8), rest = leBytes 8 v.toNat ++ rest' := by
  obtain ⟨n, rest', hn, he⟩ := exists_leBytes h
  exact ⟨UInt64.ofNat n, rest', by rw [UInt64.toNat_ofNat_of_lt' hn]; exact he⟩

/-- A program that reads outside the buffer. -/
def Faults {α : Type} (x : P9M α) (buf : List UInt8) : Prop := ∃ e buf', x buf = .error e buf'

theorem Faults.bind {α β : Type} {x : P9M α} {f : α → P9M β} (h : Faults x buf) : Faults (x >>= f) buf := by
  obtain ⟨e, buf', he⟩ := h
  exact ⟨e, buf', bind_of_error he⟩

theorem Faults.bind_of_ok {α β : Type} {x : P9M α} {f : α → P9M β} {a : α} {buf' : List UInt8} (hx : x buf = .ok a buf')
    (h : Faults (f a) buf') : Faults (x >>= f) buf := by
  obtain ⟨e, s, he⟩ := h
  exact ⟨e, s, (InternetOs.bind_of_ok hx).trans he⟩

/-- A program whose first action is to read at `p`, and then at the places behind it. -/
theorem rd_faults_or (buf : List UInt8) (p : Nat) :
    (∃ b rest, buf.drop p = b :: rest ∧ rd p buf = .ok b buf) ∨ (buf.drop p = [] ∧ Faults (rd p) buf) := by
  cases h : buf.drop p with
  | nil => exact .inr ⟨rfl, _, _, rd_short (drop_eq_nil_iff.mp h)⟩
  | cons b rest => exact .inl ⟨b, rest, rfl, rd_at h⟩

theorem gbit16_short (h : (buf.drop p).length < 2) : Faults (gbit16 p) buf := by
  rcases rd_faults_or buf p with ⟨b, rest, hd, hr⟩ | ⟨-, hf⟩
  · refine Faults.bind_of_ok hr (Faults.bind ?_)
    have hlen : rest = [] := by
      rw [hd] at h
      exact length_eq_zero_iff.mp (by simpa using h)
    exact ⟨_, _, rd_short (drop_eq_nil_iff.mp ((drop_succ hd).trans hlen))⟩
  · exact hf.bind

theorem gbit32_short (h : (buf.drop p).length < 4) : Faults (gbit32 p) buf := by
  rcases rd_faults_or buf p with ⟨b, rest, hd, hr⟩ | ⟨-, hf⟩
  swap
  · exact hf.bind
  refine Faults.bind_of_ok hr ?_
  have hd1 := drop_succ hd
  rcases rd_faults_or buf (p + 1) with ⟨b1, rest1, he1, hr1⟩ | ⟨-, hf⟩
  swap
  · exact hf.bind
  refine Faults.bind_of_ok hr1 ?_
  have hd2 := drop_succ he1
  rcases rd_faults_or buf (p + 2) with ⟨b2, rest2, he2, hr2⟩ | ⟨-, hf⟩
  swap
  · exact hf.bind
  refine Faults.bind_of_ok hr2 (Faults.bind ?_)
  have hd3 := drop_succ he2
  have hlen : rest2 = [] := by
    rw [hd, hd1.symm.trans he1, hd2.symm.trans he2] at h
    simp only [length_cons] at h
    exact length_eq_zero_iff.mp (by omega)
  rw [hlen] at hd3
  exact ⟨_, _, rd_short (drop_eq_nil_iff.mp hd3)⟩

theorem gbit64_short (h : (buf.drop p).length < 8) : Faults (gbit64 p) buf := by
  by_cases h4 : 4 ≤ (buf.drop p).length
  · obtain ⟨v, rest, hv⟩ := exists_u32 h4
    refine Faults.bind_of_ok (gbit32_at hv) (Faults.bind (gbit32_short ?_))
    rw [drop_add hv (length_leBytes 4 _)]
    rw [hv, length_append, length_leBytes] at h
    omega
  · exact (gbit32_short (by omega)).bind

/-! ## Counted strings -/

/-- The string `s` with its terminating 0 is at `q`. -/
def StrAt (buf : List UInt8) (q : Nat) (s : List UInt8) : Prop := (buf.drop q).take (s.length + 1) = s ++ [0]

theorem StrAt.cstr {q : Nat} {s : List UInt8} (h : StrAt buf q s) (hs : (0 : UInt8) ∉ s) : cstr buf q = s := by
  have hd : buf.drop q = s ++ 0 :: (buf.drop q).drop (s.length + 1) := by
    conv_lhs => rw [← take_append_drop (s.length + 1) (buf.drop q), h]
    simp
  rw [P9.cstr, hd, takeWhile_append_of_pos]
  · simp
  · intro b hb
    have hb0 : b ≠ 0 := fun e => hs (e ▸ hb)
    simpa using hb0

theorem StrAt.congr {buf' : List UInt8} {q e : Nat} {s : List UInt8} (h : StrAt buf q s) (hq : q + s.length + 1 ≤ e)
    (heq : buf'.take e = buf.take e) : StrAt buf' q s := by
  have key : ∀ b : List UInt8, (b.drop q).take (s.length + 1) = ((b.take e).drop q).take (s.length + 1) := by
    intro b
    rw [drop_take, take_take]
    congr 1
    omega
  unfold StrAt
  rw [key, heq, ← key]
  exact h

/-- The counted string at the start of a list, and what is behind it. -/
def takeString (l : List UInt8) : Option (List UInt8 × List UInt8) :=
  if 2 ≤ l.length ∧ 2 + leNat (l.take 2) ≤ l.length then
    some ((l.drop 2).take (leNat (l.take 2)), l.drop (2 + leNat (l.take 2)))
  else none

theorem takeString_append {s : List UInt8} (hs : s.length < 2 ^ 16) (rest : List UInt8) :
    takeString (leBytes 2 s.length ++ s ++ rest) = some (s, rest) := by
  have htake : (leBytes 2 s.length ++ s ++ rest).take 2 = leBytes 2 s.length := by
    rw [append_assoc, take_left' (length_leBytes 2 _)]
  have hn : leNat (leBytes 2 s.length) = s.length := leNat_leBytes (by simpa using hs)
  have hlen : (leBytes 2 s.length ++ s ++ rest).length = 2 + s.length + rest.length := by
    rw [length_append, length_append, length_leBytes]
  have hdrop : (leBytes 2 s.length ++ s ++ rest).drop 2 = s ++ rest := by
    rw [append_assoc, drop_left' (length_leBytes 2 _)]
  have hdrop' : (leBytes 2 s.length ++ s ++ rest).drop (2 + s.length) = rest :=
    drop_left' (by simp)
  rw [takeString, htake, hn, if_pos (by omega), hdrop, hdrop', take_left]

/-- `p9_gstring` returns null where the string does not fit, and changes nothing. -/
theorem p9Gstring_none (h : takeString (buf.drop p) = none) : p9Gstring p buf.length buf = .ok none buf := by
  have hno : ¬ (2 ≤ (buf.drop p).length ∧ 2 + leNat ((buf.drop p).take 2) ≤ (buf.drop p).length) := by
    intro hfit
    rw [takeString, if_pos hfit] at h
    cases h
  have hlen : (buf.drop p).length = buf.length - p := length_drop
  unfold p9Gstring
  by_cases h2 : p + 2 > buf.length
  · rw [if_pos h2]
    rfl
  · rw [if_neg h2]
    obtain ⟨v, rest, hv⟩ := exists_u16 (show 2 ≤ (buf.drop p).length by omega)
    have hn : leNat ((buf.drop p).take 2) = v.toNat := by
      rw [hv, take_left' (length_leBytes 2 _)]
      exact leNat_leBytes v.toNat_lt
    rw [bind_of_ok (gbit16_at hv)]
    rw [if_pos (by omega)]
    rfl

/-- **`p9_gstring`** of a string that fits: it is terminated in the place it was read from, and what follows it
is as before. -/
theorem p9Gstring_some {s : List UInt8} (h : takeString (buf.drop p) = some (s, rest)) :
    ∃ buf', p9Gstring p buf.length buf = .ok (some (p + 2 + s.length, p + 1)) buf' ∧
      buf'.drop (p + 2 + s.length) = rest ∧ buf'.take p = buf.take p ∧ buf'.length = buf.length ∧
      StrAt buf' (p + 1) s := by
  have hfit : 2 ≤ (buf.drop p).length ∧ 2 + leNat ((buf.drop p).take 2) ≤ (buf.drop p).length := by
    by_contra hno
    rw [takeString, if_neg hno] at h
    cases h
  rw [takeString, if_pos hfit] at h
  have hlen : (buf.drop p).length = buf.length - p := length_drop
  obtain ⟨v, rest', hv⟩ := exists_u16 hfit.1
  have hn : leNat ((buf.drop p).take 2) = v.toNat := by
    rw [hv, take_left' (length_leBytes 2 _)]
    exact leNat_leBytes v.toNat_lt
  rw [hn] at h hfit
  obtain ⟨hs, hrest⟩ := Prod.mk.inj (Option.some.inj h)
  rw [drop_drop] at hs hrest
  have hslen : s.length = v.toNat := by
    rw [← hs, length_take, length_drop]
    omega
  -- the buffer after `memmove` and after the terminating 0
  have hmove : memmove (p + 1) (p + 1 + 1) v.toNat buf =
      .ok () (buf.take (p + 1) ++ s ++ buf.drop (p + 1 + v.toNat)) := by
    unfold memmove
    rw [bind_of_ok (rfl : (get : P9M _) buf = .ok buf buf), if_pos (by omega), ← hs]
    rfl
  have htake : (buf.take (p + 1)).length = p + 1 := by
    rw [length_take]
    omega
  have hpre : (buf.take (p + 1) ++ s).length = p + 1 + v.toNat := by rw [length_append, htake, hslen]
  obtain ⟨b, hcons⟩ : ∃ b, buf.drop (p + 1 + v.toNat) = b :: rest := by
    cases hd : buf.drop (p + 1 + v.toNat) with
    | nil =>
      have := drop_eq_nil_iff.mp hd
      omega
    | cons b r =>
      refine ⟨b, ?_⟩
      rw [← hrest, show p + (2 + v.toNat) = p + 1 + v.toNat + 1 by omega, drop_succ hd]
  have hset : wr (p + 1 + v.toNat) 0 (buf.take (p + 1) ++ s ++ buf.drop (p + 1 + v.toNat)) =
      .ok () (buf.take (p + 1) ++ s ++ 0 :: rest) := by
    unfold wr
    rw [bind_of_ok (rfl : (get : P9M _) _ = .ok _ _), if_pos (by rw [length_append, hpre, hcons]; simp)]
    change EStateM.Result.ok () _ = _
    rw [hcons, set_append_right _ _ (by omega), hpre, Nat.sub_self]
    rfl
  refine ⟨buf.take (p + 1) ++ s ++ 0 :: rest, ?_, ?_, ?_, ?_, ?_⟩
  · unfold p9Gstring
    rw [if_neg (by omega), bind_of_ok (gbit16_at hv)]
    rw [if_neg (by omega), bind_of_ok hmove, bind_of_ok hset, hslen]
    have hend : p + 1 + v.toNat + 1 = p + 2 + v.toNat := by omega
    rw [hend]
    rfl
  · have hassoc : buf.take (p + 1) ++ s ++ 0 :: rest = (buf.take (p + 1) ++ s ++ [0]) ++ rest := by simp
    rw [hassoc]
    refine drop_left' ?_
    rw [length_append, hpre]
    simp
    omega
  · rw [append_assoc, take_append_of_le_length (by omega), take_take]
    congr 1
    omega
  · have hrestlen : rest.length = buf.length - (p + (2 + v.toNat)) := by rw [← hrest, length_drop]
    rw [length_append, length_cons]
    omega
  · unfold StrAt
    have hassoc : buf.take (p + 1) ++ s ++ 0 :: rest = buf.take (p + 1) ++ ((s ++ [0]) ++ rest) := by simp
    rw [hassoc, drop_left' htake, take_left' (by simp)]

end

end InternetOs.P9
