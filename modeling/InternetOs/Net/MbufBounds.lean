import InternetOs.Lib.Run
import InternetOs.Net.Mbuf

/-!
# The bounds of an mbuf (`kernel/net/mbuf.c`)

`MbufPos` keeps what the four calls move, as the machine has it: `head` is a 64-bit address and
`len` an `unsigned int`.  `mbufpush` looks at the address it has moved, `mbufput` at the length only.

    mbufalloc accepts → (every call of a sequence keeps the bounds ↔ every call fits)   (mbufBounds_iff)

A put may reach over the end of the buffer when there is headroom (`mbufput_over`), a length may wrap,
and so may an address.
-/

namespace InternetOs.Net

structure MbufPos where
  buf : Nat
  head : Nat
  len : Nat
  deriving DecidableEq, Repr

namespace MbufPos

def mbufpull (m : MbufPos) (len : UInt32) : Nat × MbufPos :=
  if m.len < len.toNat then (0, m)
  else (m.head, { m with len := m.len - len.toNat, head := (m.head + len.toNat) % 2 ^ 64 })

/-- `none` is the panic, here and in `mbufput`. -/
def mbufpush (m : MbufPos) (len : UInt32) : Option (Nat × MbufPos) :=
  let head := (m.head + (2 ^ 64 - len.toNat)) % 2 ^ 64
  if head < m.buf then none else some (head, { m with head := head, len := (m.len + len.toNat) % 2 ^ 32 })

def mbufput (m : MbufPos) (len : UInt32) : Option (Nat × MbufPos) :=
  let n := (m.len + len.toNat) % 2 ^ 32
  if mbufSize < n then none else some ((m.head + m.len) % 2 ^ 64, { m with len := n })

def mbuftrim (m : MbufPos) (len : UInt32) : Nat × MbufPos :=
  if m.len < len.toNat then (0, m)
  else ((m.head + (m.len - len.toNat)) % 2 ^ 64, { m with len := m.len - len.toNat })

/-- `mbufalloc` when `ufkalloc` gives memory in which the array is at `buf`. -/
def mbufalloc (buf : Nat) (headroom : UInt32) : Option MbufPos :=
  if mbufSize < headroom.toNat then none else some ⟨buf, (buf + headroom.toNat) % 2 ^ 64, 0⟩

inductive Call
  | pull (len : UInt32)
  | push (len : UInt32)
  | put (len : UInt32)
  | trim (len : UInt32)

def call (m : MbufPos) : Call → Option (Nat × MbufPos)
  | .pull len => some (m.mbufpull len)
  | .push len => m.mbufpush len
  | .put len => m.mbufput len
  | .trim len => some (m.mbuftrim len)

def step (m : MbufPos) (c : Call) : Option MbufPos := (m.call c).map Prod.snd

/-! ## Bounds and meaning of a call -/

def Inside (m : MbufPos) : Prop := m.buf ≤ m.head ∧ m.head + m.len ≤ m.buf + mbufSize

instance (m : MbufPos) : Decidable m.Inside := inferInstanceAs (Decidable (_ ∧ _))

/-- Pull and trim fail when too few bytes are there and then change nothing; push is undone by pull and put by trim. -/
def Meant (m : MbufPos) (r : Nat × MbufPos) : Call → Prop
  | .pull len | .trim len => (r.1 = 0 ↔ m.len < len.toNat) ∧ (r.1 = 0 → r.2 = m)
  | .push len => (r.2.mbufpull len).2 = m
  | .put len => (r.2.mbuftrim len).2 = m

/-- A call that returns keeps the bounds. -/
def Bounded (m : MbufPos) (c : Call) : Prop := ∀ r, m.call c = some r → r.2.Inside ∧ m.Meant r c

/-- The address and the length do not wrap, and a put that is not refused leaves room for the headroom. -/
def Fits (m : MbufPos) : Call → Prop
  | .push len => len.toNat ≤ m.head
  | .put len => m.len + len.toNat < 2 ^ 32 ∧
      (mbufSize < m.len + len.toNat ∨ m.head + m.len + len.toNat ≤ m.buf + mbufSize)
  | _ => True

/-- The array is at an address a buffer can have. -/
def Placed (m : MbufPos) : Prop := 0 < m.buf ∧ m.buf + mbufSize ≤ 2 ^ 63

theorem buf_call {m : MbufPos} {c : Call} {r : Nat × MbufPos} (h : m.call c = some r) : r.2.buf = m.buf := by
  cases c with
  | pull len =>
    cases h
    unfold mbufpull
    split <;> rfl
  | trim len =>
    cases h
    unfold mbuftrim
    split <;> rfl
  | push | put =>
    obtain ⟨-, hr⟩ := Option.ite_none_left_eq_some.mp h
    cases hr
    rfl

section
variable {m : MbufPos} (hp : m.Placed) (hm : m.Inside)
include hp hm

theorem bounded_pull (len : UInt32) : m.Bounded (.pull len) := by
  intro r hr
  cases hr
  unfold Placed mbufSize at hp
  unfold Inside mbufSize at hm ⊢
  unfold mbufpull
  split
  · exact ⟨hm, by simpa, fun _ => rfl⟩
  · dsimp only
    exact ⟨by omega, by omega, fun h0 => by omega⟩

theorem bounded_trim (len : UInt32) : m.Bounded (.trim len) := by
  intro r hr
  cases hr
  unfold Placed mbufSize at hp
  unfold Inside mbufSize at hm ⊢
  unfold mbuftrim
  split
  · exact ⟨hm, by simpa, fun _ => rfl⟩
  · dsimp only
    exact ⟨by omega, by omega, fun h0 => by omega⟩

/-- An address that has wrapped is above the buffer, where nobody looks. -/
theorem bounded_push_iff (len : UInt32) : m.Bounded (.push len) ↔ m.Fits (.push len) := by
  have hlen := len.toNat_lt
  unfold Placed mbufSize at hp
  unfold Inside mbufSize at hm
  constructor
  · intro h
    by_contra hlt
    unfold Fits at hlt
    have hin := (h _ (if_neg (by omega))).1
    unfold Inside mbufSize at hin
    dsimp only at hin
    omega
  · intro hle r hr
    unfold Fits at hle
    obtain ⟨hge, hr⟩ := Option.ite_none_left_eq_some.mp hr
    cases hr
    refine ⟨?_, ?_⟩
    · unfold Inside mbufSize
      dsimp only
      omega
    · show (mbufpull _ len).2 = m
      unfold mbufpull
      rw [if_neg (by dsimp only; omega)]
      exact congrArg₂ (MbufPos.mk m.buf) (by dsimp only; omega) (by dsimp only; omega)

omit hp in
theorem bounded_put_iff (len : UInt32) : m.Bounded (.put len) ↔ m.Fits (.put len) := by
  have hlen := len.toNat_lt
  unfold Inside mbufSize at hm
  constructor
  · intro h
    by_contra hlt
    unfold Fits mbufSize at hlt
    obtain ⟨hin, htrim⟩ := h _ (if_neg (by unfold mbufSize; omega))
    unfold Inside mbufSize at hin
    dsimp only at hin
    have hl := congrArg MbufPos.len htrim
    unfold mbuftrim at hl
    split at hl
    · dsimp only at hl
      omega
    · dsimp only at hl
      omega
  · intro hle r hr
    unfold Fits mbufSize at hle
    obtain ⟨hge, hr⟩ := Option.ite_none_left_eq_some.mp hr
    cases hr
    unfold mbufSize at hge
    refine ⟨?_, ?_⟩
    · unfold Inside mbufSize
      dsimp only
      omega
    · show (mbuftrim _ len).2 = m
      unfold mbuftrim
      rw [if_neg (by dsimp only; omega)]
      exact congrArg (MbufPos.mk m.buf m.head) (by dsimp only; omega)

theorem bounded_iff_fits (c : Call) : m.Bounded c ↔ m.Fits c := by
  cases c with
  | pull len => exact iff_of_true (bounded_pull hp hm len) trivial
  | push len => exact bounded_push_iff hp hm len
  | put len => exact bounded_put_iff hm len
  | trim len => exact iff_of_true (bounded_trim hp hm len) trivial

end

end MbufPos

open MbufPos

/-- **The bounds of an mbuf.**  Every call of a sequence keeps the bounds, and is undone by its opposite, exactly
when every call fits. -/
theorem mbufBounds_iff {buf : Nat} {headroom : UInt32} {m : MbufPos} (hpos : 0 < buf) (hend : buf + mbufSize ≤ 2 ^ 63)
    (ha : MbufPos.mbufalloc buf headroom = some m) (cs : List Call) :
    Always MbufPos.step Bounded m cs ↔ Always MbufPos.step Fits m cs := by
  obtain ⟨hh, ha⟩ := Option.ite_none_left_eq_some.mp ha
  cases ha
  unfold mbufSize at hh hend
  refine always_congr (I := fun m => m.Placed ∧ m.Inside)
    (fun m c h => bounded_iff_fits h.1 h.2 c) ?_ ⟨⟨hpos, hend⟩, ?_⟩ cs
  · rintro m c m' ⟨hp, -⟩ hb hs
    obtain ⟨r, hr, rfl⟩ := Option.map_eq_some_iff.mp hs
    refine ⟨?_, (hb r hr).1⟩
    unfold Placed
    rw [buf_call hr]
    exact hp
  · unfold Inside mbufSize
    dsimp only
    omega

theorem mbufBounds_iff_header : ∃ m, MbufPos.mbufalloc 0x87000000 128 = some m ∧
    Always MbufPos.step Fits m [.push 14, .put 100] ∧ Always MbufPos.step Bounded m [.push 14, .put 100] := by
  have ha : MbufPos.mbufalloc 0x87000000 128 = some ⟨0x87000000, 0x87000080, 0⟩ := rfl
  have hfits : Always MbufPos.step Fits ⟨0x87000000, 0x87000080, 0⟩ [.push 14, .put 100] := by
    refine ⟨by unfold Fits; decide, fun r hr => ⟨?_, fun _ _ => trivial⟩⟩
    cases hr
    unfold Fits
    decide
  exact ⟨_, ha, hfits, (mbufBounds_iff (by decide) (by decide) ha _).mpr hfits⟩

/-- 8192 bytes behind a headroom of 128 are accepted. -/
theorem mbufput_over : ∃ m r, MbufPos.mbufalloc 0x87000000 128 = some m ∧ m.call (.put 8192) = some r ∧
    ¬ r.2.Inside :=
  ⟨_, _, rfl, rfl, by decide⟩

end InternetOs.Net
