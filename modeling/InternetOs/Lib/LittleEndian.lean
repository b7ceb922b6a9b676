import Mathlib.Tactic

/-!
# Little-endian bytes

`leBytes w n` are the `w` bytes of `n`, the lowest first; `leNat` reads them back.

    leNat (leBytes w n) = n                    for n < 256 ^ w      (leNat_leBytes)
    leBytes l.length (leNat l) = l                                  (leBytes_leNat)

Words put together from bytes by shifts are `leNat` of the bytes (`toNat_u16`, `toNat_u32`), also when
the upper half of a 64-bit word had its sign extended before the shift (`toNat_u64`).
-/

namespace InternetOs

def leBytes : Nat → Nat → List UInt8
  | 0, _ => []
  | w + 1, n => UInt8.ofNat n :: leBytes w (n / 256)

def leNat : List UInt8 → Nat
  | [] => 0
  | b :: bs => b.toNat + 256 * leNat bs

@[simp] theorem length_leBytes (w n : Nat) : (leBytes w n).length = w := by
  induction w generalizing n with
  | zero => rfl
  | succ w ih => simp [leBytes, ih]

theorem leNat_leBytes {w n : Nat} (h : n < 256 ^ w) : leNat (leBytes w n) = n := by
  induction w generalizing n with
  | zero =>
    have h0 : n = 0 := by simpa using h
    simp [leBytes, leNat, h0]
  | succ w ih =>
    have hdiv : n / 256 < 256 ^ w := by
      rw [Nat.div_lt_iff_lt_mul (by decide)]
      exact h
    rw [leBytes, leNat, ih hdiv, UInt8.toNat_ofNat']
    omega

theorem leBytes_leNat (l : List UInt8) : leBytes l.length (leNat l) = l := by
  induction l with
  | nil => rfl
  | cons b bs ih =>
    have hb : b.toNat < 256 := b.toNat_lt
    have hlow : UInt8.ofNat (b.toNat + 256 * leNat bs) = b := by
      apply UInt8.toNat_inj.mp
      rw [UInt8.toNat_ofNat']
      omega
    have hrest : (b.toNat + 256 * leNat bs) / 256 = leNat bs := by omega
    rw [List.length_cons, leNat, leBytes, hlow, hrest, ih]

theorem leNat_lt (l : List UInt8) : leNat l < 256 ^ l.length := by
  induction l with
  | nil => simp [leNat]
  | cons b bs ih =>
    have hb : b.toNat < 256 := b.toNat_lt
    rw [leNat, List.length_cons]
    omega

theorem exists_leBytes {w : Nat} {l : List UInt8} (h : w ≤ l.length) :
    ∃ n l', n < 256 ^ w ∧ l = leBytes w n ++ l' := by
  have hlen : (l.take w).length = w := by simp [h]
  have hlt := leNat_lt (l.take w)
  have hval := leBytes_leNat (l.take w)
  rw [hlen] at hlt hval
  exact ⟨leNat (l.take w), l.drop w, hlt, by rw [hval, List.take_append_drop]⟩

theorem leBytes_add (w w' n : Nat) : leBytes (w + w') n = leBytes w n ++ leBytes w' (n / 256 ^ w) := by
  induction w generalizing n with
  | zero => simp [leBytes]
  | succ w ih =>
    have hdiv : n / 256 / 256 ^ w = n / 256 ^ (w + 1) := by rw [Nat.div_div_eq_div_mul, pow_succ']
    rw [Nat.succ_add, leBytes, ih, hdiv, leBytes, List.cons_append]

theorem leBytes_mod (w n : Nat) : leBytes w (n % 256 ^ w) = leBytes w n := by
  have h2 : ∀ w n : Nat, leNat (leBytes w n) = n % 256 ^ w := by
    intro w
    induction w with
    | zero =>
      intro n
      simp [leBytes, leNat, Nat.mod_one]
    | succ w ih =>
      intro n
      have hmod : n % 256 ^ (w + 1) = n % 256 + 256 * (n / 256 % 256 ^ w) := by rw [pow_succ', Nat.mod_mul]
      rw [leBytes, leNat, ih, UInt8.toNat_ofNat', hmod]
  have h3 := leBytes_leNat (leBytes w n)
  rw [length_leBytes, h2] at h3
  exact h3

/-! ## Words from bytes -/

theorem or_shiftLeft {x y k : Nat} (hx : x < 2 ^ k) : x ||| y <<< k = x + y * 2 ^ k := by
  rw [Nat.or_comm, ← Nat.shiftLeft_add_eq_or_of_lt hx, Nat.shiftLeft_eq, add_comm]

theorem toNat_u16 (a b : UInt8) : (a.toUInt16 ||| b.toUInt16 <<< 8).toNat = leNat [a, b] := by
  have ha := a.toNat_lt
  have hb := b.toNat_lt
  simp only [leNat]
  change a.toNat ||| b.toNat <<< 8 % 2 ^ 16 = _
  rw [Nat.mod_eq_of_lt (by rw [Nat.shiftLeft_eq]; omega), or_shiftLeft (by omega)]
  omega

theorem toNat_u32 (a b c d : UInt8) :
    (a.toUInt32 ||| b.toUInt32 <<< 8 ||| c.toUInt32 <<< 16 ||| d.toUInt32 <<< 24).toNat = leNat [a, b, c, d] := by
  have ha := a.toNat_lt
  have hb := b.toNat_lt
  have hc := c.toNat_lt
  have hd := d.toNat_lt
  have hshift : ∀ x k : Nat, x < 256 → k ≤ 24 → x <<< k % 2 ^ 32 = x <<< k := by
    intro x k hx hk
    refine Nat.mod_eq_of_lt ?_
    calc x <<< k = x * 2 ^ k := Nat.shiftLeft_eq x k
      _ ≤ x * 2 ^ 24 := Nat.mul_le_mul_left x (Nat.pow_le_pow_right (by decide) hk)
      _ < 2 ^ 32 := by omega
  have h1 : a.toNat ||| b.toNat <<< 8 = a.toNat + b.toNat * 2 ^ 8 := or_shiftLeft (by omega)
  have h2 : a.toNat ||| b.toNat <<< 8 ||| c.toNat <<< 16 = a.toNat + b.toNat * 2 ^ 8 + c.toNat * 2 ^ 16 := by
    rw [h1]
    exact or_shiftLeft (by omega)
  have h3 : a.toNat ||| b.toNat <<< 8 ||| c.toNat <<< 16 ||| d.toNat <<< 24 =
      a.toNat + b.toNat * 2 ^ 8 + c.toNat * 2 ^ 16 + d.toNat * 2 ^ 24 := by
    rw [h2]
    exact or_shiftLeft (by omega)
  simp only [UInt32.toNat_or, UInt32.toNat_shiftLeft, UInt8.toNat_toUInt32, leNat]
  change a.toNat ||| b.toNat <<< 8 % 2 ^ 32 ||| c.toNat <<< 16 % 2 ^ 32 ||| d.toNat <<< 24 % 2 ^ 32 = _
  rw [hshift _ 8 hb (by decide), hshift _ 16 hc (by decide), hshift _ 24 hd (by decide)]
  omega

theorem signExtend_shiftLeft (h : UInt32) : h.toInt32.toInt64.toUInt64 <<< 32 = h.toUInt64 <<< 32 := by
  have key : ∀ v : BitVec 32, v.signExtend 64 <<< 32 = v.setWidth 64 <<< 32 := by
    intro v
    apply BitVec.eq_of_getLsbD_eq
    intro i hi
    rw [BitVec.getLsbD_shiftLeft, BitVec.getLsbD_shiftLeft]
    by_cases h32 : i < 32
    · simp [h32]
    · rw [BitVec.getLsbD_signExtend, BitVec.getLsbD_setWidth, if_pos (by omega)]
  apply UInt64.toBitVec_inj.mp
  exact key h.toBitVec

theorem toNat_u64 (lo hi : UInt32) :
    (lo.toUInt64 ||| hi.toInt32.toInt64.toUInt64 <<< 32).toNat = lo.toNat + 2 ^ 32 * hi.toNat := by
  have hl := lo.toNat_lt
  have hh := hi.toNat_lt
  rw [signExtend_shiftLeft]
  change lo.toNat ||| hi.toNat <<< 32 % 2 ^ 64 = _
  rw [Nat.mod_eq_of_lt (by rw [Nat.shiftLeft_eq]; omega), or_shiftLeft hl]
  omega

/-! ## Bytes of words -/

theorem toUInt8_shiftRight_u16 (v k : UInt16) : (v >>> k).toUInt8 = UInt8.ofNat (v.toNat / 2 ^ (k.toNat % 16)) := by
  apply UInt8.toNat_inj.mp
  rw [UInt16.toNat_toUInt8, UInt16.toNat_shiftRight, Nat.shiftRight_eq_div_pow, UInt8.toNat_ofNat']

theorem toUInt8_shiftRight_u32 (v k : UInt32) : (v >>> k).toUInt8 = UInt8.ofNat (v.toNat / 2 ^ (k.toNat % 32)) := by
  apply UInt8.toNat_inj.mp
  rw [UInt32.toNat_toUInt8, UInt32.toNat_shiftRight, Nat.shiftRight_eq_div_pow, UInt8.toNat_ofNat']

theorem toUInt8_shiftRight_u64 (v k : UInt64) : (v >>> k).toUInt8 = UInt8.ofNat (v.toNat / 2 ^ (k.toNat % 64)) := by
  apply UInt8.toNat_inj.mp
  rw [UInt64.toNat_toUInt8, UInt64.toNat_shiftRight, Nat.shiftRight_eq_div_pow, UInt8.toNat_ofNat']

theorem leBytes_u16 (v : UInt16) : [v.toUInt8, (v >>> 8).toUInt8] = leBytes 2 v.toNat := by
  simp [toUInt8_shiftRight_u16, leBytes]

theorem leBytes_u32 (v : UInt32) :
    [v.toUInt8, (v >>> 8).toUInt8, (v >>> 16).toUInt8, (v >>> 24).toUInt8] = leBytes 4 v.toNat := by
  simp [toUInt8_shiftRight_u32, leBytes, Nat.div_div_eq_div_mul]

theorem leBytes_u64 (v : UInt64) : [v.toUInt8, (v >>> 8).toUInt8, (v >>> 16).toUInt8, (v >>> 24).toUInt8,
      (v >>> 32).toUInt8, (v >>> 40).toUInt8, (v >>> 48).toUInt8, (v >>> 56).toUInt8] = leBytes 8 v.toNat := by
  simp [toUInt8_shiftRight_u64, leBytes, Nat.div_div_eq_div_mul]

end InternetOs
