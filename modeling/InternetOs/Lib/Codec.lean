import InternetOs.Lib.LittleEndian

/-!
# Decoders

A decoder takes a value off the front of a list and leaves the rest.  `Decodes g l a` says that
`l` is an encoding of `a` for it, whatever follows.

    Decodes g l a → Decodes (f a) l' b → Decodes (g >>= f) (l ++ l') b   (Decodes.bind)
-/

namespace InternetOs

variable {α β γ : Type}

abbrev Get (β α : Type) := StateT (List β) Option α

def Decodes (g : Get β α) (l : List β) (a : α) : Prop := ∀ rest, g (l ++ rest) = some (a, rest)

/-- The value of a list that a decoder takes as a whole. -/
def Get.all (g : Get β α) (l : List β) : Option α := match g l with
  | some (a, []) => some a
  | _ => none

theorem Decodes.all {g : Get β α} {l : List β} {a : α} (h : Decodes g l a) : g.all l = some a := by
  have h0 := h []
  rw [List.append_nil] at h0
  rw [Get.all, h0]

theorem Decodes.pure (a : α) : Decodes (Pure.pure a : Get β α) [] a := fun _ => rfl

theorem Decodes.bind {g : Get β α} {f : α → Get β γ} {l l' : List β} {a : α} {c : γ} (hg : Decodes g l a)
    (hf : Decodes (f a) l' c) : Decodes (g >>= f) (l ++ l') c := by
  intro rest
  change (g (l ++ l' ++ rest)).bind (fun x => f x.1 x.2) = _
  rw [List.append_assoc, hg]
  exact hf rest

theorem Decodes.map {g : Get β α} {l : List β} {a : α} (hg : Decodes g l a) (f : α → γ) :
    Decodes (g >>= fun x => Pure.pure (f x)) l (f a) := by
  have := hg.bind (f := fun x => Pure.pure (f x)) (Decodes.pure (f a))
  rwa [List.append_nil] at this

/-! ## Numbers -/

def getBytes (n : Nat) : Get UInt8 (List UInt8) := fun l =>
  if n ≤ l.length then some (l.take n, l.drop n) else none

theorem decodes_bytes (l : List UInt8) : Decodes (getBytes l.length) l l := by
  intro rest
  rw [getBytes, if_pos (by rw [List.length_append]; omega), List.take_left, List.drop_left]

def getLe (w : Nat) : Get UInt8 Nat := do
  let l ← getBytes w
  Pure.pure (leNat l)

theorem decodes_le {w n : Nat} (hn : n < 256 ^ w) : Decodes (getLe w) (leBytes w n) n := by
  have h := decodes_bytes (leBytes w n)
  rw [length_leBytes] at h
  have := h.map leNat
  rwa [leNat_leBytes hn] at this

def getU8 : Get UInt8 UInt8 := do Pure.pure (UInt8.ofNat (← getLe 1))
def getU16 : Get UInt8 UInt16 := do Pure.pure (UInt16.ofNat (← getLe 2))
def getU32 : Get UInt8 UInt32 := do Pure.pure (UInt32.ofNat (← getLe 4))
def getU64 : Get UInt8 UInt64 := do Pure.pure (UInt64.ofNat (← getLe 8))

theorem decodes_u8 (v : UInt8) : Decodes getU8 [v] v := by
  have h : leBytes 1 v.toNat = [v] := by simp [leBytes]
  have := (decodes_le (w := 1) v.toNat_lt).map UInt8.ofNat
  rwa [h, UInt8.ofNat_toNat] at this

theorem decodes_u16 (v : UInt16) : Decodes getU16 (leBytes 2 v.toNat) v := by
  have := (decodes_le (w := 2) v.toNat_lt).map UInt16.ofNat
  rwa [UInt16.ofNat_toNat] at this

theorem decodes_u32 (v : UInt32) : Decodes getU32 (leBytes 4 v.toNat) v := by
  have := (decodes_le (w := 4) v.toNat_lt).map UInt32.ofNat
  rwa [UInt32.ofNat_toNat] at this

theorem decodes_u64 (v : UInt64) : Decodes getU64 (leBytes 8 v.toNat) v := by
  have := (decodes_le (w := 8) v.toNat_lt).map UInt64.ofNat
  rwa [UInt64.ofNat_toNat] at this

/-! ## Repetition -/

def getMany (g : Get β α) : Nat → Get β (List α)
  | 0 => Pure.pure []
  | n + 1 => do
    let a ← g
    let as ← getMany g n
    Pure.pure (a :: as)

theorem decodes_many {g : Get β α} {enc : α → List β} (h : ∀ a, Decodes g (enc a) a) (as : List α) :
    Decodes (getMany g as.length) (as.flatMap enc) as := by
  induction as with
  | nil => exact Decodes.pure _
  | cons a as ih => exact (h a).bind (ih.map (a :: ·))

end InternetOs
