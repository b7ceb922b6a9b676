import Mathlib.Tactic

/-!
# Positioning a descriptor (`to_offset` in `user/9psv/server.c`)

There is no seek: `to_offset` opens the file again if the descriptor is too far, and then reads until the
difference to the offset of the fid is used up.  At the end of the file `read` returns 0 and the difference
stays.

    the loop ends where it should, or not at all                       (skipped_of_skipLoop, skipLoop_of_skipped)
    to_offset returns, and the fid has the offset only where the file is ↔ Reaches               (toOffset_iff)
-/

namespace InternetOs.P9

/-- The fields of `struct p9_fid` that are used; `offset` is an `int`. -/
structure SeekFid where
  fd : Int
  offset : Int
  deriving DecidableEq, Repr

/-- The file behind the descriptor, which is at `pos`; `opens` is what `p9open` of its path returns. -/
structure OpenFile where
  size : Nat
  pos : Nat
  readable : Bool
  opens : Int
  deriving DecidableEq, Repr

/-- A `read` returns -1. -/
def OpenFile.Fails (d : OpenFile) : Prop := d.readable = false ∨ d.size < d.pos

instance (d : OpenFile) : Decidable d.Fails := inferInstanceAs (Decidable (_ ∨ _))

def OpenFile.read (d : OpenFile) (n : Int) : Int × OpenFile :=
  if d.Fails then (-1, d)
  else (min n (d.size - d.pos), { d with pos := d.pos + (min n (d.size - d.pos)).toNat })

/-- The loop of `to_offset`. -/
def skipLoop : Nat → Int → OpenFile → Option (Int × OpenFile)
  | 0, _, _ => none
  | fuel + 1, diff, d =>
    if diff ≤ 0 then some (0, d)
    else
      let r := d.read (min diff 8192)
      if r.1 < 0 then some (-1, r.2) else skipLoop fuel (diff - r.1) r.2

/-- A value narrowed to `int`. -/
def toInt (x : Int) : Int := x.bmod (2 ^ 32)

/-- The start of `to_offset`: a descriptor that is too far is closed and the file opened again. -/
def reopen (f : SeekFid) (d : OpenFile) (offset : Int) : SeekFid × OpenFile :=
  if f.offset ≤ offset then (f, d)
  else if d.opens < 0 then ({ f with fd := d.opens }, d)
  else (⟨d.opens, 0⟩, { d with pos := 0 })

def toOffset (fuel : Nat) (f : SeekFid) (d : OpenFile) (offset : Int) : Option (Int × SeekFid × OpenFile) :=
  if f.fd = -1 then some (-1, f, d)
  else
    let s := reopen f d offset
    if ¬ f.offset ≤ offset ∧ s.1.fd < 0 then some (-1, s)
    else (skipLoop fuel (toInt (offset - s.1.offset)) s.2).map fun r =>
      if r.1 < 0 then (-1, s.1, r.2) else (0, { s.1 with offset := offset }, r.2)

/-! ## The loop -/

/-- Where the loop ends, if it ends. -/
def OpenFile.skipped (d : OpenFile) (diff : Int) : Option (Int × OpenFile) :=
  if diff ≤ 0 then some (0, d)
  else if d.Fails then some (-1, d)
  else if d.pos + diff ≤ d.size then some (0, { d with pos := d.pos + diff.toNat })
  else none

section
variable {d : OpenFile} {diff : Int}

/-- A read takes some of the rest, or is at the end of the file. -/
theorem skipped_read (hpos : 0 < diff) (hf : ¬ d.Fails) {n : Int} (hn : 0 < n) (hle : n ≤ diff) :
    (d.read n).2.skipped (diff - (d.read n).1) = d.skipped diff := by
  have hlow : d.pos ≤ d.size := by
    unfold OpenFile.Fails at hf
    omega
  have hf' : ∀ p ≤ d.size, ¬ ({ d with pos := p } : OpenFile).Fails := by
    intro p hp hfail
    unfold OpenFile.Fails at hf hfail
    dsimp only at hfail
    exact hf (hfail.imp_right fun h => absurd h (by omega))
  unfold OpenFile.read
  rw [if_neg hf]
  unfold OpenFile.skipped
  dsimp only
  rw [if_neg (not_le.mpr hpos), if_neg hf, if_neg (hf' _ (by omega))]
  by_cases hend : d.pos + diff ≤ d.size
  · rw [if_pos hend]
    by_cases hall : diff = n
    · rw [if_pos (by omega)]
      refine congrArg (fun p => some (0, ({ d with pos := p } : OpenFile))) ?_
      omega
    · rw [if_neg (by omega), if_pos (by omega)]
      refine congrArg (fun p => some (0, ({ d with pos := p } : OpenFile))) ?_
      omega
  · rw [if_neg hend, if_neg (by omega), if_neg (by omega)]

theorem skipLoop_of_fails (hpos : 0 < diff) (hf : d.Fails) (fuel : Nat) :
    skipLoop (fuel + 1) diff d = some (-1, d) := by
  have hr : d.read (min diff 8192) = (-1, d) := if_pos hf
  rw [skipLoop, if_neg (not_le.mpr hpos), hr]
  rfl

theorem skipLoop_of_reads (hpos : 0 < diff) (hf : ¬ d.Fails) (fuel : Nat) :
    skipLoop (fuel + 1) diff d = skipLoop fuel (diff - (d.read (min diff 8192)).1) (d.read (min diff 8192)).2 := by
  have hr : 0 ≤ (d.read (min diff 8192)).1 := by
    unfold OpenFile.read
    rw [if_neg hf]
    unfold OpenFile.Fails at hf
    omega
  rw [skipLoop, if_neg (not_le.mpr hpos)]
  exact if_neg (not_lt.mpr hr)

theorem skipped_of_skipLoop {fuel : Nat} {r : Int × OpenFile} (h : skipLoop fuel diff d = some r) :
    d.skipped diff = some r := by
  induction fuel generalizing diff d with
  | zero => cases h
  | succ fuel ih =>
    by_cases h0 : diff ≤ 0
    · rw [skipLoop, if_pos h0] at h
      rw [OpenFile.skipped, if_pos h0, h]
    · by_cases hf : d.Fails
      · rw [skipLoop_of_fails (by omega) hf] at h
        rw [OpenFile.skipped, if_neg h0, if_pos hf, h]
      · rw [skipLoop_of_reads (by omega) hf] at h
        rw [← skipped_read (n := min diff 8192) (by omega) hf (by omega) (by omega)]
        exact ih h

/-- Each round leaves less to skip, unless it is at the end of the file. -/
theorem skipLoop_of_skipped {r : Int × OpenFile} (h : d.skipped diff = some r) :
    ∃ fuel, skipLoop fuel diff d = some r := by
  induction hk : diff.toNat using Nat.strong_induction_on generalizing diff d with
  | h k ih =>
    by_cases h0 : diff ≤ 0
    · rw [OpenFile.skipped, if_pos h0] at h
      exact ⟨1, by rw [skipLoop, if_pos h0, h]⟩
    · by_cases hf : d.Fails
      · rw [OpenFile.skipped, if_neg h0, if_pos hf] at h
        exact ⟨1, by rw [skipLoop_of_fails (by omega) hf, h]⟩
      · have hlen : d.pos + diff ≤ d.size := by
          by_contra hlen
          rw [OpenFile.skipped, if_neg h0, if_neg hf, if_neg hlen] at h
          cases h
        have hr : (d.read (min diff 8192)).1 = min diff 8192 := by
          unfold OpenFile.read
          rw [if_neg hf]
          omega
        rw [← skipped_read (n := min diff 8192) (by omega) hf (by omega) (by omega)] at h
        obtain ⟨fuel, hfuel⟩ := ih _ (by omega) h rfl
        exact ⟨fuel + 1, by rw [skipLoop_of_reads (by omega) hf, hfuel]⟩

end

/-! ## `to_offset` -/

/-- The call for `off`, narrowed to `o`, returns, and leaves the fid with this offset only if the file is there. -/
def Positions (f : SeekFid) (d : OpenFile) (o off : Int) : Prop :=
  ∃ fuel r, toOffset fuel f d o = some r ∧ (r.2.1.offset = off → (r.2.2.pos : Int) = off)

/-- The call fails with the file at `pos` and the fid at `start`, both 0 if the file was opened again, and leaves
them; or what is to be skipped is in the file and leads to `off`. -/
def Reaches (f : SeekFid) (d : OpenFile) (o off : Int) : Prop :=
  if f.fd = -1 ∨ o < f.offset ∧ d.opens < 0 then f.offset = off → (d.pos : Int) = off
  else
    let pos : Nat := if o < f.offset then 0 else d.pos
    let start := if o < f.offset then 0 else f.offset
    let diff := toInt (o - start)
    if 0 < diff ∧ (d.readable = false ∨ d.size < pos) then start = off → (pos : Int) = off
    else (0 < diff → pos + diff ≤ d.size) ∧ (o = off → pos + max diff 0 = off)

section
variable {f : SeekFid} {d : OpenFile} {o : Int}

theorem toOffset_of_not_opens (hfd : f.fd ≠ -1) (hopen : o < f.offset ∧ d.opens < 0) (fuel : Nat) :
    toOffset fuel f d o = some (-1, { f with fd := d.opens }, d) := by
  unfold toOffset reopen
  rw [if_neg hfd, if_neg (not_le.mpr hopen.1), if_pos hopen.2]
  exact if_pos ⟨not_le.mpr hopen.1, hopen.2⟩

theorem toOffset_of_opens (hfd : f.fd ≠ -1) (hopen : ¬ (o < f.offset ∧ d.opens < 0)) (fuel : Nat) :
    toOffset fuel f d o = (skipLoop fuel (toInt (o - (reopen f d o).1.offset)) (reopen f d o).2).map fun r =>
      if r.1 < 0 then (-1, (reopen f d o).1, r.2) else (0, { (reopen f d o).1 with offset := o }, r.2) := by
  unfold toOffset
  rw [if_neg hfd]
  refine if_neg fun h => ?_
  unfold reopen at h
  rw [if_neg h.1] at h
  split at h
  · omega
  · exact absurd h.2 (by omega)

theorem reopen_eq (hopen : ¬ (o < f.offset ∧ d.opens < 0)) :
    (reopen f d o).1.offset = (if o < f.offset then 0 else f.offset) ∧
      (reopen f d o).2 = { d with pos := if o < f.offset then 0 else d.pos } := by
  unfold reopen
  by_cases hle : f.offset ≤ o
  · rw [if_pos hle, if_neg (not_lt.mpr hle), if_neg (not_lt.mpr hle)]
    exact ⟨rfl, rfl⟩
  · rw [if_neg hle, if_neg (by omega), if_pos (by omega), if_pos (by omega)]
    exact ⟨rfl, rfl⟩

theorem positions_iff_skipped {off : Int} (hfd : f.fd ≠ -1) (hopen : ¬ (o < f.offset ∧ d.opens < 0)) :
    Positions f d o off ↔ ∃ a, (reopen f d o).2.skipped (toInt (o - (reopen f d o).1.offset)) = some a ∧
      ((if a.1 < 0 then (reopen f d o).1.offset else o) = off → (a.2.pos : Int) = off) := by
  have hto := toOffset_of_opens hfd hopen
  constructor
  · rintro ⟨fuel, r, hr, hq⟩
    rw [hto] at hr
    obtain ⟨a, ha, rfl⟩ := Option.map_eq_some_iff.mp hr
    refine ⟨a, skipped_of_skipLoop ha, ?_⟩
    by_cases hneg : a.1 < 0
    · rwa [if_pos hneg] at hq ⊢
    · rwa [if_neg hneg] at hq ⊢
  · rintro ⟨a, ha, hq⟩
    obtain ⟨fuel, hfuel⟩ := skipLoop_of_skipped ha
    refine ⟨fuel, _, by rw [hto, hfuel, Option.map_some], ?_⟩
    by_cases hneg : a.1 < 0
    · rwa [if_pos hneg] at hq ⊢
    · rwa [if_neg hneg] at hq ⊢

end

theorem positions_iff_reaches (f : SeekFid) (d : OpenFile) (o off : Int) :
    Positions f d o off ↔ Reaches f d o off := by
  unfold Reaches
  by_cases hfd : f.fd = -1
  · have hto : ∀ fuel, toOffset fuel f d o = some (-1, f, d) := fun _ => if_pos hfd
    rw [if_pos (.inl hfd)]
    simp [Positions, hto]
  by_cases hopen : o < f.offset ∧ d.opens < 0
  · rw [if_pos (.inr hopen)]
    simp [Positions, toOffset_of_not_opens hfd hopen]
  obtain ⟨hoff, hfile⟩ := reopen_eq hopen
  rw [if_neg (by rintro (h | h); exacts [hfd h, hopen h]), positions_iff_skipped hfd hopen, hoff, hfile]
  unfold OpenFile.skipped
  dsimp only
  generalize (if o < f.offset then 0 else d.pos) = pos
  generalize (if o < f.offset then (0 : Int) else f.offset) = start
  generalize toInt (o - start) = diff
  by_cases h0 : diff ≤ 0
  · rw [if_pos h0, if_neg fun h => absurd h.1 (not_lt.mpr h0), max_eq_right h0]
    simp [h0]
  rw [if_neg h0, max_eq_left (by omega)]
  have hiff : ({ d with pos := pos } : OpenFile).Fails ↔ d.readable = false ∨ d.size < pos := Iff.rfl
  by_cases hfail : d.readable = false ∨ d.size < pos
  · rw [if_pos (hiff.mpr hfail), if_pos ⟨by omega, hfail⟩]
    simp
  rw [if_neg (hfail ∘ hiff.mp), if_neg (hfail ∘ And.right)]
  by_cases hlen : pos + diff ≤ d.size
  · rw [if_pos hlen]
    simp [hlen, Int.toNat_of_nonneg (show 0 ≤ diff by omega)]
  · rw [if_neg hlen]
    exact iff_of_false (by rintro ⟨_, hr, -⟩; cases hr) fun h => hlen (h.1 (by omega))

/-- **The seek of the file server.**  `to_offset` returns, and leaves the fid at the offset of the request only if the
descriptor is there, exactly in the states `Reaches`. -/
theorem toOffset_iff (f : SeekFid) (d : OpenFile) (offset : UInt64) :
    Positions f d (toInt offset.toNat) offset.toNat ↔ Reaches f d (toInt offset.toNat) offset.toNat :=
  positions_iff_reaches f d _ _

/-- A request for offset 10 in a file of 5 bytes is never answered. -/
theorem toOffset_hangs : ¬∃ fuel r, toOffset fuel ⟨3, 0⟩ ⟨5, 0, true, 3⟩ (toInt 10) = some r := by
  rintro ⟨fuel, r, h⟩
  change (skipLoop fuel 10 ⟨5, 0, true, 3⟩).map _ = some r at h
  obtain ⟨q, hq, -⟩ := Option.map_eq_some_iff.mp h
  have hsk : OpenFile.skipped ⟨5, 0, true, 3⟩ 10 = none := by decide
  cases hsk.symm.trans (skipped_of_skipLoop hq)

end InternetOs.P9
