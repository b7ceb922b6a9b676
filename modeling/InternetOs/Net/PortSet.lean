import InternetOs.Net.Ports

/-!
# The ports as a set (`get_new_sport`, `get_specified_sport`, `release_sport`)

The bitmap stands for the set of the used ports.  Calls add a port to it or remove one, as they say
they do, while they stay inside the bitmap.  Its last byte is that of the ports 65520 to 65527, so

    a call does what it says ↔ it looks at no port from 65528 on     (portSet_iff)
-/

namespace InternetOs.Net

open List

inductive SportCall
  | getNew
  | getSpecified (sport : UInt16)
  | release (sport : UInt16)

/-- The bytes of `sport_table` that the loop of `get_new_sport` looks at. -/
def getNewSportBytes (sportTable : Nat → Bool) : Nat → Nat → Nat → List Nat
  | 0, _, _ => []
  | fuel + 1, current, islooped =>
    if islooped < 2 then
      current / 8 :: match (range 8).find? fun i => !sportTable (8 * (current / 8) + i) with
        | some _ => []
        | none =>
          if current + 8 ≥ sportNum then getNewSportBytes sportTable fuel startOfSport (islooped + 1)
          else getNewSportBytes sportTable fuel (current + 8) islooped
    else []

namespace SportCall

/-- The bytes of `sport_table` that a call reads or writes. -/
def bytes (n : Stack) : SportCall → List Nat
  | .getNew => getNewSportBytes n.sportTable (3 * sportNum) n.currentSport 0
  | .getSpecified sport | .release sport => [sport.toNat / 8]

/-- The state after a call; `none` is the panic. -/
def step (n : Stack) : SportCall → Option Stack
  | .getNew => (getNewSport n).map Prod.fst
  | .getSpecified sport => some (getSpecifiedSport n sport).1
  | .release sport => some (releaseSport n sport)

def Step (n : Stack) (c : SportCall) (n' : Stack) : Prop := c.step n = some n'

end SportCall

def Stack.usedPorts (n : Stack) : Set UInt16 := { p | n.sportTable p.toNat = true }

/-- What a call has to do: stay inside the bitmap, and be the operation on the set. -/
def SportCall.Meets (n : Stack) (c : SportCall) : Prop :=
  (∀ b ∈ c.bytes n, b < sportElem) ∧
  match c with
  | .getNew =>
    ((∃ p : UInt16, startOfSport ≤ p.toNat ∧ p ∉ n.usedPorts) → (getNewSport n).isSome = true) ∧
    ∀ r, getNewSport n = some r →
      startOfSport ≤ r.2.toNat ∧ r.2 ∉ n.usedPorts ∧ r.1.usedPorts = insert r.2 n.usedPorts
  | .getSpecified sport =>
    -- a caller can tell a success by the result
    ((getSpecifiedSport n sport).2 ≠ 65535 ↔ sport ∉ n.usedPorts) ∧
    (sport ∉ n.usedPorts → (getSpecifiedSport n sport).2 = sport) ∧
    (getSpecifiedSport n sport).1.usedPorts = insert sport n.usedPorts
  | .release sport => (releaseSport n sport).usedPorts = n.usedPorts \ {sport}

/-- The call looks at ports of the bitmap only. -/
def SportCall.InMap (n : Stack) : SportCall → Prop
  | .getNew => ∃ q, n.currentSport ≤ q ∧ q < 8 * sportElem ∧ n.sportTable q = false
  | .getSpecified sport | .release sport => sport.toNat < 8 * sportElem

section
variable {n n' : Stack}

theorem usedPorts_set (p : UInt16) :
    ({ n with sportTable := Function.update n.sportTable p.toNat true } : Stack).usedPorts =
    insert p n.usedPorts := by
  ext q
  by_cases hq : q = p
  · simp [Stack.usedPorts, hq]
  · have hne : q.toNat ≠ p.toNat := fun e => hq (UInt16.toNat_inj.mp e)
    simp [Stack.usedPorts, hq, hne]

theorem usedPorts_clear (p : UInt16) : (releaseSport n p).usedPorts = n.usedPorts \ {p} := by
  ext q
  by_cases hq : q = p
  · simp [Stack.usedPorts, releaseSport, hq]
  · have hne : q.toNat ≠ p.toNat := fun e => hq (UInt16.toNat_inj.mp e)
    simp [Stack.usedPorts, releaseSport, hq, hne]

/-- The search goes on past the bitmap exactly if the rest of it is full. -/
theorem getNewSportBytes_iff {tbl : Nat → Bool} {fuel cur isl : Nat} (hc : AtByte cur) (hfuel : sportNum ≤ fuel + cur)
    (hisl : isl < 2) : (∀ b ∈ getNewSportBytes tbl fuel cur isl, b < sportElem) ↔
      ∃ q, cur ≤ q ∧ q < 8 * sportElem ∧ tbl q = false := by
  have hnum : sportNum = 65535 := rfl
  have helem : sportElem = 8191 := rfl
  induction fuel generalizing cur with
  | zero =>
    obtain ⟨-, -, hhi⟩ := hc
    omega
  | succ fuel ih =>
    obtain ⟨h8, hlo, hhi⟩ := hc
    rw [getNewSportBytes, if_pos hisl, forall_mem_cons]
    split
    · next i hi =>
      have hfree := find?_some hi
      have hlt := mem_range.mp (mem_of_find?_eq_some hi)
      rw [show 8 * (cur / 8) + i = cur + i by omega] at hfree
      constructor
      · rintro ⟨hb, -⟩
        exact ⟨cur + i, by omega, by omega, by simpa using hfree⟩
      · rintro ⟨q, hq, hq', -⟩
        exact ⟨by omega, fun b hb => by cases hb⟩
    · next hnone =>
      split
      · constructor
        · rintro ⟨hb, -⟩
          omega
        · rintro ⟨q, hq, hq', hf⟩
          omega
      · have hnext : AtByte (cur + 8) := ⟨by omega, by omega, by omega⟩
        have hih := ih hnext (by omega)
        constructor
        · rintro ⟨-, hb⟩
          obtain ⟨q, hq, hq'⟩ := hih.mp hb
          exact ⟨q, by omega, hq'⟩
        · rintro ⟨q, hq, hq', hf⟩
          have := free_behind h8 hnone hq hf
          exact ⟨by omega, hih.mpr ⟨q, this, hq', hf⟩⟩

theorem getNewSportLoop_isSome {tbl : Nat → Bool} {fuel cur isl : Nat} (hc : AtByte cur) (hfuel : sportNum ≤ fuel + cur)
    (hisl : isl < 2) (hq : ∃ q, cur ≤ q ∧ q < 8 * sportElem ∧ tbl q = false) :
    (getNewSportLoop tbl fuel cur isl).isSome = true := by
  have hnum : sportNum = 65535 := rfl
  have helem : sportElem = 8191 := rfl
  induction fuel generalizing cur with
  | zero =>
    omega
  | succ fuel ih =>
    obtain ⟨h8, hlo, hhi⟩ := hc
    obtain ⟨q, hq, hq', hf⟩ := hq
    rw [getNewSportLoop, if_pos hisl]
    split
    · rfl
    · next hnone =>
      have hlt := free_behind h8 hnone hq hf
      rw [if_neg (by omega)]
      exact ih ⟨by omega, by omega, by omega⟩ (by omega) ⟨q, hlt, hq', hf⟩

theorem atByte_step {c : SportCall} (hc : AtByte n.currentSport) (h : c.Step n n') : AtByte n'.currentSport := by
  cases c with
  | getNew =>
    obtain ⟨r, hr, rfl⟩ := Option.map_eq_some_iff.mp h
    exact (getNewSport_spec hr hc).1
  | getSpecified sport =>
    rw [← Option.some.inj h, getSpecifiedSport]
    split <;> exact hc
  | release sport =>
    cases h
    exact hc

theorem SportCall.meets_iff (hc : AtByte n.currentSport) (c : SportCall) : c.Meets n ↔ c.InMap n := by
  cases c with
  | getNew =>
    have hiff : (∀ b ∈ SportCall.getNew.bytes n, b < sportElem) ↔ SportCall.getNew.InMap n :=
      getNewSportBytes_iff hc (by omega) (by decide)
    constructor
    · intro h
      exact hiff.mp h.1
    · intro h
      refine ⟨hiff.mpr h, fun _ => ?_, fun r hr => ?_⟩
      · rw [getNewSport, Option.isSome_map]
        exact getNewSportLoop_isSome hc (by omega) (by decide) h
      · obtain ⟨-, hlow, hfree, hn, -⟩ := getNewSport_spec hr hc
        refine ⟨hlow, fun hu => Bool.false_ne_true (hfree.symm.trans hu), ?_⟩
        rw [hn]
        exact usedPorts_set r.2
  | getSpecified sport =>
    constructor
    · intro h
      have := h.1 _ mem_cons_self
      show sport.toNat < 8 * sportElem
      omega
    · intro h
      have h : sport.toNat < 8 * sportElem := h
      have hlast : sport ≠ 65535 := by
        rintro rfl
        exact absurd h (by decide)
      refine ⟨fun b hb => ?_, ?_⟩
      · rw [mem_singleton.mp hb]
        omega
      by_cases hu : n.sportTable sport.toNat = true
      · have hin : sport ∈ n.usedPorts := hu
        simp [getSpecifiedSport, hu, hin]
      · have hout : sport ∉ n.usedPorts := hu
        simp only [getSpecifiedSport, if_neg hu]
        exact ⟨iff_of_true hlast hout, fun _ => trivial, usedPorts_set sport⟩
  | release sport =>
    constructor
    · intro h
      have := h.1 _ mem_cons_self
      show sport.toNat < 8 * sportElem
      omega
    · intro h
      have h : sport.toNat < 8 * sportElem := h
      refine ⟨fun b hb => ?_, usedPorts_clear sport⟩
      rw [mem_singleton.mp hb]
      omega

end

/-- **The allocator as a set.**  In every state that calls lead to, a call stays inside the bitmap and is the
operation on the set of used ports, with a result that tells success from failure, exactly if the ports it looks
at are below 65528. -/
theorem portSet_iff {calls : List SportCall} {n : Stack} (h : Run SportCall.Step socketInit calls n) (c : SportCall) :
    c.Meets n ↔ c.InMap n := by
  have hc : AtByte n.currentSport :=
    Run.inv (I := fun n => AtByte n.currentSport) (fun _ _ _ => atByte_step) h ⟨by decide, by decide, by decide⟩
  exact SportCall.meets_iff hc c

/-- Port 80 after a `get_new_sport`. -/
theorem portSet_iff_web : ∃ n, Run SportCall.Step socketInit [.getNew] n ∧ (SportCall.getSpecified 80).Meets n := by
  obtain ⟨n, hn⟩ : ∃ n, runOf (fun n c => SportCall.step n c) socketInit [.getNew] = some n :=
    Option.isSome_iff_exists.mp (by decide +kernel)
  have hrun : Run SportCall.Step socketInit [.getNew] n := Run.of_runOf hn
  exact ⟨n, hrun, (portSet_iff hrun _).mpr (show (80 : UInt16).toNat < 8 * sportElem by decide)⟩

/-- Port 65535 is behind the bitmap, and getting it returns what a failure returns. -/
theorem portSet_last : ¬ (SportCall.getSpecified 65535).Meets socketInit ∧
    (65535 : UInt16) ∉ socketInit.usedPorts ∧ (getSpecifiedSport socketInit 65535).2 = 65535 := by
  refine ⟨fun h => ?_, Bool.false_ne_true, rfl⟩
  have := h.1 _ mem_cons_self
  exact absurd this (by decide)

end InternetOs.Net
