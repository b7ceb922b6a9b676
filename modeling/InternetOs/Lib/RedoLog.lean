import Mathlib.Tactic

/-!
# A redo log on a device of atomic cells

A device is a function from addresses to values; a program's effect on it is the list of its
writes, and a machine that stops leaves a prefix of that list.  The log has a head cell, which
reads as a number of entries with their home addresses, and a slot for each entry.

    commit   = slots, head with k entries, homes, head with none
    recover  = homes of the entries the head names, head with none

Whatever prefix of `commit` and then of any number of `recover`s was written, the device is
`Recoverable`, and a whole `recover` then leaves all homes old or all homes new:

    p <+: commit … → Recoverable (applyWrites d p)                     (Recoverable.of_commit)
    p <+: recover d z → Recoverable d → Recoverable (applyWrites d p)   (Recoverable.stopped)
    Recoverable d → Settled old … ∨ Settled new …                      (Recoverable.settled)
-/

namespace InternetOs

open Function List

section
variable {A V : Type} [DecidableEq A]

/-- The device after a list of writes. -/
def applyWrites (d : A → V) (ws : List (A × V)) : A → V :=
  ws.foldl (fun d w => update d w.1 w.2) d

@[simp] theorem applyWrites_nil (d : A → V) : applyWrites d [] = d := rfl

@[simp] theorem applyWrites_cons (d : A → V) (w : A × V) (ws : List (A × V)) :
    applyWrites d (w :: ws) = applyWrites (update d w.1 w.2) ws := rfl

theorem applyWrites_append (d : A → V) (ws ws' : List (A × V)) :
    applyWrites d (ws ++ ws') = applyWrites (applyWrites d ws) ws' :=
  foldl_append

/-- All writes to a cell write the same value, and there is one. -/
theorem applyWrites_mem {d : A → V} {ws : List (A × V)} {b : A} {v : V}
    (h : ∀ w ∈ ws, w.1 = b → w.2 = v) (hex : d b = v ∨ ∃ w ∈ ws, w.1 = b) : applyWrites d ws b = v := by
  induction ws generalizing d with
  | nil => exact hex.resolve_right fun ⟨w, hw, _⟩ => absurd hw not_mem_nil
  | cons w ws ih =>
    rw [applyWrites_cons]
    refine ih (fun x hx => h x (mem_cons_of_mem w hx)) ?_
    by_cases hw : w.1 = b
    · left
      rw [← hw, update_self]
      exact h w mem_cons_self hw
    · rw [update_of_ne (Ne.symm hw)]
      rcases hex with hd | ⟨x, hx, hb⟩
      · exact .inl hd
      · rcases mem_cons.mp hx with rfl | hx
        · exact absurd hb hw
        · exact .inr ⟨x, hx, hb⟩

/-- What every write of a list keeps holds after each prefix of it. -/
theorem applyWrites_inv {I : (A → V) → Prop} {ws p : List (A × V)}
    (h : ∀ w ∈ ws, ∀ d, I d → I (update d w.1 w.2)) (hp : p <+: ws) {d : A → V}
    (h0 : I d) : I (applyWrites d p) := by
  have hsub : ∀ w ∈ p, ∀ d, I d → I (update d w.1 w.2) := fun w hw => h w (hp.subset hw)
  clear h hp
  induction p generalizing d with
  | nil => exact h0
  | cons w p ih =>
    exact ih (hsub w mem_cons_self d h0) fun x hx => hsub x (mem_cons_of_mem w hx)

theorem append_isPrefix_cases {W : Type} {p l1 l2 : List W} (h : p <+: l1 ++ l2) :
    p <+: l1 ∨ ∃ q, q <+: l2 ∧ p = l1 ++ q := by
  obtain ⟨t, ht⟩ := h
  rcases append_eq_append_iff.mp ht with ⟨a, rfl, -⟩ | ⟨c, rfl, hc⟩
  · exact .inl ⟨a, rfl⟩
  · exact .inr ⟨c, ⟨t, hc.symm⟩, rfl⟩

end

/-! ## The log -/

/-- The cells of the log, and how the head reads. -/
structure RedoLog (A V : Type) where
  head : A
  slot : Nat → A
  count : V → Nat
  home : V → Nat → A

namespace RedoLog

section
variable {A V : Type} (R : RedoLog A V)

/-- Copies the slots to the homes. -/
def installs (d : A → V) (k : Nat) (home : Nat → A) : List (A × V) :=
  (range k).map fun i => (home i, d (R.slot i))

variable {R} in
theorem installs_congr {d : A → V} {k : Nat} {home home' : Nat → A} {new : Nat → V}
    (hh : ∀ i < k, home i = home' i) (hs : ∀ i < k, d (R.slot i) = new i) :
    R.installs d k home = (range k).map fun i => (home' i, new i) := by
  refine map_congr_left fun i hi => ?_
  rw [hh i (mem_range.mp hi), hs i (mem_range.mp hi)]

/-- The writes of a recovery; `z` is a head without entries. -/
def recover (d : A → V) (z : V) : List (A × V) :=
  R.installs d (R.count (d R.head)) (R.home (d R.head)) ++ [(R.head, z)]

/-- The writes of a commit of the values `new`; `h` is the head with the entries. -/
def commit (k : Nat) (home : Nat → A) (new : Nat → V) (h z : V) : List (A × V) :=
  ((range k).map fun i => (R.slot i, new i)) ++
    ([(R.head, h)] ++ (((range k).map fun i => (home i, new i)) ++ [(R.head, z)]))

/-- The cells of a transaction and of the log are all different. -/
structure Apart (k : Nat) (home : Nat → A) : Prop where
  home_inj : ∀ i < k, ∀ j < k, home i = home j → i = j
  home_head : ∀ i < k, home i ≠ R.head
  home_slot : ∀ i < k, ∀ j < k, home i ≠ R.slot j
  slot_inj : ∀ i < k, ∀ j < k, R.slot i = R.slot j → i = j
  slot_head : ∀ i < k, R.slot i ≠ R.head

/-- Cells that are neither homes nor in the log are as in `d₀`. -/
def Frame (d₀ : A → V) (k : Nat) (home : Nat → A) (d : A → V) : Prop :=
  ∀ a, a ≠ R.head → (∀ i < k, a ≠ R.slot i) → (∀ i < k, a ≠ home i) → d a = d₀ a

/-- The head has no entries; the homes hold `c`. -/
structure Settled (d₀ : A → V) (k : Nat) (home : Nat → A) (c : Nat → V) (d : A → V) : Prop where
  empty : R.count (d R.head) = 0
  homes : ∀ i < k, d (home i) = c i
  frame : R.Frame d₀ k home d

/-- The head names the homes and the slots hold the values. -/
structure Committed (d₀ : A → V) (k : Nat) (home : Nat → A) (new : Nat → V) (d : A → V) : Prop where
  count : R.count (d R.head) = k
  named : ∀ i < k, R.home (d R.head) i = home i
  slots : ∀ i < k, d (R.slot i) = new i
  frame : R.Frame d₀ k home d

/-- The states a stopped commit or recovery can leave. -/
def Recoverable (d₀ : A → V) (k : Nat) (home : Nat → A) (new : Nat → V) (d : A → V) : Prop :=
  R.Settled d₀ k home (fun i => d₀ (home i)) d ∨ R.Committed d₀ k home new d ∨ R.Settled d₀ k home new d

end

section
variable {A V : Type} [DecidableEq A] {R : RedoLog A V} {d₀ d : A → V} {k : Nat} {home : Nat → A}
  {new c : Nat → V} {h z : V} {p : List (A × V)}

theorem Frame.update_head (hf : R.Frame d₀ k home d) (v : V) : R.Frame d₀ k home (update d R.head v) := by
  intro a h1 h2 h3
  rw [update_of_ne h1]
  exact hf a h1 h2 h3

theorem Frame.update_slot (hf : R.Frame d₀ k home d) {i : Nat} (hi : i < k) (v : V) :
    R.Frame d₀ k home (update d (R.slot i) v) := by
  intro a h1 h2 h3
  rw [update_of_ne (h2 i hi)]
  exact hf a h1 h2 h3

theorem Frame.update_home (hf : R.Frame d₀ k home d) {i : Nat} (hi : i < k) (v : V) :
    R.Frame d₀ k home (update d (home i) v) := by
  intro a h1 h2 h3
  rw [update_of_ne (h3 i hi)]
  exact hf a h1 h2 h3

section
variable (hA : R.Apart k home)
include hA

/-- Until the head is written, the log may be written at will. -/
theorem Settled.update_slot (hd : R.Settled d₀ k home c d) {i : Nat}
    (hi : i < k) (v : V) : R.Settled d₀ k home c (update d (R.slot i) v) := by
  refine ⟨?_, fun j hj => ?_, hd.frame.update_slot hi v⟩
  · rw [update_of_ne (Ne.symm (hA.slot_head i hi))]
    exact hd.empty
  · rw [update_of_ne (hA.home_slot j hj i hi)]
    exact hd.homes j hj

theorem Settled.update_head (hd : R.Settled d₀ k home c d)
    (hz : R.count z = 0) : R.Settled d₀ k home c (update d R.head z) := by
  refine ⟨by rw [update_self]; exact hz, fun j hj => ?_, hd.frame.update_head z⟩
  rw [update_of_ne (hA.home_head j hj)]
  exact hd.homes j hj

/-- Once the head is written, the homes may be written at will. -/
theorem Committed.update_home (hd : R.Committed d₀ k home new d) {i : Nat}
    (hi : i < k) (v : V) : R.Committed d₀ k home new (update d (home i) v) := by
  have hhead : update d (home i) v R.head = d R.head :=
    update_of_ne (Ne.symm (hA.home_head i hi)) _ _
  refine ⟨by rw [hhead]; exact hd.count, fun j hj => by rw [hhead]; exact hd.named j hj,
    fun j hj => ?_, hd.frame.update_home hi v⟩
  rw [update_of_ne (Ne.symm (hA.home_slot i hi j hj))]
  exact hd.slots j hj

theorem Committed.finish (hd : R.Committed d₀ k home new d) (hz : R.count z = 0) : R.Settled d₀ k home new
      (applyWrites d (((range k).map fun i => (home i, new i)) ++ [(R.head, z)])) := by
  have hinst : ∀ j < k, applyWrites d ((range k).map fun i => (home i, new i)) (home j) = new j := by
    intro j hj
    refine applyWrites_mem ?_ (.inr ⟨(home j, new j), mem_map_of_mem (mem_range.mpr hj), rfl⟩)
    intro w hw heq
    obtain ⟨i, hi, rfl⟩ := mem_map.mp hw
    rw [hA.home_inj i (mem_range.mp hi) j hj heq]
  have hframe : R.Frame d₀ k home (applyWrites d ((range k).map fun i => (home i, new i))) := by
    refine applyWrites_inv (fun w hw d hf => ?_) (prefix_refl _) hd.frame
    obtain ⟨i, hi, rfl⟩ := mem_map.mp hw
    exact Frame.update_home hf (mem_range.mp hi) _
  rw [applyWrites_append, applyWrites_cons, applyWrites_nil]
  refine ⟨by rw [update_self]; exact hz, fun j hj => ?_, hframe.update_head z⟩
  rw [update_of_ne (hA.home_head j hj)]
  exact hinst j hj

/-- While the homes are written the transaction stays committed. -/
theorem Committed.install (hd : R.Committed d₀ k home new d) (hz : R.count z = 0)
    (hp : p <+: ((range k).map fun i => (home i, new i)) ++ [(R.head, z)]) :
    R.Recoverable d₀ k home new (applyWrites d p) := by
  rcases prefix_concat_iff.mp hp with rfl | hp
  · exact .inr (.inr (hd.finish hA hz))
  · refine .inr (.inl (applyWrites_inv (fun w hw d hd => ?_) hp hd))
    obtain ⟨i, hi, rfl⟩ := mem_map.mp hw
    exact Committed.update_home hA hd (mem_range.mp hi) _

/-- The head is written over slots that hold the values: the transaction is committed. -/
theorem Settled.writeHead (hd : R.Settled d₀ k home c d)
    (hs : ∀ i < k, d (R.slot i) = new i) (hk : R.count h = k) (hh : ∀ i < k, R.home h i = home i) :
    R.Committed d₀ k home new (update d R.head h) := by
  refine ⟨by rw [update_self]; exact hk,
    fun i hi => by rw [update_self]; exact hh i hi, fun i hi => ?_, hd.frame.update_head h⟩
  rw [update_of_ne (hA.slot_head i hi)]
  exact hs i hi

/-- **A commit that stops anywhere** leaves a recoverable device. -/
theorem Recoverable.of_commit (h0 : R.count (d₀ R.head) = 0)
    (hk : R.count h = k) (hh : ∀ i < k, R.home h i = home i) (hz : R.count z = 0)
    (hp : p <+: R.commit k home new h z) : R.Recoverable d₀ k home new (applyWrites d₀ p) := by
  have hold : R.Settled d₀ k home (fun i => d₀ (home i)) d₀ :=
    ⟨h0, fun _ _ => rfl, fun _ _ _ _ => rfl⟩
  have hlog : ∀ {q}, q <+: ((range k).map fun i => (R.slot i, new i)) →
      R.Settled d₀ k home (fun i => d₀ (home i)) (applyWrites d₀ q) := by
    intro q hq
    refine applyWrites_inv (fun w hw d hd => ?_) hq hold
    obtain ⟨i, hi, rfl⟩ := mem_map.mp hw
    exact Settled.update_slot hA hd (mem_range.mp hi) _
  rcases append_isPrefix_cases hp with hp | ⟨q, hq, rfl⟩
  · exact .inl (hlog hp)
  · have hslots : ∀ i < k, applyWrites d₀ ((range k).map fun i => (R.slot i, new i)) (R.slot i) = new i := by
      intro i hi
      refine applyWrites_mem ?_
        (.inr ⟨(R.slot i, new i), mem_map_of_mem (mem_range.mpr hi), rfl⟩)
      intro w hw heq
      obtain ⟨j, hj, rfl⟩ := mem_map.mp hw
      rw [hA.slot_inj j (mem_range.mp hj) i hi heq]
    rw [applyWrites_append]
    cases q with
    | nil => exact .inl (hlog (prefix_refl _))
    | cons w q =>
      obtain ⟨rfl, hq'⟩ := cons_prefix_cons.mp hq
      rw [applyWrites_cons]
      exact Committed.install hA ((hlog (prefix_refl _)).writeHead hA hslots hk hh) hz hq'

end

omit [DecidableEq A] in
/-- What a recovery writes: the head only, unless the transaction is committed. -/
theorem Recoverable.recover_eq (hd : R.Recoverable d₀ k home new d) :
    ((R.Settled d₀ k home (fun i => d₀ (home i)) d ∨ R.Settled d₀ k home new d) ∧ R.recover d z = [(R.head, z)]) ∨
      (R.Committed d₀ k home new d ∧
        R.recover d z = ((range k).map fun i => (home i, new i)) ++ [(R.head, z)]) := by
  unfold recover
  rcases hd with hd | hd | hd
  · exact Or.inl ⟨Or.inl hd, by rw [hd.empty]; rfl⟩
  · refine Or.inr ⟨hd, ?_⟩
    rw [hd.count, installs_congr hd.named hd.slots]
  · exact Or.inl ⟨Or.inr hd, by rw [hd.empty]; rfl⟩

theorem recover_head : applyWrites d (R.recover d z) R.head = z := by
  unfold recover
  rw [applyWrites_append, applyWrites_cons, applyWrites_nil, update_self]

/-- **A whole recovery** settles the transaction, one way or the other. -/
theorem Recoverable.settled (hA : R.Apart k home) (hd : R.Recoverable d₀ k home new d) (hz : R.count z = 0) :
    R.Settled d₀ k home (fun i => d₀ (home i)) (applyWrites d (R.recover d z)) ∨
      R.Settled d₀ k home new (applyWrites d (R.recover d z)) := by
  rcases hd.recover_eq (z := z) with ⟨hs, hr⟩ | ⟨hc, hr⟩
  · rw [hr]
    exact hs.imp (fun hs => hs.update_head hA hz) fun hs => hs.update_head hA hz
  · rw [hr]
    exact .inr (hc.finish hA hz)

/-- **A recovery that stops anywhere** leaves a recoverable device. -/
theorem Recoverable.stopped (hA : R.Apart k home) (hd : R.Recoverable d₀ k home new d)
    (hz : R.count z = 0) (hp : p <+: R.recover d z) : R.Recoverable d₀ k home new (applyWrites d p) := by
  rcases hd.recover_eq (z := z) with ⟨-, hr⟩ | ⟨hc, hr⟩
  · rcases prefix_concat_iff.mp (hr ▸ hp : p <+: [] ++ [(R.head, z)]) with rfl | hp
    · rw [← hr]
      exact (hd.settled hA hz).imp_right .inr
    · rw [prefix_nil.mp hp]
      exact hd
  · rw [hr] at hp
    exact hc.install hA hz hp

end

end RedoLog

end InternetOs
