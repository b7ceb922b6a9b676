import Mathlib.Tactic

/-!
# Programs that write and may stop

A program over a state with a trace of writes ends, or stops in the middle.  `Emits` says
what it has written by then: a given list when it ends, a prefix of it when it stops.  It may
stop only if `may`, so that `may = False` is total correctness.  `fr` is a part of the state
that stays as it is.

    Emits x ws P → (P a s' → Emits (f a) ws' Q) → Emits (x >>= f) (ws ++ ws') Q      (Emits.bind)
    I i s → Emits (body i) [w i] (I (i + 1))  for each i < n  →
      Emits (upto body n) [w 0, …, w (n - 1)] (I n)                                (Emits.upto)
-/

namespace InternetOs

section
variable {ε σ α β W F : Type}

/-- From `s` the program `x` writes `ws` and ends with `Q`, or it stops after a prefix of `ws`. -/
def Emits (fr : σ → F) (tr : σ → List W) (may : Prop) (x : EStateM ε σ α) (s : σ) (ws : List W)
    (Q : α → σ → Prop) : Prop :=
  match x s with
  | .ok a s' => fr s' = fr s ∧ tr s' = tr s ++ ws ∧ Q a s'
  | .error _ s' => may ∧ fr s' = fr s ∧ ∃ p, p <+: ws ∧ tr s' = tr s ++ p

/-- The state in which a program ends or stops. -/
def endState (x : EStateM ε σ α) (s : σ) : σ :=
  match x s with
  | .ok _ s' => s'
  | .error _ s' => s'

/-- `for (i = 0; i < n; i++) body(i)`. -/
def uptoFrom (body : Nat → EStateM ε σ Unit) : Nat → Nat → EStateM ε σ Unit
  | _, 0 => pure ()
  | i, n + 1 => do
    body i
    uptoFrom body (i + 1) n

def upto (body : Nat → EStateM ε σ Unit) (n : Nat) : EStateM ε σ Unit := uptoFrom body 0 n

theorem ok_endState {x : EStateM ε σ Unit} {s : σ}
    (h : (match x s with | .ok _ _ => true | .error _ _ => false) = true) : x s = .ok () (endState x s) := by
  unfold endState
  cases hx : x s with
  | ok a s' => rfl
  | error e s' =>
    rw [hx] at h
    cases h

theorem bind_ok {x : EStateM ε σ α} {f : α → EStateM ε σ β} {s s' : σ} {b : β}
    (h : (x >>= f) s = .ok b s') : ∃ a s1, x s = .ok a s1 ∧ f a s1 = .ok b s' := by
  change EStateM.bind x f s = _ at h
  unfold EStateM.bind at h
  cases hx : x s with
  | ok a s1 =>
    rw [hx] at h
    exact ⟨a, s1, rfl, h⟩
  | error e s1 =>
    rw [hx] at h
    cases h

variable {fr : σ → F} {tr : σ → List W} {may : Prop} {x : EStateM ε σ α} {f : α → EStateM ε σ β} {s : σ}
  {ws ws' : List W} {P : α → σ → Prop} {Q : β → σ → Prop}

theorem Emits.mono {P' : α → σ → Prop} (h : Emits fr tr may x s ws P) (hP : ∀ a s', P a s' → P' a s') :
    Emits fr tr may x s ws P' := by
  unfold Emits at h ⊢
  split at h
  · exact ⟨h.1, h.2.1, hP _ _ h.2.2⟩
  · exact h

theorem Emits.of_run (a : α) (s' : σ) (hrun : x s = .ok a s') (hfr : fr s' = fr s)
    (htr : tr s' = tr s ++ ws) (h : P a s') : Emits fr tr may x s ws P := by
  unfold Emits
  rw [hrun]
  exact ⟨hfr, htr, h⟩

/-- What was written by the end is a prefix. -/
theorem Emits.endState (h : Emits fr tr may x s ws P) : ∃ p, p <+: ws ∧ tr (endState x s) = tr s ++ p := by
  unfold Emits at h
  unfold InternetOs.endState
  split at h
  · exact ⟨ws, List.prefix_refl ws, h.2.1⟩
  · exact h.2.2

theorem Emits.ends (h : Emits fr tr False x s ws P) :
    ∃ a s', x s = .ok a s' ∧ fr s' = fr s ∧ tr s' = tr s ++ ws ∧ P a s' := by
  unfold Emits at h
  split at h
  · next a s' hx => exact ⟨a, s', hx, h⟩
  · exact h.1.elim

theorem Emits.pure {a : α} (h : P a s) : Emits fr tr may (pure a : EStateM ε σ α) s [] P :=
  ⟨rfl, (List.append_nil _).symm, h⟩

theorem Emits.modify {g : σ → σ} {Q : Unit → σ → Prop} (hfr : fr (g s) = fr s)
    (htr : tr (g s) = tr s ++ ws) (h : Q () (g s)) : Emits fr tr may (modify g : EStateM ε σ Unit) s ws Q :=
  ⟨hfr, htr, h⟩

theorem Emits.bind (hx : Emits fr tr may x s ws P) (hf : ∀ a s', P a s' → Emits fr tr may (f a) s' ws' Q) :
    Emits fr tr may (x >>= f) s (ws ++ ws') Q := by
  have hrun : (x >>= f) s = match x s with
      | .ok a s' => f a s'
      | .error e s' => .error e s' := rfl
  unfold Emits at hx ⊢
  rw [hrun]
  cases hxs : x s with
  | error e s' =>
    rw [hxs] at hx
    obtain ⟨hm, hfr, p, hp, htr⟩ := hx
    exact ⟨hm, hfr, p, hp.trans (List.prefix_append ws ws'), htr⟩
  | ok a s' =>
    rw [hxs] at hx
    obtain ⟨hfr, htr, hP⟩ := hx
    have hfa := hf a s' hP
    unfold Emits at hfa
    dsimp only
    cases hfs : f a s' with
    | ok b s'' =>
      rw [hfs] at hfa
      obtain ⟨hfr', htr', hQ⟩ := hfa
      exact ⟨hfr'.trans hfr, by rw [htr', htr, List.append_assoc], hQ⟩
    | error e s'' =>
      rw [hfs] at hfa
      obtain ⟨hm, hfr', p, hp, htr'⟩ := hfa
      exact ⟨hm, hfr'.trans hfr, ws ++ p, (List.prefix_append_right_inj ws).mpr hp,
        by rw [htr', htr, List.append_assoc]⟩

theorem Emits.seq (hx : Emits fr tr may x s [] P) (hf : ∀ a s', P a s' → Emits fr tr may (f a) s' ws Q) :
    Emits fr tr may (x >>= f) s ws Q :=
  hx.bind hf

theorem Emits.get {f : σ → EStateM ε σ β} (h : Emits fr tr may (f s) s ws Q) :
    Emits fr tr may (MonadState.get >>= f) s ws Q :=
  h

theorem Emits.uptoFrom {body : Nat → EStateM ε σ Unit} {w : Nat → W} {I : Nat → σ → Prop} {i n : Nat}
    (hbody : ∀ j s, i ≤ j → j < i + n → I j s → Emits fr tr may (body j) s [w j] fun _ => I (j + 1)) (h0 : I i s) :
    Emits fr tr may (uptoFrom body i n) s ((List.range' i n).map w) fun _ => I (i + n) := by
  induction n generalizing i s with
  | zero => exact Emits.pure h0
  | succ n ih =>
    have hlast : i + 1 + n = i + (n + 1) := by omega
    rw [← hlast]
    refine (hbody i s (Nat.le_refl i) (by omega) h0).bind fun _ s' h' => ?_
    exact ih (fun j s hj hj' => hbody j s (by omega) (by omega)) h'

/-- **The loop rule.** -/
theorem Emits.upto {body : Nat → EStateM ε σ Unit} {w : Nat → W} {I : Nat → σ → Prop} {n : Nat}
    (hbody : ∀ j s, j < n → I j s → Emits fr tr may (body j) s [w j] fun _ => I (j + 1)) (h0 : I 0 s) :
    Emits fr tr may (upto body n) s ((List.range n).map w) fun _ => I n := by
  have h := Emits.uptoFrom (i := 0) (n := n) (fun j s _ hj => hbody j s (by omega)) h0
  rw [zero_add, ← List.range_eq_range'] at h
  exact h

end

end InternetOs
