import Mathlib.Tactic

/-!
# Programs that draw on a supply

The state of a program has a supply in it, from which `next` takes one thing at a time, until there
is none left; a program that finds nothing left panics with `e`.  `Draws x s n Q` says that `x` takes
exactly `n` things: if the supply lasts for them it ends with `Q`, and if not it panics with `e`, and
with nothing else.

    Draws x s n P → (∀ a s', P a s' → Draws (f a) s' m Q) → Draws (x >>= f) s (n + m) Q      (Draws.bind)
-/

namespace InternetOs

section
variable {ε σ α β : Type} {x : EStateM ε σ α} {f : α → EStateM ε σ β} {s s' : σ}

theorem bind_of_ok {a : α} (hx : x s = .ok a s') : (x >>= f) s = f a s' := by
  change EStateM.bind x f s = _
  rw [EStateM.bind, hx]

theorem bind_of_error {e : ε} (hx : x s = .error e s') : (x >>= f) s = .error e s' := by
  change EStateM.bind x f s = _
  rw [EStateM.bind, hx]

end

section
variable {ε σ τ α β : Type}

/-- The supply after `n` things have been taken. -/
def drawn (next : τ → Option τ) : Nat → τ → Option τ
  | 0, t => some t
  | n + 1, t => (next t).bind (drawn next n)

theorem drawn_add (next : τ → Option τ) (n m : Nat) (t : τ) :
    drawn next (n + m) t = (drawn next n t).bind (drawn next m) := by
  induction n generalizing t with
  | zero => rw [zero_add, drawn, Option.bind_some]
  | succ n ih =>
    rw [Nat.succ_add, drawn, drawn, Option.bind_assoc]
    exact congrArg _ (funext ih)

/-- The supply `supply s` of a state, how one thing is taken from it and the panic when nothing is left. -/
structure Source (ε σ τ : Type) where
  supply : σ → τ
  next : τ → Option τ
  empty : ε

def Source.Lasts (S : Source ε σ τ) (n : Nat) (s : σ) : Prop := (drawn S.next n (S.supply s)).isSome

theorem Source.Lasts.mono {S : Source ε σ τ} {n m : Nat} {s : σ} (h : S.Lasts n s) (hm : m ≤ n) : S.Lasts m s := by
  obtain ⟨k, rfl⟩ := Nat.exists_eq_add_of_le hm
  rw [Source.Lasts, drawn_add] at h
  unfold Source.Lasts
  cases hd : drawn S.next m (S.supply s) with
  | none =>
    rw [hd] at h
    cases h
  | some t => rfl

theorem Source.lasts_add {S : Source ε σ τ} {n : Nat} {s s' : σ}
    (h : drawn S.next n (S.supply s) = some (S.supply s')) (m : Nat) : S.Lasts (n + m) s ↔ S.Lasts m s' := by
  rw [Source.Lasts, Source.Lasts, drawn_add, h, Option.bind_some]

def Draws (S : Source ε σ τ) (x : EStateM ε σ α) (s : σ) (n : Nat) (Q : α → σ → Prop) : Prop :=
  match drawn S.next n (S.supply s) with
  | some t => ∃ a s', x s = .ok a s' ∧ S.supply s' = t ∧ Q a s'
  | none => ∃ s', x s = .error S.empty s'

namespace Draws

variable {S : Source ε σ τ} {x : EStateM ε σ α} {f : α → EStateM ε σ β} {s : σ} {n m : Nat} {P Q : α → σ → Prop}
  {R : β → σ → Prop}

theorem mono (h : Draws S x s n P) (hP : ∀ a s', P a s' → Q a s') : Draws S x s n Q := by
  unfold Draws at h ⊢
  split at h
  · obtain ⟨a, s', hx, ht, hp⟩ := h
    exact ⟨a, s', hx, ht, hP a s' hp⟩
  · exact h

theorem congr (h : Draws S x s n Q) (hn : n = m) : Draws S x s m Q := hn ▸ h

theorem pure {a : α} (h : Q a s) : Draws S (Pure.pure a) s 0 Q := ⟨a, s, rfl, rfl, h⟩

theorem of_ok {a : α} {s' : σ} (hx : x s = .ok a s') (hs : S.supply s' = S.supply s) (h : Q a s') :
    Draws S x s 0 Q := ⟨a, s', hx, hs, h⟩

theorem bind (h : Draws S x s n P) (hf : ∀ a s', P a s' → Draws S (f a) s' m R) : Draws S (x >>= f) s (n + m) R := by
  unfold Draws at h ⊢
  rw [drawn_add]
  cases hn : drawn S.next n (S.supply s) with
  | none =>
    rw [hn] at h
    obtain ⟨s', hx⟩ := h
    exact ⟨s', bind_of_error hx⟩
  | some t =>
    rw [hn] at h
    obtain ⟨a, s', hx, rfl, hp⟩ := h
    rw [bind_of_ok hx]
    exact hf a s' hp

/-- For a total `k` that is known beforehand. -/
theorem bind_sub {k : Nat} (h : Draws S x s n P) (hk : n ≤ k) (hf : ∀ a s', P a s' → Draws S (f a) s' (k - n) R) :
    Draws S (x >>= f) s k R := (h.bind hf).congr (Nat.add_sub_of_le hk)

theorem bind_zero (h : Draws S x s 0 P) (hf : ∀ a s', P a s' → Draws S (f a) s' m R) : Draws S (x >>= f) s m R :=
  (h.bind hf).congr (Nat.zero_add m)

theorem bind_ok {a : α} {s' : σ} (hx : x s = .ok a s') (h : Draws S (f a) s' n R)
    (hs : S.supply s' = S.supply s) : Draws S (x >>= f) s n R := by
  refine bind_zero (of_ok (Q := fun b r => b = a ∧ r = s') hx hs ⟨rfl, rfl⟩) ?_
  rintro b r ⟨rfl, rfl⟩
  exact h

theorem ok (h : Draws S x s n Q) (hl : S.Lasts n s) :
    ∃ a s', x s = .ok a s' ∧ drawn S.next n (S.supply s) = some (S.supply s') ∧ Q a s' := by
  unfold Draws at h
  obtain ⟨t, ht⟩ := Option.isSome_iff_exists.mp hl
  rw [ht] at h
  obtain ⟨a, s', hx, rfl, hq⟩ := h
  exact ⟨a, s', hx, ht, hq⟩

theorem lasts (h : Draws S x s n Q) (hl : S.Lasts (n + m) s) : ∃ a s', x s = .ok a s' ∧ S.Lasts m s' ∧ Q a s' := by
  obtain ⟨a, s', hx, hd, hq⟩ := h.ok (hl.mono (Nat.le_add_right n m))
  exact ⟨a, s', hx, (Source.lasts_add hd m).mp hl, hq⟩

theorem panic (h : Draws S x s n Q) (hl : ¬ S.Lasts n s) : ∃ s', x s = .error S.empty s' := by
  unfold Draws at h
  rw [Source.Lasts, Bool.not_eq_true, Option.isSome_eq_false_iff, Option.isNone_iff_eq_none] at hl
  rw [hl] at h
  exact h

end Draws

/-! ## Programs that also give back -/

/-- `x` ends with `Q` if the supply lasts for `n`, and panics if not; what is left of the supply is not said. -/
def Ends (S : Source ε σ τ) (x : EStateM ε σ α) (s : σ) (n : Nat) (Q : α → σ → Prop) : Prop :=
  (S.Lasts n s → ∃ a s', x s = .ok a s' ∧ Q a s') ∧ (¬ S.Lasts n s → ∃ s', x s = .error S.empty s')

section
variable {S : Source ε σ τ} {x : EStateM ε σ α} {f : α → EStateM ε σ β} {s : σ} {n m : Nat} {P Q : α → σ → Prop}
  {R : β → σ → Prop}

theorem Ends.of_ok {a : α} {s' : σ} (hx : x s = .ok a s') (h : Q a s') : Ends S x s 0 Q :=
  ⟨fun _ => ⟨a, s', hx, h⟩, fun hl => absurd rfl hl⟩

theorem Ends.mono (h : Ends S x s n P) (hP : ∀ a s', P a s' → Q a s') : Ends S x s n Q := by
  refine ⟨fun hl => ?_, h.2⟩
  obtain ⟨a, s', hx, hp⟩ := h.1 hl
  exact ⟨a, s', hx, hP a s' hp⟩

theorem Ends.congr (h : Ends S x s n Q) (hn : n = m) : Ends S x s m Q := hn ▸ h

theorem Ends.post {a : α} {s' : σ} (h : Ends S x s n Q) (hx : x s = .ok a s') : S.Lasts n s ∧ Q a s' := by
  by_cases hl : S.Lasts n s
  · obtain ⟨b, r, hr, hq⟩ := h.1 hl
    rw [hx] at hr
    cases hr
    exact ⟨hl, hq⟩
  · obtain ⟨r, hr⟩ := h.2 hl
    rw [hx] at hr
    cases hr

theorem Ends.error {e : ε} {s' : σ} (h : Ends S x s n Q) (hx : x s = .error e s') : e = S.empty ∧ ¬ S.Lasts n s := by
  by_cases hl : S.Lasts n s
  · obtain ⟨b, r, hr, -⟩ := h.1 hl
    rw [hx] at hr
    cases hr
  · obtain ⟨r, hr⟩ := h.2 hl
    rw [hx] at hr
    cases hr
    exact ⟨rfl, hl⟩

theorem Draws.ends (h : Draws S x s n Q) : Ends S x s n Q := by
  refine ⟨fun hl => ?_, h.panic⟩
  obtain ⟨a, s', hx, -, hq⟩ := h.ok hl
  exact ⟨a, s', hx, hq⟩

theorem Draws.bind_ends (h : Draws S x s n P) (hf : ∀ a s', P a s' → Ends S (f a) s' m R) :
    Ends S (x >>= f) s (n + m) R := by
  by_cases hn : S.Lasts n s
  · obtain ⟨a, s', hx, hd, hp⟩ := h.ok hn
    unfold Ends
    rw [Source.lasts_add hd, bind_of_ok hx]
    exact hf a s' hp
  · obtain ⟨s', hx⟩ := h.panic hn
    exact ⟨fun hl => absurd (hl.mono (Nat.le_add_right n m)) hn, fun _ => ⟨s', bind_of_error hx⟩⟩

theorem Draws.bind_sub_ends {k : Nat} (h : Draws S x s n P) (hk : n ≤ k)
    (hf : ∀ a s', P a s' → Ends S (f a) s' (k - n) R) : Ends S (x >>= f) s k R :=
  (h.bind_ends hf).congr (Nat.add_sub_of_le hk)

theorem Ends.bind_last (h : Ends S x s n P) (hf : ∀ a s', P a s' → ∃ b s'', f a s' = .ok b s'' ∧ R b s'') :
    Ends S (x >>= f) s n R := by
  refine ⟨fun hl => ?_, fun hl => ?_⟩
  · obtain ⟨a, s', hx, hp⟩ := h.1 hl
    obtain ⟨b, s'', hb, hr⟩ := hf a s' hp
    exact ⟨b, s'', (bind_of_ok hx).trans hb, hr⟩
  · obtain ⟨s', hx⟩ := h.2 hl
    exact ⟨s', bind_of_error hx⟩

end

end

end InternetOs
