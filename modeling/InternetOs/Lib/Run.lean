import Mathlib.Tactic

/-!
# Runs of a labelled transition system

`Run R s as s'`: the labels `as` take `s` to `s'`, each step related by `R`.  A
step may carry a side condition (the caller's promise, or the condition under
which a property holds); `R.guard C` keeps the steps that meet `C`.

    I s → (∀ s a s', I s → R s a s' → I s') → Run R s as s' → I s'      (Run.inv)
-/

namespace InternetOs

inductive Run {S A : Type} (R : S → A → S → Prop) : S → List A → S → Prop
  | nil (s : S) : Run R s [] s
  | cons {s : S} {a : A} {s' : S} {as : List A} {s'' : S} :
      R s a s' → Run R s' as s'' → Run R s (a :: as) s''

section
variable {S A : Type} {R : S → A → S → Prop} {s s' : S} {as : List A}

/-- What every step keeps, every run keeps. -/
theorem Run.inv {I : S → Prop} (hstep : ∀ s a s', I s → R s a s' → I s') (h : Run R s as s') (h0 : I s) : I s' := by
  induction h with
  | nil => exact h0
  | cons hr _ ih => exact ih (hstep _ _ _ h0 hr)

theorem Run.inv_trace {I : List A → S → Prop} (hstep : ∀ as s a s', I as s → R s a s' → I (as ++ [a]) s')
    (h : Run R s as s') (h0 : I [] s) : I as s' := by
  have key : ∀ pre, I pre s → I (pre ++ as) s' := by
    clear h0
    induction h with
    | nil =>
      intro pre hi
      rw [List.append_nil]
      exact hi
    | cons hr _ ih =>
      intro pre hi
      rw [← List.singleton_append, ← List.append_assoc]
      exact ih _ (hstep _ _ _ _ hi hr)
  exact key [] h0

theorem Run.append {s'' : S} {bs : List A} (h : Run R s as s') (h' : Run R s' bs s'') :
    Run R s (as ++ bs) s'' := by
  induction h with
  | nil => exact h'
  | cons hr _ ih => exact .cons hr (ih h')

theorem Run.mono {R' : S → A → S → Prop} (hR : ∀ s a s', R s a s' → R' s a s')
    (h : Run R s as s') : Run R' s as s' := by
  induction h with
  | nil s => exact .nil s
  | cons hr _ ih => exact .cons (hR _ _ _ hr) ih

/-- Runs the labels through a partial step function. -/
def runOf (f : S → A → Option S) (s : S) : List A → Option S
  | [] => some s
  | a :: as => (f s a).bind fun s' => runOf f s' as

theorem Run.of_runOf {f : S → A → Option S}
    (h : runOf f s as = some s') : Run (fun s a s' => f s a = some s') s as s' := by
  induction as generalizing s with
  | nil =>
    cases h
    exact .nil _
  | cons a as ih =>
    obtain ⟨s1, h1, h2⟩ := Option.bind_eq_some_iff.mp h
    exact .cons h1 (ih h2)

theorem Run.find {f : S → A → Option S} {P Q : S → Prop} (h : ∃ s', runOf f s as = some s' ∧ P s')
    (hQ : ∀ s', Run (fun s a s' => f s a = some s') s as s' → P s' → Q s') :
    ∃ s', Run (fun s a s' => f s a = some s') s as s' ∧ Q s' := by
  obtain ⟨s', hs, hp⟩ := h
  exact ⟨s', .of_runOf hs, hQ s' (.of_runOf hs) hp⟩

end

/-- The steps of `R` that meet the condition `C` on the state before the step and the label. -/
def guard {S A : Type} (C : S → A → Prop) (R : S → A → S → Prop) : S → A → S → Prop :=
  fun s a s' => C s a ∧ R s a s'

/-- A condition may be replaced by another that follows from it under an invariant. -/
theorem Run.guard_of {S A : Type} {C C' : S → A → Prop} {R : S → A → S → Prop} {I : S → Prop}
    (hC : ∀ s a, I s → C' s a → C s a) (hI : ∀ s a s', I s → guard C R s a s' → I s') {s s' : S} {as : List A}
    (h : Run (guard C' R) s as s') (h0 : I s) : Run (guard C R) s as s' := by
  induction h with
  | nil s => exact .nil s
  | cons hr _ ih =>
    have hr' := And.intro (hC _ _ h0 hr.1) hr.2
    exact .cons hr' (ih (hI _ _ _ h0 hr'))

/-- The same for a partial step function. -/
def guardStep {S A : Type} (C : S → A → Prop) [∀ s a, Decidable (C s a)] (f : S → A → Option S) (s : S)
    (a : A) : Option S := if C s a then f s a else none

theorem Run.of_guardStep {S A : Type} {C : S → A → Prop} [∀ s a, Decidable (C s a)] {f : S → A → Option S}
    {s s' : S} {as : List A} (h : runOf (guardStep C f) s as = some s') :
    Run (guard C fun s a s' => f s a = some s') s as s' := by
  refine (Run.of_runOf h).mono fun s a s' hs => ?_
  unfold guardStep at hs
  split_ifs at hs with hc
  exact ⟨hc, hs⟩

theorem Run.find_guard {S A : Type} {C : S → A → Prop} [∀ s a, Decidable (C s a)] {f : S → A → Option S}
    {P Q : S → Prop} {s : S} {as : List A} (h : ∃ s', runOf (guardStep C f) s as = some s' ∧ P s')
    (hQ : ∀ s', Run (guard C fun s a s' => f s a = some s') s as s' → P s' → Q s') :
    ∃ s', Run (guard C fun s a s' => f s a = some s') s as s' ∧ Q s' := by
  obtain ⟨s', hs, hp⟩ := h
  exact ⟨s', .of_guardStep hs, hQ s' (.of_guardStep hs) hp⟩

/-- `P` holds of every step of the sequence in the state it is taken in, as long as steps can be taken. -/
def Always {S A : Type} (f : S → A → Option S) (P : S → A → Prop) : S → List A → Prop
  | _, [] => True
  | s, a :: as => P s a ∧ ∀ s', f s a = some s' → Always f P s' as

/-- Two properties of steps that agree under an invariant, which the first of them keeps. -/
theorem always_congr {S A : Type} {f : S → A → Option S} {P Q : S → A → Prop} {I : S → Prop}
    (hpq : ∀ s a, I s → (P s a ↔ Q s a)) (hI : ∀ s a s', I s → P s a → f s a = some s' → I s') {s : S} (h : I s)
    (as : List A) : Always f P s as ↔ Always f Q s as := by
  induction as generalizing s with
  | nil => exact Iff.rfl
  | cons a as ih =>
    have hiff := hpq s a h
    constructor
    · rintro ⟨hp, hrest⟩
      exact ⟨hiff.mp hp, fun s' hs => (ih (hI s a s' h hp hs)).mp (hrest s' hs)⟩
    · rintro ⟨hq, hrest⟩
      exact ⟨hiff.mpr hq, fun s' hs => (ih (hI s a s' h (hiff.mpr hq) hs)).mpr (hrest s' hs)⟩

/-- An invariant of a loop over a list that may fail; it may speak of what is still to come. -/
theorem foldlM_inv {S B : Type} {f : S → B → Option S} {I : List B → S → Prop}
    (hstep : ∀ b bs s s', I (b :: bs) s → f s b = some s' → I bs s') {l : List B} {s s' : S}
    (h : l.foldlM f s = some s') (h0 : I l s) : I [] s' := by
  induction l generalizing s with
  | nil =>
    cases h
    exact h0
  | cons b bs ih =>
    obtain ⟨s1, h1, h2⟩ := Option.bind_eq_some_iff.mp h
    exact ih h2 (hstep b bs s s1 h0 h1)

end InternetOs
