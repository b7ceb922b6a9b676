import Mathlib.Tactic

/-!
# Computations with a log

A value together with the events that happened while it was computed.  What holds of every event is read off
the parts of the computation:

    (x >>= f).All P ↔ x.All P ∧ (f x.val).All P                              (Logged.all_bind)
-/

namespace InternetOs

structure Logged (E α : Type) where
  val : α
  log : List E

namespace Logged

variable {E α β : Type}

instance : Monad (Logged E) where
  pure a := ⟨a, []⟩
  bind x f := ⟨(f x.val).val, x.log ++ (f x.val).log⟩

/-- An event. -/
def emit (e : E) : Logged E Unit := ⟨(), [e]⟩

/-- Every event satisfies `P`. -/
def All (P : E → Prop) (x : Logged E α) : Prop := ∀ e ∈ x.log, P e

@[simp] theorem val_pure (a : α) : (pure a : Logged E α).val = a := rfl

@[simp] theorem val_bind (x : Logged E α) (f : α → Logged E β) : (x >>= f).val = (f x.val).val := rfl

section
variable {P : E → Prop}

@[simp] theorem all_pure (a : α) : (pure a : Logged E α).All P ↔ True := by
  simp [All, pure]

@[simp] theorem all_bind (x : Logged E α) (f : α → Logged E β) : (x >>= f).All P ↔ x.All P ∧ (f x.val).All P := by
  simp [All, bind, or_imp, forall_and]

@[simp] theorem all_emit (e : E) : (emit e).All P ↔ P e := by
  simp [All, emit]

@[simp] theorem all_ite (c : Prop) [Decidable c] (x y : Logged E α) :
    (if c then x else y).All P ↔ (c → x.All P) ∧ (¬ c → y.All P) := by
  split <;> simp [*]

end

@[simp] theorem val_ite (c : Prop) [Decidable c] (x y : Logged E α) :
    (if c then x else y).val = if c then x.val else y.val := apply_ite _ c x y

end Logged

end InternetOs
