import Mathlib.Tactic.Common

/-!
# Computations that log their accesses

A routine that indexes an array, or dereferences a pointer, gives a value and leaves the list of
the places it has accessed.  `Logged ι α` is the two together, and a monad, so that a routine is
written in the order of its source.

The lemmas take the value and the log of a routine apart: `value_bind` and `log_bind` for a
sequence, `Within` for a bound on all its accesses.
-/

/-- A value of type `α` with the accesses that led to it. -/
structure Logged (ι α : Type) where
  value : α
  log : List ι

namespace Logged

variable {ι α β : Type}

/-- The access to `i`, which gives `a`. -/
def access (i : ι) (a : α) : Logged ι α := ⟨a, [i]⟩

instance : Monad (Logged ι) where
  pure a := ⟨a, []⟩
  bind x f := ⟨(f x.value).value, x.log ++ (f x.value).log⟩

@[simp] theorem value_pure (a : α) : (pure a : Logged ι α).value = a := rfl

@[simp] theorem log_pure (a : α) : (pure a : Logged ι α).log = [] := rfl

@[simp] theorem value_access (i : ι) (a : α) : (access i a).value = a := rfl

@[simp] theorem log_access (i : ι) (a : α) : (access i a).log = [i] := rfl

@[simp] theorem value_bind (x : Logged ι α) (f : α → Logged ι β) :
    (x >>= f).value = (f x.value).value := rfl

@[simp] theorem log_bind (x : Logged ι α) (f : α → Logged ι β) :
    (x >>= f).log = x.log ++ (f x.value).log := rfl

@[simp] theorem value_ite (c : Prop) [Decidable c] (x y : Logged ι α) :
    (if c then x else y).value = if c then x.value else y.value :=
  apply_ite value c x y

@[simp] theorem log_ite (c : Prop) [Decidable c] (x y : Logged ι α) :
    (if c then x else y).log = if c then x.log else y.log :=
  apply_ite log c x y

/-- Every access is to a place that `P` allows. -/
def Within (P : ι → Prop) (x : Logged ι α) : Prop := ∀ i ∈ x.log, P i

variable {P : ι → Prop}

@[simp] theorem within_pure (a : α) : Within P (pure a : Logged ι α) := by
  simp [Within]

@[simp] theorem within_access {i : ι} {a : α} : Within P (access i a) ↔ P i := by
  simp [Within]

@[simp] theorem within_bind {x : Logged ι α} {f : α → Logged ι β} :
    Within P (x >>= f) ↔ Within P x ∧ Within P (f x.value) := by
  simp only [Within, log_bind, List.mem_append, or_imp, forall_and]

end Logged
