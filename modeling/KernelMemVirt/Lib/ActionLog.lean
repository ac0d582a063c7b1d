import KernelMemVirt.Lib.ByteMem

/-!
# Logs of what a routine does to memory

A routine that takes pages from an allocator and stores to memory leaves a list of
actions.  `replay` is the memory after them.  An allocation that fails returns 0 and is
an action like the others.

`replay_apply_of_confined` is the frame rule: bytes that no action covers are kept.
-/

namespace ActionLog

open ByteMem

/-- An action of a routine. -/
inductive Action
  /-- the allocator returns `page` -/
  | alloc (page : BitVec 64)
  /-- a word is stored -/
  | word (a : Nat) (v : BitVec 64)
  /-- `memset` -/
  | fill (a : Nat) (c : BitVec 8) (len : Nat)
  /-- `memcpy` -/
  | copy (dst src len : Nat)
  deriving DecidableEq

namespace Action

def apply (m : Mem) : Action → Mem
  | .alloc _ => m
  | .word a v => write64 m a v
  | .fill a c len => ByteMem.fill m a c len
  | .copy dst src len => ByteMem.copy m dst src len

/-- The action stores to the byte at `x`. -/
def Covers (x : Nat) : Action → Prop
  | .alloc _ => False
  | .word a _ => a ≤ x ∧ x < a + 8
  | .fill a _ len => a ≤ x ∧ x < a + len
  | .copy dst _ len => dst ≤ x ∧ x < dst + len

theorem apply_of_not_covers {act : Action} {m : Mem} {x : Nat} (h : ¬ act.Covers x) :
    act.apply m x = m x := by
  cases act with
  | alloc page => rfl
  | word a v => exact if_neg h
  | fill a c len => exact if_neg h
  | copy dst src len => exact if_neg h

end Action

/-- The memory after the actions of a log. -/
def replay (m : Mem) (log : List Action) : Mem := log.foldl Action.apply m

@[simp] theorem replay_nil (m : Mem) : replay m [] = m := rfl

@[simp] theorem replay_cons (m : Mem) (act : Action) (log : List Action) :
    replay m (act :: log) = replay (act.apply m) log := rfl

@[simp] theorem replay_append (m : Mem) (log log' : List Action) :
    replay m (log ++ log') = replay (replay m log) log' := List.foldl_append

/-- Every byte that the log stores to is in `A`. -/
def Confined (A : Nat → Prop) (log : List Action) : Prop :=
  ∀ act ∈ log, ∀ x, act.Covers x → A x

theorem Confined.mono {A B : Nat → Prop} {log : List Action} (h : Confined A log)
    (hsub : ∀ x, A x → B x) : Confined B log :=
  fun act hact x hx => hsub x (h act hact x hx)

/-- Bytes outside keep their values. -/
theorem replay_apply_of_confined {A : Nat → Prop} {x : Nat} (hx : ¬ A x) :
    ∀ {log : List Action} {m : Mem}, Confined A log → replay m log x = m x := by
  intro log
  induction log with
  | nil => exact fun _ => rfl
  | cons act log ih =>
    intro m h
    have hhead : ¬ act.Covers x := fun hcovers => hx (h act List.mem_cons_self x hcovers)
    rw [replay_cons, ih fun act' hact' => h act' (List.mem_cons_of_mem act hact'),
      Action.apply_of_not_covers hhead]

/-- No allocation of the log failed. -/
def AllocsSucceed (log : List Action) : Prop := .alloc 0 ∉ log

instance (log : List Action) : Decidable (AllocsSucceed log) :=
  inferInstanceAs (Decidable (_ ∉ _))

theorem allocsSucceed_append {log log' : List Action} :
    AllocsSucceed (log ++ log') ↔ AllocsSucceed log ∧ AllocsSucceed log' := by
  unfold AllocsSucceed
  rw [List.mem_append, not_or]

theorem allocsSucceed_alloc_cons {page : BitVec 64} {log : List Action} :
    AllocsSucceed (.alloc page :: log) ↔ page ≠ 0 ∧ AllocsSucceed log := by
  unfold AllocsSucceed
  rw [List.mem_cons, not_or, Action.alloc.injEq, ne_comm]

end ActionLog
