import KernelMemVirt.Rackdoll.Scheduler
import Mathlib.Data.List.Range

/-!
# Round-robin service

A round of the FIFO starts when `fifo_run` is set to 0, by the wrap of `next_task`
or by `exit_task` from the last slot, and ends when that happens again.

`exit_task` moves a task to another slot.  A `NamedFifo` therefore carries the name
of the task in each slot: its slot at the start of the round.

* `RoundInv` is the invariant of a round: the tasks above slot `fifo_run` are those
  that have not run yet.
* `round_serves_once` is the result: the tasks that run in a round are those in the
  FIFO at its start, each of them once.
-/

namespace KernelMemVirt.Rackdoll

open Transition

/-! ## Rounds -/

/-- The call sets `fifo_run` to 0. -/
def Kernel.Resets (k : Kernel) : TaskOp → Prop
  | .yield => k.fifoSize ≤ k.fifoRun + 1
  | .exit => k.fifoRun + 1 = k.fifoSize

/-- The FIFO with the name of the task in each slot. -/
structure NamedFifo where
  kernel : Kernel
  name : Nat → Nat

namespace NamedFifo

variable (s : NamedFifo)

/-- The names at the start of a round. -/
def start (k : Kernel) : NamedFifo := ⟨k, id⟩

/-- The name of the current task. -/
def running : Nat := s.name s.kernel.fifoRun

/-- One trap.  A name moves with its task, from the last slot to the current one. -/
def step (t : TaskTrap InterruptContext) : Option NamedFifo :=
  (taskTrap s.kernel t).map fun kernel =>
    { kernel
      name :=
        match t.op with
        | .yield => s.name
        | .exit => Function.update s.name s.kernel.fifoRun (s.name (s.kernel.fifoSize - 1)) }

end NamedFifo

/-- The tasks that are made running by the reset that leads to `k` and by the traps
after it. -/
def served (k : Kernel) (es : List (TaskTrap InterruptContext)) : List Nat :=
  (NamedFifo.start k :: states NamedFifo.step (NamedFifo.start k) es).map NamedFifo.running

/-- The page tables that these traps load into `CR3`. -/
def loadedTables (k : Kernel) (es : List (TaskTrap InterruptContext)) : List Word :=
  (k :: states taskTrap k es).map Kernel.cr3

instance (k : Kernel) (op : TaskOp) : Decidable (k.Resets op) :=
  match op with
  | .yield => inferInstanceAs (Decidable (_ ≤ _))
  | .exit => inferInstanceAs (Decidable (_ = _))

/-! ## One trap -/

variable {k k' : Kernel} {s s' : NamedFifo} {seen : List Nat} {t : TaskTrap InterruptContext}

/-- The two calls, for a FIFO that is not empty. -/
theorem taskTrap_eq_some (h : taskTrap k t = some k') :
    k.fifoSize ≠ 0 ∧
      (t.op = .yield ∧ k' = { k with ctx := t.regs }.nextTask ∨
        t.op = .exit ∧ k' = { k with ctx := t.regs }.exitTask) := by
  unfold taskTrap at h
  split at h
  · cases h
  · next hne =>
    refine ⟨hne, ?_⟩
    split at h
    · next hop => exact .inl ⟨hop, (Option.some.inj h).symm⟩
    · next hop => exact .inr ⟨hop, (Option.some.inj h).symm⟩

/-- A trap that does not end the round: a yield goes on to the next slot, and an exit
moves the last task into the current slot. -/
theorem NamedFifo.step_inside (hrun : s.kernel.fifoRun < s.kernel.fifoSize)
    (hstep : s.step t = some s') (hno : ¬ s.kernel.Resets t.op) :
    s.kernel.fifoRun + 1 < s.kernel.fifoSize ∧
      s'.kernel.cr3 = (s'.kernel.fifo s'.kernel.fifoRun).pgt ∧
      (s'.kernel.fifoSize = s.kernel.fifoSize ∧ s'.kernel.fifoRun = s.kernel.fifoRun + 1 ∧
          s'.name = s.name ∧ (∀ p, (s'.kernel.fifo p).pgt = (s.kernel.fifo p).pgt) ∨
        s'.kernel.fifoSize = s.kernel.fifoSize - 1 ∧ s'.kernel.fifoRun = s.kernel.fifoRun ∧
          s'.name = Function.update s.name s.kernel.fifoRun (s.name (s.kernel.fifoSize - 1)) ∧
          s'.kernel.fifo = Function.update s.kernel.fifo s.kernel.fifoRun
            (s.kernel.fifo (s.kernel.fifoSize - 1))) := by
  obtain ⟨k', hk, rfl⟩ := Option.map_eq_some_iff.mp hstep
  obtain ⟨-, hcases⟩ := taskTrap_eq_some hk
  rcases hcases with ⟨hop, rfl⟩ | ⟨hop, rfl⟩
  · rw [hop] at hno ⊢
    have hnext : s.kernel.fifoRun + 1 < s.kernel.fifoSize := Nat.not_le.mp hno
    refine ⟨hnext, rfl, .inl ⟨rfl, if_neg hno, rfl, fun p => ?_⟩⟩
    show (Function.update s.kernel.fifo _ _ p).pgt = _
    by_cases hcur : p = s.kernel.fifoRun
    · rw [hcur, Function.update_self]
      rfl
    · rw [Function.update_of_ne hcur]
  · rw [hop] at hno ⊢
    have hlast : ¬ s.kernel.fifoRun + 1 = s.kernel.fifoSize := hno
    let stored : Kernel := { s.kernel with ctx := t.regs }
    have hremoved : stored.removeCurrent =
        { stored with
          fifoSize := s.kernel.fifoSize - 1
          fifo := Function.update s.kernel.fifo s.kernel.fifoRun
            (s.kernel.fifo (s.kernel.fifoSize - 1)) } := if_neg hlast
    have hexit : stored.exitTask = stored.removeCurrent.resume := by
      apply if_neg
      rw [removeCurrent_size]
      show s.kernel.fifoSize - 1 ≠ 0
      omega
    refine ⟨by omega, ?_, .inr ?_⟩
    · show stored.exitTask.cr3 = (stored.exitTask.fifo stored.exitTask.fifoRun).pgt
      rw [hexit]
      rfl
    · show stored.exitTask.fifoSize = _ ∧ stored.exitTask.fifoRun = _ ∧ _ ∧ stored.exitTask.fifo = _
      rw [hexit, hremoved]
      exact ⟨rfl, rfl, rfl, rfl⟩

/-! ## The invariant -/

/-- Some tasks have run in the round, and those above slot `fifo_run` have not.  `k` is
the FIFO at the start of the round. -/
structure RoundInv (k : Kernel) (s : NamedFifo) (seen : List Nat) : Prop where
  run : s.kernel.fifoRun < s.kernel.fifoSize
  perm : (seen ++ (List.range' (s.kernel.fifoRun + 1)
    (s.kernel.fifoSize - (s.kernel.fifoRun + 1))).map s.name).Perm (List.range k.fifoSize)
  table : ∀ p, p < s.kernel.fifoSize → (s.kernel.fifo p).pgt = (k.fifo (s.name p)).pgt
  cr3 : s.kernel.cr3 = (s.kernel.fifo s.kernel.fifoRun).pgt

theorem RoundInv.running_table (h : RoundInv k s seen) :
    s.kernel.cr3 = (k.fifo s.running).pgt := by
  rw [h.cr3, h.table _ h.run]
  rfl

/-- The next slot holds the first task that has not run, and after an exit the last of them. -/
theorem RoundInv.step (h : RoundInv k s seen) (hstep : s.step t = some s')
    (hno : ¬ s.kernel.Resets t.op) : RoundInv k s' (seen ++ [s'.running]) := by
  obtain ⟨hnext, hcr3, hcases⟩ := NamedFifo.step_inside h.run hstep hno
  have hperm := h.perm
  rcases hcases with ⟨hsize, hrun, hname, hpgt⟩ | ⟨hsize, hrun, hname, hfifo⟩
  · refine ⟨by omega, ?_, fun p hp => ?_, hcr3⟩
    · rw [show s.kernel.fifoSize - (s.kernel.fifoRun + 1)
          = (s.kernel.fifoSize - (s.kernel.fifoRun + 1 + 1)) + 1 by omega,
        List.range'_succ, List.map_cons] at hperm
      unfold NamedFifo.running
      rw [hsize, hrun, hname, List.append_assoc]
      exact hperm
    · rw [hpgt p, hname]
      exact h.table p (by omega)
  · refine ⟨by omega, ?_, fun p hp => ?_, hcr3⟩
    · rw [show s.kernel.fifoSize - (s.kernel.fifoRun + 1)
          = (s.kernel.fifoSize - 1 - (s.kernel.fifoRun + 1)) + 1 by omega,
        List.range'_concat, List.map_append] at hperm
      have hlast : s.kernel.fifoRun + 1 + 1 * (s.kernel.fifoSize - 1 - (s.kernel.fifoRun + 1))
          = s.kernel.fifoSize - 1 := by omega
      have hkeep : (List.range' (s.kernel.fifoRun + 1)
            (s.kernel.fifoSize - 1 - (s.kernel.fifoRun + 1))).map s'.name
          = (List.range' (s.kernel.fifoRun + 1)
            (s.kernel.fifoSize - 1 - (s.kernel.fifoRun + 1))).map s.name := by
        rw [hname]
        refine List.map_congr_left fun p hp => Function.update_of_ne ?_ _ _
        have hlo := (List.mem_range'_1.mp hp).1
        omega
      have hrunning : s'.running = s.name (s.kernel.fifoSize - 1) := by
        unfold NamedFifo.running
        rw [hrun, hname, Function.update_self]
      rw [hsize, hrun, hkeep, hrunning, List.append_assoc]
      rw [hlast] at hperm
      exact (List.perm_append_comm.append_left seen).trans hperm
    · rw [hfifo, hname]
      by_cases hcur : p = s.kernel.fifoRun
      · rw [hcur, Function.update_self, Function.update_self]
        exact h.table _ (by omega)
      · rw [Function.update_of_ne hcur, Function.update_of_ne hcur]
        exact h.table p (by omega)

/-! ## The round -/

/-- After a reset, the task in slot 0 has run. -/
theorem roundInv_start (hne : k.fifoSize ≠ 0) (hrun : k.fifoRun = 0)
    (hcr3 : k.cr3 = (k.fifo 0).pgt) : RoundInv k (NamedFifo.start k) [0] := by
  refine ⟨?_, ?_, fun _ _ => rfl, ?_⟩
  · show k.fifoRun < k.fifoSize
    omega
  · show ([0] ++ (List.range' (k.fifoRun + 1) (k.fifoSize - (k.fifoRun + 1))).map fun p => p).Perm _
    rw [hrun, List.map_id', List.range_eq_range', show k.fifoSize = (k.fifoSize - 1) + 1 by omega,
      List.range'_succ]
    exact .refl _
  · show k.cr3 = (k.fifo k.fifoRun).pgt
    rw [hrun, hcr3]

/-- The traps of a round keep the invariant, and each loads the page table of the task
that it makes running. -/
theorem roundInv_run :
    ∀ {es : List (TaskTrap InterruptContext)} {s : NamedFifo} {seen : List Nat} {k' : Kernel},
      RoundInv k s seen → RunOk taskTrap (fun k t => ¬ k.Resets t.op) s.kernel es →
      run taskTrap s.kernel es = some k' →
      ∃ s', s'.kernel = k' ∧
        RoundInv k s' (seen ++ (states NamedFifo.step s es).map NamedFifo.running) ∧
        (states taskTrap s.kernel es).map Kernel.cr3 =
          ((states NamedFifo.step s es).map NamedFifo.running).map fun p => (k.fifo p).pgt := by
  intro es
  induction es with
  | nil =>
    intro s seen k' h _ hrun
    refine ⟨s, Option.some.inj hrun, ?_, rfl⟩
    show RoundInv k s (seen ++ [])
    rw [List.append_nil]
    exact h
  | cons t es ih =>
    intro s seen k' h hno hrun
    obtain ⟨k₁, hk₁, hrest⟩ := run_cons_eq_some hrun
    obtain ⟨s₁, hs₁, rfl⟩ : ∃ s₁, s.step t = some s₁ ∧ s₁.kernel = k₁ := by
      unfold NamedFifo.step
      exact ⟨_, congrArg _ hk₁, rfl⟩
    have h₁ := h.step hs₁ hno.1
    obtain ⟨s', hs', hinv, htables⟩ := ih h₁ (hno.2 _ hk₁) hrest
    refine ⟨s', hs', ?_, ?_⟩
    · rw [states, hs₁]
      dsimp only
      rw [List.map_cons, List.append_cons]
      exact hinv
    · rw [states, states, hs₁, hk₁]
      dsimp only
      rw [List.map_cons, List.map_cons, List.map_cons, htables, h₁.running_table]

/-- A reset runs the task in slot 0. -/
theorem resets_start {k₁ : Kernel} (hstep : taskTrap k t = some k₁) (hreset : k.Resets t.op)
    (hne : k₁.fifoSize ≠ 0) : k₁.fifoRun = 0 ∧ k₁.cr3 = (k₁.fifo 0).pgt := by
  obtain ⟨-, hcases⟩ := taskTrap_eq_some hstep
  rcases hcases with ⟨hop, rfl⟩ | ⟨hop, rfl⟩
  · rw [hop] at hreset
    have hrun : ({ k with ctx := t.regs }.nextTask).fifoRun = 0 := if_pos hreset
    refine ⟨hrun, ?_⟩
    rw [← hrun]
    rfl
  · rw [hop] at hreset
    let stored : Kernel := { k with ctx := t.regs }
    have hremoved : stored.removeCurrent =
        { stored with fifoSize := k.fifoSize - 1, fifoRun := 0 } := if_pos hreset
    have hexit : stored.exitTask = stored.removeCurrent.resume := by
      refine if_neg fun h0 => hne ?_
      show stored.exitTask.fifoSize = 0
      rw [Kernel.exitTask]
      exact (congrArg Kernel.fifoSize (if_pos h0)).trans h0
    show stored.exitTask.fifoRun = 0 ∧ stored.exitTask.cr3 = (stored.exitTask.fifo 0).pgt
    rw [hexit, hremoved]
    exact ⟨rfl, rfl⟩

/-- At a reset, every task has run. -/
theorem RoundInv.complete (h : RoundInv k s seen) {op : TaskOp} (hreset : s.kernel.Resets op) :
    seen.Perm (List.range k.fifoSize) := by
  have hrun := h.run
  have hlast : s.kernel.fifoSize - (s.kernel.fifoRun + 1) = 0 := by
    cases op with
    | yield =>
      have hle : s.kernel.fifoSize ≤ s.kernel.fifoRun + 1 := hreset
      omega
    | exit =>
      have heq : s.kernel.fifoRun + 1 = s.kernel.fifoSize := hreset
      omega
  have hperm := h.perm
  rw [hlast] at hperm
  rwa [List.range'_zero, List.map_nil, List.append_nil] at hperm

theorem size_ne_zero_of_run {es : List (TaskTrap InterruptContext)}
    (hrun : run taskTrap k es = some k') (hk' : k'.fifoSize ≠ 0) : k.fifoSize ≠ 0 := by
  cases es with
  | nil => exact Option.some.inj hrun ▸ hk'
  | cons t es =>
    obtain ⟨k₁, hk₁, -⟩ := run_cons_eq_some hrun
    exact (taskTrap_eq_some hk₁).1

/-- A round starts with a trap `e₁` that resets `fifo_run`, goes on with traps that do
not, and ends with a trap `e₂` that does.  The tasks that are made running from `e₁` on
and before `e₂` are those in the FIFO after `e₁`, each of them once, and each with its
page table. -/
theorem round_serves_once {k k₁ k₂ k₃ : Kernel} {e₁ e₂ : TaskTrap InterruptContext}
    {mid : List (TaskTrap InterruptContext)} (hfirst : taskTrap k e₁ = some k₁)
    (hstart : k.Resets e₁.op) (hmid : run taskTrap k₁ mid = some k₂)
    (hinside : RunOk taskTrap (fun k t => ¬ k.Resets t.op) k₁ mid)
    (hsecond : taskTrap k₂ e₂ = some k₃) (hend : k₂.Resets e₂.op) :
    (served k₁ mid).Perm (List.range k₁.fifoSize) ∧
      loadedTables k₁ mid = (served k₁ mid).map fun p => (k₁.fifo p).pgt := by
  have hne := size_ne_zero_of_run hmid (taskTrap_eq_some hsecond).1
  obtain ⟨hrun, hcr3⟩ := resets_start hfirst hstart hne
  have hinv := roundInv_start hne hrun hcr3
  obtain ⟨s', rfl, hfinal, htables⟩ := roundInv_run hinv hinside hmid
  have hzero : (NamedFifo.start k₁).running = 0 := hrun
  refine ⟨?_, ?_⟩
  · have hperm := hfinal.complete hend
    unfold served
    rw [List.map_cons, hzero]
    exact hperm
  · unfold loadedTables served
    rw [List.map_cons, List.map_cons, List.map_cons, hzero, hcr3]
    exact congrArg _ htables

/-- Of three tasks, the second exits in its turn and the other two yield. -/
def threeTasks : Kernel := { twoTasks with fifoSize := 3, fifoRun := 2 }

theorem round_serves_once_threeTasks :
    let yield : TaskTrap InterruptContext := ⟨.zero, .yield⟩
    ∃ k₁, taskTrap threeTasks yield = some k₁ ∧
      (served k₁ [yield, ⟨.zero, .exit⟩]).Perm [0, 1, 2] := by
  intro yield
  refine ⟨_, rfl, ?_⟩
  have hround := @round_serves_once threeTasks _ _ _ yield yield [yield, ⟨.zero, .exit⟩] rfl
    (by decide) rfl (by decide) rfl (by decide)
  exact hround.1

end KernelMemVirt.Rackdoll
