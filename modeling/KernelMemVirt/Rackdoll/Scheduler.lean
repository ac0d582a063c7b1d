import KernelMemVirt.Context
import KernelMemVirt.Lib.Transition
import Mathlib.Logic.Function.Basic

/-!
# The task FIFO of Rackdoll

The scheduling half of `kernel/task.c`: the array `fifo` with its two counters,
`run_tasks`, `next_task` and `exit_task`.

A trap changes the registers of the running task in any way and then calls
`next_task` or `exit_task`.  The array moves tasks around, so a task is named by
the slot it had at the start.

* `TaskMap` is the purpose of the FIFO: a map from live tasks to their saved
  registers, one of which runs.  `TaskMap.Next` is what a trap may do to it.
* `Refines` relates the array to the map, by the list of the tasks in its slots.
* `refines_runTasks`, `refines_nextTask` and `refines_exitTask` are the three
  operations, and `scheduler_refines` is the run.
-/

namespace KernelMemVirt.Rackdoll

open Transition

abbrev Word := BitVec 64

abbrev TASK_FIFO_LEN : Nat := 32

/-! ## The FIFO -/

/-- `struct task`. -/
structure Task where
  pgt : Word
  loadPaddr : Word
  loadEndPaddr : Word
  loadVaddr : Word
  bssEndVaddr : Word
  context : InterruptContext
  deriving DecidableEq

/-- `task->context = c`. -/
def Task.setContext (task : Task) (c : InterruptContext) : Task := { task with context := c }

@[simp] theorem Task.setContext_context (task : Task) (c : InterruptContext) :
    (task.setContext c).context = c := rfl

/-- The variables of `task.c`, the register `CR3`, and the registers that the
current trap handler works on: its argument `*ctx`. -/
structure Kernel where
  save : InterruptContext
  fifo : Nat → Task
  fifoSize : Nat
  fifoRun : Nat
  cr3 : Word
  ctx : InterruptContext

namespace Kernel

variable (k : Kernel)

/-- `set_task(fifo + fifo_run); *ctx = fifo[fifo_run].context;` -/
def resume : Kernel :=
  { k with
    cr3 := (k.fifo k.fifoRun).pgt
    ctx := (k.fifo k.fifoRun).context }

/-- `fifo_run++; if (fifo_run >= fifo_size) fifo_run = 0;` -/
def advance : Kernel :=
  { k with fifoRun := if k.fifoSize ≤ k.fifoRun + 1 then 0 else k.fifoRun + 1 }

/-- `enter_handler`, for the task in the current slot. -/
def enterHandler : Kernel := { k with save := k.ctx }.resume

/-- `run_tasks`; `enter_task` raises the interrupt that `enter_handler`
handles. -/
def runTasks : Kernel := if k.fifoSize = 0 then k else k.advance.enterHandler

/-- `next_task`. -/
def nextTask : Kernel :=
  { k with
    fifo := Function.update k.fifo k.fifoRun
      ((k.fifo k.fifoRun).setContext k.ctx) }.advance.resume

/-- The first `if` of `exit_task`. -/
def removeCurrent : Kernel :=
  if k.fifoRun + 1 = k.fifoSize then { k with fifoSize := k.fifoSize - 1, fifoRun := 0 }
  else
    { k with
      fifoSize := k.fifoSize - 1
      fifo := Function.update k.fifo k.fifoRun (k.fifo (k.fifoSize - 1)) }

/-- `exit_task`. -/
def exitTask : Kernel :=
  let k' := k.removeCurrent
  if k'.fifoSize = 0 then { k' with ctx := k'.save } else k'.resume

end Kernel

/-- The two calls that end a trap of the running task. -/
inductive TaskOp
  | yield
  | exit
  deriving DecidableEq, Repr

/-- A trap: the registers that the running task has by then, and the call. -/
structure TaskTrap (Ctx : Type) where
  regs : Ctx
  op : TaskOp

/-- One trap.  With an empty FIFO no task runs, so there is none. -/
def taskTrap (k : Kernel) (t : TaskTrap InterruptContext) : Option Kernel :=
  if k.fifoSize = 0 then none
  else
    match t.op with
    | .yield => some { k with ctx := t.regs }.nextTask
    | .exit => some { k with ctx := t.regs }.exitTask

/-! ## The map that the FIFO stands for -/

/-- The live tasks with the registers each was suspended with, the task that
runs, and the registers of the processor. -/
structure TaskMap (Id Ctx : Type) where
  saved : Id → Option Ctx
  running : Option Id
  ctx : Ctx

/-- What a trap does.  A yield saves the running task, an exit forgets it; then
some live task goes on with its saved registers.  After the last exit the
processor goes back to `home`. -/
inductive TaskMap.Next {Id Ctx : Type} [DecidableEq Id] (home : Ctx) :
    TaskMap Id Ctx → TaskTrap Ctx → TaskMap Id Ctx → Prop
  | yield {a : TaskMap Id Ctx} {regs c : Ctx} {i j : Id} (running : a.running = some i)
      (live : Function.update a.saved i (some regs) j = some c) :
      Next home a ⟨regs, .yield⟩ ⟨Function.update a.saved i (some regs), some j, c⟩
  | exit {a : TaskMap Id Ctx} {regs c : Ctx} {i j : Id} (running : a.running = some i)
      (live : Function.update a.saved i none j = some c) :
      Next home a ⟨regs, .exit⟩ ⟨Function.update a.saved i none, some j, c⟩
  | last {a : TaskMap Id Ctx} {regs : Ctx} {i : Id} (running : a.running = some i)
      (empty : ∀ j, Function.update a.saved i none j = none) :
      Next home a ⟨regs, .exit⟩ ⟨Function.update a.saved i none, none, home⟩

/-! ## The refinement -/

/-- The array holds exactly the live tasks: slot `p` holds task `id p`, and no
task is in two slots. -/
structure Slots (tasks : Nat → Task) (id : Nat → Nat) (fifo : Nat → Task) (size : Nat)
    (saved : Nat → Option InterruptContext) : Prop where
  inj : ∀ p q, p < size → q < size → id p = id q → p = q
  live : ∀ i, (saved i).isSome ↔ ∃ p, p < size ∧ id p = i
  task : ∀ p, p < size → fifo p = (tasks (id p)).setContext (fifo p).context

/-- The FIFO stands for the map `a`.  `tasks` are the tasks at the start and
`home` are the registers of the kernel when it started them. -/
structure RefinesAt (tasks : Nat → Task) (home : InterruptContext) (id : Nat → Nat) (k : Kernel)
    (a : TaskMap Nat InterruptContext) : Prop where
  slots : Slots tasks id k.fifo k.fifoSize a.saved
  suspended : ∀ p, p < k.fifoSize → p ≠ k.fifoRun → a.saved (id p) = some (k.fifo p).context
  size_le : k.fifoSize ≤ TASK_FIFO_LEN
  save : k.save = home
  ctx : k.ctx = a.ctx
  run : k.fifoSize ≠ 0 →
    k.fifoRun < k.fifoSize ∧ a.running = some (id k.fifoRun) ∧
      k.cr3 = (tasks (id k.fifoRun)).pgt
  done : k.fifoSize = 0 → a.running = none ∧ a.ctx = home

/-- Some naming of the slots makes the FIFO stand for `a`. -/
def Refines (tasks : Nat → Task) (home : InterruptContext) (k : Kernel)
    (a : TaskMap Nat InterruptContext) : Prop :=
  ∃ id, RefinesAt tasks home id k a

variable {tasks : Nat → Task} {home : InterruptContext} {id : Nat → Nat} {k : Kernel}
  {saved : Nat → Option InterruptContext} {a : TaskMap Nat InterruptContext}
  {regs : InterruptContext}

/-- `set_task` and the load of `*ctx` start the task of the current slot, once
every slot holds what its task was suspended with. -/
theorem refinesAt_resume (hslots : Slots tasks id k.fifo k.fifoSize saved)
    (hsaved : ∀ p, p < k.fifoSize → saved (id p) = some (k.fifo p).context)
    (hsize : k.fifoSize ≤ TASK_FIFO_LEN) (hsave : k.save = home)
    (hrun : k.fifoRun < k.fifoSize) :
    RefinesAt tasks home id k.resume
      ⟨saved, some (id k.fifoRun), (k.fifo k.fifoRun).context⟩ where
  slots := hslots
  suspended := fun p hp _ => hsaved p hp
  size_le := hsize
  save := hsave
  ctx := rfl
  run := fun _ => by
    have hpgt : (k.fifo k.fifoRun).pgt = (tasks (id k.fifoRun)).pgt := by
      rw [hslots.task k.fifoRun hrun]
      rfl
    exact ⟨hrun, rfl, hpgt⟩
  done := fun h0 => by
    have hsize0 : k.fifoSize = 0 := h0
    omega

theorem advance_run_lt (h : k.fifoSize ≠ 0) : k.advance.fifoRun < k.advance.fifoSize := by
  unfold Kernel.advance
  dsimp only
  split <;> omega

/-! ## The three operations -/

/-- The map at the start: task `p` is the one in slot `p`, and none has run
yet. -/
def initialTasks (k : Kernel) : TaskMap Nat InterruptContext where
  saved := fun p => if p < k.fifoSize then some (k.fifo p).context else none
  running := some k.advance.fifoRun
  ctx := (k.fifo k.advance.fifoRun).context

/-- `run_tasks` starts a task with the registers it was loaded with. -/
theorem refines_runTasks (hne : k.fifoSize ≠ 0) (hsize : k.fifoSize ≤ TASK_FIFO_LEN) :
    Refines k.fifo k.ctx k.runTasks (initialTasks k) := by
  have hslots : Slots k.fifo (fun p => p) k.fifo k.fifoSize (initialTasks k).saved := by
    refine ⟨fun _ _ _ _ h => h, fun i => ?_, fun _ _ => rfl⟩
    have hlive : ((initialTasks k).saved i).isSome ↔ i < k.fifoSize := by
      by_cases hi : i < k.fifoSize <;> simp [initialTasks, hi]
    exact hlive.trans ⟨fun h => ⟨i, h, rfl⟩, fun ⟨p, hp, hpi⟩ => hpi ▸ hp⟩
  rw [Kernel.runTasks, if_neg hne]
  exact ⟨fun p => p, refinesAt_resume hslots (fun p hp => if_pos hp) hsize rfl
    (advance_run_lt hne)⟩

/-- A yield saves the registers of the running task in its own slot. -/
theorem refines_nextTask (h : RefinesAt tasks home id k a) (hne : k.fifoSize ≠ 0) :
    ∃ a', TaskMap.Next home a ⟨regs, .yield⟩ a' ∧
      Refines tasks home { k with ctx := regs }.nextTask a' := by
  obtain ⟨hrun, hrunning, -⟩ := h.run hne
  rcases h.slots with ⟨hinj, hlive, htask⟩
  let fifo' := Function.update k.fifo k.fifoRun ((k.fifo k.fifoRun).setContext regs)
  let saved' := Function.update a.saved (id k.fifoRun) (some regs)
  have hsaved : ∀ p, p < k.fifoSize → saved' (id p) = some (fifo' p).context := by
    intro p hp
    by_cases hcur : p = k.fifoRun
    · simp [saved', fifo', hcur]
    · have hid : id p ≠ id k.fifoRun := fun heq => hcur (hinj p _ hp hrun heq)
      simp only [saved', fifo', Function.update_of_ne hid, Function.update_of_ne hcur]
      exact h.suspended p hp hcur
  have hslots : Slots tasks id fifo' k.fifoSize saved' := by
    refine ⟨hinj, fun i => ?_, fun p hp => ?_⟩
    · rw [← hlive i]
      by_cases hi : i = id k.fifoRun
      · have hsome := (hlive i).mpr ⟨k.fifoRun, hrun, hi.symm⟩
        simp [saved', hi, hi ▸ hsome]
      · simp [saved', hi]
    · by_cases hcur : p = k.fifoRun
      · rw [hcur] at hp ⊢
        simp only [fifo', Function.update_self, Task.setContext_context]
        rw [htask k.fifoRun hp]
        rfl
      · simp only [fifo', Function.update_of_ne hcur]
        exact htask p hp
  let stored : Kernel := { k with ctx := regs, fifo := fifo' }
  have hnext : stored.advance.fifoRun < stored.advance.fifoSize := advance_run_lt hne
  exact ⟨_, .yield hrunning (hsaved _ hnext),
    id, refinesAt_resume hslots hsaved h.size_le h.save hnext⟩

/-- The array after the removal: the last task is in the current slot, which
changes nothing when the two are one. -/
theorem removeCurrent_fifo (k : Kernel) :
    k.removeCurrent.fifo = Function.update k.fifo k.fifoRun (k.fifo (k.fifoSize - 1)) := by
  unfold Kernel.removeCurrent
  split
  · next hlast =>
    rw [show k.fifoSize - 1 = k.fifoRun by omega, Function.update_eq_self]
  · rfl

@[simp] theorem removeCurrent_size (k : Kernel) : k.removeCurrent.fifoSize = k.fifoSize - 1 := by
  unfold Kernel.removeCurrent
  split <;> rfl

@[simp] theorem removeCurrent_save (k : Kernel) : k.removeCurrent.save = k.save := by
  unfold Kernel.removeCurrent
  split <;> rfl

theorem removeCurrent_run_lt (hrun : k.fifoRun < k.fifoSize)
    (hne : k.removeCurrent.fifoSize ≠ 0) : k.removeCurrent.fifoRun < k.removeCurrent.fifoSize := by
  rw [removeCurrent_size] at hne ⊢
  unfold Kernel.removeCurrent
  split
  · show 0 < _
    omega
  · show k.fifoRun < _
    omega

theorem exitTask_size (k : Kernel) : k.exitTask.fifoSize = k.fifoSize - 1 := by
  rw [← removeCurrent_size]
  unfold Kernel.exitTask
  dsimp only
  split <;> rfl

/-- The register `CR3` after a switch to another task, when there is one. -/
theorem exitTask_cr3 (k : Kernel) :
    k.exitTask.fifoSize ≠ 0 → k.exitTask.cr3 = (k.exitTask.fifo k.exitTask.fifoRun).pgt := by
  unfold Kernel.exitTask
  dsimp only
  split
  · next hempty => exact fun hne => absurd hempty hne
  · exact fun _ => rfl

theorem runTasks_cr3 (k : Kernel) :
    k.runTasks.fifoSize ≠ 0 → k.runTasks.cr3 = (k.runTasks.fifo k.runTasks.fifoRun).pgt := by
  unfold Kernel.runTasks
  split
  · next hempty => exact fun hne => absurd hempty hne
  · exact fun _ => rfl

/-- An exit moves the last task into the slot that becomes free. -/
theorem refines_exitTask (h : RefinesAt tasks home id k a) (hne : k.fifoSize ≠ 0) :
    ∃ a', TaskMap.Next home a ⟨regs, .exit⟩ a' ∧
      Refines tasks home { k with ctx := regs }.exitTask a' := by
  obtain ⟨hrun, hrunning, -⟩ := h.run hne
  rcases h.slots with ⟨hinj, hlive, htask⟩
  let removed : Kernel := { k with ctx := regs }.removeCurrent
  have hsize : removed.fifoSize = k.fifoSize - 1 := removeCurrent_size _
  let source := fun p => if p = k.fifoRun then k.fifoSize - 1 else p
  let saved' := Function.update a.saved (id k.fifoRun) none
  have hfifo : ∀ p, removed.fifo p = k.fifo (source p) := by
    intro p
    have hupdate : removed.fifo = Function.update k.fifo k.fifoRun (k.fifo (k.fifoSize - 1)) :=
      removeCurrent_fifo _
    rw [hupdate, Function.update_apply]
    simp only [source]
    split <;> rfl
  have hsource : ∀ p, p < removed.fifoSize → source p < k.fifoSize ∧ source p ≠ k.fifoRun := by
    intro p hp
    simp only [source]
    split <;> omega
  have hsaved : ∀ p, p < removed.fifoSize →
      saved' (id (source p)) = some (removed.fifo p).context := by
    intro p hp
    obtain ⟨hlt, hother⟩ := hsource p hp
    have hid : id (source p) ≠ id k.fifoRun := fun heq => hother (hinj _ _ hlt hrun heq)
    rw [hfifo]
    simp only [saved', Function.update_of_ne hid]
    exact h.suspended _ hlt hother
  have hslots : Slots tasks (id ∘ source) removed.fifo removed.fifoSize saved' := by
    refine ⟨fun p q hp hq heq => ?_, fun i => ?_, fun p hp => ?_⟩
    · have hpq := hinj _ _ (hsource p hp).1 (hsource q hq).1 heq
      simp only [source] at hpq
      split at hpq <;> split at hpq <;> omega
    · constructor
      · intro hsome
        have hi : i ≠ id k.fifoRun := by
          intro heq
          subst heq
          simp [saved'] at hsome
        simp only [saved', Function.update_of_ne hi] at hsome
        obtain ⟨q, hq, rfl⟩ := (hlive i).mp hsome
        have hother : q ≠ k.fifoRun := fun heq => hi (congrArg id heq)
        by_cases hlast : q = k.fifoSize - 1
        · exact ⟨k.fifoRun, by omega, by simp [source, hlast]⟩
        · exact ⟨q, by omega, by simp [source, hother]⟩
      · intro hex
        rcases hex with ⟨p, hp, rfl⟩
        exact Option.isSome_iff_exists.mpr ⟨_, hsaved p hp⟩
    · rw [hfifo]
      exact htask _ (hsource p hp).1
  by_cases hlast : removed.fifoSize = 0
  · have hempty : ∀ j, saved' j = none := by
      intro j
      rw [← Option.not_isSome_iff_eq_none, hslots.live j]
      intro hex
      rcases hex with ⟨p, hp, -⟩
      omega
    have hexit : { k with ctx := regs }.exitTask = { removed with ctx := removed.save } :=
      if_pos hlast
    rw [hexit]
    have hsave : removed.save = home := (removeCurrent_save _).trans h.save
    refine ⟨_, .last hrunning hempty, id ∘ source, hslots, ?_, ?_, hsave, hsave, ?_, ?_⟩
    · intro p hp _
      exact hsaved p hp
    · show removed.fifoSize ≤ _
      omega
    · exact fun hne' => absurd hlast hne'
    · exact fun _ => ⟨rfl, rfl⟩
  · have hexit : { k with ctx := regs }.exitTask = removed.resume := if_neg hlast
    rw [hexit]
    have hnext : removed.fifoRun < removed.fifoSize := removeCurrent_run_lt hrun hlast
    have hle : removed.fifoSize ≤ TASK_FIFO_LEN := by
      have := h.size_le
      omega
    exact ⟨_, .exit hrunning (hsaved _ hnext), id ∘ source,
      refinesAt_resume hslots hsaved hle ((removeCurrent_save _).trans h.save) hnext⟩

/-! ## The run -/

theorem refines_taskTrap {k k' : Kernel} {a : TaskMap Nat InterruptContext}
    {t : TaskTrap InterruptContext} (h : Refines tasks home k a) (hstep : taskTrap k t = some k') :
    ∃ a', TaskMap.Next home a t a' ∧ Refines tasks home k' a' := by
  rcases h with ⟨id, h⟩
  unfold taskTrap at hstep
  split at hstep
  · cases hstep
  · next hne =>
    rcases t with ⟨regs, op⟩
    cases op with
    | yield =>
      cases hstep
      exact refines_nextTask h hne
    | exit =>
      cases hstep
      exact refines_exitTask h hne

/-- From `run_tasks` on, the FIFO refines the map from tasks to their saved
registers, for every sequence of traps. -/
theorem scheduler_refines (k t : Kernel) (es : List (TaskTrap InterruptContext))
    (hne : 1 ≤ k.fifoSize) (hsize : k.fifoSize ≤ TASK_FIFO_LEN)
    (hrun : run taskTrap k.runTasks es = some t) :
    ∃ b, Trace (TaskMap.Next k.ctx) (initialTasks k) es b ∧ Refines k.fifo k.ctx t b := by
  have hstart := refines_runTasks (show k.fifoSize ≠ 0 by omega) hsize
  refine run_simulates ?_ es k.runTasks t (initialTasks k) hstart hrun
  intro s a e s' h hstep
  exact refines_taskTrap h hstep

/-- Two tasks, with their page tables and stacks apart. -/
def twoTasks : Kernel where
  save := .zero
  fifo := fun p =>
    { pgt := if p = 0 then 0x140000 else 0x144000
      loadPaddr := 0x120000
      loadEndPaddr := 0x120000
      loadVaddr := 0x2000000000
      bssEndVaddr := 0x2000000000
      context := { InterruptContext.zero with rip := 0x2000000030, rsp := 0x2000000000 } }
  fifoSize := 2
  fifoRun := 0
  cr3 := 0
  ctx := .zero

/-- Task 1 yields, task 0 exits, task 1 exits and the kernel goes on. -/
theorem scheduler_refines_twoTasks :
    let traps : List (TaskTrap InterruptContext) :=
      [⟨{ InterruptContext.zero with rax := 1 }, .yield⟩, ⟨.zero, .exit⟩, ⟨.zero, .exit⟩]
    ∃ t b, run taskTrap twoTasks.runTasks traps = some t ∧
      Trace (TaskMap.Next twoTasks.ctx) (initialTasks twoTasks) traps b ∧
      Refines twoTasks.fifo twoTasks.ctx t b := by
  intro traps
  obtain ⟨b, htrace, hb⟩ := scheduler_refines twoTasks _ traps (by decide) (by decide) rfl
  exact ⟨_, b, rfl, htrace, hb⟩

end KernelMemVirt.Rackdoll
