import KernelMemVirt.Rackdoll.Load

/-!
# The traps of Rackdoll tasks

`syscall_handler` of `kernel/task.c` and `pgfault` of `kernel/memory.c`, on the
memory and the FIFO together.

* `trap_cases` is what one trap does: it maps or releases a page of the current
  task, switches to another task, or changes nothing.
* `System.start` is the state in which `run_tasks` has started the first task.
-/

namespace KernelMemVirt.Rackdoll

open ByteMem

abbrev SYSCALL_MMAP : Word := 2
abbrev SYSCALL_MUNMAP : Word := 3
abbrev SYSCALL_YIELD : Word := 4
abbrev SYSCALL_EXIT : Word := 5
abbrev SYSCALL_FORK : Word := 6

/-- A call of `mmap` or `munmap` on the current task. -/
inductive MemCall
  | mmap (vaddr : Word)
  | munmap (vaddr : Word)
  deriving DecidableEq, Repr

def Phys.memCall (pool : Nat) (s : Phys) (pgt : Word) : MemCall → Except PageError Phys
  | .mmap vaddr => .ok (s.mmap pool pgt vaddr)
  | .munmap vaddr => s.munmap pool pgt vaddr

/-- A trap of the running task, with the registers it has by then. -/
inductive Trap
  | syscall (regs : InterruptContext)
  | pageFault (cr2 : Word) (regs : InterruptContext)

def Trap.regs : Trap → InterruptContext
  | .syscall regs => regs
  | .pageFault _ regs => regs

/-- The call of `mmap` or `munmap` that the handler makes. -/
def Trap.memCall : Trap → Option MemCall
  | .syscall regs =>
    if regs.rdi = SYSCALL_MMAP then some (.mmap regs.rsi)
    else if regs.rdi = SYSCALL_MUNMAP then some (.munmap regs.rsi)
    else none
  | .pageFault cr2 _ => if UserGuard cr2 then some (.mmap cr2) else none

namespace System

variable (pool : Nat) (s : System)

/-- The page table of the task `fifo + fifo_run`. -/
def pgt : Word := (s.sched.fifo s.sched.fifoRun).pgt

/-- The call on the current task; the kernel stops when it does not return. -/
def memCall (c : MemCall) : Option System :=
  match s.phys.memCall pool s.pgt c with
  | .ok phys => some { s with phys }
  | .error _ => none

/-- `syscall_handler`.  Printing changes nothing here, and `fork_task` is left
out. -/
def syscallHandler : Option System :=
  let regs := s.sched.ctx
  if regs.rdi = SYSCALL_MMAP then s.memCall pool (.mmap regs.rsi)
  else if regs.rdi = SYSCALL_MUNMAP then s.memCall pool (.munmap regs.rsi)
  else if regs.rdi = SYSCALL_YIELD then some { s with sched := s.sched.nextTask }
  else if regs.rdi = SYSCALL_EXIT then some { s with sched := s.sched.exitTask }
  else if regs.rdi = SYSCALL_FORK then none
  else some s

/-- `pgfault`. -/
def pgfault (cr2 : Word) : Option System :=
  if UserGuard cr2 then s.memCall pool (.mmap cr2)
  else some { s with sched := s.sched.exitTask }

/-- One trap.  With an empty FIFO no task runs, so there is none. -/
def trap (t : Trap) : Option System :=
  if s.sched.fifoSize = 0 then none
  else
    let s := { s with sched := { s.sched with ctx := t.regs } }
    match t with
    | .syscall _ => s.syscallHandler pool
    | .pageFault cr2 _ => s.pgfault pool cr2

/-- `load_tasks` and then `run_tasks`. -/
def start (mem : Mem) (sched : Kernel) (images : List Task) : System :=
  let s := loadTasks pool (boot mem sched) images
  { s with sched := s.sched.runTasks }

variable {pool s}

/-- The handler makes the call that the registers ask for; when they ask for none it
makes a switch of tasks, or returns at once. -/
theorem trap_cases {t : Trap} {s' : System} (h : s.trap pool t = some s') :
    s.sched.fifoSize ≠ 0 ∧
      ((∃ c phys, t.memCall = some c ∧ s.phys.memCall pool s.pgt c = .ok phys ∧
          s' = { phys, sched := { s.sched with ctx := t.regs } }) ∨
        t.memCall = none ∧
          (s' = { s with sched := { s.sched with ctx := t.regs }.nextTask } ∨
            s' = { s with sched := { s.sched with ctx := t.regs }.exitTask } ∨
            s' = { s with sched := { s.sched with ctx := t.regs } })) := by
  have hcall : ∀ {c : MemCall} {k : Kernel}, t.memCall = some c → k.fifo = s.sched.fifo →
      k.fifoRun = s.sched.fifoRun → memCall pool { s with sched := k } c = some s' →
      ∃ c phys, t.memCall = some c ∧ s.phys.memCall pool s.pgt c = .ok phys ∧
        s' = { phys, sched := k } := by
    intro c k hc hfifo hrun hmem
    unfold memCall pgt at hmem
    dsimp only at hmem
    rw [hfifo, hrun] at hmem
    split at hmem
    · next phys hphys => exact ⟨c, phys, hc, hphys, (Option.some.inj hmem).symm⟩
    · cases hmem
  unfold trap at h
  split at h
  · cases h
  · next hsize =>
    refine ⟨hsize, ?_⟩
    cases t with
    | syscall regs =>
      dsimp only [Trap.regs, syscallHandler] at h ⊢
      split at h
      · next hmmap => exact .inl (hcall (if_pos hmmap) rfl rfl h)
      · next hmmap =>
        split at h
        · next hmunmap =>
          exact .inl (hcall ((if_neg hmmap).trans (if_pos hmunmap)) rfl rfl h)
        · next hmunmap =>
          have hnone : (Trap.syscall regs).memCall = none :=
            (if_neg hmmap).trans (if_neg hmunmap)
          split at h
          · exact .inr ⟨hnone, .inl (Option.some.inj h).symm⟩
          · split at h
            · exact .inr ⟨hnone, .inr (.inl (Option.some.inj h).symm)⟩
            · split at h
              · cases h
              · exact .inr ⟨hnone, .inr (.inr (Option.some.inj h).symm)⟩
    | pageFault cr2 regs =>
      dsimp only [Trap.regs, pgfault] at h ⊢
      split at h
      · next hguard => exact .inl (hcall (if_pos hguard) rfl rfl h)
      · next hguard => exact .inr ⟨if_neg hguard, .inr (.inl (Option.some.inj h).symm)⟩

/-- A page fault of the running task. -/
theorem trap_pageFault {cr2 : Word} {regs : InterruptContext} (hne : s.sched.fifoSize ≠ 0) :
    s.trap pool (.pageFault cr2 regs) =
      some (if UserGuard cr2 then
        { phys := s.phys.mmap pool s.pgt cr2, sched := { s.sched with ctx := regs } }
      else { s with sched := { s.sched with ctx := regs }.exitTask }) := by
  unfold trap pgfault
  rw [if_neg hne]
  dsimp only [Trap.regs]
  split
  · rfl
  · rfl

end System

end KernelMemVirt.Rackdoll
