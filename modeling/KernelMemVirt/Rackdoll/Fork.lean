import KernelMemVirt.Rackdoll.Load

/-!
# `fork_task`

`fork_task` calls `duplicate_task` on the new task, and `duplicate_task` calls `fork_task` on
the context of the new task.  So a call goes on until the FIFO is full, and the value of `rax`
in each new slot is the one that the next call returns.

* `fork_spec` is the outcome: all free slots hold tasks with the page table of the parent, the
  last one with `rax = -1` and the others with `rax = 0`.
* `fork_iff` says when that is right: when the FIFO is full at the start.
-/

namespace KernelMemVirt.Rackdoll

/-! ## The source -/

/-- An argument of `fork_task`: the registers of the trap, or `&fifo[i].context`. -/
inductive ContextPtr
  | trap
  | slot (i : Nat)
  deriving DecidableEq, Repr

namespace Kernel

variable (k : Kernel)

/-- `*ctx`. -/
def context : ContextPtr → InterruptContext
  | .trap => k.ctx
  | .slot i => (k.fifo i).context

/-- `*ctx = c`. -/
def setContext (ctx : ContextPtr) (c : InterruptContext) : Kernel :=
  match ctx with
  | .trap => { k with ctx := c }
  | .slot i => { k with fifo := Function.update k.fifo i ((k.fifo i).setContext c) }

/-- `ctx->rax = v`. -/
def setRax (ctx : ContextPtr) (v : Word) : Kernel :=
  k.setContext ctx { k.context ctx with rax := v }

/-- `current`. -/
def current : Option Task := if k.fifoSize ≤ k.fifoRun then none else some (k.fifo k.fifoRun)

/-- `duplicate_task` of `memory.c`. -/
def duplicateTask (forkTask : ContextPtr → Kernel → Option Kernel) (ctx : Nat) : Option Kernel :=
  forkTask (.slot ctx) k

/-- `fork_task`, with at most `depth` calls inside each other.  There is no result when the
null pointer that `current` may return is read. -/
def forkTask : Nat → ContextPtr → Kernel → Option Kernel
  | 0, _, _ => none
  | depth + 1, ctx, k =>
    if k.fifoSize = TASK_FIFO_LEN then some (k.setRax ctx (-1))
    else
      let task := k.fifoSize
      let k := { k with fifoSize := task + 1 }
      k.current.bind fun parent =>
        let k := { k with fifo := Function.update k.fifo task parent }
        let k := k.setContext (.slot task) (k.context ctx)
        let k := k.setRax (.slot task) 1
        (k.duplicateTask (forkTask depth) task).map fun k => k.setRax ctx 0

end Kernel

/-- `fork_task` on the registers of a trap; it changes no other memory. -/
def System.forkTask (depth : Nat) (s : System) : Option System :=
  (Kernel.forkTask depth .trap s.sched).map fun sched => { s with sched }

/-! ## The property -/

/-- The user pages of `child` are copies of those of `parent`, in a page table of its own. -/
structure CopiesPages (mem mem' : ByteMem.Mem) (parent child : Word) : Prop where
  own : frame child ≠ frame parent
  pages : ∀ v, 0x40000000 ≤ v → v < 0x800000000000 →
    Option.Rel (fun t t' => t'.writable = t.writable ∧ t'.user = t.user ∧
        t'.executable = t.executable ∧ t'.paddr ≠ t.paddr ∧ mem' t'.paddr = mem t.paddr)
      (translate mem parent v) (translate mem' child v)

/-- One task is added. -/
structure Forks (s s' : System) : Prop where
  size : s'.sched.fifoSize = s.sched.fifoSize + 1
  child : ∃ pgt,
    s'.sched.fifo s.sched.fifoSize =
        { s.sched.fifo s.sched.fifoRun with pgt, context := { s.sched.ctx with rax := 1 } } ∧
      CopiesPages s.phys.mem s'.phys.mem (s.sched.fifo s.sched.fifoRun).pgt pgt
  ctx : s'.sched.ctx = { s.sched.ctx with rax := 0 }
  other : ∀ i, i ≠ s.sched.fifoSize → s'.sched.fifo i = s.sched.fifo i

/-- What `fork_task` is for: it adds one task or, when the FIFO is full, none. -/
def ForkRight (s s' : System) : Prop :=
  if s.sched.fifoSize = TASK_FIFO_LEN then
    s' = { s with sched := { s.sched with ctx := { s.sched.ctx with rax := -1 } } }
  else Forks s s'

/-! ## The recursion -/

variable {k k' : Kernel} {ctx : ContextPtr} {depth room : Nat}

namespace Kernel

/-- The state after `fork_task`: the free slots hold new tasks. -/
structure Filled (k : Kernel) (ctx : ContextPtr) (k' : Kernel) : Prop where
  size : k'.fifoSize = TASK_FIFO_LEN
  run : k'.fifoRun = k.fifoRun
  save : k'.save = k.save
  cr3 : k'.cr3 = k.cr3
  result : k'.context ctx =
    { k.context ctx with rax := if k.fifoSize = TASK_FIFO_LEN then -1 else 0 }
  new : ∀ i, k.fifoSize ≤ i → i < TASK_FIFO_LEN →
    k'.fifo i = (k.fifo k.fifoRun).setContext
      { k.context ctx with rax := if i + 1 = TASK_FIFO_LEN then -1 else 0 }
  old : ∀ i, i < k.fifoSize ∨ TASK_FIFO_LEN ≤ i →
    k'.fifo i = if ctx = .slot i then (k.fifo i).setContext (k'.context ctx) else k.fifo i
  trap : ctx ≠ .trap → k'.ctx = k.ctx

theorem context_setContext (c : InterruptContext) : (k.setContext ctx c).context ctx = c := by
  cases ctx with
  | trap => rfl
  | slot i =>
    unfold setContext context
    dsimp only
    rw [Function.update_self]
    rfl

theorem fifo_setContext (c : InterruptContext) (i : Nat) :
    (k.setContext ctx c).fifo i = if ctx = .slot i then (k.fifo i).setContext c else k.fifo i := by
  cases ctx with
  | trap => rfl
  | slot j =>
    unfold setContext
    dsimp only
    by_cases hij : j = i
    · subst hij
      rw [Function.update_self, if_pos rfl]
    · rw [Function.update_of_ne (Ne.symm hij), if_neg fun heq => hij (ContextPtr.slot.inj heq)]

/-- The other variables. -/
theorem setContext_rest (k : Kernel) (ctx : ContextPtr) (c : InterruptContext) :
    (k.setContext ctx c).fifoSize = k.fifoSize ∧ (k.setContext ctx c).fifoRun = k.fifoRun ∧
      (k.setContext ctx c).save = k.save ∧ (k.setContext ctx c).cr3 = k.cr3 ∧
        (ctx ≠ .trap → (k.setContext ctx c).ctx = k.ctx) := by
  cases ctx with
  | trap => exact ⟨rfl, rfl, rfl, rfl, fun hne => absurd rfl hne⟩
  | slot i => exact ⟨rfl, rfl, rfl, rfl, fun _ => rfl⟩

/-- The context of a slot depends on the slot. -/
theorem context_congr (hctx : k'.ctx = k.ctx)
    (hslot : ∀ i, ctx = .slot i → k'.fifo i = k.fifo i) : k'.context ctx = k.context ctx := by
  cases ctx with
  | trap => exact hctx
  | slot i => exact congrArg Task.context (hslot i rfl)

/-- `k` with a new task in the first free slot. -/
def addChild (k : Kernel) (c : InterruptContext) : Kernel :=
  { k with
    fifoSize := k.fifoSize + 1
    fifo := Function.update k.fifo k.fifoSize ((k.fifo k.fifoRun).setContext { c with rax := 1 }) }

/-- One call of `fork_task`. -/
theorem forkTask_succ (hsize : k.fifoSize ≠ TASK_FIFO_LEN) (hrun : k.fifoRun < k.fifoSize)
    (hctx : ctx ≠ .slot k.fifoSize) :
    forkTask (depth + 1) ctx k =
      (forkTask depth (.slot k.fifoSize) (k.addChild (k.context ctx))).map
        fun k => k.setRax ctx 0 := by
  have hcurrent : current { k with fifoSize := k.fifoSize + 1 } = some (k.fifo k.fifoRun) :=
    if_neg (show ¬ k.fifoSize + 1 ≤ k.fifoRun by omega)
  have hcontext : context { k with
      fifoSize := k.fifoSize + 1
      fifo := Function.update k.fifo k.fifoSize (k.fifo k.fifoRun) } ctx = k.context ctx := by
    refine context_congr rfl fun i hi => Function.update_of_ne ?_ _ _
    intro heq
    exact hctx (heq ▸ hi)
  have hchild : ∀ c, (setContext { k with
      fifoSize := k.fifoSize + 1
      fifo := Function.update k.fifo k.fifoSize (k.fifo k.fifoRun) } (.slot k.fifoSize) c).setRax
        (.slot k.fifoSize) 1 = k.addChild c := by
    intro c
    unfold addChild setRax setContext context
    dsimp only
    rw [Function.update_self, Function.update_self, Function.update_idem, Function.update_idem]
    rfl
  rw [forkTask, if_neg hsize]
  dsimp only
  rw [hcurrent, Option.bind_some, hcontext, hchild]
  rfl

/-- A call of `fork_task` fills the FIFO. -/
theorem fork_spec : ∀ (room depth : Nat) (ctx : ContextPtr) (k : Kernel),
    k.fifoSize + room = TASK_FIFO_LEN → room < depth → k.fifoRun < k.fifoSize →
      (∀ i, ctx = .slot i → i < k.fifoSize) →
        ∃ k', forkTask depth ctx k = some k' ∧ Filled k ctx k' := by
  intro room
  induction room with
  | zero =>
    intro depth ctx k hsize hdepth hrun hctx
    obtain ⟨depth, rfl⟩ : ∃ d, depth = d + 1 := ⟨depth - 1, by omega⟩
    have hfull : k.fifoSize = TASK_FIFO_LEN := hsize
    obtain ⟨hsize', hrest⟩ := k.setContext_rest ctx { k.context ctx with rax := -1 }
    rcases hrest with ⟨hrun', hsave, hcr3, htrap⟩
    refine ⟨k.setRax ctx (-1), if_pos hfull, hsize'.trans hfull, hrun', hsave, hcr3, ?_, ?_, ?_,
      htrap⟩
    · rw [if_pos hfull]
      exact context_setContext _
    · intro i hlo hhi
      omega
    · intro i _
      unfold setRax
      rw [fifo_setContext, context_setContext]
  | succ room ih =>
    intro depth ctx k hsize hdepth hrun hctx
    obtain ⟨depth, rfl⟩ : ∃ d, depth = d + 1 := ⟨depth - 1, by omega⟩
    have hne : ctx ≠ .slot k.fifoSize := fun heq => Nat.lt_irrefl _ (hctx _ heq)
    have hnotFull : k.fifoSize ≠ TASK_FIFO_LEN := by omega
    obtain ⟨k₂, hcall, h⟩ := ih depth (.slot k.fifoSize) (k.addChild (k.context ctx))
      (show k.fifoSize + 1 + room = TASK_FIFO_LEN by omega) (by omega)
      (show k.fifoRun < k.fifoSize + 1 by omega) fun i hi => by
        obtain rfl := ContextPtr.slot.inj hi
        exact Nat.lt_succ_self _
    have hold : ∀ i, i < k.fifoSize ∨ TASK_FIFO_LEN ≤ i → k₂.fifo i = k.fifo i := by
      intro i hi
      have hin : i ≠ k.fifoSize := by omega
      rw [h.old i (by show i < k.fifoSize + 1 ∨ _; omega),
        if_neg fun heq => hin (ContextPtr.slot.inj heq).symm]
      exact Function.update_of_ne hin _ _
    have hsame : k₂.context ctx = k.context ctx :=
      context_congr (h.trap (by simp)) fun i hi => hold i (.inl (hctx i hi))
    have hchild : (k.addChild (k.context ctx)).context (.slot k.fifoSize) =
        { k.context ctx with rax := 1 } :=
      congrArg Task.context (Function.update_self k.fifoSize _ k.fifo)
    obtain ⟨hsize', hrun', hsave, hcr3, htrap⟩ :=
      k₂.setContext_rest ctx { k₂.context ctx with rax := 0 }
    refine ⟨k₂.setRax ctx 0, ?_, hsize'.trans h.size, hrun'.trans h.run, hsave.trans h.save,
      hcr3.trans h.cr3, ?_, ?_, ?_, fun hctx' => (htrap hctx').trans (h.trap (by simp))⟩
    · rw [forkTask_succ hnotFull hrun hne, hcall]
      rfl
    · rw [if_neg hnotFull, ← hsame]
      exact context_setContext _
    · intro i hlo hhi
      have hslot : ctx ≠ .slot i := fun heq => by
        have hlt := hctx i heq
        omega
      unfold setRax
      rw [fifo_setContext, if_neg hslot]
      by_cases hin : i = k.fifoSize
      · subst hin
        rw [h.old k.fifoSize (.inl (Nat.lt_succ_self _)), if_pos rfl, h.result, hchild]
        unfold addChild
        dsimp only
        rw [Function.update_self]
        rfl
      · rw [h.new i (by show k.fifoSize + 1 ≤ i; omega) hhi, hchild]
        unfold addChild
        dsimp only
        rw [Function.update_of_ne (by omega)]
    · intro i hi
      unfold setRax
      rw [fifo_setContext, context_setContext, hold i hi]

end Kernel

/-- The new task has the page table of its parent. -/
theorem not_forks {s : System} (hsize : s.sched.fifoSize < TASK_FIFO_LEN)
    (h : Kernel.Filled s.sched .trap k') : ¬ Forks s { s with sched := k' } := by
  intro hforks
  obtain ⟨pgt, hchild, hcopies⟩ := hforks.child
  have hpgt := congrArg Task.pgt (hchild.symm.trans (h.new _ (Nat.le_refl _) hsize))
  have hshared : pgt = (s.sched.fifo s.sched.fifoRun).pgt := hpgt
  rw [hshared] at hcopies
  exact hcopies.own rfl

/-- For a running task, `fork_task` returns, and is right exactly when the FIFO is full. -/
theorem fork_iff (s : System) (depth : Nat) (hrun : s.sched.fifoRun < s.sched.fifoSize)
    (hsize : s.sched.fifoSize ≤ TASK_FIFO_LEN) (hdepth : TASK_FIFO_LEN - s.sched.fifoSize < depth) :
    ∃ s', s.forkTask depth = some s' ∧
      (ForkRight s s' ↔ s.sched.fifoSize = TASK_FIFO_LEN) := by
  obtain ⟨k', hcall, h⟩ := Kernel.fork_spec (TASK_FIFO_LEN - s.sched.fifoSize) depth .trap s.sched
    (by omega) hdepth hrun fun i hi => by cases hi
  refine ⟨{ s with sched := k' }, ?_, ?_⟩
  · unfold System.forkTask
    rw [hcall]
    rfl
  · unfold ForkRight
    by_cases hfull : s.sched.fifoSize = TASK_FIFO_LEN
    · obtain ⟨depth, rfl⟩ : ∃ d, depth = d + 1 := ⟨depth - 1, by omega⟩
      have hreturn : k' = s.sched.setRax .trap (-1) := by
        rw [Kernel.forkTask, if_pos hfull] at hcall
        exact (Option.some.inj hcall).symm
      rw [if_pos hfull, hreturn]
      exact iff_of_true rfl hfull
    · rw [if_neg hfull]
      exact iff_of_false (not_forks (by omega) h) hfull

/-- Two tasks, one of which forks. -/
def forkSystem : System := ⟨⟨fun _ => 0, [0]⟩, twoTasks⟩

/-- The FIFO is full after one call, and the new task has the page table of its parent. -/
theorem not_forkRight_two :
    ∃ s', forkSystem.forkTask 31 = some s' ∧ s'.sched.fifoSize = TASK_FIFO_LEN ∧
      ¬ ForkRight forkSystem s' := by
  obtain ⟨k', hcall, h⟩ := Kernel.fork_spec 30 31 .trap twoTasks rfl (by decide) (by decide)
    fun i hi => by cases hi
  refine ⟨{ forkSystem with sched := k' }, ?_, h.size, ?_⟩
  · unfold System.forkTask forkSystem
    dsimp only
    rw [hcall]
    rfl
  · unfold ForkRight
    rw [if_neg (by decide)]
    exact not_forks (by decide) h

theorem fork_iff_two :
    ∃ s', forkSystem.forkTask 31 = some s' ∧
      (ForkRight forkSystem s' ↔ forkSystem.sched.fifoSize = TASK_FIFO_LEN) :=
  fork_iff forkSystem 31 (by decide) (by decide) (by decide)

end KernelMemVirt.Rackdoll
