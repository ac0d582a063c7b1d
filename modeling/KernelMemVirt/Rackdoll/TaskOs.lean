import KernelMemVirt.Rackdoll.UserImage

/-!
# The kernel as an operating system

What the kernel of Rackdoll is for: each task has its registers and a memory of its own.

* `TaskOs` is the abstract operating system: the map from the live tasks to their saved
  registers, and the memories.  `TaskOs.Next` is what an event of the running task does.
* `System.event` is the machine: system calls and page faults go to the kernel, and the
  accesses of a task go through its page tables.
* `OsRefines` relates the two.  `OsRefines.mmap`, `OsRefines.switch` and `OsRefines.store` are
  the changes, and `refines_event` is one event.
* `taskOs_of_run` is the run, from the boot of the kernel on.
-/

namespace KernelMemVirt.Rackdoll

open ByteMem AddressSpace Transition

/-! ## The abstract operating system -/

/-- What the running task does.  By a load it gets the byte, and a page fault is for a load or
a store; it has the registers `regs` by then. -/
inductive TaskEvent
  | syscall (regs : InterruptContext)
  | load (vaddr : Word) (byte : BitVec 8)
  | store (vaddr : Word) (byte : BitVec 8)
  | fault (vaddr : Word) (store : Option (BitVec 8)) (regs : InterruptContext)

/-- The address that the processor translates. -/
def userAddress (vaddr : Word) : Nat := vaddr.toNat % 2 ^ 48

/-- The tasks, and the memory of each. -/
structure TaskOs (Id : Type) where
  tasks : TaskMap Id InterruptContext
  memory : Contents Id Nat (BitVec 8)

namespace TaskOs

variable {Id : Type} [DecidableEq Id]

/-- The system call that ends in a switch to a task. -/
def switchCall : TaskOp → Word
  | .yield => SYSCALL_YIELD
  | .exit => SYSCALL_EXIT

/-- An event of the task `i`, which runs.  `mmap` and a page fault at a user address make a
page of zeros; any other page fault ends the task. -/
inductive Next (home : InterruptContext) : TaskOs Id → TaskEvent → TaskOs Id → Prop
  | mmap {a : TaskOs Id} {i : Id} {regs : InterruptContext} (running : a.tasks.running = some i)
      (call : regs.rdi = SYSCALL_MMAP) :
      Next home a (.syscall regs)
        ⟨{ a.tasks with ctx := regs }, a.memory.assign i (UserPage regs.rsi.toNat) fun _ => 0⟩
  | switch {a : TaskOs Id} {tasks : TaskMap Id InterruptContext} {op : TaskOp}
      {regs : InterruptContext} (call : regs.rdi = switchCall op)
      (next : TaskMap.Next home a.tasks ⟨regs, op⟩ tasks) :
      Next home a (.syscall regs) ⟨tasks, a.memory⟩
  | ignore {a : TaskOs Id} {i : Id} {regs : InterruptContext} (running : a.tasks.running = some i)
      (call : regs.rdi ≠ SYSCALL_MMAP ∧ ∀ op, regs.rdi ≠ switchCall op) :
      Next home a (.syscall regs) ⟨{ a.tasks with ctx := regs }, a.memory⟩
  | load {a : TaskOs Id} {i : Id} {vaddr : Word} {byte : BitVec 8}
      (running : a.tasks.running = some i) (holds : a.memory i (userAddress vaddr) = some byte) :
      Next home a (.load vaddr byte) a
  | store {a : TaskOs Id} {i : Id} {vaddr : Word} {byte : BitVec 8}
      (running : a.tasks.running = some i) (mapped : a.memory i (userAddress vaddr) ≠ none) :
      Next home a (.store vaddr byte)
        ⟨a.tasks, a.memory.assign i (· = userAddress vaddr) fun _ => byte⟩
  | grow {a : TaskOs Id} {i : Id} {vaddr : Word} {store : Option (BitVec 8)}
      {regs : InterruptContext} (running : a.tasks.running = some i)
      (missing : a.memory i (userAddress vaddr) = none) (guard : UserGuard vaddr) :
      Next home a (.fault vaddr store regs)
        ⟨{ a.tasks with ctx := regs }, a.memory.assign i (UserPage vaddr.toNat) fun _ => 0⟩
  | kill {a : TaskOs Id} {i : Id} {tasks : TaskMap Id InterruptContext} {vaddr : Word}
      {store : Option (BitVec 8)} {regs : InterruptContext} (running : a.tasks.running = some i)
      (missing : a.memory i (userAddress vaddr) = none) (guard : ¬ UserGuard vaddr)
      (next : TaskMap.Next home a.tasks ⟨regs, .exit⟩ tasks) :
      Next home a (.fault vaddr store regs) ⟨tasks, a.memory⟩

end TaskOs

/-! ## The machine -/

namespace System

/-- The running task may make an access. -/
def Runs (s : System) (vaddr : Word) : Prop := s.sched.fifoSize ≠ 0 ∧ Canonical vaddr

instance (s : System) (vaddr : Word) : Decidable (s.Runs vaddr) :=
  inferInstanceAs (Decidable (_ ∧ _))

/-- An event of the running task. -/
def event (pool : Nat) (s : System) : TaskEvent → Option System
  | .syscall regs => s.trap pool (.syscall regs)
  | .load vaddr byte =>
    if s.Runs vaddr then
      (userTranslate s.phys.mem s.sched.cr3 vaddr none).bind fun x =>
        if s.phys.mem x.paddr = byte then some s else none
    else none
  | .store vaddr byte =>
    if s.Runs vaddr then
      (userTranslate s.phys.mem s.sched.cr3 vaddr (some byte)).map fun x =>
        { s with phys := s.phys.store x.paddr (some byte) }
    else none
  | .fault vaddr store regs =>
    if s.Runs vaddr ∧ userTranslate s.phys.mem s.sched.cr3 vaddr store = none then
      s.trap pool (.pageFault vaddr regs)
    else none

/-- A call of `mmap` is for an address from 1 GiB on, and finds the pages it takes and one
more.  A call of `munmap` is ignored, or ends in the error of `free_page`. -/
def CallServed (P : PoolRegion) (s : System) : MemCall → Prop
  | .mmap v => 0x40000000 ≤ v.toNat % 2 ^ 48 ∧
      missing s.phys.mem v 3 s.pgt + 1 ≤ Bitset.free s.phys.bitset
  | .munmap v => UserGuard v →
      freePage P.base s.phys.bitset
        (read64 s.phys.mem (slot (follow s.phys.mem v 3 s.pgt) v 1)) = .error .die

/-- The condition on an event; the page faults that `pgfault` serves find their pages too. -/
def EventFits (P : PoolRegion) (s : System) : TaskEvent → Prop
  | .syscall regs => ∀ c ∈ (Trap.syscall regs).memCall, s.CallServed P c
  | .load _ _ => True
  | .store _ _ => True
  | .fault vaddr _ _ => UserGuard vaddr →
      missing s.phys.mem vaddr 3 s.pgt + 1 ≤ Bitset.free s.phys.bitset

instance (P : PoolRegion) (s : System) : ∀ c, Decidable (s.CallServed P c)
  | .mmap _ => inferInstanceAs (Decidable (_ ∧ _))
  | .munmap _ => inferInstanceAs (Decidable (_ → _))

instance (P : PoolRegion) (s : System) : ∀ e, Decidable (s.EventFits P e)
  | .syscall _ => inferInstanceAs (Decidable (∀ c ∈ _, _))
  | .load _ _ => inferInstanceAs (Decidable True)
  | .store _ _ => inferInstanceAs (Decidable True)
  | .fault _ _ _ => inferInstanceAs (Decidable (_ → _))

end System

/-! ## Translations -/

variable {P : PoolRegion} {root : Nat → Option Nat} {role : Nat → PageRole}

/-- An access that is translated is one to a place in the view. -/
theorem userView_of_userTranslate {mem : Mem} {cr3 vaddr : Word} {store : Option (BitVec 8)}
    {t : Nat} {x : Translation} (hroot : root t = some cr3.toNat)
    (hx : userTranslate mem cr3 vaddr store = some x) :
    userView mem root t (userAddress vaddr) = some x.paddr := by
  obtain ⟨htranslate, hrights⟩ := Option.filter_eq_some_iff.mp hx
  refine userView_eq_some.mpr ⟨Nat.mod_lt _ (by decide), _, x, hroot, ?_,
    (Bool.and_eq_true_iff.mp hrights).1, rfl⟩
  rw [ofNat_toNat]
  exact (walkFrom_mod mem vaddr.toNat (Nat.le_refl 4) _).trans htranslate

/-- An access that is not translated is one to an address that is not in the view. -/
theorem UserSpaces.userView_of_fault {s : Phys} (h : UserSpaces P s root role)
    {cr3 vaddr : Word} {store : Option (BitVec 8)} {t : Nat} (hroot : root t = some cr3.toNat)
    (hnone : userTranslate s.mem cr3 vaddr store = none) :
    userView s.mem root t (userAddress vaddr) = none := by
  refine Option.eq_none_iff_forall_ne_some.mpr fun a hview => ?_
  obtain ⟨-, r, x, hr, hx, huser, -⟩ := userView_eq_some.mp hview
  obtain rfl := Option.some.inj (hroot.symm.trans hr)
  have hwritable := h.writable t _ _ x hroot hx huser
  rw [ofNat_toNat] at hx
  have htranslate : translate s.mem cr3 vaddr.toNat = some x :=
    (walkFrom_mod s.mem vaddr.toNat (Nat.le_refl 4) _).symm.trans hx
  have hallowed : (translate s.mem cr3 vaddr.toNat).filter
      (fun x => x.user && (store.isNone || x.writable)) = some x := by
    rw [htranslate, Option.filter_some, huser, hwritable, Bool.or_true, Bool.and_true]
    rfl
  cases hnone.symm.trans hallowed

/-! ## The refinement -/

/-- The machine stands for the operating system `a`; `loaded` is the system after
`load_tasks`. -/
structure OsRefines (P : PoolRegion) (loaded : System) (home : InterruptContext) (s : System)
    (a : TaskOs Nat) : Prop where
  tasks : Refines loaded.sched.fifo home s.sched a.tasks
  live : ∀ i, (a.tasks.saved i).isSome → i < loaded.sched.fifoSize
  spaces : ∃ role, UserSpaces P s.phys loaded.roots role
  memory : a.memory = contents (userView s.phys.mem loaded.roots) s.phys.mem

/-- The registers of the running task change. -/
theorem Refines.setCtx {tasks : Nat → Task} {home : InterruptContext} {k : Kernel}
    {a : TaskMap Nat InterruptContext} (h : Refines tasks home k a) (hne : k.fifoSize ≠ 0)
    (regs : InterruptContext) :
    Refines tasks home { k with ctx := regs } { a with ctx := regs } := by
  rcases h with ⟨id, h⟩
  exact ⟨id, h.slots, h.suspended, h.size_le, h.save, rfl, h.run, fun h0 => absurd h0 hne⟩

/-- A switch makes no task live. -/
theorem TaskMap.Next.live {Id Ctx : Type} [DecidableEq Id] {home : Ctx} {a a' : TaskMap Id Ctx}
    {t : TaskTrap Ctx} (h : TaskMap.Next home a t a') {p : Id → Prop}
    (hrunning : ∀ i, a.running = some i → p i) (hlive : ∀ j, (a.saved j).isSome → p j) :
    ∀ j, (a'.saved j).isSome → p j := by
  have hupdate : ∀ {i : Id} {c : Option Ctx}, a.running = some i →
      ∀ j, (Function.update a.saved i c j).isSome → p j := by
    intro i c hi j hj
    by_cases heq : j = i
    · exact heq ▸ hrunning i hi
    · rw [Function.update_of_ne heq] at hj
      exact hlive j hj
  cases h with
  | yield running _ => exact hupdate running
  | exit running _ => exact hupdate running
  | last running _ => exact hupdate running

namespace OsRefines

variable {loaded s : System} {home regs : InterruptContext} {a : TaskOs Nat}

/-- The task that runs has its own page table. -/
theorem pgt_of_running (h : OsRefines P loaded home s a) {i : Nat}
    (hi : a.tasks.running = some i) : s.pgt = (loaded.sched.fifo i).pgt := by
  obtain ⟨id, hid⟩ := h.tasks
  have hne : s.sched.fifoSize ≠ 0 := by
    intro h0
    cases (hid.done h0).1.symm.trans hi
  obtain ⟨hrun, hrunning, -⟩ := hid.run hne
  obtain rfl := Option.some.inj (hi.symm.trans hrunning)
  unfold System.pgt
  rw [hid.slots.task _ hrun]
  rfl

/-- The task that runs, and its page table. -/
theorem current (h : OsRefines P loaded home s a) (hne : s.sched.fifoSize ≠ 0) :
    ∃ i, a.tasks.running = some i ∧ i < loaded.sched.fifoSize ∧
      loaded.roots i = some s.pgt.toNat ∧ s.sched.cr3 = s.pgt := by
  obtain ⟨id, hid⟩ := h.tasks
  obtain ⟨hrun, hrunning, hcr3⟩ := hid.run hne
  have hlive := h.live _ ((hid.slots.live _).mpr ⟨_, hrun, rfl⟩)
  have hpgt := h.pgt_of_running hrunning
  exact ⟨_, hrunning, hlive, (if_pos hlive).trans (by rw [hpgt]), hcr3.trans hpgt.symm⟩

/-- The task gets a page of zeros. -/
theorem mmap (h : OsRefines P loaded home s a) (hne : s.sched.fifoSize ≠ 0) {v : Word}
    (hv : 0x40000000 ≤ v.toNat % 2 ^ 48)
    (hfree : missing s.phys.mem v 3 s.pgt + 1 ≤ Bitset.free s.phys.bitset) {i : Nat}
    (hi : a.tasks.running = some i) :
    OsRefines P loaded home
      { phys := s.phys.mmap P.base s.pgt v, sched := { s.sched with ctx := regs } }
      ⟨{ a.tasks with ctx := regs }, a.memory.assign i (UserPage v.toNat) fun _ => 0⟩ := by
  obtain ⟨i', hi', -, hroot, -⟩ := h.current hne
  obtain rfl := Option.some.inj (hi.symm.trans hi')
  obtain ⟨role, hspaces⟩ := h.spaces
  rw [← ofNat_toNat s.pgt] at hfree
  obtain ⟨hspaces', -, hcontents⟩ := hspaces.mmap hroot hv hfree
  rw [ofNat_toNat] at hspaces' hcontents
  refine ⟨h.tasks.setCtx hne regs, h.live, hspaces', ?_⟩
  dsimp only
  rw [hcontents, h.memory]

/-- The kernel goes back to the task at once. -/
theorem setCtx (h : OsRefines P loaded home s a) (hne : s.sched.fifoSize ≠ 0) :
    OsRefines P loaded home { s with sched := { s.sched with ctx := regs } }
      ⟨{ a.tasks with ctx := regs }, a.memory⟩ :=
  ⟨h.tasks.setCtx hne regs, h.live, h.spaces, h.memory⟩

/-- The kernel goes on with another task. -/
theorem switch (h : OsRefines P loaded home s a) (hne : s.sched.fifoSize ≠ 0) (op : TaskOp)
    {k : Kernel} (hk : taskTrap s.sched ⟨regs, op⟩ = some k) :
    ∃ tasks, TaskMap.Next home a.tasks ⟨regs, op⟩ tasks ∧
      OsRefines P loaded home { s with sched := k } ⟨tasks, a.memory⟩ := by
  obtain ⟨tasks, hnext, htasks⟩ := refines_taskTrap h.tasks hk
  obtain ⟨i, hi, hlt, -⟩ := h.current hne
  refine ⟨tasks, hnext, htasks, hnext.live (fun j hj => ?_) h.live, h.spaces, h.memory⟩
  obtain rfl := Option.some.inj (hi.symm.trans hj)
  exact hlt

/-- The running task stores to its memory. -/
theorem store (h : OsRefines P loaded home s a) {i : Nat} {vaddr : Word} {x : Translation}
    {byte : BitVec 8} (hview : userView s.phys.mem loaded.roots i (userAddress vaddr) =
      some x.paddr) :
    OsRefines P loaded home { s with phys := s.phys.store x.paddr (some byte) }
      ⟨a.tasks, a.memory.assign i (· = userAddress vaddr) fun _ => byte⟩ := by
  obtain ⟨role, hspaces⟩ := h.spaces
  obtain ⟨hspaces', -, hcontents⟩ := hspaces.store hview byte
  refine ⟨h.tasks, h.live, ⟨role, hspaces'⟩, ?_⟩
  dsimp only
  rw [hcontents, h.memory]

end OsRefines

/-! ## One event -/

/-- A system call of the running task, by its number. -/
theorem System.trap_syscall {pool : Nat} {s s' : System} {regs : InterruptContext}
    (h : s.trap pool (.syscall regs) = some s') :
    s.sched.fifoSize ≠ 0 ∧
      (regs.rdi = SYSCALL_MMAP ∧
          s' = { phys := s.phys.mmap pool s.pgt regs.rsi, sched := { s.sched with ctx := regs } } ∨
        (∃ op, regs.rdi = TaskOs.switchCall op ∧
          ∃ k, taskTrap s.sched ⟨regs, op⟩ = some k ∧ s' = { s with sched := k }) ∨
        (regs.rdi = SYSCALL_MUNMAP ∧ ∃ phys, s.phys.munmap pool s.pgt regs.rsi = .ok phys ∧
          s' = { phys, sched := { s.sched with ctx := regs } }) ∨
        (regs.rdi ≠ SYSCALL_MMAP ∧ ∀ op, regs.rdi ≠ TaskOs.switchCall op) ∧
          s' = { s with sched := { s.sched with ctx := regs } }) := by
  unfold trap at h
  split at h
  · cases h
  · next hne =>
    refine ⟨hne, ?_⟩
    unfold syscallHandler at h
    dsimp only [Trap.regs] at h
    split at h
    · next hmmap => exact .inl ⟨hmmap, (Option.some.inj h).symm⟩
    · next hmmap =>
      split at h
      · next hmunmap =>
        refine .inr (.inr (.inl ⟨hmunmap, ?_⟩))
        unfold memCall at h
        split at h
        · next phys hphys => exact ⟨phys, hphys, (Option.some.inj h).symm⟩
        · cases h
      · split at h
        · next hyield =>
          exact .inr (.inl ⟨.yield, hyield, _, if_neg hne, (Option.some.inj h).symm⟩)
        · next hyield =>
          split at h
          · next hexit =>
            exact .inr (.inl ⟨.exit, hexit, _, if_neg hne, (Option.some.inj h).symm⟩)
          · next hexit =>
            split at h
            · cases h
            · refine .inr (.inr (.inr ⟨⟨hmmap, fun op => ?_⟩, (Option.some.inj h).symm⟩))
              cases op with
              | yield => exact hyield
              | exit => exact hexit

section

variable {loaded s s' : System} {home : InterruptContext} {a : TaskOs Nat}

theorem refines_syscall {regs : InterruptContext} (h : OsRefines P loaded home s a)
    (hfits : s.EventFits P (.syscall regs)) (hstep : s.event P.base (.syscall regs) = some s') :
    ∃ a', TaskOs.Next home a (.syscall regs) a' ∧ OsRefines P loaded home s' a' := by
  obtain ⟨hne, hcases⟩ := System.trap_syscall hstep
  obtain ⟨i, hi, -⟩ := h.current hne
  rcases hcases with ⟨hcall, rfl⟩ | ⟨op, hcall, k, hk, rfl⟩ | ⟨hcall, phys, hphys, rfl⟩ |
    ⟨hcall, rfl⟩
  · obtain ⟨hv, hfree⟩ := hfits (.mmap regs.rsi) (if_pos hcall)
    exact ⟨_, .mmap hi hcall, h.mmap hne hv hfree hi⟩
  · obtain ⟨tasks, hnext, hrefines⟩ := h.switch hne op hk
    exact ⟨_, .switch hcall hnext, hrefines⟩
  · have hserved := hfits (.munmap regs.rsi)
      ((if_neg (by rw [hcall]; decide)).trans (if_pos hcall))
    unfold Phys.munmap at hphys
    split at hphys
    · next hguard =>
      dsimp only at hphys
      rw [hserved hguard] at hphys
      cases hphys
    · obtain rfl := Except.ok.inj hphys
      refine ⟨_, .ignore hi ⟨by rw [hcall]; decide, fun op => ?_⟩, h.setCtx hne⟩
      rw [hcall]
      cases op <;> decide
  · exact ⟨_, .ignore hi hcall, h.setCtx hne⟩

theorem refines_load {vaddr : Word} {byte : BitVec 8} (h : OsRefines P loaded home s a)
    (hstep : s.event P.base (.load vaddr byte) = some s') :
    ∃ a', TaskOs.Next home a (.load vaddr byte) a' ∧ OsRefines P loaded home s' a' := by
  unfold System.event at hstep
  dsimp only at hstep
  split at hstep
  · next hruns =>
    obtain ⟨x, hx, hload⟩ := Option.bind_eq_some_iff.mp hstep
    split at hload
    · next hbyte =>
      obtain rfl := Option.some.inj hload
      obtain ⟨i, hi, -, hroot, hcr3⟩ := h.current hruns.1
      rw [← hcr3] at hroot
      have hview := userView_of_userTranslate hroot hx
      refine ⟨a, .load hi ?_, h⟩
      rw [h.memory, contents_of_view hview, hbyte]
    · cases hload
  · cases hstep

theorem refines_store {vaddr : Word} {byte : BitVec 8} (h : OsRefines P loaded home s a)
    (hstep : s.event P.base (.store vaddr byte) = some s') :
    ∃ a', TaskOs.Next home a (.store vaddr byte) a' ∧ OsRefines P loaded home s' a' := by
  unfold System.event at hstep
  dsimp only at hstep
  split at hstep
  · next hruns =>
    obtain ⟨x, hx, rfl⟩ := Option.map_eq_some_iff.mp hstep
    obtain ⟨i, hi, -, hroot, hcr3⟩ := h.current hruns.1
    rw [← hcr3] at hroot
    have hview := userView_of_userTranslate hroot hx
    refine ⟨_, .store hi ?_, h.store hview⟩
    rw [h.memory, contents_of_view hview]
    exact Option.some_ne_none _
  · cases hstep

theorem refines_fault {vaddr : Word} {store : Option (BitVec 8)} {regs : InterruptContext}
    (h : OsRefines P loaded home s a) (hfits : s.EventFits P (.fault vaddr store regs))
    (hstep : s.event P.base (.fault vaddr store regs) = some s') :
    ∃ a', TaskOs.Next home a (.fault vaddr store regs) a' ∧ OsRefines P loaded home s' a' := by
  unfold System.event at hstep
  dsimp only at hstep
  split at hstep
  · next hfault =>
    rcases hfault with ⟨⟨hne, -⟩, hnone⟩
    obtain ⟨i, hi, -, hroot, hcr3⟩ := h.current hne
    obtain ⟨role, hspaces⟩ := h.spaces
    rw [← hcr3] at hroot
    have hmissing : a.memory i (userAddress vaddr) = none := by
      rw [h.memory, contents_eq_none_iff]
      exact hspaces.userView_of_fault hroot hnone
    rw [System.trap_pageFault hne] at hstep
    obtain rfl := Option.some.inj hstep
    split
    · next hguard =>
      have hbounds : 0x40000000 < vaddr.toNat ∧ vaddr.toNat < 0x00007fffffffffff := hguard
      exact ⟨_, .grow hi hmissing hguard, h.mmap hne (by omega) (hfits hguard) hi⟩
    · next hguard =>
      have hexit : taskTrap s.sched ⟨regs, .exit⟩ =
          some { s.sched with ctx := regs }.exitTask := if_neg hne
      obtain ⟨tasks, hnext, hrefines⟩ := h.switch hne .exit hexit
      exact ⟨_, .kill hi hmissing hguard hnext, hrefines⟩
  · cases hstep

/-- An event of the machine is one of the operating system. -/
theorem refines_event (h : OsRefines P loaded home s a) {e : TaskEvent} (hfits : s.EventFits P e)
    (hstep : s.event P.base e = some s') :
    ∃ a', TaskOs.Next home a e a' ∧ OsRefines P loaded home s' a' := by
  cases e with
  | syscall regs => exact refines_syscall h hfits hstep
  | load vaddr byte => exact refines_load h hstep
  | store vaddr byte => exact refines_store h hstep
  | fault vaddr store regs => exact refines_fault h hfits hstep

end

/-! ## The run -/

/-- The tasks that were loaded, each with its image. -/
def TaskOs.initial (mem : Mem) (sched : Kernel) : TaskOs Nat where
  tasks := initialTasks sched
  memory := fun t => if t < sched.fifoSize then imageMemory mem (sched.fifo t) else fun _ => none

/-- The FIFO has a slot for each image, as long as there are slots. -/
theorem loadTasks_size (pool : Nat) : ∀ (images : List Task) (s : System),
    s.sched.fifoSize ≤ TASK_FIFO_LEN →
      (loadTasks pool s images).sched.fifoSize =
        min (s.sched.fifoSize + images.length) TASK_FIFO_LEN := by
  intro images
  induction images with
  | nil => exact fun s hs => (Nat.min_eq_left hs).symm
  | cons image images ih =>
    intro s hs
    rw [loadTasks, List.length_cons]
    by_cases hsize : s.sched.fifoSize = TASK_FIFO_LEN
    · have hsame : addTask pool s image = s := if_pos hsize
      rw [hsame, ih s hs]
      omega
    · have hnext : (addTask pool s image).sched.fifoSize = s.sched.fifoSize + 1 := by
        unfold addTask
        rw [if_neg hsize]
      rw [ih _ (by omega), hnext]
      omega

/-- After `load_tasks` and `run_tasks`. -/
theorem osRefines_start {mem : Mem} {sched : Kernel} {images : List Task}
    (hpool : ∀ a, P.base ≤ a → a < P.base + PHYSICAL_POOL_PAGES * PAGE_SIZE → mem a = 0)
    (hload : LoadsFit P 4 (System.boot mem sched) images)
    (hfits : ∀ image ∈ images, ImageFits P image) (hapart : images.Pairwise PayloadsApart)
    (hsome : images ≠ []) :
    let loaded := loadTasks P.base (System.boot mem sched) images
    OsRefines P loaded loaded.sched.ctx (System.start P.base mem sched images)
      (TaskOs.initial mem loaded.sched) := by
  obtain ⟨hspaces, hmemory⟩ := loadTasks_memory hpool hload hfits hapart
  have hsize := loadTasks_size P.base images (System.boot mem sched) (Nat.zero_le _)
  have hlength := List.length_pos_iff.mpr hsome
  rw [show (System.boot mem sched).sched.fifoSize = 0 from rfl, Nat.zero_add] at hsize
  have hne : (loadTasks P.base (System.boot mem sched) images).sched.fifoSize ≠ 0 := by
    rw [hsize, TASK_FIFO_LEN]
    omega
  have hmax : (loadTasks P.base (System.boot mem sched) images).sched.fifoSize ≤
      TASK_FIFO_LEN := hsize ▸ Nat.min_le_right _ _
  refine ⟨refines_runTasks hne hmax, fun i hi => ?_, hspaces, funext fun t => ?_⟩
  · by_contra hlt
    have hnone : (initialTasks (loadTasks P.base (System.boot mem sched) images).sched).saved i =
        none := if_neg hlt
    rw [show (TaskOs.initial mem _).tasks.saved i = _ from hnone] at hi
    cases hi
  · exact (hmemory t).symm

/-- An event of another task leaves a memory alone. -/
theorem TaskOs.Next.memory {Id : Type} [DecidableEq Id] {home : InterruptContext}
    {a a' : TaskOs Id} {e : TaskEvent} (h : TaskOs.Next home a e a') {t : Id}
    (hother : a.tasks.running ≠ some t) : a'.memory t = a.memory t := by
  have hassign : ∀ {i : Id} {A : Nat → Prop} {value : Nat → BitVec 8},
      a.tasks.running = some i → a.memory.assign i A value t = a.memory t := by
    intro i A value hi
    exact Contents.assign_of_ne fun heq => hother (hi.trans (congrArg some heq.symm))
  cases h with
  | mmap running _ => exact hassign running
  | switch _ _ => rfl
  | ignore _ _ => rfl
  | load _ _ => rfl
  | store running _ => exact hassign running
  | grow running _ _ => exact hassign running
  | kill _ _ _ _ => rfl

/-- Another task with one page of code, at the same addresses. -/
def codeImage₂ : Task := { codeImage with loadPaddr := 0x1e2000, loadEndPaddr := 0x1e3000 }

/-- Task 1 stores to its stack, which is a page fault and then a store, and yields.  Task 0
finds a zero there, and yields; task 1 finds its byte. -/
def stackEvents : List TaskEvent :=
  [.fault 0x1ffffffff8 (some 0x2a) .zero, .store 0x1ffffffff8 0x2a,
    .syscall (callRegs SYSCALL_YIELD 0), .fault 0x1ffffffff8 none .zero, .load 0x1ffffffff8 0,
    .syscall (callRegs SYSCALL_YIELD 0), .load 0x1ffffffff8 0x2a]

theorem imageFits_code : ∀ image ∈ [codeImage, codeImage₂], ImageFits lowPool image := by
  intro image himage
  have hsize : (payloadSize image).toNat = 4096 ∧ image.loadVaddr.toNat = 0x2000000000 ∧
      (bssSize image).toNat = 0 ∧
        (image.loadPaddr.toNat = 0x1e0000 ∨ image.loadPaddr.toNat = 0x1e2000) := by
    simp only [List.mem_cons, List.not_mem_nil, or_false] at himage
    rcases himage with rfl | rfl
    · decide
    · decide
  obtain ⟨h1, h2, h3, h4⟩ := hsize
  refine ⟨by omega, by omega, by omega, by omega, by omega, by omega, by omega, by omega, ?_⟩
  intro a ha q hq hin
  have hhigh : q < 0x180000 + 64 * 4096 := hq.2.1
  have hmod := hq.aligned
  unfold InPayload at ha
  unfold InPage at hin
  omega

theorem loadsFit_code :
    LoadsFit lowPool 4 (System.boot (fun _ => 0) twoTasks) [codeImage, codeImage₂] := by
  refine ⟨fun _ => ⟨by decide +kernel, ⟨fun _ => ⟨⟨by decide, rfl, ?_⟩, trivial⟩, trivial⟩⟩,
    fun _ => ⟨by decide +kernel, ⟨fun _ => ⟨⟨by decide, rfl, ?_⟩, trivial⟩, trivial⟩⟩, trivial⟩
  · decide +kernel
  · decide +kernel

theorem payloadsApart_code : [codeImage, codeImage₂].Pairwise PayloadsApart := by
  refine List.pairwise_pair.mpr fun a ha hin => ?_
  have hhigh : a < 0x1e0000 + 4096 := ha.2
  have hlow : 0x1e2000 ≤ a := hin.1
  omega

end KernelMemVirt.Rackdoll
