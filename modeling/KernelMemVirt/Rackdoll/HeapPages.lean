import KernelMemVirt.Rackdoll.Ownership

/-!
# The heap and the stack of a task

Runs in which the tasks access their memory, call `mmap` and `munmap` and yield.  An
access without a translation is a page fault, and `pgfault` handles it.

* `ExplicitHeap` and `HeapState.FaultsServed` are the memory model in the comment of
  `kernel/memory.c`: the heap is mapped by calls of `mmap`, the stack by page faults.
* `Backs.store` says that a store of a task changes no page table.
* `HeapState.Fits` is the condition on a step.  `pgfault` compares with the end of the
  heap, not with the end of the stack, and `munmap` does not clear the entry.
* `explicitHeap_of_run` is the run, and `not_explicitHeap_of_access` a run with one
  access to the heap.
-/

namespace KernelMemVirt.Rackdoll

open ByteMem OwnerTree Transition

/-! ## Runs of tasks -/

/-- The addresses of the stack, in the memory model. -/
def StackAddress (vaddr : Word) : Prop := 0x40000000 ≤ vaddr ∧ vaddr < 0x2000000000

instance (vaddr : Word) : Decidable (StackAddress vaddr) := inferInstanceAs (Decidable (_ ∧ _))

theorem StackAddress.toNat {vaddr : Word} (h : StackAddress vaddr) :
    0x40000000 ≤ vaddr.toNat ∧ vaddr.toNat < 0x2000000000 := ⟨h.1, h.2⟩

/-- The addresses above the stack, by the 48 bits that are translated. -/
def HeapAddress (v : Nat) : Prop := 0x2000000000 ≤ v ∧ v < 2 ^ 48

/-- The addresses that an access may have; the processor raises another exception for
the others, and the kernel halts. -/
def Canonical (vaddr : Word) : Prop := vaddr.toNat < 2 ^ 47 ∨ 2 ^ 64 - 2 ^ 47 ≤ vaddr.toNat

instance (vaddr : Word) : Decidable (Canonical vaddr) := inferInstanceAs (Decidable (_ ∨ _))

/-- The system, and the pages that the tasks have passed to `SYSCALL_MMAP` and not to
`SYSCALL_MUNMAP` since, each with the page table of the task. -/
structure HeapState where
  sys : System
  mapped : List (Word × Nat)

/-- What the running task does: a system call, or an access to one byte, which a store
sets.  It has the registers `regs` by then. -/
inductive TaskStep
  | syscall (regs : InterruptContext)
  | access (vaddr : Word) (store : Option (BitVec 8)) (regs : InterruptContext)

/-- The translation of an access in user mode; a store has to be allowed. -/
def userTranslate (mem : Mem) (cr3 vaddr : Word) (store : Option (BitVec 8)) :
    Option Translation :=
  (translate mem cr3 vaddr.toNat).filter fun x => x.user && (store.isNone || x.writable)

/-- The memory after an access. -/
def Phys.store (s : Phys) (paddr : Nat) : Option (BitVec 8) → Phys
  | some byte => { s with mem := Function.update s.mem paddr byte }
  | none => s

namespace HeapState

variable (P : PoolRegion) (s : HeapState)

/-- The pages that are mapped explicitly after a system call. -/
def record (regs : InterruptContext) : List (Word × Nat) :=
  match (Trap.syscall regs).memCall with
  | some (.mmap v) => (s.sys.pgt, pageNumber v.toNat) :: s.mapped
  | some (.munmap v) => s.mapped.filter (· ≠ (s.sys.pgt, pageNumber v.toNat))
  | none => s.mapped

/-- The access of the running task is a page fault. -/
def Faults (vaddr : Word) (store : Option (BitVec 8)) : Prop :=
  s.sys.sched.fifoSize ≠ 0 ∧ Canonical vaddr ∧
    userTranslate s.sys.phys.mem s.sys.sched.cr3 vaddr store = none

instance (vaddr : Word) (store : Option (BitVec 8)) : Decidable (s.Faults vaddr store) :=
  inferInstanceAs (Decidable (_ ∧ _))

/-- One step of the running task.  With an empty FIFO no task runs. -/
def step (pool : Nat) : TaskStep → Option HeapState
  | .syscall regs =>
    (s.sys.trap pool (.syscall regs)).map fun sys => { sys, mapped := s.record regs }
  | .access vaddr store regs =>
    if s.Faults vaddr store then
      (s.sys.trap pool (.pageFault vaddr regs)).map fun sys => { s with sys }
    else if s.sys.sched.fifoSize = 0 ∨ ¬ Canonical vaddr then none
    else
      (userTranslate s.sys.phys.mem s.sys.sched.cr3 vaddr store).map fun x =>
        { s with sys := { s.sys with phys := s.sys.phys.store x.paddr store } }

/-- `load_tasks` and then `run_tasks`. -/
def start (pool : Nat) (mem : Mem) (sched : Kernel) (images : List Task) : HeapState where
  sys := System.start pool mem sched images
  mapped := []

end HeapState

/-! ## The property -/

/-- In the tree of each task, an address above the stack is backed only when it belongs
to the image of the task, or to a page that is mapped explicitly. -/
def ExplicitHeap (loaded : System) (s : HeapState) : Prop :=
  ∀ t, t < loaded.sched.fifoSize → ∀ v, HeapAddress v →
    translate s.sys.phys.mem (loaded.sched.fifo t).pgt v ≠ none →
      ImagePage (loaded.sched.fifo t) v ∨
        ((loaded.sched.fifo t).pgt, pageNumber v) ∈ s.mapped

/-- A page fault in the stack maps a new page of zeros, and the task goes on; any other
one ends the task. -/
def FaultServed (P : PoolRegion) (s s' : System) (cr2 : Word) (regs : InterruptContext) : Prop :=
  if StackAddress cr2 then
    s'.sched = { s.sched with ctx := regs } ∧
      ∃ q, NewPage P s.phys s'.phys s.sched.cr3 cr2 q
  else s' = { s with sched := { s.sched with ctx := regs }.exitTask }

namespace HeapState

variable (P : PoolRegion) (s : HeapState)

def FaultsServed : TaskStep → Prop
  | .syscall _ => True
  | .access vaddr store regs => s.Faults vaddr store →
      ∃ s', s.step P.base (.access vaddr store regs) = some s' ∧
        FaultServed P s.sys s'.sys vaddr regs

/-- A call of `mmap` is for an address outside the first 2 MiB, and finds all tables of
the address or as many free pages as it takes.  A call of `munmap` ends in the error of
`free_page`, or is for an address that it ignores and that is not mapped explicitly in
the heap. -/
def CallFits : MemCall → Prop
  | .mmap v => ¬ LowAddress v.toNat ∧
      (missing s.sys.phys.mem v 3 s.sys.pgt = 0 ∨
        missing s.sys.phys.mem v 3 s.sys.pgt + 1 ≤ Bitset.free s.sys.phys.bitset)
  | .munmap v =>
    if UserGuard v then
      freePage P.base s.sys.phys.bitset
        (read64 s.sys.phys.mem (slot (follow s.sys.phys.mem v 3 s.sys.pgt) v 1)) = .error .die
    else v.toNat % 2 ^ 48 < 0x2000000000 ∨ (s.sys.pgt, pageNumber v.toNat) ∉ s.mapped

/-- A page fault is for an address which `pgfault` takes for one of the stack exactly
when it is one, and in the stack it finds the pages it takes. -/
def Fits : TaskStep → Prop
  | .syscall regs => ∀ c ∈ (Trap.syscall regs).memCall, s.CallFits P c
  | .access vaddr store _ => s.Faults vaddr store →
      (UserGuard vaddr ↔ StackAddress vaddr) ∧
        (StackAddress vaddr →
          missing s.sys.phys.mem vaddr 3 s.sys.pgt + 1 ≤ Bitset.free s.sys.phys.bitset)

instance : ∀ c, Decidable (s.CallFits P c)
  | .mmap _ => inferInstanceAs (Decidable (_ ∧ _))
  | .munmap _ => inferInstanceAs (Decidable (ite _ _ _))

instance : ∀ e, Decidable (s.Fits P e)
  | .syscall _ => inferInstanceAs (Decidable (∀ c ∈ _, _))
  | .access _ _ _ => inferInstanceAs (Decidable (_ → _))

end HeapState

/-! ## Stores -/

variable {P : PoolRegion} {n : Nat} {s : Phys} {root : Nat → Option Nat} {role : Nat → PageRole}
  {A : Nat → Nat → Prop}

/-- The byte that a task may access is in no page table, and in no free page. -/
theorem Tables.paddr_page (h : Tables P 4 s root role) {t r v q : Nat} {x : Translation}
    (hroot : root t = some r) (huser : x.user = true)
    (hx : translate s.mem (BitVec.ofNat 64 r) v = some x) (hq : P.IsPage q)
    (hlo : q ≤ x.paddr) (hhi : x.paddr < q + 4096) : (role q).depth = some 4 := by
  have hqmod := hq.aligned
  obtain rfl : q = x.paddr / 4096 * 4096 := by omega
  exact (h.at_of_translate hroot (.inr huser) hx hq).depth

/-- A store of a task changes no page table. -/
theorem Backs.store (h : Backs P 4 s root A) {t r v : Nat} {x : Translation}
    (hroot : root t = some r) (huser : x.user = true)
    (hx : translate s.mem (BitVec.ofNat 64 r) v = some x) (store : Option (BitVec 8)) :
    Backs P 4 (s.store x.paddr store) root A := by
  cases store with
  | none => exact h
  | some byte =>
    rcases h with ⟨role, htables, hzero, hleaves⟩
    have hsame : ∀ q, P.IsPage q → (role q).depth ≠ some 4 → ∀ a, q ≤ a → a < q + 4096 →
        Function.update s.mem x.paddr byte a = s.mem a := by
      intro q hq hdepth a hlo hhi
      refine Function.update_of_ne ?_ _ _
      rintro rfl
      exact hdepth (htables.paddr_page hroot huser hx hq hlo hhi)
    have htable : ∀ q d, (role q).depth = some d → d < 4 → ∀ a, q ≤ a → a < q + 4096 →
        Function.update s.mem x.paddr byte a = s.mem a := by
      intro q d hq hd
      refine hsame q (htables.page q (ne_free_of_depth hq)) fun h4 => ?_
      have heq : d = 4 := Option.some.inj (hq.symm.trans h4)
      omega
    refine ⟨role, ?_, ?_, ?_⟩
    · exact htables.of_agree_tables htables.words (fun q d hq hd => htable q d hq (by omega))
        htables.allocated
    · intro q hq hclear a hlo hhi
      refine (hsame q hq (fun h4 => ?_) a hlo hhi).trans (hzero q hq hclear a hlo hhi)
      have hused := htables.allocated q (ne_free_of_depth h4)
      exact absurd (hused.symm.trans hclear) (by decide)
    · exact hleaves.congr fun q hq i hi => entry_congr (htable q 3 hq (by omega)) hi

/-! ## The invariant -/

/-- The addresses that may be backed. -/
def Allowed (loaded : System) (mapped : List (Word × Nat)) (t v : Nat) : Prop :=
  v % 2 ^ 48 < 0x2000000000 ∨ ImagePage (loaded.sched.fifo t) v ∨
    ((loaded.sched.fifo t).pgt, pageNumber v) ∈ mapped

/-- Only the allowed addresses are backed, and the running task uses its page table. -/
structure HeapInvariant (P : PoolRegion) (loaded : System) (s : HeapState) : Prop where
  backs : Backs P 4 s.sys.phys loaded.roots (Allowed loaded s.mapped)
  tasks : TaskRoots loaded.roots s.sys.sched
  cr3 : s.sys.sched.fifoSize ≠ 0 → s.sys.sched.cr3 = s.sys.pgt

theorem Backs.mono {B : Nat → Nat → Prop} (h : Backs P n s root A) (hAB : ∀ t v, A t v → B t v) :
    Backs P n s root B := by
  rcases h with ⟨role, htables, hzero, hleaves⟩
  exact ⟨role, htables, hzero, fun t v p hat hpresent => hAB t v (hleaves t v p hat hpresent)⟩

theorem roots_eq_some {loaded : System} {t r : Nat} (h : loaded.roots t = some r) :
    t < loaded.sched.fifoSize ∧ (loaded.sched.fifo t).pgt.toNat = r := by
  unfold System.roots at h
  split at h
  · next ht => exact ⟨ht, Option.some.inj h⟩
  · cases h

namespace HeapInvariant

variable {loaded : System} {s : HeapState}

/-- The running task is one of those that were loaded. -/
theorem current (h : HeapInvariant P loaded s) (hne : s.sys.sched.fifoSize ≠ 0) :
    ∃ t, loaded.roots t = some s.sys.pgt.toNat ∧ (loaded.sched.fifo t).pgt = s.sys.pgt := by
  obtain ⟨t, ht⟩ := h.tasks.slots _ (h.tasks.current hne)
  exact ⟨t, ht, BitVec.eq_of_toNat_eq (roots_eq_some ht).2⟩

/-- The invariant gives the property. -/
theorem explicitHeap (h : HeapInvariant P loaded s) : ExplicitHeap loaded s := by
  intro t ht v hv hbacked
  rcases h.backs with ⟨role, htables, -, hleaves⟩
  obtain ⟨x, hx⟩ := Option.ne_none_iff_exists'.mp hbacked
  have hroot : loaded.roots t = some (loaded.sched.fifo t).pgt.toNat := if_pos ht
  have hrole := htables.owned.root t _ hroot
  have hlow : ¬ LowAddress v := by
    unfold LowAddress
    unfold HeapAddress at hv
    omega
  unfold translate at hx
  rw [← ofNat_toNat (loaded.sched.fifo t).pgt,
    (htables.page _ (by rw [hrole]; simp)).frame_ofNat] at hx
  obtain ⟨q, hat, hpresent, -⟩ := htables.leaf_of_walkFrom (by omega) (Nat.zero_add 4)
    (show At role t v 0 _ from hrole) hx (.inl hlow)
  rcases hleaves t v q hat hpresent with hstack | hallowed
  · unfold HeapAddress at hv
    omega
  · exact hallowed

/-- A call of `mmap` on the running task. -/
theorem mmap (h : HeapInvariant P loaded s) (hne : s.sys.sched.fifoSize ≠ 0) {v : Word}
    (hlow : ¬ LowAddress v.toNat) {mapped : List (Word × Nat)}
    (hmapped : ∀ t v', Allowed loaded s.mapped t v' → Allowed loaded mapped t v')
    (hnew : ∀ t v', (loaded.sched.fifo t).pgt = s.sys.pgt → pageNumber v' = pageNumber v.toNat →
      Allowed loaded mapped t v')
    (hfits : missing s.sys.phys.mem v 3 s.sys.pgt = 0 ∨
      missing s.sys.phys.mem v 3 s.sys.pgt + 1 ≤ Bitset.free s.sys.phys.bitset) :
    Backs P 4 (s.sys.phys.mmap P.base s.sys.pgt v) loaded.roots (Allowed loaded mapped) ∧
      (0 < Bitset.free s.sys.phys.bitset →
        ∃ q, NewPage P s.sys.phys (s.sys.phys.mmap P.base s.sys.pgt v) s.sys.pgt v q) := by
  obtain ⟨t, ht, hpgt⟩ := h.current hne
  have hmaps := mmap_maps (by omega) (by omega) hlow ht (h.backs.mono hmapped)
    (fun v' hv' => hnew t v' hpgt hv')
  rw [ofNat_toNat] at hmaps
  exact hmaps hfits

theorem exitTask (h : HeapInvariant P loaded s) (hne : s.sys.sched.fifoSize ≠ 0)
    (regs : InterruptContext) :
    HeapInvariant P loaded
      { s with sys := { s.sys with sched := { s.sys.sched with ctx := regs }.exitTask } } := by
  exact ⟨h.backs, (h.tasks.setCtx regs).exitTask hne, exitTask_cr3 _⟩

/-- A system call. -/
theorem syscall (h : HeapInvariant P loaded s) {regs : InterruptContext} {s' : HeapState}
    (hfits : s.Fits P (.syscall regs)) (hstep : s.step P.base (.syscall regs) = some s') :
    HeapInvariant P loaded s' := by
  obtain ⟨sys, htrap, rfl⟩ := Option.map_eq_some_iff.mp hstep
  obtain ⟨hne, hcases⟩ := System.trap_cases htrap
  have hctx := h.tasks.setCtx regs
  unfold HeapState.record
  unfold HeapState.Fits at hfits
  rcases hcases with ⟨c, phys, hc, hphys, rfl⟩ | ⟨hc, hswitch⟩
  · have hcall := hfits c hc
    unfold HeapState.CallFits at hcall
    rw [hc]
    cases c with
    | mmap v =>
      obtain rfl := Except.ok.inj hphys
      refine ⟨(h.mmap hne hcall.1 ?_ ?_ hcall.2).1, hctx, h.cr3⟩
      · exact fun t v' => .imp_right (.imp_right (List.mem_cons_of_mem _))
      · intro t v' hpgt hv'
        exact .inr (.inr (List.mem_cons.mpr (.inl (Prod.ext hpgt hv'))))
    | munmap v =>
      have hmunmap : s.sys.phys.munmap P.base s.sys.pgt v = .ok phys := hphys
      unfold Phys.munmap at hmunmap
      dsimp only at hcall hmunmap
      split at hmunmap
      · next hguard =>
        rw [if_pos hguard] at hcall
        rw [hcall] at hmunmap
        cases hmunmap
      · next hguard =>
        rw [if_neg hguard] at hcall
        obtain rfl := Except.ok.inj hmunmap
        refine ⟨h.backs.mono fun t v' hv' => ?_, hctx, h.cr3⟩
        rcases hv' with hstack | himage | hmem
        · exact .inl hstack
        · exact .inr (.inl himage)
        · by_cases heq :
              ((loaded.sched.fifo t).pgt, pageNumber v') = (s.sys.pgt, pageNumber v.toNat)
          · rcases hcall with hlow | hnot
            · have hpage := (Prod.mk.inj heq).2
              unfold pageNumber at hpage
              exact .inl (by omega)
            · exact absurd (heq ▸ hmem) hnot
          · exact .inr (.inr (List.mem_filter.mpr ⟨hmem, decide_eq_true heq⟩))
  · rw [hc]
    rcases hswitch with rfl | rfl | rfl
    · exact ⟨h.backs, hctx.nextTask, fun _ => rfl⟩
    · exact h.exitTask hne regs
    · exact ⟨h.backs, hctx, h.cr3⟩

/-- A page fault is served, and keeps the invariant. -/
theorem pageFault (h : HeapInvariant P loaded s) {vaddr : Word} {store : Option (BitVec 8)}
    {regs : InterruptContext} (hfits : s.Fits P (.access vaddr store regs))
    (hfault : s.Faults vaddr store) :
    ∃ s', s.step P.base (.access vaddr store regs) = some s' ∧ HeapInvariant P loaded s' ∧
      FaultServed P s.sys s'.sys vaddr regs := by
  obtain ⟨hguard, hpages⟩ := hfits hfault
  have hne := hfault.1
  have hctx := h.tasks.setCtx regs
  unfold HeapState.step
  dsimp only
  rw [if_pos hfault, System.trap_pageFault hne]
  refine ⟨_, rfl, ?_⟩
  unfold FaultServed
  dsimp only
  by_cases hstack : StackAddress vaddr
  · rw [if_pos (hguard.mpr hstack), if_pos hstack]
    have hbounds := hstack.toNat
    have hlow : ¬ LowAddress vaddr.toNat := by
      unfold LowAddress
      omega
    have hnew : ∀ t v', (loaded.sched.fifo t).pgt = s.sys.pgt →
        pageNumber v' = pageNumber vaddr.toNat → Allowed loaded s.mapped t v' := by
      intro t v' _ hv'
      unfold pageNumber at hv'
      exact .inl (by omega)
    have hfree := hpages hstack
    obtain ⟨hbacks, hpage⟩ := h.mmap hne hlow (fun _ _ hv => hv) hnew (.inr hfree)
    refine ⟨⟨hbacks, hctx, h.cr3⟩, rfl, ?_⟩
    rw [h.cr3 hne]
    exact hpage (by omega)
  · rw [if_neg (fun hg => hstack (hguard.mp hg)), if_neg hstack]
    exact ⟨h.exitTask hne regs, rfl⟩

/-- When the pages that it takes are there, a page fault is served exactly when `pgfault`
takes the address for one of the stack as the memory model does. -/
theorem faultsServed_iff (h : HeapInvariant P loaded s) {vaddr : Word}
    {store : Option (BitVec 8)} {regs : InterruptContext}
    (hpages : StackAddress vaddr →
      missing s.sys.phys.mem vaddr 3 s.sys.pgt + 1 ≤ Bitset.free s.sys.phys.bitset) :
    s.FaultsServed P (.access vaddr store regs) ↔
      (s.Faults vaddr store → (UserGuard vaddr ↔ StackAddress vaddr)) := by
  constructor
  · intro hserved hfault
    obtain ⟨s', hstep, hs'⟩ := hserved hfault
    have hne := hfault.1
    unfold HeapState.step at hstep
    dsimp only at hstep
    rw [if_pos hfault, System.trap_pageFault hne] at hstep
    obtain rfl := Option.some.inj hstep
    have hsize : { s.sys.sched with ctx := regs }.exitTask.fifoSize ≠ s.sys.sched.fifoSize := by
      rw [exitTask_size]
      dsimp only
      omega
    unfold FaultServed at hs'
    dsimp only at hs'
    by_cases hguard : UserGuard vaddr
    · by_cases hstack : StackAddress vaddr
      · exact iff_of_true hguard hstack
      · rw [if_neg hstack, if_pos hguard] at hs'
        exact absurd (congrArg (fun sys => sys.sched.fifoSize) hs').symm hsize
    · by_cases hstack : StackAddress vaddr
      · rw [if_pos hstack, if_neg hguard] at hs'
        exact absurd (congrArg Kernel.fifoSize hs'.1) hsize
      · exact iff_of_false hguard hstack
  · intro hguard hfault
    have hfits : s.Fits P (.access vaddr store regs) := fun hf => ⟨hguard hf, hpages⟩
    obtain ⟨s', hs', -, hserved⟩ := h.pageFault hfits hfault
    exact ⟨s', hs', hserved⟩

/-- An access without a page fault. -/
theorem access (h : HeapInvariant P loaded s) {vaddr : Word} {store : Option (BitVec 8)}
    {regs : InterruptContext} (hfault : ¬ s.Faults vaddr store) {s' : HeapState}
    (hstep : s.step P.base (.access vaddr store regs) = some s') : HeapInvariant P loaded s' := by
  unfold HeapState.step at hstep
  dsimp only at hstep
  rw [if_neg hfault] at hstep
  split at hstep
  · cases hstep
  · next hruns =>
    obtain ⟨x, hx, rfl⟩ := Option.map_eq_some_iff.mp hstep
    have hne : s.sys.sched.fifoSize ≠ 0 := fun hzero => hruns (.inl hzero)
    obtain ⟨t, ht, -⟩ := h.current hne
    obtain ⟨htranslate, hrights⟩ := Option.filter_eq_some_iff.mp hx
    have huser : x.user = true := (Bool.and_eq_true_iff.mp hrights).1
    rw [h.cr3 hne, ← ofNat_toNat s.sys.pgt] at htranslate
    exact ⟨h.backs.store ht huser htranslate store, h.tasks, h.cr3⟩

/-- One step. -/
theorem step (h : HeapInvariant P loaded s) {e : TaskStep} {s' : HeapState} (hfits : s.Fits P e)
    (hstep : s.step P.base e = some s') : HeapInvariant P loaded s' := by
  cases e with
  | syscall regs => exact h.syscall hfits hstep
  | access vaddr store regs =>
    by_cases hfault : s.Faults vaddr store
    · obtain ⟨t, ht, hinv, -⟩ := h.pageFault hfits hfault
      obtain rfl := Option.some.inj (ht.symm.trans hstep)
      exact hinv
    · exact h.access hfault hstep

/-- After `load_tasks` and `run_tasks`. -/
theorem start {mem : Mem} {sched : Kernel} {images : List Task}
    (hpool : ∀ a, P.base ≤ a → a < P.base + PHYSICAL_POOL_PAGES * PAGE_SIZE → mem a = 0)
    (hload : LoadsFit P 4 (System.boot mem sched) images) :
    HeapInvariant P (loadTasks P.base (System.boot mem sched) images)
      (HeapState.start P.base mem sched images) := by
  refine ⟨?_, taskRoots_runTasks fun i hi => ⟨i, if_pos hi⟩, runTasks_cr3 _⟩
  exact loadTasks_backs (by omega) (by omega) (fun _ _ hv => .inl (by omega)) (backs_boot hpool)
    hload fun _ _ _ himage => .inr (.inl himage)

end HeapInvariant

/-! ## The run -/

/-- In every run from `load_tasks` on whose steps meet the condition, the heap is mapped
explicitly; and the next page fault, when the pages that it takes are there, is served
exactly when `pgfault` takes the address for one of the stack as the memory model
does. -/
theorem explicitHeap_of_run (P : PoolRegion) (mem : Mem) (sched : Kernel) (images : List Task)
    (es : List TaskStep) (s : HeapState)
    (hpool : ∀ a, P.base ≤ a → a < P.base + PHYSICAL_POOL_PAGES * PAGE_SIZE → mem a = 0)
    (hload : LoadsFit P 4 (System.boot mem sched) images)
    (hok : RunOk (HeapState.step · P.base) (HeapState.Fits P)
      (HeapState.start P.base mem sched images) es)
    (hrun : run (HeapState.step · P.base) (HeapState.start P.base mem sched images) es = some s) :
    ExplicitHeap (loadTasks P.base (System.boot mem sched) images) s ∧
      (∀ e, s.Fits P e → s.FaultsServed P e) ∧
        ∀ vaddr store regs,
          (StackAddress vaddr →
            missing s.sys.phys.mem vaddr 3 s.sys.pgt + 1 ≤ Bitset.free s.sys.phys.bitset) →
          (s.FaultsServed P (.access vaddr store regs) ↔
            (s.Faults vaddr store → (UserGuard vaddr ↔ StackAddress vaddr))) := by
  have hfinal := run_invariant_of_ok (fun _ _ _ hs hfits hstep => hs.step hfits hstep) es _ s
    (HeapInvariant.start hpool hload) hok hrun
  refine ⟨hfinal.explicitHeap, fun e hfits => ?_, fun _ _ _ => hfinal.faultsServed_iff⟩
  cases e with
  | syscall regs => trivial
  | access vaddr store regs =>
    intro hfault
    exact (hfinal.faultsServed_iff (hfits hfault).2).mpr (fun hf => (hfits hf).1) hfault

/-- A task writes to its stack, which is a page fault and then a store, and maps a page
of the heap. -/
theorem explicitHeap_of_stack_and_mmap :
    ∃ s, run (HeapState.step · lowPool.base)
        (HeapState.start lowPool.base (fun _ => 0) twoTasks [emptyImage])
        [.access 0x1ffffffff8 (some 0x2a) .zero, .access 0x1ffffffff8 (some 0x2a) .zero,
          .syscall (callRegs SYSCALL_MMAP 0x2000000000)] = some s ∧
      ExplicitHeap (loadTasks lowPool.base (System.boot (fun _ => 0) twoTasks) [emptyImage]) s := by
  obtain ⟨s, hs⟩ : ∃ s, run (HeapState.step · lowPool.base)
      (HeapState.start lowPool.base (fun _ => 0) twoTasks [emptyImage])
      [.access 0x1ffffffff8 (some 0x2a) .zero, .access 0x1ffffffff8 (some 0x2a) .zero,
        .syscall (callRegs SYSCALL_MMAP 0x2000000000)] = some s :=
    Option.isSome_iff_exists.mp (by decide +kernel)
  refine ⟨s, hs, (explicitHeap_of_run lowPool (fun _ => 0) twoTasks [emptyImage] _ s
    (fun _ _ _ => rfl) ?_ ?_ hs).1⟩
  · refine ⟨fun _ => ⟨?_, trivial, trivial⟩, trivial⟩
    decide +kernel
  · decide +kernel

/-- A task reads the first byte of the heap, which it has not mapped: the byte gets a
page. -/
theorem not_explicitHeap_of_access :
    ∃ s, run (HeapState.step · lowPool.base)
        (HeapState.start lowPool.base (fun _ => 0) twoTasks [emptyImage])
        [.access 0x2000000000 none .zero] = some s ∧
      ¬ ExplicitHeap
        (loadTasks lowPool.base (System.boot (fun _ => 0) twoTasks) [emptyImage]) s := by
  have hfinal : ((run (HeapState.step · lowPool.base)
        (HeapState.start lowPool.base (fun _ => 0) twoTasks [emptyImage])
        [.access 0x2000000000 none .zero]).map fun s =>
      ((translate s.sys.phys.mem 0x180000 0x2000000000).isSome, s.mapped)) = some (true, []) := by
    decide +kernel
  obtain ⟨s, hs, hstate⟩ := Option.map_eq_some_iff.mp hfinal
  obtain ⟨hbacked, hmapped⟩ := Prod.mk.inj hstate
  obtain ⟨hpayload, hbss⟩ : payloadSize ((loadTasks lowPool.base
        (System.boot (fun _ => 0) twoTasks) [emptyImage]).sched.fifo 0) = 0 ∧
      bssSize ((loadTasks lowPool.base
        (System.boot (fun _ => 0) twoTasks) [emptyImage]).sched.fifo 0) = 0 := by decide
  refine ⟨s, hs, fun h => ?_⟩
  rcases h 0 (by decide) 0x2000000000 ⟨by omega, by omega⟩
    (Option.isSome_iff_ne_none.mp hbacked) with (⟨i, hi, -⟩ | ⟨i, hi, -⟩) | hmem
  · rw [hpayload] at hi
    exact BitVec.not_lt_zero hi
  · rw [hbss] at hi
    exact BitVec.not_lt_zero hi
  · rw [hmapped] at hmem
    exact absurd hmem List.not_mem_nil

end KernelMemVirt.Rackdoll
