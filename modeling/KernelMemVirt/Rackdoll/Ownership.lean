import KernelMemVirt.Rackdoll.Syscall

/-!
# Frame ownership over runs of tasks

Every page of the pool is free, or a page table of one task, or the target of one
leaf entry of one task.  A task is named by its slot after `load_tasks`; the page
table of a task that has exited stays, since the kernel reclaims nothing.

* `Exclusive` is the property, on the memory and the bit set.
* `Tables.exclusive` derives it from the invariant of the trees, and
  `taskTrees_step` is the invariant over one trap.
* `exclusive_of_run` is the run: a call of `mmap` must find the pages it needs, and
  a call of `munmap` must not release one, since its leaf entry stays.
-/

namespace KernelMemVirt.Rackdoll

open ByteMem OwnerTree Transition

/-! ## The property -/

/-- The user addresses of the memory model in `kernel/memory.c`. -/
def UserAddress (v : Nat) : Prop := 0x40000000 ≤ v ∧ v ≤ 0x00007fffffffffff

instance (v : Nat) : Decidable (UserAddress v) := inferInstanceAs (Decidable (_ ∧ _))

/-- No page of the pool has two uses.  A path has the indices of one address, one
for each level: a page at the end of a path of four is mapped, and one at the end
of a shorter path is a page table. -/
structure Exclusive (P : PoolRegion) (s : Phys) (root : Nat → Option Nat) : Prop where
  once : ∀ t t' r r' path path' q, root t = some r → root t' = some r' →
    walk (link P 4 s.mem) r path = some q → walk (link P 4 s.mem) r' path' = some q →
      t = t' ∧ path = path'
  allocated : ∀ t r path q, root t = some r → walk (link P 4 s.mem) r path = some q →
    P.IsPage q ∧ P.allocated s.bitset q = true
  unreachable : ∀ t r path q, root t = some r → walk (link P 4 s.mem) r path = some q →
    (s.alloc P.base).2 ≠ BitVec.ofNat 64 q
  translation : ∀ t t' r r' v v' x x', root t = some r → root t' = some r' →
    UserAddress v → UserAddress v' →
    translate s.mem (BitVec.ofNat 64 r) v = some x →
    translate s.mem (BitVec.ofNat 64 r') v' = some x' →
    P.IsPage (x.paddr / 4096 * 4096) → x.paddr / 4096 = x'.paddr / 4096 →
      t = t' ∧ v / 4096 = v' / 4096

variable {P : PoolRegion} {n : Nat} {s : Phys} {root : Nat → Option Nat} {role : Nat → PageRole}

theorem not_lowAddress {v : Nat} (h : UserAddress v) : ¬ LowAddress v := by
  unfold UserAddress at h
  unfold LowAddress
  omega

/-- The processor finds the pages of the pool where the roles say. -/
theorem Tables.at_of_translate (h : Tables P 4 s root role) {t r v : Nat} {x : Translation}
    (hroot : root t = some r) (huser : ¬ LowAddress v ∨ x.user = true)
    (hx : translate s.mem (BitVec.ofNat 64 r) v = some x)
    (hpage : P.IsPage (x.paddr / 4096 * 4096)) : At role t v 4 (x.paddr / 4096 * 4096) := by
  have hrole : role r = .root t := h.owned.root t r hroot
  have hr := h.page r (by rw [hrole]; simp)
  unfold translate at hx
  rw [hr.frame_ofNat] at hx
  obtain ⟨p, hat, hpresent, hpaddr⟩ :=
    h.leaf_of_walkFrom (by omega) (Nat.zero_add 4) (show At role t v 0 r from hrole) hx huser
  have hframe : x.paddr / 4096 * 4096 = frame (entry s.mem p (pathIndex v 3)) := by
    rw [hpaddr]
    unfold frame
    omega
  rw [hframe] at hpage ⊢
  have hlink : link P 4 s.mem 3 p (pathIndex v 3) = some (frame (entry s.mem p (pathIndex v 3))) :=
    (link_eq (pathIndex_lt v 3)).trans (if_pos ⟨by omega, hpresent, .inr (.inl rfl), hpage⟩)
  exact ⟨p, hat, h.owned.entry 3 p _ _ hat.depth hlink⟩

/-- The indices of a user address are its page number. -/
theorem page_eq_of_pathIndex {v v' : Nat} (hv : UserAddress v) (hv' : UserAddress v')
    (h : ∀ k, k < 4 → pathIndex v k = pathIndex v' k) : v / 4096 = v' / 4096 := by
  have hpage := pageNumber_eq_iff.mpr h
  unfold pageNumber at hpage
  unfold UserAddress at hv hv'
  omega

/-- The invariant gives the property. -/
theorem Tables.exclusive (h : Tables P 4 s root role) : Exclusive P s root := by
  have hrole : ∀ {t r path q}, root t = some r → walk (link P 4 s.mem) r path = some q →
      role q ≠ .free := by
    intro t r path q hr hq hfree
    have hdepth := (h.owned.walk_role hr hq).1
    rw [hfree] at hdepth
    cases hdepth
  refine ⟨?_, ?_, ?_, ?_⟩
  · intro t t' r r' path path' q hr hr' hq hq'
    exact h.owned.walk_injective hr hr' hq hq'
  · intro t r path q hr hq
    exact ⟨h.page q (hrole hr hq), h.allocated q (hrole hr hq)⟩
  · intro t r path q hr hq heq
    have hpage := h.page q (hrole hr hq)
    have hnat := congrArg BitVec.toNat heq
    rw [hpage.toNat_ofNat] at hnat
    rcases Nat.eq_zero_or_pos (Bitset.free s.bitset) with hfull | hsome
    · rw [alloc_of_full hfull] at hnat
      have hlt := hpage.lt
      have hzero : (0 : Word).toNat = 0 := rfl
      dsimp only at hnat
      omega
    · obtain ⟨s', q', halloc, hfresh, -⟩ := h.alloc hsome
      rw [halloc] at hnat
      dsimp only at hnat
      rw [hfresh.page.toNat_ofNat] at hnat
      subst hnat
      exact absurd (hfresh.unallocated.symm.trans (h.allocated q' (hrole hr hq))) (by decide)
  · intro t t' r r' v v' x x' hr hr' hv hv' hx hx' hpage heq
    have hat := h.at_of_translate hr (.inl (not_lowAddress hv)) hx hpage
    have hat' := h.at_of_translate hr' (.inl (not_lowAddress hv')) hx' (heq ▸ hpage)
    obtain ⟨-, ht, hindex⟩ := hat.unique (heq ▸ hat')
    exact ⟨ht, page_eq_of_pathIndex hv hv' hindex⟩

/-! ## One call -/

/-- Page 0 is not in the pool. -/
theorem target_zero_page : target P n 3 (0 ||| 0x7) = none :=
  if_neg fun h => absurd h.2.2.2.lt.1 (by decide)

/-- `memset` on a page of zeros. -/
theorem fill_of_zero {mem : Mem} {q : Nat} (h : ∀ a, q ≤ a → a < q + 4096 → mem a = 0) :
    fill mem q 0 PAGE_SIZE = mem := by
  funext a
  by_cases hin : q ≤ a ∧ a < q + PAGE_SIZE
  · exact (if_pos hin).trans (h a hin.1 hin.2).symm
  · exact if_neg hin

/-- The address `v` is mapped to the page `q`, which was free before and is all
zero. -/
structure NewPage (P : PoolRegion) (s s' : Phys) (pgt v : Word) (q : Nat) : Prop where
  page : P.IsPage q
  free : P.allocated s.bitset q = false
  allocated : P.allocated s'.bitset q = true
  zero : ∀ a, q ≤ a → a < q + 4096 → s'.mem a = 0
  mapped : ∃ x, translate s'.mem pgt v.toNat = some x ∧ x.paddr = q + v.toNat % 4096

/-- `mmap` when no table is missing, or when there are pages for the tables and for
the address.  It backs the page of the address only, by a new page when one is
free. -/
theorem mmap_maps (hn : 3 ≤ n) (hn4 : n ≤ 4) {t p : Nat} {v : Word} (hlow : ¬ LowAddress v.toNat)
    (ht : root t = some p) {A : Nat → Nat → Prop} (hbacks : Backs P n s root A)
    (hnew : ∀ v', pageNumber v' = pageNumber v.toNat → A t v')
    (hfits : missing s.mem v 3 (BitVec.ofNat 64 p) = 0 ∨
      missing s.mem v 3 (BitVec.ofNat 64 p) + 1 ≤ Bitset.free s.bitset) :
    Backs P n (s.mmap P.base (BitVec.ofNat 64 p) v) root A ∧
      (0 < Bitset.free s.bitset →
        ∃ q, NewPage P s (s.mmap P.base (BitVec.ofNat 64 p) v) (BitVec.ofNat 64 p) v q) := by
  rcases hbacks with ⟨role, htables, hzero, hleaves⟩
  have hrole := htables.owned.root t p ht
  have hpage : ∀ t' v', t' = t ∧ pageNumber v' = pageNumber v.toNat → A t' v' := by
    rintro _ v' ⟨rfl, hv'⟩
    exact hnew v' hv'
  unfold Phys.mmap
  by_cases hfull : Bitset.free s.bitset = 0
  · have hmissing : missing s.mem v 3 (BitVec.ofNat 64 p) = 0 := by omega
    have hsame : ∀ q, role q ≠ .free → ∀ a, q ≤ a → a < q + 4096 →
        fill s.mem 0 0 PAGE_SIZE a = s.mem a := by
      intro q hq a hlo _
      have hlt := (htables.page q hq).lt
      exact fill_apply_of_outside (.inr (by unfold PAGE_SIZE; omega))
    have hcount : missing (fill s.mem 0 0 PAGE_SIZE) v 3 (BitVec.ofNat 64 p) = 0 :=
      (htables.missing_congr hn hlow hsame (Nat.zero_add 3)
        (show At role t v.toNat 0 p from hrole)).trans hmissing
    have hleaves₀ : LeavesIn (fill s.mem 0 0 PAGE_SIZE) role A :=
      hleaves.congr fun q hq i hi => entry_congr (hsame q (ne_free_of_depth hq)) hi
    rw [alloc_of_full hfull]
    obtain ⟨role', -, hmapped, hkept, -⟩ := mapPage_spec hn hn4 hlow htables.fillLow hzero.fillLow
      hrole (by dsimp only; rw [hcount]; exact Nat.zero_le _) (.inl target_zero_page)
    exact ⟨⟨role', hmapped.tables, hmapped.zero, hkept.leaves A hpage hleaves₀⟩,
      fun hfree => absurd hfull (by omega)⟩
  · obtain ⟨s₁, q, halloc, hfresh, htables₁⟩ := htables.alloc (Nat.pos_of_ne_zero hfull)
    have hcount := hfresh.free
    have hclear := hzero q hfresh.page hfresh.unallocated
    have hfill : fill s₁.mem q 0 PAGE_SIZE = s₁.mem := by
      rw [hfresh.mem]
      exact fill_of_zero hclear
    rw [halloc]
    dsimp only
    rw [hfresh.page.toNat_ofNat, hfill]
    obtain ⟨role', x, hmapped, hkept, hat, hentry⟩ := mapPage_spec hn hn4 hlow htables₁
      (hfresh.zeroFree hzero) hrole (by rw [hfresh.mem]; omega)
      (.inr ⟨q, rfl, hfresh.page, hfresh.unused, hfresh.allocated⟩)
    rw [← hfresh.mem] at hleaves
    refine ⟨⟨role', hmapped.tables, hmapped.zero, hkept.leaves A hpage hleaves⟩,
      fun _ => ⟨q, hfresh.page, hfresh.unallocated, ?_, fun a hlo hhi => ?_, ?_⟩⟩
    · exact hmapped.bits q hfresh.page hfresh.allocated
    · have hsame := hkept.reserved q hfresh.page hfresh.allocated hfresh.unused a hlo hhi
      exact hsame.trans (hfresh.mem ▸ hclear a hlo hhi)
    · have hqlt := hfresh.page.lt
      have hlinks : Links (BitVec.ofNat 64 q ||| 0x7) q :=
        links_or hfresh.page.aligned (by omega) (by decide) (by decide) (by decide)
      have hroot := hmapped.tables.owned.root t p ht
      obtain ⟨y, hy, hpaddr⟩ := hmapped.tables.walkFrom_of_leaf hroot hat
        (by rw [hentry]; exact hlinks.present)
      rw [hentry, hlinks.frame] at hpaddr
      refine ⟨y, ?_, hpaddr⟩
      unfold translate
      rw [(htables.page p (by rw [hrole]; simp)).frame_ofNat]
      exact hy

/-- `mmap` keeps the trees. -/
theorem mmap_spec (hn : 3 ≤ n) (hn4 : n ≤ 4) {t p : Nat} {v : Word} (hlow : ¬ LowAddress v.toNat)
    (ht : root t = some p) (htrees : Trees P n s root)
    (hfits : missing s.mem v 3 (BitVec.ofNat 64 p) = 0 ∨
      missing s.mem v 3 (BitVec.ofNat 64 p) + 1 ≤ Bitset.free s.bitset) :
    Trees P n (s.mmap P.base (BitVec.ofNat 64 p) v) root :=
  trees_iff_backs.mpr
    (mmap_maps hn hn4 hlow ht (trees_iff_backs.mp htrees) (fun _ _ => trivial) hfits).1

/-! ## The page tables of the tasks -/

/-- Every live task uses one of the roots, and the current task is live. -/
structure TaskRoots (root : Nat → Option Nat) (k : Kernel) : Prop where
  slots : ∀ i, i < k.fifoSize → ∃ t, root t = some (k.fifo i).pgt.toNat
  current : k.fifoSize ≠ 0 → k.fifoRun < k.fifoSize

theorem taskRoots_runTasks {k : Kernel}
    (hslots : ∀ i, i < k.fifoSize → ∃ t, root t = some (k.fifo i).pgt.toNat) :
    TaskRoots root k.runTasks := by
  unfold Kernel.runTasks
  split
  · next hempty => exact ⟨hslots, fun hne => absurd hempty hne⟩
  · exact ⟨hslots, fun hne => advance_run_lt hne⟩

theorem TaskRoots.nextTask {k : Kernel} (h : TaskRoots root k) : TaskRoots root k.nextTask := by
  refine ⟨fun i hi => ?_, fun hne => advance_run_lt hne⟩
  obtain ⟨t, ht⟩ := h.slots i hi
  refine ⟨t, ht.trans ?_⟩
  have hpgt : (Function.update k.fifo k.fifoRun ((k.fifo k.fifoRun).setContext k.ctx) i).pgt
      = (k.fifo i).pgt := by
    by_cases hrun : i = k.fifoRun
    · rw [hrun, Function.update_self]
      rfl
    · rw [Function.update_of_ne hrun]
  exact congrArg (fun w => some w.toNat) hpgt.symm

theorem TaskRoots.exitTask {k : Kernel} (h : TaskRoots root k) (hne : k.fifoSize ≠ 0) :
    TaskRoots root k.exitTask := by
  have hremoved : TaskRoots root k.removeCurrent := by
    refine ⟨fun i hi => ?_, fun hne' => removeCurrent_run_lt (h.current hne) hne'⟩
    rw [removeCurrent_size] at hi
    rw [removeCurrent_fifo]
    by_cases hrun : i = k.fifoRun
    · rw [hrun, Function.update_self]
      exact h.slots _ (by omega)
    · rw [Function.update_of_ne hrun]
      exact h.slots i (by omega)
  unfold Kernel.exitTask
  dsimp only
  split
  · exact ⟨hremoved.slots, hremoved.current⟩
  · exact ⟨hremoved.slots, hremoved.current⟩

theorem TaskRoots.setCtx {k : Kernel} (h : TaskRoots root k) (regs : InterruptContext) :
    TaskRoots root { k with ctx := regs } := ⟨h.slots, h.current⟩

/-! ## The run -/

/-- The trees, with the page tables of the live tasks among them. -/
structure TaskTrees (P : PoolRegion) (root : Nat → Option Nat) (s : System) : Prop where
  trees : Trees P 4 s.phys root
  tasks : TaskRoots root s.sched

/-- A call of `mmap` or `munmap` is for a user address.  The call of `mmap` finds all
tables of the address, or as many free pages as it takes; the call of `munmap` ends
in the error of `free_page`. -/
def System.TrapFits (P : PoolRegion) (s : System) (t : Trap) : Prop :=
  match t.memCall with
  | some (.mmap v) => UserAddress v.toNat ∧
      (missing s.phys.mem v 3 s.pgt = 0 ∨
        missing s.phys.mem v 3 s.pgt + 1 ≤ Bitset.free s.phys.bitset)
  | some (.munmap v) => UserAddress v.toNat ∧
      (UserGuard v → freePage P.base s.phys.bitset
        (read64 s.phys.mem (slot (follow s.phys.mem v 3 s.pgt) v 1)) = .error .die)
  | none => True

theorem taskTrees_step {s s' : System} {t : Trap} (h : TaskTrees P root s)
    (hfits : s.TrapFits P t) (hstep : s.trap P.base t = some s') : TaskTrees P root s' := by
  obtain ⟨hne, hcases⟩ := System.trap_cases hstep
  have hctx := h.tasks.setCtx t.regs
  rcases hcases with ⟨c, phys, hc, hphys, rfl⟩ | ⟨-, rfl | rfl | rfl⟩
  · refine ⟨?_, hctx⟩
    unfold System.TrapFits at hfits
    rw [hc] at hfits
    cases c with
    | mmap v =>
      rcases hfits with ⟨huser, hpages⟩
      obtain ⟨k, hk⟩ := h.tasks.slots _ (h.tasks.current hne)
      have hspec := mmap_spec (by omega) (by omega) (not_lowAddress huser) hk h.trees
      rw [ofNat_toNat] at hspec
      exact Except.ok.inj hphys ▸ hspec hpages
    | munmap v =>
      have hmunmap : s.phys.munmap P.base s.pgt v = .ok phys := hphys
      unfold Phys.munmap at hmunmap
      split at hmunmap
      · next hguard =>
        dsimp only at hmunmap
        rw [hfits.2 hguard] at hmunmap
        cases hmunmap
      · exact Except.ok.inj hmunmap ▸ h.trees
  · exact ⟨h.trees, hctx.nextTask⟩
  · exact ⟨h.trees, hctx.exitTask hne⟩
  · exact ⟨h.trees, hctx⟩

/-- After `load_tasks` and `run_tasks`. -/
theorem taskTrees_start {mem : Mem} {sched : Kernel} {images : List Task}
    (hpool : ∀ a, P.base ≤ a → a < P.base + PHYSICAL_POOL_PAGES * PAGE_SIZE → mem a = 0)
    (hload : LoadsFit P 4 (System.boot mem sched) images) :
    TaskTrees P (loadTasks P.base (System.boot mem sched) images).roots
      (System.start P.base mem sched images) := by
  have htrees := loadTasks_spec (by omega) (by omega) (trees_boot hpool) hload
  exact ⟨htrees, taskRoots_runTasks fun i hi => ⟨i, if_pos hi⟩⟩

/-- In every run from `load_tasks` on, as long as the calls of `mmap` find their
pages and no call of `munmap` releases one, no page has two uses, and the page
tables of the live tasks are among those that were loaded. -/
theorem exclusive_of_run (P : PoolRegion) (mem : Mem) (sched : Kernel) (images : List Task)
    (es : List Trap) (t : System)
    (hpool : ∀ a, P.base ≤ a → a < P.base + PHYSICAL_POOL_PAGES * PAGE_SIZE → mem a = 0)
    (hload : LoadsFit P 4 (System.boot mem sched) images)
    (hok : RunOk (System.trap P.base) (System.TrapFits P) (System.start P.base mem sched images) es)
    (hrun : run (System.trap P.base) (System.start P.base mem sched images) es = some t) :
    let roots := (loadTasks P.base (System.boot mem sched) images).roots
    Exclusive P t.phys roots ∧ TaskRoots roots t.sched := by
  have hfinal := run_invariant_of_ok (fun s e s' hs he hstep => taskTrees_step hs he hstep) es _ t
    (taskTrees_start hpool hload) hok hrun
  rcases hfinal.trees with ⟨role, htables, -⟩
  exact ⟨htables.exclusive, hfinal.tasks⟩

/-- A pool, and a task without code and bss. -/
def lowPool : PoolRegion := ⟨0x180000, by decide, by decide, by decide⟩

def emptyImage : Task where
  pgt := 0
  loadPaddr := 0x1e0000
  loadEndPaddr := 0x1e0000
  loadVaddr := 0x2000001000
  bssEndVaddr := 0x2000001000
  context := .zero

/-- The registers of a system call. -/
def callRegs (num arg0 : Word) : InterruptContext :=
  { InterruptContext.zero with rdi := num, rsi := arg0 }

/-- A task maps a page. -/
theorem exclusive_mmap :
    ∃ t, run (System.trap lowPool.base)
        (System.start lowPool.base (fun _ => 0) twoTasks [emptyImage])
        [.syscall (callRegs SYSCALL_MMAP 0x2000000000)] = some t ∧
      Exclusive lowPool t.phys
        (loadTasks lowPool.base (System.boot (fun _ => 0) twoTasks) [emptyImage]).roots := by
  refine ⟨_, rfl, (exclusive_of_run lowPool (fun _ => 0) twoTasks [emptyImage]
    [.syscall (callRegs SYSCALL_MMAP 0x2000000000)] _ (fun _ _ _ => rfl) ?_ ?_ rfl).1⟩
  · refine ⟨fun _ => ⟨?_, trivial, trivial⟩, trivial⟩
    decide +kernel
  · refine (runOk_cons_of_some rfl).mpr ⟨⟨by decide, .inr ?_⟩, trivial⟩
    decide +kernel

/-- A task maps a page and releases it: the page is free, and still mapped. -/
theorem exclusive_not_of_munmap :
    ∃ t, run (System.trap lowPool.base)
        (System.start lowPool.base (fun _ => 0) twoTasks [emptyImage])
        [.syscall (callRegs SYSCALL_MMAP 0x2000000000),
          .syscall (callRegs SYSCALL_MUNMAP 0x2000000000)] = some t ∧
      ¬ Exclusive lowPool t.phys
        (loadTasks lowPool.base (System.boot (fun _ => 0) twoTasks) [emptyImage]).roots := by
  have hfinal : ((run (System.trap lowPool.base)
        (System.start lowPool.base (fun _ => 0) twoTasks [emptyImage])
        [.syscall (callRegs SYSCALL_MMAP 0x2000000000),
          .syscall (callRegs SYSCALL_MUNMAP 0x2000000000)]).map fun t =>
      (walk (link lowPool 4 t.phys.mem) 0x180000 [0, 0, 128, 0],
        lowPool.allocated t.phys.bitset 0x184000)) = some (some 0x184000, false) := by
    decide +kernel
  obtain ⟨t, ht, hwalk⟩ := Option.map_eq_some_iff.mp hfinal
  obtain ⟨hreach, hfree⟩ := Prod.mk.inj hwalk
  refine ⟨t, ht, fun h => ?_⟩
  have hbit := (h.allocated 0 0x180000 [0, 0, 128, 0] 0x184000 (by decide) hreach).2
  exact absurd (hfree.symm.trans hbit) (by decide)

end KernelMemVirt.Rackdoll
