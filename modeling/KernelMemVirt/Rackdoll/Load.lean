import KernelMemVirt.Rackdoll.MapPage

/-!
# Loading tasks

`load_task` of `kernel/memory.c` and the end of `parse_task` of `kernel/task.c`,
from the image that is found in a multiboot module on.

* `LoadFits` is the condition under which a load keeps the tables trees of pool
  pages: it does not run out of pages, and maps no address in the first 2 MiB;
  for the trees with the mapped pages, also the code and data of the task lie
  outside the pool and its bss has one page at most.
* `Backs` is the trees with a bound on the addresses that are backed.
* `loadTask_spec` is the load of one task, which backs its image, and
  `loadTasks_backs` that of all; `loadTasks_spec` is without the bound.
-/

namespace KernelMemVirt.Rackdoll

open ByteMem OwnerTree

/-! ## The source -/

/-- `payload_size`. -/
def payloadSize (task : Task) : Word := task.loadEndPaddr - task.loadPaddr

/-- `bss_start_vaddr`. -/
def bssStartVaddr (task : Task) : Word := task.loadVaddr + payloadSize task

/-- `bss_size`. -/
def bssSize (task : Task) : Word := task.bssEndVaddr - bssStartVaddr task

/-- The first part of `load_task`: the four tables with the pages of the
kernel. -/
def linkTables (pool : Nat) (s : Phys) (task : Task) : Phys × Task :=
  let (s, pml4) := s.alloc pool
  let (s, pml3) := s.alloc pool
  let (s, pml2) := s.alloc pool
  let (s, pml1) := s.alloc pool
  let mem := write64 s.mem pml4.toNat (pml3 ||| 0x7)
  let mem := write64 mem pml3.toNat (pml2 ||| 0x7)
  let mem := write64 mem pml2.toNat KERNEL_PAGE
  let mem := write64 mem (pml2.toNat + 8) (pml1 ||| 0x1b)
  let mem := write64 mem pml1.toNat (0xfee00000 ||| 0x11b)
  ({ s with mem }, { task with pgt := pml4 })

/-- The loop of `load_task` over the code and data, from offset `i` on. -/
def payloadLoop (pool : Nat) (task : Task) : Nat → Word → Phys → Phys
  | 0, _, s => s
  | turns + 1, i, s =>
    if i < payloadSize task then
      payloadLoop pool task turns (i + 0x1000)
        (s.mapPage pool task.pgt (task.loadVaddr + i) (task.loadPaddr + i))
    else s

/-- The loop of `load_task` over the bss, from offset `i` on. -/
def bssLoop (pool : Nat) (task : Task) : Nat → Word → Phys → Phys
  | 0, _, s => s
  | turns + 1, i, s =>
    if i < bssSize task then
      let (s, page) := s.alloc pool
      bssLoop pool task turns (i + 0x1000)
        (s.mapPage pool task.pgt (bssStartVaddr task + i) (page + i))
    else s

/-- The number of turns of a loop `for (i = 0; i < size; i += PAGE_SIZE)`, whose
counter does not wrap for a size of at most `2 ^ 64 - PAGE_SIZE`. -/
def turns (size : Word) : Nat := (size.toNat + 0xfff) / 0x1000

/-- `load_task`. -/
def loadTask (pool : Nat) (s : Phys) (task : Task) : Phys × Task :=
  let (s, task) := linkTables pool s task
  let s := payloadLoop pool task (turns (payloadSize task)) 0 s
  (bssLoop pool task (turns (bssSize task)) 0 s, task)

/-- The memory and the scheduler. -/
structure System where
  phys : Phys
  sched : Kernel

/-- The end of `parse_task`: `image` becomes a task. -/
def addTask (pool : Nat) (s : System) (image : Task) : System :=
  if s.sched.fifoSize = TASK_FIFO_LEN then s
  else
    let (phys, task) := loadTask pool s.phys image
    { phys
      sched :=
        { s.sched with
          fifo := Function.update s.sched.fifo s.sched.fifoSize task
          fifoSize := s.sched.fifoSize + 1 } }

/-- `load_tasks`, for the images that `parse_task` finds. -/
def loadTasks (pool : Nat) : System → List Task → System
  | s, [] => s
  | s, image :: images => loadTasks pool (addTask pool s image) images

/-! ## The condition -/

/-- The turns of the first loop map no address of the first 2 MiB and find enough
free pages, and the pages they map are not in the pool. -/
def PayloadFits (P : PoolRegion) (n : Nat) (task : Task) : Nat → Word → Phys → Prop
  | 0, _, _ => True
  | turns + 1, i, s =>
    i < payloadSize task →
      (¬ LowAddress (task.loadVaddr + i).toNat ∧
        target P n 3 ((task.loadPaddr + i) ||| 0x7) = none ∧
          missing s.mem (task.loadVaddr + i) 3 task.pgt ≤ Bitset.free s.bitset) ∧
        PayloadFits P n task turns (i + 0x1000)
          (s.mapPage P.base task.pgt (task.loadVaddr + i) (task.loadPaddr + i))

/-- The same for the second loop; when the mapped pages count, it has one turn at
most. -/
def BssFits (P : PoolRegion) (n : Nat) (task : Task) : Nat → Word → Phys → Prop
  | 0, _, _ => True
  | turns + 1, i, s =>
    i < bssSize task →
      (¬ LowAddress (bssStartVaddr task + i).toNat ∧ (3 < n → i = 0) ∧
        missing s.mem (bssStartVaddr task + i) 3 task.pgt + 1 ≤ Bitset.free s.bitset) ∧
        BssFits P n task turns (i + 0x1000)
          ((s.alloc P.base).1.mapPage P.base task.pgt (bssStartVaddr task + i)
            ((s.alloc P.base).2 + i))

/-- What a load needs. -/
def LoadFits (P : PoolRegion) (n : Nat) (s : Phys) (image : Task) : Prop :=
  4 ≤ Bitset.free s.bitset ∧
    let (s, task) := linkTables P.base s image
    PayloadFits P n task (turns (payloadSize task)) 0 s ∧
      BssFits P n task (turns (bssSize task)) 0
        (payloadLoop P.base task (turns (payloadSize task)) 0 s)

/-- What the loads of all images need. -/
def LoadsFit (P : PoolRegion) (n : Nat) : System → List Task → Prop
  | _, [] => True
  | s, image :: images =>
    (s.sched.fifoSize ≠ TASK_FIFO_LEN → LoadFits P n s.phys image) ∧
      LoadsFit P n (addTask P.base s image) images

variable {P : PoolRegion} {n : Nat} {s : Phys} {root : Nat → Option Nat} {role : Nat → PageRole}

/-! ## The tables of a new task -/

theorem ofNat_toNat (w : Word) : BitVec.ofNat 64 w.toNat = w := by
  rw [BitVec.ofNat_toNat, BitVec.setWidth_eq]

/-- No tree. -/
theorem Tables.empty (hwords : s.bitset.length = BITSET_SIZE) :
    Tables P n s (fun _ => none) (fun _ => .free) := by
  refine ⟨hwords, ⟨?_, ?_⟩, ?_, ?_, ?_, ?_, ?_, ?_, ?_⟩
  · intro t p ht
    cases ht
  · intro d p i q hd
    cases hd
  · exact fun q hq => absurd rfl hq
  · exact fun q hq => absurd rfl hq
  · intro p d hd
    cases hd
  · intro p hd
    cases hd
  · intro q d p i hq
    cases hq
  · intro q t hq
    cases hq
  · intro q d p i hq
    cases hq

/-- The trees, and pages that are allocated and zero but have no use yet. -/
structure Reserved (P : PoolRegion) (n : Nat) (s : Phys) (root : Nat → Option Nat)
    (role : Nat → PageRole) (pages : List Nat) : Prop where
  tables : Tables P n s root role
  zeroFree : ZeroFree P s
  page : ∀ q, q ∈ pages → P.IsPage q
  unused : ∀ q, q ∈ pages → role q = .free
  allocated : ∀ q, q ∈ pages → P.allocated s.bitset q = true
  zero : ∀ q, q ∈ pages → ∀ a, q ≤ a → a < q + 4096 → s.mem a = 0
  nodup : pages.Nodup

namespace Reserved

variable {pages : List Nat}

theorem alloc (h : Reserved P n s root role pages) (hfree : 0 < Bitset.free s.bitset) :
    ∃ s' q, s.alloc P.base = (s', BitVec.ofNat 64 q) ∧
      Reserved P n s' root role (pages ++ [q]) ∧ s'.mem = s.mem ∧
        Bitset.free s.bitset = Bitset.free s'.bitset + 1 := by
  obtain ⟨s', q, halloc, hfresh, htables⟩ := h.tables.alloc hfree
  have hmem : ∀ {x : Nat}, x ∈ pages ++ [q] ↔ x ∈ pages ∨ x = q := by
    intro x
    rw [List.mem_append, List.mem_singleton]
  have hnew : q ∉ pages := by
    intro hq
    exact absurd ((h.allocated q hq).symm.trans hfresh.unallocated) (by decide)
  refine ⟨s', q, halloc, ⟨htables, hfresh.zeroFree h.zeroFree, ?_, ?_, ?_, ?_, ?_⟩, hfresh.mem,
    hfresh.free⟩
  · intro x hx
    rcases hmem.mp hx with hx | rfl
    · exact h.page x hx
    · exact hfresh.page
  · intro x hx
    rcases hmem.mp hx with hx | rfl
    · exact h.unused x hx
    · exact hfresh.unused
  · intro x hx
    rcases hmem.mp hx with hx | rfl
    · exact hfresh.keeps (h.page x hx) (h.allocated x hx)
    · exact hfresh.allocated
  · rw [hfresh.mem]
    intro x hx
    rcases hmem.mp hx with hx | rfl
    · exact h.zero x hx
    · exact h.zeroFree x hfresh.page hfresh.unallocated
  · exact List.nodup_append.mpr ⟨h.nodup, List.nodup_singleton q, by
      intro x hx y hy
      rw [List.mem_singleton.mp hy]
      intro heq
      subst heq
      exact hnew hx⟩

/-- The first reserved page becomes the root of a tree. -/
theorem addRoot {q : Nat} (h : Reserved P n s root role (q :: pages)) {t : Nat}
    (ht : root t = none) :
    ∃ role', Reserved P n s (Function.update root t (some q)) role' pages ∧ role' q = .root t ∧
      (∀ x, x ≠ q → role' x = role x) ∧
        ∀ A, LeavesIn s.mem role A → LeavesIn s.mem role' A := by
  have hq : q ∈ q :: pages := List.mem_cons_self
  have hrest := fun {x : Nat} (hx : x ∈ pages) => List.mem_cons_of_mem q hx
  obtain ⟨hnew, hnodup⟩ := List.nodup_cons.mp h.nodup
  refine ⟨_, ⟨h.tables.addRoot ht (h.page q hq) (h.unused q hq) (h.allocated q hq) (h.zero q hq),
    h.zeroFree, fun x hx => h.page x (hrest hx), fun x hx => ?_,
    fun x hx => h.allocated x (hrest hx), fun x hx => h.zero x (hrest hx), hnodup⟩,
    Function.update_self _ _ _, fun x hx => Function.update_of_ne hx _ _,
    fun A hA => h.tables.leaves_addRoot (h.unused q hq) hA⟩
  rw [Function.update_of_ne (ne_of_mem_of_not_mem hx hnew)]
  exact h.unused x (hrest hx)

/-- A write to a page in use leaves the reserved pages alone. -/
theorem zero_write (h : Reserved P n s root role pages) {p i : Nat} {e : Word}
    (hp : role p ≠ .free) (hi : i < 512) {q : Nat} (hq : q ∈ pages) :
    ∀ a, q ≤ a → a < q + 4096 → write64 s.mem (p + 8 * i) e a = 0 := by
  intro a hlo hhi
  have hne : q ≠ p := by
    intro heq
    subst heq
    exact hp (h.unused q hq)
  exact (write64_apply_of_ne (h.tables.page p hp) (h.page q hq) hne hi hlo hhi).trans
    (h.zero q hq a hlo hhi)

/-- An empty entry of a table now refers to the first reserved page. -/
theorem attach {q : Nat} (h : Reserved P n s root role (q :: pages)) (hn : 3 ≤ n) (hn4 : n ≤ 4)
    {d p i : Nat} {e : Word} (hp : (role p).depth = some d) (hd : d < 3) (hi : i < 512)
    (hempty : entry s.mem p i = 0) (hlinks : Links e q) :
    ∃ role', Reserved P n { s with mem := write64 s.mem (p + 8 * i) e } root role' pages ∧
      role' q = .entry d p i ∧ (∀ x, x ≠ q → role' x = role x) ∧
        (∀ j, j < 512 → entry (write64 s.mem (p + 8 * i) e) q j = 0) ∧
          ∀ A, LeavesIn s.mem role A → LeavesIn (write64 s.mem (p + 8 * i) e) role' A := by
  have hq : q ∈ q :: pages := List.mem_cons_self
  have hrest := fun {x : Nat} (hx : x ∈ pages) => List.mem_cons_of_mem q hx
  obtain ⟨hnew, hnodup⟩ := List.nodup_cons.mp h.nodup
  have hused := ne_free_of_depth hp
  refine ⟨_, ⟨h.tables.attach hp (by omega) hn4 hi (fun _ => by rw [hempty]; rfl) (h.page q hq)
      (h.unused q hq) (h.allocated q hq) (fun _ => h.zero q hq) hlinks,
    h.zeroFree.write (h.tables.page p hused) (h.tables.allocated p hused) hi,
    fun x hx => h.page x (hrest hx), fun x hx => ?_, fun x hx => h.allocated x (hrest hx),
    fun x hx => h.zero_write hused hi (hrest hx), hnodup⟩,
    Function.update_self _ _ _, fun x hx => Function.update_of_ne hx _ _,
    fun j hj => entry_zero (h.zero_write hused hi hq) hj,
    fun A hA => h.tables.leaves_attach hp hi (h.page q hq) (h.unused q hq) (fun _ => h.zero q hq)
      (fun h3 => absurd h3 (by omega)) hA⟩
  rw [Function.update_of_ne (ne_of_mem_of_not_mem hx hnew)]
  exact h.unused x (hrest hx)

/-- An entry gets a value that refers to no page of the pool. -/
theorem setEntry (h : Reserved P n s root role pages) {d p i : Nat} {e : Word}
    (hp : (role p).depth = some d) (hi : i < 512) (htarget : target P n d e = none)
    (htable : d < 3 → KernelDirectory role p ∧ i = 0 ∧ e = KERNEL_PAGE ∧
      present (entry s.mem p i) = false)
    (hlast : d = 3 → present e = true) :
    Reserved P n { s with mem := write64 s.mem (p + 8 * i) e } root role pages := by
  have hused := ne_free_of_depth hp
  exact ⟨h.tables.setEntry hp hi htarget htable hlast,
    h.zeroFree.write (h.tables.page p hused) (h.tables.allocated p hused) hi,
    h.page, h.unused, h.allocated, fun x hx => h.zero_write hused hi hx, h.nodup⟩

end Reserved

/-- The four tables and the pages of the kernel. -/
theorem linkTables_spec (hn : 3 ≤ n) (hn4 : n ≤ 4) (htables : Tables P n s root role)
    (hzero : ZeroFree P s) {t : Nat} (ht : root t = none) (hfree : 4 ≤ Bitset.free s.bitset)
    (image : Task) :
    ∃ s' role' p, linkTables P.base s image = (s', { image with pgt := BitVec.ofNat 64 p }) ∧
      p < 2 ^ 64 ∧ Tables P n s' (Function.update root t (some p)) role' ∧ ZeroFree P s' ∧
        ∀ A : Nat → Nat → Prop, (∀ v, v % 2 ^ 48 < 0x40000000 → A t v) →
          LeavesIn s.mem role A → LeavesIn s'.mem role' A := by
  have hstart : Reserved P n s root role [] :=
    ⟨htables, hzero, fun _ h => absurd h List.not_mem_nil, fun _ h => absurd h List.not_mem_nil,
      fun _ h => absurd h List.not_mem_nil, fun _ h => absurd h List.not_mem_nil, List.nodup_nil⟩
  obtain ⟨s₁, p4, halloc₁, hres₁, hmem₁, hcount₁⟩ := hstart.alloc (by omega)
  obtain ⟨s₂, p3, halloc₂, hres₂, hmem₂, hcount₂⟩ := hres₁.alloc (by omega)
  obtain ⟨s₃, p2, halloc₃, hres₃, hmem₃, hcount₃⟩ := hres₂.alloc (by omega)
  obtain ⟨s₄, p1, halloc₄, hres₄, hmem₄, -⟩ := hres₃.alloc (by omega)
  have hres : Reserved P n s₄ root role [p4, p3, p2, p1] := hres₄
  have hpage4 := hres.page p4 (by simp)
  have hpage3 := hres.page p3 (by simp)
  have hpage2 := hres.page p2 (by simp)
  have hpage1 := hres.page p1 (by simp)
  have hlt4 := hpage4.lt
  have hlt3 := hpage3.lt
  have hlt2 := hpage2.lt
  have hlt1 := hpage1.lt
  obtain ⟨h4, h3, h2⟩ : (p4 ≠ p3 ∧ p4 ≠ p2 ∧ p4 ≠ p1) ∧ (p3 ≠ p2 ∧ p3 ≠ p1) ∧ p2 ≠ p1 := by
    simpa using hres.nodup
  have hempty4 := entry_zero (hres.zero p4 (by simp)) (show 0 < 512 by omega)
  have hlink3 : Links (BitVec.ofNat 64 p3 ||| 0x7) p3 :=
    links_or hpage3.aligned (by omega) (by decide) (by decide) (by decide)
  have hlink2 : Links (BitVec.ofNat 64 p2 ||| 0x7) p2 :=
    links_or hpage2.aligned (by omega) (by decide) (by decide) (by decide)
  have hlink1 : Links (BitVec.ofNat 64 p1 ||| 0x1b) p1 :=
    links_or hpage1.aligned (by omega) (by decide) (by decide) (by decide)
  obtain ⟨role₁, hroot, hrole4, -, hleaves₁⟩ := hres.addRoot ht
  obtain ⟨role₂, hthird, hrole3, hother₂, hempty3, hleaves₂⟩ := hroot.attach hn hn4
    (by rw [hrole4, Role.depth_root]) (by omega) (show 0 < 512 by omega) hempty4 hlink3
  obtain ⟨role₃, hsecond, hrole2, hother₃, hempty2, hleaves₃⟩ := hthird.attach hn hn4
    (by rw [hrole3, Role.depth_entry]) (by omega) (show 0 < 512 by omega)
    (hempty3 0 (by omega)) hlink2
  have hdepth2 : (role₃ p2).depth = some 2 := by rw [hrole2, Role.depth_entry]
  have hdirectory : KernelDirectory role₃ p2 := by
    refine ⟨t, p3, ⟨p4, ?_, ?_⟩, hrole2⟩
    · show role₃ p4 = .root t
      rw [hother₃ p4 h4.2.1, hother₂ p4 h4.1, hrole4]
    · rw [hother₃ p3 h3.1]
      exact hrole3
  have hkernel := hsecond.setEntry hdepth2 (show 0 < 512 by omega)
    (show target P n 2 KERNEL_PAGE = none from if_neg fun h => absurd h.2.2.1 (by decide))
    (fun _ => ⟨hdirectory, rfl, rfl, by rw [hempty2 0 (by omega)]; rfl⟩)
    (fun h => absurd h (by omega))
  obtain ⟨role₄, hfirst, hrole1, hother₄, -, hleaves₄⟩ := hkernel.attach hn hn4 hdepth2 (by omega)
    (show 1 < 512 by omega)
    (by
      dsimp only
      rw [entry_write64 hpage2.aligned hpage2.aligned (by omega) (by omega),
        if_neg (fun h => absurd h.2 (by omega)), hempty2 1 (by omega)])
    hlink1
  have hapic : target P n 3 (0xfee00000 ||| 0x11b) = none := by
    refine if_neg fun h => ?_
    have hlt := h.2.2.2.lt
    rw [show frame (0xfee00000 ||| 0x11b) = 0xfee00000 by decide] at hlt
    omega
  have hdone := hfirst.setEntry (by rw [hrole1, Role.depth_entry]) (show 0 < 512 by omega) hapic
    (fun h => absurd h (by omega)) (fun _ => rfl)
  have hat : At role₄ t 0x200000 3 p1 := by
    refine ⟨p2, ⟨p3, ⟨p4, ?_, ?_⟩, ?_⟩, hrole1⟩
    · show role₄ p4 = .root t
      rw [hother₄ p4 h4.2.2, hother₃ p4 h4.2.1, hother₂ p4 h4.1, hrole4]
    · rw [hother₄ p3 h3.2, hother₃ p3 h3.1]
      exact hrole3
    · rw [hother₄ p2 h2]
      exact hrole2
  refine ⟨_, role₄, p4, ?_, by omega, hdone.tables, hdone.zeroFree, ?_⟩
  · unfold linkTables
    rw [halloc₁]
    dsimp only
    rw [halloc₂]
    dsimp only
    rw [halloc₃]
    dsimp only
    rw [halloc₄]
    dsimp only
    rw [hpage4.toNat_ofNat, hpage3.toNat_ofNat, hpage2.toNat_ofNat, hpage1.toNat_ofNat]
    rfl
  · intro A hlow hA
    rw [← hmem₁, ← hmem₂, ← hmem₃, ← hmem₄] at hA
    refine hfirst.tables.leaves_write (by rw [hrole1, Role.depth_entry]) (by omega)
      (fun _ t' v hv hindex => ?_) (hleaves₄ A (hsecond.tables.leaves_write hdepth2 (by omega)
        (fun h => absurd h (by omega)) (hleaves₃ A (hleaves₂ A (hleaves₁ A hA)))))
    obtain ⟨rfl, hpage⟩ := hv.page_unique hat hindex
    apply hlow v
    unfold pageNumber at hpage
    omega

/-! ## The loops -/

/-- The tables are trees, and the free pages are zero. -/
def Trees (P : PoolRegion) (n : Nat) (s : Phys) (root : Nat → Option Nat) : Prop :=
  ∃ role, Tables P n s root role ∧ ZeroFree P s

/-- The same, with a bound on the addresses that are backed. -/
def Backs (P : PoolRegion) (n : Nat) (s : Phys) (root : Nat → Option Nat) (A : Nat → Nat → Prop) :
    Prop :=
  ∃ role, Tables P n s root role ∧ ZeroFree P s ∧ LeavesIn s.mem role A

theorem trees_iff_backs : Trees P n s root ↔ Backs P n s root (fun _ _ => True) :=
  exists_congr fun _ => and_congr_right fun _ =>
    (and_iff_left fun _ _ _ _ _ => trivial).symm

/-- The addresses of the pages that `load_task` maps: the code, the data and the
bss. -/
def ImagePage (task : Task) (v : Nat) : Prop :=
  (∃ i, i < payloadSize task ∧ pageNumber v = pageNumber (task.loadVaddr + i).toNat) ∨
    ∃ i, i < bssSize task ∧ pageNumber v = pageNumber (bssStartVaddr task + i).toNat

variable {A : Nat → Nat → Prop}

theorem payloadLoop_spec (hn : 3 ≤ n) (hn4 : n ≤ 4) {t p : Nat} (ht : root t = some p)
    {task : Task} (hpgt : task.pgt = BitVec.ofNat 64 p) (himage : ∀ v, ImagePage task v → A t v) :
    ∀ {turns : Nat} {i : Word} {s : Phys}, Backs P n s root A → PayloadFits P n task turns i s →
      Backs P n (payloadLoop P.base task turns i s) root A := by
  intro turns
  induction turns with
  | zero => exact fun h _ => h
  | succ turns ih =>
    intro i s hbacks hfits
    unfold payloadLoop
    split
    · next hi =>
      obtain ⟨⟨hlow, htarget, hmissing⟩, hrest⟩ := hfits hi
      rcases hbacks with ⟨role, htables, hzero, hleaves⟩
      rw [hpgt] at hmissing hrest ⊢
      obtain ⟨role', -, hmapped, hkept, -⟩ := mapPage_spec hn hn4 hlow htables hzero
        (htables.owned.root t p ht) hmissing (.inl htarget)
      refine ih ⟨role', hmapped.tables, hmapped.zero, hkept.leaves A ?_ hleaves⟩ hrest
      rintro _ v ⟨rfl, hv⟩
      exact himage v (.inl ⟨i, hi, hv⟩)
    · exact hbacks

theorem bssLoop_spec (hn : 3 ≤ n) (hn4 : n ≤ 4) {t p : Nat} (ht : root t = some p)
    {task : Task} (hpgt : task.pgt = BitVec.ofNat 64 p) (himage : ∀ v, ImagePage task v → A t v) :
    ∀ {turns : Nat} {i : Word} {s : Phys}, Backs P n s root A → BssFits P n task turns i s →
      Backs P n (bssLoop P.base task turns i s) root A := by
  intro turns
  induction turns with
  | zero => exact fun h _ => h
  | succ turns ih =>
    intro i s hbacks hfits
    unfold bssLoop
    split
    · next hi =>
      obtain ⟨⟨hlow, hfirst, hmissing⟩, hrest⟩ := hfits hi
      rcases hbacks with ⟨role, htables, hzero, hleaves⟩
      obtain ⟨s₁, q, halloc, hfresh, htables₁⟩ := htables.alloc (by omega)
      have hcount := hfresh.free
      rw [hpgt] at hmissing hrest ⊢
      rw [halloc] at hrest ⊢
      have hleaf : LeafFits P n s₁ role (BitVec.ofNat 64 q + i) := by
        by_cases h4 : 3 < n
        · have hsum : BitVec.ofNat 64 q + i = BitVec.ofNat 64 q := by
            rw [hfirst h4]
            exact BitVec.add_zero _
          rw [hsum]
          exact .inr ⟨q, rfl, hfresh.page, hfresh.unused, hfresh.allocated⟩
        · exact .inl (if_neg fun h => h4 h.1)
      obtain ⟨role', -, hmapped, hkept, -⟩ := mapPage_spec hn hn4 hlow htables₁
        (hfresh.zeroFree hzero) (htables.owned.root t p ht) (by rw [hfresh.mem]; omega) hleaf
      rw [← hfresh.mem] at hleaves
      refine ih ⟨role', hmapped.tables, hmapped.zero, hkept.leaves A ?_ hleaves⟩ hrest
      rintro _ v ⟨rfl, hv⟩
      exact himage v (.inr ⟨i, hi, hv⟩)
    · exact hbacks

/-! ## Loads -/

/-- `load_task` adds a tree, in which the kernel addresses and the image are backed. -/
theorem loadTask_spec (hn : 3 ≤ n) (hn4 : n ≤ 4) {t : Nat} (ht : root t = none)
    (hbacks : Backs P n s root A) {image : Task} (hfits : LoadFits P n s image)
    (hlow : ∀ v, v % 2 ^ 48 < 0x40000000 → A t v) (himage : ∀ v, ImagePage image v → A t v) :
    ∃ s' p, loadTask P.base s image = (s', { image with pgt := BitVec.ofNat 64 p }) ∧ p < 2 ^ 64 ∧
      Backs P n s' (Function.update root t (some p)) A := by
  rcases hbacks with ⟨role, htables, hzero, hleaves⟩
  rcases hfits with ⟨hfree, hloops⟩
  obtain ⟨s₁, role₁, p, hlink, hp, htables₁, hzero₁, hleaves₁⟩ :=
    linkTables_spec hn hn4 htables hzero ht hfree image
  rw [hlink] at hloops
  rcases hloops with ⟨hpayload, hbss⟩
  have hroot : Function.update root t (some p) t = some p := Function.update_self _ _ _
  have himage₁ : ∀ v, ImagePage { image with pgt := BitVec.ofNat 64 p } v → A t v := himage
  have hbacks₂ := payloadLoop_spec hn hn4 hroot rfl himage₁
    ⟨role₁, htables₁, hzero₁, hleaves₁ A hlow hleaves⟩ hpayload
  have hbacks₃ := bssLoop_spec hn hn4 hroot rfl himage₁ hbacks₂ hbss
  unfold loadTask
  rw [hlink]
  exact ⟨_, p, rfl, hp, hbacks₃⟩

/-- The page tables of the tasks in the FIFO. -/
def System.roots (s : System) (t : Nat) : Option Nat :=
  if t < s.sched.fifoSize then some (s.sched.fifo t).pgt.toNat else none

/-- The slots of the FIFO after `parse_task`. -/
theorem addTask_fifo (pool : Nat) (s : System) (image : Task) :
    (∀ t, t < s.sched.fifoSize → (addTask pool s image).sched.fifo t = s.sched.fifo t) ∧
      s.sched.fifoSize ≤ (addTask pool s image).sched.fifoSize ∧
        (s.sched.fifoSize ≠ TASK_FIFO_LEN →
          s.sched.fifoSize < (addTask pool s image).sched.fifoSize ∧
            ∃ pgt, (addTask pool s image).sched.fifo s.sched.fifoSize = { image with pgt }) := by
  unfold addTask
  split
  · next hsize => exact ⟨fun _ _ => rfl, Nat.le_refl _, fun hne => absurd hsize hne⟩
  · refine ⟨fun t ht => Function.update_of_ne (by omega) _ _, Nat.le_succ _,
      fun _ => ⟨Nat.lt_succ_self _, _, Function.update_self _ _ _⟩⟩

/-- The loads that follow keep the slots. -/
theorem loadTasks_fifo (pool : Nat) : ∀ (images : List Task) (s : System) (t : Nat),
    t < s.sched.fifoSize → (loadTasks pool s images).sched.fifo t = s.sched.fifo t := by
  intro images
  induction images with
  | nil => exact fun _ _ _ => rfl
  | cons image images ih =>
    intro s t ht
    obtain ⟨hkeep, hle, -⟩ := addTask_fifo pool s image
    exact (ih _ t (by omega)).trans (hkeep t ht)

theorem addTask_spec (hn : 3 ≤ n) (hn4 : n ≤ 4) {s : System} {image : Task}
    (hbacks : Backs P n s.phys s.roots A)
    (hfits : s.sched.fifoSize ≠ TASK_FIFO_LEN → LoadFits P n s.phys image)
    (hlow : ∀ t v, v % 2 ^ 48 < 0x40000000 → A t v)
    (himage : s.sched.fifoSize ≠ TASK_FIFO_LEN → ∀ v, ImagePage image v → A s.sched.fifoSize v) :
    Backs P n (addTask P.base s image).phys (addTask P.base s image).roots A := by
  unfold addTask
  split
  · exact hbacks
  · next hsize =>
    have hnone : s.roots s.sched.fifoSize = none := if_neg (Nat.lt_irrefl _)
    obtain ⟨s', p, hload, hp, hloaded⟩ :=
      loadTask_spec hn hn4 hnone hbacks (hfits hsize) (hlow _) (himage hsize)
    rw [hload]
    have hroots : (System.roots
        { phys := s'
          sched :=
            { s.sched with
              fifo := Function.update s.sched.fifo s.sched.fifoSize
                { image with pgt := BitVec.ofNat 64 p }
              fifoSize := s.sched.fifoSize + 1 } })
        = Function.update s.roots s.sched.fifoSize (some p) := by
      funext t
      unfold System.roots
      by_cases ht : t = s.sched.fifoSize
      · subst ht
        rw [Function.update_self, if_pos (Nat.lt_succ_self _)]
        dsimp only
        rw [Function.update_self, BitVec.toNat_ofNat, Nat.mod_eq_of_lt hp]
      · dsimp only
        rw [Function.update_of_ne ht, Function.update_of_ne ht]
        exact if_congr (by omega) rfl rfl
    exact hroots ▸ hloaded

/-- `load_tasks` builds trees of pool pages, in which the kernel addresses and the
images are backed. -/
theorem loadTasks_backs (hn : 3 ≤ n) (hn4 : n ≤ 4)
    (hlow : ∀ t v, v % 2 ^ 48 < 0x40000000 → A t v) :
    ∀ {images : List Task} {s : System}, Backs P n s.phys s.roots A → LoadsFit P n s images →
      (∀ t v, s.sched.fifoSize ≤ t → ImagePage ((loadTasks P.base s images).sched.fifo t) v →
        A t v) →
      Backs P n (loadTasks P.base s images).phys (loadTasks P.base s images).roots A := by
  intro images
  induction images with
  | nil => exact fun h _ _ => h
  | cons image images ih =>
    intro s hbacks hfits himages
    obtain ⟨-, hle, hslot⟩ := addTask_fifo P.base s image
    refine ih (addTask_spec hn hn4 hbacks hfits.1 hlow fun hsize v hv => ?_) hfits.2
      fun t v ht => himages t v (by omega)
    obtain ⟨hlt, pgt, hfifo⟩ := hslot hsize
    apply himages _ v (Nat.le_refl _)
    have hfinal : (loadTasks P.base s (image :: images)).sched.fifo s.sched.fifoSize
        = { image with pgt } := (loadTasks_fifo P.base images _ _ hlt).trans hfifo
    rw [hfinal]
    exact hv

/-- `load_tasks` builds trees of pool pages. -/
theorem loadTasks_spec (hn : 3 ≤ n) (hn4 : n ≤ 4) {images : List Task} {s : System}
    (htrees : Trees P n s.phys s.roots) (hfits : LoadsFit P n s images) :
    Trees P n (loadTasks P.base s images).phys (loadTasks P.base s images).roots :=
  trees_iff_backs.mpr (loadTasks_backs hn hn4 (fun _ _ _ => trivial) (trees_iff_backs.mp htrees)
    hfits fun _ _ _ _ => trivial)

/-- The kernel before `load_tasks`: no task, no page allocated. -/
def System.boot (mem : Mem) (sched : Kernel) : System where
  phys := ⟨mem, List.replicate BITSET_SIZE 0⟩
  sched := { sched with fifoSize := 0, fifoRun := 0 }

/-- At the start there is no tree. -/
theorem backs_boot {mem : Mem} {sched : Kernel}
    (hpool : ∀ a, P.base ≤ a → a < P.base + PHYSICAL_POOL_PAGES * PAGE_SIZE → mem a = 0) :
    Backs P n (System.boot mem sched).phys (System.boot mem sched).roots A := by
  refine ⟨fun _ => .free, Tables.empty (by simp [System.boot]), ?_, ?_⟩
  · intro q hq _ a hlo hhi
    rcases hq with ⟨h1, h2, h3⟩
    have haligned := P.aligned
    apply hpool a (by omega)
    unfold PHYSICAL_POOL_PAGES PAGE_SIZE at h2 ⊢
    omega
  · intro t v p hat
    exact absurd rfl hat.ne_free

theorem trees_boot {mem : Mem} {sched : Kernel}
    (hpool : ∀ a, P.base ≤ a → a < P.base + PHYSICAL_POOL_PAGES * PAGE_SIZE → mem a = 0) :
    Trees P n (System.boot mem sched).phys (System.boot mem sched).roots :=
  trees_iff_backs.mpr (backs_boot hpool)

end KernelMemVirt.Rackdoll
