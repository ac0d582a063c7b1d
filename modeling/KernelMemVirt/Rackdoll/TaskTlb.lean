import KernelMemVirt.Lib.TranslationCache
import KernelMemVirt.Rackdoll.TaskOs

/-!
# The tasks and the cache of translations

The processor caches translations of the running task.  The kernel drops them when it loads
CR3, and `map_page` leaves them alone.

* `TlbSystem.event` is the machine of `TaskOs` with the cache.  It may take in a translation
  and drop one at any time.
* `UserSpaces.walk` is the translation of a page by the view of the tasks, and
  `coherent_event` is what one event does to the cache.
* `tlbCoherent_iff` is the exact condition for a run: a call of `mmap` is for a page that is
  not cached.  A page fault never maps a page that is cached.
* `run_of_tlbRun`: with the condition, the machine runs as if there were no cache.
-/

namespace KernelMemVirt.Rackdoll

open ByteMem AddressSpace Transition TranslationCache

/-! ## The machine -/

/-- A cached translation of a page that the user may access. -/
structure TlbEntry where
  frame : Nat
  writable : Bool
  deriving DecidableEq

/-- The translation of a page, by the tables at CR3. -/
def pageWalk (mem : Mem) (cr3 : Word) (page : Nat) : Option TlbEntry :=
  if page < 2 ^ 36 then
    ((translate mem cr3 (page * 4096)).filter Translation.user).map fun x =>
      ⟨x.paddr, x.writable⟩
  else none

/-- The system, and the pages whose translation is cached. -/
structure TlbSystem where
  sys : System
  tlb : Cache Nat TlbEntry

/-- What the running task does, or the cache by itself. -/
inductive TlbEvent
  | task (e : TaskEvent)
  | fill (page : Nat)
  | evict (page : Nat)

/-- The event of the task. -/
def TlbEvent.task? : TlbEvent → Option TaskEvent
  | task e => some e
  | fill _ => none
  | evict _ => none

/-- The kernel goes on with `set_task`, which loads CR3. -/
def TaskEvent.loadsCr3 : TaskEvent → Bool
  | syscall regs => regs.rdi = SYSCALL_YIELD ∨ regs.rdi = SYSCALL_EXIT
  | load _ _ => false
  | store _ _ => false
  | fault vaddr _ _ => ¬ UserGuard vaddr

namespace TlbSystem

variable (c : TlbSystem)

/-- The translations by the tables. -/
def walk : Nat → Option TlbEntry := pageWalk c.sys.phys.mem c.sys.sched.cr3

/-- The physical address of an access of the task; a store has to be allowed. -/
def access (vaddr : Word) (store : Option (BitVec 8)) : Option Nat :=
  ((lookup c.tlb c.walk (pageNumber vaddr.toNat)).filter fun e =>
    store.isNone || e.writable).map fun e => e.frame + vaddr.toNat % 4096

/-- The cache after an event; a load of CR3 drops the translations. -/
def after (e : TaskEvent) (sys : System) : TlbSystem where
  sys := sys
  tlb := if e.loadsCr3 then fun _ => none else c.tlb

/-- An event of the running task; its accesses go through the cache. -/
def taskEvent (pool : Nat) : TaskEvent → Option System
  | .syscall regs => c.sys.trap pool (.syscall regs)
  | .load vaddr byte =>
    if c.sys.Runs vaddr then
      (c.access vaddr none).bind fun a =>
        if c.sys.phys.mem a = byte then some c.sys else none
    else none
  | .store vaddr byte =>
    if c.sys.Runs vaddr then
      (c.access vaddr (some byte)).map fun a =>
        { c.sys with phys := c.sys.phys.store a (some byte) }
    else none
  | .fault vaddr store regs =>
    if c.sys.Runs vaddr ∧ c.access vaddr store = none then
      c.sys.trap pool (.pageFault vaddr regs)
    else none

/-- One event. -/
def event (pool : Nat) (c : TlbSystem) : TlbEvent → Option TlbSystem
  | .task e => (c.taskEvent pool e).map (c.after e)
  | .fill page =>
    (c.walk page).map fun e => { c with tlb := Function.update c.tlb page (some e) }
  | .evict page => some { c with tlb := Function.update c.tlb page none }

/-- No translation of the cache is stale. -/
def Coherent : Prop := Agrees c.tlb c.walk

/-- The condition on an event, as without the cache. -/
def EventFits (P : PoolRegion) (c : TlbSystem) : TlbEvent → Prop
  | .task e => c.sys.EventFits P e
  | .fill _ => True
  | .evict _ => True

/-- A call of `mmap` is for a page that is not cached. -/
def MapsUncached : TlbEvent → Prop
  | .task (.syscall regs) => regs.rdi = SYSCALL_MMAP → c.tlb (pageNumber regs.rsi.toNat) = none
  | _ => True

instance (P : PoolRegion) : ∀ e, Decidable (c.EventFits P e)
  | .task e => inferInstanceAs (Decidable (c.sys.EventFits P e))
  | .fill _ => inferInstanceAs (Decidable True)
  | .evict _ => inferInstanceAs (Decidable True)

instance : ∀ e, Decidable (c.MapsUncached e)
  | .task (.syscall _) => inferInstanceAs (Decidable (_ → _))
  | .task (.load _ _) => inferInstanceAs (Decidable True)
  | .task (.store _ _) => inferInstanceAs (Decidable True)
  | .task (.fault _ _ _) => inferInstanceAs (Decidable True)
  | .fill _ => inferInstanceAs (Decidable True)
  | .evict _ => inferInstanceAs (Decidable True)

/-- After `load_tasks` and `run_tasks`. -/
def start (pool : Nat) (mem : Mem) (sched : Kernel) (images : List Task) : TlbSystem where
  sys := System.start pool mem sched images
  tlb := fun _ => none

end TlbSystem

/-! ## Translations of pages -/

/-- An access without the cache. -/
theorem userTranslate_eq_pageWalk (mem : Mem) (cr3 vaddr : Word) (store : Option (BitVec 8)) :
    (userTranslate mem cr3 vaddr store).map Translation.paddr =
      ((pageWalk mem cr3 (pageNumber vaddr.toNat)).filter fun e =>
        store.isNone || e.writable).map fun e => e.frame + vaddr.toNat % 4096 := by
  have hpage : pageNumber vaddr.toNat < 2 ^ 36 := by
    unfold pageNumber
    omega
  unfold userTranslate pageWalk
  rw [if_pos hpage, translate_page]
  cases translate mem cr3 (pageNumber vaddr.toNat * 4096) with
  | none => rfl
  | some x =>
    cases huser : x.user with
    | false => simp [Option.filter_some, huser]
    | true =>
      cases hallowed : store.isNone || x.writable with
      | false => simp [Option.filter_some, huser, hallowed]
      | true => simp [Option.filter_some, huser, hallowed]

variable {P : PoolRegion} {root : Nat → Option Nat} {role : Nat → PageRole}

/-- The translation of a page, by the view of the tasks. -/
theorem UserSpaces.pageWalk {s : Phys} (h : UserSpaces P s root role) {cr3 : Word} {t : Nat}
    (hroot : root t = some cr3.toNat) (page : Nat) :
    pageWalk s.mem cr3 page = (userView s.mem root t (page * 4096)).map fun a => ⟨a, true⟩ := by
  unfold Rackdoll.pageWalk userView
  rw [hroot, Option.bind_some, ofNat_toNat]
  by_cases hpage : page < 2 ^ 36
  · rw [if_pos hpage, if_pos (show page * 4096 < 2 ^ 48 by omega), Option.map_map]
    refine Option.map_congr fun x hx => ?_
    obtain ⟨hwalk, huser⟩ := Option.filter_eq_some_iff.mp hx
    rw [← ofNat_toNat cr3] at hwalk
    rw [h.writable t _ _ x hroot hwalk huser]
    rfl
  · rw [if_neg hpage, if_neg (show ¬ page * 4096 < 2 ^ 48 by omega)]
    rfl

/-! ## One event -/

namespace TlbSystem

variable {c c' : TlbSystem}

/-- Without a stale translation the cache cannot be seen. -/
theorem Coherent.access (h : c.Coherent) (vaddr : Word) (store : Option (BitVec 8)) :
    c.access vaddr store =
      (userTranslate c.sys.phys.mem c.sys.sched.cr3 vaddr store).map Translation.paddr := by
  rw [userTranslate_eq_pageWalk]
  unfold TlbSystem.access
  rw [Agrees.lookup h]
  rfl

theorem Coherent.taskEvent (h : c.Coherent) (pool : Nat) (e : TaskEvent) :
    c.taskEvent pool e = c.sys.event pool e := by
  cases e with
  | syscall regs => rfl
  | load vaddr byte =>
    unfold TlbSystem.taskEvent System.event
    dsimp only
    rw [h.access, Option.bind_map]
    rfl
  | store vaddr byte =>
    unfold TlbSystem.taskEvent System.event
    dsimp only
    rw [h.access, Option.map_map]
    rfl
  | fault vaddr store regs =>
    unfold TlbSystem.taskEvent System.event
    dsimp only
    have haccess : c.access vaddr store = none ↔
        userTranslate c.sys.phys.mem c.sys.sched.cr3 vaddr store = none := by
      rw [h.access, Option.map_eq_none_iff]
    exact if_congr (and_congr_right fun _ => haccess) rfl rfl

/-- An event of the task is the one without the cache. -/
theorem Coherent.event (h : c.Coherent) {pool : Nat} {e : TaskEvent}
    (hstep : c.event pool (.task e) = some c') :
    c.sys.event pool e = some c'.sys ∧ c' = c.after e c'.sys := by
  obtain ⟨sys, hsys, rfl⟩ := Option.map_eq_some_iff.mp hstep
  rw [h.taskEvent] at hsys
  exact ⟨hsys, rfl⟩

/-- The tables translate as before. -/
theorem Coherent.after_of_walk (h : c.Coherent) {e : TaskEvent} {sys : System}
    (hwalk : pageWalk sys.phys.mem sys.sched.cr3 = c.walk) : (c.after e sys).Coherent := by
  intro k x hcached
  unfold TlbSystem.walk TlbSystem.after at *
  dsimp only at hcached ⊢
  split at hcached
  · cases hcached
  · rw [hwalk]
    exact h k x hcached

/-- After a load of CR3 nothing is cached. -/
theorem coherent_of_loadsCr3 {e : TaskEvent} {sys : System} (he : e.loadsCr3 = true) :
    (c.after e sys).Coherent := by
  intro k x hcached
  unfold TlbSystem.after at hcached
  rw [if_pos he] at hcached
  cases hcached

end TlbSystem

section

variable {loaded : System} {home : InterruptContext} {c c' : TlbSystem} {a : TaskOs Nat}

/-- The tables after a call of `mmap`: the page is at a new frame. -/
theorem OsRefines.coherent_mmap (h : OsRefines P loaded home c.sys a) (hco : c.Coherent)
    (hne : c.sys.sched.fifoSize ≠ 0) {v : Word} (hv : 0x40000000 ≤ v.toNat % 2 ^ 48)
    (hfree : missing c.sys.phys.mem v 3 c.sys.pgt + 1 ≤ Bitset.free c.sys.phys.bitset) :
    Agrees c.tlb (pageWalk (c.sys.phys.mmap P.base c.sys.pgt v).mem c.sys.sched.cr3) ↔
      c.tlb (pageNumber v.toNat) = none := by
  obtain ⟨i, -, -, hroot, hcr3⟩ := h.current hne
  obtain ⟨role, hspaces⟩ := h.spaces
  rw [← ofNat_toNat c.sys.pgt] at hfree
  obtain ⟨⟨role', hspaces'⟩, ⟨q, hremaps⟩, -⟩ := hspaces.mmap hroot hv hfree
  rw [ofNat_toNat] at hspaces' hremaps
  rw [← hcr3] at hroot
  have hwalk : c.walk = fun page =>
      (userView c.sys.phys.mem loaded.roots i (page * 4096)).map fun a => ⟨a, true⟩ :=
    funext (hspaces.pageWalk hroot)
  have hwalk' := hspaces'.pageWalk hroot
  have hlt : pageNumber v.toNat < 2 ^ 36 := by
    unfold pageNumber
    omega
  have hnumber : ∀ page, page < 2 ^ 36 → pageNumber (page * 4096) = page := by
    intro page hpage
    unfold pageNumber
    omega
  refine agrees_iff_of_moved hco (fun page hpage => ?_) ?_
  · rw [hwalk', hwalk, hremaps.other]
    rintro ⟨-, hin⟩
    exact hpage ((hnumber page (by have := hin.1; omega)).symm.trans hin.2)
  · have hin : UserPage v.toNat (pageNumber v.toNat * 4096) :=
      ⟨by omega, hnumber _ hlt⟩
    rw [hwalk', hwalk, hremaps.moved _ hin]
    dsimp only
    intro heq
    obtain ⟨a, ha, hentry⟩ := Option.map_eq_some_iff.mp heq.symm
    refine hremaps.fresh _ hin i _ (ha.trans (congrArg some ?_))
    exact congrArg TlbEntry.frame hentry

/-- A page fault is for a page that is not cached. -/
theorem OsRefines.uncached_of_fault (h : OsRefines P loaded home c.sys a) (hco : c.Coherent)
    (hne : c.sys.sched.fifoSize ≠ 0) {vaddr : Word} {store : Option (BitVec 8)}
    (hnone : userTranslate c.sys.phys.mem c.sys.sched.cr3 vaddr store = none) :
    c.tlb (pageNumber vaddr.toNat) = none := by
  obtain ⟨i, -, -, hroot, hcr3⟩ := h.current hne
  obtain ⟨role, hspaces⟩ := h.spaces
  rw [← hcr3] at hroot
  by_contra hcached
  obtain ⟨x, hx⟩ := Option.ne_none_iff_exists'.mp hcached
  have hallowed : (c.walk (pageNumber vaddr.toNat)).filter
      (fun e => store.isNone || e.writable) = none := by
    have haccess := userTranslate_eq_pageWalk c.sys.phys.mem c.sys.sched.cr3 vaddr store
    rw [hnone] at haccess
    exact Option.map_eq_none_iff.mp haccess.symm
  have hwalk := hco _ x hx
  obtain ⟨b, -, rfl⟩ := Option.map_eq_some_iff.mp ((hspaces.pageWalk hroot _).symm.trans hwalk)
  rw [hwalk, Option.filter_some, Bool.or_true] at hallowed
  cases hallowed

/-- A system call. -/
theorem coherent_syscall {regs : InterruptContext} (h : OsRefines P loaded home c.sys a)
    (hco : c.Coherent) (hfits : c.sys.EventFits P (.syscall regs)) {sys : System}
    (hstep : c.sys.event P.base (.syscall regs) = some sys) :
    (c.after (.syscall regs) sys).Coherent ↔ c.MapsUncached (.task (.syscall regs)) := by
  have hkept : regs.rdi ≠ SYSCALL_MMAP →
      pageWalk sys.phys.mem sys.sched.cr3 = c.walk →
      ((c.after (.syscall regs) sys).Coherent ↔ c.MapsUncached (.task (.syscall regs))) :=
    fun hcall hwalk => iff_of_true (hco.after_of_walk hwalk) fun hmmap => absurd hmmap hcall
  obtain ⟨hne, hcases⟩ := System.trap_syscall hstep
  rcases hcases with ⟨hcall, rfl⟩ | ⟨op, hcall, k, hk, rfl⟩ | ⟨hcall, phys, hphys, rfl⟩ |
    ⟨hcall, rfl⟩
  · obtain ⟨hv, hfree⟩ := hfits (.mmap regs.rsi) (if_pos hcall)
    have hloads : (TaskEvent.syscall regs).loadsCr3 = false :=
      decide_eq_false (by rw [hcall]; decide)
    refine Iff.trans ?_ ((h.coherent_mmap hco hne hv hfree).trans
      ⟨fun hnone _ => hnone, fun hnone => hnone hcall⟩)
    unfold TlbSystem.Coherent TlbSystem.after
    rw [hloads]
    rfl
  · have hcr3 : TaskOs.switchCall op = SYSCALL_YIELD ∨ TaskOs.switchCall op = SYSCALL_EXIT := by
      cases op <;> decide
    have hother : TaskOs.switchCall op ≠ SYSCALL_MMAP := by
      cases op <;> decide
    refine iff_of_true (TlbSystem.coherent_of_loadsCr3 (decide_eq_true (hcall ▸ hcr3))) ?_
    exact fun hmmap => absurd (hcall.symm.trans hmmap) hother
  · have hserved := hfits (.munmap regs.rsi)
      ((if_neg (by rw [hcall]; decide)).trans (if_pos hcall))
    refine hkept (by rw [hcall]; decide) ?_
    unfold Phys.munmap at hphys
    split at hphys
    · next hguard =>
      dsimp only at hphys
      rw [hserved hguard] at hphys
      cases hphys
    · obtain rfl := Except.ok.inj hphys
      rfl
  · exact hkept hcall.1 rfl

/-- A page fault. -/
theorem coherent_fault {vaddr : Word} {store : Option (BitVec 8)} {regs : InterruptContext}
    (h : OsRefines P loaded home c.sys a) (hco : c.Coherent)
    (hfits : c.sys.EventFits P (.fault vaddr store regs)) {sys : System}
    (hstep : c.sys.event P.base (.fault vaddr store regs) = some sys) :
    (c.after (.fault vaddr store regs) sys).Coherent := by
  unfold System.event at hstep
  dsimp only at hstep
  split at hstep
  · next hfault =>
    rcases hfault with ⟨⟨hne, -⟩, hnone⟩
    rw [System.trap_pageFault hne] at hstep
    obtain rfl := Option.some.inj hstep
    by_cases hguard : UserGuard vaddr
    · have hbounds : 0x40000000 < vaddr.toNat ∧ vaddr.toNat < 0x00007fffffffffff := hguard
      have hloads : (TaskEvent.fault vaddr store regs).loadsCr3 = false :=
        decide_eq_false (not_not_intro hguard)
      have hagrees := (h.coherent_mmap hco hne (by omega) (hfits hguard)).mpr
        (h.uncached_of_fault hco hne hnone)
      unfold TlbSystem.Coherent TlbSystem.after
      rw [hloads, if_pos hguard]
      exact hagrees
    · exact TlbSystem.coherent_of_loadsCr3 (decide_eq_true hguard)
  · cases hstep

/-- One event of the task. -/
theorem coherent_task {e : TaskEvent} (h : OsRefines P loaded home c.sys a) (hco : c.Coherent)
    (hfits : c.sys.EventFits P e) (hstep : c.event P.base (.task e) = some c') :
    c'.Coherent ↔ c.MapsUncached (.task e) := by
  obtain ⟨hsys, hafter⟩ := hco.event hstep
  rw [hafter]
  cases e with
  | syscall regs => exact coherent_syscall h hco hfits hsys
  | load vaddr byte =>
    refine iff_of_true (hco.after_of_walk ?_) trivial
    unfold System.event at hsys
    dsimp only at hsys
    split at hsys
    · obtain ⟨x, -, hload⟩ := Option.bind_eq_some_iff.mp hsys
      split at hload
      · rw [← Option.some.inj hload]
        rfl
      · cases hload
    · cases hsys
  | store vaddr byte =>
    refine iff_of_true (hco.after_of_walk ?_) trivial
    unfold System.event at hsys
    dsimp only at hsys
    split at hsys
    · next hruns =>
      obtain ⟨x, hx, heq⟩ := Option.map_eq_some_iff.mp hsys
      obtain ⟨i, -, -, hroot, hcr3⟩ := h.current hruns.1
      obtain ⟨role, hspaces⟩ := h.spaces
      rw [← hcr3] at hroot
      obtain ⟨-, hsame, -⟩ := hspaces.store (userView_of_userTranslate hroot hx) byte
      rw [← heq]
      funext page
      unfold TlbSystem.walk pageWalk
      rw [← ofNat_toNat c.sys.sched.cr3, hsame i _ _ hroot]
    · cases hsys
  | fault vaddr store regs => exact iff_of_true (coherent_fault h hco hfits hsys) trivial

/-- One event. -/
theorem coherent_event {e : TlbEvent} (h : OsRefines P loaded home c.sys a) (hco : c.Coherent)
    (hfits : c.EventFits P e) (hstep : c.event P.base e = some c') :
    c'.Coherent ↔ c.MapsUncached e := by
  cases e with
  | task e => exact coherent_task h hco hfits hstep
  | fill page =>
    obtain ⟨x, hx, rfl⟩ := Option.map_eq_some_iff.mp hstep
    exact iff_of_true (Agrees.fill hco hx) trivial
  | evict page =>
    obtain rfl := Option.some.inj hstep
    exact iff_of_true (Agrees.evict hco page) trivial

/-- The machine with the cache stands for the operating system, too. -/
theorem refines_tlbEvent {e : TlbEvent} (h : OsRefines P loaded home c.sys a) (hco : c.Coherent)
    (hfits : c.EventFits P e) (hstep : c.event P.base e = some c') :
    ∃ a', OsRefines P loaded home c'.sys a' := by
  cases e with
  | task e =>
    obtain ⟨a', -, ha'⟩ := refines_event h hfits (hco.event hstep).1
    exact ⟨a', ha'⟩
  | fill page =>
    obtain ⟨x, -, rfl⟩ := Option.map_eq_some_iff.mp hstep
    exact ⟨a, h⟩
  | evict page =>
    obtain rfl := Option.some.inj hstep
    exact ⟨a, h⟩

end

/-! ## The run -/

section

variable {mem : Mem} {sched : Kernel} {images : List Task}

/-- The machine stands for an operating system, as long as no translation is stale. -/
theorem osRefines_tlbStart
    (hpool : ∀ a, P.base ≤ a → a < P.base + PHYSICAL_POOL_PAGES * PAGE_SIZE → mem a = 0)
    (hload : LoadsFit P 4 (System.boot mem sched) images)
    (hfits : ∀ image ∈ images, ImageFits P image) (hapart : images.Pairwise PayloadsApart)
    (hsome : images ≠ []) :
    ∃ loaded, (∃ a, OsRefines P loaded loaded.sched.ctx
        (TlbSystem.start P.base mem sched images).sys a) ∧
      ∀ u e u', (∃ a, OsRefines P loaded loaded.sched.ctx u.sys a) → u.Coherent →
        TlbSystem.EventFits P u e → TlbSystem.event P.base u e = some u' →
          ∃ a, OsRefines P loaded loaded.sched.ctx u'.sys a := by
  refine ⟨_, ⟨_, osRefines_start hpool hload hfits hapart hsome⟩, ?_⟩
  intro u e u' hex hco hfit hstep
  rcases hex with ⟨a, ha⟩
  exact refines_tlbEvent ha hco hfit hstep

end

/-- Task 1 stores to its stack, and the translation is cached; after the switch it is not. -/
def cachedEvents : List TlbEvent :=
  [.task (.fault 0x1ffffffff8 (some 0x2a) .zero), .fill 0x1ffffff,
    .task (.store 0x1ffffffff8 0x2a), .task (.syscall (callRegs SYSCALL_YIELD 0)),
    .task (.fault 0x1ffffffff8 none .zero), .task (.load 0x1ffffffff8 0), .fill 0x1ffffff,
    .evict 0x1ffffff, .task (.syscall (callRegs SYSCALL_MMAP 0x1ffffff000)),
    .task (.load 0x1ffffffff8 0)]

end KernelMemVirt.Rackdoll
