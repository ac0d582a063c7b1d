import KernelMemVirt.Janus.Duplicate
import KernelMemVirt.Janus.GuestMap

/-!
# An exhausted pool

`alloc_page` returns 0 when no page is left, and no caller in the guest looks at the value.
The operations are logged as lists of actions, in which a failed allocation is an action as
well: `Op.log`, with `Op.run_replay` for the memory.

`not_contained_of_failure` shows that no failure is contained: after the failed allocation
of a data page the page 0 is cleared or written to, and after that of a table an entry
points to page 0.
-/

namespace KernelMemVirt.Janus.Guest

open ByteMem OwnerTree ActionLog
open Rackdoll

namespace Machine

variable (pool : Nat)

/-! ## Actions -/

/-- The actions of `mmap`. -/
def mmapLog (s : Machine) (vaddr : Word) : List Action :=
  let (s, new) := s.alloc pool
  .alloc new :: .fill new.toNat 0 4096 ::
    mapPageLog pool { s with mem := fill s.mem new.toNat 0 4096 } vaddr new

/-- The actions of `pgfault`. -/
def pgfaultLog (s : Machine) (fault : Word) : List Action :=
  if fault < 0x100000000 ∨ 0x700000000000 ≤ fault then []
  else s.mmapLog pool (fault &&& PAGE_MASK)

/-- The actions of `copyPage`. -/
def copyPageLog (s : Machine) (paddr : Word) : List Action :=
  let new := (s.alloc pool).2
  [.alloc new, .copy new.toNat paddr.toNat 4096]

/-- The actions of `duplicateEntries`; `levelLog` are those of the call in it. -/
def duplicateEntriesLog (level : Machine → Word → Machine × Word)
    (levelLog : Machine → Word → List Action) (lvl : Nat) (pgd : Word) :
    List Nat → Machine → List Action
  | [], _ => []
  | idx :: rest, s =>
    let p := (pgd + 8 * BitVec.ofNat 64 idx).toNat
    if read64 s.mem p &&& 1 = 0 then duplicateEntriesLog level levelLog lvl pgd rest s
    else if lvl = 3 ∧ idx = 0 then duplicateEntriesLog level levelLog lvl pgd rest s
    else
      let paddr := read64 s.mem p &&& PTE_ADDR
      let (s', sub) := level s paddr
      let e := setAddr (read64 s'.mem p) sub
      levelLog s paddr ++ .word p e ::
        duplicateEntriesLog level levelLog lvl pgd rest { s' with mem := write64 s'.mem p e }

/-- The actions of `duplicate_level`. -/
def duplicateLevelLog (ctx : Task) : Nat → Machine → Word → List Action
  | 0, s, paddr => if ctx.InPayload paddr then [] else s.copyPageLog pool paddr
  | lvl + 1, s, paddr =>
    if ctx.InPayload paddr then []
    else
      let (s', new) := s.copyPage pool paddr
      s.copyPageLog pool paddr ++
        duplicateEntriesLog (duplicateLevel pool ctx lvl) (duplicateLevelLog ctx lvl) (lvl + 1) new
          (List.range 512) s'

end Machine

/-- The operations that allocate pages. -/
inductive Op
  | mmap (vaddr : Word)
  | pgfault (fault : Word)
  | duplicateTask (ctx : Task)

namespace Op

/-- The memory after an operation; a segmentation fault changes nothing. -/
def run (pool : Nat) (s : Machine) : Op → Mem
  | .mmap vaddr => (s.mmap pool vaddr).mem
  | .pgfault fault =>
    match s.pgfault pool fault with
    | .ok s => s.mem
    | .error _ => s.mem
  | .duplicateTask ctx => (Machine.duplicateTask pool ctx s).1.mem

/-- The actions of an operation. -/
def log (pool : Nat) (s : Machine) : Op → List Action
  | .mmap vaddr => s.mmapLog pool vaddr
  | .pgfault fault => s.pgfaultLog pool fault
  | .duplicateTask ctx => Machine.duplicateLevelLog pool ctx 4 s ctx.pgt

/-- The root of the tree that an operation works on. -/
def root (s : Machine) : Op → Word
  | .mmap _ => s.cr3
  | .pgfault _ => s.cr3
  | .duplicateTask ctx => ctx.pgt

end Op

namespace Machine

variable {pool : Nat} {s : Machine} {ctx : Task}

theorem mmap_replay (vaddr : Word) :
    (s.mmap pool vaddr).mem = replay s.mem (s.mmapLog pool vaddr) := by
  unfold mmap mmapLog
  dsimp only
  rw [replay_cons, replay_cons, mapPage_replay]
  rfl

theorem duplicateEntries_replay {level : Machine → Word → Machine × Word}
    {levelLog : Machine → Word → List Action}
    (hlevel : ∀ s paddr, (level s paddr).1.mem = replay s.mem (levelLog s paddr)) {lvl : Nat}
    {pgd : Word} : ∀ {l : List Nat} {s : Machine},
      (duplicateEntries level lvl pgd l s).mem =
        replay s.mem (duplicateEntriesLog level levelLog lvl pgd l s) := by
  intro l
  induction l with
  | nil => exact fun {_} => rfl
  | cons idx rest ih =>
    intro s
    unfold duplicateEntries duplicateEntriesLog
    dsimp only
    split
    · exact ih
    · split
      · exact ih
      · rw [replay_append, replay_cons, ← hlevel]
        exact ih

theorem duplicateLevel_replay : ∀ {lvl : Nat} {s : Machine} {paddr : Word},
    (duplicateLevel pool ctx lvl s paddr).1.mem =
      replay s.mem (duplicateLevelLog pool ctx lvl s paddr) := by
  intro lvl
  induction lvl with
  | zero =>
    intro s paddr
    unfold duplicateLevel duplicateLevelLog
    split
    · rfl
    · rfl
  | succ lvl ih =>
    intro s paddr
    unfold duplicateLevel duplicateLevelLog
    split
    · rfl
    · dsimp only
      rw [replay_append]
      exact duplicateEntries_replay fun s paddr => ih

end Machine

/-- The memory after an operation is that after its actions. -/
theorem Op.run_replay (pool : Nat) (s : Machine) (op : Op) :
    op.run pool s = replay s.mem (op.log pool s) := by
  cases op with
  | mmap vaddr => exact Machine.mmap_replay vaddr
  | pgfault fault =>
    show (match s.pgfault pool fault with | .ok s => s.mem | .error _ => s.mem) =
      replay s.mem (s.pgfaultLog pool fault)
    unfold Machine.pgfault Machine.pgfaultLog
    by_cases hrange : fault < 0x100000000 ∨ 0x700000000000 ≤ fault
    · rw [if_pos hrange, if_pos hrange]
      rfl
    · rw [if_neg hrange, if_neg hrange]
      exact Machine.mmap_replay _
  | duplicateTask ctx =>
    show (Machine.duplicateLevel pool ctx 4 s ctx.pgt).1.mem = _
    exact Machine.duplicateLevel_replay

/-! ## Failures -/

namespace Machine

variable {pool : Nat} {s : Machine} {ctx : Task}

/-- After a failed allocation of a table, an entry points to page 0. -/
theorem entry_of_descendLog {vaddr : Word} : ∀ {lvl : Nat} {s : Machine} {pgt : Word},
    .alloc 0 ∈ descendLog pool vaddr lvl s pgt →
      ∃ a, .word a 7 ∈ descendLog pool vaddr lvl s pgt := by
  intro lvl
  induction lvl with
  | zero => exact fun h => absurd h List.not_mem_nil
  | succ lvl ih =>
    intro s pgt h
    unfold descendLog at h ⊢
    dsimp only at h ⊢
    split at h
    · next hmissing =>
      rw [if_pos hmissing]
      rcases List.mem_cons.mp h with hfirst | hrest
      · have hnew : (s.alloc pool).2 = 0 := (Action.alloc.inj hfirst).symm
        refine ⟨entryAddr pgt vaddr (lvl + 1), List.mem_cons_of_mem _ ?_⟩
        rw [hnew]
        exact List.mem_cons_self
      · rcases List.mem_cons.mp hrest with hword | hlog
        · cases hword
        · obtain ⟨a, ha⟩ := ih hlog
          exact ⟨a, List.mem_cons_of_mem _ (List.mem_cons_of_mem _ ha)⟩
    · next hpresent =>
      rw [if_neg hpresent]
      exact ih h

/-- After a failed allocation in `duplicate_level`, page 0 is written. -/
theorem copy_of_copyPageLog {paddr : Word} (h : .alloc 0 ∈ s.copyPageLog pool paddr) :
    ∃ src, .copy 0 src 4096 ∈ s.copyPageLog pool paddr := by
  rcases List.mem_cons.mp h with hfirst | hrest
  · have hnew : (s.alloc pool).2 = 0 := (Action.alloc.inj hfirst).symm
    refine ⟨paddr.toNat, List.mem_cons_of_mem _ ?_⟩
    rw [hnew]
    exact List.mem_cons_self
  · simp at hrest

theorem copy_of_duplicateEntriesLog {level : Machine → Word → Machine × Word}
    {levelLog : Machine → Word → List Action}
    (hlevel : ∀ s paddr, .alloc 0 ∈ levelLog s paddr → ∃ src, .copy 0 src 4096 ∈ levelLog s paddr)
    {lvl : Nat} {pgd : Word} : ∀ {l : List Nat} {s : Machine},
      .alloc 0 ∈ duplicateEntriesLog level levelLog lvl pgd l s →
        ∃ src, .copy 0 src 4096 ∈ duplicateEntriesLog level levelLog lvl pgd l s := by
  intro l
  induction l with
  | nil => exact fun h => absurd h List.not_mem_nil
  | cons idx rest ih =>
    intro s h
    unfold duplicateEntriesLog at h ⊢
    dsimp only at h ⊢
    split at h
    · next habsent =>
      rw [if_pos habsent]
      exact ih h
    · next hpresent =>
      rw [if_neg hpresent]
      split at h
      · next hshared =>
        rw [if_pos hshared]
        exact ih h
      · next hcopy =>
        rw [if_neg hcopy]
        rcases List.mem_append.mp h with hcall | hrest
        · obtain ⟨src, hsrc⟩ := hlevel _ _ hcall
          exact ⟨src, List.mem_append_left _ hsrc⟩
        · rcases List.mem_cons.mp hrest with hword | hlog
          · cases hword
          · obtain ⟨src, hsrc⟩ := ih hlog
            exact ⟨src, List.mem_append_right _ (List.mem_cons_of_mem _ hsrc)⟩

theorem copy_of_duplicateLevelLog : ∀ {lvl : Nat} {s : Machine} {paddr : Word},
    .alloc 0 ∈ duplicateLevelLog pool ctx lvl s paddr →
      ∃ src, .copy 0 src 4096 ∈ duplicateLevelLog pool ctx lvl s paddr := by
  intro lvl
  induction lvl with
  | zero =>
    intro s paddr h
    unfold duplicateLevelLog at h ⊢
    split at h
    · exact absurd h List.not_mem_nil
    · next hout =>
      rw [if_neg hout]
      exact copy_of_copyPageLog h
  | succ lvl ih =>
    intro s paddr h
    unfold duplicateLevelLog at h ⊢
    split at h
    · exact absurd h List.not_mem_nil
    · next hout =>
      rw [if_neg hout]
      rcases List.mem_append.mp h with hpage | hloop
      · obtain ⟨src, hsrc⟩ := copy_of_copyPageLog hpage
        exact ⟨src, List.mem_append_left _ hsrc⟩
      · obtain ⟨src, hsrc⟩ := copy_of_duplicateEntriesLog (fun _ _ => ih) hloop
        exact ⟨src, List.mem_append_right _ hsrc⟩

end Machine

/-- The failure of an allocation is contained: what is written are bytes of the pool and of
the tables, no entry points to page 0, and the translations that were there stay. -/
structure Contained (P : PoolRegion) (s : Machine) (op : Op) : Prop where
  writes : Confined
    (fun a => (P.base ≤ a ∧ a < P.base + PHYSICAL_POOL_PAGES * PAGE_SIZE) ∨
      ∃ path p, walk (child s.mem) (frame (op.root s)) path = some p ∧ InPage p a) (op.log P.base s)
  entries : ∀ a e, .word a e ∈ op.log P.base s → present e = true → frame e ≠ 0
  translations : ∀ v t, translate s.mem (op.root s) v = some t →
    translate (op.run P.base s) (op.root s) v = some t

section

variable {P : PoolRegion} {s : Machine} {op : Op}

/-- A failure leads to a write to the first byte of page 0, or to an entry that points
there. -/
theorem Op.zero_of_failure (hfail : .alloc 0 ∈ op.log P.base s) :
    (∃ act ∈ op.log P.base s, act.Covers 0) ∨ ∃ a, .word a 7 ∈ op.log P.base s := by
  have hmmap : ∀ vaddr, .alloc 0 ∈ s.mmapLog P.base vaddr →
      (∃ act ∈ s.mmapLog P.base vaddr, act.Covers 0) ∨ ∃ a, .word a 7 ∈ s.mmapLog P.base vaddr := by
    intro vaddr h
    rcases List.mem_cons.mp h with hpage | hrest
    · have hnew : (s.alloc P.base).2 = 0 := (Action.alloc.inj hpage).symm
      refine .inl ⟨.fill (s.alloc P.base).2.toNat 0 4096,
        List.mem_cons_of_mem _ List.mem_cons_self, ?_⟩
      rw [hnew]
      exact ⟨Nat.le_refl 0, by decide⟩
    · refine .inr ?_
      rcases List.mem_cons.mp hrest with hfill | hmap
      · cases hfill
      · rcases List.mem_append.mp hmap with htable | hleaf
        · obtain ⟨a, ha⟩ := Machine.entry_of_descendLog htable
          exact ⟨a, List.mem_cons_of_mem _ (List.mem_cons_of_mem _ (List.mem_append_left _ ha))⟩
        · simp at hleaf
  cases op with
  | mmap vaddr => exact hmmap vaddr hfail
  | pgfault fault =>
    have hlog : Op.log P.base s (.pgfault fault) = s.pgfaultLog P.base fault := rfl
    rw [hlog] at hfail ⊢
    unfold Machine.pgfaultLog at hfail ⊢
    split at hfail
    · exact absurd hfail List.not_mem_nil
    · next hrange =>
      rw [if_neg hrange]
      exact hmmap _ hfail
  | duplicateTask ctx =>
    obtain ⟨src, hsrc⟩ := Machine.copy_of_duplicateLevelLog hfail
    exact .inl ⟨_, hsrc, Nat.le_refl 0, by decide⟩

theorem not_contained_of_zero (hzero : (∃ act ∈ op.log P.base s, act.Covers 0) ∨
    ∃ a, .word a 7 ∈ op.log P.base s)
    (htables : ∀ path p, walk (child s.mem) (frame (op.root s)) path = some p → p ≠ 0) :
    ¬ Contained P s op := by
  intro hcontained
  rcases hzero with ⟨act, hact, hcovers⟩ | ⟨a, hword⟩
  · rcases hcontained.writes act hact 0 hcovers with hpool | ⟨path, p, hp, hpage⟩
    · have hlow := P.low
      omega
    · have hne := htables path p hp
      unfold InPage at hpage
      omega
  · exact hcontained.entries a 7 hword (by decide) (by decide)

end

/-- No failure of `alloc_page` is contained, in any state, whatever operation it happens
in and at whatever point. -/
theorem not_contained_of_failure (P : PoolRegion) (s : Machine) (op : Op)
    (htables : ∀ path p, walk (child s.mem) (frame (op.root s)) path = some p → p ≠ 0)
    (hfail : .alloc 0 ∈ op.log P.base s) : ¬ Contained P s op :=
  not_contained_of_zero (Op.zero_of_failure hfail) htables

/-- A guest without a free page. -/
def fullMachine : Machine where
  mem _ := 0
  bitset := [0xffffffffffffffff]
  cr3 := 0x180000
  tlb _ := none

theorem fullMachine_tables {op : Op} (hroot : op.root fullMachine = 0x180000) :
    ∀ path p, walk (child fullMachine.mem) (frame (op.root fullMachine)) path = some p → p ≠ 0 := by
  intro path p hp
  rw [hroot] at hp
  obtain ⟨-, rfl⟩ := walk_of_empty (fun _ hi => entry_zero (fun _ _ _ => rfl) hi) hp
  decide

/-- A page fault clears page 0. -/
theorem not_contained_pgfault : ¬ Contained lowPool fullMachine (.pgfault 0x100000000) :=
  not_contained_of_zero
    (.inl ⟨.fill 0 0 4096, by decide +kernel, Nat.le_refl 0, by decide⟩) (fullMachine_tables rfl)

theorem not_contained_duplicateTask :
    ¬ Contained lowPool fullMachine (.duplicateTask ⟨0x180000, 0x190000, 0x190000⟩) :=
  not_contained_of_failure lowPool fullMachine _ (fullMachine_tables rfl) (by decide +kernel)

end KernelMemVirt.Janus.Guest
