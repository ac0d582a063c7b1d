import KernelMemVirt.Lib.RecordWalk
import KernelMemVirt.Rackdoll.Load

/-!
# The modules of the boot loader

`load_tasks` of `kernel/task.c` walks over the tags of the multiboot information and gives those of
modules to `parse_task`, which looks for a task image in the module.

* `InfoBlock.loadTasks_eq_walk` says that `load_tasks` is a walk over records.  It stays for ever at
  a tag of size 0: `walksTags_iff`.
* `Scanned` is what the loop of `parse_task` does, and `scanned_scan` that it does it.
* `recognises_iff` says for which modules `parse_task` finds what it should.
-/

namespace KernelMemVirt.Rackdoll

open ByteMem

/-! ## The source -/

abbrev MB2_TAG_MODULE : BitVec 32 := 3

abbrev TASK_HEADER_MAGIC : Word := 0xff10ada64bc0deff

/-- The loop of `load_tasks`, for a number of turns.  The block is read only; `parse_task` changes
the rest of the state. -/
def tagLoop {σ : Type} (mem : Mem) (parseTask : σ → Nat → σ) (stop : Word) :
    Nat → Word → σ → Option σ
  | 0, _, _ => none
  | turns + 1, ptr, s =>
    if ptr < stop then
      let s := if read32 mem ptr.toNat = MB2_TAG_MODULE then parseTask s ptr.toNat else s
      let size := read32 mem (ptr.toNat + 4)
      tagLoop mem parseTask stop turns ((ptr + size.setWidth 64 + 7) &&& ~~~7) s
    else some s

namespace Multiboot

/-- `load_tasks`. -/
def loadTasks {σ : Type} (mem : Mem) (parseTask : σ → Nat → σ) (turns : Nat) (mb2 : Word) (s : σ) :
    Option σ :=
  let stop := mb2 + (read32 mem mb2.toNat).setWidth 64
  tagLoop mem parseTask stop turns (mb2 + ((8 + 7) &&& ~~~7)) s

end Multiboot

/-- The loop of `parse_task`, for a number of turns that is at least that of the source: the
pointer, and the addresses of the words that are read. -/
def scan (mem : Mem) (stop : Nat) : Nat → Nat → Nat × List Nat
  | 0, ptr => (ptr, [])
  | turns + 1, ptr =>
    if ptr < stop then
      if read64 mem ptr = TASK_HEADER_MAGIC then (ptr, [ptr])
      else
        let (found, reads) := scan mem stop turns (ptr + 8)
        (found, ptr :: reads)
    else (ptr, [])

/-- The task that a `struct task_header` at `ptr` describes, without its page table. -/
def headerTask (mem : Mem) (ptr : Nat) : Task :=
  let loadAddr := read64 mem (ptr + 8)
  let pvdiff := read64 mem (ptr + 32) - BitVec.ofNat 64 ptr
  { pgt := 0
    loadPaddr := loadAddr - pvdiff
    loadEndPaddr := read64 mem (ptr + 16) - pvdiff
    loadVaddr := loadAddr
    bssEndVaddr := read64 mem (ptr + 24)
    context :=
      { InterruptContext.zero with
        rip := read64 mem (ptr + 40)
        cs := 0x20 ||| 0x3
        ss := 0x18 ||| 0x3
        rsp := 0x2000000000
        rflags := 1 <<< 9 } }

/-- The fields of the header that are read: `header_addr`, `load_addr`, `load_end_addr`,
`bss_end_addr` and `entry_addr`. -/
def headerReads (ptr : Nat) : List Nat := [ptr + 32, ptr + 8, ptr + 16, ptr + 24, ptr + 40]

/-- `parse_task`, for a module from `mod_start` to `mod_end`, with the addresses of the words that
it reads there. -/
def parseTask (pool : Nat) (s : System) (modStart modEnd : BitVec 32) : System × List Nat :=
  let stop := modEnd.toNat
  if s.sched.fifoSize = TASK_FIFO_LEN then (s, [])
  else
    let (ptr, reads) := scan s.phys.mem stop (stop - modStart.toNat) modStart.toNat
    if ptr = stop then (s, reads)
    else (addTask pool s (headerTask s.phys.mem ptr), reads ++ headerReads ptr)

/-! ## The walk over the tags -/

/-- The multiboot information.  The boot loader puts it at an aligned address and passes this in a
register of 32 bits. -/
structure InfoBlock where
  mem : Mem
  addr : Nat
  aligned : addr % 8 = 0
  low : addr < 2 ^ 32

namespace InfoBlock

variable (b : InfoBlock)

def totalSize : Nat := (read32 b.mem b.addr).toNat

/-- The tag at offset `o` is that of a module. -/
def IsModule (o : Nat) : Prop := read32 b.mem (b.addr + o) = MB2_TAG_MODULE

instance (o : Nat) : Decidable (b.IsModule o) := inferInstanceAs (Decidable (_ = _))

def tagSize (o : Nat) : Nat := (read32 b.mem (b.addr + o + 4)).toNat

/-- The offset of the next tag, a multiple of 8. -/
def nextTag (o : Nat) : Nat := (o + b.tagSize o + 7) / 8 * 8

/-- `load_tasks` returns, and it has called `parse_task` once for each module tag, in order.  The
tags are at the offsets that their sizes give. -/
def WalksTags : Prop :=
  ∃ os, RecordWalk.Visits b.nextTag b.totalSize 8 os ∧ (∀ o ∈ os, o % 8 = 0) ∧
    ∃ turns, ∀ (σ : Type) (parseTask : σ → Nat → σ) (s : σ),
      Multiboot.loadTasks b.mem parseTask turns (BitVec.ofNat 64 b.addr) s =
        some ((os.filter (b.IsModule ·)).foldl (fun s o => parseTask s (b.addr + o)) s)

/-- No tag of the chain that starts in the block has size 0. -/
def SizesPositive : Prop :=
  ∀ o, RecordWalk.Reached b.nextTag b.totalSize 8 o → o < b.totalSize → 0 < b.tagSize o

/-- What the loop does at a tag. -/
def visit {σ : Type} (parseTask : σ → Nat → σ) (s : σ) (o : Nat) : σ :=
  if b.IsModule o then parseTask s (b.addr + o) else s

variable {b}

theorem padded_nextTag (b : InfoBlock) : RecordWalk.Padded 8 b.tagSize b.nextTag := fun _ => rfl

theorem visits_mod {os : List Nat} (h : RecordWalk.Visits b.nextTag b.totalSize 8 os) :
    ∀ o ∈ os, o % 8 = 0 := by
  intro o ho
  exact Nat.mod_eq_zero_of_dvd
    (b.padded_nextTag.dvd_of_reached (Nat.dvd_refl 8) (h.mem_iff.mp ho).1)

/-- The pointer to the next tag, in 64 bits. -/
theorem nextPtr_eq {o : Nat} (ho : o < b.totalSize) :
    (BitVec.ofNat 64 (b.addr + o) + (read32 b.mem (b.addr + o + 4)).setWidth 64 + 7) &&& ~~~7 =
      BitVec.ofNat 64 (b.addr + b.nextTag o) := by
  have hlow := b.low
  have halign := b.aligned
  have htotal : b.totalSize < 2 ^ 32 := (read32 b.mem b.addr).isLt
  have hsize : b.tagSize o < 2 ^ 32 := (read32 b.mem (b.addr + o + 4)).isLt
  have hmask : ∀ i, i < 64 → (~~~7 : Word).getLsbD i = decide (3 ≤ i) := by decide
  apply BitVec.eq_of_toNat_eq
  rw [Bitset.toNat_and_mask hmask, BitVec.toNat_add, BitVec.toNat_add, BitVec.toNat_setWidth,
    BitVec.toNat_ofNat, BitVec.toNat_ofNat]
  unfold nextTag
  unfold tagSize at hsize ⊢
  rw [show (7 : Word).toNat = 7 from rfl]
  omega

/-- The loop is a walk over records. -/
theorem tagLoop_eq_walk {σ : Type} (parseTask : σ → Nat → σ) :
    ∀ (turns o : Nat) (s : σ), o < 2 ^ 34 →
      tagLoop b.mem parseTask (BitVec.ofNat 64 (b.addr + b.totalSize)) turns
          (BitVec.ofNat 64 (b.addr + o)) s =
        RecordWalk.walk b.nextTag b.totalSize (b.visit parseTask) turns o s := by
  have hlow := b.low
  have htotal : b.totalSize < 2 ^ 32 := (read32 b.mem b.addr).isLt
  intro turns
  induction turns with
  | zero => exact fun _ _ _ => rfl
  | succ turns ih =>
    intro o s ho
    have hptr : (BitVec.ofNat 64 (b.addr + o)).toNat = b.addr + o := by
      rw [BitVec.toNat_ofNat]
      omega
    have hlt : BitVec.ofNat 64 (b.addr + o) < BitVec.ofNat 64 (b.addr + b.totalSize) ↔
        o < b.totalSize := by
      rw [BitVec.lt_def, hptr, BitVec.toNat_ofNat]
      omega
    by_cases hin : o < b.totalSize
    · have hsize : b.tagSize o < 2 ^ 32 := (read32 b.mem (b.addr + o + 4)).isLt
      have hnext : b.nextTag o < 2 ^ 34 := by
        unfold nextTag
        omega
      simp only [tagLoop, RecordWalk.walk, if_pos (hlt.mpr hin), if_pos hin, hptr, nextPtr_eq hin]
      exact ih (b.nextTag o) _ hnext
    · simp only [tagLoop, RecordWalk.walk, if_neg (hlt.not.mpr hin), if_neg hin]

theorem loadTasks_eq_walk (b : InfoBlock) {σ : Type} (parseTask : σ → Nat → σ) (turns : Nat)
    (s : σ) :
    Multiboot.loadTasks b.mem parseTask turns (BitVec.ofNat 64 b.addr) s =
      RecordWalk.walk b.nextTag b.totalSize (b.visit parseTask) turns 8 s := by
  have hlow := b.low
  have haddr : (BitVec.ofNat 64 b.addr).toNat = b.addr := by
    rw [BitVec.toNat_ofNat]
    omega
  have hstop : BitVec.ofNat 64 b.addr + (read32 b.mem b.addr).setWidth 64 =
      BitVec.ofNat 64 (b.addr + b.totalSize) := by
    rw [BitVec.ofNat_add, totalSize, BitVec.ofNat_toNat]
  have hfirst : BitVec.ofNat 64 b.addr + ((8 + 7) &&& ~~~7) = BitVec.ofNat 64 (b.addr + 8) := by
    rw [BitVec.ofNat_add]
    rfl
  unfold Multiboot.loadTasks
  rw [haddr, hstop, hfirst]
  exact tagLoop_eq_walk parseTask turns 8 s (by decide)

theorem foldl_visit {σ : Type} (parseTask : σ → Nat → σ) (os : List Nat) (s : σ) :
    os.foldl (b.visit parseTask) s =
      (os.filter (b.IsModule ·)).foldl (fun s o => parseTask s (b.addr + o)) s := by
  rw [List.foldl_filter]
  simp only [decide_eq_true_eq]
  rfl

/-- The walk over the tags ends exactly if none has size 0. -/
theorem exists_visits_iff (b : InfoBlock) :
    (∃ os, RecordWalk.Visits b.nextTag b.totalSize 8 os) ↔ b.SizesPositive :=
  b.padded_nextTag.exists_visits_iff (by decide) (Nat.dvd_refl 8)

/-- `load_tasks` returns exactly if no tag has size 0. -/
theorem loadTasks_returns_iff (b : InfoBlock) {σ : Type} (parseTask : σ → Nat → σ) (s : σ) :
    (∃ turns t, Multiboot.loadTasks b.mem parseTask turns (BitVec.ofNat 64 b.addr) s = some t) ↔
      b.SizesPositive := by
  rw [← exists_visits_iff]
  constructor
  · rintro ⟨turns, t, h⟩
    rw [loadTasks_eq_walk] at h
    obtain ⟨os, hvisits, -⟩ := RecordWalk.visits_of_walk h
    exact ⟨os, hvisits⟩
  · rintro ⟨os, hvisits⟩
    refine ⟨os.length + 1, os.foldl (b.visit parseTask) s, ?_⟩
    rw [loadTasks_eq_walk]
    exact RecordWalk.walk_of_visits hvisits s (Nat.lt_succ_self _)

/-- `load_tasks` walks over the tags as it should exactly if none of them has size 0. -/
theorem walksTags_iff (b : InfoBlock) : b.WalksTags ↔ b.SizesPositive := by
  constructor
  · rintro ⟨os, -, -, turns, h⟩
    exact (loadTasks_returns_iff b (fun s _ => s) ()).mp ⟨turns, _, h Unit _ ()⟩
  · intro h
    obtain ⟨os, hvisits⟩ := (exists_visits_iff b).mpr h
    refine ⟨os, hvisits, visits_mod hvisits, os.length + 1, fun σ parseTask s => ?_⟩
    rw [loadTasks_eq_walk, RecordWalk.walk_of_visits hvisits s (Nat.lt_succ_self _), foldl_visit]

/-- A tag of size 0 at the start of a block of 16 bytes. -/
def emptyTag : InfoBlock where
  mem := fun a => if a = 0x1000 then 16 else 0
  addr := 0x1000
  aligned := by decide
  low := by decide

/-- The loop stays at a tag of size 0. -/
theorem walksTags_not_of_emptyTag : ¬ ∀ b : InfoBlock, b.WalksTags := by
  intro h
  obtain ⟨os, -, -, turns, hreturns⟩ := h emptyTag
  have hsizes := (loadTasks_returns_iff emptyTag (fun s _ => s) ()).mp
    ⟨turns, _, hreturns Unit _ ()⟩
  exact absurd (hsizes 8 .first (by decide)) (by decide)

end InfoBlock

/-! ## The task image of a module -/

/-- A `struct task_header` with the magic value starts `k` words behind `start`, and ends at
`stop` or before. -/
def CompleteHeader (mem : Mem) (start stop k : Nat) : Prop :=
  read64 mem (start + 8 * k) = TASK_HEADER_MAGIC ∧ start + 8 * k + 48 ≤ stop

/-- `parse_task` reads the module only, and adds the task of the first complete header, if there is
one and the FIFO has room. -/
structure Recognises (pool : Nat) (s : System) (modStart modEnd : BitVec 32) : Prop where
  reads : ∀ a ∈ (parseTask pool s modStart modEnd).2, a + 8 ≤ modEnd.toNat
  added : ∀ k, s.sched.fifoSize ≠ TASK_FIFO_LEN →
    CompleteHeader s.phys.mem modStart.toNat modEnd.toNat k →
    (∀ j < k, ¬ CompleteHeader s.phys.mem modStart.toNat modEnd.toNat j) →
      (parseTask pool s modStart modEnd).1 =
          addTask pool s (headerTask s.phys.mem (modStart.toNat + 8 * k)) ∧
        (parseTask pool s modStart modEnd).1.sched.fifoSize = s.sched.fifoSize + 1
  unchanged : s.sched.fifoSize = TASK_FIFO_LEN ∨
      (∀ k, ¬ CompleteHeader s.phys.mem modStart.toNat modEnd.toNat k) →
    (parseTask pool s modStart modEnd).1.sched.fifo = s.sched.fifo ∧
      (parseTask pool s modStart modEnd).1.sched.fifoSize = s.sched.fifoSize

/-- What the loop does from `ptr` on: it stops at the first word that is the magic value, or
behind the last word that starts in the module. -/
inductive Scanned (mem : Mem) (stop ptr : Nat) : Nat × List Nat → Prop
  | found (n : Nat) (hbefore : ∀ j < n, read64 mem (ptr + 8 * j) ≠ TASK_HEADER_MAGIC)
      (hin : ptr + 8 * n < stop) (hmagic : read64 mem (ptr + 8 * n) = TASK_HEADER_MAGIC) :
      Scanned mem stop ptr (ptr + 8 * n, (List.range (n + 1)).map (ptr + 8 * ·))
  | absent (n : Nat) (hbefore : ∀ j < n, read64 mem (ptr + 8 * j) ≠ TASK_HEADER_MAGIC)
      (hin : ∀ j < n, ptr + 8 * j < stop) (hout : stop ≤ ptr + 8 * n) :
      Scanned mem stop ptr (ptr + 8 * n, (List.range n).map (ptr + 8 * ·))

theorem forall_lt_succ {p : Nat → Prop} {n : Nat} (h0 : p 0) (h : ∀ j < n, p (j + 1)) :
    ∀ j < n + 1, p j := by
  intro j hj
  cases j with
  | zero => exact h0
  | succ j => exact h j (by omega)

/-- One more word in front. -/
theorem Scanned.cons {mem : Mem} {stop ptr : Nat} {r : Nat × List Nat} (hlt : ptr < stop)
    (hmagic : read64 mem ptr ≠ TASK_HEADER_MAGIC) (h : Scanned mem stop (ptr + 8) r) :
    Scanned mem stop ptr (r.1, ptr :: r.2) := by
  have hshift : ∀ j, ptr + 8 + 8 * j = ptr + 8 * (j + 1) := fun j => by omega
  have hreads : ∀ n, ptr :: (List.range n).map (ptr + 8 + 8 * ·) =
      (List.range (n + 1)).map (ptr + 8 * ·) := by
    intro n
    simp [List.range_succ_eq_map, List.map_map, Function.comp_def, hshift]
  cases h with
  | found n hbefore hin hfound =>
    rw [hreads, hshift]
    rw [hshift] at hin hfound
    refine .found (n + 1) (forall_lt_succ hmagic fun j hj => ?_) hin hfound
    exact hshift j ▸ hbefore j hj
  | absent n hbefore hin hout =>
    rw [hreads, hshift]
    refine .absent (n + 1) (forall_lt_succ hmagic fun j hj => ?_)
      (forall_lt_succ hlt fun j hj => ?_) (by omega)
    · exact hshift j ▸ hbefore j hj
    · exact hshift j ▸ hin j hj

theorem scanned_scan (mem : Mem) (stop : Nat) :
    ∀ (turns ptr : Nat), stop ≤ ptr + turns → Scanned mem stop ptr (scan mem stop turns ptr) := by
  intro turns
  induction turns with
  | zero =>
    intro ptr h
    exact .absent 0 (by simp) (by simp) (by omega)
  | succ turns ih =>
    intro ptr h
    unfold scan
    by_cases hlt : ptr < stop
    · rw [if_pos hlt]
      by_cases hmagic : read64 mem ptr = TASK_HEADER_MAGIC
      · rw [if_pos hmagic]
        exact .found 0 (by simp) hlt hmagic
      · rw [if_neg hmagic]
        exact (ih (ptr + 8) (by omega)).cons hlt hmagic
    · rw [if_neg hlt]
      exact .absent 0 (by simp) (by simp) (by omega)

/-- The modules that the loop is right for: those with a complete header, and those of whole words
without the magic value. -/
def Scannable (mem : Mem) (start stop : Nat) : Prop :=
  start ≤ stop ∧ ((∃ k, CompleteHeader mem start stop k) ∨
    (stop - start) % 8 = 0 ∧ ∀ k, start + 8 * k < stop →
      read64 mem (start + 8 * k) ≠ TASK_HEADER_MAGIC)

theorem addTask_fifoSize {pool : Nat} {s : System} {image : Task}
    (hroom : s.sched.fifoSize ≠ TASK_FIFO_LEN) :
    (addTask pool s image).sched.fifoSize = s.sched.fifoSize + 1 := by
  simp only [addTask, if_neg hroom]

section ParseTask

variable {pool : Nat} {s : System} {modStart modEnd : BitVec 32}

theorem parseTask_of_full (pool : Nat) (modStart modEnd : BitVec 32)
    (hfull : s.sched.fifoSize = TASK_FIFO_LEN) : parseTask pool s modStart modEnd = (s, []) :=
  if_pos hfull

/-- With room in the FIFO, the end of the scan decides. -/
theorem parseTask_of_room (pool : Nat) (modStart modEnd : BitVec 32)
    (hroom : s.sched.fifoSize ≠ TASK_FIFO_LEN) :
    ∃ r, Scanned s.phys.mem modEnd.toNat modStart.toNat r ∧
      parseTask pool s modStart modEnd =
        if r.1 = modEnd.toNat then (s, r.2)
        else (addTask pool s (headerTask s.phys.mem r.1), r.2 ++ headerReads r.1) :=
  ⟨_, scanned_scan _ _ _ _ (by omega), if_neg hroom⟩

/-- A scan that ends elsewhere than at the end of the module reads a header there. -/
theorem entryAddr_mem {r : Nat × List Nat}
    (h : parseTask pool s modStart modEnd = (addTask pool s (headerTask s.phys.mem r.1),
      r.2 ++ headerReads r.1)) : r.1 + 40 ∈ (parseTask pool s modStart modEnd).2 := by
  simp [h, headerReads]

theorem scannable_of_recognises (hroom : s.sched.fifoSize ≠ TASK_FIFO_LEN)
    (h : Recognises pool s modStart modEnd) :
    Scannable s.phys.mem modStart.toNat modEnd.toNat := by
  obtain ⟨r, hscan, hparse⟩ := parseTask_of_room pool modStart modEnd hroom
  have hheader : r.1 ≠ modEnd.toNat → r.1 + 48 ≤ modEnd.toNat := by
    intro hne
    rw [if_neg hne] at hparse
    exact h.reads _ (entryAddr_mem hparse)
  cases hscan with
  | found n hbefore hin hmagic =>
    have hend := hheader (by dsimp only; omega)
    exact ⟨by omega, .inl ⟨n, hmagic, hend⟩⟩
  | absent n hbefore hin hout =>
    have heq : modStart.toNat + 8 * n = modEnd.toNat := by
      by_contra hne
      have hend := hheader hne
      dsimp only at hend
      omega
    refine ⟨by omega, .inr ⟨by omega, fun k hk => hbefore k (by omega)⟩⟩

/-- The first magic value belongs to a complete header. -/
theorem recognises_of_complete (hroom : s.sched.fifoSize ≠ TASK_FIFO_LEN) {k : Nat}
    (hk : CompleteHeader s.phys.mem modStart.toNat modEnd.toNat k) :
    Recognises pool s modStart modEnd := by
  obtain ⟨r, hscan, hparse⟩ := parseTask_of_room pool modStart modEnd hroom
  obtain ⟨hmagic', hend'⟩ := hk
  cases hscan with
  | absent n hbefore hin hout =>
    exact absurd hmagic' (hbefore k (by omega))
  | found n hbefore hin hmagic =>
    have hle : n ≤ k := by
      by_contra hlt
      exact hbefore k (by omega) hmagic'
    rw [if_neg (by dsimp only; omega)] at hparse
    have hcomplete : CompleteHeader s.phys.mem modStart.toNat modEnd.toNat n :=
      ⟨hmagic, by omega⟩
    constructor
    · rw [hparse]
      intro a ha
      rcases List.mem_append.mp ha with hscan | hheader
      · obtain ⟨j, hj, rfl⟩ := List.mem_map.mp hscan
        rw [List.mem_range] at hj
        omega
      · simp only [headerReads, List.mem_cons, List.not_mem_nil, or_false] at hheader
        omega
    · intro k' _ hfirst hnone
      have heq : k' = n := by
        by_contra hne
        rcases Nat.lt_or_gt_of_ne hne with hlt | hgt
        · exact hbefore k' hlt hfirst.1
        · exact hnone n hgt hcomplete
      rw [heq, hparse]
      exact ⟨rfl, addTask_fifoSize hroom⟩
    · rintro (hfull | hnone)
      · exact absurd hfull hroom
      · exact absurd hcomplete (hnone n)

/-- A module of whole words without the magic value is read to its end. -/
theorem recognises_of_absent (hroom : s.sched.fifoSize ≠ TASK_FIFO_LEN)
    (hle : modStart.toNat ≤ modEnd.toNat) (hmod : (modEnd.toNat - modStart.toNat) % 8 = 0)
    (hnone : ∀ k, modStart.toNat + 8 * k < modEnd.toNat →
      read64 s.phys.mem (modStart.toNat + 8 * k) ≠ TASK_HEADER_MAGIC) :
    Recognises pool s modStart modEnd := by
  obtain ⟨r, hscan, hparse⟩ := parseTask_of_room pool modStart modEnd hroom
  cases hscan with
  | found n hbefore hin hmagic => exact absurd hmagic (hnone n hin)
  | absent n hbefore hin hout =>
    have heq : modStart.toNat + 8 * n = modEnd.toNat := by
      cases n with
      | zero => omega
      | succ n =>
        have hlast := hin n (Nat.lt_succ_self n)
        omega
    rw [if_pos heq] at hparse
    constructor
    · rw [hparse]
      intro a ha
      obtain ⟨j, hj, rfl⟩ := List.mem_map.mp ha
      have hlt := hin j (List.mem_range.mp hj)
      omega
    · intro k _ hcomplete _
      exact absurd hcomplete.1 (hnone k (by have := hcomplete.2; omega))
    · intro _
      rw [hparse]
      exact ⟨rfl, rfl⟩

end ParseTask

/-- `parse_task` is right exactly if the FIFO is full, or the loop is right for the module. -/
theorem recognises_iff (pool : Nat) (s : System) (modStart modEnd : BitVec 32) :
    Recognises pool s modStart modEnd ↔
      s.sched.fifoSize = TASK_FIFO_LEN ∨
        Scannable s.phys.mem modStart.toNat modEnd.toNat := by
  by_cases hfull : s.sched.fifoSize = TASK_FIFO_LEN
  · refine iff_of_true ?_ (.inl hfull)
    have hparse := parseTask_of_full pool modStart modEnd hfull
    refine ⟨?_, fun k hroom => absurd hfull hroom, fun _ => ?_⟩
    · simp [hparse]
    · rw [hparse]
      exact ⟨rfl, rfl⟩
  · constructor
    · exact fun h => .inr (scannable_of_recognises hfull h)
    · rintro (h | ⟨hle, ⟨k, hk⟩ | ⟨hmod, hnone⟩⟩)
      · exact absurd h hfull
      · exact recognises_of_complete hfull hk
      · exact recognises_of_absent hfull hle hmod hnone

/-- A module of four bytes: a whole word is read, and a task is made of what lies behind. -/
theorem recognises_not_of_four :
    ¬ ∀ (pool : Nat) (s : System) (modStart modEnd : BitVec 32),
      modStart.toNat ≤ modEnd.toNat → Recognises pool s modStart modEnd := by
  intro h
  let s : System := ⟨⟨fun _ => 0, [0]⟩, ⟨.zero, fun _ => ⟨0, 0, 0, 0, 0, .zero⟩, 0, 0, 0, .zero⟩⟩
  have hreads : (parseTask 0x180000 s 0x1000 0x1004).2 = 0x1000 :: headerReads 0x1008 := by decide
  have hinside := (h 0x180000 s 0x1000 0x1004 (by decide)).reads 0x1000
    (hreads ▸ List.mem_cons_self)
  exact absurd hinside (by decide)

end KernelMemVirt.Rackdoll
