import KernelMemVirt.Lib.Transition
import KernelMemVirt.Rackdoll.PageTable

/-!
# Paging in the guest of Janus

`map_page`, `unmap_page`, `mmap`, `munmap` and `pgfault` of `guest/memory.c`, on a machine
that caches translations.  `alloc_page` and `free_page` are those of Rackdoll, and so is
the page walk of the processor.  The guest reaches its own tables and pages through the
identity mapping of its first 2 MiB, which never changes.

An access uses the cached translation of its page, or the one that it finds in the
tables, which it may cache.  A cached translation carries a mark, `removed`, that
`unmap_page` sets when it takes away the entry that the translation was read from.

`invlpg` is given an operand in memory.  The operand of the wrapper in `x86.h` is its own
variable `vaddr`, so the page that is dropped from the cache is the page of the stack where
that variable is; an event of the model carries its address.
-/

namespace KernelMemVirt.Janus.Guest

open ByteMem Transition
open Rackdoll (PageError Translation translate allocPage freePage)

abbrev Word := BitVec 64

abbrev PAGE_SHIFT : Nat := 12

abbrev PGD_SHIFT : Nat := 9

abbrev PGD_MASK : Word := 0x1ff

abbrev PTE_ADDR : Word := 0xffffffffffff000

abbrev PAGE_MASK : Word := 0xfffffffffffff000

/-- `PTE_U | PTE_W | PTE_P`. -/
abbrev PTE_UWP : Word := 0x7

/-! ## The machine -/

/-- The page of an address, of which 48 bits are translated. -/
def pageOf (vaddr : Word) : Nat := vaddr.toNat % 2 ^ 48 / 4096

/-- A translation in the cache: the frame, and the entry that it was read from. -/
structure Cached where
  frame : Nat
  leaf : Word
  removed : Bool
  deriving DecidableEq

/-- The physical memory of the guest, its `bitset`, CR3, and the cached translations. -/
structure Machine where
  mem : Mem
  bitset : List Word
  cr3 : Word
  tlb : Nat → Option Cached

namespace Machine

variable (s : Machine)

/-- The translation that an access uses. -/
def lookup (vaddr : Word) : Option Cached :=
  match s.tlb (pageOf vaddr) with
  | some c => some c
  | none => (translate s.mem s.cr3 vaddr.toNat).map fun t => ⟨t.paddr / 4096, t.leaf, false⟩

/-- The instruction `invlpg`, with the address of its operand. -/
def invlpgInstruction (operand : Word) : Machine :=
  { s with tlb := Function.update s.tlb (pageOf operand) none }

/-- Mark the cached translation of a page if it was read from the entry `leaf`. -/
def markRemoved (vaddr leaf : Word) : Machine :=
  { s with
    tlb := Function.update s.tlb (pageOf vaddr)
      ((s.tlb (pageOf vaddr)).map fun c =>
        if c.leaf = leaf then { c with removed := true } else c) }

/-! ## The source -/

/-- The wrapper `invlpg`; `operand` is the address of its variable `vaddr`. -/
def invlpg (_vaddr operand : Word) : Machine := s.invlpgInstruction operand

/-- `&pgd[idx]` at level `lvl`. -/
def entryAddr (pgd vaddr : Word) (lvl : Nat) : Nat :=
  (pgd + 8 * (vaddr >>> (PAGE_SHIFT + PGD_SHIFT * lvl) &&& PGD_MASK)).toNat

variable (pool : Nat)

/-- `alloc_page`. -/
def alloc : Machine × Word :=
  let (bitset, page) := allocPage pool s.bitset
  ({ s with bitset }, page)

/-- The loop of `map_page`, for levels `lvl` down to 1. -/
def descend (vaddr : Word) : Nat → Machine → Word → Machine × Word
  | 0, s, pgt => (s, pgt)
  | lvl + 1, s, pgt =>
    let p := entryAddr pgt vaddr (lvl + 1)
    if read64 s.mem p &&& 1 = 0 then
      let (s, new) := s.alloc pool
      descend vaddr lvl { s with mem := write64 s.mem p ((new &&& PTE_ADDR) ||| PTE_UWP) } new
    else descend vaddr lvl s (read64 s.mem p &&& PTE_ADDR)

def mapPage (vaddr paddr : Word) : Machine :=
  let (s, pgt) := descend pool vaddr 3 s (s.cr3 &&& PTE_ADDR)
  { s with mem := write64 s.mem (entryAddr pgt vaddr 0) ((paddr &&& PTE_ADDR) ||| PTE_UWP) }

/-- The loop of `unmap_page`, for levels `lvl` down to 1; `none` is its early return. -/
def follow (mem : Mem) (vaddr : Word) : Nat → Word → Option Word
  | 0, pgt => some pgt
  | lvl + 1, pgt =>
    let e := read64 mem (entryAddr pgt vaddr (lvl + 1))
    if e &&& 1 = 0 then none else follow mem vaddr lvl (e &&& PTE_ADDR)

/-- The entry that `unmap_page` clears. -/
def leafAddr (vaddr : Word) : Option Nat := do
  let pgt ← follow s.mem vaddr 3 (s.cr3 &&& PTE_ADDR)
  let p := entryAddr pgt vaddr 0
  if read64 s.mem p &&& 1 = 0 then none else some p

/-- `unmap_page`, with the address of the variable in `invlpg`. -/
def unmapPage (vaddr operand : Word) : Machine × Word :=
  match s.leafAddr vaddr with
  | none => (s, 0)
  | some p =>
    let leaf := read64 s.mem p
    let s := { s with mem := write64 s.mem p 0 }.markRemoved vaddr leaf
    (s.invlpg vaddr operand, leaf &&& PTE_ADDR)

def mmap (vaddr : Word) : Machine :=
  let (s, new) := s.alloc pool
  { s with mem := fill s.mem new.toNat 0 4096 }.mapPage pool vaddr new

def munmap (vaddr operand : Word) : Except PageError Machine :=
  let (s, pte) := s.unmapPage vaddr operand
  if pte = 0 then .ok s
  else (freePage pool s.bitset pte).map fun bitset => { s with bitset }

/-- `pgfault`, with the address in CR2. -/
def pgfault (fault : Word) : Except PageError Machine :=
  if fault < 0x100000000 ∨ 0x700000000000 ≤ fault then .error .die
  else .ok (s.mmap pool (fault &&& PAGE_MASK))

end Machine

/-! ## Runs -/

/-- A step of the guest.  An access may store a byte, and may cache its translation; the
processor may drop a translation at any time. -/
inductive Event
  | access (vaddr : Word) (store : Option (BitVec 8)) (cache : Bool)
  | evict (page : Nat)
  | mapPage (vaddr paddr : Word)
  | unmapPage (vaddr operand : Word)
  | mmap (vaddr : Word)
  | munmap (vaddr operand : Word)

namespace Machine

variable (s : Machine)

/-- The access of a byte, with the translation `c`. -/
def access (vaddr : Word) (store : Option (BitVec 8)) (cache : Bool) (c : Cached) : Machine :=
  let mem :=
    match store with
    | some b => Function.update s.mem (c.frame * 4096 + vaddr.toNat % 4096) b
    | none => s.mem
  let tlb := if cache then Function.update s.tlb (pageOf vaddr) (some c) else s.tlb
  { s with mem, tlb }

/-- A step; `none` is the end of the guest.  An access without a translation is a page
fault. -/
def step (pool : Nat) (s : Machine) : Event → Option Machine
  | .access vaddr store cache =>
    match s.lookup vaddr with
    | some c => some (s.access vaddr store cache c)
    | none => (s.pgfault pool vaddr).toOption
  | .evict page => some { s with tlb := Function.update s.tlb page none }
  | .mapPage vaddr paddr => some (s.mapPage pool vaddr paddr)
  | .unmapPage vaddr operand => some (s.unmapPage vaddr operand).1
  | .mmap vaddr => some (s.mmap pool vaddr)
  | .munmap vaddr operand => (s.munmap pool vaddr operand).toOption

end Machine

/-! ## The cached translations -/

namespace Machine

variable {s s' : Machine} {pool : Nat} {vaddr operand : Word}

/-- No access uses a translation that `unmap_page` has removed. -/
def Coherent (s : Machine) : Prop := ∀ vaddr c, s.lookup vaddr = some c → c.removed = false

/-- A translation that is read from the tables is not a removed one. -/
theorem coherent_iff :
    s.Coherent ↔ ∀ vaddr c, s.tlb (pageOf vaddr) = some c → c.removed = false := by
  refine ⟨fun h vaddr c hc => h vaddr c (by rw [lookup, hc]), fun h vaddr c hc => ?_⟩
  unfold lookup at hc
  split at hc
  · next c' hc' =>
    obtain rfl := Option.some.inj hc
    exact h vaddr c' hc'
  · obtain ⟨t, -, rfl⟩ := Option.map_eq_some_iff.mp hc
    rfl

theorem coherent_congr (h : s.Coherent) (htlb : s'.tlb = s.tlb) : s'.Coherent := by
  rw [coherent_iff] at h ⊢
  rw [htlb]
  exact h

theorem descend_tlb {lvl : Nat} {pgt : Word} : (descend pool vaddr lvl s pgt).1.tlb = s.tlb := by
  induction lvl generalizing s pgt with
  | zero => rfl
  | succ lvl ih =>
    unfold descend
    dsimp only
    split
    · exact ih
    · exact ih

theorem mapPage_tlb {paddr : Word} : (s.mapPage pool vaddr paddr).tlb = s.tlb :=
  show (descend pool vaddr 3 s (s.cr3 &&& PTE_ADDR)).1.tlb = s.tlb from descend_tlb

theorem mmap_tlb : (s.mmap pool vaddr).tlb = s.tlb :=
  Eq.trans mapPage_tlb rfl

/-- An access may cache the translation that it uses. -/
theorem Coherent.access (h : s.Coherent) {store : Option (BitVec 8)} {cache : Bool} {c : Cached}
    (hc : s.lookup vaddr = some c) : (s.access vaddr store cache c).Coherent := by
  have hremoved := h vaddr c hc
  rw [coherent_iff] at h ⊢
  intro v c' hc'
  unfold Machine.access at hc'
  dsimp only at hc'
  split at hc'
  · by_cases hv : pageOf v = pageOf vaddr
    · rw [hv, Function.update_self] at hc'
      obtain rfl := Option.some.inj hc'
      exact hremoved
    · rw [Function.update_of_ne hv] at hc'
      exact h v c' hc'
  · exact h v c' hc'

/-- The translation that `unmap_page` removes is not cached, or the variable of `invlpg` is
in its page. -/
def Flushes (s : Machine) (vaddr operand : Word) : Prop :=
  ∀ p c, s.leafAddr vaddr = some p → s.tlb (pageOf vaddr) = some c → c.leaf = read64 s.mem p →
    pageOf operand = pageOf vaddr

/-- `unmap_page` keeps the accesses coherent exactly if it drops the translation. -/
theorem coherent_unmapPage_iff (h : s.Coherent) :
    (s.unmapPage vaddr operand).1.Coherent ↔ s.Flushes vaddr operand := by
  rw [coherent_iff] at h
  unfold unmapPage Flushes
  rcases hleaf : s.leafAddr vaddr with _ | p
  · exact ⟨fun _ p c hp => (nomatch hp), fun _ => coherent_iff.mpr h⟩
  dsimp only [invlpg, invlpgInstruction, markRemoved]
  rw [coherent_iff]
  dsimp only
  constructor
  · intro hnext p' c hp hc heq
    obtain rfl := Option.some.inj hp
    by_contra hne
    have hmark := hnext vaddr { c with removed := true }
    rw [Function.update_of_ne (Ne.symm hne), Function.update_self, hc, Option.map_some,
      if_pos heq] at hmark
    exact Bool.noConfusion (hmark rfl)
  · intro hflush v c hc
    by_cases hv : pageOf v = pageOf operand
    · rw [hv, Function.update_self] at hc
      cases hc
    rw [Function.update_of_ne hv] at hc
    by_cases hpage : pageOf v = pageOf vaddr
    · rw [hpage, Function.update_self] at hc
      obtain ⟨c', hc', rfl⟩ := Option.map_eq_some_iff.mp hc
      split
      · next heq => exact absurd (hpage.trans (hflush p c' rfl hc' heq).symm) hv
      · exact h vaddr c' hc'
    · rw [Function.update_of_ne hpage] at hc
      exact h v c hc

/-- After the step no access uses a removed translation. -/
def StaysCoherent (pool : Nat) (s : Machine) (e : Event) : Prop :=
  ∀ s', s.step pool e = some s' → s'.Coherent

/-- If the step unmaps an address and returns, it drops the translation. -/
def StepFlushes (pool : Nat) (s : Machine) (e : Event) : Prop :=
  ∀ s', s.step pool e = some s' →
    match e with
    | .unmapPage vaddr operand => s.Flushes vaddr operand
    | .munmap vaddr operand => s.Flushes vaddr operand
    | _ => True

theorem staysCoherent_iff (h : s.Coherent) (e : Event) :
    StaysCoherent pool s e ↔ StepFlushes pool s e := by
  unfold StaysCoherent StepFlushes
  refine forall_congr' fun s' => forall_congr' fun hs' => ?_
  cases e with
  | access vaddr store cache =>
    refine iff_of_true ?_ trivial
    rw [step] at hs'
    split at hs'
    · next c hc =>
      obtain rfl := Option.some.inj hs'
      exact h.access hc
    · unfold pgfault at hs'
      split at hs'
      · cases hs'
      · obtain rfl := Option.some.inj hs'
        exact coherent_congr h mmap_tlb
  | evict page =>
    refine iff_of_true ?_ trivial
    obtain rfl := Option.some.inj hs'
    rw [coherent_iff] at h ⊢
    intro v c hc
    dsimp only at hc
    by_cases hv : pageOf v = page
    · rw [hv, Function.update_self] at hc
      cases hc
    · rw [Function.update_of_ne hv] at hc
      exact h v c hc
  | mapPage vaddr paddr =>
    obtain rfl := Option.some.inj hs'
    exact iff_of_true (coherent_congr h mapPage_tlb) trivial
  | unmapPage vaddr operand =>
    obtain rfl := Option.some.inj hs'
    exact coherent_unmapPage_iff h
  | mmap vaddr =>
    obtain rfl := Option.some.inj hs'
    exact iff_of_true (coherent_congr h mmap_tlb) trivial
  | munmap vaddr operand =>
    have htlb : s'.tlb = (s.unmapPage vaddr operand).1.tlb := by
      unfold step munmap at hs'
      dsimp only at hs'
      split at hs'
      · obtain rfl := Option.some.inj hs'
        rfl
      · cases hfree : freePage pool (s.unmapPage vaddr operand).1.bitset
          (s.unmapPage vaddr operand).2 with
        | error e =>
          rw [hfree] at hs'
          cases hs'
        | ok bitset =>
          rw [hfree] at hs'
          obtain rfl := Option.some.inj hs'
          rfl
    refine Iff.trans ?_ (coherent_unmapPage_iff h)
    exact ⟨fun h' => coherent_congr h' htlb.symm, fun h' => coherent_congr h' htlb⟩

/-- A machine whose cached translations have not been removed. -/
def start (mem : Mem) (bitset : List Word) (cr3 : Word) (cache : Nat → Option (Nat × Word)) :
    Machine where
  mem := mem
  bitset := bitset
  cr3 := cr3
  tlb page := (cache page).map fun c => ⟨c.1, c.2, false⟩

theorem coherent_start (mem : Mem) (bitset : List Word) (cr3 : Word)
    (cache : Nat → Option (Nat × Word)) : (start mem bitset cr3 cache).Coherent := by
  rw [coherent_iff]
  intro vaddr c hc
  obtain ⟨c', -, rfl⟩ := Option.map_eq_some_iff.mp hc
  rfl

end Machine

/-- In every run, no access after a step uses a translation that `unmap_page` has removed,
exactly if every `unmap_page` drops the translation that it removes: it is not cached, or the
variable `vaddr` of `invlpg` is in its page. -/
theorem coherent_iff_of_run (pool : Nat) (mem : Mem) (bitset : List Word) (cr3 : Word)
    (cache : Nat → Option (Nat × Word)) (es : List Event) :
    RunOk (Machine.step pool) (Machine.StaysCoherent pool) (.start mem bitset cr3 cache) es ↔
      RunOk (Machine.step pool) (Machine.StepFlushes pool) (.start mem bitset cr3 cache) es := by
  refine @runOk_iff_of_ok _ _ _ (fun _ _ => True) Machine.Coherent _ _ ?_ ?_ es _
    (Machine.coherent_start mem bitset cr3 cache) (runOk_true es _)
  · exact fun s e hs _ => Machine.staysCoherent_iff hs e
  · exact fun s e s' hs _ hflush hs' => (Machine.staysCoherent_iff hs e).mpr hflush s' hs'

/-- A page is mapped, read and unmapped, with the variable of `invlpg` on the boot stack. -/
theorem not_coherent_of_munmap :
    ¬ ∀ s, run (Machine.step 0x110000) (.start (fun _ => 0) [0] 0x101000 fun _ => none)
        [.mmap 0x200000, .access 0x200000 none true, .munmap 0x200000 0x10fff0] = some s →
      s.Coherent := by
  intro h
  have hstale : (run (Machine.step 0x110000) (.start (fun _ => 0) [0] 0x101000 fun _ => none)
      [.mmap 0x200000, .access 0x200000 none true, .munmap 0x200000 0x10fff0]).bind
        (fun s => s.lookup 0x200000) = some ⟨0x110, 0x110007, true⟩ := by
    decide +kernel
  obtain ⟨s, hs, hlookup⟩ := Option.bind_eq_some_iff.mp hstale
  exact Bool.noConfusion (h s hs _ _ hlookup)

end KernelMemVirt.Janus.Guest
