import KernelMemVirt.Lib.Bitset
import KernelMemVirt.Lib.Sieve
import Mathlib.Data.List.GetD

/-!
# The sieve task

`task/sieve.c`: two arrays in the heap of a task.  A call of `filter` copies from one to the other
what a pass of the sieve leaves, then the first is cleared, by mapping new pages, and the two are
swapped.

* `Heap` is the heap as the task sees it.  An access to a page that is not mapped stops the task.
* `filter_spec` says that `filter` is a pass of `Sieve.sift`, from one array to another that holds
  nothing but zeros.  `reallocArray_spec` says that this is what the first array holds afterwards.
* `entryLoop_spec` is the loop with the swaps, and `entry_spec` the task.

Sizes, addresses and entries are natural numbers.  `toNat_pageBytes64` says that the 64 bits of the
source do not matter to an array that they can address.
-/

namespace KernelMemVirt.Rackdoll.SieveTask

open Sieve

/-! ## The heap -/

abbrev PAGE_SIZE : Nat := 4096

/-- The pages that are mapped, by their numbers, and the `unsigned long` at an address. -/
structure Heap where
  mapped : Nat → Bool
  word : Nat → Nat

namespace Heap

variable (h : Heap)

/-- `syscall_mmap`: the page of an address reads as zero. -/
def mmap (vaddr : Nat) : Heap where
  mapped := Function.update h.mapped (vaddr / PAGE_SIZE) true
  word x := if x / PAGE_SIZE = vaddr / PAGE_SIZE then 0 else h.word x

/-- `syscall_munmap`. -/
def munmap (vaddr : Nat) : Heap :=
  { h with mapped := Function.update h.mapped (vaddr / PAGE_SIZE) false }

def load (addr : Nat) : Option Nat :=
  if h.mapped (addr / PAGE_SIZE) then some (h.word addr) else none

def store (addr value : Nat) : Option Heap :=
  if h.mapped (addr / PAGE_SIZE) then some { h with word := Function.update h.word addr value }
  else none

end Heap

/-! ## The source -/

/-- The variable `n` of `number_array` and of `realloc_array`, before their loops. -/
def pageBytes (max : Nat) : Nat :=
  let n := max * 8
  if n % PAGE_SIZE ≠ 0 then (n + PAGE_SIZE) / PAGE_SIZE * PAGE_SIZE else n

/-- The loop of `number_array` over the pages.  The last argument counts the turns, as in all the
loops here. -/
def mmapLoop (h : Heap) (heap : Nat) : Nat → Heap × Nat
  | 0 => (h, heap)
  | n + 1 => mmapLoop (h.mmap heap) (heap + PAGE_SIZE) n

/-- The loop of `number_array` over the entries. -/
def initLoop (h : Heap) (ret i : Nat) : Nat → Option Heap
  | 0 => some h
  | n + 1 => do
    let h ← h.store (ret + 8 * i) i
    initLoop h ret (i + 1) n

/-- `number_array`: the array, with the static `heap` after it. -/
def numberArray (h : Heap) (heap max : Nat) (init : Bool) : Option (Nat × Nat × Heap) :=
  let ret := heap
  let (h, heap) := mmapLoop h heap (pageBytes max / PAGE_SIZE)
  if init = false then some (ret, heap, h)
  else do
    let h ← initLoop h ret 0 max
    some (ret, heap, h)

/-- The loop of `realloc_array`. -/
def reallocLoop (h : Heap) (addr : Nat) : Nat → Heap
  | 0 => h
  | n + 1 => reallocLoop ((h.munmap addr).mmap addr) (addr + PAGE_SIZE) n

def reallocArray (h : Heap) (arr max : Nat) : Heap := reallocLoop h arr (pageBytes max / PAGE_SIZE)

/-- The first loop of `filter`, whose arguments are `to` and `from` in the source. -/
def copyLoop (h : Heap) (dst src i : Nat) : Nat → Option Heap
  | 0 => some h
  | n + 1 => do
    let value ← h.load (src + 8 * i)
    let h ← h.store (dst + 8 * i) value
    copyLoop h dst src (i + 1) n

/-- The loop of `filter` over `j`, with the `j` at its end.  A division by zero stops the task. -/
def testLoop (h : Heap) (src i j : Nat) : Nat → Option Nat
  | 0 => some j
  | n + 1 => do
    let value ← h.load (src + 8 * i)
    let divisor ← h.load (src + 8 * j)
    if divisor = 0 then none
    else if value % divisor = 0 then some j
    else testLoop h src i (j + 1) n

/-- The loop of `filter` over `i`, with `n` at its end. -/
def filterLoop (h : Heap) (dst src index i n : Nat) : Nat → Option (Nat × Heap)
  | 0 => some (n, h)
  | turns + 1 => do
    let j ← testLoop h src i 2 (index - 2)
    if index ≤ j then do
      let value ← h.load (src + 8 * i)
      let h ← h.store (dst + 8 * n) value
      filterLoop h dst src index (i + 1) (n + 1) turns
    else filterLoop h dst src index (i + 1) n turns

def filter (h : Heap) (dst src index len : Nat) : Option (Nat × Heap) := do
  let h ← copyLoop h dst src 0 index
  filterLoop h dst src index index index (len - index)

/-- The variables of `entry`, with the heap. -/
structure Vars where
  heap : Heap
  flip : Nat
  flop : Nat
  index : Nat
  len : Nat

/-- The loop of `entry`, or nothing if it needs more turns.  `syscall_yield` leaves the heap of the
task as it is. -/
def entryLoop (max : Nat) : Nat → Vars → Option Vars
  | 0, _ => none
  | turns + 1, s =>
    if s.index < s.len then do
      let (len, h) ← filter s.heap s.flop s.flip s.index s.len
      let h := reallocArray h s.flip max
      entryLoop max turns ⟨h, s.flop, s.flip, s.index + 1, len⟩
    else some s

/-- The loop that counts. -/
def countLoop (h : Heap) (flip i num : Nat) : Nat → Option Nat
  | 0 => some num
  | n + 1 => do
    let value ← h.load (flip + 8 * i)
    countLoop h flip (i + 1) (if value ≠ 0 then num + 1 else num) n

/-- The symbol `__bss_end`, which the linker script aligns to a page. -/
structure BssEnd where
  addr : Nat
  aligned : addr % PAGE_SIZE = 0

/-- `entry`, up to the message: the variables after the loop, and `num`. -/
def entry (bssEnd : BssEnd) (max turns : Nat) (h : Heap) : Option (Vars × Nat) := do
  let (flip, heap, h) ← numberArray h bssEnd.addr max true
  let (flop, _, h) ← numberArray h heap max false
  let s ← entryLoop max turns ⟨h, flip, flop, 0, max⟩
  let num ← countLoop s.heap s.flip 0 0 max
  some (s, num)

/-! ## Sizes -/

theorem le_pageBytes (max : Nat) : 8 * max ≤ pageBytes max := by
  unfold pageBytes PAGE_SIZE
  dsimp only
  split <;> omega

theorem pageBytes_mod (max : Nat) : pageBytes max % PAGE_SIZE = 0 := by
  unfold pageBytes PAGE_SIZE
  dsimp only
  split <;> omega

/-- `n` in the 64 bits of the source. -/
def pageBytes64 (max : BitVec 64) : BitVec 64 :=
  let n := max * 8
  if n &&& 0xfff ≠ 0 then (n + 0x1000) &&& ~~~0xfff else n

/-- The number of bytes does not wrap if the array ends before the last page. -/
theorem toNat_pageBytes64 {max : BitVec 64} (hmax : max.toNat * 8 + PAGE_SIZE < 2 ^ 64) :
    (pageBytes64 max).toNat = pageBytes max.toNat := by
  unfold PAGE_SIZE at hmax
  have hbytes : (max * 8).toNat = max.toNat * 8 := by
    rw [BitVec.toNat_mul, show (8 : BitVec 64).toNat = 8 from rfl]
    omega
  have hlow : (max * 8) &&& 0xfff ≠ 0 ↔ (max.toNat * 8) % 4096 ≠ 0 := by
    have hand : ((max * 8) &&& 0xfff).toNat = (max.toNat * 8) % 4096 := by
      rw [BitVec.toNat_and, hbytes]
      exact Nat.and_two_pow_sub_one_eq_mod _ 12
    rw [ne_eq, ← BitVec.toNat_inj, hand]
    rfl
  have hround : ((max * 8 + 0x1000) &&& ~~~0xfff).toNat =
      (max.toNat * 8 + 4096) / 4096 * 4096 := by
    have hsum : (max * 8 + 0x1000).toNat = max.toNat * 8 + 4096 := by
      rw [BitVec.toNat_add, hbytes]
      exact Nat.mod_eq_of_lt hmax
    rw [Bitset.toNat_and_mask (k := 12) (by decide), hsum]
    rfl
  unfold pageBytes64 pageBytes
  dsimp only
  by_cases hpart : (max.toNat * 8) % 4096 ≠ 0
  · rw [if_pos (hlow.mpr hpart), if_pos hpart, hround]
  · rw [if_neg (mt hlow.mp hpart), if_neg hpart, hbytes]

/-! ## Arrays -/

section Arrays

variable {h : Heap} {max arr : Nat} {l : List Nat}

/-- The array at `arr` holds the numbers of `l`, and zeros behind them. -/
structure Heap.Holds (h : Heap) (max arr : Nat) (l : List Nat) : Prop where
  mapped : ∀ i < max, h.mapped ((arr + 8 * i) / PAGE_SIZE)
  word : ∀ i < max, h.word (arr + 8 * i) = l.getD i 0

/-- Two arrays in pages of their own. -/
structure Layout (max a b : Nat) : Prop where
  left : a % PAGE_SIZE = 0
  right : b % PAGE_SIZE = 0
  apart : a + pageBytes max ≤ b ∨ b + pageBytes max ≤ a

theorem Layout.symm {a b : Nat} (hlayout : Layout max a b) : Layout max b a :=
  ⟨hlayout.right, hlayout.left, hlayout.apart.symm⟩

theorem Layout.ne {a b i j : Nat} (hlayout : Layout max a b) (hi : i < max) (hj : j < max) :
    a + 8 * i ≠ b + 8 * j := by
  have hapart := hlayout.apart
  have hle := le_pageBytes max
  omega

theorem Heap.Holds.load (hl : h.Holds max arr l) {i : Nat} (hi : i < max) :
    h.load (arr + 8 * i) = some (l.getD i 0) := by
  rw [Heap.load, if_pos (hl.mapped i hi), hl.word i hi]

theorem getD_concat (l : List Nat) (value i : Nat) :
    (l ++ [value]).getD i 0 = if i = l.length then value else l.getD i 0 := by
  rcases Nat.lt_trichotomy i l.length with hlt | rfl | hgt
  · rw [if_neg hlt.ne, List.getD_append _ _ _ _ hlt]
  · simp
  · rw [if_neg hgt.ne', List.getD_eq_default _ _ (by simp; omega),
      List.getD_eq_default _ _ hgt.le]

/-- A store behind the numbers that an array holds. -/
theorem Heap.Holds.store (hl : h.Holds max arr l) {i : Nat} (hi : l.length = i) (hroom : i < max)
    (value : Nat) :
    ∃ h', h.store (arr + 8 * i) value = some h' ∧ h'.Holds max arr (l ++ [value]) ∧
      ∀ {b l'}, Layout max arr b → h.Holds max b l' → h'.Holds max b l' := by
  refine ⟨_, if_pos (hl.mapped _ hroom), ⟨hl.mapped, fun k hk => ?_⟩, fun hlayout hb =>
    ⟨hb.mapped, fun k hk => ?_⟩⟩
  · rw [getD_concat]
    by_cases hlast : k = l.length
    · rw [if_pos hlast, hlast, hi]
      exact Function.update_self _ _ _
    · rw [if_neg hlast]
      exact (Function.update_of_ne (by omega) _ _).trans (hl.word k hk)
  · have hne := hlayout.ne hroom hk
    exact (Function.update_of_ne hne.symm _ _).trans (hb.word k hk)

end Arrays

/-! ## Pages -/

section Pages

variable {h : Heap} {max a b n : Nat} {l : List Nat}

/-- It makes no difference that the page has been mapped before. -/
theorem mmap_munmap (vaddr : Nat) : (h.munmap vaddr).mmap vaddr = h.mmap vaddr := by
  simp [Heap.mmap, Heap.munmap]

theorem reallocLoop_eq : reallocLoop h a n = (mmapLoop h a n).1 := by
  induction n generalizing h a with
  | zero => rfl
  | succ n ih => rw [reallocLoop, mmapLoop, mmap_munmap, ih]

theorem mmapLoop_heap : (mmapLoop h a n).2 = a + n * PAGE_SIZE := by
  induction n generalizing h a with
  | zero => simp [mmapLoop]
  | succ n ih =>
    rw [mmapLoop, ih, Nat.succ_mul, Nat.add_assoc, Nat.add_comm PAGE_SIZE]

/-- The addresses in the page that starts at `a`. -/
theorem div_eq_iff (ha : a % PAGE_SIZE = 0) (x : Nat) :
    x / PAGE_SIZE = a / PAGE_SIZE ↔ a ≤ x ∧ x < a + PAGE_SIZE := by
  unfold PAGE_SIZE at *
  omega

/-- A range of addresses is its first page and the rest. -/
theorem inside_iff (a x rest page : Nat) :
    a ≤ x ∧ x < a + (rest + page) ↔
      (a ≤ x ∧ x < a + page) ∨ (a + page ≤ x ∧ x < a + page + rest) := by
  omega

/-- What a program can see of an address: whether its page is mapped, and what it holds. -/
def Heap.see (h : Heap) (x : Nat) : Bool × Nat := (h.mapped (x / PAGE_SIZE), h.word x)

theorem see_mmap (ha : a % PAGE_SIZE = 0) (x : Nat) :
    (h.mmap a).see x = if a ≤ x ∧ x < a + PAGE_SIZE then (true, 0) else h.see x := by
  have hpage := div_eq_iff ha x
  by_cases hin : a ≤ x ∧ x < a + PAGE_SIZE
  · have hmapped : (h.mmap a).mapped (x / PAGE_SIZE) = true := by
      rw [hpage.mpr hin]
      exact Function.update_self _ _ _
    rw [if_pos hin]
    exact Prod.ext hmapped (if_pos (hpage.mpr hin))
  · rw [if_neg hin]
    exact Prod.ext (Function.update_of_ne (mt hpage.mp hin) _ _) (if_neg (mt hpage.mp hin))

theorem see_mmapLoop (ha : a % PAGE_SIZE = 0) (x : Nat) :
    (mmapLoop h a n).1.see x = if a ≤ x ∧ x < a + n * PAGE_SIZE then (true, 0) else h.see x := by
  induction n generalizing h a with
  | zero => exact (if_neg (by omega)).symm
  | succ n ih =>
    have hsplit := inside_iff a x (n * PAGE_SIZE) PAGE_SIZE
    rw [mmapLoop, ih (by rwa [Nat.add_mod_right]), see_mmap ha, Nat.succ_mul]
    by_cases hrest : a + PAGE_SIZE ≤ x ∧ x < a + PAGE_SIZE + n * PAGE_SIZE
    · rw [if_pos hrest, if_pos (hsplit.mpr (Or.inr hrest))]
    · by_cases hfirst : a ≤ x ∧ x < a + PAGE_SIZE
      · rw [if_neg hrest, if_pos hfirst, if_pos (hsplit.mpr (Or.inl hfirst))]
      · rw [if_neg hrest, if_neg hfirst,
          if_neg (fun hin => (hsplit.mp hin).elim hfirst hrest)]

theorem mmapLoop_inside (ha : a % PAGE_SIZE = 0) {x : Nat} (hx : a ≤ x ∧ x < a + n * PAGE_SIZE) :
    (mmapLoop h a n).1.mapped (x / PAGE_SIZE) = true ∧ (mmapLoop h a n).1.word x = 0 :=
  Prod.mk.inj ((see_mmapLoop ha x).trans (if_pos hx))

theorem mmapLoop_outside (ha : a % PAGE_SIZE = 0) {x : Nat}
    (hx : ¬(a ≤ x ∧ x < a + n * PAGE_SIZE)) :
    (mmapLoop h a n).1.mapped (x / PAGE_SIZE) = h.mapped (x / PAGE_SIZE) ∧
      (mmapLoop h a n).1.word x = h.word x :=
  Prod.mk.inj ((see_mmapLoop ha x).trans (if_neg hx))

/-- New pages hold zeros, and what is in other pages stays. -/
theorem mmapLoop_spec (h : Heap) (max : Nat) (ha : a % PAGE_SIZE = 0) :
    (mmapLoop h a (pageBytes max / PAGE_SIZE)).1.Holds max a [] ∧
      ∀ {b l}, Layout max a b → h.Holds max b l →
        (mmapLoop h a (pageBytes max / PAGE_SIZE)).1.Holds max b l := by
  have hle := le_pageBytes max
  have hbytes : pageBytes max / PAGE_SIZE * PAGE_SIZE = pageBytes max :=
    Nat.div_mul_cancel (Nat.dvd_of_mod_eq_zero (pageBytes_mod max))
  have hinside : ∀ i < max, a ≤ a + 8 * i ∧
      a + 8 * i < a + pageBytes max / PAGE_SIZE * PAGE_SIZE := by
    intro i hi
    rw [hbytes]
    omega
  have houtside : ∀ {b}, Layout max a b → ∀ i < max, ¬(a ≤ b + 8 * i ∧
      b + 8 * i < a + pageBytes max / PAGE_SIZE * PAGE_SIZE) := by
    intro b hlayout i hi
    have hapart := hlayout.apart
    rw [hbytes]
    omega
  refine ⟨⟨fun i hi => (mmapLoop_inside ha (hinside i hi)).1, fun i hi =>
      (mmapLoop_inside ha (hinside i hi)).2⟩, fun hlayout hb => ⟨fun i hi => ?_, fun i hi => ?_⟩⟩
  · rw [(mmapLoop_outside ha (houtside hlayout i hi)).1]
    exact hb.mapped i hi
  · rw [(mmapLoop_outside ha (houtside hlayout i hi)).2]
    exact hb.word i hi

/-- `realloc_array` clears an array. -/
theorem reallocArray_spec (h : Heap) (max : Nat) (ha : a % PAGE_SIZE = 0) :
    (reallocArray h a max).Holds max a [] ∧
      ∀ {b l}, Layout max a b → h.Holds max b l → (reallocArray h a max).Holds max b l := by
  rw [reallocArray, reallocLoop_eq]
  exact mmapLoop_spec h max ha

end Pages

/-! ## `number_array` -/

section NumberArray

variable {h : Heap} {max ret heap : Nat}

theorem initLoop_spec {i n : Nat} (hret : h.Holds max ret (List.range i)) (hend : i + n ≤ max) :
    ∃ h', initLoop h ret i n = some h' ∧ h'.Holds max ret (List.range (i + n)) := by
  induction n generalizing h i with
  | zero => exact ⟨h, rfl, hret⟩
  | succ n ih =>
    obtain ⟨h', hstore, hnext, -⟩ := hret.store List.length_range (by omega) i
    rw [← List.range_succ] at hnext
    obtain ⟨h'', hrest, hlast⟩ := ih hnext (by omega)
    refine ⟨h'', ?_, by rwa [show i + (n + 1) = i + 1 + n by omega]⟩
    rw [initLoop, hstore]
    exact hrest

/-- The static `heap` comes to the end of the array. -/
theorem mmapLoop_pageBytes : (mmapLoop h heap (pageBytes max / PAGE_SIZE)).2 =
    heap + pageBytes max := by
  rw [mmapLoop_heap, Nat.div_mul_cancel (Nat.dvd_of_mod_eq_zero (pageBytes_mod max))]

theorem numberArray_init (h : Heap) (max : Nat) (hheap : heap % PAGE_SIZE = 0) :
    ∃ h', numberArray h heap max true = some (heap, heap + pageBytes max, h') ∧
      h'.Holds max heap (List.range max) := by
  obtain ⟨hzero, -⟩ := mmapLoop_spec h max hheap
  obtain ⟨h', hinit, hholds⟩ := initLoop_spec (i := 0) hzero (Nat.zero_add max).le
  rw [Nat.zero_add] at hholds
  refine ⟨h', ?_, hholds⟩
  simp [numberArray, hinit, mmapLoop_pageBytes]

theorem numberArray_zeros (h : Heap) (max : Nat) (hheap : heap % PAGE_SIZE = 0) :
    ∃ h', numberArray h heap max false = some (heap, heap + pageBytes max, h') ∧
      h'.Holds max heap [] ∧
      ∀ {b l}, Layout max heap b → h.Holds max b l → h'.Holds max b l := by
  refine ⟨(mmapLoop h heap (pageBytes max / PAGE_SIZE)).1, ?_, mmapLoop_spec h max hheap⟩
  simp [numberArray, mmapLoop_pageBytes]

end NumberArray

/-! ## `filter` -/

section Filter

variable {h : Heap} {max dst src : Nat} {l : List Nat}

theorem take_succ_getD {i : Nat} (hi : i < l.length) :
    l.take (i + 1) = l.take i ++ [l.getD i 0] := by
  rw [List.take_succ_eq_append_getElem hi, List.getD_eq_getElem _ _ hi]

theorem drop_eq_getD_cons {i : Nat} (hi : i < l.length) :
    l.drop i = l.getD i 0 :: l.drop (i + 1) := by
  rw [List.drop_eq_getElem_cons hi, List.getD_eq_getElem _ _ hi]

theorem copyLoop_spec {i n : Nat} (hlayout : Layout max dst src) (hsrc : h.Holds max src l)
    (hdst : h.Holds max dst (l.take i)) (hend : i + n ≤ l.length) (hmax : l.length ≤ max) :
    ∃ h', copyLoop h dst src i n = some h' ∧ h'.Holds max dst (l.take (i + n)) ∧
      h'.Holds max src l := by
  induction n generalizing h i with
  | zero => exact ⟨h, rfl, hdst, hsrc⟩
  | succ n ih =>
    have hlen : (l.take i).length = i := List.length_take_of_le (by omega)
    obtain ⟨h', hstore, hnext, hkeep⟩ := hdst.store hlen (by omega) (l.getD i 0)
    rw [← take_succ_getD (by omega)] at hnext
    obtain ⟨h'', hrest, hlast⟩ := ih (hkeep hlayout hsrc) hnext (by omega)
    refine ⟨h'', ?_, by rwa [show i + (n + 1) = i + 1 + n by omega]⟩
    rw [copyLoop, hsrc.load (by omega)]
    simp only [Option.bind_eq_bind, Option.bind_some, hstore]
    exact hrest

/-- The loop over `j` comes to its end if no entry divides the candidate. -/
theorem testLoop_spec {i j n : Nat} (hsrc : h.Holds max src l) (hi : i < max)
    (hmax : l.length ≤ max) (hpos : ∀ d ∈ l.drop 2, d ≠ 0) (hj : 2 ≤ j)
    (hend : j + n ≤ l.length) :
    ∃ j', testLoop h src i j n = some j' ∧
      (j + n ≤ j' ↔ ∀ d ∈ (l.drop j).take n, ¬ d ∣ l.getD i 0) := by
  induction n generalizing j with
  | zero => exact ⟨j, rfl, by simp⟩
  | succ n ih =>
    have hcons := drop_eq_getD_cons (show j < l.length by omega)
    have hne : l.getD j 0 ≠ 0 :=
      hpos _ ((List.drop_sublist_drop_left l hj).subset (hcons ▸ List.mem_cons_self))
    rw [testLoop, hsrc.load hi, hsrc.load (show j < max by omega), hcons, List.take_succ_cons]
    simp only [Option.bind_eq_bind, Option.bind_some, hne, if_false, List.forall_mem_cons]
    by_cases hdvd : l.getD i 0 % l.getD j 0 = 0
    · rw [if_pos hdvd]
      exact ⟨j, rfl, iff_of_false (by omega) fun hall => hall.1 (Nat.dvd_of_mod_eq_zero hdvd)⟩
    · rw [if_neg hdvd]
      obtain ⟨j', hrest, hiff⟩ := ih (show 2 ≤ j + 1 by omega) (by omega)
      refine ⟨j', hrest, ?_⟩
      rw [show j + (n + 1) = j + 1 + n by omega, hiff]
      exact (and_iff_right fun hdiv => hdvd (Nat.mod_eq_zero_of_dvd hdiv)).symm

/-- The test for the candidate at `i`: none of the first `index` entries strikes it out. -/
theorem test_spec {i index : Nat} (hsrc : h.Holds max src l) (hi : i < max) (hmax : l.length ≤ max)
    (hpos : ∀ d ∈ l.drop 2, d ≠ 0) (hindex : index ≤ l.length) :
    ∃ j, testLoop h src i 2 (index - 2) = some j ∧
      (index ≤ j ↔ ∀ d ∈ strikers 2 index l, ¬ d ∣ l.getD i 0) := by
  rw [strikers, List.drop_take]
  by_cases hsmall : index ≤ 2
  · rw [Nat.sub_eq_zero_of_le hsmall]
    exact ⟨2, rfl, by simpa using hsmall⟩
  · obtain ⟨j, htest, hiff⟩ := testLoop_spec (n := index - 2) hsrc hi hmax hpos (Nat.le_refl 2)
      (by omega)
    rw [show 2 + (index - 2) = index by omega] at hiff
    exact ⟨j, htest, hiff⟩

/-- The candidates from `i` on that are not struck out are put behind the others. -/
theorem filterLoop_spec {acc : List Nat} {index i turns : Nat} (hlayout : Layout max dst src)
    (hsrc : h.Holds max src l) (hdst : h.Holds max dst acc) (hmax : l.length ≤ max)
    (hpos : ∀ d ∈ l.drop 2, d ≠ 0) (hindex : index ≤ l.length) (hacc : acc.length ≤ i)
    (hend : i + turns = l.length) :
    ∃ n h', filterLoop h dst src index i acc.length turns = some (n, h') ∧
      n = (acc ++ (l.drop i).filter fun x => ∀ d ∈ strikers 2 index l, ¬ d ∣ x).length ∧
      h'.Holds max dst
        (acc ++ (l.drop i).filter fun x => ∀ d ∈ strikers 2 index l, ¬ d ∣ x) ∧
      h'.Holds max src l := by
  induction turns generalizing h i acc with
  | zero =>
    rw [List.drop_eq_nil_of_le (by omega), List.filter_nil, List.append_nil]
    exact ⟨_, h, rfl, rfl, hdst, hsrc⟩
  | succ turns ih =>
    obtain ⟨j, htest, hiff⟩ := test_spec (i := i) hsrc (by omega) hmax hpos hindex
    rw [filterLoop, htest, drop_eq_getD_cons (show i < l.length by omega)]
    simp only [Option.bind_eq_bind, Option.bind_some]
    by_cases hkeep : index ≤ j
    · rw [if_pos hkeep, hsrc.load (by omega),
        List.filter_cons_of_pos (by simpa using hiff.mp hkeep)]
      obtain ⟨h', hstore, hnext, hother⟩ := hdst.store rfl (by omega) (l.getD i 0)
      simp only [Option.bind_some, hstore]
      have hacc' : (acc ++ [l.getD i 0]).length ≤ i + 1 := by simpa using hacc
      have hrest := ih (hother hlayout hsrc) hnext hacc' (by omega)
      rwa [List.length_append, List.length_singleton, List.append_assoc, List.singleton_append]
        at hrest
    · rw [if_neg hkeep, List.filter_cons_of_neg (by simpa using mt hiff.mpr hkeep)]
      exact ih hsrc hdst (by omega) (by omega)

/-- One call of `filter` is one pass of the sieve. -/
theorem filter_spec {index : Nat} (hlayout : Layout max dst src) (hsrc : h.Holds max src l)
    (hdst : h.Holds max dst []) (hmax : l.length ≤ max) (hpos : ∀ d ∈ l.drop 2, d ≠ 0)
    (hindex : index < l.length) :
    ∃ h', filter h dst src index l.length = some ((pass (· ∣ ·) 2 index l).length, h') ∧
      h'.Holds max dst (pass (· ∣ ·) 2 index l) := by
  obtain ⟨h₁, hcopy, hdst₁, hsrc₁⟩ := copyLoop_spec (i := 0) (n := index) hlayout hsrc hdst
    (by omega) hmax
  rw [Nat.zero_add] at hdst₁
  have hlen : (l.take index).length = index := List.length_take_of_le hindex.le
  obtain ⟨n, h₂, hloop, hn, hdst₂, -⟩ := filterLoop_spec hlayout hsrc₁ hdst₁ hmax hpos hindex.le
    hlen.le (Nat.add_sub_of_le hindex.le)
  rw [hlen] at hloop
  refine ⟨h₂, ?_, hdst₂⟩
  rw [filter, hcopy]
  simp only [Option.bind_eq_bind, Option.bind_some, hloop, hn]
  rfl

end Filter

/-! ## The loop of `entry` -/

/-- The loop leaves what the sieve leaves, after one turn for each of its passes and the turn in
which the test fails. -/
theorem entryLoop_spec {max turns : Nat} {s : Vars} {l : List Nat}
    (hlayout : Layout max s.flop s.flip) (hflip : s.heap.Holds max s.flip l)
    (hflop : s.heap.Holds max s.flop []) (hlen : s.len = l.length) (hmax : l.length ≤ max)
    (hpos : ∀ d ∈ l.drop 2, d ≠ 0) (hturns : l.length ≤ s.index + turns) :
    ∃ s', entryLoop max (turns + 1) s = some s' ∧
      s'.heap.Holds max s'.flip (sift (· ∣ ·) 2 turns s.index l) := by
  induction turns generalizing s l with
  | zero =>
    refine ⟨s, ?_, hflip⟩
    rw [entryLoop, if_neg (by omega)]
  | succ turns ih =>
    rw [entryLoop, sift]
    by_cases hindex : s.index < l.length
    · obtain ⟨h₁, hfilter, hdst⟩ := filter_spec hlayout hflip hflop hmax hpos hindex
      obtain ⟨hclear, hkeep⟩ := reallocArray_spec h₁ max hlayout.right
      have hsub : (pass (· ∣ ·) 2 s.index l).Sublist l := pass_sublist
      have hshort := hsub.length_le
      rw [if_pos (by omega), if_pos hindex, hlen, hfilter]
      exact @ih ⟨reallocArray h₁ s.flip max, s.flop, s.flip, s.index + 1, _⟩ _ hlayout.symm
        (hkeep hlayout.symm hdst) hclear rfl (hshort.trans hmax)
        (fun d hd => hpos d ((hsub.drop 2).subset hd)) (show _ ≤ s.index + 1 + turns by omega)
    · rw [if_neg (by omega), if_neg hindex]
      exact ⟨s, rfl, hflip⟩

/-! ## The task -/

/-- The entries of an array. -/
def Heap.array (h : Heap) (max arr : Nat) : List Nat :=
  (List.range max).map fun i => h.word (arr + 8 * i)

section Count

variable {h : Heap} {max arr : Nat} {l : List Nat}

theorem Heap.Holds.array_eq (hl : h.Holds max arr l) (hmax : l.length ≤ max) :
    h.array max arr = l ++ List.replicate (max - l.length) 0 := by
  refine List.ext_getElem (by simp [array, hmax]) fun i hi _ => ?_
  have hi : i < max := by simpa [array] using hi
  rw [List.getElem_append]
  by_cases hin : i < l.length
  · simp [array, hl.word i hi, hin]
  · simp [array, hl.word i hi, hin]

theorem countLoop_spec {i num n : Nat} (hl : h.Holds max arr l) (hend : i + n = max) :
    countLoop h arr i num n =
      some (num + ((h.array max arr).drop i).countP fun value => value ≠ 0) := by
  induction n generalizing i num with
  | zero =>
    rw [List.drop_eq_nil_of_le (by simp [Heap.array]; omega)]
    rfl
  | succ n ih =>
    have hi : i < max := by omega
    have hword : (h.array max arr).getD i 0 = l.getD i 0 := by
      simp [Heap.array, hi, hl.word i hi]
    rw [countLoop, hl.load hi, drop_eq_getD_cons (by simpa [Heap.array] using hi), hword,
      List.countP_cons]
    simp only [Option.bind_eq_bind, Option.bind_some, ih (show i + 1 + n = max by omega)]
    generalize l.getD i 0 = value
    by_cases hzero : value = 0
    · simp [hzero]
    · simp [hzero]
      omega

end Count

theorem length_primes_le {max : Nat} (hmax : 2 ≤ max) : (primes max).length + 2 ≤ max := by
  have hsub : (sift (· ∣ ·) 2 max 0 (List.range max)).Sublist (List.range max) :=
    sift_sublist max 0 _
  rw [sift_range hmax (Nat.le_refl max)] at hsub
  have hlength := hsub.length_le
  rw [List.length_range] at hlength
  exact hlength

/-- Of the entries that are left, only 0 and those behind the primes are zero. -/
theorem countP_primes (max n : Nat) :
    (0 :: 1 :: primes max ++ List.replicate n 0).countP (fun value => value ≠ 0) =
      (primes max).length + 1 := by
  have hprimes : (primes max).countP (fun value => value ≠ 0) = (primes max).length :=
    List.countP_eq_length.mpr fun p hp => decide_eq_true (mem_primes.mp hp).2.ne_zero
  have hzeros : (List.replicate n 0).countP (fun value => value ≠ 0) = 0 :=
    List.countP_eq_zero.mpr fun z hz => by simp [(List.mem_replicate.mp hz).2]
  rw [List.cons_append, List.cons_append, List.countP_cons_of_neg (by simp),
    List.countP_cons_of_pos (by simp), List.countP_append, hprimes, hzeros, Nat.add_zero]

/-- The task comes to its end, with the primes in the array. -/
theorem entry_spec (bssEnd : BssEnd) (max : Nat) (hmax : 2 ≤ max) (h : Heap) (turns : Nat)
    (hturns : max < turns) :
    ∃ s num, entry bssEnd max turns h = some (s, num) ∧
      s.heap.array max s.flip =
        0 :: 1 :: primes max ++ List.replicate (max - (primes max).length - 2) 0 ∧
      num = (primes max).length + 1 := by
  obtain ⟨turns, rfl⟩ := Nat.exists_eq_add_of_le' (Nat.one_le_of_lt hturns)
  have hbytes := pageBytes_mod max
  have hnext : (bssEnd.addr + pageBytes max) % PAGE_SIZE = 0 := by
    simp [Nat.add_mod, bssEnd.aligned, hbytes]
  have hlayout : Layout max (bssEnd.addr + pageBytes max) bssEnd.addr :=
    ⟨hnext, bssEnd.aligned, Or.inr (Nat.le_refl _)⟩
  obtain ⟨h₁, hfirst, hflip⟩ := numberArray_init h max bssEnd.aligned
  obtain ⟨h₂, hsecond, hflop, hkeep⟩ := numberArray_zeros h₁ max hnext
  have hlength : (List.range max).length = max := List.length_range
  have hpos : ∀ d ∈ (List.range max).drop 2, d ≠ 0 := fun d hd => by
    have := (mem_drop_range.mp hd).1
    omega
  obtain ⟨s, hloop, hholds⟩ := @entryLoop_spec max turns
    ⟨h₂, bssEnd.addr, bssEnd.addr + pageBytes max, 0, max⟩ _ hlayout (hkeep hlayout hflip) hflop
    hlength.symm hlength.le hpos (by dsimp only; omega)
  rw [sift_range hmax (Nat.le_of_lt_succ hturns)] at hholds
  have hle := length_primes_le hmax
  have harray := hholds.array_eq (show (primes max).length + 2 ≤ max from hle)
  have hcount : countLoop s.heap s.flip 0 0 max = _ := countLoop_spec hholds (Nat.zero_add max)
  refine ⟨s, (primes max).length + 1, ?_, ?_, rfl⟩
  · rw [harray, List.drop_zero, Nat.zero_add] at hcount
    rw [entry, hfirst]
    simp only [Option.bind_eq_bind, Option.bind_some, hsecond, hloop, hcount]
    rw [← countP_primes max (max - (0 :: 1 :: primes max).length)]
  · rw [harray]
    rfl

/-- The task with the numbers below 10. -/
theorem entry_spec_ten :
    ∃ s num, entry ⟨0x2000001000, rfl⟩ 10 11 ⟨fun _ => false, fun _ => 7⟩ = some (s, num) ∧
      s.heap.array 10 s.flip = [0, 1, 2, 3, 5, 7, 0, 0, 0, 0] ∧ num = 5 := by
  have hprimes : primes 10 = [2, 3, 5, 7] := by decide
  have hspec := entry_spec ⟨0x2000001000, rfl⟩ 10 (by decide) ⟨fun _ => false, fun _ => 7⟩ 11
    (by decide)
  rwa [hprimes] at hspec

end KernelMemVirt.Rackdoll.SieveTask
