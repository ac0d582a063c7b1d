import KernelMemVirt.Lib.ByteMem
import KernelMemVirt.Rackdoll.Pool

/-!
# The page tables of Rackdoll

`map_page`, `mmap` and `munmap` of `kernel/memory.c` on the physical memory, and
the walk of the processor.

The kernel runs with its memory mapped by an identity, so a `paddr_t` is also a
pointer.  The local `cadre` of `mmap` is an uninitialised pointer.  `mmapAt` takes
the physical address of the word that it points to; in `mmap` this is a private word,
which no other access meets.  `invlpg` is left out: the walk reads the tables.

* `addrMask_toNat` and `INDEX_toNat` give the two macros of the source as
  arithmetic, and `links_or` is the form of the entries that the code writes.
* `entry_write64` is a write to one entry of one table.
-/

namespace KernelMemVirt.Rackdoll

open ByteMem

/-! ## The source -/

/-- The physical memory and the variable `bitset`. -/
structure Phys where
  mem : Mem
  bitset : List Word

/-- `INDEX`. -/
def INDEX (vaddr : Word) (lvl : Nat) : Word :=
  ((((vaddr <<< 16) >>> 28) >>> ((lvl - 1) * 9)) <<< 55) >>> 55

abbrev ADDR_MASK : Word := 0x0007FFFFFFFFF800

/-- `cadre + INDEX(vaddr, lvl)`, a pointer to words of 8 bytes. -/
def slot (cadre vaddr : Word) (lvl : Nat) : Nat := (cadre + 8 * INDEX vaddr lvl).toNat

/-- The loop of `munmap`, for levels `n + 1` down to 2. -/
def follow (mem : Mem) (vaddr : Word) : Nat → Word → Word
  | 0, cadre => cadre
  | n + 1, cadre => follow mem vaddr n (read64 mem (slot cadre vaddr (n + 2)) &&& ADDR_MASK)

/-- The addresses that `munmap` and `pgfault` accept. -/
def UserGuard (vaddr : Word) : Prop := 0x40000000 < vaddr ∧ vaddr < 0x00007fffffffffff

instance (vaddr : Word) : Decidable (UserGuard vaddr) := inferInstanceAs (Decidable (_ ∧ _))

namespace Phys

variable (pool : Nat)

/-- `alloc_page`. -/
def alloc (s : Phys) : Phys × Word :=
  let (bitset, page) := allocPage pool s.bitset
  ({ s with bitset }, page)

/-- One turn of the loop of `map_page`. -/
def enterTable (s : Phys) (vaddr cadre : Word) (lvl : Nat) : Phys × Word :=
  let p := slot cadre vaddr lvl
  let s :=
    if read64 s.mem p &&& 1 = 0 then
      let (s, page) := s.alloc pool
      { s with mem := write64 s.mem p (page ||| 0x7) }
    else s
  (s, read64 s.mem p &&& ADDR_MASK)

/-- The loop of `map_page`, for levels `n + 1` down to 2. -/
def descend (vaddr : Word) : Nat → Phys → Word → Phys × Word
  | 0, s, cadre => (s, cadre)
  | n + 1, s, cadre =>
    let (s, cadre) := s.enterTable pool vaddr cadre (n + 2)
    descend vaddr n s cadre

/-- `map_page`.  An entry that is not present is taken as an address to clear. -/
def mapPage (s : Phys) (pgt vaddr paddr : Word) : Phys :=
  let (s, cadre) := descend pool vaddr 3 s pgt
  let p := slot cadre vaddr 1
  let mem :=
    if read64 s.mem p &&& 1 = 0 then fill s.mem (read64 s.mem p).toNat 0 PAGE_SIZE else s.mem
  { s with mem := write64 mem p (paddr ||| 0x7) }

/-- `mmap`, with the physical address that the uninitialised `cadre` points to. -/
def mmapAt (cadre : Word) (s : Phys) (pgt vaddr : Word) : Phys :=
  let (s, page) := s.alloc pool
  let mem := write64 s.mem cadre.toNat page
  let mem := fill mem (read64 mem cadre.toNat).toNat 0 PAGE_SIZE
  { s with mem }.mapPage pool pgt vaddr (read64 mem cadre.toNat)

/-- `mmap`, where `*cadre` is a private word. -/
def mmap (s : Phys) (pgt vaddr : Word) : Phys :=
  let (s, page) := s.alloc pool
  { s with mem := fill s.mem page.toNat 0 PAGE_SIZE }.mapPage pool pgt vaddr page

/-- `munmap`. -/
def munmap (s : Phys) (pgt vaddr : Word) : Except PageError Phys :=
  if UserGuard vaddr then
    let cadre := follow s.mem vaddr 3 pgt
    (freePage pool s.bitset (read64 s.mem (slot cadre vaddr 1))).map fun bitset => { s with bitset }
  else .ok s

/-! ## The private word

A word that `map_page` neither reads nor writes makes no difference, so `mmap` is
`mmapAt` for such a `cadre`. -/

section PrivateWord

/-- The states differ in the word at `c` at most. -/
def SameBut (c : Nat) (s s' : Phys) : Prop :=
  s'.bitset = s.bitset ∧ SameOutside s.mem s'.mem c 8

/-- The loop of `map_page` stays away from the word at `c`. -/
def DescendApart (c : Nat) (vaddr : Word) : Nat → Phys → Word → Prop
  | 0, _, _ => True
  | n + 1, s, cadre =>
    Apart (slot cadre vaddr (n + 2)) 8 c 8 ∧
      let next := s.enterTable pool vaddr cadre (n + 2)
      DescendApart c vaddr n next.1 next.2

/-- `map_page` stays away from the word at `c`. -/
def MapApart (c : Nat) (s : Phys) (pgt vaddr : Word) : Prop :=
  DescendApart pool c vaddr 3 s pgt ∧
    let last := descend pool vaddr 3 s pgt
    let entry := read64 last.1.mem (slot last.2 vaddr 1)
    Apart (slot last.2 vaddr 1) 8 c 8 ∧ (entry &&& 1 = 0 → Apart entry.toNat PAGE_SIZE c 8)

variable {pool} {c : Nat} {s s' : Phys} {vaddr pgt cadre paddr : Word}

theorem SameBut.alloc (pool : Nat) (h : SameBut c s s') :
    SameBut c (s.alloc pool).1 (s'.alloc pool).1 ∧ (s'.alloc pool).2 = (s.alloc pool).2 := by
  rcases h with ⟨hbitset, hmem⟩
  simp [SameBut, Phys.alloc, hbitset, hmem]

theorem SameBut.enterTable (pool : Nat) (h : SameBut c s s') {lvl : Nat}
    (hslot : Apart (slot cadre vaddr lvl) 8 c 8) :
    SameBut c (s.enterTable pool vaddr cadre lvl).1 (s'.enterTable pool vaddr cadre lvl).1 ∧
      (s'.enterTable pool vaddr cadre lvl).2 = (s.enterTable pool vaddr cadre lvl).2 := by
  have hread : ∀ {t t' : Phys}, SameBut c t t' →
      read64 t'.mem (slot cadre vaddr lvl) = read64 t.mem (slot cadre vaddr lvl) :=
    fun ht => ht.2.readBytes hslot
  obtain ⟨halloc, hpage⟩ := h.alloc pool
  unfold Phys.enterTable
  dsimp only
  rw [hread h]
  split
  · have hwrite : SameBut c
        { (s.alloc pool).1 with
          mem := write64 (s.alloc pool).1.mem (slot cadre vaddr lvl) ((s.alloc pool).2 ||| 0x7) }
        { (s'.alloc pool).1 with
          mem := write64 (s'.alloc pool).1.mem (slot cadre vaddr lvl)
            ((s'.alloc pool).2 ||| 0x7) } :=
      ⟨halloc.1, hpage ▸ SameOutside.writeBytes halloc.2 _ _ _⟩
    exact ⟨hwrite, congrArg (· &&& ADDR_MASK) (hread hwrite)⟩
  · exact ⟨h, congrArg (· &&& ADDR_MASK) (hread h)⟩

theorem SameBut.descend {n : Nat} (h : SameBut c s s')
    (hapart : DescendApart pool c vaddr n s cadre) :
    SameBut c (descend pool vaddr n s cadre).1 (descend pool vaddr n s' cadre).1 ∧
      (descend pool vaddr n s' cadre).2 = (descend pool vaddr n s cadre).2 := by
  induction n generalizing s s' cadre with
  | zero => exact ⟨h, rfl⟩
  | succ n ih =>
    rcases hapart with ⟨hslot, hrest⟩
    obtain ⟨hnext, hcadre⟩ := h.enterTable pool hslot
    have hdone := ih hnext hrest
    unfold Phys.descend
    dsimp only
    rw [hcadre]
    exact hdone

theorem SameBut.mapPage (h : SameBut c s s') (hapart : MapApart pool c s pgt vaddr) :
    SameBut c (s.mapPage pool pgt vaddr paddr) (s'.mapPage pool pgt vaddr paddr) := by
  rcases hapart with ⟨hdescend, hslot, hclear⟩
  obtain ⟨hlast, hcadre⟩ := h.descend hdescend
  unfold Phys.mapPage
  dsimp only
  rw [hcadre, show read64 _ _ = _ from hlast.2.readBytes hslot]
  refine ⟨hlast.1, SameOutside.writeBytes ?_ _ _ _⟩
  split
  · exact SameOutside.fill hlast.2 _ _ _
  · exact hlast.2

/-- The two forms of `mmap` differ in the private word. -/
theorem mmapAt_sameBut {s₁ : Phys} {page : Word} (halloc : s.alloc pool = (s₁, page))
    (hpage : Apart page.toNat PAGE_SIZE cadre.toNat 8)
    (hmap : MapApart pool cadre.toNat { s₁ with mem := fill s₁.mem page.toNat 0 PAGE_SIZE }
      pgt vaddr) :
    SameBut cadre.toNat (s.mmap pool pgt vaddr) (s.mmapAt pool cadre pgt vaddr) := by
  unfold Phys.mmap Phys.mmapAt
  rw [halloc]
  dsimp only
  have hclear : read64 (fill (write64 s₁.mem cadre.toNat page) page.toNat 0 PAGE_SIZE)
      cadre.toNat = page := by
    refine Eq.trans (b := read64 (write64 s₁.mem cadre.toNat page) cadre.toNat) ?_
      (read64_write64_self s₁.mem _ _)
    refine readBytes_congr fun x hlo hhi => ?_
    exact fill_apply_of_outside (by unfold Apart at hpage; omega)
  rw [read64_write64_self, hclear]
  exact SameBut.mapPage ⟨rfl, (sameOutside_writeBytes _ _ _ _).fill _ _ _⟩ hmap

end PrivateWord

end Phys

/-! ## The processor -/

/-- The result of a page walk: the physical address, the rights and the last
entry, which has the other attributes. -/
structure Translation where
  paddr : Nat
  writable : Bool
  user : Bool
  executable : Bool
  leaf : Word
  deriving DecidableEq

/-- The index of an address into a table of level `lvl`. -/
def tableIndex (vaddr lvl : Nat) : Nat := vaddr / 2 ^ (12 + 9 * (lvl - 1)) % 512

/-- Bits 51 to 12 of an entry. -/
def frame (e : Word) : Nat := e.toNat % 2 ^ 52 / 4096 * 4096

def present (e : Word) : Bool := e.getLsbD 0

/-- The bit PS. -/
def huge (e : Word) : Bool := e.getLsbD 7

/-- The walk from a table of level `lvl` on.  A page has `2 ^ (12 + 9 * n)` bytes
when the last entry is of level `n + 1`. -/
def walkFrom (mem : Mem) (vaddr : Nat) : Nat → Nat → Option Translation
  | 0, _ => none
  | n + 1, table =>
    let e := read64 mem (table + 8 * tableIndex vaddr (n + 1))
    if present e = false then none
    else if n = 0 ∨ n ≤ 2 ∧ huge e = true then
      let bytes := 2 ^ (12 + 9 * n)
      some
        { paddr := e.toNat % 2 ^ 52 / bytes * bytes + vaddr % bytes
          writable := e.getLsbD 1
          user := e.getLsbD 2
          executable := !e.getLsbD 63
          leaf := e }
    else
      (walkFrom mem vaddr n (frame e)).map fun t =>
        { t with
          writable := e.getLsbD 1 && t.writable
          user := e.getLsbD 2 && t.user
          executable := !e.getLsbD 63 && t.executable }

/-- The translation of `vaddr` with the tables at `cr3`. -/
def translate (mem : Mem) (cr3 : Word) (vaddr : Nat) : Option Translation :=
  walkFrom mem vaddr 4 (frame cr3)

/-! ## Words as numbers -/

theorem addrMask_toNat (e : Word) :
    (e &&& ADDR_MASK).toNat = e.toNat % 2 ^ 51 / 2 ^ 11 * 2 ^ 11 := by
  have hshift : e &&& ADDR_MASK = ((e <<< 13) >>> 24) <<< 11 := by
    apply BitVec.eq_of_getLsbD_eq
    intro i hi
    rw [BitVec.getLsbD_and, BitVec.getLsbD_shiftLeft, BitVec.getLsbD_ushiftRight,
      BitVec.getLsbD_shiftLeft]
    have hmask : ADDR_MASK.getLsbD i = (decide (11 ≤ i) && decide (i < 51)) := by
      revert hi
      revert i
      decide
    rw [hmask]
    by_cases hlo : 11 ≤ i
    · rw [show 24 + (i - 11) - 13 = i by omega]
      simp [hlo, hi, show ¬ i < 11 by omega, show ¬ 24 + (i - 11) < 13 by omega,
        show (24 + (i - 11) < 64 ↔ i < 51) by omega, Bool.and_comm]
    · simp [hlo, show i < 11 by omega]
  rw [hshift, BitVec.toNat_shiftLeft, BitVec.toNat_ushiftRight, BitVec.toNat_shiftLeft,
    Nat.shiftLeft_eq, Nat.shiftLeft_eq, Nat.shiftRight_eq_div_pow]
  have := e.isLt
  omega

/-- `INDEX` is the index of the processor. -/
theorem INDEX_toNat (vaddr : Word) {lvl : Nat} (hlo : 1 ≤ lvl) (hhi : lvl ≤ 4) :
    (INDEX vaddr lvl).toNat = tableIndex vaddr.toNat lvl := by
  unfold INDEX tableIndex
  have := vaddr.isLt
  rw [BitVec.toNat_ushiftRight, BitVec.toNat_shiftLeft, BitVec.toNat_ushiftRight,
    BitVec.toNat_ushiftRight, BitVec.toNat_shiftLeft]
  simp only [Nat.shiftLeft_eq, Nat.shiftRight_eq_div_pow]
  obtain rfl | rfl | rfl | rfl : lvl = 1 ∨ lvl = 2 ∨ lvl = 3 ∨ lvl = 4 := by omega
  all_goals
    norm_num
    omega

theorem tableIndex_lt (vaddr lvl : Nat) : tableIndex vaddr lvl < 512 := Nat.mod_lt _ (by decide)

/-- The entry slot of a table below 2 ^ 52. -/
theorem slot_eq {p lvl : Nat} (vaddr : Word) (hp : p < 2 ^ 52) (hlo : 1 ≤ lvl) (hhi : lvl ≤ 4) :
    slot (BitVec.ofNat 64 p) vaddr lvl = p + 8 * tableIndex vaddr.toNat lvl := by
  have hlt := tableIndex_lt vaddr.toNat lvl
  have hindex := INDEX_toNat vaddr hlo hhi
  unfold slot
  rw [BitVec.toNat_add, BitVec.toNat_mul, hindex, BitVec.toNat_ofNat,
    show (8 : Word).toNat = 8 from rfl]
  omega

/-- The test of the present bit in the source. -/
theorem and_one_eq_zero (e : Word) : e &&& 1 = 0 ↔ present e = false :=
  Bitset.and_bit_eq_zero (show 0 < 64 by decide)

/-- Flags in the low bits of a page address. -/
theorem or_flags_toNat {q f : Nat} (hq : q % 4096 = 0) (hmax : q < 2 ^ 52) (hf : f < 4096) :
    (BitVec.ofNat 64 q ||| BitVec.ofNat 64 f).toNat = q + f := by
  rw [BitVec.toNat_or, BitVec.toNat_ofNat, BitVec.toNat_ofNat, Nat.mod_eq_of_lt (by omega),
    Nat.mod_eq_of_lt (show f < 2 ^ 64 by omega)]
  have hsplit : q = 2 ^ 12 * (q / 4096) := by omega
  rw [hsplit, ← Nat.two_pow_add_eq_or_of_lt (show f < 2 ^ 12 by omega)]

/-- The flags of an entry as parts of a number. -/
theorem present_eq (e : Word) : present e = decide (e.toNat % 2 = 1) := by
  rw [present, BitVec.getLsbD, Nat.testBit_zero]

theorem huge_eq (e : Word) : huge e = decide (e.toNat / 128 % 2 = 1) := by
  rw [huge, BitVec.getLsbD, Nat.testBit_eq_decide_div_mod_eq]

/-- The entry `e` leads to the table at `q`, for the code and for the
processor. -/
structure Links (e : Word) (q : Nat) : Prop where
  present : present e = true
  huge : huge e = false
  addr : e &&& ADDR_MASK = BitVec.ofNat 64 q
  frame : frame e = q

/-- The entries that the code writes, with the flags `f`. -/
theorem links_or {q f : Nat} (hq : q % 4096 = 0) (hmax : q < 2 ^ 51) (hf : f < 2048)
    (hpresent : f % 2 = 1) (hhuge : f / 128 % 2 = 0) :
    Links (BitVec.ofNat 64 q ||| BitVec.ofNat 64 f) q := by
  have hnat := or_flags_toNat hq (show q < 2 ^ 52 by omega) (show f < 4096 by omega)
  refine ⟨?_, ?_, ?_, ?_⟩
  · rw [present_eq, hnat]
    simp
    omega
  · rw [huge_eq, hnat]
    simp
    omega
  · apply BitVec.eq_of_toNat_eq
    rw [addrMask_toNat, hnat, BitVec.toNat_ofNat]
    omega
  · unfold frame
    rw [hnat]
    omega

/-! ## Entries -/

/-- Entry `i` of the table at `p`. -/
def entry (mem : Mem) (p i : Nat) : Word := read64 mem (p + 8 * i)

/-- A write to one entry. -/
theorem entry_write64 {mem : Mem} {p i p' i' : Nat} {e : Word} (hp : p % 4096 = 0)
    (hp' : p' % 4096 = 0) (hi : i < 512) (hi' : i' < 512) :
    entry (write64 mem (p + 8 * i) e) p' i' = if p' = p ∧ i' = i then e else entry mem p' i' := by
  unfold entry
  split
  · next heq =>
    rcases heq with ⟨rfl, rfl⟩
    exact read64_write64_self _ _ _
  · exact readBytes_writeBytes_of_apart (by unfold ByteMem.Apart; omega)

/-- The entries of a page that is all zero. -/
theorem entry_zero {mem : Mem} {p i : Nat} (hzero : ∀ a, p ≤ a → a < p + 4096 → mem a = 0)
    (hi : i < 512) : entry mem p i = 0 :=
  readBytes_eq_zero fun x hlo hhi => hzero x (by omega) (by omega)

/-- Memories that agree on a page have the same entries there. -/
theorem entry_congr {mem mem' : Mem} {p i : Nat}
    (hsame : ∀ a, p ≤ a → a < p + 4096 → mem' a = mem a) (hi : i < 512) :
    entry mem' p i = entry mem p i :=
  readBytes_congr fun x hlo hhi => hsame x (by omega) (by omega)

end KernelMemVirt.Rackdoll
