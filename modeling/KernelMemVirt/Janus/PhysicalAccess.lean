import KernelMemVirt.Janus.State
import KernelMemVirt.Lib.Bitset

/-!
# Accesses to guest physical memory

`read_physical` and `write_physical` of `monitor/memory.c` map the pages of the backend file from
the one that holds `paddr` on, copy, and remove the mapping.  The length of the mapping is the size
rounded up to whole pages.  The copy starts at the offset of `paddr` in its page, which the length
does not count.

* `Physical.load` and `Physical.store` are the accesses to a window that `mmap` has made; outside
  of it lies the monitor's own memory.
* `writePhysical_of_fits`, `readPhysical_of_fits`: what the two functions do with a window that
  suffices.
* `copiesInside_iff` says for which sizes and addresses it does.
-/

namespace KernelMemVirt.Janus

open ByteMem

/-! ## The source -/

/-- The backend file, with its length, and the memory of the monitor.  `ftruncate` takes a signed
length. -/
structure Physical where
  backend : Mem
  guestMemorySize : Nat
  host : Mem
  size_lt : guestMemorySize < 2 ^ 63

/-- What `mmap` returns: `len` bytes of the file from `off` on, at the address `tmp`. -/
structure Window where
  tmp : Nat
  off : Nat
  len : Nat

namespace Physical

variable (p : Physical)

/-- The byte at `w.tmp + k`. -/
def load (w : Window) (k : Nat) : BitVec 8 :=
  if k < w.len then p.backend (w.off + k) else p.host (w.tmp + k)

/-- The memory after a store to `w.tmp + k`. -/
def store (w : Window) (k : Nat) (v : BitVec 8) : Physical :=
  if k < w.len then { p with backend := Function.update p.backend (w.off + k) v }
  else { p with host := Function.update p.host (w.tmp + k) v }

end Physical

/-- The length `sz` of the mapping. -/
def mappedSize (size : Word) : Word :=
  if size &&& (0xfff : Word) ≠ 0 then (size + 0x1000) &&& ~~~(0xfff : Word) else size

/-- The window of an access, which `mmap` places at `tmp`. -/
def accessWindow (tmp : Nat) (size paddr : Word) : Window where
  tmp := tmp
  off := (paddr &&& ~~~(0xfff : Word)).toNat
  len := (mappedSize size).toNat

/-- The offset in the window at which the copy starts. -/
def copyOffset (paddr : Word) : Nat := (paddr &&& (0xfff : Word)).toNat

/-- `read_physical`: the bytes that are copied to `dest`. -/
def readPhysical (p : Physical) (tmp : Nat) (size paddr : Word) : List (BitVec 8) :=
  (List.range size.toNat).map fun i =>
    p.load (accessWindow tmp size paddr) (copyOffset paddr + i)

/-- `write_physical`, for the bytes at `src`. -/
def writePhysical (p : Physical) (tmp : Nat) (src : Nat → BitVec 8) (size paddr : Word) :
    Physical :=
  (List.range size.toNat).foldl
    (fun p i => p.store (accessWindow tmp size paddr) (copyOffset paddr + i) (src i)) p

/-! ## What they should do -/

/-- Both copies stay inside of the window, a write changes the bytes of its range and no others,
and a read of the range gives them back, wherever `mmap` places the two windows. -/
structure CopiesInside (p : Physical) (src : Nat → BitVec 8) (size paddr : Word) : Prop where
  inside : ∀ tmp, ∀ i < size.toNat, copyOffset paddr + i < (accessWindow tmp size paddr).len
  written : ∀ tmp, (writePhysical p tmp src size paddr).backend = fun x =>
    if paddr.toNat ≤ x ∧ x < paddr.toNat + size.toNat then src (x - paddr.toNat)
    else p.backend x
  host : ∀ tmp, (writePhysical p tmp src size paddr).host = p.host
  readBack : ∀ tmp tmp', readPhysical (writePhysical p tmp src size paddr) tmp' size paddr =
    (List.range size.toNat).map src

/-- The pages of the size alone are enough: `paddr` is the first byte of its page, or the offset
in the page and the bytes behind the last whole page of the size fit in one page. -/
def FitsPages (size paddr : Word) : Prop :=
  paddr.toNat % 4096 = 0 ∨
    size.toNat % 4096 ≠ 0 ∧ paddr.toNat % 4096 + size.toNat % 4096 ≤ 4096

instance (size paddr : Word) : Decidable (FitsPages size paddr) :=
  inferInstanceAs (Decidable (_ ∨ _))

/-! ## Masks -/

theorem toNat_and_low (x : Word) : (x &&& (0xfff : Word)).toNat = x.toNat % 4096 := by
  rw [BitVec.toNat_and]
  exact Nat.and_two_pow_sub_one_eq_mod x.toNat 12

theorem toNat_and_high (x : Word) :
    (x &&& ~~~(0xfff : Word)).toNat = x.toNat / 4096 * 4096 :=
  Bitset.toNat_and_mask (k := 12) (by decide)

/-- The length without overflow. -/
theorem toNat_mappedSize {size : Word} (hsize : size.toNat < 2 ^ 63) :
    (mappedSize size).toNat =
      if size.toNat % 4096 = 0 then size.toNat else size.toNat / 4096 * 4096 + 4096 := by
  have hzero : size &&& (0xfff : Word) ≠ 0 ↔ ¬ size.toNat % 4096 = 0 := by
    rw [← toNat_and_low, not_iff_not]
    exact BitVec.toNat_inj.symm
  unfold mappedSize
  by_cases hmod : size.toNat % 4096 = 0
  · rw [if_neg (not_not.mpr hmod ∘ hzero.mp), if_pos hmod]
  · rw [if_pos (hzero.mpr hmod), if_neg hmod, toNat_and_high, BitVec.toNat_add,
      show (0x1000 : Word).toNat = 4096 from rfl]
    omega

/-- The window is long enough for the copy exactly if the pages of the size are enough. -/
theorem fitsPages_iff {size paddr : Word} (hsize : size.toNat < 2 ^ 63) (tmp : Nat) :
    FitsPages size paddr ↔
      copyOffset paddr + size.toNat ≤ (accessWindow tmp size paddr).len := by
  unfold FitsPages copyOffset accessWindow
  rw [toNat_and_low]
  dsimp only
  rw [toNat_mappedSize hsize]
  split
  · omega
  · omega

/-! ## Copies -/

/-- A copy into the window. -/
theorem foldl_store (w : Window) (o : Nat) (src : Nat → BitVec 8) (p : Physical) {n : Nat}
    (hn : o + n ≤ w.len) :
    (List.range n).foldl (fun p i => p.store w (o + i) (src i)) p =
      { p with
        backend := fun x =>
          if w.off + o ≤ x ∧ x < w.off + o + n then src (x - (w.off + o)) else p.backend x } := by
  induction n with
  | zero =>
    have hnone : ∀ x, ¬ (w.off + o ≤ x ∧ x < w.off + o + 0) := by omega
    simp only [List.range_zero, List.foldl_nil, hnone, if_false]
  | succ n ih =>
    rw [List.range_succ, List.foldl_append, ih (by omega), List.foldl_cons, List.foldl_nil,
      Physical.store, if_pos (by omega)]
    congr 1
    funext x
    by_cases hx : x = w.off + (o + n)
    · subst hx
      rw [Function.update_self, if_pos (by omega)]
      congr 1
      omega
    · rw [Function.update_of_ne hx]
      exact if_congr (by omega) rfl rfl

section Window

variable {p : Physical} {size paddr : Word} {tmp : Nat}

/-- The window starts with the page of `paddr`. -/
theorem off_add_copyOffset :
    (accessWindow tmp size paddr).off + copyOffset paddr = paddr.toNat := by
  unfold accessWindow copyOffset
  dsimp only
  rw [toNat_and_high, toNat_and_low]
  omega

theorem writePhysical_of_fits (src : Nat → BitVec 8)
    (hfits : copyOffset paddr + size.toNat ≤ (accessWindow tmp size paddr).len) :
    writePhysical p tmp src size paddr =
      { p with
        backend := fun x =>
          if paddr.toNat ≤ x ∧ x < paddr.toNat + size.toNat then src (x - paddr.toNat)
          else p.backend x } := by
  rw [writePhysical, foldl_store _ _ _ _ hfits, off_add_copyOffset]

theorem readPhysical_of_fits
    (hfits : copyOffset paddr + size.toNat ≤ (accessWindow tmp size paddr).len) :
    readPhysical p tmp size paddr =
      (List.range size.toNat).map fun i => p.backend (paddr.toNat + i) := by
  apply List.map_congr_left
  intro i hi
  have hlt := List.mem_range.mp hi
  rw [Physical.load, if_pos (by omega), ← Nat.add_assoc, off_add_copyOffset]

end Window

/-- The accessors are right exactly if the pages of the size are enough. -/
theorem copiesInside_iff (p : Physical) (src : Nat → BitVec 8) {size paddr : Word}
    (hsize : 1 ≤ size.toNat) (hend : paddr.toNat + size.toNat ≤ p.guestMemorySize) :
    CopiesInside p src size paddr ↔ FitsPages size paddr := by
  have hlt : size.toNat < 2 ^ 63 := by
    have hmax := p.size_lt
    omega
  constructor
  · intro h
    have hlast := h.inside 0 (size.toNat - 1) (by omega)
    rw [fitsPages_iff hlt 0]
    omega
  · intro hpages
    have hfits := fun tmp => (fitsPages_iff hlt tmp).mp hpages
    constructor
    · intro tmp i hi
      have hwindow := hfits tmp
      omega
    · intro tmp
      rw [writePhysical_of_fits src (hfits tmp)]
    · intro tmp
      rw [writePhysical_of_fits src (hfits tmp)]
    · intro tmp tmp'
      rw [readPhysical_of_fits (hfits tmp'), writePhysical_of_fits src (hfits tmp)]
      apply List.map_congr_left
      intro i hi
      have hlt := List.mem_range.mp hi
      dsimp only
      rw [if_pos (by omega), Nat.add_sub_cancel_left]

/-- The 3 GiB of the monitor, all of them zero. -/
def zeroPhysical : Physical where
  backend := fun _ => 0
  guestMemorySize := 3 * 2 ^ 30
  host := fun _ => 0
  size_lt := by decide

theorem copiesInside_iff_page :
    CopiesInside zeroPhysical (fun _ => 1) 4096 0x2000 ↔ FitsPages 4096 0x2000 :=
  copiesInside_iff zeroPhysical _ (by decide) (by decide)

/-- A page that does not start at a page boundary. -/
theorem copiesInside_not_of_unaligned :
    ¬ ∀ (p : Physical) (src : Nat → BitVec 8) (size paddr : Word),
      1 ≤ size.toNat → paddr.toNat + size.toNat ≤ p.guestMemorySize →
        CopiesInside p src size paddr := by
  intro h
  have hcopies := h zeroPhysical (fun _ => 1) 4096 0x2001 (by decide) (by decide)
  have hlast := hcopies.inside 0 4095 (by decide)
  exact absurd hlast (by decide)

end KernelMemVirt.Janus
