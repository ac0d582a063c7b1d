import KernelMemVirt.Gc.Alloc
import KernelMemVirt.Lib.Bitset

/-!
# Request sizes in natural numbers

`alloc.c` computes slot widths, zone lengths and allocator indices in 32-bit
integers.  For requests below `2 ^ 31` bytes nothing wraps, and each is a plain
function of the size.  Sizes from `NB_ZONES << OBJECT_ALIGN_SHIFT`, which is
8192, on are large.
-/

namespace KernelMemVirt.Gc

/-- The width of the slot of an object of `n` bytes. -/
def slotWidth (n : Nat) : Nat := ((if n = 0 then 8 else n) + 11) / 8 * 8

/-- A length rounded up to whole pages. -/
def pageRound (n : Nat) : Nat := (n + 4095) / 4096 * 4096

theorem align_eight_toNat {x : Int32} (hx : x.toNat + 7 < 2 ^ 32) :
    (align x 8).toNat = (x.toNat + 7) / 8 * 8 := by
  have hsum : (x + 8 - 1).toNat = x.toNat + 7 := by bv_omega
  have hmask : ∀ i, i < 32 → BitVec.getLsbD (-8 : Int32) i = decide (3 ≤ i) := by decide
  rw [align, Bitset.toNat_and_mask hmask, hsum, show 2 ^ 3 = 8 from rfl]

theorem align_page_toNat {x : Int32} (hx : x.toNat + 4095 < 2 ^ 32) :
    (align x 4096).toNat = pageRound x.toNat := by
  have hsum : (x + 4096 - 1).toNat = x.toNat + 4095 := by bv_omega
  have hmask : ∀ i, i < 32 → BitVec.getLsbD (-4096 : Int32) i = decide (12 ≤ i) := by decide
  rw [align, Bitset.toNat_and_mask hmask, hsum]
  rfl

/-! ## The width of a slot -/

theorem totalSize_toNat {size : Int32} (h : size.toNat < 2 ^ 31) :
    (totalSize size).toNat = slotWidth size.toNat := by
  unfold totalSize slotWidth
  by_cases h0 : size = 0
  · subst h0
    decide
  · have hne : size.toNat ≠ 0 := fun heq => h0 (BitVec.eq_of_toNat_eq heq)
    have hsum : (size + 4).toNat = size.toNat + 4 := by bv_omega
    rw [if_neg h0, if_neg hne, align_eight_toNat (by omega), hsum]

/-- A slot has room for the header and the object. -/
theorem header_add_le_slotWidth (n : Nat) : 4 + n ≤ slotWidth n := by
  unfold slotWidth
  split <;> omega

theorem slotWidth_le (n : Nat) : slotWidth n ≤ n + 16 := by
  unfold slotWidth
  split <;> omega

/-- From 5 bytes on, a slot has room for the link of a free list. -/
theorem twelve_le_slotWidth {n : Nat} (h : 5 ≤ n) : 12 ≤ slotWidth n := by
  unfold slotWidth
  split <;> omega

/-! ## The length of a zone -/

theorem le_pageRound (n : Nat) : n ≤ pageRound n := by
  unfold pageRound
  omega

theorem pageRound_mod (n : Nat) : pageRound n % 4096 = 0 := Nat.mul_mod_left _ _

/-- The zone of a size class. -/
theorem classZone_toNat {size : Int32} (h : size.toNat < 8192) :
    (align (totalSize size * 32) 4096).toNat = pageRound (32 * slotWidth size.toNat) := by
  have htot := totalSize_toNat (show size.toNat < 2 ^ 31 by omega)
  have hle := slotWidth_le size.toNat
  have hmul : (totalSize size * 32).toNat = 32 * slotWidth size.toNat := by
    rw [BitVec.toNat_mul, htot, show (32 : Int32).toNat = 32 from rfl]
    omega
  rw [align_page_toNat (by omega), hmul]

/-- The zone of a large object. -/
theorem largeZone_toNat {size : Int32} (h : size.toNat < 2 ^ 31) :
    (align (totalSize size) 4096).toNat = pageRound (slotWidth size.toNat) := by
  have htot := totalSize_toNat h
  have hle := slotWidth_le size.toNat
  rw [align_page_toNat (by omega), htot]

/-! ## The allocator of a size -/

theorem toInt_of_lt {size : Int32} (h : size.toNat < 2 ^ 31) : size.toInt = size.toNat :=
  BitVec.toInt_eq_toNat_of_lt (by omega)

theorem getObjectAllocator_small {size : Int32} (h : size.toNat < 8192) :
    getObjectAllocator size = some (.ofNat (size.toNat / 4)) := by
  unfold getObjectAllocator NB_ZONES
  rw [toInt_of_lt (by omega), if_pos (by omega)]
  rfl

theorem getObjectAllocator_large {size : Int32} (h : 8192 ≤ size.toNat)
    (hmax : size.toNat < 2 ^ 31) : getObjectAllocator size = none := by
  unfold getObjectAllocator NB_ZONES
  rw [toInt_of_lt hmax, if_neg (by omega)]

/-- A size that is negative as an `int` has an index before the array. -/
theorem getObjectAllocator_neg {size : Int32} (h : 2 ^ 31 ≤ size.toNat) :
    ∃ i, getObjectAllocator size = some (.negSucc i) := by
  have hint : size.toInt = size.toNat - 2 ^ 32 := by
    rw [BitVec.toInt_eq_toNat_cond, if_neg (by omega)]
    rfl
  have hlt := size.isLt
  have hneg : size.toInt / 4 < 0 := by omega
  unfold getObjectAllocator NB_ZONES
  rw [if_pos (by omega)]
  obtain ⟨i, hi⟩ := Int.eq_negSucc_of_lt_zero hneg
  exact ⟨i, congrArg some hi⟩

/-! ## The range of a request -/

/-- The `int` that `allocate_internal` passes to `new_zone` as the length, where it needs a zone. -/
def zoneLength (size : Int32) : Int32 :=
  match getObjectAllocator size with
  | some _ => align (totalSize size * 32) 4096
  | none => align (totalSize size) 4096

theorem Heap.takeSlot_eq_newZone (s : Heap) {size : Int32} (zeroFilled : Bool)
    (mapped : Option Nat) (h : getObjectAllocator size = none) :
    s.takeSlot size zeroFilled mapped = s.newZone (zoneLength size) (totalSize size) mapped := by
  simp only [takeSlot, zoneLength, h]

theorem Heap.bump_eq_newZone (s : Heap) {size : Int32} {i : Nat} (mapped : Option Nat)
    (h : getObjectAllocator size = some (.ofNat i))
    (hfull : (s.allocator i).endZone < (s.allocator i).currentZone + (totalSize size).toNat) :
    s.bump i (totalSize size) mapped =
      (s.newZone (zoneLength size) (totalSize size) mapped).map fun (s', zone) =>
        (s'.setAllocator i
          { s.allocator i with
            currentZone := zone + (totalSize size).toNat,
            endZone := zone + (zoneLength size).toNat }, zone) := by
  simp only [bump, zoneLength, h, if_pos hfull]

/-- The arithmetic of a request is right: there is an allocator for the size and its slots are wide
enough, or a zone is asked for that is long enough.  `mmap` takes a `size_t`. -/
structure RequestInRange (size : Int32) : Prop where
  place :
    (∃ i : Int, getObjectAllocator size = some i ∧ 0 ≤ i ∧ i < NB_ZONES ∧
      (size.toNat : Int) + 4 ≤ (totalSize size).toInt ∧ 0 < (totalSize size).toInt) ∨
    (getObjectAllocator size = none ∧
      size.toNat + 4 ≤ ((zoneLength size).signExtend 64).toNat ∧ 0 < (totalSize size).toInt)
  /-- The width does not wrap, -/
  width : (totalSize size).toInt = slotWidth size.toNat
  /-- and neither does the length. -/
  length : (zoneLength size).toInt =
    pageRound (if size.toNat < 8192 then 32 * slotWidth size.toNat else slotWidth size.toNat)

/-- The longest zone of one object that is not negative as an `int`. -/
theorem pageRound_slotWidth_lt {n : Nat} (h : n + 4100 ≤ 2 ^ 31) :
    pageRound (slotWidth n) < 2 ^ 31 := by
  unfold slotWidth pageRound
  split <;> omega

theorem le_pageRound_slotWidth {n : Nat} (h : 2 ^ 31 < n + 4100) :
    2 ^ 31 ≤ pageRound (slotWidth n) := by
  unfold slotWidth pageRound
  split <;> omega

theorem pageRound_class_lt {n : Nat} (h : n < 8192) : pageRound (32 * slotWidth n) < 2 ^ 31 := by
  have := slotWidth_le n
  unfold pageRound
  omega

/-- The arithmetic is right exactly for the sizes whose zone, in whole pages, stays below
`2 ^ 31`. -/
theorem requestInRange_iff (size : Int32) :
    RequestInRange size ↔ size.toNat + 4100 ≤ 2 ^ 31 := by
  constructor
  · intro h
    by_contra hlarge
    by_cases hint : size.toNat < 2 ^ 31
    · have hround := le_pageRound_slotWidth (show 2 ^ 31 < size.toNat + 4100 by omega)
      have hlength := h.length
      rw [if_neg (by omega)] at hlength
      have hlt := (zoneLength size).toInt_lt
      omega
    · obtain ⟨i, hi⟩ := getObjectAllocator_neg (Nat.le_of_not_lt hint)
      rcases h.place with ⟨j, hj, hpos, -⟩ | ⟨hnone, -⟩
      · rw [hi] at hj
        cases hj
        omega
      · rw [hi] at hnone
        cases hnone
  · intro h
    have htot := totalSize_toNat (show size.toNat < 2 ^ 31 by omega)
    have hfits := header_add_le_slotWidth size.toNat
    have hround := le_pageRound (slotWidth size.toNat)
    have hlarge := pageRound_slotWidth_lt h
    have hwidth : (totalSize size).toInt = slotWidth size.toNat := by
      rw [toInt_of_lt (by omega), htot]
    by_cases hsmall : size.toNat < 8192
    · have hentry := getObjectAllocator_small hsmall
      have hlength : (zoneLength size).toInt = pageRound (32 * slotWidth size.toNat) := by
        have hclass := classZone_toNat hsmall
        have hlt := pageRound_class_lt hsmall
        simp only [zoneLength, hentry]
        rw [toInt_of_lt (by omega), hclass]
      refine ⟨.inl ⟨_, hentry, Int.natCast_nonneg _, ?_, by omega, by omega⟩, hwidth, ?_⟩
      · exact Int.ofNat_lt.mpr (show size.toNat / 4 < NB_ZONES by unfold NB_ZONES; omega)
      · rw [if_pos hsmall, hlength]
    · have hnone := getObjectAllocator_large (by omega) (show size.toNat < 2 ^ 31 by omega)
      have hzone : zoneLength size = align (totalSize size) 4096 := by
        simp only [zoneLength, hnone]
      have hlen := largeZone_toNat (show size.toNat < 2 ^ 31 by omega)
      have hlength : (zoneLength size).toInt = pageRound (slotWidth size.toNat) := by
        rw [hzone, toInt_of_lt (by omega), hlen]
      have hmmap : ((zoneLength size).signExtend 64).toNat = pageRound (slotWidth size.toNat) := by
        have hext : ((zoneLength size).signExtend 64).toInt = (zoneLength size).toInt :=
          BitVec.toInt_signExtend_of_le (by decide)
        rw [hlength, BitVec.toInt_eq_toNat_cond] at hext
        split at hext <;> omega
      refine ⟨.inr ⟨hnone, by omega, by omega⟩, hwidth, ?_⟩
      rw [if_neg hsmall, hlength]

/-- From 2 GiB on, the index into `allocator` is negative. -/
theorem requestInRange_not_of_neg : ¬ ∀ size : Int32, RequestInRange size := by
  intro h
  rcases (h 0x80000000).place with ⟨i, hi, hpos, -⟩ | ⟨hnone, -⟩
  · have hindex : getObjectAllocator 0x80000000 = some (-536870912) := by decide
    rw [hindex] at hi
    cases hi
    omega
  · revert hnone
    decide

end KernelMemVirt.Gc
