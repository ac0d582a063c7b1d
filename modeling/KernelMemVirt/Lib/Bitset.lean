import Mathlib.Algebra.Group.Nat.Defs
import Mathlib.Data.Finset.Card
import Mathlib.Data.Finset.Range

/-!
# Bit sets in lists of 64-bit words

Bit `n` of the set is bit `n % 64` of word `n / 64`.  `get_set` and `get_clear`
are the two updates, and `free_set` counts the bits that are clear.
`toNat_and_mask` is the use of a mask to round down.
-/

namespace Bitset

/-- Bit `n`; a bit beyond the last word is clear. -/
def get (ws : List (BitVec 64)) (n : Nat) : Bool := (ws.getD (n / 64) 0).getLsbD (n % 64)

/-- The word with only bit `j`. -/
def bit (j : Nat) : BitVec 64 := 1#64 <<< j

/-- Set bit `n`. -/
def set (ws : List (BitVec 64)) (n : Nat) : List (BitVec 64) :=
  ws.set (n / 64) (ws.getD (n / 64) 0 ||| bit (n % 64))

/-- Clear bit `n`. -/
def clear (ws : List (BitVec 64)) (n : Nat) : List (BitVec 64) :=
  ws.set (n / 64) (ws.getD (n / 64) 0 &&& ~~~bit (n % 64))

variable {ws : List (BitVec 64)} {n k : Nat}

theorem getLsbD_bit {j i : Nat} (hj : j < 64) : (bit j).getLsbD i = decide (i = j) := by
  unfold bit
  rw [BitVec.getLsbD_shiftLeft, BitVec.getLsbD_one]
  by_cases h : i = j
  · simp [h, hj]
  · have hsub : i < j ∨ i - j ≠ 0 := by omega
    rcases hsub with hlt | hne
    · simp [hlt, h]
    · simp [hne, h]

/-- The test of one bit, as a program writes it. -/
theorem and_bit_eq_zero {w : BitVec 64} {j : Nat} (hj : j < 64) :
    w &&& bit j = 0 ↔ w.getLsbD j = false := by
  constructor
  · intro h
    have hbit := congrArg (fun v => v.getLsbD j) h
    simpa [getLsbD_bit hj] using hbit
  · intro h
    apply BitVec.eq_of_getLsbD_eq
    intro i _
    rw [BitVec.getLsbD_and, getLsbD_bit hj]
    by_cases hij : i = j
    · simp [hij, h]
    · simp [hij]

@[simp] theorem length_set : (set ws n).length = ws.length := List.length_set

@[simp] theorem length_clear : (clear ws n).length = ws.length := List.length_set

theorem getD_set {w : BitVec 64} {i j : Nat} (hi : i < ws.length) :
    (ws.set i w).getD j 0 = if j = i then w else ws.getD j 0 := by
  rw [List.getD_eq_getElem?_getD, List.getElem?_set, List.getD_eq_getElem?_getD]
  by_cases h : i = j
  · subst h
    simp [hi]
  · simp [h, Ne.symm h]

/-- The empty set. -/
theorem get_replicate (words k : Nat) : get (List.replicate words 0#64) k = false := by
  have hzero : (List.replicate words 0#64).getD (k / 64) 0#64 = 0#64 := by
    rw [List.getD_eq_getElem?_getD, List.getElem?_replicate]
    split <;> rfl
  unfold get
  exact (congrArg (fun w => BitVec.getLsbD w (k % 64)) hzero).trans BitVec.getLsbD_zero

theorem get_set (hn : n < 64 * ws.length) : get (set ws n) k = (decide (k = n) || get ws k) := by
  unfold get set
  rw [getD_set (by omega)]
  by_cases hword : k / 64 = n / 64
  · rw [if_pos hword, BitVec.getLsbD_or, getLsbD_bit (Nat.mod_lt _ (by omega)), hword,
      Bool.or_comm]
    congr 1
    exact decide_eq_decide.mpr ⟨fun h => by omega, fun h => by omega⟩
  · rw [if_neg hword, decide_eq_false (by rintro rfl; exact hword rfl), Bool.false_or]

theorem get_clear (hn : n < 64 * ws.length) :
    get (clear ws n) k = (!decide (k = n) && get ws k) := by
  unfold get clear
  rw [getD_set (by omega)]
  by_cases hword : k / 64 = n / 64
  · rw [if_pos hword, BitVec.getLsbD_and, BitVec.getLsbD_not,
      getLsbD_bit (Nat.mod_lt _ (by omega)), hword, Bool.and_comm]
    have heq : decide (k % 64 = n % 64) = decide (k = n) :=
      decide_eq_decide.mpr ⟨fun h => by omega, fun h => by omega⟩
    rw [heq, decide_eq_true (Nat.mod_lt k (by omega)), Bool.true_and]
  · rw [if_neg hword, decide_eq_false (by rintro rfl; exact hword rfl), Bool.not_false,
      Bool.true_and]

/-! ## Counting -/

/-- The number of clear bits. -/
def free (ws : List (BitVec 64)) : Nat :=
  ((Finset.range (64 * ws.length)).filter fun n => get ws n = false).card

/-- Some bit is clear. -/
theorem exists_of_free_pos (h : 0 < free ws) : ∃ n, n < 64 * ws.length ∧ get ws n = false := by
  obtain ⟨n, hn⟩ := Finset.card_pos.mp h
  rw [Finset.mem_filter, Finset.mem_range] at hn
  exact ⟨n, hn⟩

/-- No bit is clear. -/
theorem get_of_free_eq_zero (h : free ws = 0) (hn : n < 64 * ws.length) : get ws n = true := by
  rw [← Bool.not_eq_false]
  intro hclear
  have hempty := Finset.card_eq_zero.mp h
  exact Finset.notMem_empty n (hempty ▸ Finset.mem_filter.mpr ⟨Finset.mem_range.mpr hn, hclear⟩)

/-- Setting a clear bit takes one away. -/
theorem free_set (hn : n < 64 * ws.length) (hclear : get ws n = false) :
    free ws = free (set ws n) + 1 := by
  unfold free
  have herase : ((Finset.range (64 * (set ws n).length)).filter fun k => get (set ws n) k = false)
      = ((Finset.range (64 * ws.length)).filter fun k => get ws k = false).erase n := by
    ext k
    rw [Finset.mem_erase, Finset.mem_filter, Finset.mem_filter, length_set, get_set hn]
    by_cases hk : k = n <;> simp [hk]
  rw [herase, Finset.card_erase_add_one]
  rw [Finset.mem_filter, Finset.mem_range]
  exact ⟨hn, hclear⟩

/-- A mask of high bits rounds down. -/
theorem toNat_and_mask {w : Nat} {x mask : BitVec w} {k : Nat}
    (hmask : ∀ i, i < w → mask.getLsbD i = decide (k ≤ i)) :
    (x &&& mask).toNat = x.toNat / 2 ^ k * 2 ^ k := by
  have hshift : x &&& mask = (x >>> k) <<< k := by
    apply BitVec.eq_of_getLsbD_eq
    intro i hi
    rw [BitVec.getLsbD_and, hmask i hi, BitVec.getLsbD_shiftLeft, BitVec.getLsbD_ushiftRight]
    by_cases hk : k ≤ i
    · rw [decide_eq_true hk, decide_eq_true hi, decide_eq_false (Nat.not_lt.mpr hk),
        Nat.add_sub_cancel' hk]
      simp only [Bool.and_true, Bool.not_false, Bool.true_and]
    · rw [decide_eq_false hk, decide_eq_true (Nat.not_le.mp hk)]
      simp only [Bool.and_false, Bool.not_true, Bool.false_and]
  have hle := Nat.div_mul_le_self x.toNat (2 ^ k)
  rw [hshift, BitVec.toNat_shiftLeft, BitVec.toNat_ushiftRight, Nat.shiftRight_eq_div_pow,
    Nat.shiftLeft_eq, Nat.mod_eq_of_lt (hle.trans_lt x.isLt)]

end Bitset
