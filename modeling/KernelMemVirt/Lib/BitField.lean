import Mathlib.Tactic.Common

/-!
# Bit fields of a word

A field of a word of `n` bits is `len` bits from bit `lo` on.  `get` gives a field in the
low bits of a word and `set` replaces it, both by shifts and masks as compiled code does it.

* `getLsbD_get`, `getLsbD_set`: the bits of both.
* `get_eq_get_iff`: fields are equal when their bits are; `get_add_eq_iff` splits a field.
* `get_set_of_inside`, `get_set_of_apart`: a field after another one is replaced.
-/

namespace BitField

variable {n : Nat}

/-- The low `len` bits. -/
def mask (n len : Nat) : BitVec n := (BitVec.allOnes len).setWidth n

def get (w : BitVec n) (lo len : Nat) : BitVec n := w >>> lo &&& mask n len

def set (w : BitVec n) (lo len : Nat) (v : BitVec n) : BitVec n :=
  w &&& ~~~(mask n len <<< lo) ||| (v &&& mask n len) <<< lo

/-! ## Bits -/

@[simp] theorem getLsbD_mask (len i : Nat) :
    (mask n len).getLsbD i = (decide (i < n) && decide (i < len)) := by
  simp [mask]

@[simp] theorem getLsbD_get (w : BitVec n) (lo len i : Nat) :
    (get w lo len).getLsbD i = (decide (i < len) && w.getLsbD (lo + i)) := by
  rw [get, BitVec.getLsbD_and, BitVec.getLsbD_ushiftRight, getLsbD_mask, Bool.and_comm]
  by_cases hi : i < n
  · simp only [hi, decide_true, Bool.true_and]
  · simp only [BitVec.getLsbD_of_ge w (lo + i) (by omega), Bool.and_false]

theorem getLsbD_set (w v : BitVec n) (lo len : Nat) {i : Nat} (hi : i < n) :
    (set w lo len v).getLsbD i =
      if lo ≤ i ∧ i < lo + len then v.getLsbD (i - lo) else w.getLsbD i := by
  have hsub : i - lo < n := by omega
  simp only [set, BitVec.getLsbD_or, BitVec.getLsbD_and, BitVec.getLsbD_not,
    BitVec.getLsbD_shiftLeft, getLsbD_mask, hi, hsub, decide_true, Bool.true_and]
  by_cases hlo : lo ≤ i
  · by_cases hlen : i - lo < len
    · rw [if_pos ⟨hlo, by omega⟩]
      simp [hlen, Nat.not_lt.mpr hlo]
    · rw [if_neg (by omega)]
      simp [hlen]
  · rw [if_neg (by omega)]
    simp [Nat.not_le.mp hlo]

/-! ## Equal fields -/

theorem get_eq_get_iff {w w' : BitVec n} {lo lo' len : Nat} :
    get w lo len = get w' lo' len ↔
      ∀ i < len, w.getLsbD (lo + i) = w'.getLsbD (lo' + i) := by
  constructor
  · intro heq i hi
    have hbit := congrArg (BitVec.getLsbD · i) heq
    simpa [hi] using hbit
  · intro hbits
    apply BitVec.eq_of_getLsbD_eq
    intro i _
    by_cases hi : i < len
    · simp [hi, hbits i hi]
    · simp [hi]

/-- A field is equal to another one when both of its parts are. -/
theorem get_add_eq_iff {w w' : BitVec n} {lo lo' len len' : Nat} :
    get w lo (len + len') = get w' lo' (len + len') ↔
      get w lo len = get w' lo' len ∧ get w (lo + len) len' = get w' (lo' + len) len' := by
  simp only [get_eq_get_iff]
  constructor
  · intro hall
    refine ⟨fun i hi => hall i (by omega), fun i hi => ?_⟩
    rw [Nat.add_assoc, Nat.add_assoc]
    exact hall (len + i) (by omega)
  · rintro ⟨hlow, hhigh⟩ i hi
    by_cases hlt : i < len
    · exact hlow i hlt
    · have hbit := hhigh (i - len) (by omega)
      rwa [show lo + len + (i - len) = lo + i by omega,
        show lo' + len + (i - len) = lo' + i by omega] at hbit

/-- The whole word is a field of its own. -/
@[simp] theorem get_all (w : BitVec n) : get w 0 n = w := by
  apply BitVec.eq_of_getLsbD_eq
  intro i hi
  rw [getLsbD_get, decide_eq_true hi, Bool.true_and, Nat.zero_add]

/-- A field of a field. -/
theorem get_get (w : BitVec n) {lo len lo' len' : Nat} (hle : lo' + len' ≤ len) :
    get (get w lo len) lo' len' = get w (lo + lo') len' := by
  apply get_eq_get_iff.mpr
  intro i hi
  rw [getLsbD_get, decide_eq_true (by omega), Bool.true_and, Nat.add_assoc]

/-! ## Fields after a replacement -/

theorem get_set_of_inside (w v : BitVec n) {lo len lo' len' : Nat} (hlo : lo ≤ lo')
    (hle : lo' + len' ≤ lo + len) (hn : lo + len ≤ n) :
    get (set w lo len v) lo' len' = get v (lo' - lo) len' := by
  apply get_eq_get_iff.mpr
  intro i hi
  rw [getLsbD_set w v lo len (by omega), if_pos (by omega)]
  congr 1
  omega

theorem get_set_of_apart (w v : BitVec n) {lo len lo' len' : Nat}
    (hapart : lo' + len' ≤ lo ∨ lo + len ≤ lo') :
    get (set w lo len v) lo' len' = get w lo' len' := by
  apply get_eq_get_iff.mpr
  intro i hi
  by_cases hn : lo' + i < n
  · rw [getLsbD_set w v lo len hn, if_neg (by omega)]
  · rw [BitVec.getLsbD_of_ge _ _ (by omega), BitVec.getLsbD_of_ge _ _ (by omega)]

/-- The value that is put into a field. -/
theorem get_set_self (w v : BitVec n) {lo len : Nat} (hn : lo + len ≤ n) :
    get (set w lo len v) lo len = get v 0 len := by
  rw [get_set_of_inside w v (Nat.le_refl lo) (Nat.le_refl _) hn, Nat.sub_self]

/-- Only the low bits of the value are put into a field. -/
theorem set_congr {w v v' : BitVec n} {lo len : Nat} (hv : get v 0 len = get v' 0 len) :
    set w lo len v = set w lo len v' := by
  apply BitVec.eq_of_getLsbD_eq
  intro i hi
  rw [getLsbD_set w v lo len hi, getLsbD_set w v' lo len hi]
  by_cases hin : lo ≤ i ∧ i < lo + len
  · have hbit := get_eq_get_iff.mp hv (i - lo) (by omega)
    simpa [hin] using hbit
  · simp [hin]

/-- Words with a field replaced are equal when the values are, and the bits above it. -/
theorem set_low_eq_set_low_iff {w w' v v' : BitVec n} {len : Nat} (hn : len ≤ n) :
    set w 0 len v = set w' 0 len v' ↔
      get v 0 len = get v' 0 len ∧ get w len (n - len) = get w' len (n - len) := by
  obtain ⟨rest, rfl⟩ := Nat.exists_eq_add_of_le hn
  rw [← get_all (set w 0 len v), ← get_all (set w' 0 len v'), get_add_eq_iff, Nat.zero_add,
    get_set_self w v (by omega), get_set_self w' v' (by omega), get_set_of_apart w v (by omega),
    get_set_of_apart w' v' (by omega), Nat.add_sub_cancel_left]

/-- The low field of a word, as a word of its width. -/
theorem setWidth_eq_setWidth_iff {w w' : BitVec n} {len : Nat} :
    w.setWidth len = w'.setWidth len ↔ get w 0 len = get w' 0 len := by
  rw [get_eq_get_iff]
  constructor
  · intro heq i hi
    have hbit := congrArg (BitVec.getLsbD · i) heq
    simpa [hi] using hbit
  · intro hbits
    apply BitVec.eq_of_getLsbD_eq
    intro i hi
    have hbit := hbits i hi
    rw [Nat.zero_add] at hbit
    rw [BitVec.getLsbD_setWidth, BitVec.getLsbD_setWidth, hbit]

end BitField
