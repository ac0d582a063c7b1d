import Mathlib.Algebra.Group.Nat.Defs
import Mathlib.Tactic.Common

/-!
# A flat byte memory with little-endian words

A memory is a total function from addresses to bytes.  Addresses are natural
numbers, so a byte range `[a, a + n)` never wraps; a client whose machine
wraps reduces an address before it uses it.

`readBytes` and `writeBytes` are the little-endian accesses of a fixed number
of bytes, `fill` is `memset` and `copy` is `memcpy`.  The lemmas come in five groups:

* a read sees exactly the bytes of its range (`readBytes_congr`,
  `readBytes_ext`);
* a read after a write in the same place, or in another place
  (`readBytes_writeBytes_self`, `readBytes_writeBytes_of_apart`);
* a byte after a `fill` or a `copy`;
* `SameOutside`, a frame condition that every write gives, and `foldl_store_slot` for a list of
  stores into slots that are apart;
* `bytesAt` and `storeList`, for ranges of any length.
-/

namespace ByteMem

/-- A byte memory. -/
abbrev Mem := Nat → BitVec 8

/-- The `n` bytes at `a`, the first one least significant. -/
def readBytes (m : Mem) (a : Nat) : (n : Nat) → BitVec (8 * n)
  | 0 => 0#0
  | n + 1 => (readBytes m (a + 1) n ++ m a : BitVec (8 * n + 8))

/-- Store the `n` bytes of `v` at `a`, the least significant one first. -/
def writeBytes (m : Mem) (a n : Nat) (v : BitVec (8 * n)) : Mem := fun x =>
  if a ≤ x ∧ x < a + n then v.extractLsb' (8 * (x - a)) 8 else m x

/-- Set `len` bytes at `a` to `c`. -/
def fill (m : Mem) (a : Nat) (c : BitVec 8) (len : Nat) : Mem := fun x =>
  if a ≤ x ∧ x < a + len then c else m x

/-- Copy `len` bytes from `src` to `dst`, two ranges without a common address. -/
def copy (m : Mem) (dst src len : Nat) : Mem := fun x =>
  if dst ≤ x ∧ x < dst + len then m (src + (x - dst)) else m x

abbrev read32 (m : Mem) (a : Nat) : BitVec 32 := readBytes m a 4

abbrev read64 (m : Mem) (a : Nat) : BitVec 64 := readBytes m a 8

abbrev write32 (m : Mem) (a : Nat) (v : BitVec 32) : Mem := writeBytes m a 4 v

abbrev write64 (m : Mem) (a : Nat) (v : BitVec 64) : Mem := writeBytes m a 8 v

/-- Two byte ranges that share no address. -/
def Apart (a n b k : Nat) : Prop := a + n ≤ b ∨ b + k ≤ a

instance (a n b k : Nat) : Decidable (Apart a n b k) :=
  inferInstanceAs (Decidable (_ ∨ _))

theorem Apart.symm {a n b k : Nat} (h : Apart a n b k) : Apart b k a n := Or.symm h

/-! ## Reads -/

/-- Byte `i` of a read is the byte at offset `i`. -/
theorem extractLsb'_readBytes (m : Mem) (a : Nat) {n i : Nat} (hi : i < n) :
    (readBytes m a n).extractLsb' (8 * i) 8 = m (a + i) := by
  induction n generalizing a i with
  | zero => omega
  | succ n ih =>
    have hsplit : readBytes m a (n + 1) = (readBytes m (a + 1) n ++ m a : BitVec (8 * n + 8)) := rfl
    rw [hsplit]
    cases i with
    | zero =>
      ext j hj
      simp only [BitVec.getElem_extractLsb', BitVec.getLsbD_append]
      simp [hj]
    | succ i =>
      have hrec := ih (a + 1) (Nat.lt_of_succ_lt_succ hi)
      rw [show a + (i + 1) = a + 1 + i by omega, ← hrec]
      ext j hj
      simp only [BitVec.getElem_extractLsb', BitVec.getLsbD_append,
        if_neg (show ¬ 8 * (i + 1) + j < 8 by omega)]
      congr 1
      omega

/-- Two words are equal when their bytes are. -/
theorem eq_of_bytes {n : Nat} {v w : BitVec (8 * n)}
    (h : ∀ i, i < n → v.extractLsb' (8 * i) 8 = w.extractLsb' (8 * i) 8) : v = w := by
  apply BitVec.eq_of_getLsbD_eq
  intro k hk
  have hbyte := congrArg (fun b => b.getLsbD (k % 8)) (h (k / 8) (by omega))
  simp only [BitVec.getLsbD_extractLsb', show k % 8 < 8 from Nat.mod_lt _ (by decide), decide_true,
    Bool.true_and, Nat.div_add_mod] at hbyte
  exact hbyte

/-- A read is determined by the bytes of its range. -/
theorem readBytes_ext {m : Mem} {a n : Nat} {v : BitVec (8 * n)}
    (h : ∀ i, i < n → m (a + i) = v.extractLsb' (8 * i) 8) : readBytes m a n = v :=
  eq_of_bytes fun i hi => by rw [extractLsb'_readBytes m a hi, h i hi]

/-- Memories that agree on a range read the same there. -/
theorem readBytes_congr {m m' : Mem} {a n : Nat} (h : ∀ x, a ≤ x → x < a + n → m x = m' x) :
    readBytes m a n = readBytes m' a n :=
  readBytes_ext fun i hi => by
    rw [extractLsb'_readBytes m' a hi]
    exact h (a + i) (by omega) (by omega)

/-- The bits of a read are those of its bytes. -/
theorem getLsbD_readBytes (m : Mem) (a : Nat) {n i : Nat} (hi : i < 8 * n) :
    (readBytes m a n).getLsbD i = (m (a + i / 8)).getLsbD (i % 8) := by
  have hbyte := extractLsb'_readBytes m a (show i / 8 < n by omega)
  rw [← hbyte, BitVec.getLsbD_extractLsb', decide_eq_true (Nat.mod_lt i (by decide)),
    Bool.true_and, Nat.div_add_mod]

/-- The bits of a read inside a longer one. -/
theorem getLsbD_readBytes_add (m : Mem) (a : Nat) {k n len i : Nat} (hi : i < 8 * n)
    (hle : k + n ≤ len) :
    (readBytes m a len).getLsbD (8 * k + i) = (readBytes m (a + k) n).getLsbD i := by
  rw [getLsbD_readBytes m a (by omega), getLsbD_readBytes m (a + k) hi, Nat.add_assoc,
    Nat.mul_add_div (by decide), Nat.mul_add_mod]

/-- A longer read is a shorter one, extended with zeros, exactly when the bytes after it
are zero. -/
theorem readBytes_add_eq_setWidth_iff {m : Mem} {a n k : Nat} :
    readBytes m a (n + k) = (readBytes m a n).setWidth (8 * (n + k)) ↔
      readBytes m (a + n) k = 0 := by
  have hlow : ∀ i < 8 * n, (readBytes m a (n + k)).getLsbD i = (readBytes m a n).getLsbD i := by
    intro i hi
    rw [getLsbD_readBytes m a (by omega), getLsbD_readBytes m a hi]
  have hhigh : ∀ i < 8 * k,
      (readBytes m a (n + k)).getLsbD (8 * n + i) = (readBytes m (a + n) k).getLsbD i :=
    fun i hi => getLsbD_readBytes_add m a hi (Nat.le_refl _)
  constructor
  · intro heq
    apply BitVec.eq_of_getLsbD_eq
    intro i hi
    rw [← hhigh i hi, heq, BitVec.getLsbD_setWidth, BitVec.getLsbD_of_ge _ _ (by omega),
      Bool.and_false]
    exact BitVec.getLsbD_zero.symm
  · intro hzero
    apply BitVec.eq_of_getLsbD_eq
    intro i hi
    rw [BitVec.getLsbD_setWidth, decide_eq_true hi, Bool.true_and]
    by_cases hlt : i < 8 * n
    · exact hlow i hlt
    · have hbit := hhigh (i - 8 * n) (by omega)
      rw [hzero, Nat.add_sub_cancel' (by omega)] at hbit
      rw [hbit, BitVec.getLsbD_of_ge (readBytes m a n) i (by omega)]
      exact BitVec.getLsbD_zero

/-- A range of zero bytes reads as zero. -/
theorem readBytes_eq_zero {m : Mem} {a n : Nat} (h : ∀ x, a ≤ x → x < a + n → m x = 0) :
    readBytes m a n = 0 :=
  readBytes_ext fun i hi => by
    rw [h (a + i) (by omega) (by omega)]
    ext j hj
    simp

/-! ## Reads after writes -/

theorem writeBytes_apply_of_outside {m : Mem} {a n x : Nat} {v : BitVec (8 * n)}
    (h : x < a ∨ a + n ≤ x) : writeBytes m a n v x = m x :=
  if_neg (by omega)

theorem write32_apply_of_outside {m : Mem} {a x : Nat} {v : BitVec 32}
    (h : x < a ∨ a + 4 ≤ x) : write32 m a v x = m x :=
  writeBytes_apply_of_outside h

/-- A read gives back the word that was just written there. -/
theorem readBytes_writeBytes_self (m : Mem) (a n : Nat) (v : BitVec (8 * n)) :
    readBytes (writeBytes m a n v) a n = v :=
  readBytes_ext fun i hi => by
    rw [writeBytes, if_pos (by omega), show a + i - a = i by omega]

/-- A write in one range does not show in a read of another. -/
theorem readBytes_writeBytes_of_apart {m : Mem} {a n b k : Nat} {v : BitVec (8 * k)}
    (h : Apart a n b k) : readBytes (writeBytes m b k v) a n = readBytes m a n :=
  readBytes_congr fun x hlo hhi => writeBytes_apply_of_outside (by unfold Apart at h; omega)

@[simp] theorem read32_write32_self (m : Mem) (a : Nat) (v : BitVec 32) :
    read32 (write32 m a v) a = v :=
  readBytes_writeBytes_self m a 4 v

@[simp] theorem read64_write64_self (m : Mem) (a : Nat) (v : BitVec 64) :
    read64 (write64 m a v) a = v :=
  readBytes_writeBytes_self m a 8 v

/-- A write changes nothing exactly when its bytes are there already. -/
theorem writeBytes_eq_self_iff {m : Mem} {a n : Nat} {v : BitVec (8 * n)} :
    writeBytes m a n v = m ↔ readBytes m a n = v := by
  constructor
  · intro heq
    rw [← heq]
    exact readBytes_writeBytes_self m a n v
  · intro hread
    funext x
    by_cases hx : a ≤ x ∧ x < a + n
    · have hbyte := extractLsb'_readBytes m a (show x - a < n by omega)
      rw [writeBytes, if_pos hx, ← hread, hbyte, Nat.add_sub_cancel' hx.1]
    · exact writeBytes_apply_of_outside (by omega)

/-- A write in two parts. -/
theorem writeBytes_add (m : Mem) (a n k : Nat) (v : BitVec (8 * (n + k))) :
    writeBytes m a (n + k) v =
      writeBytes (writeBytes m a n (v.setWidth (8 * n))) (a + n) k
        (v.extractLsb' (8 * n) (8 * k)) := by
  funext x
  unfold writeBytes
  by_cases hhigh : a + n ≤ x ∧ x < a + n + k
  · rw [if_pos (by omega), if_pos hhigh]
    ext j hj
    rw [BitVec.getElem_extractLsb', BitVec.getElem_extractLsb', BitVec.getLsbD_extractLsb',
      decide_eq_true (by omega), Bool.true_and]
    congr 1
    omega
  rw [if_neg hhigh]
  by_cases hlow : a ≤ x ∧ x < a + n
  · rw [if_pos (by omega), if_pos hlow]
    ext j hj
    rw [BitVec.getElem_extractLsb', BitVec.getElem_extractLsb', BitVec.getLsbD_setWidth,
      decide_eq_true (by omega), Bool.true_and]
  · rw [if_neg (by omega), if_neg hlow]

/-- Writes of the same number of bytes agree exactly when their values do. -/
theorem writeBytes_inj {m : Mem} {a n : Nat} {v w : BitVec (8 * n)} :
    writeBytes m a n v = writeBytes m a n w ↔ v = w := by
  constructor
  · intro heq
    have hread := congrArg (readBytes · a n) heq
    simpa only [readBytes_writeBytes_self] using hread
  · intro heq
    rw [heq]

/-! ## A byte after a fill -/

theorem fill_apply_of_inside {m : Mem} {a len x : Nat} {c : BitVec 8} (hlo : a ≤ x)
    (hhi : x < a + len) : fill m a c len x = c :=
  if_pos ⟨hlo, hhi⟩

theorem fill_apply_of_outside {m : Mem} {a len x : Nat} {c : BitVec 8}
    (h : x < a ∨ a + len ≤ x) : fill m a c len x = m x :=
  if_neg (by omega)

/-! ## A byte after a copy -/

theorem copy_apply_of_inside {m : Mem} {dst src len i : Nat} (hi : i < len) :
    copy m dst src len (dst + i) = m (src + i) := by
  have hoff : dst + i - dst = i := by omega
  unfold copy
  rw [if_pos (by omega), hoff]

theorem copy_apply_of_outside {m : Mem} {dst src len x : Nat} (h : x < dst ∨ dst + len ≤ x) :
    copy m dst src len x = m x :=
  if_neg (by omega)

/-! ## Changes inside a range -/

/-- `m'` differs from `m` inside `[a, a + n)` at most. -/
def SameOutside (m m' : Mem) (a n : Nat) : Prop := ∀ x, x < a ∨ a + n ≤ x → m' x = m x

theorem sameOutside_writeBytes (m : Mem) (a n : Nat) (v : BitVec (8 * n)) :
    SameOutside m (writeBytes m a n v) a n :=
  fun _ hx => writeBytes_apply_of_outside hx

theorem sameOutside_fill (m : Mem) (a : Nat) (c : BitVec 8) (len : Nat) :
    SameOutside m (fill m a c len) a len :=
  fun _ hx => fill_apply_of_outside hx

theorem SameOutside.trans {m m' m'' : Mem} {a n : Nat} (h : SameOutside m m' a n)
    (h' : SameOutside m' m'' a n) : SameOutside m m'' a n :=
  fun x hx => (h' x hx).trans (h x hx)

theorem SameOutside.mono {m m' : Mem} {a n b k : Nat} (h : SameOutside m m' a n) (hlo : b ≤ a)
    (hhi : a + n ≤ b + k) : SameOutside m m' b k :=
  fun x hx => h x (by omega)

/-- The same store to both memories. -/
theorem SameOutside.writeBytes {m m' : Mem} {a n : Nat} (h : SameOutside m m' a n) (b k : Nat)
    (v : BitVec (8 * k)) :
    SameOutside (ByteMem.writeBytes m b k v) (ByteMem.writeBytes m' b k v) a n := by
  intro x hx
  unfold ByteMem.writeBytes
  rw [h x hx]

theorem SameOutside.fill {m m' : Mem} {a n : Nat} (h : SameOutside m m' a n) (b : Nat)
    (c : BitVec 8) (len : Nat) :
    SameOutside (ByteMem.fill m b c len) (ByteMem.fill m' b c len) a n := by
  intro x hx
  unfold ByteMem.fill
  rw [h x hx]

/-! ## Stores into slots -/

section Slots

variable {ι : Type} {store : Mem → ι → Mem} {slot : ι → Nat} {len : Nat}

/-- A byte outside of the slots of a list of stores. -/
theorem foldl_store_apply_of_outside (hframe : ∀ m i, SameOutside m (store m i) (slot i) len)
    {x : Nat} (l : List ι) (hx : ∀ i ∈ l, x < slot i ∨ slot i + len ≤ x) (m : Mem) :
    l.foldl store m x = m x := by
  induction l generalizing m with
  | nil => rfl
  | cons i l ih =>
    rw [List.foldl_cons, ih fun j hj => hx j (List.mem_cons_of_mem _ hj)]
    exact hframe m i x (hx i List.mem_cons_self)

/-- What each store puts into its own slot is there after all of them. -/
theorem foldl_store_slot (hframe : ∀ m i, SameOutside m (store m i) (slot i) len)
    (hapart : ∀ i j, i ≠ j → Apart (slot i) len (slot j) len) {P : ι → Mem → Prop}
    (hset : ∀ m i, P i (store m i))
    (hkeep : ∀ i m m', (∀ x, slot i ≤ x → x < slot i + len → m' x = m x) → P i m → P i m')
    {l : List ι} {i : ι} (hi : i ∈ l) (m : Mem) : P i (l.foldl store m) := by
  induction l generalizing m with
  | nil => cases hi
  | cons j l ih =>
    rw [List.foldl_cons]
    by_cases hmem : i ∈ l
    · exact ih hmem (store m j)
    · obtain rfl : i = j := (List.mem_cons.mp hi).resolve_right hmem
      refine hkeep i (store m i) _ (fun x hlo hhi => ?_) (hset m i)
      refine foldl_store_apply_of_outside hframe l (fun k hk => ?_) _
      have hsep := hapart i k fun heq => hmem (heq ▸ hk)
      unfold Apart at hsep
      omega

end Slots

/-- A read apart from the range sees no change. -/
theorem SameOutside.readBytes {m m' : Mem} {a n b k : Nat} (h : SameOutside m m' a n)
    (hsep : Apart b k a n) : ByteMem.readBytes m' b k = ByteMem.readBytes m b k :=
  readBytes_congr fun x hlo hhi => h x (by unfold Apart at hsep; omega)

theorem sameOutside_copy (m : Mem) (dst src len : Nat) :
    SameOutside m (copy m dst src len) dst len :=
  fun _ hx => copy_apply_of_outside hx

/-! ## Lists of bytes -/

/-- The `n` bytes at `a`. -/
def bytesAt (m : Mem) (a n : Nat) : List (BitVec 8) := (List.range n).map fun i => m (a + i)

/-- Store the bytes of a list at `a`. -/
def storeList (m : Mem) (a : Nat) (l : List (BitVec 8)) : Mem := fun x =>
  if a ≤ x then l[x - a]?.getD (m x) else m x

section Lists

variable {m m' : Mem} {a b n k : Nat}

@[simp] theorem length_bytesAt (m : Mem) (a n : Nat) : (bytesAt m a n).length = n := by
  simp [bytesAt]

theorem bytesAt_congr (h : ∀ i < n, m (a + i) = m' (b + i)) : bytesAt m a n = bytesAt m' b n :=
  List.map_congr_left fun i hi => h i (List.mem_range.mp hi)

theorem bytesAt_add (m : Mem) (a n k : Nat) :
    bytesAt m a (n + k) = bytesAt m a n ++ bytesAt m (a + n) k := by
  simp [bytesAt, List.range_add, Nat.add_assoc]

theorem SameOutside.bytesAt (h : SameOutside m m' a n) (hsep : Apart b k a n) :
    ByteMem.bytesAt m' b k = ByteMem.bytesAt m b k :=
  bytesAt_congr fun i hi => h (b + i) (by unfold Apart at hsep; omega)

theorem sameOutside_storeList (m : Mem) (a : Nat) (l : List (BitVec 8)) :
    SameOutside m (storeList m a l) a l.length := by
  intro x hx
  unfold storeList
  split
  · rw [List.getElem?_eq_none (by omega), Option.getD_none]
  · rfl

@[simp] theorem bytesAt_storeList (m : Mem) (a : Nat) (l : List (BitVec 8)) :
    bytesAt (storeList m a l) a l.length = l := by
  refine List.ext_getElem (length_bytesAt _ _ _) fun i hi hi' => ?_
  have hoff : a + i - a = i := by omega
  simp only [bytesAt, List.getElem_map, List.getElem_range, storeList]
  rw [if_pos (by omega), hoff, List.getElem?_eq_getElem hi', Option.getD_some]

/-- The text is there after the copy. -/
theorem bytesAt_copy (m : Mem) (dst src n : Nat) :
    bytesAt (copy m dst src n) dst n = bytesAt m src n :=
  bytesAt_congr fun _ hi => copy_apply_of_inside hi

end Lists

end ByteMem
