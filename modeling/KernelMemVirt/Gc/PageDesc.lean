import KernelMemVirt.Gc.Size

/-!
# The page table of the allocator

`heap_desc` has one entry for each page number, and the page number of an
address keeps its low 32 bits only.

* `hashZone_page` and `hashZone_other` say what `hash_zone` writes: the first
  page of a zone gets the element size, page `k` gets `depl * k`, and the other
  entries keep their values.
* `zoneOf_page` is the way back from a page of a zone to its first page.
* `headerAddr_toNat` and `headerIn_eq` are the division by the element size.
-/

namespace KernelMemVirt.Gc

open ByteMem

/-- The page number of an address. -/
def pageOf (a : Nat) : Nat := a % 2 ^ 32 / 4096

theorem pageNumber_toNat {a : Nat} (ha : a < 2 ^ 64) :
    (pageNumber (BitVec.ofNat 64 a)).toNat = pageOf a := by
  unfold pageNumber pageOf
  rw [BitVec.toNat_ushiftRight, BitVec.toNat_shiftLeft, BitVec.toNat_ofNat, Nat.mod_eq_of_lt ha,
    Nat.shiftLeft_eq, Nat.shiftRight_eq_div_pow]
  omega

theorem pageOf_lt (a : Nat) : pageOf a < 2 ^ 20 := by
  unfold pageOf
  omega

/-- The pages that follow a page, modulo the size of the table. -/
theorem pageOf_add {b : Nat} (k : Nat) (hb : b % 4096 = 0) :
    pageOf (b + 4096 * k) = (pageOf b + k) % 2 ^ 20 := by
  unfold pageOf
  omega

/-- Pages less than `2 ^ 20` apart have different numbers. -/
theorem pageOf_inj {a : Nat} {j k : Nat} (hj : j < 2 ^ 20) (hk : k < 2 ^ 20)
    (h : pageOf (a + 4096 * j) = pageOf (a + 4096 * k)) : j = k := by
  unfold pageOf at h
  omega

/-! ## Writing the table -/

theorem setPageDesc_self (desc : Nat → Word) {a : Nat} (ha : a < 2 ^ 64) (v : Word) :
    setPageDesc desc a v (pageOf a) = v := by
  rw [setPageDesc, pageNumber_toNat ha, Function.update_self]

theorem setPageDesc_other (desc : Nat → Word) {a i : Nat} (ha : a < 2 ^ 64) (hi : pageOf a ≠ i)
    (v : Word) : setPageDesc desc a v i = desc i := by
  rw [setPageDesc, pageNumber_toNat ha, Function.update_of_ne hi.symm]

theorem next_page (a j : Nat) : a + PAGE_SIZE + 4096 * j = a + 4096 * (j + 1) := by
  unfold PAGE_SIZE
  omega

theorem hashLoop_other {stop i : Nat} (hstop : stop < 2 ^ 64) (depl : Int32) :
    ∀ (turns : Nat) (desc : Nat → Word) (cur : Nat) (n : Int32),
      (∀ j, cur + 4096 * j < stop → pageOf (cur + 4096 * j) ≠ i) →
        hashLoop desc cur stop n depl turns i = desc i := by
  intro turns
  induction turns with
  | zero => exact fun _ _ _ _ => rfl
  | succ turns ih =>
    intro desc cur n hother
    unfold hashLoop
    split
    · next hcur =>
      rw [ih _ _ _ fun j hj => ?_]
      · exact setPageDesc_other desc (by omega) (hother 0 hcur) _
      · rw [next_page] at hj ⊢
        exact hother (j + 1) hj
    · rfl

/-- Turn `k` of the loop writes `n + depl * k`. -/
theorem hashLoop_page {stop : Nat} (hstop : stop < 2 ^ 64) (depl : Int32) :
    ∀ (k turns : Nat) (desc : Nat → Word) (cur : Nat) (n : Int32), k < turns →
      cur + 4096 * k < stop → stop ≤ cur + 2 ^ 32 →
        hashLoop desc cur stop n depl turns (pageOf (cur + 4096 * k))
          = (n + depl * BitVec.ofNat 32 k).signExtend 64 := by
  intro k
  induction k with
  | zero =>
    intro turns desc cur n hturns hcur hspan
    obtain ⟨turns, rfl⟩ : ∃ t, turns = t + 1 := ⟨turns - 1, by omega⟩
    rw [hashLoop, if_pos (by omega), hashLoop_other hstop depl _ _ _ _ fun j hj => ?_]
    · simpa using setPageDesc_self desc (show cur < 2 ^ 64 by omega) (n.signExtend 64)
    · rw [next_page] at hj ⊢
      exact fun heq => absurd (pageOf_inj (by omega) (by decide) heq) (by omega)
  | succ k ih =>
    intro turns desc cur n hturns hcur hspan
    obtain ⟨turns, rfl⟩ : ∃ t, turns = t + 1 := ⟨turns - 1, by omega⟩
    rw [hashLoop, if_pos (by omega), ← next_page,
      ih _ _ _ _ (by omega) (by rwa [next_page]) (by omega)]
    congr 1
    rw [BitVec.ofNat_add, BitVec.mul_add, BitVec.mul_one]
    ac_rfl

/-- The entry of page `k` of a zone of elements of `e` bytes. -/
def pageEntry (e depl : Int32) (k : Nat) : Int32 :=
  if k = 0 then e else depl * BitVec.ofNat 32 k

/-- The pages of a zone get their entries. -/
theorem hashZone_page {desc : Nat → Word} {zone k : Nat} {size e depl : Int32}
    (hsize : size.toNat % 4096 = 0) (hend : zone + size.toNat < 2 ^ 64)
    (hk : 4096 * k < size.toNat) :
    hashZone desc zone size e depl (pageOf (zone + 4096 * k))
      = (pageEntry e depl k).signExtend 64 := by
  have hsmall := size.isLt
  unfold hashZone pageEntry
  by_cases h0 : k = 0
  · subst h0
    rw [if_pos rfl, hashLoop_other hend depl _ _ _ _ fun j hj => ?_]
    · exact setPageDesc_self desc (by omega) _
    · rw [next_page] at hj ⊢
      exact fun heq => absurd (pageOf_inj (by omega) (by decide) heq) (by omega)
  · obtain ⟨k, rfl⟩ : ∃ j, k = j + 1 := ⟨k - 1, by omega⟩
    have hloop := hashLoop_page hend depl k (size.toNat / PAGE_SIZE)
      (setPageDesc desc zone (e.signExtend 64)) (zone + PAGE_SIZE) depl
      (by unfold PAGE_SIZE; omega) (by rw [next_page]; exact Nat.add_lt_add_left hk zone) (by omega)
    rw [if_neg h0, ← next_page, hloop]
    congr 1
    rw [BitVec.ofNat_add, BitVec.mul_add]
    simp [BitVec.add_comm]

/-- The entries of the other pages stay. -/
theorem hashZone_other {desc : Nat → Word} {zone i : Nat} {size e depl : Int32}
    (hend : zone + size.toNat < 2 ^ 64) (hpos : 0 < size.toNat)
    (hi : ∀ k, 4096 * k < size.toNat → pageOf (zone + 4096 * k) ≠ i) :
    hashZone desc zone size e depl i = desc i := by
  unfold hashZone
  rw [hashLoop_other hend depl _ _ _ _ fun j hj => ?_]
  · exact setPageDesc_other desc (by omega) (hi 0 (by omega)) _
  · rw [next_page] at hj ⊢
    exact hi (j + 1) (Nat.lt_of_add_lt_add_left hj)

/-! ## Reading the table -/

theorem setWidth_signExtend (x : Int32) : (x.signExtend 64).setWidth 32 = x := by
  ext i hi
  simp [BitVec.getLsbD_signExtend, hi]
  omega

theorem signExtend_ofNat {e : Nat} (he : e < 2 ^ 31) :
    (BitVec.ofNat 32 e).signExtend 64 = BitVec.ofNat 64 e := by
  have hmsb : (BitVec.ofNat 32 e).msb = false := by
    rw [BitVec.msb_eq_decide]
    simp
    omega
  rw [BitVec.signExtend_eq_setWidth_of_msb_false hmsb]
  bv_omega

/-- An `int` that is not negative, as a 64-bit word. -/
theorem signExtend_of_toNat {x : Int32} {n : Nat} (hx : x.toNat = n) (hn : n < 2 ^ 31) :
    x.signExtend 64 = BitVec.ofNat 64 n := by
  rw [← signExtend_ofNat hn, ← hx, BitVec.ofNat_toNat, BitVec.setWidth_eq]

theorem toInt_ofNat_of_lt {e : Nat} (he : e < 2 ^ 31) : (BitVec.ofNat 32 e).toInt = e := by
  rw [BitVec.toInt_eq_toNat_of_lt] <;> bv_omega

/-- The entry of a page after the first is the distance to the first. -/
theorem toInt_pageEntry (e : Int32) {k : Nat} (hk : k ≠ 0) (hlt : k < 2 ^ 20) :
    (pageEntry e (-1) k).toInt = -k := by
  have hneg : (-1 : Int32) * BitVec.ofNat 32 k = BitVec.ofInt 32 (-k) := by
    rw [BitVec.ofInt_neg, BitVec.ofInt_natCast, BitVec.neg_mul]
    exact congrArg Neg.neg (BitVec.one_mul _)
  rw [pageEntry, if_neg hk, hneg, BitVec.toInt_ofInt, Int.bmod_def]
  omega

/-- The part of `toHeader` that reads `heap_desc`: the first page of the zone and the size of its
elements. -/
def Heap.zoneOf (s : Heap) (p : Nat) : Except HeapError (Option (Word × Word)) :=
  let n := pageNumber (BitVec.ofNat 64 p)
  let elmtSize : Int32 := (s.desc n.toNat).setWidth 32
  if elmtSize.toInt < 0 then
    let n := n + elmtSize.signExtend 64
    if HEAP_PAGES ≤ n.toNat then .error .outOfBounds
    else
      let elmtSize : Int32 := (s.desc n.toNat).setWidth 32
      if elmtSize.toInt ≤ 0 then .error .inconsistentHashTable
      else .ok (some (n, elmtSize.signExtend 64))
  else if elmtSize ≠ 0 then .ok (some (n, elmtSize.signExtend 64))
  else .ok none

/-- `toHeader` reads the table, and then the header. -/
theorem toHeader_eq_zoneOf (s : Heap) (p : Nat) :
    s.toHeader p = (s.zoneOf p).map fun zone =>
      zone.elim 0 fun (n, e) => s.headerIn n e (BitVec.ofNat 64 p) := by
  unfold Heap.toHeader Heap.zoneOf
  dsimp only
  split
  · split
    · rfl
    · split <;> rfl
  · split <;> rfl

/-- From page `k` of a zone, the table leads back to the first page, as long as
the page numbers do not wrap. -/
theorem zoneOf_page {s : Heap} {b k e p : Nat} (hp : p < 2 ^ 64) (he : 0 < e) (he' : e < 2 ^ 31)
    (hk : k < 2 ^ 20) (hpage : pageOf p = (pageOf b + k) % 2 ^ 20)
    (hbase : s.desc (pageOf b) = (BitVec.ofNat 32 e).signExtend 64)
    (hentry : s.desc (pageOf p) = (pageEntry (BitVec.ofNat 32 e) (-1) k).signExtend 64) :
    s.zoneOf p =
      if pageOf b + k < 2 ^ 20 then
        .ok (some (BitVec.ofNat 64 (pageOf b), BitVec.ofNat 64 e))
      else .error .outOfBounds := by
  have hb := pageOf_lt b
  have hn := pageNumber_toNat hp
  have hpos : ¬ (BitVec.ofNat 32 e).toInt < 0 := by
    rw [toInt_ofNat_of_lt he']
    omega
  unfold Heap.zoneOf
  dsimp only
  rw [hn, hentry, setWidth_signExtend]
  by_cases h0 : k = 0
  · have hne : BitVec.ofNat 32 e ≠ 0 := by
      intro h
      have := congrArg BitVec.toInt h
      rw [toInt_ofNat_of_lt he'] at this
      simp at this
      omega
    have hword : pageNumber (BitVec.ofNat 64 p) = BitVec.ofNat 64 (pageOf b) := by
      apply BitVec.eq_of_toNat_eq
      rw [hn, BitVec.toNat_ofNat]
      omega
    rw [pageEntry, if_pos h0, if_neg hpos, if_pos hne, if_pos (by omega), hword,
      signExtend_ofNat he']
  · have hword : (pageNumber (BitVec.ofNat 64 p)
        + (pageEntry (BitVec.ofNat 32 e) (-1) k).signExtend 64).toNat
          = if pageOf b + k < 2 ^ 20 then pageOf b else 2 ^ 64 + pageOf p - k := by
      rw [BitVec.signExtend, toInt_pageEntry _ h0 hk, BitVec.toNat_add, hn, BitVec.toNat_ofInt]
      split <;> omega
    rw [if_pos (by rw [toInt_pageEntry _ h0 hk]; omega), hword]
    by_cases hwrap : pageOf b + k < 2 ^ 20
    · rw [if_pos hwrap, if_pos hwrap] at *
      rw [if_neg (by unfold HEAP_PAGES; omega), hbase, setWidth_signExtend,
        if_neg (by rw [toInt_ofNat_of_lt he']; omega), signExtend_ofNat he']
      congr 3
      apply BitVec.eq_of_toNat_eq
      rw [hword, BitVec.toNat_ofNat]
      omega
    · rw [if_neg hwrap, if_neg hwrap, if_pos (by unfold HEAP_PAGES; omega)]

/-- The address of the header that the last part of `toHeader` loads. -/
def headerAddr (n elmtSize p : Word) : Word :=
  let pageAddr := n <<< 12
  pageAddr + elmtSize * ((p - pageAddr) / elmtSize)

/-- The header is at a multiple of the element size from the first page, with
the upper half of its address cleared. -/
theorem headerAddr_toNat {b e p : Nat} (hb : b % 4096 = 0) (hlo : b % 2 ^ 32 ≤ p)
    (hp : p < 2 ^ 64) (he : 0 < e) (he' : e < 2 ^ 31) :
    (headerAddr (BitVec.ofNat 64 (pageOf b)) (BitVec.ofNat 64 e) (BitVec.ofNat 64 p)).toNat
      = b % 2 ^ 32 + e * ((p - b % 2 ^ 32) / e) := by
  have hpage : (BitVec.ofNat 64 (pageOf b) <<< 12).toNat = b % 2 ^ 32 := by
    unfold pageOf
    rw [BitVec.toNat_shiftLeft, BitVec.toNat_ofNat, Nat.shiftLeft_eq]
    omega
  have hquot := Nat.mul_div_le (p - b % 2 ^ 32) e
  have hdiff :
      (BitVec.ofNat 64 p - BitVec.ofNat 64 (pageOf b) <<< 12).toNat = p - b % 2 ^ 32 := by
    rw [BitVec.toNat_sub, hpage, BitVec.toNat_ofNat]
    omega
  unfold headerAddr
  dsimp only
  rw [BitVec.toNat_add, BitVec.toNat_mul, BitVec.toNat_udiv, hdiff, hpage, BitVec.toNat_ofNat,
    Nat.mod_eq_of_lt (show e < 2 ^ 64 by omega)]
  generalize e * ((p - b % 2 ^ 32) / e) = m at hquot
  omega

/-- The object at the header is found if the pointer is in its body. -/
theorem headerIn_eq (s : Heap) {b e p : Nat} (hb : b % 4096 = 0) (hlo : b % 2 ^ 32 ≤ p)
    (hp : p < 2 ^ 64) (he : 0 < e) (he' : e < 2 ^ 31) :
    s.headerIn (BitVec.ofNat 64 (pageOf b)) (BitVec.ofNat 64 e) (BitVec.ofNat 64 p) =
      let header := b % 2 ^ 32 + e * ((p - b % 2 ^ 32) / e)
      if header + 4 ≤ p ∧ p < header + 4 + (read32 s.mem header).toNat then header else 0 := by
  have hheader := headerAddr_toNat hb hlo hp he he'
  have hquot := Nat.mul_div_le (p - b % 2 ^ 32) e
  have hle : b % 2 ^ 32 + e * ((p - b % 2 ^ 32) / e) ≤ p := by omega
  unfold Heap.headerIn
  unfold headerAddr at hheader
  dsimp only at hheader ⊢
  generalize b % 2 ^ 32 + e * ((p - b % 2 ^ 32) / e) = h at hheader hle
  rw [hheader]
  have hread := (read32 s.mem h).isLt
  refine if_congr ?_ rfl rfl
  rw [BitVec.lt_def, BitVec.toNat_sub, BitVec.toNat_add, hheader, BitVec.toNat_setWidth,
    BitVec.toNat_ofNat, show (4 : Word).toNat = 4 from rfl]
  omega

end KernelMemVirt.Gc
