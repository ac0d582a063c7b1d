import KernelMemVirt.Lib.Bitset
import KernelMemVirt.Rackdoll.Scheduler

/-!
# The page pool of Rackdoll

`alloc_page` and `free_page` of `kernel/memory.c`: pages of 4096 bytes at `pool`,
with a bit in `bitset` for each page that is allocated.

* `allocPage_cases` is what `alloc_page` does: it takes the first page whose bit
  is clear, or returns 0 when there is none.
* `freePage_ok` is the case of `free_page` that returns, and `freePage_of_allocated`
  is the call that its callers make.
* `pool_of_run` is the allocator over runs, for a pool of any number of words.
-/

namespace KernelMemVirt.Rackdoll

open Transition

abbrev PAGE_SIZE : Nat := 0x1000

abbrev PHYSICAL_POOL_PAGES : Nat := 64

abbrev BITSET_SIZE : Nat := PHYSICAL_POOL_PAGES / 64

/-- How a call may fail to return. -/
inductive PageError
  | die
  | outOfBounds
  deriving DecidableEq, Repr

/-! ## Allocation -/

/-- The inner loop of `alloc_page`, from bit `j` on. -/
def findBit (v : Word) (j : Nat) : Nat → Option Nat
  | 0 => none
  | turns + 1 => if v &&& Bitset.bit j ≠ 0 then findBit v (j + 1) turns else some j

/-- The outer loop of `alloc_page`, from word `i` on. -/
def findFree : List Word → Nat → Option (Nat × Nat)
  | [], _ => none
  | v :: vs, i =>
    if v = 0xffffffffffffffff then findFree vs (i + 1)
    else
      match findBit v 0 64 with
      | some j => some (i, j)
      | none => findFree vs (i + 1)

/-- `alloc_page`.  The page is identity mapped, and its contents are not
defined. -/
def allocPage (pool : Nat) (bitset : List Word) : List Word × Word :=
  match findFree bitset 0 with
  | some (i, j) =>
    (bitset.set i (bitset.getD i 0 ||| Bitset.bit j),
      BitVec.ofNat 64 (((64 * i + j) <<< 12) + pool))
  | none => (bitset, 0)

/-- `free_page`. -/
def freePage (pool : Nat) (bitset : List Word) (addr : Word) : Except PageError (List Word) :=
  let tmp := (addr - BitVec.ofNat 64 pool) >>> 12
  let i := (tmp / 64).toNat
  let j := (tmp % 64).toNat
  if bitset.length ≤ i then .error .outOfBounds
  else if bitset.getD i 0 &&& Bitset.bit j = 0 then .error .die
  else .ok (bitset.set i (bitset.getD i 0 &&& ~~~Bitset.bit j))

theorem findBit_some {v : Word} :
    ∀ {turns j k : Nat}, j + turns ≤ 64 → findBit v j turns = some k →
      j ≤ k ∧ k < j + turns ∧ v.getLsbD k = false := by
  intro turns
  induction turns with
  | zero => intro j k _ h; cases h
  | succ turns ih =>
    intro j k hj h
    unfold findBit at h
    split at h
    · obtain ⟨hlo, hhi, hbit⟩ := ih (by omega) h
      exact ⟨by omega, by omega, hbit⟩
    · next hbit =>
      obtain rfl : j = k := Option.some.inj h
      exact ⟨Nat.le_refl _, by omega,
        (Bitset.and_bit_eq_zero (by omega)).mp (not_not.mp hbit)⟩

/-- The bits before the one that is found are set. -/
theorem findBit_below {v : Word} :
    ∀ {turns j k : Nat}, j + turns ≤ 64 → findBit v j turns = some k →
      ∀ i, j ≤ i → i < k → v.getLsbD i = true := by
  intro turns
  induction turns with
  | zero => intro j k _ h; cases h
  | succ turns ih =>
    intro j k hj h i hlo hhi
    unfold findBit at h
    split at h
    · next hbit =>
      by_cases hi : i = j
      · subst hi
        rw [← Bool.not_eq_false]
        exact fun hclear => hbit ((Bitset.and_bit_eq_zero (by omega)).mpr hclear)
      · exact ih (by omega) h i (by omega) hhi
    · obtain rfl : j = k := Option.some.inj h
      omega

theorem findBit_none {v : Word} :
    ∀ {turns j : Nat}, j + turns ≤ 64 → findBit v j turns = none →
      ∀ k, j ≤ k → k < j + turns → v.getLsbD k = true := by
  intro turns
  induction turns with
  | zero => intro j _ _ k hlo hhi; omega
  | succ turns ih =>
    intro j hj h k hlo hhi
    unfold findBit at h
    split at h
    · next hbit =>
      by_cases hk : k = j
      · subst hk
        rw [← Bool.not_eq_false]
        exact fun hclear => hbit ((Bitset.and_bit_eq_zero (by omega)).mpr hclear)
      · exact ih (by omega) h k (by omega) (by omega)
    · cases h

/-- The loops find the word and the bit of a page that is not allocated. -/
theorem findFree_some :
    ∀ {bitset : List Word} {i a b : Nat}, findFree bitset i = some (a, b) →
      i ≤ a ∧ a < i + bitset.length ∧ b < 64 ∧ (bitset.getD (a - i) 0).getLsbD b = false := by
  intro bitset
  induction bitset with
  | nil => intro i a b h; cases h
  | cons v vs ih =>
    intro i a b h
    have hlater : findFree vs (i + 1) = some (a, b) →
        i ≤ a ∧ a < i + (v :: vs).length ∧ b < 64 ∧
          ((v :: vs).getD (a - i) 0).getLsbD b = false := by
      intro hrest
      obtain ⟨hlo, hhi, hb, hbit⟩ := ih hrest
      rw [List.length_cons, show a - i = (a - (i + 1)) + 1 by omega]
      exact ⟨by omega, by omega, hb, hbit⟩
    unfold findFree at h
    split at h
    · exact hlater h
    · split at h
      · next j hj =>
        cases h
        obtain ⟨-, hb, hbit⟩ := findBit_some (by omega) hj
        rw [Nat.sub_self]
        exact ⟨Nat.le_refl _, by simp, by omega, hbit⟩
      · exact hlater h

theorem findFree_none :
    ∀ {bitset : List Word} {i : Nat}, findFree bitset i = none →
      ∀ n, n < 64 * bitset.length → Bitset.get bitset n = true := by
  intro bitset
  induction bitset with
  | nil => intro i _ n hn; exact absurd hn (Nat.not_lt_zero n)
  | cons v vs ih =>
    intro i h n hn
    have hword : (∀ k, k < 64 → v.getLsbD k = true) ∧ findFree vs (i + 1) = none := by
      unfold findFree at h
      split at h
      · next hfull =>
        refine ⟨fun k hk => ?_, h⟩
        rw [hfull, show (0xffffffffffffffff : Word) = BitVec.allOnes 64 from rfl,
          BitVec.getLsbD_allOnes, decide_eq_true hk]
      · split at h
        · cases h
        · next hnone =>
          exact ⟨fun k hk => findBit_none (by omega) hnone k (by omega) (by omega), h⟩
    rcases hword with ⟨hfirst, hrest⟩
    rw [List.length_cons] at hn
    by_cases hlt : n < 64
    · unfold Bitset.get
      rw [show n / 64 = 0 by omega]
      exact hfirst (n % 64) (Nat.mod_lt n (by omega))
    · have hlater := ih hrest (n - 64) (by omega)
      unfold Bitset.get at hlater ⊢
      rw [show n / 64 = (n - 64) / 64 + 1 by omega, show n % 64 = (n - 64) % 64 by omega]
      exact hlater

/-- `alloc_page` takes a page that is not allocated, unless there is none. -/
theorem allocPage_cases (pool : Nat) (bitset : List Word) :
    (∃ n, n < 64 * bitset.length ∧ Bitset.get bitset n = false ∧
      allocPage pool bitset = (Bitset.set bitset n, BitVec.ofNat 64 (pool + 4096 * n))) ∨
    (Bitset.free bitset = 0 ∧ allocPage pool bitset = (bitset, 0)) := by
  unfold allocPage
  cases h : findFree bitset 0 with
  | some found =>
    rcases found with ⟨i, j⟩
    obtain ⟨-, hi, hj, hbit⟩ := findFree_some h
    rw [Nat.sub_zero] at hbit
    refine .inl ⟨64 * i + j, by omega, ?_, ?_⟩
    · unfold Bitset.get
      rwa [show (64 * i + j) / 64 = i by omega, show (64 * i + j) % 64 = j by omega]
    · unfold Bitset.set
      rw [show (64 * i + j) / 64 = i by omega, show (64 * i + j) % 64 = j by omega]
      dsimp only
      rw [Nat.shiftLeft_eq, show (64 * i + j) * 2 ^ 12 + pool = pool + 4096 * (64 * i + j) by omega]
  | none =>
    refine .inr ⟨?_, rfl⟩
    by_contra hne
    obtain ⟨n, hn, hclear⟩ := Bitset.exists_of_free_pos (Nat.pos_of_ne_zero hne)
    rw [findFree_none h n hn] at hclear
    cases hclear

/-! ## Release -/

/-- When `free_page` returns, the page was allocated, and now it is not. -/
theorem freePage_ok {pool : Nat} {bitset bitset' : List Word} {addr : Word}
    (h : freePage pool bitset addr = .ok bitset') :
    ∃ n, n < 64 * bitset.length ∧ ((addr - BitVec.ofNat 64 pool) >>> 12).toNat = n ∧
      Bitset.get bitset n = true ∧ bitset' = Bitset.clear bitset n := by
  unfold freePage at h
  have hdiv : (((addr - BitVec.ofNat 64 pool) >>> 12) / 64).toNat
      = ((addr - BitVec.ofNat 64 pool) >>> 12).toNat / 64 := BitVec.toNat_udiv
  have hmod : (((addr - BitVec.ofNat 64 pool) >>> 12) % 64).toNat
      = ((addr - BitVec.ofNat 64 pool) >>> 12).toNat % 64 := BitVec.toNat_umod
  dsimp only at h
  rw [hdiv, hmod] at h
  generalize ((addr - BitVec.ofNat 64 pool) >>> 12).toNat = n at h
  split at h
  · cases h
  · split at h
    · cases h
    · next hbound hbit =>
      refine ⟨n, by omega, rfl, ?_, (Except.ok.inj h).symm⟩
      rw [← Bool.not_eq_false]
      exact fun hclear =>
        hbit ((Bitset.and_bit_eq_zero (Nat.mod_lt n (by omega))).mpr hclear)

/-- An address inside an allocated page is released. -/
theorem freePage_of_allocated {pool n off : Nat} {bitset : List Word} (hn : n < 64 * bitset.length)
    (hoff : off < 4096) (hend : pool + 4096 * n + off < 2 ^ 64)
    (hset : Bitset.get bitset n = true) :
    freePage pool bitset (BitVec.ofNat 64 (pool + 4096 * n + off))
      = .ok (Bitset.clear bitset n) := by
  have hnumber : ((BitVec.ofNat 64 (pool + 4096 * n + off) - BitVec.ofNat 64 pool) >>> 12).toNat
      = n := by
    rw [BitVec.toNat_ushiftRight, BitVec.toNat_sub, BitVec.toNat_ofNat, BitVec.toNat_ofNat,
      Nat.shiftRight_eq_div_pow]
    omega
  unfold freePage
  dsimp only
  rw [BitVec.toNat_udiv, BitVec.toNat_umod, hnumber, show (64 : Word).toNat = 64 from rfl,
    if_neg (by omega), if_neg]
  · rfl
  · intro hclear
    rw [Bitset.and_bit_eq_zero (Nat.mod_lt n (by omega))] at hclear
    exact absurd (hset.symm.trans hclear) (by decide)

/-! ## Runs -/

/-- The array `pool` of `64 * words` pages. -/
structure PoolArray where
  base : Nat
  words : Nat
  aligned : base % 4096 = 0
  pos : base ≠ 0
  fits : base + 4096 * (64 * words) ≤ 2 ^ 64

/-- A call on the pool. -/
inductive PoolCall
  | alloc
  | free (addr : Word)
  deriving DecidableEq, Repr

/-- The bits, and the addresses of the pages that callers hold: those that `alloc_page`
has returned and that were not released since. -/
structure PoolRun where
  bitset : List Word
  held : Finset Nat

namespace PoolRun

variable (P : PoolArray) (s : PoolRun)

def init : PoolRun := ⟨List.replicate P.words 0, ∅⟩

/-- A call of `alloc_page`. -/
def alloc : PoolRun where
  bitset := (allocPage P.base s.bitset).1
  held :=
    if (allocPage P.base s.bitset).2 = 0 then s.held
    else insert (allocPage P.base s.bitset).2.toNat s.held

/-- One call; `none` when it does not return. -/
def step : PoolCall → Option PoolRun
  | .alloc => some (s.alloc P)
  | .free addr =>
    match freePage P.base s.bitset addr with
    | .ok bitset => some { bitset, held := s.held.erase (addr.toNat / 4096 * 4096) }
    | .error _ => none

/-- Only addresses inside pages that are held are released. -/
def Allowed : PoolCall → Prop
  | .alloc => True
  | .free addr => addr.toNat / 4096 * 4096 ∈ s.held

instance (c : PoolCall) : Decidable (s.Allowed c) :=
  match c with
  | .alloc => isTrue trivial
  | .free _ => inferInstanceAs (Decidable (_ ∈ _))

/-- The set bits are the pages that are held, and `alloc_page` returns one that is not,
unless there is none. -/
structure Sound : Prop where
  bits : ∀ k, k < 64 * P.words → (Bitset.get s.bitset k = true ↔ P.base + 4096 * k ∈ s.held)
  held : ∀ a ∈ s.held, ∃ k, k < 64 * P.words ∧ a = P.base + 4096 * k
  fresh : (allocPage P.base s.bitset).2 ≠ 0 →
    (allocPage P.base s.bitset).2.toNat ∉ s.held ∧
      ∃ k, k < 64 * P.words ∧ (allocPage P.base s.bitset).2.toNat = P.base + 4096 * k
  full : (allocPage P.base s.bitset).2 = 0 ↔ ∀ k, k < 64 * P.words → P.base + 4096 * k ∈ s.held

/-- The part of `Sound` that one call keeps. -/
structure Inv : Prop where
  length : s.bitset.length = P.words
  bits : ∀ k, k < 64 * P.words → (Bitset.get s.bitset k = true ↔ P.base + 4096 * k ∈ s.held)
  held : ∀ a ∈ s.held, ∃ k, k < 64 * P.words ∧ a = P.base + 4096 * k

variable {P s}

theorem inv_init (P : PoolArray) : (init P).Inv P where
  length := List.length_replicate
  bits := fun k _ => by
    have hclear : Bitset.get (init P).bitset k = false := Bitset.get_replicate P.words k
    rw [hclear]
    exact iff_of_false (by decide) (Finset.notMem_empty _)
  held := fun a ha => absurd ha (Finset.notMem_empty a)

/-- What `alloc_page` returns. -/
theorem Inv.alloc_cases (h : s.Inv P) :
    (∃ n, n < 64 * P.words ∧ P.base + 4096 * n ∉ s.held ∧
      (allocPage P.base s.bitset).1 = Bitset.set s.bitset n ∧
      (allocPage P.base s.bitset).2.toNat = P.base + 4096 * n) ∨
    ((∀ k, k < 64 * P.words → P.base + 4096 * k ∈ s.held) ∧
      allocPage P.base s.bitset = (s.bitset, 0)) := by
  rcases allocPage_cases P.base s.bitset with ⟨n, hn, hclear, hpage⟩ | ⟨hfull, hpage⟩
  · have hend := P.fits
    rw [h.length] at hn
    refine .inl ⟨n, hn, fun hheld => ?_, by rw [hpage], ?_⟩
    · rw [← h.bits n hn, hclear] at hheld
      cases hheld
    · rw [hpage, BitVec.toNat_ofNat]
      omega
  · refine .inr ⟨fun k hk => (h.bits k hk).mp ?_, hpage⟩
    exact Bitset.get_of_free_eq_zero hfull (by rw [h.length]; exact hk)

theorem Inv.sound (h : s.Inv P) : s.Sound P := by
  have hpos := P.pos
  refine ⟨h.bits, h.held, fun hne => ?_, ?_⟩
  · rcases h.alloc_cases with ⟨n, hn, hfree, -, hpage⟩ | ⟨-, hpage⟩
    · rw [hpage]
      exact ⟨hfree, n, hn, rfl⟩
    · rw [hpage] at hne
      exact absurd rfl hne
  · rcases h.alloc_cases with ⟨n, hn, hfree, -, hpage⟩ | ⟨hfull, hpage⟩
    · refine iff_of_false (fun h0 => ?_) (fun hall => hfree (hall n hn))
      rw [h0] at hpage
      have hzero : (0 : Word).toNat = 0 := rfl
      omega
    · exact iff_of_true (congrArg Prod.snd hpage) hfull

theorem Inv.alloc (h : s.Inv P) : (s.alloc P).Inv P := by
  have hpos := P.pos
  unfold PoolRun.alloc
  rcases h.alloc_cases with ⟨n, hn, hfree, hbits, haddr⟩ | ⟨-, hfull⟩
  · have hne : (allocPage P.base s.bitset).2 ≠ 0 := by
      intro h0
      rw [h0] at haddr
      have hzero : (0 : Word).toNat = 0 := rfl
      omega
    rw [if_neg hne, hbits, haddr]
    refine ⟨Bitset.length_set.trans h.length, fun k hk => ?_, fun a ha => ?_⟩
    · rw [Bitset.get_set (by rw [h.length]; exact hn), Bool.or_eq_true, decide_eq_true_iff,
        h.bits k hk, Finset.mem_insert]
      exact or_congr_left ⟨fun heq => by rw [heq], fun heq => by omega⟩
    · rcases Finset.mem_insert.mp ha with rfl | hold
      · exact ⟨n, hn, rfl⟩
      · exact h.held a hold
  · rw [hfull]
    exact h

theorem Inv.free (h : s.Inv P) {addr : Word} (hc : s.Allowed (.free addr)) :
    ∃ s', s.step P (.free addr) = some s' ∧ s'.Inv P := by
  obtain ⟨k, hk, hbase⟩ := h.held _ hc
  have hpage := P.aligned
  have hlength := h.length
  have hlt := addr.isLt
  have haddr : addr = BitVec.ofNat 64 (P.base + 4096 * k + addr.toNat % 4096) := by
    apply BitVec.eq_of_toNat_eq
    rw [BitVec.toNat_ofNat]
    omega
  have hfree : freePage P.base s.bitset (BitVec.ofNat 64 (P.base + 4096 * k + addr.toNat % 4096))
      = .ok (Bitset.clear s.bitset k) :=
    freePage_of_allocated (by omega) (Nat.mod_lt _ (by omega)) (by omega)
      ((h.bits k hk).mpr (hbase ▸ hc))
  rw [← haddr] at hfree
  refine ⟨⟨Bitset.clear s.bitset k, s.held.erase (addr.toNat / 4096 * 4096)⟩, ?_,
    Bitset.length_clear.trans hlength, fun j hj => ?_, fun a ha => ?_⟩
  · unfold PoolRun.step
    dsimp only
    rw [hfree]
  · dsimp only
    rw [Bitset.get_clear (by omega), hbase, Finset.mem_erase, Bool.and_eq_true,
      Bool.not_eq_true', decide_eq_false_iff_not, h.bits j hj]
    exact and_congr_left' (not_congr ⟨fun heq => by rw [heq], fun heq => by omega⟩)
  · exact h.held a (Finset.mem_of_mem_erase ha)

/-- Every allowed call returns, and keeps the invariant. -/
theorem Inv.step (h : s.Inv P) {c : PoolCall} (hc : s.Allowed c) :
    ∃ s', s.step P c = some s' ∧ s'.Inv P := by
  cases c with
  | alloc => exact ⟨_, rfl, h.alloc⟩
  | free addr => exact h.free hc

end PoolRun

/-- In every run of `alloc_page` and `free_page` that releases only pages that are held,
no call fails, and the bits are the pages that are held. -/
theorem pool_of_run {P : PoolArray} {es : List PoolCall}
    (hok : RunOk (PoolRun.step P) PoolRun.Allowed (PoolRun.init P) es) :
    ∃ t, run (PoolRun.step P) (PoolRun.init P) es = some t ∧ t.Sound P := by
  obtain ⟨t, ht, hinv⟩ := run_progress_of_ok (fun _ _ (hs : PoolRun.Inv P _) hc => hs.step hc) es _
    (PoolRun.inv_init P) hok
  exact ⟨t, ht, hinv.sound⟩

/-- Two pages are taken and the first is released, by an address inside it. -/
theorem pool_of_run_three :
    let P : PoolArray := ⟨0x180000, 1, by decide, by decide, by decide⟩
    ∃ t, run (PoolRun.step P) (PoolRun.init P) [.alloc, .alloc, .free 0x180007] = some t ∧
      t.Sound P :=
  pool_of_run (by decide)

/-! ## Addresses that are not in the pool -/

/-- `free_page` clears the bit of the pool page with the address, which was set, or it ends in its
error, before it has written anything. -/
def ReleasesOrDies (pool : Nat) (bitset : List Word) (addr : Word) : Prop :=
  freePage pool bitset addr = .error .die ∨
    ∃ bitset' n, freePage pool bitset addr = .ok bitset' ∧ n < 64 * bitset.length ∧
      pool + 4096 * n ≤ addr.toNat ∧ addr.toNat < pool + 4096 * (n + 1) ∧
      Bitset.get bitset n = true ∧ bitset'.length = bitset.length ∧
      ∀ k, Bitset.get bitset' k = (!decide (k = n) && Bitset.get bitset k)

/-- The page number, which wraps below the pool. -/
theorem pageIndex_toNat (pool : Nat) (addr : Word) :
    ((addr - BitVec.ofNat 64 pool) >>> 12).toNat =
      (2 ^ 64 - pool % 2 ^ 64 + addr.toNat) % 2 ^ 64 / 4096 := by
  rw [BitVec.toNat_ushiftRight, BitVec.toNat_sub, BitVec.toNat_ofNat, Nat.shiftRight_eq_div_pow]

/-- There is no test of the page number, so `bitset` is read outside for the page numbers it does
not have. -/
theorem freePage_eq_outOfBounds_iff {pool : Nat} {bitset : List Word} {addr : Word} :
    freePage pool bitset addr = .error .outOfBounds ↔
      64 * bitset.length ≤ ((addr - BitVec.ofNat 64 pool) >>> 12).toNat := by
  unfold freePage
  dsimp only
  rw [BitVec.toNat_udiv, show (64 : Word).toNat = 64 from rfl]
  constructor
  · intro h
    split at h
    · omega
    · split at h <;> cases h
  · intro h
    exact if_pos (by omega)

/-- `free_page` rejects what it did not allocate, exactly for the addresses in the pool. -/
theorem releasesOrDies_iff {P : PoolArray} {bitset : List Word} (hlen : bitset.length = P.words)
    (addr : Word) :
    ReleasesOrDies P.base bitset addr ↔
      P.base ≤ addr.toNat ∧ addr.toNat < P.base + 4096 * (64 * P.words) := by
  have hfits := P.fits
  have hpos := P.pos
  have hlt := addr.isLt
  have hindex := pageIndex_toNat P.base addr
  constructor
  · intro h
    have hinside : ¬ 64 * bitset.length ≤ ((addr - BitVec.ofNat 64 P.base) >>> 12).toNat := by
      intro hout
      have herror := freePage_eq_outOfBounds_iff.mpr hout
      rcases h with hdie | ⟨bitset', n, hok, -⟩
      · rw [herror] at hdie
        cases hdie
      · rw [herror] at hok
        cases hok
    rw [hindex, hlen] at hinside
    omega
  · rintro ⟨hlo, hhi⟩
    have hnumber : ((addr - BitVec.ofNat 64 P.base) >>> 12).toNat =
        (addr.toNat - P.base) / 4096 := by
      rw [hindex]
      omega
    have hpages : ∀ n, (addr.toNat - P.base) / 4096 = n →
        P.base + 4096 * n ≤ addr.toNat ∧ addr.toNat < P.base + 4096 * (n + 1) := by
      intro n hn
      omega
    cases hfree : freePage P.base bitset addr with
    | error e =>
      cases e with
      | die => exact .inl hfree
      | outOfBounds =>
        have hout := freePage_eq_outOfBounds_iff.mp hfree
        rw [hnumber, hlen] at hout
        omega
    | ok bitset' =>
      obtain ⟨n, hn, hpage, hset, rfl⟩ := freePage_ok hfree
      rw [hnumber] at hpage
      exact .inr ⟨_, n, hfree, hn, (hpages n hpage).1, (hpages n hpage).2, hset,
        Bitset.length_clear, fun k => Bitset.get_clear hn⟩

/-- An address inside the last page of a pool that is all allocated. -/
theorem releasesOrDies_lastPage :
    ReleasesOrDies 0x180000 [0xffffffffffffffff] 0x1bffff := by
  exact (releasesOrDies_iff (P := ⟨0x180000, 1, by decide, by decide, by decide⟩) rfl 0x1bffff).mpr
    (by simp)

/-- The page of the code of a task lies below the pool. -/
theorem releasesOrDies_not_of_code :
    ¬ ∀ (P : PoolArray) (bitset : List Word) (addr : Word), bitset.length = P.words →
      ReleasesOrDies P.base bitset addr := by
  intro h
  have hfree : freePage 0x180000 [0xffffffffffffffff] 0x150000 = .error .outOfBounds := by decide
  rcases h ⟨0x180000, 1, by decide, by decide, by decide⟩ [0xffffffffffffffff] 0x150000 rfl with
    hdie | ⟨bitset', n, hok, -⟩
  · exact absurd (hfree.symm.trans hdie) (by decide)
  · exact absurd (hfree.symm.trans hok) (by simp)

end KernelMemVirt.Rackdoll
