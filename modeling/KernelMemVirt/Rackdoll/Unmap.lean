import KernelMemVirt.Rackdoll.Ownership
import KernelMemVirt.Rackdoll.Walk

/-!
# `munmap`

`munmap` gives the page of an address back to the pool and leaves its entry as it is.  It does
not look at the present bits: for an address that is not mapped it goes on to read where the
entries say, and releases what it finds.

* `munmap_cases` is what a call can do: it writes no memory, and clears the bit of one page
  that was allocated.
* `munmap_iff` says when that is right: only for the first page of the range, which the guard
  leaves out, and only while it is not mapped.
-/

namespace KernelMemVirt.Rackdoll

open ByteMem OwnerTree

/-! ## Reads -/

/-- The addresses of the words that the loop of `munmap` reads, and of the last entry. -/
def followReads (mem : Mem) (vaddr : Word) : Nat → Word → List Nat
  | 0, cadre => [slot cadre vaddr 1]
  | n + 1, cadre =>
    slot cadre vaddr (n + 2) ::
      followReads mem vaddr n (read64 mem (slot cadre vaddr (n + 2)) &&& ADDR_MASK)

/-- The addresses of the words that `munmap` reads. -/
def Phys.munmapReads (s : Phys) (pgt vaddr : Word) : List Nat :=
  if UserGuard vaddr then followReads s.mem vaddr 3 pgt else []

/-! ## The property -/

variable {P : PoolRegion} {s s' : Phys} {pgt vaddr : Word}

/-- What `munmap` is for, when the page is mapped by `t`: the page has no translation any
more, its frame is the one page that is released, the other pages are as before, and the next
access faults and finds a page of zeros. -/
structure Unmaps (P : PoolRegion) (s : Phys) (pgt vaddr : Word) (t : Translation) (s' : Phys) :
    Prop where
  page : ∀ w, pageNumber w = pageNumber vaddr.toNat → translate s'.mem pgt w = none
  released : P.allocated s.bitset t.paddr = true ∧ P.allocated s'.bitset t.paddr = false
  kept : ∀ q, P.IsPage q → q ≠ t.paddr → P.allocated s'.bitset q = P.allocated s.bitset q
  other : ∀ w, pageNumber w ≠ pageNumber vaddr.toNat →
    translate s'.mem pgt w = translate s.mem pgt w
  zero : ∀ w, pageNumber w = pageNumber vaddr.toNat → ∃ x,
    translate (s'.mmap P.base pgt vaddr).mem pgt w = some x ∧
      (s'.mmap P.base pgt vaddr).mem x.paddr = 0

/-- `munmap` is right for an address: it unmaps a page that is mapped; otherwise it changes
nothing and reads tables only. -/
def MunmapRight (P : PoolRegion) (s : Phys) (pgt vaddr : Word) : Prop :=
  match translate s.mem pgt vaddr.toNat with
  | some t => ∃ s', s.munmap P.base pgt vaddr = .ok s' ∧ Unmaps P s pgt vaddr t s'
  | none => s.munmap P.base pgt vaddr = .ok s ∧ ∀ a ∈ s.munmapReads pgt vaddr,
      ∃ path p, walk (child s.mem) (frame pgt) path = some p ∧ p ≤ a ∧ a + 8 ≤ p + 4096

/-- A call of `munmap`: one page is released, or the address is ignored. -/
theorem munmap_cases (h : s.munmap P.base pgt vaddr = .ok s') :
    s'.mem = s.mem ∧ ((¬ UserGuard vaddr ∧ s' = s) ∨ UserGuard vaddr ∧ s' ≠ s) := by
  unfold Phys.munmap at h
  split at h
  · next hguard =>
    dsimp only at h
    cases hfree : freePage P.base s.bitset
        (read64 s.mem (slot (follow s.mem vaddr 3 pgt) vaddr 1)) with
    | error e =>
      rw [hfree] at h
      cases h
    | ok bitset =>
      rw [hfree] at h
      obtain rfl := Except.ok.inj h
      obtain ⟨n, hn, -, hset, rfl⟩ := freePage_ok hfree
      refine ⟨rfl, .inr ⟨hguard, fun heq => ?_⟩⟩
      have hclear := congrArg (fun s : Phys => Bitset.get s.bitset n) heq
      dsimp only at hclear
      rw [Bitset.get_clear hn, hset, decide_eq_true rfl] at hclear
      cases hclear
  · next hguard =>
    obtain rfl := Except.ok.inj h
    exact ⟨rfl, .inl ⟨hguard, rfl⟩⟩

/-- A page that is mapped stays mapped. -/
theorem not_munmapRight_of_mapped {t : Translation}
    (ht : translate s.mem pgt vaddr.toNat = some t) : ¬ MunmapRight P s pgt vaddr := by
  unfold MunmapRight
  rw [ht]
  rintro ⟨s', hs', hunmaps⟩
  have hpage := hunmaps.page vaddr.toNat rfl
  rw [(munmap_cases hs').1, ht] at hpage
  cases hpage

/-- The pages of the range that the guard leaves out. -/
theorem not_userGuard_iff (hlo : 0x40000000 ≤ vaddr.toNat) (hhi : vaddr.toNat ≤ 0x7ffffffff000) :
    ¬ UserGuard vaddr ↔ vaddr = 0x40000000 := by
  unfold UserGuard
  rw [not_and, BitVec.lt_def, BitVec.lt_def]
  constructor
  · intro hnot
    apply BitVec.eq_of_toNat_eq
    show vaddr.toNat = 0x40000000
    by_contra hne
    refine hnot ?_ ?_
    · show 0x40000000 < vaddr.toNat
      omega
    · show vaddr.toNat < 0x00007fffffffffff
      omega
  · intro heq hlt
    rw [heq] at hlt
    exact absurd hlt (by decide)

/-- For an aligned address of the user range, `munmap` is right exactly if the address is
0x40000000, which the guard leaves out, and is not mapped. -/
theorem munmap_iff (P : PoolRegion) (s : Phys) (pgt vaddr : Word)
    (hlo : 0x40000000 ≤ vaddr.toNat) (hhi : vaddr.toNat ≤ 0x7ffffffff000) :
    MunmapRight P s pgt vaddr ↔
      translate s.mem pgt vaddr.toNat = none ∧ vaddr = 0x40000000 := by
  constructor
  · intro hright
    cases ht : translate s.mem pgt vaddr.toNat with
    | some t => exact absurd hright (not_munmapRight_of_mapped ht)
    | none =>
      refine ⟨rfl, (not_userGuard_iff hlo hhi).mp ?_⟩
      unfold MunmapRight at hright
      rw [ht] at hright
      rcases (munmap_cases hright.1).2 with ⟨hguard, -⟩ | ⟨-, hne⟩
      · exact hguard
      · exact absurd rfl hne
  · rintro ⟨hnone, hfirst⟩
    have hguard := (not_userGuard_iff hlo hhi).mpr hfirst
    unfold MunmapRight
    rw [hnone]
    unfold Phys.munmap Phys.munmapReads
    rw [if_neg hguard, if_neg hguard]
    exact ⟨rfl, fun a ha => absurd ha List.not_mem_nil⟩

/-- A task with a stack page, as in the adversary task. -/
def stackTask : Phys := ⟨pathMem 0x180000 0x1ffffff000 0x184007, [0x1f]⟩

/-- The stack page stays mapped to the page that was released. -/
theorem not_munmapRight_stack :
    ¬ MunmapRight lowPool stackTask 0x180000 0x1ffffff000 := by
  obtain ⟨t, ht⟩ : ∃ t, translate stackTask.mem 0x180000 0x1ffffff000 = some t :=
    Option.isSome_iff_exists.mp (by decide +kernel)
  exact not_munmapRight_of_mapped ht

theorem munmap_iff_stack :
    MunmapRight lowPool stackTask 0x180000 0x1ffffff000 ↔
      translate stackTask.mem 0x180000 0x1ffffff000 = none ∧ (0x1ffffff000 : Word) = 0x40000000 :=
  munmap_iff lowPool stackTask 0x180000 0x1ffffff000 (by decide) (by decide)

end KernelMemVirt.Rackdoll
