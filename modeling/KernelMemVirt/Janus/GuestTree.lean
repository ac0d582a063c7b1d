import KernelMemVirt.Janus.GuestMemory
import KernelMemVirt.Rackdoll.Walk

/-!
# The trees of the guest

`unmap_page` on the tables that the processor walks.  The source takes the bits 59 to 12 of
an entry for an address, and the processor the bits 51 to 12: `PhysicalPath` says that the
addresses on the way are physical ones, so that both go the same way, and `SmallPath` that
no huge page is on it.

* `leafAddr_cases` is the way of `unmap_page`, from which its properties follow.
* `unmapPage_translate` is the effect on all translations.
-/

namespace KernelMemVirt.Janus.Guest

open ByteMem OwnerTree
open Rackdoll

/-! ## Words as numbers -/

theorem getLsbD_pteAddr {i : Nat} (hi : i < 64) :
    PTE_ADDR.getLsbD i = (decide (12 ≤ i) && decide (i < 60)) := by
  revert hi
  revert i
  decide

theorem pteAddr_toNat (e : Word) : (e &&& PTE_ADDR).toNat = e.toNat % 2 ^ 60 / 2 ^ 12 * 2 ^ 12 := by
  have hshift : e &&& PTE_ADDR = ((e <<< 4) >>> 16) <<< 12 := by
    apply BitVec.eq_of_getLsbD_eq
    intro i hi
    rw [BitVec.getLsbD_and, BitVec.getLsbD_shiftLeft, BitVec.getLsbD_ushiftRight,
      BitVec.getLsbD_shiftLeft]
    rw [getLsbD_pteAddr hi]
    by_cases hlo : 12 ≤ i
    · rw [show 16 + (i - 12) - 4 = i by omega]
      simp [hlo, hi, show ¬ i < 12 by omega, show ¬ 16 + (i - 12) < 4 by omega,
        show (16 + (i - 12) < 64 ↔ i < 60) by omega, Bool.and_comm]
    · simp [hlo, show i < 12 by omega]
  rw [hshift, BitVec.toNat_shiftLeft, BitVec.toNat_ushiftRight, BitVec.toNat_shiftLeft,
    Nat.shiftLeft_eq, Nat.shiftLeft_eq, Nat.shiftRight_eq_div_pow]
  have := e.isLt
  omega

/-- The source and the processor find the same frame. -/
theorem pteAddr_eq {e : Word} (h : (e &&& PTE_ADDR).toNat < 2 ^ 52) :
    e &&& PTE_ADDR = BitVec.ofNat 64 (frame e) := by
  have hnat := pteAddr_toNat e
  apply BitVec.eq_of_toNat_eq
  rw [BitVec.toNat_ofNat]
  unfold frame
  omega

theorem frame_pteAddr (e : Word) : frame (e &&& PTE_ADDR) = frame e := by
  have hnat := pteAddr_toNat e
  unfold frame
  omega

theorem index_toNat (vaddr : Word) (lvl : Nat) :
    (vaddr >>> (PAGE_SHIFT + PGD_SHIFT * lvl) &&& PGD_MASK).toNat =
      tableIndex vaddr.toNat (lvl + 1) := by
  have hmask : ∀ x : Word, (x &&& PGD_MASK).toNat = x.toNat % 512 := by
    intro x
    rw [BitVec.toNat_and]
    exact Nat.and_two_pow_sub_one_eq_mod x.toNat 9
  rw [hmask, BitVec.toNat_ushiftRight, Nat.shiftRight_eq_div_pow]
  rfl

/-! ## Paths -/

namespace Machine

/-- `&pgd[idx]` in a table below 2 ^ 52. -/
theorem entryAddr_eq {p lvl d : Nat} (vaddr : Word) (hp : p < 2 ^ 52) (hd : d + lvl = 3) :
    entryAddr (BitVec.ofNat 64 p) vaddr lvl = p + 8 * pathIndex vaddr.toNat d := by
  have hlt := pathIndex_lt vaddr.toNat d
  have hindex := index_toNat vaddr lvl
  rw [tableIndex_eq (show d + (lvl + 1) = 4 by omega)] at hindex
  unfold entryAddr
  rw [BitVec.toNat_add, BitVec.toNat_mul, hindex, BitVec.toNat_ofNat,
    show (8 : Word).toNat = 8 from rfl]
  omega

variable (s : Machine)

/-- The addresses on the way of `v` are physical addresses. -/
structure PhysicalPath (v : Nat) : Prop where
  cr3 : (s.cr3 &&& PTE_ADDR).toNat < 2 ^ 52
  table : ∀ d p, d < 3 → tableAt s.mem (frame s.cr3) v d = some p →
    present (entry s.mem p (pathIndex v d)) = true →
      (entry s.mem p (pathIndex v d) &&& PTE_ADDR).toNat < 2 ^ 52

/-- No huge page is on the way of `v`. -/
def SmallPath (v : Nat) : Prop :=
  ∀ d p, 0 < d → d < 3 → tableAt s.mem (frame s.cr3) v d = some p →
    present (entry s.mem p (pathIndex v d)) = true → huge (entry s.mem p (pathIndex v d)) = false

variable {s} {vaddr operand : Word} {d p : Nat}

/-- A present entry on the way leads to the next table. -/
theorem SmallPath.next {v : Nat} (h : s.SmallPath v) (hd : d < 3)
    (hp : tableAt s.mem (frame s.cr3) v d = some p)
    (hpresent : present (entry s.mem p (pathIndex v d)) = true) :
    tableAt s.mem (frame s.cr3) v (d + 1) = some (frame (entry s.mem p (pathIndex v d))) := by
  rw [tableAt_succ, hp]
  apply child_of_present hd hpresent
  by_cases hzero : d = 0
  · exact .inl hzero
  · exact .inr (h d p (by omega) hd hp hpresent)

/-- The way ends in a last table, or at an entry where a table is missing. -/
theorem SmallPath.cases {v : Nat} (h : s.SmallPath v) :
    (∃ p, tableAt s.mem (frame s.cr3) v 3 = some p) ∨
      ∃ d p, d < 3 ∧ tableAt s.mem (frame s.cr3) v d = some p ∧
        present (entry s.mem p (pathIndex v d)) = false :=
  way_ends fun hd hp hpresent => ⟨_, h.next hd hp hpresent⟩

theorem root_aligned (s : Machine) : frame s.cr3 % 4096 = 0 := frame_aligned _

theorem tableAt_lt {v : Nat} (h : tableAt s.mem (frame s.cr3) v d = some p) : p < 2 ^ 52 :=
  Rackdoll.tableAt_lt (frame_lt _) h

/-- The way of `v` ends at an entry that is not present. -/
def Ends (s : Machine) (v : Nat) : Prop :=
  ∃ d p, tableAt s.mem (frame s.cr3) v d = some p ∧ present (entry s.mem p (pathIndex v d)) = false

theorem Ends.translate_eq_none {v : Nat} (h : s.Ends v) : translate s.mem s.cr3 v = none := by
  obtain ⟨d, p, hp, hempty⟩ := h
  exact Rackdoll.translate_eq_none hp hempty

/-- The loop of `unmap_page` ends in the last table. -/
theorem follow_cases (hphysical : s.PhysicalPath vaddr.toNat) (hsmall : s.SmallPath vaddr.toNat) :
    ∀ {lvl d p : Nat}, d + lvl = 3 → tableAt s.mem (frame s.cr3) vaddr.toNat d = some p →
      (follow s.mem vaddr lvl (BitVec.ofNat 64 p) = none ∧ s.Ends vaddr.toNat) ∨
        ∃ q, follow s.mem vaddr lvl (BitVec.ofNat 64 p) = some (BitVec.ofNat 64 q) ∧
          tableAt s.mem (frame s.cr3) vaddr.toNat 3 = some q := by
  intro lvl
  induction lvl with
  | zero =>
    intro d p hd hp
    obtain rfl : d = 3 := hd
    exact .inr ⟨p, rfl, hp⟩
  | succ lvl ih =>
    intro d p hd hp
    unfold follow
    rw [entryAddr_eq vaddr (tableAt_lt hp) hd]
    dsimp only
    by_cases hpresent : present (entry s.mem p (pathIndex vaddr.toNat d)) = true
    · have hcond : ¬ entry s.mem p (pathIndex vaddr.toNat d) &&& 1 = 0 := by
        rw [and_one_eq_zero, hpresent]
        decide
      have haddr := pteAddr_eq (hphysical.table d p (by omega) hp hpresent)
      unfold entry at hcond haddr
      rw [if_neg hcond, haddr]
      exact ih (by omega) (hsmall.next (by omega) hp hpresent)
    · rw [Bool.not_eq_true] at hpresent
      exact .inl ⟨if_pos ((and_one_eq_zero _).mpr hpresent), d, p, hp, hpresent⟩

/-- The entry that `unmap_page` clears is the last one on the way. -/
theorem leafAddr_cases (hphysical : s.PhysicalPath vaddr.toNat)
    (hsmall : s.SmallPath vaddr.toNat) :
    (s.leafAddr vaddr = none ∧ s.Ends vaddr.toNat) ∨
      ∃ p, s.leafAddr vaddr = some (p + 8 * pathIndex vaddr.toNat 3) ∧
        tableAt s.mem (frame s.cr3) vaddr.toNat 3 = some p ∧
          present (entry s.mem p (pathIndex vaddr.toNat 3)) = true := by
  unfold leafAddr
  rw [pteAddr_eq hphysical.cr3]
  rcases follow_cases hphysical hsmall (show 0 + 3 = 3 from rfl) rfl with
    ⟨hfollow, hends⟩ | ⟨p, hfollow, hp⟩
  · rw [hfollow]
    exact .inl ⟨rfl, hends⟩
  · rw [hfollow]
    dsimp only [Option.bind_eq_bind, Option.bind_some]
    rw [entryAddr_eq vaddr (tableAt_lt hp) (show 3 + 0 = 3 from rfl)]
    by_cases hpresent : present (entry s.mem p (pathIndex vaddr.toNat 3)) = true
    · refine .inr ⟨p, if_neg ?_, hp, hpresent⟩
      show ¬ entry s.mem p (pathIndex vaddr.toNat 3) &&& 1 = 0
      rw [and_one_eq_zero, hpresent]
      decide
    · rw [Bool.not_eq_true] at hpresent
      exact .inl ⟨if_pos ((and_one_eq_zero _).mpr hpresent), 3, p, hp, hpresent⟩

/-! ## `unmap_page` -/

/-- What `unmap_page` does to a page that is mapped by `t`: it returns the frame, and only
this page loses its translation. -/
structure Unmapped (s : Machine) (vaddr : Word) (t : Translation) (s' : Machine) (ret : Word) :
    Prop where
  returned : ret = t.leaf &&& PTE_ADDR
  paddr : t.paddr = frame ret + vaddr.toNat % 4096
  page : ∀ w : Word, pageOf w = pageOf vaddr → translate s'.mem s'.cr3 w.toNat = none
  other : ∀ w : Word, pageOf w ≠ pageOf vaddr →
    translate s'.mem s'.cr3 w.toNat = translate s.mem s.cr3 w.toNat

theorem unmapPage_of_leaf (operand : Word) {q : Nat} (h : s.leafAddr vaddr = some q) :
    (s.unmapPage vaddr operand).1.mem = write64 s.mem q 0 ∧
      (s.unmapPage vaddr operand).1.cr3 = s.cr3 ∧
        (s.unmapPage vaddr operand).2 = read64 s.mem q &&& PTE_ADDR := by
  unfold unmapPage
  rw [h]
  exact ⟨rfl, rfl, rfl⟩

theorem unmapPage_of_none (h : s.leafAddr vaddr = none) :
    s.unmapPage vaddr operand = (s, 0) := by
  unfold unmapPage
  rw [h]

/-- `unmap_page` on a tree in which no table is shared: a page that is mapped, through no
huge page, is unmapped, and a page that is not mapped leaves the machine as it is. -/
theorem unmapPage_translate (s : Machine) (vaddr operand : Word)
    (hunshared : UnsharedTables s.mem (frame s.cr3)) (hphysical : s.PhysicalPath vaddr.toNat)
    (hsmall : s.SmallPath vaddr.toNat) :
    (∀ t, translate s.mem s.cr3 vaddr.toNat = some t →
      Unmapped s vaddr t (s.unmapPage vaddr operand).1 (s.unmapPage vaddr operand).2) ∧
    (translate s.mem s.cr3 vaddr.toNat = none → s.unmapPage vaddr operand = (s, 0)) := by
  have hroot := root_aligned s
  rcases leafAddr_cases hphysical hsmall with ⟨hleaf, hends⟩ | ⟨p, hleaf, hp, hpresent⟩
  · refine ⟨fun t ht => ?_, fun _ => unmapPage_of_none hleaf⟩
    rw [hends.translate_eq_none] at ht
    cases ht
  obtain ⟨t, ht, htleaf, htpaddr, -⟩ := translate_eq hp hpresent
  refine ⟨fun t' ht' => ?_, fun hnone => ?_⟩
  · obtain rfl : t = t' := Option.some.inj (ht.symm.trans ht')
    obtain ⟨hmem, hcr3, hret⟩ := unmapPage_of_leaf operand hleaf
    have hlt := pathIndex_lt vaddr.toNat 3
    have hpmod := tableAt_aligned hroot hp
    refine ⟨?_, ?_, fun w hw => ?_, fun w hw => ?_⟩
    · rw [hret, htleaf]
      rfl
    · rw [hret, frame_pteAddr, htpaddr]
      rfl
    · rw [hmem, hcr3]
      have hlast : tableAt (write64 s.mem (p + 8 * pathIndex vaddr.toNat 3) 0) (frame s.cr3)
          w.toNat 3 = some p := by
        rw [tableAt_of_page hw (by omega), tableAt_write hunshared hroot hp (Nat.le_refl 3), hp]
      apply Rackdoll.translate_eq_none hlast
      rw [pageNumber_eq_iff.mp hw 3 (by omega), entry_write64 hpmod hpmod hlt hlt,
        if_pos ⟨rfl, rfl⟩]
      rfl
    · rw [hmem, hcr3]
      exact translate_write hunshared hroot hp hw
  · have hcontra := ht.symm.trans hnone
    cases hcontra

/-- A guest with one path of tables, in the first pages of a pool at 0x110000. -/
def ofPath (v : Nat) (leaf : Word) : Machine where
  mem := pathMem 0x110000 v leaf
  bitset := [0xf]
  cr3 := 0x110000
  tlb _ := none

theorem ofPath_root (v : Nat) (leaf : Word) : frame (ofPath v leaf).cr3 = 0x110000 :=
  show frame 0x110000 = 0x110000 by decide

theorem ofPath_entry {v : Nat} {leaf : Word} (hd : d < 3)
    (hp : tableAt (ofPath v leaf).mem (frame (ofPath v leaf).cr3) v d = some p) :
    entry (ofPath v leaf).mem p (pathIndex v d) = pathEntry 0x110000 leaf d := by
  have htable : tableAt (pathMem 0x110000 v leaf) 0x110000 v d = some (0x110000 + 4096 * d) :=
    tableAt_pathMem (by decide) (by decide) (by omega)
  rw [ofPath_root] at hp
  obtain rfl := Option.some.inj (htable.symm.trans hp)
  exact (entry_pathMem (by decide) (by omega) (pathIndex_lt v d)).trans (if_pos rfl)

theorem ofPath_unshared (v : Nat) (leaf : Word) :
    UnsharedTables (ofPath v leaf).mem (frame (ofPath v leaf).cr3) := by
  rw [ofPath_root]
  exact unshared_pathMem (by decide) (by decide)

theorem ofPath_physical (v : Nat) (leaf : Word) : (ofPath v leaf).PhysicalPath v where
  cr3 := show ((0x110000 : Word) &&& PTE_ADDR).toNat < 2 ^ 52 by decide
  table := by
    intro d p hd hp _
    rw [ofPath_entry hd hp]
    unfold pathEntry
    rw [if_neg (show ¬ d = 3 by omega)]
    obtain rfl | rfl | rfl : d = 0 ∨ d = 1 ∨ d = 2 := by omega
    all_goals decide

theorem ofPath_small (v : Nat) (leaf : Word) : (ofPath v leaf).SmallPath v := by
  intro d p _ hd hp _
  rw [ofPath_entry hd hp]
  exact (links_pathEntry (by decide) (by decide) hd).huge

/-- One page is mapped, and unmapped. -/
theorem unmapPage_translate_path :
    (∀ t, translate (ofPath 0x100000000 0x200007).mem 0x110000 0x100000000 = some t →
      Unmapped (ofPath 0x100000000 0x200007) 0x100000000 t
        ((ofPath 0x100000000 0x200007).unmapPage 0x100000000 0x10fff0).1
        ((ofPath 0x100000000 0x200007).unmapPage 0x100000000 0x10fff0).2) ∧
    (translate (ofPath 0x100000000 0x200007).mem 0x110000 0x100000000 = none →
      (ofPath 0x100000000 0x200007).unmapPage 0x100000000 0x10fff0 =
        (ofPath 0x100000000 0x200007, 0)) :=
  unmapPage_translate (ofPath 0x100000000 0x200007) 0x100000000 0x10fff0
    (ofPath_unshared 0x100000000 0x200007) (ofPath_physical 0x100000000 0x200007)
    (ofPath_small 0x100000000 0x200007)

end Machine

end KernelMemVirt.Janus.Guest
