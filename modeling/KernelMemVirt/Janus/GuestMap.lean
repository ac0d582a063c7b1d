import KernelMemVirt.Janus.GuestTree
import KernelMemVirt.Lib.ActionLog
import KernelMemVirt.Rackdoll.Ownership

/-!
# `map_page` of the guest on used pages

The pages that `alloc_page` returns may hold what their last user left there, and `map_page`
makes tables of them as they are.

* `descendLog` and `mapPageLog` are the actions of `map_page`; `mapPage_replay` relates them
  to its memory.
* `descend_of_tableAt` is the way of `map_page` along the tables that are there, and
  `descend_of_missing` what it does at the first entry that is not present.
* `mapPage_iff` says when `map_page` is right whatever the free pages hold: when no table is
  missing.
-/

namespace KernelMemVirt.Janus.Guest

open ByteMem OwnerTree ActionLog
open Rackdoll

namespace Machine

/-! ## Actions -/

/-- The actions of `descend`. -/
def descendLog (pool : Nat) (vaddr : Word) : Nat → Machine → Word → List Action
  | 0, _, _ => []
  | lvl + 1, s, pgt =>
    let p := entryAddr pgt vaddr (lvl + 1)
    if read64 s.mem p &&& 1 = 0 then
      let (s, new) := s.alloc pool
      let e := (new &&& PTE_ADDR) ||| PTE_UWP
      .alloc new :: .word p e ::
        descendLog pool vaddr lvl { s with mem := write64 s.mem p e } new
    else descendLog pool vaddr lvl s (read64 s.mem p &&& PTE_ADDR)

/-- The actions of `map_page`. -/
def mapPageLog (pool : Nat) (s : Machine) (vaddr paddr : Word) : List Action :=
  let pgt := (descend pool vaddr 3 s (s.cr3 &&& PTE_ADDR)).2
  descendLog pool vaddr 3 s (s.cr3 &&& PTE_ADDR) ++
    [.word (entryAddr pgt vaddr 0) ((paddr &&& PTE_ADDR) ||| PTE_UWP)]

variable {pool : Nat} {s : Machine} {vaddr paddr operand : Word}

theorem descend_replay : ∀ {lvl : Nat} {s : Machine} {pgt : Word},
    (descend pool vaddr lvl s pgt).1.mem = replay s.mem (descendLog pool vaddr lvl s pgt) := by
  intro lvl
  induction lvl with
  | zero => exact fun {_ _} => rfl
  | succ lvl ih =>
    intro s pgt
    unfold descend descendLog
    dsimp only
    split
    · exact ih
    · exact ih

/-- The memory after `map_page`. -/
theorem mapPage_replay (pool : Nat) (s : Machine) (vaddr paddr : Word) :
    (s.mapPage pool vaddr paddr).mem = replay s.mem (mapPageLog pool s vaddr paddr) := by
  unfold mapPage mapPageLog
  dsimp only
  rw [replay_append, ← descend_replay]
  rfl

/-! ## The way of `map_page` -/

theorem descend_cr3 : ∀ {lvl : Nat} {s : Machine} {pgt : Word},
    (descend pool vaddr lvl s pgt).1.cr3 = s.cr3 := by
  intro lvl
  induction lvl with
  | zero => exact fun {_ _} => rfl
  | succ lvl ih =>
    intro s pgt
    unfold descend
    dsimp only
    split
    · exact ih
    · exact ih

theorem mapPage_cr3 : (s.mapPage pool vaddr paddr).cr3 = s.cr3 :=
  show (descend pool vaddr 3 s (s.cr3 &&& PTE_ADDR)).1.cr3 = s.cr3 from descend_cr3

/-- At an entry that is present `map_page` goes on to the next table. -/
theorem descend_of_present (pool : Nat) {lvl : Nat} {pgt : Word}
    (h : ¬ read64 s.mem (entryAddr pgt vaddr (lvl + 1)) &&& 1 = 0) :
    let next := read64 s.mem (entryAddr pgt vaddr (lvl + 1)) &&& PTE_ADDR
    descend pool vaddr (lvl + 1) s pgt = descend pool vaddr lvl s next ∧
      descendLog pool vaddr (lvl + 1) s pgt = descendLog pool vaddr lvl s next :=
  ⟨if_neg h, if_neg h⟩

/-- `map_page` goes the way of the tables. -/
theorem descend_of_tableAt (pool : Nat) (h : s.PhysicalPath vaddr.toNat) :
    ∀ {d lvl p : Nat}, d + lvl = 3 → tableAt s.mem (frame s.cr3) vaddr.toNat d = some p →
      descend pool vaddr 3 s (s.cr3 &&& PTE_ADDR) = descend pool vaddr lvl s (BitVec.ofNat 64 p) ∧
        descendLog pool vaddr 3 s (s.cr3 &&& PTE_ADDR) =
          descendLog pool vaddr lvl s (BitVec.ofNat 64 p) := by
  intro d
  induction d with
  | zero =>
    intro lvl p hd hp
    obtain rfl : frame s.cr3 = p := Option.some.inj hp
    obtain rfl : lvl = 3 := by omega
    rw [pteAddr_eq h.cr3]
    exact ⟨rfl, rfl⟩
  | succ d ih =>
    intro lvl q hd hq
    obtain ⟨p, hp, hchild⟩ := tableAt_succ_eq_some hq
    obtain ⟨-, hd3, hpresent, -, rfl⟩ := child_eq_some hchild
    have hslot := entryAddr_eq vaddr (tableAt_lt hp) (show d + (lvl + 1) = 3 by omega)
    have hcond : ¬ read64 s.mem (entryAddr (BitVec.ofNat 64 p) vaddr (lvl + 1)) &&& 1 = 0 := by
      rw [hslot, and_one_eq_zero]
      exact fun hclear => absurd (hpresent.symm.trans hclear) (by decide)
    have haddr : read64 s.mem (entryAddr (BitVec.ofNat 64 p) vaddr (lvl + 1)) &&& PTE_ADDR =
        BitVec.ofNat 64 (frame (entry s.mem p (pathIndex vaddr.toNat d))) := by
      rw [hslot]
      exact pteAddr_eq (h.table d p hd3 hp hpresent)
    obtain ⟨hdescend, hlog⟩ := descend_of_present pool hcond
    obtain ⟨hold, holdLog⟩ := ih (show d + (lvl + 1) = 3 by omega) hp
    rw [hold, holdLog, hdescend, hlog, haddr]
    exact ⟨rfl, rfl⟩

/-- At an entry that is not present `map_page` takes a page. -/
theorem descend_of_missing (pool : Nat) {d p n : Nat} (hd : d + (n + 1) = 3) (hp : p < 2 ^ 52)
    (hempty : present (entry s.mem p (pathIndex vaddr.toNat d)) = false) :
    let new := (s.alloc pool).2
    let e := (new &&& PTE_ADDR) ||| PTE_UWP
    let s' := { (s.alloc pool).1 with mem := write64 s.mem (p + 8 * pathIndex vaddr.toNat d) e }
    descend pool vaddr (n + 1) s (BitVec.ofNat 64 p) = descend pool vaddr n s' new ∧
      descendLog pool vaddr (n + 1) s (BitVec.ofNat 64 p) =
        .alloc new :: .word (p + 8 * pathIndex vaddr.toNat d) e ::
          descendLog pool vaddr n s' new := by
  have hslot := entryAddr_eq vaddr hp hd
  have hcond : read64 s.mem (entryAddr (BitVec.ofNat 64 p) vaddr (n + 1)) &&& 1 = 0 := by
    rw [hslot]
    exact (and_one_eq_zero _).mpr hempty
  rw [← hslot]
  exact ⟨if_pos hcond, if_pos hcond⟩

/-- In a page that leads back to itself `map_page` stays. -/
theorem descend_of_loop (pool : Nat) (vaddr : Word) {q : Nat} {e : Word} (hq : q < 2 ^ 52)
    (hpresent : present e = true) (haddr : e &&& PTE_ADDR = BitVec.ofNat 64 q)
    (hloop : ∀ i, i < 512 → entry s.mem q i = e) :
    ∀ {lvl : Nat}, lvl ≤ 3 → descend pool vaddr lvl s (BitVec.ofNat 64 q) = (s, BitVec.ofNat 64 q) ∧
      descendLog pool vaddr lvl s (BitVec.ofNat 64 q) = [] := by
  intro lvl
  induction lvl with
  | zero => exact fun _ => ⟨rfl, rfl⟩
  | succ lvl ih =>
    intro hlvl
    have hslot := entryAddr_eq vaddr hq (show 3 - (lvl + 1) + (lvl + 1) = 3 by omega)
    have hread : read64 s.mem (entryAddr (BitVec.ofNat 64 q) vaddr (lvl + 1)) = e := by
      rw [hslot]
      exact hloop _ (pathIndex_lt _ _)
    have hcond : ¬ read64 s.mem (entryAddr (BitVec.ofNat 64 q) vaddr (lvl + 1)) &&& 1 = 0 := by
      rw [hread, and_one_eq_zero, hpresent]
      decide
    obtain ⟨hdescend, hlog⟩ := descend_of_present pool hcond
    rw [hdescend, hlog, hread, haddr]
    exact ih (by omega)

/-! ## The property -/

/-- What `map_page` is for: the page is mapped, the others are as before, and `unmap_page`
gives the frame back. -/
structure MapsPage (pool : Nat) (s : Machine) (vaddr paddr : Word) : Prop where
  page : ∀ w : Word, pageOf w = pageOf vaddr → ∃ t,
    translate (s.mapPage pool vaddr paddr).mem (s.mapPage pool vaddr paddr).cr3 w.toNat = some t ∧
      t.paddr = paddr.toNat + w.toNat % 4096
  other : ∀ w : Word, pageOf w ≠ pageOf vaddr →
    translate (s.mapPage pool vaddr paddr).mem (s.mapPage pool vaddr paddr).cr3 w.toNat =
      translate s.mem s.cr3 w.toNat
  unmap : ∀ operand, ((s.mapPage pool vaddr paddr).unmapPage vaddr operand).2 = paddr

/-- A tree of tables that are in use, and an address that no huge page covers. -/
structure GuestTree (P : PoolRegion) (s : Machine) (vaddr : Word) : Prop where
  words : s.bitset.length = BITSET_SIZE
  unshared : UnsharedTables s.mem (frame s.cr3)
  inUse : TablesInUse P s.bitset s.mem (frame s.cr3)
  physical : s.PhysicalPath vaddr.toNat
  small : s.SmallPath vaddr.toNat

/-- The paths of a memory with the same entries on the way. -/
theorem PhysicalPath.congr {v : Nat} {mem : Mem} (h : s.PhysicalPath v)
    (hsame : AgreeOn s.mem mem (frame s.cr3) v 3) : PhysicalPath { s with mem } v where
  cr3 := h.cr3
  table := by
    intro d p hd hp hpresent
    have hp' : tableAt s.mem (frame s.cr3) v d = some p :=
      (tableAt_congr hsame (by omega)).symm.trans hp
    have hentry := hsame d p hd hp'
    dsimp only at hpresent ⊢
    rw [hentry] at hpresent ⊢
    exact h.table d p hd hp' hpresent

theorem SmallPath.congr {v : Nat} {mem : Mem} (h : s.SmallPath v)
    (hsame : AgreeOn s.mem mem (frame s.cr3) v 3) : SmallPath { s with mem } v := by
  intro d p hpos hd hp hpresent
  have hp' : tableAt s.mem (frame s.cr3) v d = some p :=
    (tableAt_congr hsame (by omega)).symm.trans hp
  have hentry := hsame d p hd hp'
  dsimp only at hpresent ⊢
  rw [hentry] at hpresent ⊢
  exact h d p hpos hd hp' hpresent

/-- What the free pages hold does not matter to the tree. -/
theorem GuestTree.congr {P : PoolRegion} (h : GuestTree P s vaddr) {mem : Mem}
    (hmem : ∀ a, ¬ P.Free s.bitset a → mem a = s.mem a) : GuestTree P { s with mem } vaddr := by
  have hsame := h.inUse.sameTables (root_aligned s) hmem
  refine ⟨h.words, hsame.unshared h.unshared, fun path p hp => ?_,
    h.physical.congr (hsame.agreeOn _ 3), h.small.congr (hsame.agreeOn _ 3)⟩
  exact h.inUse path p ((hsame.walk path).symm.trans hp)

/-- `(paddr & PTE_ADDR) | PTE_U | PTE_W | PTE_P` for the address of a page. -/
theorem pteUWP (paddr : Word) (haligned : paddr.toNat % 4096 = 0) (hmax : paddr.toNat < 2 ^ 52) :
    let e := (paddr &&& PTE_ADDR) ||| PTE_UWP
    paddr &&& PTE_ADDR = paddr ∧ present e = true ∧ huge e = false ∧ frame e = paddr.toNat ∧
      e &&& PTE_ADDR = paddr := by
  have hself : paddr &&& PTE_ADDR = paddr := by
    apply BitVec.eq_of_toNat_eq
    rw [pteAddr_toNat]
    omega
  dsimp only
  rw [hself]
  have hnat : (paddr ||| PTE_UWP).toNat = paddr.toNat + 7 := by
    have hor := or_flags_toNat haligned hmax (show 7 < 4096 by omega)
    rwa [BitVec.ofNat_toNat, BitVec.setWidth_eq] at hor
  refine ⟨rfl, ?_, ?_, ?_, ?_⟩
  · rw [present_eq, hnat]
    simp
    omega
  · rw [huge_eq, hnat]
    simp
    omega
  · unfold frame
    rw [hnat]
    omega
  · apply BitVec.eq_of_toNat_eq
    rw [pteAddr_toNat, hnat]
    omega

section

variable {P : PoolRegion} (haligned : paddr.toNat % 4096 = 0) (hmax : paddr.toNat < 2 ^ 52)
include haligned hmax

/-- When no table is missing, `map_page` writes the last entry. -/
theorem mapsPage_of_tableAt (h : GuestTree P s vaddr) {p : Nat}
    (hp : tableAt s.mem (frame s.cr3) vaddr.toNat 3 = some p) :
    MapsPage pool s vaddr paddr := by
  have hroot := root_aligned s
  have hlt := pathIndex_lt vaddr.toNat 3
  have hpmod := tableAt_aligned hroot hp
  obtain ⟨-, hpresent, -, hframe, hpte⟩ := pteUWP paddr haligned hmax
  have hrun : s.mapPage pool vaddr paddr =
      { s with
        mem := write64 s.mem (p + 8 * pathIndex vaddr.toNat 3)
          ((paddr &&& PTE_ADDR) ||| PTE_UWP) } := by
    obtain ⟨hdescend, -⟩ := descend_of_tableAt pool h.physical (show 3 + 0 = 3 from rfl) hp
    unfold mapPage
    rw [hdescend, ← entryAddr_eq vaddr (tableAt_lt hp) (show 3 + 0 = 3 from rfl)]
    rfl
  have hself : entry (write64 s.mem (p + 8 * pathIndex vaddr.toNat 3)
      ((paddr &&& PTE_ADDR) ||| PTE_UWP)) p (pathIndex vaddr.toNat 3) =
        (paddr &&& PTE_ADDR) ||| PTE_UWP :=
    (entry_write64 hpmod hpmod hlt hlt).trans (if_pos ⟨rfl, rfl⟩)
  have hmaps : ∀ w : Word, pageOf w = pageOf vaddr → ∃ t,
      translate (s.mapPage pool vaddr paddr).mem (s.mapPage pool vaddr paddr).cr3 w.toNat = some t ∧
        t.paddr = paddr.toNat + w.toNat % 4096 := by
    intro w hw
    rw [hrun]
    obtain ⟨t, ht, -, hpaddr, -⟩ := translate_write_self h.unshared hroot hp hpresent hw
    exact ⟨t, ht, by rw [hpaddr, hframe]⟩
  refine ⟨hmaps, fun w hw => ?_, fun operand => ?_⟩
  · rw [hrun]
    exact translate_write h.unshared hroot hp hw
  · obtain ⟨t, ht, -⟩ := hmaps vaddr rfl
    rw [hrun] at ht ⊢
    have hagree : AgreeOn s.mem (write64 s.mem (p + 8 * pathIndex vaddr.toNat 3)
        ((paddr &&& PTE_ADDR) ||| PTE_UWP)) (frame s.cr3) vaddr.toNat 3 := by
      refine agreeOn_write hroot hpmod hlt fun k hk hq _ => ?_
      obtain ⟨hdepth, -⟩ := tableAt_unique h.unshared hp hq
      omega
    rcases leafAddr_cases (h.physical.congr hagree) (h.small.congr hagree) with
      ⟨-, hends⟩ | ⟨q, hleaf, hq, -⟩
    · cases ht.symm.trans hends.translate_eq_none
    · have hsame := hq.symm.trans (tableAt_write h.unshared hroot hp (Nat.le_refl 3))
      obtain rfl := Option.some.inj (hsame.trans hp)
      rw [(unmapPage_of_leaf operand hleaf).2.2]
      exact (congrArg (· &&& PTE_ADDR) hself).trans hpte

end

/-- The run of `map_page` when the table that is missing becomes the page `q`, which leads
back to itself. -/
theorem mapPage_of_loop (paddr : Word) {P : PoolRegion} {bitset : List Word} {d p q : Nat}
    {e : Word}
    (hphysical : s.PhysicalPath vaddr.toNat) (hd : d < 3)
    (hp : tableAt s.mem (frame s.cr3) vaddr.toNat d = some p)
    (hempty : present (entry s.mem p (pathIndex vaddr.toNat d)) = false)
    (halloc : allocPage P.base s.bitset = (bitset, BitVec.ofNat 64 q)) (hq : q < 2 ^ 52)
    (he : (BitVec.ofNat 64 q &&& PTE_ADDR) ||| PTE_UWP = e) (hpresent : present e = true)
    (haddr : e &&& PTE_ADDR = BitVec.ofNat 64 q)
    (hloop : ∀ i, i < 512 →
      entry (write64 s.mem (p + 8 * pathIndex vaddr.toNat d) e) q i = e) :
    (s.mapPage P.base vaddr paddr).mem =
      write64 (write64 s.mem (p + 8 * pathIndex vaddr.toNat d) e)
        (q + 8 * pathIndex vaddr.toNat 3) ((paddr &&& PTE_ADDR) ||| PTE_UWP) ∧
      mapPageLog P.base s vaddr paddr =
        [.alloc (BitVec.ofNat 64 q), .word (p + 8 * pathIndex vaddr.toNat d) e,
          .word (q + 8 * pathIndex vaddr.toNat 3) ((paddr &&& PTE_ADDR) ||| PTE_UWP)] := by
  obtain ⟨n, hn⟩ : ∃ n, d + (n + 1) = 3 := ⟨2 - d, by omega⟩
  have hpage : s.alloc P.base = ({ s with bitset }, BitVec.ofNat 64 q) := by
    unfold alloc
    rw [halloc]
  obtain ⟨hway, hwayLog⟩ := descend_of_tableAt P.base hphysical hn hp
  obtain ⟨hmissing, hmissingLog⟩ := descend_of_missing P.base hn (tableAt_lt hp) hempty
  rw [hpage] at hmissing hmissingLog
  dsimp only at hmissing hmissingLog
  rw [he] at hmissing hmissingLog
  obtain ⟨hstay, hstayLog⟩ := descend_of_loop P.base vaddr
    (s := { s with bitset, mem := write64 s.mem (p + 8 * pathIndex vaddr.toNat d) e })
    hq hpresent haddr hloop (show n ≤ 3 by omega)
  unfold mapPage mapPageLog
  rw [hway, hwayLog, hmissing, hmissingLog, hstay, hstayLog]
  dsimp only
  rw [entryAddr_eq vaddr hq (show 3 + 0 = 3 from rfl)]
  exact ⟨rfl, rfl⟩

/-- A free page that leads back to itself, as the table that is missing, maps other pages. -/
theorem not_mapsPage_of_missing {P : PoolRegion} (h : GuestTree P s vaddr)
    (hfree : Bitset.free s.bitset ≠ 0) {d p : Nat} (hd : d < 3)
    (hp : tableAt s.mem (frame s.cr3) vaddr.toNat d = some p)
    (hempty : present (entry s.mem p (pathIndex vaddr.toNat d)) = false) :
    ∃ mem : Mem, (∀ a, ¬ P.Free s.bitset a → mem a = s.mem a) ∧
      AllocsSucceed (mapPageLog P.base { s with mem } vaddr paddr) ∧
        ¬ MapsPage P.base { s with mem } vaddr paddr := by
  rcases P.alloc_cases h.words with ⟨bitset, q, halloc, htake⟩ | ⟨hnone, -⟩
  swap
  · exact absurd hnone hfree
  have hqmod := htake.page.aligned
  have hqlt := htake.page.lt
  have hqnat := htake.page.toNat_ofNat
  obtain ⟨hpte, hpresent, -, -, haddr⟩ :=
    pteUWP (BitVec.ofNat 64 q) (by rw [hqnat]; exact hqmod) (by rw [hqnat]; omega)
  rw [hpte] at hpresent haddr
  have hlinks : Links (BitVec.ofNat 64 q ||| PTE_UWP) q :=
    links_or hqmod (by omega) (show 7 < 2048 by omega) (by decide) (by decide)
  have hloop := h.inUse.freeLoop (root_aligned s) h.unshared htake.page htake.unallocated hd hp
    hempty hlinks
  obtain ⟨hafter, hlog⟩ := mapPage_of_loop paddr (h.congr hloop.outside).physical hd hloop.table
    hloop.absent halloc (by omega) (congrArg (· ||| PTE_UWP) hpte) hpresent haddr hloop.loops
  refine ⟨_, hloop.outside, ?_, fun hmaps => ?_⟩
  · unfold AllocsSucceed
    rw [hlog]
    intro hin
    simp only [List.mem_cons, List.not_mem_nil, or_false, Action.alloc.injEq, reduceCtorEq] at hin
    exact htake.page.ofNat_ne_zero hin.symm
  · obtain ⟨v, hv, hlast, hbefore, t, ht⟩ := hloop.mapped ((paddr &&& PTE_ADDR) ||| PTE_UWP)
    have hvnat : (BitVec.ofNat 64 v).toNat = v := by
      rw [BitVec.toNat_ofNat]
      omega
    have hother := hmaps.other (BitVec.ofNat 64 v) fun heq => by
      have hindex := pageNumber_eq_iff.mp heq 3 (by omega)
      rw [hvnat] at hindex
      exact hlast hindex
    rw [hvnat, hafter, mapPage_cr3] at hother
    cases ht.symm.trans (hother.trans hbefore)

/-- `map_page` is right for whatever the free pages hold exactly if no table is missing on
the way of the address, or no page is free and the allocation fails. -/
theorem mapPage_iff {P : PoolRegion} {s : Machine} {vaddr paddr : Word} (h : GuestTree P s vaddr)
    (haligned : paddr.toNat % 4096 = 0) (hmax : paddr.toNat < 2 ^ 52) :
    (∀ mem : Mem, (∀ a, ¬ P.Free s.bitset a → mem a = s.mem a) →
      AllocsSucceed (mapPageLog P.base { s with mem } vaddr paddr) →
        MapsPage P.base { s with mem } vaddr paddr) ↔
      (∃ p, tableAt s.mem (frame s.cr3) vaddr.toNat 3 = some p) ∨ Bitset.free s.bitset = 0 := by
  constructor
  · intro hall
    rcases h.small.cases with hlast | ⟨d, p, hd, hp, hempty⟩
    · exact .inl hlast
    · refine .inr ?_
      by_contra hfree
      obtain ⟨mem, hmem, hallocs, hnot⟩ := not_mapsPage_of_missing h hfree hd hp hempty
      exact hnot (hall mem hmem hallocs)
  · intro hor mem hmem hallocs
    have h' := h.congr hmem
    have hsame := h.inUse.sameTables (root_aligned s) hmem
    rcases h'.small.cases with ⟨p, hp⟩ | ⟨d, p, hd, hp, hempty⟩
    · exact mapsPage_of_tableAt haligned hmax h' hp
    · exfalso
      rcases hor with ⟨q, hq⟩ | hfull
      · have hnone := tableAt_of_missing hp hempty hd
        cases ((hsame.tableAt vaddr.toNat 3).trans hq).symm.trans hnone
      · rcases P.alloc_cases h.words with ⟨bitset, q, -, htake⟩ | ⟨-, halloc⟩
        · have hcount := htake.free
          omega
        · obtain ⟨n, hn⟩ : ∃ n, d + (n + 1) = 3 := ⟨2 - d, by omega⟩
          obtain ⟨-, hway⟩ := descend_of_tableAt P.base h'.physical hn hp
          obtain ⟨-, hmissing⟩ := descend_of_missing P.base hn (tableAt_lt hp) hempty
          refine hallocs (List.mem_append_left _ ?_)
          rw [hway, hmissing]
          have hnew : (alloc { s with mem } P.base).2 = 0 := by
            unfold alloc
            rw [halloc]
          rw [hnew]
          exact List.mem_cons_self

/-- A guest whose tree is empty.  A free page has a word that its last user left. -/
def usedPages : Machine where
  mem := write64 (fun _ => 0) 0x183008 0x200007
  bitset := [1]
  cr3 := 0x180000
  tlb _ := none

theorem usedPages_tree (vaddr : Word) : GuestTree lowPool usedPages vaddr := by
  have hcr3 : frame usedPages.cr3 = 0x180000 := show frame 0x180000 = 0x180000 by decide
  have hempty : ∀ i, i < 512 → entry usedPages.mem (frame usedPages.cr3) i = 0 := by
    intro i hi
    rw [hcr3]
    refine (entry_write64 (p := 0x183000) (i := 1) (by decide) (by decide) (by decide) hi).trans ?_
    rw [if_neg (by omega)]
    exact entry_zero (fun _ _ _ => rfl) hi
  have habsent : ∀ {v d p}, tableAt usedPages.mem (frame usedPages.cr3) v d = some p →
      present (entry usedPages.mem p (pathIndex v d)) = false := by
    intro v d p hp
    obtain ⟨-, rfl⟩ := walk_of_empty hempty hp
    rw [hempty _ (pathIndex_lt v d)]
    rfl
  refine ⟨rfl, unshared_of_empty hempty, fun path p hp _ => ?_, ⟨?_, fun d p _ hp hpresent => ?_⟩,
    fun d p _ _ hp hpresent => ?_⟩
  · obtain ⟨-, rfl⟩ := walk_of_empty hempty hp
    rw [hcr3]
    decide
  · show ((0x180000 : Word) &&& PTE_ADDR).toNat < 2 ^ 52
    decide
  · cases (habsent hp).symm.trans hpresent
  · cases (habsent hp).symm.trans hpresent

/-- The word that was left there maps the next page. -/
theorem not_mapsPage_used :
    GuestTree lowPool usedPages 0x100000000 ∧
      AllocsSucceed (mapPageLog lowPool.base usedPages 0x100000000 0x300000) ∧
        ¬ MapsPage lowPool.base usedPages 0x100000000 0x300000 := by
  refine ⟨usedPages_tree 0x100000000, by decide +kernel, fun hmaps => ?_⟩
  have hnext := hmaps.other 0x100001000 (by decide)
  revert hnext
  decide +kernel

theorem mapPage_iff_used :
    (∀ mem : Mem, (∀ a, ¬ lowPool.Free usedPages.bitset a → mem a = usedPages.mem a) →
      AllocsSucceed (mapPageLog lowPool.base { usedPages with mem } 0x100000000 0x300000) →
        MapsPage lowPool.base { usedPages with mem } 0x100000000 0x300000) ↔
      (∃ p, tableAt usedPages.mem (frame usedPages.cr3) 0x100000000 3 = some p) ∨
        Bitset.free usedPages.bitset = 0 :=
  mapPage_iff (usedPages_tree 0x100000000) (by decide) (by decide)

end Machine

end KernelMemVirt.Janus.Guest
