import KernelMemVirt.Janus.GuestProgram

/-!
# Runs of the guest

* `BootLayout` are the page tables of `entry.S`, and `guestTables_boot` says that they are in
  order.
* `space_of_run` is the run from there on: the program has an address space of its own, with
  the frames that it holds.
* `exchange_of_run` is the exchange of two pages in `do_zero_copy`.  The tables of both pages are
  there, so it needs no page, and it always succeeds.
-/

namespace KernelMemVirt.Janus.Guest

open ByteMem OwnerTree Transition TranslationCache
open Rackdoll
open Guest.Machine (GuestTables PhysicalEntry)

/-! ## The boot of the guest -/

/-- The three page tables of `entry.S`, one after the other. -/
structure BootLayout (P : PoolRegion) where
  pml4 : Nat
  aligned : pml4 % 4096 = 0
  low : pml4 + 0x3000 ≤ 0x200000
  apart : ∀ q, P.IsPage q → q + 4096 ≤ pml4 ∨ pml4 + 0x3000 ≤ q

namespace BootLayout

variable {P : PoolRegion} (L : BootLayout P)

/-- The first entry of the table at depth `d`; the others are 0. -/
def bootEntry (d : Nat) : Word :=
  if d = 2 then 0x19b else BitVec.ofNat 64 (L.pml4 + 4096 * (d + 1)) + 0x7

/-- The memory with the tables. -/
def tables (mem : Mem) : Mem :=
  let link (mem : Mem) (d : Nat) : Mem := write64 mem (L.pml4 + 4096 * d + 8 * 0) (L.bootEntry d)
  link (link (link (fill mem L.pml4 0 0x3000) 0) 1) 2

/-- The machine in front of the first call. -/
def machine (mem : Mem) : Machine where
  mem := L.tables mem
  bitset := List.replicate BITSET_SIZE 0
  cr3 := BitVec.ofNat 64 L.pml4
  tlb _ := none

/-- The program holds nothing yet. -/
def program (mem : Mem) : Program := ⟨L.machine mem, []⟩

/-- The roles of the tables. -/
def role (p : Nat) : PageRole :=
  if p = L.pml4 then .root 0
  else if p = L.pml4 + 4096 * 1 then .entry 0 (L.pml4 + 4096 * 0) 0
  else if p = L.pml4 + 4096 * 2 then .entry 1 (L.pml4 + 4096 * 1) 0
  else .free

theorem depth_role {p d : Nat} (h : (L.role p).depth = some d) :
    d < 3 ∧ p = L.pml4 + 4096 * d := by
  unfold role at h
  split at h
  · next hp =>
    obtain rfl : 0 = d := Option.some.inj h
    exact ⟨by omega, hp⟩
  · split at h
    · next hp =>
      obtain rfl : 1 = d := Option.some.inj h
      exact ⟨by omega, hp⟩
    · split at h
      · next hp =>
        obtain rfl : 2 = d := Option.some.inj h
        exact ⟨by omega, hp⟩
      · cases h

theorem at_role : ∀ {d : Nat}, d < 3 → At L.role 0 0 d (L.pml4 + 4096 * d) := by
  have hindex : ∀ d, d < 3 → pathIndex 0 d = 0 := by decide
  have h0 : At L.role 0 0 0 (L.pml4 + 4096 * 0) := if_pos rfl
  have h1 : At L.role 0 0 1 (L.pml4 + 4096 * 1) := by
    refine ⟨_, h0, ?_⟩
    unfold role
    rw [if_neg (by omega), if_pos rfl, hindex 0 (by omega)]
  intro d hd
  obtain rfl | rfl | rfl : d = 0 ∨ d = 1 ∨ d = 2 := by omega
  · exact h0
  · exact h1
  · refine ⟨_, h1, ?_⟩
    unfold role
    rw [if_neg (by omega), if_neg (by omega), if_pos rfl, hindex 1 (by omega)]

theorem entry_tables (mem : Mem) {d i : Nat} (hd : d < 3) (hi : i < 512) :
    entry (L.tables mem) (L.pml4 + 4096 * d) i = if i = 0 then L.bootEntry d else 0 := by
  have haligned := L.aligned
  have hzero : entry (fill mem L.pml4 0 0x3000) (L.pml4 + 4096 * d) i = 0 :=
    entry_zero (fun _ _ _ => fill_apply_of_inside (by omega) (by omega)) hi
  unfold tables
  dsimp only
  rw [entry_write64 (by omega) (by omega) (by omega) hi,
    entry_write64 (by omega) (by omega) (by omega) hi,
    entry_write64 (by omega) (by omega) (by omega) hi, hzero]
  obtain rfl | rfl | rfl : d = 0 ∨ d = 1 ∨ d = 2 := by omega
  all_goals simp

theorem frame_cr3 (mem : Mem) : frame (L.machine mem).cr3 = L.pml4 := by
  have haligned := L.aligned
  have hlow := L.low
  show (BitVec.ofNat 64 L.pml4).toNat % 2 ^ 52 / 4096 * 4096 = L.pml4
  rw [BitVec.toNat_ofNat]
  omega

/-- The entries above the directory lead to the next table. -/
theorem bootEntry_toNat {d : Nat} (hd : d < 2) :
    (L.bootEntry d).toNat = L.pml4 + 4096 * (d + 1) + 7 := by
  have hlow := L.low
  unfold bootEntry
  rw [if_neg (by omega), BitVec.toNat_add, BitVec.toNat_ofNat]
  have h7 : (0x7 : Word).toNat = 7 := rfl
  omega

/-- The entries of a table that are present. -/
theorem entry_of_present (mem : Mem) {d i : Nat} (hd : d < 3) (hi : i < 512)
    (h : present (entry (L.tables mem) (L.pml4 + 4096 * d) i) = true) :
    i = 0 ∧ entry (L.tables mem) (L.pml4 + 4096 * d) i = L.bootEntry d := by
  rw [L.entry_tables mem hd hi] at h ⊢
  split at h
  · next hzero => exact ⟨hzero, if_pos hzero⟩
  · exact absurd h (by decide)

theorem guestTables_boot (mem : Mem) : GuestTables P (L.machine mem) [] L.role := by
  have haligned := L.aligned
  have hlow := L.low
  have hcr3 : PhysicalEntry (L.machine mem).cr3 := by
    unfold PhysicalEntry
    have hnat := pteAddr_toNat (L.machine mem).cr3
    have hpml4 : (L.machine mem).cr3.toNat = L.pml4 := by
      show (BitVec.ofNat 64 L.pml4).toNat = _
      rw [BitVec.toNat_ofNat]
      omega
    omega
  refine ⟨List.length_replicate, hcr3, ⟨fun t p hp => ?_, fun d p i q hd hq => ?_⟩,
    fun p hp => ?_, fun p hp hpage => ?_, fun p hp => List.not_mem_nil,
    fun p d i hd hi hpresent => ?_, fun p d i hd hpos hlt hi hpresent hhuge => ?_,
    fun q hq => absurd hq List.not_mem_nil⟩
  · unfold Machine.roots at hp
    split at hp
    · next ht =>
      obtain rfl := Option.some.inj hp
      rw [L.frame_cr3, ht]
      exact if_pos rfl
    · cases hp
  · obtain ⟨hd3, rfl⟩ := L.depth_role hd
    obtain ⟨hi, -, hpresent, hhuge, hframe⟩ := child_eq_some hq
    obtain ⟨rfl, hentry⟩ := L.entry_of_present mem hd3 hi hpresent
    have hmem : entry (L.machine mem).mem (L.pml4 + 4096 * d) 0 = L.bootEntry d := hentry
    rw [hmem] at hhuge hframe
    have hd2 : d < 2 := by
      by_contra hnot
      obtain rfl : d = 2 := by omega
      exact hhuge.elim (by omega) fun hsmall =>
        absurd (show huge (0x19b : Word) = false from hsmall) (by decide)
    have hnat := L.bootEntry_toNat hd2
    have hq' : q = L.pml4 + 4096 * (d + 1) := by
      rw [← hframe]
      unfold frame
      omega
    rw [hq']
    unfold role
    obtain rfl | rfl : d = 0 ∨ d = 1 := by omega
    · rw [if_neg (by omega), if_pos rfl]
    · rw [if_neg (by omega), if_neg (by omega), if_pos rfl]
  · obtain ⟨d, hd⟩ := exists_depth hp
    obtain ⟨-, rfl⟩ := L.depth_role hd
    omega
  · obtain ⟨d, hd⟩ := exists_depth hp
    obtain ⟨hd3, rfl⟩ := L.depth_role hd
    have := L.apart _ hpage
    omega
  · obtain ⟨hd3, rfl⟩ := L.depth_role hd
    obtain ⟨-, hentry⟩ := L.entry_of_present mem hd3 hi hpresent
    have hmem : entry (L.machine mem).mem (L.pml4 + 4096 * d) i = L.bootEntry d := hentry
    rw [hmem]
    by_cases hd2 : d < 2
    · have hnat := L.bootEntry_toNat hd2
      have haddr := pteAddr_toNat (L.bootEntry d)
      unfold PhysicalEntry
      omega
    · obtain rfl : d = 2 := by omega
      show ((0x19b : Word) &&& PTE_ADDR).toNat < 2 ^ 52
      decide
  · obtain ⟨hd3, rfl⟩ := L.depth_role hd
    obtain ⟨rfl, hentry⟩ := L.entry_of_present mem hd3 hi hpresent
    have hmem : entry (L.machine mem).mem (L.pml4 + 4096 * d) 0 = L.bootEntry d := hentry
    rw [hmem] at hhuge
    have hd2 : d = 2 := by
      by_contra hne
      have hnat := L.bootEntry_toNat (show d < 2 by omega)
      rw [huge_eq, hnat] at hhuge
      have hbit := of_decide_eq_true hhuge
      omega
    subst hd2
    exact ⟨rfl, rfl, L.at_role (by omega)⟩

/-- Nothing is mapped from 2 MiB on. -/
theorem refines_boot (mem : Mem) : Refines P (L.program mem) PagedSpace.empty := by
  have htables := L.guestTables_boot mem
  refine ⟨⟨L.role, htables⟩, agrees_empty, funext fun page => ?_, funext fun f => rfl⟩
  refine Eq.symm (Option.eq_none_iff_forall_ne_some.mpr fun f hf => ?_)
  obtain ⟨-, t, p, -, hp, -⟩ := htables.frameOf_leaf hf
  obtain ⟨hlt, -⟩ := L.depth_role (htables.at_of_tableAt hp).depth
  omega

end BootLayout

/-! ## The run -/

/-- The tables in front of the pool. -/
def lowLayout : BootLayout lowPool where
  pml4 := 0x101000
  aligned := by decide
  low := by decide
  apart := by
    intro q hq
    have hlow : 0x180000 ≤ q := hq.1
    exact .inr (by omega)

/-- A page is stored to and read at another address, and the first address gets another frame.
Its translation has left the cache by then; the variable of `invlpg` is on the boot stack. -/
def doubleMapEvents : List ProgramEvent :=
  [.mmap 0x200000, .store 0x200001 42, .cache 0x200001, .mapPage 0x201000 0x180000,
    .load 0x201001 42, .evict 0x200, .unmapPage 0x200000 0x10fff0 0x180000, .mmap 0x200000,
    .load 0x200001 0, .load 0x201001 42]

/-- The machine stands for a space in every state of the run. -/
theorem BootLayout.refines_run {P : PoolRegion} (L : BootLayout P) (mem : Mem)
    {es : List ProgramEvent} {t : Program}
    (hok : RunOk (Program.step P.base) (Program.EventFits P.base) (L.program mem) es)
    (hrun : run (Program.step P.base) (L.program mem) es = some t) : ∃ a, Refines P t a := by
  have hinv : ∀ p e p', (∃ a, Refines P p a) → Program.EventFits P.base p e →
      Program.step P.base p e = some p' → ∃ a, Refines P p' a := by
    intro p e p' hex hfits hstep
    rcases hex with ⟨a, h⟩
    obtain ⟨a', -, h'⟩ := refines_step h hfits hstep
    exact ⟨a', h'⟩
  exact run_invariant_of_ok hinv es _ t ⟨_, L.refines_boot mem⟩ hok hrun

/-! ## The exchange of two pages -/

namespace Machine

variable {P : PoolRegion} {s : Machine} {held : List Nat} {role : Nat → PageRole}
  {vaddr operand : Word} {v p : Nat} {e : Word}

/-- A last entry is on no way to a last table. -/
theorem GuestTables.tableAt_withLeaf (h : GuestTables P s held role)
    (hp : tableAt s.mem (frame s.cr3) v 3 = some p) (w : Nat) :
    tableAt (withLeaf s v p e).mem (frame s.cr3) w 3 = tableAt s.mem (frame s.cr3) w 3 := by
  refine tableAt_congr (agreeOn_write (root_aligned s)
    (h.aligned p (h.at_of_tableAt hp).ne_free) (pathIndex_lt v 3) fun k hk hq _ => ?_)
    (Nat.le_refl 3)
  obtain ⟨hdepth, -⟩ := tableAt_unique h.unshared hp hq
  omega

/-- The tables that are there need no page. -/
theorem GuestTables.cleanTables (h : GuestTables P s held role) (pool : Nat)
    (hv : ¬ LowAddress vaddr.toNat) {q : Nat}
    (hq : tableAt s.mem (frame s.cr3) vaddr.toNat 3 = some q) :
    CleanTables pool vaddr 3 s (s.cr3 &&& PTE_ADDR) := by
  have hway : ∀ {lvl d p : Nat}, d + lvl = 3 →
      tableAt s.mem (frame s.cr3) vaddr.toNat d = some p →
        CleanTables pool vaddr lvl s (BitVec.ofNat 64 p) := by
    intro lvl
    induction lvl with
    | zero => exact fun _ _ => trivial
    | succ lvl ih =>
      intro d p hd hp
      have hpresent : present (entry s.mem p (pathIndex vaddr.toNat d)) = true := by
        by_contra hempty
        rw [Bool.not_eq_true] at hempty
        have hnone := tableAt_of_missing hp hempty (show d < 3 by omega)
        cases hnone.symm.trans hq
      have hslot := entryAddr_eq vaddr (tableAt_lt hp) hd
      have hcond : ¬ read64 s.mem (entryAddr (BitVec.ofNat 64 p) vaddr (lvl + 1)) &&& 1 = 0 := by
        rw [hslot, and_one_eq_zero]
        exact fun hclear => absurd (hpresent.symm.trans hclear) (by decide)
      have haddr : read64 s.mem (entryAddr (BitVec.ofNat 64 p) vaddr (lvl + 1)) &&& PTE_ADDR =
          BitVec.ofNat 64 (frame (entry s.mem p (pathIndex vaddr.toNat d))) := by
        rw [hslot]
        exact pteAddr_eq ((h.physicalPath _).table d p (by omega) hp hpresent)
      unfold CleanTables
      dsimp only
      rw [if_neg hcond, haddr]
      exact ih (by omega) ((h.smallPath hv).next (by omega) hp hpresent)
  rw [pteAddr_eq h.cr3]
  exact hway (Nat.zero_add 3) tableAt_zero

/-- `unmap_page` keeps the tables. -/
theorem GuestTables.tableAt_unmapPage (h : GuestTables P s held role)
    (hv : ¬ LowAddress vaddr.toNat) (operand : Word) (w : Nat) :
    tableAt (s.unmapPage vaddr operand).1.mem (frame (s.unmapPage vaddr operand).1.cr3) w 3 =
      tableAt s.mem (frame s.cr3) w 3 := by
  rcases leafAddr_cases (h.physicalPath _) (h.smallPath hv) with ⟨hnone, -⟩ | ⟨p, hleaf, hp, -⟩
  · rw [unmapPage_of_none hnone]
  · obtain ⟨hmem, hcr3, -⟩ := unmapPage_of_leaf operand hleaf
    rw [hmem, hcr3]
    exact h.tableAt_withLeaf hp w

/-- `map_page` for an address whose tables are there. -/
theorem GuestTables.mapPage_of_tableAt (h : GuestTables P s held role) (pool : Nat)
    (hp : tableAt s.mem (frame s.cr3) vaddr.toNat 3 = some p) (page : Word) :
    s.mapPage pool vaddr page = withLeaf s vaddr.toNat p ((page &&& PTE_ADDR) ||| PTE_UWP) := by
  have hdescend := (descend_of_tableAt pool (h.physicalPath _) (show 3 + 0 = 3 from rfl) hp).1
  unfold Machine.mapPage withLeaf
  rw [hdescend, ← entryAddr_eq vaddr (tableAt_lt hp) (show 3 + 0 = 3 from rfl)]
  rfl

end Machine

section

variable {P : PoolRegion} {p : Program} {a : Space} {v w operand : Word} {f g : Nat}

/-- A page that is not cached, or whose translation `invlpg` drops. -/
def Dropped (s : Machine) (vaddr operand : Word) : Prop :=
  s.tlb (pageOf vaddr) = none ∨ pageOf operand = pageOf vaddr

theorem Dropped.flushes {s : Machine} {vaddr : Word} (h : Dropped s vaddr operand) :
    s.Flushes vaddr operand := by
  intro p c _ hc _
  rcases h with hnone | hpage
  · cases hnone.symm.trans hc
  · exact hpage

/-- `unmap_page` takes in no translation. -/
theorem Dropped.unmapPage {s : Machine} {operand' : Word} (h : Dropped s w operand) :
    Dropped (s.unmapPage v operand').1 w operand := by
  rcases h with hnone | hpage
  · refine .inl ?_
    unfold Machine.unmapPage
    split
    · exact hnone
    · dsimp only [Machine.invlpg, Machine.invlpgInstruction, Machine.markRemoved]
      by_cases hop : pageOf w = pageOf operand'
      · rw [hop, Function.update_self]
      · rw [Function.update_of_ne hop]
        by_cases hv : pageOf w = pageOf v
        · rw [hv, Function.update_self, ← hv, hnone]
          rfl
        · rw [Function.update_of_ne hv]
          exact hnone
  · exact .inr hpage

/-- A page that is mapped has its tables. -/
theorem Refines.exists_table (h : Refines P p a) (hf : a.frame (pageOf v) = some f) :
    ¬ LowAddress v.toNat ∧
      ∃ q, tableAt p.machine.mem (Rackdoll.frame p.machine.cr3) v.toNat 3 = some q := by
  obtain ⟨role, htables⟩ := h.tables
  rw [h.frame] at hf
  obtain ⟨hpage, t, q, -, hq, -⟩ := htables.frameOf_leaf hf
  refine ⟨(Machine.not_lowAddress_iff v).mpr hpage, q, ?_⟩
  have hlt : pageOf v < 2 ^ 36 := by
    unfold pageOf
    omega
  rwa [tableAt_of_page (show pageNumber (pageOf v * 4096) = pageNumber v.toNat from
    Machine.pageNumber_page hlt) (by omega)] at hq

end

/-- The calls that exchange two pages. -/
def exchangeCalls (v w operand operand' : Word) (f g : Nat) : List ProgramEvent :=
  [.unmapPage v operand (BitVec.ofNat 64 f), .unmapPage w operand' (BitVec.ofNat 64 g),
    .mapPage v (BitVec.ofNat 64 g), .mapPage w (BitVec.ofNat 64 f)]

/-- The address on the other one of the two pages. -/
def exchanged (v w x : Word) : Word :=
  BitVec.ofNat 64 (Equiv.swap (pageOf v) (pageOf w) (pageOf x) * 4096 + x.toNat % 4096)

theorem Machine.unmapPage_bitset (s : Machine) (vaddr operand : Word) :
    (s.unmapPage vaddr operand).1.bitset = s.bitset := by
  unfold Machine.unmapPage
  split
  · rfl
  · rfl

section

variable {P : PoolRegion} {p : Program} {a : Space} {v w operand operand' : Word} {f g : Nat}

/-- A call of `unmap_page` for a page at a frame. -/
theorem Refines.unmapPage_step (h : Refines P p a) (hf : a.frame (pageOf v) = some f)
    (ho : Dropped p.machine v operand) :
    p.step P.base (.unmapPage v operand (BitVec.ofNat 64 f)) =
        some { p with machine := (p.machine.unmapPage v operand).1 } ∧
      Refines P { p with machine := (p.machine.unmapPage v operand).1 } (a.unmap (pageOf v)) := by
  obtain ⟨hlow, -⟩ := h.exists_table hf
  obtain ⟨hret, hrefines⟩ := h.unmapPage ((Machine.not_lowAddress_iff v).mp hlow) ho.flushes
  rw [hf, Option.getD_some] at hret
  exact ⟨if_pos hret, hrefines⟩

/-- A call of `map_page` for a page at no frame, with its tables. -/
theorem Refines.mapPage_step (h : Refines P p a) (hv : ¬ LowAddress v.toNat) {q : Nat}
    (hq : tableAt p.machine.mem (Rackdoll.frame p.machine.cr3) v.toNat 3 = some q)
    (hnone : a.frame (pageOf v) = none) (hd : (a.data f).isSome = true) :
    let p' := { p with machine := p.machine.mapPage P.base v (BitVec.ofNat 64 f) }
    p.step P.base (.mapPage v (BitVec.ofNat 64 f)) = some p' ∧
      p'.machine.bitset = p.machine.bitset ∧ Refines P p' (a.map (pageOf v) f hd) ∧
        ∀ w, tableAt p'.machine.mem (Rackdoll.frame p'.machine.cr3) w 3 =
          tableAt p.machine.mem (Rackdoll.frame p.machine.cr3) w 3 := by
  obtain ⟨role, htables⟩ := h.tables
  have hpage := (Machine.not_lowAddress_iff v).mp hv
  have hnat := (htables.held f (h.mem_held_of_data hd)).1.toNat_ofNat
  have hmap := htables.mapPage_of_tableAt P.base hq (BitVec.ofNat 64 f)
  have hd' : (a.data (BitVec.ofNat 64 f).toNat).isSome = true := hnat.symm ▸ hd
  have hrefines := h.mapPage hpage hd' (h.uncached hpage hnone) (htables.cleanTables P.base hv hq)
  have heq : a.map (pageOf v) (BitVec.ofNat 64 f).toNat hd' = a.map (pageOf v) f hd := by
    congr 1
  refine ⟨rfl, ?_, heq ▸ hrefines, fun w => ?_⟩
  · dsimp only
    rw [hmap]
    rfl
  · dsimp only
    rw [hmap]
    exact htables.tableAt_withLeaf hq w

/-- The exchange of two pages always succeeds, and takes no page of the pool. -/
theorem Refines.exchange (h : Refines P p a) (hne : pageOf v ≠ pageOf w)
    (hf : a.frame (pageOf v) = some f) (hg : a.frame (pageOf w) = some g)
    (ho : Dropped p.machine v operand) (ho' : Dropped p.machine w operand') :
    ∃ p', run (Program.step P.base) p (exchangeCalls v w operand operand' f g) = some p' ∧
      p'.machine.bitset = p.machine.bitset ∧
        Refines P p' (a.exchange (pageOf v) (pageOf w) f g (a.held _ f hf) (a.held _ g hg)) := by
  obtain ⟨role, htables⟩ := h.tables
  obtain ⟨hv, q, hq⟩ := h.exists_table hf
  obtain ⟨hw, r, hr⟩ := h.exists_table hg
  obtain ⟨hstep₁, h₁⟩ := h.unmapPage_step hf ho
  have hg₁ : (a.unmap (pageOf v)).frame (pageOf w) = some g :=
    (Function.update_of_ne (Ne.symm hne) ..).trans hg
  obtain ⟨hstep₂, h₂⟩ := h₁.unmapPage_step hg₁ ho'.unmapPage
  obtain ⟨role₁, htables₁⟩ := h₁.tables
  have htable₂ : ∀ x, tableAt
      ((p.machine.unmapPage v operand).1.unmapPage w operand').1.mem
      (Rackdoll.frame ((p.machine.unmapPage v operand).1.unmapPage w operand').1.cr3) x 3 =
        tableAt p.machine.mem (Rackdoll.frame p.machine.cr3) x 3 := fun x =>
    (htables₁.tableAt_unmapPage hw operand' x).trans (htables.tableAt_unmapPage hv operand x)
  have hv₂ : ((a.unmap (pageOf v)).unmap (pageOf w)).frame (pageOf v) = none :=
    (Function.update_of_ne hne ..).trans (Function.update_self ..)
  have hw₂ : ((a.unmap (pageOf v)).unmap (pageOf w)).frame (pageOf w) = none :=
    Function.update_self ..
  obtain ⟨hstep₃, hbits₃, h₃, htable₃⟩ :=
    h₂.mapPage_step hv ((htable₂ _).trans hq) hv₂ (a.held _ g hg)
  obtain ⟨hstep₄, hbits₄, h₄, -⟩ := h₃.mapPage_step hw
    ((htable₃ _).trans ((htable₂ _).trans hr)) ((Function.update_of_ne (Ne.symm hne) ..).trans hw₂)
    (a.held _ f hf)
  refine ⟨_, ?_, hbits₄.trans (hbits₃.trans ?_), h₄⟩
  · unfold exchangeCalls
    rw [run_cons_of_some hstep₁, run_cons_of_some hstep₂, run_cons_of_some hstep₃,
      run_cons_of_some hstep₄]
    rfl
  · exact (Machine.unmapPage_bitset ..).trans (Machine.unmapPage_bitset ..)

/-- The page and the offset of the address on the other page. -/
theorem pageOf_exchanged (v w x : Word) :
    pageOf (exchanged v w x) = Equiv.swap (pageOf v) (pageOf w) (pageOf x) ∧
      offset (exchanged v w x) = offset x := by
  have hlt : ∀ y : Word, pageOf y < 2 ^ 36 := fun y => by
    unfold pageOf
    omega
  have hswap : Equiv.swap (pageOf v) (pageOf w) (pageOf x) < 2 ^ 36 := by
    rw [Equiv.swap_apply_def]
    split
    · exact hlt w
    · split
      · exact hlt v
      · exact hlt x
  generalize hk : Equiv.swap (pageOf v) (pageOf w) (pageOf x) = k at hswap
  have hnat : (exchanged v w x).toNat = k * 4096 + x.toNat % 4096 := by
    unfold exchanged
    rw [hk, BitVec.toNat_ofNat]
    omega
  constructor
  · unfold pageOf
    rw [hnat]
    omega
  · unfold offset
    refine Fin.ext ?_
    dsimp only
    rw [hnat]
    omega

end

/-- The two pages of `do_zero_copy`.  The translation that was cached is dropped. -/
def zeroCopyEvents : List ProgramEvent :=
  [.allocPage 0x180000, .allocPage 0x181000, .mapPage 0x200000 0x180000, .store 0x200001 1,
    .cache 0x200001, .mapPage 0x201000 0x181000, .load 0x201001 0, .evict 0x200]

end KernelMemVirt.Janus.Guest
