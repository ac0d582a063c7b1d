import KernelMemVirt.Janus.GuestSpace

/-!
# The program of the guest

The guest is one program that calls the functions of `guest/memory.c` and accesses its pages,
through the cached translations.

* `Program.step` is the machine with the frames that the program holds, and `Next` is what the
  program may rely on: its pages are at frames, whose contents change by stores only.
* `refines_step` is one event.  `EventFits` has the conditions: what the program must not do
  (give back a frame that is mapped, map one that it does not hold), the frames that the
  function needs, and for `unmap_page` that the translation is dropped.
* `space_of_run` is the run from the boot of the guest on.
* `exchange_of_run` is the exchange of two pages in `do_zero_copy`, which always succeeds.
-/

namespace KernelMemVirt.Janus.Guest

open ByteMem OwnerTree Transition TranslationCache
open Rackdoll

/-- The machine, and the frames that the program has got and not given back. -/
structure Program where
  machine : Machine
  held : List Nat

/-- What the program does, with what it gets back; or the cache by itself. -/
inductive ProgramEvent
  | load (vaddr : Word) (byte : BitVec 8)
  | store (vaddr : Word) (byte : BitVec 8)
  | fault (vaddr : Word)
  | cache (vaddr : Word)
  | evict (page : Nat)
  | allocPage (page : Word)
  | freePage (page : Word)
  | mapPage (vaddr page : Word)
  | unmapPage (vaddr operand page : Word)
  | mmap (vaddr : Word)
  | munmap (vaddr operand : Word)

namespace Machine

variable (s : Machine)

/-- The byte that an access reads with the translation `c`. -/
def byteAt (vaddr : Word) (c : Cached) : BitVec 8 := s.mem (c.frame * 4096 + vaddr.toNat % 4096)

/-- What the program reads. -/
def read (vaddr : Word) : Option (BitVec 8) := (s.lookup vaddr).map (s.byteAt vaddr)

/-- No entry below the table `p`, with `n` levels below it, maps the frame. -/
def MapsNone (mem : Mem) (f : Nat) : Nat → Nat → Prop
  | 0, p => ∀ i, i < 512 → present (entry mem p i) = true → frame (entry mem p i) ≠ f
  | n + 1, p => ∀ i, i < 512 → ∀ q ∈ child mem (2 - n) p i, MapsNone mem f n q

instance mapsNoneDecidable (mem : Mem) (f : Nat) : ∀ n p, Decidable (MapsNone mem f n p)
  | 0, p => Nat.decidableBallLT 512 fun i _ =>
      present (entry mem p i) = true → frame (entry mem p i) ≠ f
  | n + 1, p =>
    have := mapsNoneDecidable mem f n
    Nat.decidableBallLT 512 fun i _ => ∀ q ∈ child mem (2 - n) p i, MapsNone mem f n q

/-- No page is at the frame. -/
def FrameUnmapped (f : Nat) : Prop := MapsNone s.mem f 3 (frame s.cr3)

instance (f : Nat) : Decidable (s.FrameUnmapped f) := mapsNoneDecidable s.mem f 3 _

instance cleanTablesDecidable (pool : Nat) (vaddr : Word) :
    ∀ lvl s pgt, Decidable (CleanTables pool vaddr lvl s pgt)
  | 0, _, _ => inferInstanceAs (Decidable True)
  | lvl + 1, _, _ =>
    have := cleanTablesDecidable pool vaddr lvl
    show Decidable (if _ then _ ∧ _ ∧ _ else _) from inferInstance

instance flushesDecidable (vaddr operand : Word) : Decidable (s.Flushes vaddr operand) :=
  decidable_of_iff
    (∀ p ∈ s.leafAddr vaddr, ∀ c ∈ s.tlb (pageOf vaddr), c.leaf = read64 s.mem p →
      pageOf operand = pageOf vaddr)
    ⟨fun h p c hp hc => h p hp c hc, fun h p hp c hc => h p c hp hc⟩

end Machine

namespace Program

variable (p : Program)

/-- One event. -/
def step (pool : Nat) (p : Program) : ProgramEvent → Option Program
  | .load vaddr byte => if p.machine.read vaddr = some byte then some p else none
  | .store vaddr byte => (p.machine.lookup vaddr).map fun c =>
      { p with machine := p.machine.access vaddr (some byte) false c }
  | .fault vaddr =>
    if p.machine.lookup vaddr = none then
      (p.machine.pgfault pool vaddr).toOption.map fun machine =>
        ⟨machine, (p.machine.alloc pool).2.toNat :: p.held⟩
    else none
  | .cache vaddr => (p.machine.lookup vaddr).map fun c =>
      { p with machine := p.machine.access vaddr none true c }
  | .evict page =>
    some { p with machine := { p.machine with tlb := Function.update p.machine.tlb page none } }
  | .allocPage page =>
    let (machine, new) := p.machine.alloc pool
    if new = page then some ⟨machine, if new = 0 then p.held else new.toNat :: p.held⟩ else none
  | .freePage page => (Rackdoll.freePage pool p.machine.bitset page).toOption.map fun bitset =>
      ⟨{ p.machine with bitset }, p.held.filter (· ≠ page.toNat)⟩
  | .mapPage vaddr page => some { p with machine := p.machine.mapPage pool vaddr page }
  | .unmapPage vaddr operand page =>
    let (machine, old) := p.machine.unmapPage vaddr operand
    if old = page then some { p with machine } else none
  | .mmap vaddr => some ⟨p.machine.mmap pool vaddr, (p.machine.alloc pool).2.toNat :: p.held⟩
  | .munmap vaddr operand => (p.machine.munmap pool vaddr operand).toOption.map fun machine =>
      ⟨machine, p.held.filter (· ≠ (p.machine.unmapPage vaddr operand).2.toNat)⟩

/-- `mmap` finds a page, and pages for the tables that are missing. -/
def MmapFits (pool : Nat) (vaddr : Word) : Prop :=
  let (s, new) := p.machine.alloc pool
  new ≠ 0 ∧ Machine.CleanTables pool vaddr 3 { s with mem := fill s.mem new.toNat 0 4096 }
    (s.cr3 &&& PTE_ADDR)

instance (pool : Nat) (vaddr : Word) : Decidable (p.MmapFits pool vaddr) :=
  inferInstanceAs (Decidable (_ ∧ _))

/-- The conditions on an event.  The program has the addresses from 2 MiB on. -/
def EventFits (pool : Nat) (p : Program) : ProgramEvent → Prop
  | .load vaddr _ => 0x200 ≤ pageOf vaddr
  | .store vaddr _ => 0x200 ≤ pageOf vaddr
  | .fault vaddr => p.MmapFits pool (vaddr &&& PAGE_MASK)
  | .cache _ => True
  | .evict _ => True
  | .allocPage _ => True
  | .freePage page => page.toNat ∈ p.held ∧ p.machine.FrameUnmapped page.toNat
  | .mapPage vaddr page => 0x200 ≤ pageOf vaddr ∧ page.toNat ∈ p.held ∧
      p.machine.tlb (pageOf vaddr) = none ∧
        Machine.CleanTables pool vaddr 3 p.machine (p.machine.cr3 &&& PTE_ADDR)
  | .unmapPage vaddr operand _ => 0x200 ≤ pageOf vaddr ∧ p.machine.Flushes vaddr operand
  | .mmap vaddr => 0x200 ≤ pageOf vaddr ∧ p.machine.tlb (pageOf vaddr) = none ∧
      p.MmapFits pool vaddr
  | .munmap vaddr operand => 0x200 ≤ pageOf vaddr ∧ p.machine.Flushes vaddr operand ∧
      (p.machine.unmapPage vaddr operand).1.FrameUnmapped
        (p.machine.unmapPage vaddr operand).2.toNat

instance (pool : Nat) : ∀ e, Decidable (EventFits pool p e)
  | .load _ _ => inferInstanceAs (Decidable (_ ≤ _))
  | .store _ _ => inferInstanceAs (Decidable (_ ≤ _))
  | .fault _ => inferInstanceAs (Decidable (p.MmapFits pool _))
  | .cache _ => inferInstanceAs (Decidable True)
  | .evict _ => inferInstanceAs (Decidable True)
  | .allocPage _ => inferInstanceAs (Decidable True)
  | .freePage _ => inferInstanceAs (Decidable (_ ∧ _))
  | .mapPage _ _ => inferInstanceAs (Decidable (_ ∧ _))
  | .unmapPage _ _ _ => inferInstanceAs (Decidable (_ ∧ _))
  | .mmap _ => inferInstanceAs (Decidable (_ ∧ _))
  | .munmap _ _ => inferInstanceAs (Decidable (_ ∧ _))

end Program

/-! ## What the program may rely on -/

/-- The pages of the program, and the frames that it holds. -/
abbrev Space := PagedSpace Nat Nat (Fin 4096) (BitVec 8)

/-- The offset in the page. -/
def offset (vaddr : Word) : Fin 4096 := ⟨vaddr.toNat % 4096, Nat.mod_lt _ (by decide)⟩

/-- One event.  A frame that the program gets holds anything, and one that it gets by `mmap`
or by a page fault holds zeros. -/
inductive Next : Space → ProgramEvent → Space → Prop
  | load {a : Space} {vaddr : Word} {byte : BitVec 8}
      (h : a.load (pageOf vaddr) (offset vaddr) = some byte) : Next a (.load vaddr byte) a
  | store {a : Space} {vaddr : Word} {byte : BitVec 8} {f : Nat} {d : Fin 4096 → BitVec 8}
      (hf : a.frame (pageOf vaddr) = some f) (hd : a.data f = some d) :
      Next a (.store vaddr byte) (a.store f d (offset vaddr) byte)
  | fault {a : Space} {vaddr : Word} {f : Nat} (hlo : 0x100000000 ≤ vaddr.toNat)
      (hhi : vaddr.toNat < 0x700000000000) (hnone : a.frame (pageOf vaddr) = none)
      (hf : a.data f = none) : Next a (.fault vaddr) (a.place (pageOf vaddr) f fun _ => 0)
  | cache {a : Space} {vaddr : Word} : Next a (.cache vaddr) a
  | evict {a : Space} {page : Nat} : Next a (.evict page) a
  | allocPage {a : Space} {page : Word} {d : Fin 4096 → BitVec 8}
      (hf : a.data page.toNat = none) : Next a (.allocPage page) (a.hold page.toNat d)
  | allocNone {a : Space} : Next a (.allocPage 0) a
  | freePage {a : Space} {page : Word} (hd : (a.data page.toNat).isSome)
      (hf : ∀ k, a.frame k ≠ some page.toNat) :
      Next a (.freePage page) (a.drop page.toNat hf)
  | mapPage {a : Space} {vaddr page : Word} (hd : (a.data page.toNat).isSome) :
      Next a (.mapPage vaddr page) (a.map (pageOf vaddr) page.toNat hd)
  | unmapPage {a : Space} {vaddr operand page : Word}
      (hpage : page = BitVec.ofNat 64 ((a.frame (pageOf vaddr)).getD 0)) :
      Next a (.unmapPage vaddr operand page) (a.unmap (pageOf vaddr))
  | mmap {a : Space} {vaddr : Word} {f : Nat} (hf : a.data f = none) :
      Next a (.mmap vaddr) (a.place (pageOf vaddr) f fun _ => 0)
  | munmapNone {a : Space} {vaddr operand : Word} (hnone : a.frame (pageOf vaddr) = none) :
      Next a (.munmap vaddr operand) a
  | munmap {a : Space} {vaddr operand : Word} {f : Nat} (hf : a.frame (pageOf vaddr) = some f)
      (hlast : ∀ k, (a.unmap (pageOf vaddr)).frame k ≠ some f) :
      Next a (.munmap vaddr operand) ((a.unmap (pageOf vaddr)).drop f hlast)

/-- The machine stands for the space. -/
structure Refines (P : PoolRegion) (p : Program) (a : Space) : Prop where
  tables : ∃ role, Machine.GuestTables P p.machine p.held role
  coherent : Agrees p.machine.tlb p.machine.walk
  frame : a.frame = p.machine.frameOf
  data : a.data = p.machine.dataOf p.held

/-! ## The frames that are mapped -/

namespace Machine

variable {P : PoolRegion} {s : Machine} {held : List Nat} {role : Nat → PageRole} {f : Nat}

/-- The tables on the way of an address do not map the frame. -/
theorem MapsNone.tableAt {v : Nat} (h : s.FrameUnmapped f) : ∀ {d p : Nat}, d ≤ 3 →
    tableAt s.mem (frame s.cr3) v d = some p → MapsNone s.mem f (3 - d) p := by
  intro d
  induction d with
  | zero =>
    intro p _ hp
    obtain rfl : frame s.cr3 = p := Option.some.inj hp
    exact h
  | succ d ih =>
    intro q hd hq
    obtain ⟨p, hp, hchild⟩ := tableAt_succ_eq_some hq
    have hnone := ih (by omega) hp
    rw [show 3 - d = (3 - (d + 1)) + 1 by omega] at hnone
    refine hnone _ (pathIndex_lt v d) q ?_
    rw [show 2 - (3 - (d + 1)) = d by omega]
    exact hchild

/-- A page of the program is at a frame of its own last entry. -/
theorem GuestTables.frameOf_leaf (h : GuestTables P s held role) {page : Nat}
    (hf : s.frameOf page = some f) : 0x200 ≤ page ∧ ∃ t p,
      translate s.mem s.cr3 (page * 4096) = some t ∧
        tableAt s.mem (frame s.cr3) (page * 4096) 3 = some p ∧
          present (entry s.mem p (pathIndex (page * 4096) 3)) = true ∧
            t.leaf = entry s.mem p (pathIndex (page * 4096) 3) ∧ frame t.leaf = f := by
  unfold frameOf walk at hf
  split at hf
  · next hpage =>
    split at hf
    · next hlt =>
      obtain ⟨c, hc, rfl⟩ := Option.map_eq_some_iff.mp hf
      obtain ⟨t, ht, rfl⟩ := Option.map_eq_some_iff.mp hc
      have hv : ¬ LowAddress (page * 4096) := by
        unfold LowAddress
        omega
      obtain ⟨p, hp, hpresent, hleaf, hpaddr, -⟩ := h.leaf hv ht
      have hmod := frame_aligned t.leaf
      refine ⟨hpage, t, p, ht, hp, hpresent, hleaf, ?_⟩
      dsimp only
      omega
    · cases hf
  · cases hf

theorem GuestTables.frameOf_ne (h : GuestTables P s held role) (hf : s.FrameUnmapped f)
    (page : Nat) : s.frameOf page ≠ some f := by
  intro hpage
  obtain ⟨-, t, p, -, hp, hpresent, hleaf, hframe⟩ := h.frameOf_leaf hpage
  exact MapsNone.tableAt hf (Nat.le_refl 3) hp _ (pathIndex_lt _ 3) hpresent (hleaf ▸ hframe)

/-- The program gets a page of zeros. -/
theorem GuestTables.mmap (h : GuestTables P s held role) {vaddr : Word}
    (hv : ¬ LowAddress vaddr.toNat) (hfits : Program.MmapFits ⟨s, held⟩ P.base vaddr) :
    ∃ q, (s.alloc P.base).2.toNat = q ∧ q ∉ held ∧ P.IsPage q ∧
      (∃ role', GuestTables P (s.mmap P.base vaddr) (q :: held) role') ∧
        (s.mmap P.base vaddr).walk =
          Function.update s.walk (pageOf vaddr) (some ⟨q / 4096, leafOf q, false⟩) ∧
        (s.mmap P.base vaddr).dataOf (q :: held) =
          Function.update (s.dataOf held) q (some fun _ => 0) := by
  unfold Program.MmapFits at hfits
  rcases h.alloc_cases with ⟨bitset, q, halloc, hpage, hout, htables⟩ | hnone
  swap
  · rw [hnone] at hfits
    exact absurd rfl hfits.1
  have hqnat := hpage.toNat_ofNat
  rw [halloc] at hfits
  dsimp only at hfits
  rw [hqnat] at hfits
  have hfill : ∀ a, (∀ r ∈ q :: held, ¬ InPage r a) → fill s.mem q 0 4096 a = s.mem a := by
    intro a ha
    have hnot := ha q List.mem_cons_self
    unfold InPage at hnot
    exact fill_apply_of_outside (by omega)
  obtain ⟨hcleared, hsame⟩ := htables.of_held hfill
  obtain ⟨htables', hdata, hwalk⟩ := hcleared.mapPage hv hpage hfits.2
  have hmmap : s.mmap P.base vaddr =
      Machine.mapPage { s with bitset, mem := fill s.mem q 0 4096 } P.base vaddr
        (BitVec.ofNat 64 q) := by
    unfold Machine.mmap
    rw [halloc]
    dsimp only
    rw [hqnat]
  refine ⟨q, by rw [halloc]; exact hqnat, hout, hpage, hmmap ▸ htables', ?_, ?_⟩
  · rw [hmmap, hwalk, hsame.walk]
    rfl
  · rw [hmmap, hdata.dataOf]
    funext g
    by_cases hg : g = q
    · subst hg
      rw [Function.update_self, dataOf_of_mem List.mem_cons_self]
      refine congrArg some (funext fun o => ?_)
      have hlt := o.isLt
      exact fill_apply_of_inside (by omega) (by omega)
    · rw [Function.update_of_ne hg]
      unfold dataOf
      refine if_ctx_congr (by simp [hg])
        (fun hin => congrArg some (funext fun o => ?_)) fun _ => rfl
      have hlt := o.isLt
      have hgmod := (h.held g hin).1.aligned
      have hqmod := hpage.aligned
      exact fill_apply_of_outside (by omega)

/-- What `unmap_page` does to the cache. -/
theorem GuestTables.coherent_unmapPage (h : GuestTables P s held role) {vaddr operand : Word}
    (hv : ¬ LowAddress vaddr.toNat) (hco : Agrees s.tlb s.walk)
    (hflush : s.Flushes vaddr operand) :
    Agrees (s.unmapPage vaddr operand).1.tlb (s.unmapPage vaddr operand).1.walk := by
  obtain ⟨-, -, hwalk, -⟩ := h.unmapPage operand hv
  rw [hwalk]
  rcases leafAddr_cases (h.physicalPath _) (h.smallPath hv) with ⟨hnone, hends⟩ |
    ⟨p, hleaf, hp, hpresent⟩
  · rw [unmapPage_of_none hnone]
    refine hco.move (Option.eq_none_iff_forall_ne_some.mpr fun c hc => ?_) none
    have hmiss := hco _ c hc
    rw [walk_pageOf, hends.translate_eq_none] at hmiss
    cases hmiss
  · obtain ⟨t, ht, htleaf, -⟩ := translate_eq hp hpresent
    have hdropped : (s.unmapPage vaddr operand).1.tlb (pageOf vaddr) = none := by
      unfold Machine.unmapPage
      rw [hleaf]
      dsimp only [invlpg, invlpgInstruction, markRemoved]
      cases hc : s.tlb (pageOf vaddr) with
      | none =>
        by_cases hpage : pageOf vaddr = pageOf operand
        · rw [hpage, Function.update_self]
        · rw [Function.update_of_ne hpage, Function.update_self]
          rfl
      | some c =>
        have hfound := (walk_pageOf s vaddr).symm.trans (hco _ c hc)
        have hsome : translate s.mem s.cr3 vaddr.toNat = some t := ht
        rw [hsome] at hfound
        obtain rfl := Option.some.inj hfound
        rw [hflush _ _ hleaf hc htleaf, Function.update_self]
    have hsub : Agrees (s.unmapPage vaddr operand).1.tlb s.walk := by
      refine hco.sub fun k c hk => ?_
      have hne : k ≠ pageOf vaddr := by
        rintro rfl
        cases hdropped.symm.trans hk
      unfold Machine.unmapPage at hk
      rw [hleaf] at hk
      dsimp only [invlpg, invlpgInstruction, markRemoved] at hk
      by_cases hpage : k = pageOf operand
      · rw [hpage, Function.update_self] at hk
        cases hk
      · rwa [Function.update_of_ne hpage, Function.update_of_ne hne] at hk
    exact hsub.move hdropped none

end Machine

/-! ## One event -/

section

variable {P : PoolRegion} {p p' : Program} {a : Space} {vaddr operand : Word}

/-- An access uses the translation by the tables. -/
theorem Refines.lookup (h : Refines P p a) (vaddr : Word) :
    p.machine.lookup vaddr = p.machine.walk (pageOf vaddr) := by
  rw [Machine.lookup_eq, Agrees.lookup h.coherent]

theorem Refines.frame_eq (h : Refines P p a) (hv : 0x200 ≤ pageOf vaddr) :
    a.frame (pageOf vaddr) = (p.machine.lookup vaddr).map fun c => c.frame * 4096 := by
  rw [h.frame, h.lookup]
  exact if_pos hv

/-- The frames with data are those that the program holds. -/
theorem Refines.mem_held_of_data (h : Refines P p a) {f : Nat} (hd : (a.data f).isSome = true) :
    f ∈ p.held := by
  rw [h.data] at hd
  unfold Machine.dataOf at hd
  split at hd
  · next hin => exact hin
  · cases hd

/-- A page of the program is at a frame that it holds. -/
theorem Refines.mem_held (h : Refines P p a) {k f : Nat} (hf : a.frame k = some f) :
    f ∈ p.held := h.mem_held_of_data (a.held k f hf)

/-- A page at no frame is not cached. -/
theorem Refines.uncached (h : Refines P p a) (hv : 0x200 ≤ pageOf vaddr)
    (hnone : a.frame (pageOf vaddr) = none) : p.machine.tlb (pageOf vaddr) = none := by
  rw [h.frame_eq hv, Option.map_eq_none_iff, h.lookup] at hnone
  refine Option.eq_none_iff_forall_ne_some.mpr fun c hc => ?_
  cases (h.coherent _ c hc).symm.trans hnone

theorem Refines.data_of_mem (h : Refines P p a) {f : Nat} (hf : f ∈ p.held) :
    a.data f = some fun o : Fin 4096 => p.machine.mem (f + o) := by
  rw [h.data]
  exact Machine.dataOf_of_mem hf

theorem Refines.data_eq_none (h : Refines P p a) {f : Nat} (hf : f ∉ p.held) :
    a.data f = none := by
  rw [h.data]
  exact if_neg hf

/-- What the program reads is what its address holds. -/
theorem Refines.read (h : Refines P p a) (hv : 0x200 ≤ pageOf vaddr) :
    p.machine.read vaddr = a.load (pageOf vaddr) (offset vaddr) := by
  have hframe := h.frame_eq hv
  unfold Machine.read
  cases hc : p.machine.lookup vaddr with
  | none =>
    rw [hc] at hframe
    unfold PagedSpace.load
    rw [hframe]
    rfl
  | some c =>
    rw [hc, Option.map_some] at hframe
    rw [PagedSpace.load_eq hframe (h.data_of_mem (h.mem_held hframe))]
    rfl

/-- A store of the program. -/
theorem Refines.store (h : Refines P p a) (hv : 0x200 ≤ pageOf vaddr) {c : Cached}
    (hc : p.machine.lookup vaddr = some c) (byte : BitVec 8) :
    ∃ a', Next a (.store vaddr byte) a' ∧
      Refines P { p with machine := p.machine.access vaddr (some byte) false c } a' := by
  have hframe := h.frame_eq hv
  rw [hc, Option.map_some] at hframe
  have hin := h.mem_held hframe
  have hdata := h.data_of_mem hin
  obtain ⟨role, htables⟩ := h.tables
  have hfmod := (htables.held _ hin).1.aligned
  have hupdate : ∀ x, (∀ q ∈ p.held, ¬ InPage q x) →
      Function.update p.machine.mem (c.frame * 4096 + vaddr.toNat % 4096) byte x =
        p.machine.mem x :=
    fun x hx => Function.update_of_ne (fun heq => hx _ hin (by unfold InPage; omega)) _ _
  obtain ⟨htables', hsame⟩ := htables.of_held hupdate
  refine ⟨_, .store hframe hdata, ⟨role, htables'⟩, ?_, ?_, ?_⟩
  · rw [show (p.machine.access vaddr (some byte) false c).walk = p.machine.walk from hsame.walk]
    exact h.coherent
  · rw [show (p.machine.access vaddr (some byte) false c).frameOf = p.machine.frameOf from
      Machine.frameOf_congr hsame.walk]
    exact h.frame
  · funext g
    unfold PagedSpace.store PagedSpace.hold
    dsimp only
    by_cases hg : g = c.frame * 4096
    · subst hg
      rw [Function.update_self, Machine.dataOf_of_mem hin]
      refine congrArg some (funext fun o => ?_)
      by_cases ho : o = offset vaddr
      · rw [ho, Function.update_self]
        exact (Function.update_self (f := p.machine.mem) ..).symm
      · have hne : c.frame * 4096 + o.val ≠ c.frame * 4096 + vaddr.toNat % 4096 := fun heq =>
          ho (Fin.ext (Nat.add_left_cancel heq))
        rw [Function.update_of_ne ho]
        exact (Function.update_of_ne hne ..).symm
    · rw [Function.update_of_ne hg, h.data]
      unfold Machine.dataOf
      refine ite_congr rfl (fun hgin => congrArg some (funext fun o => ?_)) fun _ => rfl
      have hlt := o.isLt
      have hgmod := (htables.held g hgin).1.aligned
      exact (Function.update_of_ne (by omega) _ _).symm

/-- The cache alone. -/
theorem Refines.setTlb (h : Refines P p a) {tlb : Cache Nat Cached}
    (hco : Agrees tlb p.machine.walk) :
    Refines P { p with machine := { p.machine with tlb } } a := by
  obtain ⟨role, htables⟩ := h.tables
  exact ⟨⟨role, htables.setTlb tlb⟩, hco, h.frame, h.data⟩

/-- The program gets a frame. -/
theorem Refines.allocPage (h : Refines P p a) {page : Word}
    (hstep : p.step P.base (.allocPage page) = some p') :
    ∃ a', Next a (.allocPage page) a' ∧ Refines P p' a' := by
  obtain ⟨role, htables⟩ := h.tables
  unfold Program.step at hstep
  dsimp only at hstep
  rcases htables.alloc_cases with ⟨bitset, q, halloc, hpage, hout, htables'⟩ | hnone
  · rw [halloc] at hstep
    dsimp only at hstep
    split at hstep
    · next heq =>
      subst heq
      have hqnat := hpage.toNat_ofNat
      rw [if_neg hpage.ofNat_ne_zero, hqnat] at hstep
      obtain rfl := Option.some.inj hstep
      have hdata := h.data_eq_none hout
      rw [← hqnat] at hdata
      refine ⟨_, .allocPage (d := fun o => p.machine.mem (q + o)) hdata, ⟨role, htables'⟩,
        h.coherent, h.frame, ?_⟩
      unfold PagedSpace.hold
      dsimp only
      rw [hqnat, h.data]
      funext g
      unfold Machine.dataOf
      by_cases hg : g = q
      · rw [hg, Function.update_self, if_pos List.mem_cons_self]
      · rw [Function.update_of_ne hg]
        exact if_congr (by simp [hg]) rfl rfl
    · cases hstep
  · rw [hnone] at hstep
    dsimp only at hstep
    split at hstep
    · next heq =>
      subst heq
      rw [if_pos rfl] at hstep
      obtain rfl := Option.some.inj hstep
      exact ⟨a, .allocNone, h⟩
    · cases hstep

/-- The data without a frame. -/
theorem dataOf_filter {s s' : Machine} {held : List Nat} {f : Nat} (hmem : s'.mem = s.mem) :
    s'.dataOf (held.filter (· ≠ f)) = Function.update (s.dataOf held) f none := by
  funext g
  unfold Machine.dataOf
  rw [hmem]
  by_cases hg : g = f
  · rw [hg, Function.update_self]
    exact if_neg (by simp)
  · rw [Function.update_of_ne hg]
    exact if_congr (by simp [hg]) rfl rfl

/-- The program gives back a frame where no page is. -/
theorem Refines.drop (h : Refines P p a) {f : Nat} (hf : f ∈ p.held)
    (hnone : ∀ k, a.frame k ≠ some f) :
    ∃ bitset, freePage P.base p.machine.bitset (BitVec.ofNat 64 f) = .ok bitset ∧
      Refines P ⟨{ p.machine with bitset }, p.held.filter (· ≠ f)⟩ (a.drop f hnone) := by
  obtain ⟨role, htables⟩ := h.tables
  obtain ⟨bitset, hfree, htables'⟩ := htables.freePage hf
  refine ⟨bitset, hfree, ⟨role, htables'⟩, h.coherent, h.frame, ?_⟩
  unfold PagedSpace.drop
  dsimp only
  rw [h.data]
  exact (dataOf_filter rfl).symm

theorem Refines.freePage (h : Refines P p a) {page : Word} (hf : page.toNat ∈ p.held)
    (hnone : p.machine.FrameUnmapped page.toNat)
    (hstep : p.step P.base (.freePage page) = some p') :
    ∃ a', Next a (.freePage page) a' ∧ Refines P p' a' := by
  obtain ⟨role, htables⟩ := h.tables
  have hunmapped : ∀ k, a.frame k ≠ some page.toNat := fun k =>
    h.frame ▸ htables.frameOf_ne hnone k
  obtain ⟨bitset, hfree, hdrop⟩ := h.drop hf hunmapped
  rw [BitVec.ofNat_toNat, BitVec.setWidth_eq] at hfree
  unfold Program.step at hstep
  dsimp only at hstep
  rw [hfree] at hstep
  obtain rfl := Option.some.inj hstep
  exact ⟨_, .freePage (by rw [h.data_of_mem hf]; rfl) hunmapped, hdrop⟩

/-- The program maps a frame. -/
theorem Refines.mapPage (h : Refines P p a) {page : Word} (hv : 0x200 ≤ pageOf vaddr)
    (hd : (a.data page.toNat).isSome = true) (htlb : p.machine.tlb (pageOf vaddr) = none)
    (hclean : Machine.CleanTables P.base vaddr 3 p.machine (p.machine.cr3 &&& PTE_ADDR)) :
    Refines P { p with machine := p.machine.mapPage P.base vaddr page }
      (a.map (pageOf vaddr) page.toNat hd) := by
  obtain ⟨role, htables⟩ := h.tables
  have hpage := (htables.held _ (h.mem_held_of_data hd)).1
  have hmod := hpage.aligned
  obtain ⟨htables', hdata, hwalk⟩ :=
    htables.mapPage ((Machine.not_lowAddress_iff vaddr).mpr hv) hpage hclean
  rw [BitVec.ofNat_toNat, BitVec.setWidth_eq] at htables' hdata hwalk
  refine ⟨htables', ?_, ?_, ?_⟩
  · dsimp only
    rw [hwalk, Machine.mapPage_tlb]
    exact h.coherent.move htlb _
  · dsimp only
    rw [Machine.frameOf_update hv hwalk, ← h.frame]
    show Function.update a.frame (pageOf vaddr) (some page.toNat) = _
    rw [Option.map_some, show page.toNat / 4096 * 4096 = page.toNat by omega]
  · dsimp only
    rw [hdata.dataOf]
    exact h.data

/-- The program unmaps a page. -/
theorem Refines.unmapPage (h : Refines P p a) (hv : 0x200 ≤ pageOf vaddr)
    (hflush : p.machine.Flushes vaddr operand) :
    (p.machine.unmapPage vaddr operand).2 =
        BitVec.ofNat 64 ((a.frame (pageOf vaddr)).getD 0) ∧
      Refines P { p with machine := (p.machine.unmapPage vaddr operand).1 }
        (a.unmap (pageOf vaddr)) := by
  obtain ⟨role, htables⟩ := h.tables
  have hlow := (Machine.not_lowAddress_iff vaddr).mpr hv
  obtain ⟨htables', hdata, hwalk, hret⟩ := htables.unmapPage operand hlow
  refine ⟨h.frame ▸ hret, htables', htables.coherent_unmapPage hlow h.coherent hflush, ?_, ?_⟩
  · dsimp only
    rw [Machine.frameOf_update hv hwalk, ← h.frame]
    rfl
  · dsimp only
    rw [hdata.dataOf]
    exact h.data

/-- The program gets a page of zeros. -/
theorem Refines.mmap (h : Refines P p a) (hv : 0x200 ≤ pageOf vaddr)
    (htlb : p.machine.tlb (pageOf vaddr) = none) (hfits : p.MmapFits P.base vaddr) :
    ∃ f, a.data f = none ∧
      Refines P ⟨p.machine.mmap P.base vaddr, (p.machine.alloc P.base).2.toNat :: p.held⟩
        (a.place (pageOf vaddr) f fun _ => 0) := by
  obtain ⟨role, htables⟩ := h.tables
  obtain ⟨q, hq, hout, hpage, htables', hwalk, hdata⟩ :=
    htables.mmap ((Machine.not_lowAddress_iff vaddr).mpr hv) hfits
  have hmod := hpage.aligned
  refine ⟨q, h.data_eq_none hout, ?_⟩
  rw [hq]
  refine ⟨htables', ?_, ?_, ?_⟩
  · dsimp only
    rw [hwalk, Machine.mmap_tlb]
    exact h.coherent.move htlb _
  · dsimp only
    rw [Machine.frameOf_update hv hwalk, ← h.frame]
    show Function.update a.frame (pageOf vaddr) (some q) = _
    rw [Option.map_some, show q / 4096 * 4096 = q by omega]
  · dsimp only
    rw [hdata, ← h.data]
    rfl

theorem pageOf_and_mask (vaddr : Word) : pageOf (vaddr &&& PAGE_MASK) = pageOf vaddr := by
  have hmask : (vaddr &&& PAGE_MASK).toNat = vaddr.toNat / 2 ^ 12 * 2 ^ 12 :=
    Bitset.toNat_and_mask (by decide)
  unfold pageOf
  omega

/-- A page fault of the program. -/
theorem Refines.fault (h : Refines P p a) (hfits : p.MmapFits P.base (vaddr &&& PAGE_MASK))
    (hstep : p.step P.base (.fault vaddr) = some p') :
    ∃ a', Next a (.fault vaddr) a' ∧ Refines P p' a' := by
  unfold Program.step at hstep
  dsimp only at hstep
  split at hstep
  swap
  · cases hstep
  next hnone =>
  obtain ⟨machine, hmachine, rfl⟩ := Option.map_eq_some_iff.mp hstep
  unfold Machine.pgfault at hmachine
  split at hmachine
  · cases hmachine
  next harea =>
  obtain rfl := Option.some.inj hmachine
  rw [not_or, BitVec.not_lt, BitVec.not_le] at harea
  have hlo : 0x100000000 ≤ vaddr.toNat := harea.1
  have hhi : vaddr.toNat < 0x700000000000 := harea.2
  have hv : 0x200 ≤ pageOf vaddr := by
    unfold pageOf
    omega
  have hframe := h.frame_eq hv
  rw [hnone] at hframe
  have htlb := h.uncached hv hframe
  rw [← pageOf_and_mask] at hv htlb
  obtain ⟨f, hf, hrefines⟩ := h.mmap hv htlb hfits
  rw [pageOf_and_mask] at hrefines
  exact ⟨_, .fault hlo hhi hframe hf, hrefines⟩

/-- The program unmaps a page and gives back its frame. -/
theorem Refines.munmap (h : Refines P p a) (hv : 0x200 ≤ pageOf vaddr)
    (hflush : p.machine.Flushes vaddr operand)
    (hlast : (p.machine.unmapPage vaddr operand).1.FrameUnmapped
      (p.machine.unmapPage vaddr operand).2.toNat)
    (hstep : p.step P.base (.munmap vaddr operand) = some p') :
    ∃ a', Next a (.munmap vaddr operand) a' ∧ Refines P p' a' := by
  obtain ⟨role, htables⟩ := h.tables
  obtain ⟨hret, hrefines⟩ := h.unmapPage hv hflush
  unfold Program.step Machine.munmap at hstep
  dsimp only at hstep
  rw [hret] at hstep hlast
  cases hf : a.frame (pageOf vaddr) with
  | none =>
    rw [hf, Option.getD_none, if_pos (show BitVec.ofNat 64 0 = 0 from rfl)] at hstep
    obtain rfl := Option.some.inj hstep
    have hfilter : p.held.filter (· ≠ (BitVec.ofNat 64 0).toNat) = p.held := by
      refine List.filter_eq_self.mpr fun q hq => decide_eq_true fun hzero => ?_
      have hlt := (htables.held q hq).1.lt
      have hq0 : q = 0 := hzero
      omega
    rw [hfilter]
    rw [PagedSpace.unmap_of_none hf] at hrefines
    exact ⟨a, .munmapNone hf, hrefines⟩
  | some f =>
    have hin := h.mem_held hf
    have hpage := (htables.held f hin).1
    rw [hf, Option.getD_some] at hstep hlast
    rw [hpage.toNat_ofNat] at hstep hlast
    rw [if_neg hpage.ofNat_ne_zero] at hstep
    obtain ⟨role', htables'⟩ := hrefines.tables
    have hunmapped : ∀ k, (a.unmap (pageOf vaddr)).frame k ≠ some f := fun k =>
      hrefines.frame ▸ htables'.frameOf_ne hlast k
    obtain ⟨bitset, hfree, hdrop⟩ := hrefines.drop hin hunmapped
    dsimp only at hfree
    rw [hfree] at hstep
    obtain rfl := Option.some.inj hstep
    exact ⟨_, .munmap hf hunmapped, hdrop⟩

/-- One event. -/
theorem refines_step {e : ProgramEvent} (h : Refines P p a) (hfits : p.EventFits P.base e)
    (hstep : p.step P.base e = some p') : ∃ a', Next a e a' ∧ Refines P p' a' := by
  cases e with
  | load vaddr byte =>
    unfold Program.step at hstep
    dsimp only at hstep
    split at hstep
    · next hread =>
      obtain rfl := Option.some.inj hstep
      exact ⟨a, .load ((h.read hfits).symm.trans hread), h⟩
    · cases hstep
  | store vaddr byte =>
    obtain ⟨c, hc, rfl⟩ := Option.map_eq_some_iff.mp hstep
    exact h.store hfits hc byte
  | fault vaddr => exact h.fault hfits hstep
  | cache vaddr =>
    obtain ⟨c, hc, rfl⟩ := Option.map_eq_some_iff.mp hstep
    exact ⟨a, .cache, h.setTlb (h.coherent.fill ((h.lookup vaddr).symm.trans hc))⟩
  | evict page =>
    obtain rfl := Option.some.inj hstep
    exact ⟨a, .evict, h.setTlb (h.coherent.evict page)⟩
  | allocPage page => exact h.allocPage hstep
  | freePage page => exact h.freePage hfits.1 hfits.2 hstep
  | mapPage vaddr page =>
    obtain rfl := Option.some.inj hstep
    rcases hfits with ⟨hv, hf, htlb, hclean⟩
    have hd : (a.data page.toNat).isSome = true := by
      rw [h.data_of_mem hf]
      rfl
    exact ⟨_, .mapPage hd, h.mapPage hv hd htlb hclean⟩
  | unmapPage vaddr operand page =>
    obtain ⟨hret, hrefines⟩ := h.unmapPage hfits.1 hfits.2
    unfold Program.step at hstep
    dsimp only at hstep
    split at hstep
    · next hpage =>
      obtain rfl := Option.some.inj hstep
      exact ⟨_, .unmapPage (hpage.symm.trans hret), hrefines⟩
    · cases hstep
  | mmap vaddr =>
    obtain rfl := Option.some.inj hstep
    obtain ⟨f, hf, hrefines⟩ := h.mmap hfits.1 hfits.2.1 hfits.2.2
    exact ⟨_, .mmap hf, hrefines⟩
  | munmap vaddr operand => exact h.munmap hfits.1 hfits.2.1 hfits.2.2 hstep

end

end KernelMemVirt.Janus.Guest
