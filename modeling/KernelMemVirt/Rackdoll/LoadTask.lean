import KernelMemVirt.Rackdoll.KernelRange
import KernelMemVirt.Rackdoll.UsedPages

/-!
# The address space of a new task

`load_task` maps an image page by page.  Its tables are new and zero, so the first call of
`map_page` for a page finds no last entry, and takes the 0 that is there as the address of a
page to clear.

* `linkTablesLog`, `payloadLog`, `bssLog` and `loadTaskLog` are the actions of `load_task`, and
  `loadTask_replay` relates them to its memory.
* `KernelTables` is what the four first tables hold.  A call of `map_page` writes to page 0, or
  is for the page of the APIC and replaces its entry: `KernelTables.mapPage_cases`.
* `loadTask_iff` says when `load_task` is right: when the image has no page.
-/

namespace KernelMemVirt.Rackdoll

open ByteMem OwnerTree ActionLog

/-! ## Actions -/

/-- The actions of the first part of `load_task`. -/
def linkTablesLog (pool : Nat) (s : Phys) : List Action :=
  let (s, pml4) := s.alloc pool
  let (s, pml3) := s.alloc pool
  let (s, pml2) := s.alloc pool
  let pml1 := (s.alloc pool).2
  [.alloc pml4, .alloc pml3, .alloc pml2, .alloc pml1,
    .word pml4.toNat (pml3 ||| 0x7),
    .word pml3.toNat (pml2 ||| 0x7),
    .word pml2.toNat KERNEL_PAGE,
    .word (pml2.toNat + 8) (pml1 ||| 0x1b),
    .word pml1.toNat (0xfee00000 ||| 0x11b)]

/-- The actions of the loop over the code and data. -/
def payloadLog (pool : Nat) (task : Task) : Nat → Word → Phys → List Action
  | 0, _, _ => []
  | turns + 1, i, s =>
    if i < payloadSize task then
      s.mapPageLog pool task.pgt (task.loadVaddr + i) (task.loadPaddr + i) ++
        payloadLog pool task turns (i + 0x1000)
          (s.mapPage pool task.pgt (task.loadVaddr + i) (task.loadPaddr + i))
    else []

/-- The actions of the loop over the bss. -/
def bssLog (pool : Nat) (task : Task) : Nat → Word → Phys → List Action
  | 0, _, _ => []
  | turns + 1, i, s =>
    if i < bssSize task then
      let (s, page) := s.alloc pool
      .alloc page :: (s.mapPageLog pool task.pgt (bssStartVaddr task + i) (page + i) ++
        bssLog pool task turns (i + 0x1000)
          (s.mapPage pool task.pgt (bssStartVaddr task + i) (page + i)))
    else []

/-- The actions of `load_task`. -/
def loadTaskLog (pool : Nat) (s : Phys) (task : Task) : List Action :=
  let (s₁, task₁) := linkTables pool s task
  let s₂ := payloadLoop pool task₁ (turns (payloadSize task₁)) 0 s₁
  linkTablesLog pool s ++ (payloadLog pool task₁ (turns (payloadSize task₁)) 0 s₁ ++
    bssLog pool task₁ (turns (bssSize task₁)) 0 s₂)

theorem linkTables_replay (pool : Nat) (s : Phys) (task : Task) :
    (linkTables pool s task).1.mem = replay s.mem (linkTablesLog pool s) := rfl

theorem payloadLoop_replay (pool : Nat) (task : Task) : ∀ (turns : Nat) (i : Word) (s : Phys),
    (payloadLoop pool task turns i s).mem = replay s.mem (payloadLog pool task turns i s) := by
  intro turns
  induction turns with
  | zero => exact fun _ _ => rfl
  | succ turns ih =>
    intro i s
    unfold payloadLoop payloadLog
    split
    · rw [replay_append, ← Phys.mapPage_replay]
      exact ih _ _
    · rfl

theorem bssLoop_replay (pool : Nat) (task : Task) : ∀ (turns : Nat) (i : Word) (s : Phys),
    (bssLoop pool task turns i s).mem = replay s.mem (bssLog pool task turns i s) := by
  intro turns
  induction turns with
  | zero => exact fun _ _ => rfl
  | succ turns ih =>
    intro i s
    unfold bssLoop bssLog
    split
    · dsimp only
      rw [ih, Phys.mapPage_replay, replay_cons, replay_append]
      rfl
    · rfl

/-- The memory after `load_task`. -/
theorem loadTask_replay (pool : Nat) (s : Phys) (task : Task) :
    (loadTask pool s task).1.mem = replay s.mem (loadTaskLog pool s task) := by
  unfold loadTask loadTaskLog
  dsimp only
  rw [replay_append, replay_append, ← linkTables_replay pool s task, ← payloadLoop_replay]
  exact bssLoop_replay _ _ _ _ _

/-! ## The four tables -/

/-- The translations of the kernel before `load_task`: the huge page and the page of the
APIC. -/
def kernelTranslation (v : Nat) : Translation where
  paddr := if v < 0x200000 then v else 0xfee00000 + v % 4096
  writable := true
  user := false
  executable := true
  leaf := if v < 0x200000 then KERNEL_PAGE else 0xfee0011b

/-- The flags of an entry that refers to a page. -/
theorem getLsbD_ofNat_or {q k : Nat} (f : Word) (hq : q % 4096 = 0) (hmax : q < 2 ^ 52)
    (hk : k < 12 ∨ 52 ≤ k) : (BitVec.ofNat 64 q ||| f).getLsbD k = f.getLsbD k := by
  have hclear : q.testBit k = false := by
    rcases hk with hlow | hhigh
    · rw [show q = 2 ^ 12 * (q / 4096) by omega, Nat.testBit_two_pow_mul,
        decide_eq_false (by omega), Bool.false_and]
    · exact Nat.testBit_lt_two_pow (hmax.trans_le (Nat.pow_le_pow_right (by omega) hhigh))
  rw [BitVec.getLsbD_or, BitVec.getLsbD_ofNat, hclear, Bool.and_false, Bool.false_or]

/-- An entry restricts a translation by its flags only. -/
theorem restrict_ofNat_or {q : Nat} (f : Word) (hq : q % 4096 = 0) (hmax : q < 2 ^ 52)
    (t : Translation) : restrict (BitVec.ofNat 64 q ||| f) t = restrict f t := by
  unfold restrict
  rw [getLsbD_ofNat_or f hq hmax (.inl (by omega)), getLsbD_ofNat_or f hq hmax (.inl (by omega)),
    getLsbD_ofNat_or f hq hmax (.inr (by omega))]

/-- The tables of a task without an image, but for the entry `e` of the page of the APIC. -/
structure KernelTables (P : PoolRegion) (s : Phys) (p4 p3 p2 p1 : Nat) (e : Word) : Prop where
  words : s.bitset.length = BITSET_SIZE
  zeroFree : ZeroFree P s
  page : ∀ p, p ∈ [p4, p3, p2, p1] → P.IsPage p ∧ P.allocated s.bitset p = true
  nodup : [p4, p3, p2, p1].Nodup
  pml4 : ∀ i, i < 512 → entry s.mem p4 i = if i = 0 then BitVec.ofNat 64 p3 ||| 0x7 else 0
  pml3 : ∀ i, i < 512 → entry s.mem p3 i = if i = 0 then BitVec.ofNat 64 p2 ||| 0x7 else 0
  pml2 : ∀ i, i < 512 → entry s.mem p2 i =
    if i = 0 then KERNEL_PAGE else if i = 1 then BitVec.ofNat 64 p1 ||| 0x1b else 0
  pml1 : ∀ i, i < 512 → entry s.mem p1 i = if i = 0 then e else 0
  present : present e = true

variable {P : PoolRegion} {s s' : Phys} {p4 p3 p2 p1 : Nat} {e v paddr : Word}

/-- An allocation that does not fail finds a free page. -/
theorem free_of_alloc_ne_zero (h : (s.alloc P.base).2 ≠ 0) : 0 < Bitset.free s.bitset := by
  by_contra hfull
  exact h (congrArg Prod.snd (alloc_of_full (by omega)))

/-- The four tables after the first part of `load_task`. -/
theorem kernelTables_linkTables (hwords : s.bitset.length = BITSET_SIZE) (hzero : ZeroFree P s)
    (hallocs : AllocsSucceed (linkTablesLog P.base s)) (image : Task) :
    ∃ s' p4 p3 p2 p1, linkTables P.base s image = (s', { image with pgt := BitVec.ofNat 64 p4 }) ∧
      KernelTables P s' p4 p3 p2 p1 0xfee0011b ∧
        linkTablesLog P.base s =
          [.alloc (BitVec.ofNat 64 p4), .alloc (BitVec.ofNat 64 p3), .alloc (BitVec.ofNat 64 p2),
            .alloc (BitVec.ofNat 64 p1), .word p4 (BitVec.ofNat 64 p3 ||| 0x7),
            .word p3 (BitVec.ofNat 64 p2 ||| 0x7), .word p2 KERNEL_PAGE,
            .word (p2 + 8) (BitVec.ofNat 64 p1 ||| 0x1b), .word p1 0xfee0011b] := by
  have hstart : Reserved P 3 s (fun _ => none) (fun _ => .free) [] :=
    ⟨Tables.empty hwords, hzero, fun _ h => absurd h List.not_mem_nil,
      fun _ h => absurd h List.not_mem_nil, fun _ h => absurd h List.not_mem_nil,
      fun _ h => absurd h List.not_mem_nil, List.nodup_nil⟩
  unfold AllocsSucceed linkTablesLog at hallocs
  simp only [List.mem_cons, Action.alloc.injEq, not_or] at hallocs
  obtain ⟨hne4, hne3, hne2, hne1, -⟩ := hallocs
  obtain ⟨s₁, p4, halloc₁, hres₁, hmem₁, -⟩ := hstart.alloc (free_of_alloc_ne_zero (Ne.symm hne4))
  rw [halloc₁] at hne3 hne2 hne1
  obtain ⟨s₂, p3, halloc₂, hres₂, hmem₂, -⟩ := hres₁.alloc (free_of_alloc_ne_zero (Ne.symm hne3))
  rw [halloc₂] at hne2 hne1
  obtain ⟨s₃, p2, halloc₃, hres₃, hmem₃, -⟩ := hres₂.alloc (free_of_alloc_ne_zero (Ne.symm hne2))
  rw [halloc₃] at hne1
  obtain ⟨s₄, p1, halloc₄, hres₄, hmem₄, -⟩ := hres₃.alloc (free_of_alloc_ne_zero (Ne.symm hne1))
  have hres : Reserved P 3 s₄ (fun _ => none) (fun _ => .free) [p4, p3, p2, p1] := hres₄
  have hpage4 := hres.page p4 (by simp)
  have hpage3 := hres.page p3 (by simp)
  have hpage2 := hres.page p2 (by simp)
  have hpage1 := hres.page p1 (by simp)
  have hmod4 := hpage4.aligned
  have hmod3 := hpage3.aligned
  have hmod2 := hpage2.aligned
  have hmod1 := hpage1.aligned
  obtain ⟨h4, h3, h2⟩ : (p4 ≠ p3 ∧ p4 ≠ p2 ∧ p4 ≠ p1) ∧ (p3 ≠ p2 ∧ p3 ≠ p1) ∧ p2 ≠ p1 := by
    simpa using hres.nodup
  obtain ⟨mem, hmem⟩ : ∃ mem, mem =
      write64 (write64 (write64 (write64 (write64 s₄.mem (p4 + 8 * 0) (BitVec.ofNat 64 p3 ||| 0x7))
        (p3 + 8 * 0) (BitVec.ofNat 64 p2 ||| 0x7)) (p2 + 8 * 0) KERNEL_PAGE)
        (p2 + 8 * 1) (BitVec.ofNat 64 p1 ||| 0x1b)) (p1 + 8 * 0) 0xfee0011b := ⟨_, rfl⟩
  have hentry : ∀ {p i}, p % 4096 = 0 → i < 512 → entry mem p i =
      if p = p1 ∧ i = 0 then 0xfee0011b
      else if p = p2 ∧ i = 1 then BitVec.ofNat 64 p1 ||| 0x1b
      else if p = p2 ∧ i = 0 then KERNEL_PAGE
      else if p = p3 ∧ i = 0 then BitVec.ofNat 64 p2 ||| 0x7
      else if p = p4 ∧ i = 0 then BitVec.ofNat 64 p3 ||| 0x7
      else entry s₄.mem p i := by
    intro p i hp hi
    rw [hmem, entry_write64 hmod1 hp (by omega) hi, entry_write64 hmod2 hp (by omega) hi,
      entry_write64 hmod2 hp (by omega) hi, entry_write64 hmod3 hp (by omega) hi,
      entry_write64 hmod4 hp (by omega) hi]
  have hempty : ∀ {p i}, p ∈ [p4, p3, p2, p1] → i < 512 → entry s₄.mem p i = 0 :=
    fun hp hi => entry_zero (hres.zero _ hp) hi
  refine ⟨{ s₄ with mem }, p4, p3, p2, p1, ?_, ⟨hres.tables.words, ?_, ?_, hres.nodup, ?_, ?_, ?_,
    ?_, rfl⟩, ?_⟩
  · unfold linkTables
    rw [halloc₁]
    dsimp only
    rw [halloc₂]
    dsimp only
    rw [halloc₃]
    dsimp only
    rw [halloc₄]
    dsimp only
    rw [hpage4.toNat_ofNat, hpage3.toNat_ofNat, hpage2.toNat_ofNat, hpage1.toNat_ofNat, hmem]
    rfl
  · have hin := fun {p : Nat} (hp : p ∈ [p4, p3, p2, p1]) => hres.allocated p hp
    rw [hmem]
    exact ((((hres.zeroFree.write hpage4 (hin (by simp)) (by omega)).write hpage3
      (hin (by simp)) (by omega)).write hpage2 (hin (by simp)) (by omega)).write hpage2
      (hin (by simp)) (by omega)).write hpage1 (hin (by simp)) (by omega)
  · exact fun p hp => ⟨hres.page p hp, hres.allocated p hp⟩
  · intro i hi
    rw [hentry hmod4 hi, hempty (by simp) hi]
    simp [h4]
  · intro i hi
    rw [hentry hmod3 hi, hempty (by simp) hi]
    simp [h3, Ne.symm h4.1]
  · intro i hi
    rw [hentry hmod2 hi, hempty (by simp) hi]
    by_cases h0 : i = 0
    · subst h0
      simp [h2]
    · simp [h2, h0]
  · intro i hi
    rw [hentry hmod1 hi, hempty (by simp) hi]
    simp [Ne.symm h2, Ne.symm h3.2, Ne.symm h4.2.2]
  · unfold linkTablesLog
    rw [halloc₁]
    dsimp only
    rw [halloc₂]
    dsimp only
    rw [halloc₃]
    dsimp only
    rw [halloc₄]
    dsimp only
    rw [hpage4.toNat_ofNat, hpage3.toNat_ofNat, hpage2.toNat_ofNat, hpage1.toNat_ofNat]
    rfl

/-! ## `map_page` on the four tables -/

/-- Something is stored to page 0. -/
def LowWrite (log : List Action) : Prop := ∃ act ∈ log, ∃ a, a < 4096 ∧ act.Covers a

theorem LowWrite.append_left {log : List Action} (h : LowWrite log) (log' : List Action) :
    LowWrite (log ++ log') := by
  rcases h with ⟨act, hact, hcovers⟩
  exact ⟨act, List.mem_append_left _ hact, hcovers⟩

theorem LowWrite.append_right {log : List Action} (h : LowWrite log) (log' : List Action) :
    LowWrite (log' ++ log) := by
  rcases h with ⟨act, hact, hcovers⟩
  exact ⟨act, List.mem_append_right _ hact, hcovers⟩

/-- An allocation that does not fail takes a page. -/
theorem takes_of_alloc_ne_zero (hwords : s.bitset.length = BITSET_SIZE)
    (h : (s.alloc P.base).2 ≠ 0) :
    ∃ bitset q, s.alloc P.base = ({ s with bitset }, BitVec.ofNat 64 q) ∧
      P.Takes s.bitset bitset q := by
  unfold Phys.alloc at h ⊢
  rcases P.alloc_cases hwords with ⟨bitset, q, halloc, htake⟩ | ⟨-, halloc⟩
  · rw [halloc]
    exact ⟨bitset, q, rfl, htake⟩
  · rw [halloc] at h
    exact absurd rfl h

/-- Below an empty entry `map_page` builds tables of zero pages. -/
theorem descend_of_empty (v : Word) : ∀ {n d p : Nat} {s : Phys}, d + n = 3 →
    s.bitset.length = BITSET_SIZE → ZeroFree P s → P.IsPage p → P.allocated s.bitset p = true →
    entry s.mem p (pathIndex v.toNat d) = 0 →
    AllocsSucceed (Phys.descendLog P.base v n s (BitVec.ofNat 64 p)) →
    ∃ s' q, Phys.descend P.base v n s (BitVec.ofNat 64 p) = (s', BitVec.ofNat 64 q) ∧
      P.IsPage q ∧ entry s'.mem q (pathIndex v.toNat 3) = 0 := by
  intro n
  induction n with
  | zero =>
    intro d p s hd _ _ hp _ hempty _
    obtain rfl : d = 3 := hd
    exact ⟨s, p, rfl, hp, hempty⟩
  | succ n ih =>
    intro d p s hd hwords hzero hp hbit hempty hallocs
    have hplt := hp.lt
    have hlt := pathIndex_lt v.toNat
    obtain ⟨henter, henterLog⟩ := Phys.enterTable_of_missing P.base v
      (show d + (n + 2) = 4 by omega) (by omega) (show p < 2 ^ 52 by omega)
      (show present (entry s.mem p (pathIndex v.toNat d)) = false by rw [hempty]; rfl)
    unfold Phys.descendLog at hallocs
    dsimp only at hallocs
    rw [henterLog, allocsSucceed_append, allocsSucceed_alloc_cons] at hallocs
    rcases hallocs with ⟨⟨hne, -⟩, hallocs⟩
    obtain ⟨bitset, q, halloc, htake⟩ := takes_of_alloc_ne_zero hwords hne
    have hqlt := htake.page.lt
    have hqmod := htake.page.aligned
    have hlinks : Links (BitVec.ofNat 64 q ||| 0x7) q :=
      links_or hqmod (by omega) (show 7 < 2048 by omega) (by decide) (by decide)
    rw [halloc] at henter
    dsimp only at henter
    rw [hlinks.addr] at henter
    rw [henter] at hallocs
    have hpq : q ≠ p := by
      intro heq
      subst heq
      cases htake.unallocated.symm.trans hbit
    have hnew : entry (write64 s.mem (p + 8 * pathIndex v.toNat d) (BitVec.ofNat 64 q ||| 0x7)) q
        (pathIndex v.toNat (d + 1)) = 0 := by
      rw [entry_write64 hp.aligned hqmod (hlt d) (hlt (d + 1)), if_neg fun h => hpq h.1]
      exact entry_zero (hzero q htake.page htake.unallocated) (hlt (d + 1))
    have hold := htake.allocated hp (.inr hbit)
    have hzero' := (htake.zeroFree hzero).write (e := BitVec.ofNat 64 q ||| 0x7) hp hold (hlt d)
    unfold Phys.descend
    rw [henter]
    exact ih (by omega) htake.words hzero' htake.page (htake.allocated htake.page (.inl rfl)) hnew
      hallocs

/-- The end of `map_page` at an empty last entry: the entry is the address to clear. -/
theorem lowWrite_of_empty {pgt : Word} {q : Nat} (paddr : Word)
    (hdescend : Phys.descend P.base v 3 s pgt = (s', BitVec.ofNat 64 q)) (hq : P.IsPage q)
    (hempty : entry s'.mem q (pathIndex v.toNat 3) = 0) :
    LowWrite (s.mapPageLog P.base pgt v paddr) := by
  have hqlt := hq.lt
  obtain ⟨-, hlog⟩ := Phys.mapPage_of_descend paddr (show q < 2 ^ 52 by omega) hdescend
  rw [hempty, if_pos (by decide)] at hlog
  refine ⟨.fill 0 0 PAGE_SIZE, ?_, 0, by omega, Nat.le_refl 0, by decide⟩
  rw [hlog]
  exact List.mem_append_right _ List.mem_cons_self

/-- `map_page` makes a page of the user. -/
theorem user_or_seven (paddr : Word) : (paddr ||| 0x7).getLsbD 2 = true := by
  rw [BitVec.getLsbD_or, show (0x7 : Word).getLsbD 2 = true from rfl, Bool.or_true]

/-- The page of the APIC by its indices. -/
theorem pageNumber_apic {v : Nat} : pageNumber v = 0x200 ↔
    pathIndex v 0 = 0 ∧ pathIndex v 1 = 0 ∧ pathIndex v 2 = 1 ∧ pathIndex v 3 = 0 := by
  rw [show (0x200 : Nat) = pageNumber 0x200000 by decide, pageNumber_eq_iff]
  constructor
  · intro hall
    exact ⟨hall 0 (by omega), hall 1 (by omega), hall 2 (by omega), hall 3 (by omega)⟩
  · rintro ⟨h0, h1, h2, h3⟩ k hk
    obtain rfl | rfl | rfl | rfl : k = 0 ∨ k = 1 ∨ k = 2 ∨ k = 3 := by omega
    · exact h0
    · exact h1
    · exact h2
    · exact h3

namespace KernelTables

/-- The pages of the tables stay allocated. -/
theorem alloc (h : KernelTables P s p4 p3 p2 p1 e) (hne : (s.alloc P.base).2 ≠ 0) :
    KernelTables P (s.alloc P.base).1 p4 p3 p2 p1 e := by
  obtain ⟨bitset, q, halloc, htake⟩ := takes_of_alloc_ne_zero h.words hne
  rw [halloc]
  exact ⟨htake.words, htake.zeroFree h.zeroFree,
    fun p hp => ⟨(h.page p hp).1, htake.allocated (h.page p hp).1 (.inr (h.page p hp).2)⟩,
    h.nodup, h.pml4, h.pml3, h.pml2, h.pml1, h.present⟩

/-- The entry of the page of the APIC changes. -/
theorem setApic (h : KernelTables P s p4 p3 p2 p1 e) {e' : Word}
    (hpresent : Rackdoll.present e' = true) :
    KernelTables P { s with mem := write64 s.mem p1 e' } p4 p3 p2 p1 e' := by
  obtain ⟨hpage4, hbit4⟩ := h.page p4 (by simp)
  obtain ⟨hpage3, hbit3⟩ := h.page p3 (by simp)
  obtain ⟨hpage2, hbit2⟩ := h.page p2 (by simp)
  obtain ⟨hpage1, hbit1⟩ := h.page p1 (by simp)
  obtain ⟨h4, h3, h2⟩ : (p4 ≠ p3 ∧ p4 ≠ p2 ∧ p4 ≠ p1) ∧ (p3 ≠ p2 ∧ p3 ≠ p1) ∧ p2 ≠ p1 := by
    simpa using h.nodup
  have hentry : ∀ {p i}, p % 4096 = 0 → i < 512 →
      entry (write64 s.mem p1 e') p i = if p = p1 ∧ i = 0 then e' else entry s.mem p i :=
    fun hp hi => entry_write64 (i := 0) hpage1.aligned hp (by omega) hi
  refine ⟨h.words, h.zeroFree.write (i := 0) hpage1 hbit1 (by omega), h.page, h.nodup, ?_, ?_, ?_,
    ?_, hpresent⟩
  · intro i hi
    rw [hentry hpage4.aligned hi, if_neg fun heq => h4.2.2 heq.1, h.pml4 i hi]
  · intro i hi
    rw [hentry hpage3.aligned hi, if_neg fun heq => h3.2 heq.1, h.pml3 i hi]
  · intro i hi
    rw [hentry hpage2.aligned hi, if_neg fun heq => h2 heq.1, h.pml2 i hi]
  · intro i hi
    rw [hentry hpage1.aligned hi, h.pml1 i hi]
    simp only [true_and]
    split
    · rfl
    · rfl

/-- A call of `map_page` writes to page 0, or replaces the page of the APIC. -/
theorem mapPage_cases (h : KernelTables P s p4 p3 p2 p1 e)
    (hallocs : AllocsSucceed (s.mapPageLog P.base (BitVec.ofNat 64 p4) v paddr)) :
    LowWrite (s.mapPageLog P.base (BitVec.ofNat 64 p4) v paddr) ∨
      pageNumber v.toNat = 0x200 ∧
        KernelTables P (s.mapPage P.base (BitVec.ofNat 64 p4) v paddr) p4 p3 p2 p1
          (paddr ||| 0x7) := by
  obtain ⟨hpage4, hbit4⟩ := h.page p4 (by simp)
  obtain ⟨hpage3, hbit3⟩ := h.page p3 (by simp)
  obtain ⟨hpage2, hbit2⟩ := h.page p2 (by simp)
  obtain ⟨hpage1, hbit1⟩ := h.page p1 (by simp)
  have hlt4 := hpage4.lt
  have hlt3 := hpage3.lt
  have hlt2 := hpage2.lt
  have hlt1 := hpage1.lt
  have hlt := pathIndex_lt v.toNat
  have hdescents : AllocsSucceed (Phys.descendLog P.base v 3 s (BitVec.ofNat 64 p4)) :=
    (allocsSucceed_append.mp hallocs).1
  have hmissing : ∀ {d n p}, d + n = 3 → P.IsPage p → P.allocated s.bitset p = true →
      Phys.descend P.base v 3 s (BitVec.ofNat 64 p4) =
        Phys.descend P.base v n s (BitVec.ofNat 64 p) →
      Phys.descendLog P.base v 3 s (BitVec.ofNat 64 p4) =
        Phys.descendLog P.base v n s (BitVec.ofNat 64 p) →
      entry s.mem p (pathIndex v.toNat d) = 0 →
        LowWrite (s.mapPageLog P.base (BitVec.ofNat 64 p4) v paddr) := by
    intro d n p hd hp hbit hway hwayLog hempty
    rw [hwayLog] at hdescents
    obtain ⟨s', q, hdescend, hq, hlast⟩ :=
      descend_of_empty v hd h.words h.zeroFree hp hbit hempty hdescents
    exact lowWrite_of_empty paddr (hway.trans hdescend) hq hlast
  by_cases h0 : pathIndex v.toNat 0 = 0
  swap
  · exact .inl
      (hmissing (Nat.zero_add 3) hpage4 hbit4 rfl rfl (by rw [h.pml4 _ (hlt 0), if_neg h0]))
  have hlink3 : Links (BitVec.ofNat 64 p3 ||| 0x7) p3 :=
    links_or hpage3.aligned (by omega) (show 7 < 2048 by omega) (by decide) (by decide)
  have hentry4 := h.pml4 _ (hlt 0)
  rw [if_pos h0] at hentry4
  obtain ⟨hway3, hwayLog3⟩ := Phys.descend_of_present P.base v (show 0 + (2 + 2) = 4 from rfl)
    (show p4 < 2 ^ 52 by omega) (hentry4 ▸ hlink3.present) (hentry4 ▸ hlink3.addr)
  by_cases h1 : pathIndex v.toNat 1 = 0
  swap
  · exact .inl (hmissing (show 1 + 2 = 3 from rfl) hpage3 hbit3 hway3 hwayLog3
      (by rw [h.pml3 _ (hlt 1), if_neg h1]))
  have hlink2 : Links (BitVec.ofNat 64 p2 ||| 0x7) p2 :=
    links_or hpage2.aligned (by omega) (show 7 < 2048 by omega) (by decide) (by decide)
  have hentry3 := h.pml3 _ (hlt 1)
  rw [if_pos h1] at hentry3
  obtain ⟨hway2, hwayLog2⟩ := Phys.descend_of_present P.base v (show 1 + (1 + 2) = 4 from rfl)
    (show p3 < 2 ^ 52 by omega) (hentry3 ▸ hlink2.present) (hentry3 ▸ hlink2.addr)
  have hentry2 := h.pml2 _ (hlt 2)
  by_cases h2 : pathIndex v.toNat 2 = 0
  · rw [if_pos h2] at hentry2
    have hpresent : Rackdoll.present (entry s.mem p2 (pathIndex v.toNat 2)) = true := by
      rw [hentry2]
      decide
    have haddr : entry s.mem p2 (pathIndex v.toNat 2) &&& ADDR_MASK = BitVec.ofNat 64 0 := by
      rw [hentry2]
      decide
    obtain ⟨hway1, -⟩ := Phys.descend_of_present P.base v (show 2 + (0 + 2) = 4 from rfl)
      (show p2 < 2 ^ 52 by omega) hpresent haddr
    obtain ⟨-, hlog⟩ := Phys.mapPage_of_descend paddr (show 0 < 2 ^ 52 by omega)
      (hway3.trans (hway2.trans hway1))
    refine .inl ⟨.word (0 + 8 * pathIndex v.toNat 3) (paddr ||| 0x7), ?_,
      8 * pathIndex v.toNat 3, ?_, ?_⟩
    · rw [hlog]
      exact List.mem_append_right _ (List.mem_append_right _ List.mem_cons_self)
    · have hlt3 := hlt 3
      omega
    · show 0 + 8 * pathIndex v.toNat 3 ≤ 8 * pathIndex v.toNat 3 ∧ _
      omega
  rw [if_neg h2] at hentry2
  by_cases h2' : pathIndex v.toNat 2 = 1
  swap
  · exact .inl (hmissing (show 2 + 1 = 3 from rfl) hpage2 hbit2 (hway3.trans hway2)
      (hwayLog3.trans hwayLog2) (by rw [hentry2, if_neg h2']))
  have hlink1 : Links (BitVec.ofNat 64 p1 ||| 0x1b) p1 :=
    links_or hpage1.aligned (by omega) (show 27 < 2048 by omega) (by decide) (by decide)
  rw [if_pos h2'] at hentry2
  obtain ⟨hway1, hwayLog1⟩ := Phys.descend_of_present P.base v (show 2 + (0 + 2) = 4 from rfl)
    (show p2 < 2 ^ 52 by omega) (hentry2 ▸ hlink1.present) (hentry2 ▸ hlink1.addr)
  by_cases h3 : pathIndex v.toNat 3 = 0
  swap
  · exact .inl (hmissing (show 3 + 0 = 3 from rfl) hpage1 hbit1 (hway3.trans (hway2.trans hway1))
      (hwayLog3.trans (hwayLog2.trans hwayLog1)) (by rw [h.pml1 _ (hlt 3), if_neg h3]))
  refine .inr ⟨pageNumber_apic.mpr ⟨h0, h1, h2', h3⟩, ?_⟩
  have hentry1 := h.pml1 _ (hlt 3)
  rw [if_pos h3] at hentry1
  have hrun : s.mapPage P.base (BitVec.ofNat 64 p4) v paddr =
      { s with mem := write64 s.mem p1 (paddr ||| 0x7) } := by
    have hslot : slot (BitVec.ofNat 64 p1) v 1 = p1 + 8 * pathIndex v.toNat 3 :=
      slot_at v hpage1 (show 3 + 1 = 4 from rfl) (by omega)
    have hread : read64 s.mem (p1 + 8 * pathIndex v.toNat 3) = e := hentry1
    unfold Phys.mapPage
    rw [hway3, hway2, hway1]
    unfold Phys.descend
    dsimp only
    rw [hslot, hread, if_neg (by rw [and_one_eq_zero, h.present]; decide), h3]
    rfl
  rw [hrun]
  exact h.setApic (present_or_seven paddr)

/-- After a loop of `load_task` that has written nothing to page 0, the entry of the page of
the APIC is as before, or is one for the user. -/
theorem payloadLoop_cases {task : Task} (hpgt : task.pgt = BitVec.ofNat 64 p4) :
    ∀ {turns : Nat} {i : Word} {s : Phys} {e : Word}, KernelTables P s p4 p3 p2 p1 e →
      AllocsSucceed (payloadLog P.base task turns i s) →
      LowWrite (payloadLog P.base task turns i s) ∨
        ∃ e', KernelTables P (payloadLoop P.base task turns i s) p4 p3 p2 p1 e' ∧
          (e' = e ∧ ¬ (0 < turns ∧ i < payloadSize task) ∨ e'.getLsbD 2 = true) := by
  intro turns
  induction turns with
  | zero => exact fun h _ => .inr ⟨_, h, .inl ⟨rfl, fun hturn => Nat.lt_irrefl 0 hturn.1⟩⟩
  | succ turns ih =>
    intro i s e h hallocs
    unfold payloadLog at hallocs ⊢
    unfold payloadLoop
    by_cases hi : i < payloadSize task
    · rw [if_pos hi] at hallocs ⊢
      rw [if_pos hi]
      rw [hpgt] at hallocs ⊢
      obtain ⟨hfirst, hrest⟩ := allocsSucceed_append.mp hallocs
      rcases h.mapPage_cases hfirst with hlow | ⟨-, hnext⟩
      · exact .inl (hlow.append_left _)
      · rcases ih hnext hrest with hlow | ⟨e', htables, hsame | huser⟩
        · exact .inl (hlow.append_right _)
        · exact .inr ⟨e', htables, .inr (hsame.1 ▸ user_or_seven _)⟩
        · exact .inr ⟨e', htables, .inr huser⟩
    · rw [if_neg hi, if_neg hi]
      exact .inr ⟨e, h, .inl ⟨rfl, fun hturn => hi hturn.2⟩⟩

theorem bssLoop_cases {task : Task} (hpgt : task.pgt = BitVec.ofNat 64 p4) :
    ∀ {turns : Nat} {i : Word} {s : Phys} {e : Word}, KernelTables P s p4 p3 p2 p1 e →
      AllocsSucceed (bssLog P.base task turns i s) →
      LowWrite (bssLog P.base task turns i s) ∨
        ∃ e', KernelTables P (bssLoop P.base task turns i s) p4 p3 p2 p1 e' ∧
          (e' = e ∧ ¬ (0 < turns ∧ i < bssSize task) ∨ e'.getLsbD 2 = true) := by
  intro turns
  induction turns with
  | zero => exact fun h _ => .inr ⟨_, h, .inl ⟨rfl, fun hturn => Nat.lt_irrefl 0 hturn.1⟩⟩
  | succ turns ih =>
    intro i s e h hallocs
    unfold bssLog at hallocs ⊢
    unfold bssLoop
    by_cases hi : i < bssSize task
    · rw [if_pos hi] at hallocs ⊢
      rw [if_pos hi]
      dsimp only at hallocs ⊢
      rw [hpgt] at hallocs ⊢
      obtain ⟨hne, hallocs⟩ := allocsSucceed_alloc_cons.mp hallocs
      obtain ⟨hfirst, hrest⟩ := allocsSucceed_append.mp hallocs
      rcases (h.alloc hne).mapPage_cases hfirst with hlow | ⟨-, hnext⟩
      · exact .inl ((hlow.append_left _).append_right [_])
      · rcases ih hnext hrest with hlow | ⟨e', htables, hsame | huser⟩
        · exact .inl ((hlow.append_right _).append_right [_])
        · exact .inr ⟨e', htables, .inr (hsame.1 ▸ user_or_seven _)⟩
        · exact .inr ⟨e', htables, .inr huser⟩
    · rw [if_neg hi, if_neg hi]
      exact .inr ⟨e, h, .inl ⟨rfl, fun hturn => hi hturn.2⟩⟩

/-! ## The kernel addresses -/

/-- The addresses below 1 GiB lead to the third table. -/
theorem walkFrom_low (h : KernelTables P s p4 p3 p2 p1 e) {v : Nat} (h0 : pathIndex v 0 = 0)
    (h1 : pathIndex v 1 = 0) :
    walkFrom s.mem v 4 p4 = walkFrom s.mem v 2 p2 := by
  have hpage3 := (h.page p3 (by simp)).1
  have hpage2 := (h.page p2 (by simp)).1
  have hlt3 := hpage3.lt
  have hlt2 := hpage2.lt
  have hlink3 : Links (BitVec.ofNat 64 p3 ||| 0x7) p3 :=
    links_or hpage3.aligned (by omega) (show 7 < 2048 by omega) (by decide) (by decide)
  have hlink2 : Links (BitVec.ofNat 64 p2 ||| 0x7) p2 :=
    links_or hpage2.aligned (by omega) (show 7 < 2048 by omega) (by decide) (by decide)
  have hentry4 := h.pml4 _ (pathIndex_lt v 0)
  have hentry3 := h.pml3 _ (pathIndex_lt v 1)
  rw [if_pos h0] at hentry4
  rw [if_pos h1] at hentry3
  have hchild4 := child_of_present (show 0 < 3 by omega) (hentry4 ▸ hlink3.present) (.inl rfl)
  have hchild3 := child_of_present (show 1 < 3 by omega) (hentry3 ▸ hlink2.present)
    (.inr (hentry3 ▸ hlink2.huge))
  rw [hentry4, hlink3.frame] at hchild4
  rw [hentry3, hlink2.frame] at hchild3
  have hwalk4 := walkFrom_of_child hchild4
  have hwalk3 := walkFrom_of_child hchild3
  rw [hentry4] at hwalk4
  rw [hentry3] at hwalk3
  have hfull : ∀ {q : Nat}, q % 4096 = 0 → q < 2 ^ 52 →
      restrict (BitVec.ofNat 64 q ||| 0x7) = id := by
    intro q hq hmax
    funext t
    exact restrict_ofNat_or _ hq hmax t
  rw [hwalk4, hwalk3, hfull hpage3.aligned (by omega), hfull hpage2.aligned (by omega),
    Option.map_id]
  rfl

/-- The first 2 MiB. -/
theorem translate_kernel (h : KernelTables P s p4 p3 p2 p1 e) {v : Nat} (hv : v < 0x200000) :
    translate s.mem (BitVec.ofNat 64 p4) v = some (kernelTranslation v) := by
  obtain ⟨h0, h1, h2⟩ := (lowAddress_iff v).mp (Nat.lt_of_le_of_lt (Nat.mod_le v _) hv)
  have hentry2 := h.pml2 _ (pathIndex_lt v 2)
  rw [if_pos h2] at hentry2
  have hhuge : walkFrom s.mem v 2 p2 = some
      { paddr := v, writable := true, user := false, executable := true, leaf := KERNEL_PAGE } := by
    rw [walkFrom_succ, tableIndex_eq (show 2 + (1 + 1) = 4 from rfl), hentry2]
    dsimp only
    rw [if_neg (by decide), if_pos (by decide)]
    congr 2
    rw [show (KERNEL_PAGE : Word).toNat % 2 ^ 52 / 2 ^ (12 + 9 * 1) * 2 ^ (12 + 9 * 1) = 0 by
      decide]
    omega
  unfold translate
  rw [(h.page p4 (by simp)).1.frame_ofNat, h.walkFrom_low h0 h1, hhuge, kernelTranslation,
    if_pos hv, if_pos hv]

/-- The page of the APIC. -/
theorem translate_apic (h : KernelTables P s p4 p3 p2 p1 e) {v : Nat} (hv : pageNumber v = 0x200) :
    translate s.mem (BitVec.ofNat 64 p4) v = some
      { paddr := frame e + v % 4096
        writable := e.getLsbD 1
        user := false
        executable := !e.getLsbD 63
        leaf := e } := by
  have hpage1 := (h.page p1 (by simp)).1
  have hlt1 := hpage1.lt
  obtain ⟨h0, h1, h2, h3⟩ := pageNumber_apic.mp hv
  have hlink1 : Links (BitVec.ofNat 64 p1 ||| 0x1b) p1 :=
    links_or hpage1.aligned (by omega) (show 27 < 2048 by omega) (by decide) (by decide)
  have hentry2 := h.pml2 _ (pathIndex_lt v 2)
  rw [if_neg (by omega), if_pos h2] at hentry2
  have hentry1 := h.pml1 _ (pathIndex_lt v 3)
  rw [if_pos h3] at hentry1
  have hchild2 := child_of_present (show 2 < 3 by omega) (hentry2 ▸ hlink1.present)
    (.inr (hentry2 ▸ hlink1.huge))
  rw [hentry2, hlink1.frame] at hchild2
  have hwalk2 := walkFrom_of_child hchild2
  rw [hentry2, show 3 - 2 = 1 from rfl, walkFrom_last, hentry1, h.present, if_neg (by decide),
    Option.map_some] at hwalk2
  have hwalk : walkFrom s.mem v 2 p2 = _ := hwalk2
  unfold translate
  rw [(h.page p4 (by simp)).1.frame_ofNat, h.walkFrom_low h0 h1, hwalk,
    restrict_ofNat_or _ hpage1.aligned (by omega)]
  simp [restrict, ofLeaf]

end KernelTables

/-! ## Pages of the log -/

/-- The pages that a log takes are pages of the pool. -/
def PoolPages (P : PoolRegion) (log : List Action) : Prop :=
  ∀ page, .alloc page ∈ log → page = 0 ∨ P.IsPage page.toNat

theorem PoolPages.nil : PoolPages P [] := fun _ h => absurd h List.not_mem_nil

theorem PoolPages.append {log log' : List Action} (h : PoolPages P log) (h' : PoolPages P log') :
    PoolPages P (log ++ log') := by
  intro page hpage
  rcases List.mem_append.mp hpage with hin | hin
  · exact h page hin
  · exact h' page hin

/-- Stores are no allocations. -/
theorem PoolPages.of_stores {log : List Action} (h : ∀ page, .alloc page ∉ log) :
    PoolPages P log := fun page hpage => absurd hpage (h page)

theorem alloc_pages (hwords : s.bitset.length = BITSET_SIZE) :
    (s.alloc P.base).1.bitset.length = BITSET_SIZE ∧ PoolPages P [.alloc (s.alloc P.base).2] := by
  unfold Phys.alloc
  rcases P.alloc_cases hwords with ⟨bitset, q, halloc, htake⟩ | ⟨-, halloc⟩
  · rw [halloc]
    refine ⟨htake.words, fun page hpage => .inr ?_⟩
    obtain rfl := Action.alloc.inj (List.mem_singleton.mp hpage)
    show P.IsPage (BitVec.ofNat 64 q).toNat
    rw [htake.page.toNat_ofNat]
    exact htake.page
  · rw [halloc]
    exact ⟨hwords, fun page hpage => .inl (Action.alloc.inj (List.mem_singleton.mp hpage))⟩

theorem descend_pages (v : Word) : ∀ {n : Nat} {s : Phys} {cadre : Word},
    s.bitset.length = BITSET_SIZE →
      (Phys.descend P.base v n s cadre).1.bitset.length = BITSET_SIZE ∧
        PoolPages P (Phys.descendLog P.base v n s cadre) := by
  intro n
  induction n with
  | zero => exact fun hwords => ⟨hwords, PoolPages.nil⟩
  | succ n ih =>
    intro s cadre hwords
    have hturn : (s.enterTable P.base v cadre (n + 2)).1.bitset.length = BITSET_SIZE ∧
        PoolPages P (s.enterTableLog P.base v cadre (n + 2)) := by
      unfold Phys.enterTable Phys.enterTableLog
      dsimp only
      split
      · obtain ⟨hwords', hpage⟩ := alloc_pages (P := P) hwords
        exact ⟨hwords', hpage.append (.of_stores (by simp))⟩
      · exact ⟨hwords, PoolPages.nil⟩
    obtain ⟨hwords', hrest⟩ := ih hturn.1
    unfold Phys.descend Phys.descendLog
    exact ⟨hwords', hturn.2.append hrest⟩

theorem mapPage_pages {pgt : Word} (v paddr : Word) (hwords : s.bitset.length = BITSET_SIZE) :
    (s.mapPage P.base pgt v paddr).bitset.length = BITSET_SIZE ∧
      PoolPages P (s.mapPageLog P.base pgt v paddr) := by
  have hdescend : (Phys.descend P.base v 3 s pgt).1.bitset.length = BITSET_SIZE ∧
      PoolPages P (Phys.descendLog P.base v 3 s pgt) := descend_pages v hwords
  refine ⟨hdescend.1, hdescend.2.append (.of_stores fun page => ?_)⟩
  split
  · simp
  · simp

theorem payload_pages (task : Task) : ∀ {turns : Nat} {i : Word} {s : Phys},
    s.bitset.length = BITSET_SIZE →
      (payloadLoop P.base task turns i s).bitset.length = BITSET_SIZE ∧
        PoolPages P (payloadLog P.base task turns i s) := by
  intro turns
  induction turns with
  | zero => exact fun hwords => ⟨hwords, PoolPages.nil⟩
  | succ turns ih =>
    intro i s hwords
    unfold payloadLoop payloadLog
    split
    · obtain ⟨hwords', hfirst⟩ := mapPage_pages (task.loadVaddr + i) (task.loadPaddr + i) hwords
      obtain ⟨hend, hrest⟩ := ih hwords'
      exact ⟨hend, hfirst.append hrest⟩
    · exact ⟨hwords, PoolPages.nil⟩

theorem bss_pages (task : Task) : ∀ {turns : Nat} {i : Word} {s : Phys},
    s.bitset.length = BITSET_SIZE → PoolPages P (bssLog P.base task turns i s) := by
  intro turns
  induction turns with
  | zero => exact fun _ => PoolPages.nil
  | succ turns ih =>
    intro i s hwords
    unfold bssLog
    split
    · obtain ⟨hwords₁, hpage⟩ := alloc_pages (P := P) hwords
      obtain ⟨hwords₂, hfirst⟩ := mapPage_pages (bssStartVaddr task + i) _ hwords₁
      exact hpage.append (hfirst.append (ih hwords₂))
    · exact PoolPages.nil

/-- The pages that `load_task` takes are pages of the pool. -/
theorem loadTask_pages (hwords : s.bitset.length = BITSET_SIZE) (image : Task) :
    PoolPages P (loadTaskLog P.base s image) := by
  obtain ⟨hwords₁, hpage₁⟩ := alloc_pages (P := P) hwords
  obtain ⟨hwords₂, hpage₂⟩ := alloc_pages (P := P) hwords₁
  obtain ⟨hwords₃, hpage₃⟩ := alloc_pages (P := P) hwords₂
  obtain ⟨hwords₄, hpage₄⟩ := alloc_pages (P := P) hwords₃
  have hlink : PoolPages P (linkTablesLog P.base s) :=
    hpage₁.append (hpage₂.append (hpage₃.append (hpage₄.append (.of_stores (by simp)))))
  obtain ⟨hwords₅, hpayload⟩ := payload_pages (linkTables P.base s image).2
    (show (linkTables P.base s image).1.bitset.length = BITSET_SIZE from hwords₄)
  exact hlink.append (hpayload.append (bss_pages _ hwords₅))

/-! ## The property -/

/-- What `load_task` is for: the image is mapped, with new pages of zeros for its bss, the
kernel addresses are as before, and only pages that it has allocated are written. -/
structure Loaded (image : Task) (log : List Action) (mem : Mem) (pgt : Word) : Prop where
  payload : ∀ o, o < payloadSize image → ∃ t,
    translate mem pgt (image.loadVaddr + o).toNat = some t ∧ t.paddr = (image.loadPaddr + o).toNat
  bss : ∀ o, o < bssSize image → ∃ t page,
    translate mem pgt (bssStartVaddr image + o).toNat = some t ∧ .alloc page ∈ log ∧
      t.paddr = page.toNat + (bssStartVaddr image + o).toNat % 4096 ∧
        (∀ a, InPage page.toNat a → mem a = 0) ∧
          ∀ path, walk (child mem) (frame pgt) path ≠ some page.toNat
  distinct : ∀ o o' t t', o < bssSize image → o' < bssSize image →
    pageNumber (bssStartVaddr image + o).toNat ≠ pageNumber (bssStartVaddr image + o').toNat →
      translate mem pgt (bssStartVaddr image + o).toNat = some t →
        translate mem pgt (bssStartVaddr image + o').toNat = some t' →
          t.paddr / 4096 ≠ t'.paddr / 4096
  kernel : ∀ v, v < 0x201000 → translate mem pgt v = some (kernelTranslation v)
  writes : Confined (fun a => ∃ page, .alloc page ∈ log ∧ InPage page.toNat a) log

/-- Page 0 is no page of the pool. -/
theorem not_loaded_of_lowWrite {image : Task} {log : List Action} {mem : Mem} {pgt : Word}
    (hallocs : AllocsSucceed log) (hpages : PoolPages P log) (hlow : LowWrite log) :
    ¬ Loaded image log mem pgt := by
  intro hloaded
  rcases hlow with ⟨act, hact, a, ha, hcovers⟩
  obtain ⟨page, hpage, hin⟩ := hloaded.writes act hact a hcovers
  rcases hpages page hpage with rfl | hpool
  · exact hallocs hpage
  · have hlt := hpool.lt
    unfold InPage at hin
    omega

theorem turns_eq_zero {size : Word} (h : ¬ (0 < turns size ∧ 0 < size)) : size = 0 := by
  by_contra hne
  have hpos : 0 < size.toNat := by
    refine Nat.pos_of_ne_zero fun hzero => hne ?_
    exact BitVec.eq_of_toNat_eq hzero
  refine h ⟨?_, BitVec.lt_def.mpr hpos⟩
  unfold turns
  omega

/-- An image with a page: `load_task` writes to page 0, or replaces the page of the APIC. -/
theorem not_loaded (hwords : s.bitset.length = BITSET_SIZE) (hzero : ZeroFree P s) {image : Task}
    (hallocs : AllocsSucceed (loadTaskLog P.base s image))
    (hpages : payloadSize image ≠ 0 ∨ bssSize image ≠ 0) :
    ¬ Loaded image (loadTaskLog P.base s image) (loadTask P.base s image).1.mem
      (loadTask P.base s image).2.pgt := by
  have hpool := loadTask_pages (P := P) hwords image
  have hlinkAllocs : AllocsSucceed (linkTablesLog P.base s) := (allocsSucceed_append.mp hallocs).1
  obtain ⟨s₁, p4, p3, p2, p1, hlink, htables, -⟩ :=
    kernelTables_linkTables hwords hzero hlinkAllocs image
  by_cases hlow : LowWrite (loadTaskLog P.base s image)
  · exact not_loaded_of_lowWrite hallocs hpool hlow
  unfold loadTaskLog at hallocs hlow
  rw [hlink] at hallocs hlow
  dsimp only at hallocs hlow
  rw [allocsSucceed_append, allocsSucceed_append] at hallocs
  rcases htables.payloadLoop_cases rfl hallocs.2.1 with hfirst | ⟨e₁, htables₁, hcase₁⟩
  · exact absurd ((hfirst.append_left _).append_right _) hlow
  rcases htables₁.bssLoop_cases rfl hallocs.2.2 with hsecond | ⟨e₂, htables₂, hcase₂⟩
  · exact absurd ((hsecond.append_right _).append_right _) hlow
  have huser : e₂.getLsbD 2 = true := by
    rcases hcase₂ with ⟨rfl, hbss⟩ | huser
    · rcases hcase₁ with ⟨rfl, hpayload⟩ | huser
      · rcases hpages with hne | hne
        · exact absurd (turns_eq_zero hpayload) hne
        · exact absurd (turns_eq_zero hbss) hne
      · exact huser
    · exact huser
  intro hloaded
  have hkernel := hloaded.kernel 0x200000 (by omega)
  unfold loadTask at hkernel
  rw [hlink] at hkernel
  dsimp only at hkernel
  rw [htables₂.translate_apic (by decide)] at hkernel
  have hleaf := congrArg Translation.leaf (Option.some.inj hkernel)
  have hentry : e₂ = 0xfee0011b := hleaf
  rw [hentry] at huser
  exact absurd huser (by decide)

/-- `load_task` is right exactly for an image without pages. -/
theorem loadTask_iff (P : PoolRegion) (s : Phys) (image : Task)
    (hwords : s.bitset.length = BITSET_SIZE) (hzero : ZeroFree P s)
    (hallocs : AllocsSucceed (loadTaskLog P.base s image)) :
    Loaded image (loadTaskLog P.base s image) (loadTask P.base s image).1.mem
        (loadTask P.base s image).2.pgt ↔
      payloadSize image = 0 ∧ bssSize image = 0 := by
  constructor
  · intro hloaded
    by_contra hne
    rw [not_and_or] at hne
    exact not_loaded hwords hzero hallocs hne hloaded
  · rintro ⟨hpayload, hbss⟩
    have hlinkAllocs : AllocsSucceed (linkTablesLog P.base s) := (allocsSucceed_append.mp hallocs).1
    obtain ⟨s₁, p4, p3, p2, p1, hlink, htables, hlog⟩ :=
      kernelTables_linkTables hwords hzero hlinkAllocs image
    obtain ⟨hload, hloadLog⟩ : loadTask P.base s image =
          (s₁, { image with pgt := BitVec.ofNat 64 p4 }) ∧
        loadTaskLog P.base s image = linkTablesLog P.base s := by
      have hpayload' : payloadSize { image with pgt := BitVec.ofNat 64 p4 } = 0 := hpayload
      have hbss' : bssSize { image with pgt := BitVec.ofNat 64 p4 } = 0 := hbss
      unfold loadTask loadTaskLog
      rw [hlink]
      dsimp only
      rw [hpayload', hbss']
      exact ⟨rfl, List.append_nil _⟩
    have hnone : ∀ {o size : Word}, size = 0 → ¬ o < size := by
      intro o size hsize hlt
      rw [hsize, BitVec.lt_def] at hlt
      exact Nat.not_lt_zero _ hlt
    rw [hload, hloadLog]
    refine ⟨fun o ho => absurd ho (hnone hpayload), fun o ho => absurd ho (hnone hbss),
      fun o _ _ _ ho _ => absurd ho (hnone hbss), fun v hv => ?_, ?_⟩
    · by_cases hlow : v < 0x200000
      · exact htables.translate_kernel hlow
      · rw [htables.translate_apic (by unfold pageNumber; omega)]
        unfold kernelTranslation
        rw [if_neg hlow, if_neg hlow]
        rfl
    · have hpage := fun {p : Nat} (hp : p ∈ [p4, p3, p2, p1]) => (htables.page p hp).1.toNat_ofNat
      rw [hlog]
      intro act hact a ha
      simp only [List.mem_cons, List.not_mem_nil, or_false] at hact
      rcases hact with rfl | rfl | rfl | rfl | rfl | rfl | rfl | rfl | rfl
      · cases ha
      · cases ha
      · cases ha
      · cases ha
      · refine ⟨BitVec.ofNat 64 p4, by simp, ?_⟩
        rw [hpage (by simp)]
        exact ⟨ha.1, by have := ha.2; omega⟩
      · refine ⟨BitVec.ofNat 64 p3, by simp, ?_⟩
        rw [hpage (by simp)]
        exact ⟨ha.1, by have := ha.2; omega⟩
      · refine ⟨BitVec.ofNat 64 p2, by simp, ?_⟩
        rw [hpage (by simp)]
        exact ⟨ha.1, by have := ha.2; omega⟩
      · refine ⟨BitVec.ofNat 64 p2, by simp, ?_⟩
        rw [hpage (by simp)]
        have hlo : p2 + 8 ≤ a := ha.1
        have hhi : a < p2 + 8 + 8 := ha.2
        exact ⟨by omega, by omega⟩
      · refine ⟨BitVec.ofNat 64 p1, by simp, ?_⟩
        rw [hpage (by simp)]
        exact ⟨ha.1, by have := ha.2; omega⟩

/-- The memory before `load_task`: a pool of zeros. -/
def emptyPool : Phys := ⟨fun _ => 0, [0]⟩

/-- A task with one page of code: page 0 is cleared. -/
theorem not_loaded_code :
    AllocsSucceed (loadTaskLog lowPool.base emptyPool codeImage) ∧
      ¬ Loaded codeImage (loadTaskLog lowPool.base emptyPool codeImage)
        (loadTask lowPool.base emptyPool codeImage).1.mem
        (loadTask lowPool.base emptyPool codeImage).2.pgt := by
  have hallocs : AllocsSucceed (loadTaskLog lowPool.base emptyPool codeImage) := by decide +kernel
  exact ⟨hallocs, not_loaded rfl (fun _ _ _ _ _ _ => rfl) hallocs (.inl (by decide))⟩

theorem loadTask_iff_code :
    Loaded codeImage (loadTaskLog lowPool.base emptyPool codeImage)
        (loadTask lowPool.base emptyPool codeImage).1.mem
        (loadTask lowPool.base emptyPool codeImage).2.pgt ↔
      payloadSize codeImage = 0 ∧ bssSize codeImage = 0 :=
  loadTask_iff lowPool emptyPool codeImage rfl (fun _ _ _ _ _ _ => rfl) (by decide +kernel)

end KernelMemVirt.Rackdoll
