import KernelMemVirt.Lib.ActionLog
import KernelMemVirt.Rackdoll.Ownership
import KernelMemVirt.Rackdoll.Walk

/-!
# `map_page` on used pages

The contents of the pages that `alloc_page` returns are undefined, and `map_page` makes tables
of them as they are.  When the last entry is not present it clears the page whose address it
reads there.

* `Phys.descendLog` and `Phys.mapPageLog` are the actions of `map_page`, and
  `Phys.mapPage_replay` relates them to its memory.
* `Phys.descend_of_tableAt` is the way along the tables that are there.
* `mapPage_iff` says when `map_page` is right whatever the free pages hold: when the address
  is already mapped.
-/

namespace KernelMemVirt.Rackdoll

open ByteMem OwnerTree ActionLog

namespace Phys

/-! ## Actions -/

/-- The actions of `enterTable`. -/
def enterTableLog (pool : Nat) (s : Phys) (vaddr cadre : Word) (lvl : Nat) : List Action :=
  let p := slot cadre vaddr lvl
  if read64 s.mem p &&& 1 = 0 then
    let page := (s.alloc pool).2
    [.alloc page, .word p (page ||| 0x7)]
  else []

/-- The actions of `descend`. -/
def descendLog (pool : Nat) (vaddr : Word) : Nat → Phys → Word → List Action
  | 0, _, _ => []
  | n + 1, s, cadre =>
    let next := s.enterTable pool vaddr cadre (n + 2)
    s.enterTableLog pool vaddr cadre (n + 2) ++ descendLog pool vaddr n next.1 next.2

/-- The actions of `map_page`. -/
def mapPageLog (pool : Nat) (s : Phys) (pgt vaddr paddr : Word) : List Action :=
  let last := descend pool vaddr 3 s pgt
  let p := slot last.2 vaddr 1
  let e := read64 last.1.mem p
  descendLog pool vaddr 3 s pgt ++
    ((if e &&& 1 = 0 then [.fill e.toNat 0 PAGE_SIZE] else []) ++ [.word p (paddr ||| 0x7)])

variable {pool : Nat} {s : Phys} {pgt vaddr paddr : Word}

theorem enterTable_replay {cadre : Word} {lvl : Nat} :
    (s.enterTable pool vaddr cadre lvl).1.mem =
      replay s.mem (s.enterTableLog pool vaddr cadre lvl) := by
  unfold enterTable enterTableLog
  dsimp only
  split
  · rfl
  · rfl

theorem descend_replay : ∀ {n : Nat} {s : Phys} {cadre : Word},
    (descend pool vaddr n s cadre).1.mem = replay s.mem (descendLog pool vaddr n s cadre) := by
  intro n
  induction n with
  | zero => exact fun {_ _} => rfl
  | succ n ih =>
    intro s cadre
    unfold descend descendLog
    dsimp only
    rw [replay_append, ← enterTable_replay]
    exact ih

/-- The memory after `map_page`. -/
theorem mapPage_replay (pool : Nat) (s : Phys) (pgt vaddr paddr : Word) :
    (s.mapPage pool pgt vaddr paddr).mem = replay s.mem (s.mapPageLog pool pgt vaddr paddr) := by
  unfold mapPage mapPageLog
  dsimp only
  rw [replay_append, replay_append, ← descend_replay]
  split
  · rfl
  · rfl

/-! ## The way of `map_page` -/

/-- A present entry leads to the next table. -/
theorem enterTable_of_present (pool : Nat) (vaddr : Word) {p q d lvl : Nat} (hd : d + lvl = 4)
    (hlvl : 1 ≤ lvl) (hp : p < 2 ^ 52)
    (hpresent : present (entry s.mem p (pathIndex vaddr.toNat d)) = true)
    (haddr : entry s.mem p (pathIndex vaddr.toNat d) &&& ADDR_MASK = BitVec.ofNat 64 q) :
    s.enterTable pool vaddr (BitVec.ofNat 64 p) lvl = (s, BitVec.ofNat 64 q) ∧
      s.enterTableLog pool vaddr (BitVec.ofNat 64 p) lvl = [] := by
  have hslot : slot (BitVec.ofNat 64 p) vaddr lvl = p + 8 * pathIndex vaddr.toNat d := by
    rw [slot_eq vaddr hp hlvl (by omega), tableIndex_eq hd]
  have hcond : ¬ read64 s.mem (p + 8 * pathIndex vaddr.toNat d) &&& 1 = 0 := by
    rw [and_one_eq_zero]
    exact fun hclear => absurd (hpresent.symm.trans hclear) (by decide)
  have hnext : read64 s.mem (p + 8 * pathIndex vaddr.toNat d) &&& ADDR_MASK = BitVec.ofNat 64 q :=
    haddr
  unfold enterTable enterTableLog
  dsimp only
  rw [hslot, if_neg hcond, if_neg hcond, hnext]
  exact ⟨rfl, rfl⟩

/-- So does one turn of the loop of `map_page`. -/
theorem descend_of_present (pool : Nat) (vaddr : Word) {p q d n : Nat} (hd : d + (n + 2) = 4)
    (hp : p < 2 ^ 52)
    (hpresent : present (entry s.mem p (pathIndex vaddr.toNat d)) = true)
    (haddr : entry s.mem p (pathIndex vaddr.toNat d) &&& ADDR_MASK = BitVec.ofNat 64 q) :
    descend pool vaddr (n + 1) s (BitVec.ofNat 64 p) =
        descend pool vaddr n s (BitVec.ofNat 64 q) ∧
      descendLog pool vaddr (n + 1) s (BitVec.ofNat 64 p) =
        descendLog pool vaddr n s (BitVec.ofNat 64 q) := by
  obtain ⟨henter, henterLog⟩ :=
    enterTable_of_present pool vaddr hd (by omega) hp hpresent haddr
  rw [descend, descendLog, henter, henterLog]
  exact ⟨rfl, rfl⟩

/-- At an entry that is not present `map_page` takes a page. -/
theorem enterTable_of_missing (pool : Nat) (vaddr : Word) {p d lvl : Nat} (hd : d + lvl = 4)
    (hlvl : 1 ≤ lvl) (hp : p < 2 ^ 52)
    (hempty : present (entry s.mem p (pathIndex vaddr.toNat d)) = false) :
    let page := (s.alloc pool).2
    s.enterTable pool vaddr (BitVec.ofNat 64 p) lvl =
        ({ (s.alloc pool).1 with
            mem := write64 s.mem (p + 8 * pathIndex vaddr.toNat d) (page ||| 0x7) },
          (page ||| 0x7) &&& ADDR_MASK) ∧
      s.enterTableLog pool vaddr (BitVec.ofNat 64 p) lvl =
        [.alloc page, .word (p + 8 * pathIndex vaddr.toNat d) (page ||| 0x7)] := by
  have hslot : slot (BitVec.ofNat 64 p) vaddr lvl = p + 8 * pathIndex vaddr.toNat d := by
    rw [slot_eq vaddr hp hlvl (by omega), tableIndex_eq hd]
  have hcond : read64 s.mem (p + 8 * pathIndex vaddr.toNat d) &&& 1 = 0 :=
    (and_one_eq_zero _).mpr hempty
  unfold enterTable enterTableLog
  dsimp only
  rw [hslot, if_pos hcond, if_pos hcond, read64_write64_self]
  exact ⟨rfl, rfl⟩

end Phys

/-- A tree of pages of the pool that are in use, on the way of `v`: its entries lead to
tables, for the code and for the processor, and allow accesses from the user; its last entry
is empty or present. -/
structure UserTree (P : PoolRegion) (s : Phys) (pgt : Word) (v : Nat) : Prop where
  words : s.bitset.length = BITSET_SIZE
  root : pgt = BitVec.ofNat 64 (frame pgt)
  unshared : UnsharedTables s.mem (frame pgt)
  page : ∀ path p, walk (child s.mem) (frame pgt) path = some p →
    P.IsPage p ∧ P.allocated s.bitset p = true
  links : ∀ d p, d < 3 → tableAt s.mem (frame pgt) v d = some p →
    present (entry s.mem p (pathIndex v d)) = true →
      Links (entry s.mem p (pathIndex v d)) (frame (entry s.mem p (pathIndex v d)))
  user : ∀ d p, d < 3 → tableAt s.mem (frame pgt) v d = some p →
    present (entry s.mem p (pathIndex v d)) = true →
      (entry s.mem p (pathIndex v d)).getLsbD 1 = true ∧
        (entry s.mem p (pathIndex v d)).getLsbD 2 = true
  last : ∀ p, tableAt s.mem (frame pgt) v 3 = some p →
    entry s.mem p (pathIndex v 3) = 0 ∨ present (entry s.mem p (pathIndex v 3)) = true

section

variable {P : PoolRegion} {s : Phys} {pgt vaddr paddr : Word} {v : Nat}

namespace UserTree

theorem inUse (h : UserTree P s pgt v) : TablesInUse P s.bitset s.mem (frame pgt) :=
  fun path p hp _ => (h.page path p hp).2

/-- When the last table is there, all entries above allow accesses from the user. -/
theorem userPath (h : UserTree P s pgt v) {p : Nat} (hp : tableAt s.mem (frame pgt) v 3 = some p) :
    UserPath s.mem (frame pgt) v 3 := by
  intro k q hk hq
  apply h.user k q hk hq
  by_contra habsent
  rw [Bool.not_eq_true] at habsent
  cases (tableAt_of_missing hq habsent hk).symm.trans hp

/-- The way ends in a last table, or at an entry where a table is missing. -/
theorem cases (h : UserTree P s pgt v) :
    (∃ p, tableAt s.mem (frame pgt) v 3 = some p) ∨
      ∃ d p, d < 3 ∧ tableAt s.mem (frame pgt) v d = some p ∧
        present (entry s.mem p (pathIndex v d)) = false := by
  refine way_ends fun {d p} hd hp hpresent => ⟨frame (entry s.mem p (pathIndex v d)), ?_⟩
  rw [tableAt_succ, hp]
  exact child_of_present (by omega) hpresent (.inr (h.links d p hd hp hpresent).huge)

/-- What the free pages hold does not matter to the tree. -/
theorem congr (h : UserTree P s pgt v) {mem : Mem}
    (hmem : ∀ a, ¬ P.Free s.bitset a → mem a = s.mem a) : UserTree P { s with mem } pgt v := by
  have hsame := h.inUse.sameTables (frame_aligned _) hmem
  have hentry : ∀ {d p}, tableAt mem (frame pgt) v d = some p →
      tableAt s.mem (frame pgt) v d = some p ∧
        entry mem p (pathIndex v d) = entry s.mem p (pathIndex v d) := by
    intro d p hp
    have hp' := (hsame.tableAt v d).symm.trans hp
    exact ⟨hp', hsame _ p hp' _ (pathIndex_lt v d)⟩
  refine ⟨h.words, h.root, hsame.unshared h.unshared, fun path p hp => ?_,
    fun d p hd hp hpresent => ?_, fun d p hd hp hpresent => ?_, fun p hp => ?_⟩
  · exact h.page path p ((hsame.walk path).symm.trans hp)
  · obtain ⟨hp', heq⟩ := hentry hp
    dsimp only at hpresent ⊢
    rw [heq] at hpresent ⊢
    exact h.links d p hd hp' hpresent
  · obtain ⟨hp', heq⟩ := hentry hp
    dsimp only at hpresent ⊢
    rw [heq] at hpresent ⊢
    exact h.user d p hd hp' hpresent
  · obtain ⟨hp', heq⟩ := hentry hp
    dsimp only
    rw [heq]
    exact h.last p hp'

end UserTree

/-- `map_page` goes the way of the tables. -/
theorem Phys.descend_of_tableAt (pool : Nat) (h : UserTree P s pgt vaddr.toNat) :
    ∀ {d n p : Nat}, d + n = 3 → tableAt s.mem (frame pgt) vaddr.toNat d = some p →
      descend pool vaddr 3 s pgt = descend pool vaddr n s (BitVec.ofNat 64 p) ∧
        descendLog pool vaddr 3 s pgt = descendLog pool vaddr n s (BitVec.ofNat 64 p) := by
  intro d
  induction d with
  | zero =>
    intro n p hd hp
    obtain rfl : frame pgt = p := Option.some.inj hp
    obtain rfl : n = 3 := by omega
    rw [← h.root]
    exact ⟨rfl, rfl⟩
  | succ d ih =>
    intro n q hd hq
    obtain ⟨p, hp, hchild⟩ := tableAt_succ_eq_some hq
    obtain ⟨-, hd3, hpresent, -, rfl⟩ := child_eq_some hchild
    obtain ⟨hold, holdLog⟩ := ih (show d + (n + 1) = 3 by omega) hp
    rw [hold, holdLog]
    exact descend_of_present pool vaddr (by omega) (tableAt_lt (frame_lt _) hp) hpresent
      (h.links d p hd3 hp hpresent).addr

/-- In a page that leads back to itself `map_page` stays. -/
theorem Phys.descend_of_loop (pool : Nat) (vaddr : Word) {q : Nat} (hq : q < 2 ^ 52)
    (hloop : ∀ i, i < 512 → Links (entry s.mem q i) q) : ∀ {n : Nat}, n ≤ 3 →
      descend pool vaddr n s (BitVec.ofNat 64 q) = (s, BitVec.ofNat 64 q) ∧
        descendLog pool vaddr n s (BitVec.ofNat 64 q) = [] := by
  intro n
  induction n with
  | zero => exact fun _ => ⟨rfl, rfl⟩
  | succ n ih =>
    intro hn
    have hlinks := hloop _ (pathIndex_lt vaddr.toNat (2 - n))
    obtain ⟨hnext, hnextLog⟩ := descend_of_present pool vaddr
      (show 2 - n + (n + 2) = 4 by omega) hq hlinks.present hlinks.addr
    rw [hnext, hnextLog]
    exact ih (by omega)

/-- The end of `map_page`, in the last table. -/
theorem Phys.mapPage_of_descend (paddr : Word) {pool q : Nat} {s₁ : Phys} (hq : q < 2 ^ 52)
    (hdescend : descend pool vaddr 3 s pgt = (s₁, BitVec.ofNat 64 q)) :
    let e := entry s₁.mem q (pathIndex vaddr.toNat 3)
    (s.mapPage pool pgt vaddr paddr).mem =
        write64 (if e &&& 1 = 0 then fill s₁.mem e.toNat 0 PAGE_SIZE else s₁.mem)
          (q + 8 * pathIndex vaddr.toNat 3) (paddr ||| 0x7) ∧
      s.mapPageLog pool pgt vaddr paddr =
        descendLog pool vaddr 3 s pgt ++
          ((if e &&& 1 = 0 then [.fill e.toNat 0 PAGE_SIZE] else []) ++
            [.word (q + 8 * pathIndex vaddr.toNat 3) (paddr ||| 0x7)]) := by
  have hslot : slot (BitVec.ofNat 64 q) vaddr 1 = q + 8 * pathIndex vaddr.toNat 3 := by
    rw [slot_eq vaddr hq (by omega) (by omega), tableIndex_eq (show 3 + 1 = 4 from rfl)]
  unfold mapPage mapPageLog
  rw [hdescend]
  dsimp only
  rw [hslot]
  exact ⟨rfl, rfl⟩

/-- The run of `map_page` when the table that is missing becomes the page `q`, which leads
back to itself. -/
theorem Phys.mapPage_of_loop (paddr : Word) {P : PoolRegion} {bitset : List Word} {d p q : Nat}
    (h : UserTree P s pgt vaddr.toNat) (hd : d < 3)
    (hp : tableAt s.mem (frame pgt) vaddr.toNat d = some p)
    (hempty : present (entry s.mem p (pathIndex vaddr.toNat d)) = false)
    (halloc : allocPage P.base s.bitset = (bitset, BitVec.ofNat 64 q)) (hq : q < 2 ^ 52)
    (hlinks : Links (BitVec.ofNat 64 q ||| 0x7) q)
    (hloop : ∀ i, i < 512 →
      entry (write64 s.mem (p + 8 * pathIndex vaddr.toNat d) (BitVec.ofNat 64 q ||| 0x7)) q i =
        BitVec.ofNat 64 q ||| 0x7) :
    (s.mapPage P.base pgt vaddr paddr).mem =
      write64 (write64 s.mem (p + 8 * pathIndex vaddr.toNat d) (BitVec.ofNat 64 q ||| 0x7))
        (q + 8 * pathIndex vaddr.toNat 3) (paddr ||| 0x7) ∧
      s.mapPageLog P.base pgt vaddr paddr =
        [.alloc (BitVec.ofNat 64 q),
          .word (p + 8 * pathIndex vaddr.toNat d) (BitVec.ofNat 64 q ||| 0x7),
          .word (q + 8 * pathIndex vaddr.toNat 3) (paddr ||| 0x7)] := by
  obtain ⟨n, hn⟩ : ∃ n, d + (n + 1) = 3 := ⟨2 - d, by omega⟩
  have hpage : s.alloc P.base = ({ s with bitset }, BitVec.ofNat 64 q) := by
    unfold alloc
    rw [halloc]
  obtain ⟨hway, hwayLog⟩ := descend_of_tableAt P.base h hn hp
  obtain ⟨henter, henterLog⟩ := enterTable_of_missing P.base vaddr
    (show d + (n + 2) = 4 by omega) (by omega) (tableAt_lt (frame_lt _) hp) hempty
  rw [hpage] at henter henterLog
  dsimp only at henter henterLog
  rw [hlinks.addr] at henter
  obtain ⟨hstay, hstayLog⟩ := descend_of_loop P.base vaddr
    (s := ⟨write64 s.mem (p + 8 * pathIndex vaddr.toNat d) (BitVec.ofNat 64 q ||| 0x7), bitset⟩)
    hq (fun i hi => (hloop i hi).symm ▸ hlinks) (show n ≤ 3 by omega)
  have hdescend : descend P.base vaddr 3 s pgt =
      (⟨write64 s.mem (p + 8 * pathIndex vaddr.toNat d) (BitVec.ofNat 64 q ||| 0x7), bitset⟩,
        BitVec.ofNat 64 q) := by
    rw [hway, descend, henter]
    exact hstay
  have hdescendLog : descendLog P.base vaddr 3 s pgt = [.alloc (BitVec.ofNat 64 q),
      .word (p + 8 * pathIndex vaddr.toNat d) (BitVec.ofNat 64 q ||| 0x7)] := by
    rw [hwayLog, descendLog, henter, henterLog]
    dsimp only
    rw [hstayLog]
    rfl
  obtain ⟨hmem, hlog⟩ := mapPage_of_descend paddr hq hdescend
  have hlast : ¬ entry (write64 s.mem (p + 8 * pathIndex vaddr.toNat d)
      (BitVec.ofNat 64 q ||| 0x7)) q (pathIndex vaddr.toNat 3) &&& 1 = 0 := by
    rw [hloop _ (pathIndex_lt _ 3), and_one_eq_zero, hlinks.present]
    decide
  dsimp only at hmem hlog
  rw [if_neg hlast] at hmem hlog
  rw [hdescendLog] at hlog
  exact ⟨hmem, hlog⟩

end

/-! ## The property -/

/-- What `map_page` is for: the page is mapped for the user, the others are as before, and
only tables are written, those of the task and those that the call has allocated. -/
structure Phys.MapsPage (pool : Nat) (s : Phys) (pgt vaddr paddr : Word) : Prop where
  page : ∀ w, pageNumber w = pageNumber vaddr.toNat → ∃ t,
    translate (s.mapPage pool pgt vaddr paddr).mem pgt w = some t ∧
      t.paddr = paddr.toNat + w % 4096 ∧ t.writable = true ∧ t.user = true
  other : ∀ w, pageNumber w ≠ pageNumber vaddr.toNat →
    translate (s.mapPage pool pgt vaddr paddr).mem pgt w = translate s.mem pgt w
  writes : Confined
    (fun a => (∃ path p, walk (child s.mem) (frame pgt) path = some p ∧ InPage p a) ∨
      ∃ page, .alloc page ∈ s.mapPageLog pool pgt vaddr paddr ∧ InPage page.toNat a)
    (s.mapPageLog pool pgt vaddr paddr)

section

variable {P : PoolRegion} {s : Phys} {pgt vaddr paddr : Word}

/-- The entry of a page that `map_page` writes. -/
theorem links_userPage (haligned : paddr.toNat % 4096 = 0) (hmax : paddr.toNat < 2 ^ 51) :
    Links (paddr ||| 0x7) paddr.toNat ∧ (paddr ||| 0x7).getLsbD 1 = true ∧
      (paddr ||| 0x7).getLsbD 2 = true := by
  have hlinks : Links (BitVec.ofNat 64 paddr.toNat ||| BitVec.ofNat 64 7) paddr.toNat :=
    links_or haligned hmax (by omega) (by decide) (by decide)
  rw [BitVec.ofNat_toNat, BitVec.setWidth_eq] at hlinks
  refine ⟨hlinks, ?_, ?_⟩
  · rw [BitVec.getLsbD_or, show (0x7 : Word).getLsbD 1 = true from rfl, Bool.or_true]
  · rw [BitVec.getLsbD_or, show (0x7 : Word).getLsbD 2 = true from rfl, Bool.or_true]

/-- When the page is mapped already, `map_page` writes its last entry. -/
theorem mapsPage_of_mapped (h : UserTree P s pgt vaddr.toNat) (haligned : paddr.toNat % 4096 = 0)
    (hmax : paddr.toNat < 2 ^ 51) {p : Nat}
    (hp : tableAt s.mem (frame pgt) vaddr.toNat 3 = some p)
    (hpresent : present (entry s.mem p (pathIndex vaddr.toNat 3)) = true) :
    s.MapsPage P.base pgt vaddr paddr := by
  have hroot := frame_aligned pgt
  have hlt := pathIndex_lt vaddr.toNat 3
  obtain ⟨hlinks, hbit1, hbit2⟩ := links_userPage haligned hmax
  obtain ⟨hdescend, hdescendLog⟩ := Phys.descend_of_tableAt P.base h (show 3 + 0 = 3 from rfl) hp
  obtain ⟨hmem, hlog⟩ := Phys.mapPage_of_descend paddr (tableAt_lt (frame_lt _) hp)
    hdescend
  have hcond : ¬ entry s.mem p (pathIndex vaddr.toNat 3) &&& 1 = 0 := by
    rw [and_one_eq_zero, hpresent]
    decide
  rw [if_neg hcond] at hmem hlog
  refine ⟨fun w hw => ?_, fun w hw => ?_,
    fun act hact x hx => .inl ⟨indices vaddr.toNat 3, p, hp, ?_⟩⟩
  · rw [hmem]
    obtain ⟨t, ht, -, hpaddr, hrights⟩ :=
      translate_write_self h.unshared hroot hp hlinks.present hw
    obtain ⟨hwritable, huser⟩ := hrights (h.userPath hp)
    exact ⟨t, ht, by rw [hpaddr, hlinks.frame], hwritable.trans hbit1, huser.trans hbit2⟩
  · rw [hmem]
    exact translate_write h.unshared hroot hp hw
  · rw [hlog, hdescendLog] at hact
    obtain rfl := List.mem_singleton.mp hact
    unfold InPage
    have hx' : p + 8 * pathIndex vaddr.toNat 3 ≤ x ∧ x < p + 8 * pathIndex vaddr.toNat 3 + 8 := hx
    omega

/-- When the last entry is empty `map_page` clears page 0. -/
theorem not_mapsPage_of_empty (paddr : Word) (h : UserTree P s pgt vaddr.toNat) {p : Nat}
    (hp : tableAt s.mem (frame pgt) vaddr.toNat 3 = some p)
    (hempty : entry s.mem p (pathIndex vaddr.toNat 3) = 0) :
    AllocsSucceed (s.mapPageLog P.base pgt vaddr paddr) ∧ ¬ s.MapsPage P.base pgt vaddr paddr := by
  obtain ⟨hdescend, hdescendLog⟩ := Phys.descend_of_tableAt P.base h (show 3 + 0 = 3 from rfl) hp
  obtain ⟨-, hlog⟩ := Phys.mapPage_of_descend paddr (tableAt_lt (frame_lt _) hp) hdescend
  rw [hempty, if_pos (by decide), hdescendLog] at hlog
  have hlog' : s.mapPageLog P.base pgt vaddr paddr =
      [.fill 0 0 PAGE_SIZE, .word (p + 8 * pathIndex vaddr.toNat 3) (paddr ||| 0x7)] := hlog
  refine ⟨?_, fun hmaps => ?_⟩
  · unfold AllocsSucceed
    rw [hlog']
    simp
  · have hwrites := hmaps.writes
    rw [hlog'] at hwrites
    rcases hwrites _ List.mem_cons_self 0 ⟨Nat.le_refl 0, by decide⟩ with
      ⟨path, q, hq, hpage⟩ | ⟨page, hpage, -⟩
    · have hlt := (h.page path q hq).1.lt
      unfold InPage at hpage
      omega
    · simp at hpage

/-- A free page that leads back to itself, as the table that is missing, maps other pages. -/
theorem not_mapsPage_of_missing (h : UserTree P s pgt vaddr.toNat)
    (hfree : Bitset.free s.bitset ≠ 0) {d p : Nat} (hd : d < 3)
    (hp : tableAt s.mem (frame pgt) vaddr.toNat d = some p)
    (hempty : present (entry s.mem p (pathIndex vaddr.toNat d)) = false) :
    ∃ mem : Mem, (∀ a, ¬ P.Free s.bitset a → mem a = s.mem a) ∧
      AllocsSucceed (Phys.mapPageLog P.base { s with mem } pgt vaddr paddr) ∧
        ¬ Phys.MapsPage P.base { s with mem } pgt vaddr paddr := by
  rcases P.alloc_cases h.words with ⟨bitset, q, halloc, htake⟩ | ⟨hnone, -⟩
  swap
  · exact absurd hnone hfree
  have hqmod := htake.page.aligned
  have hqlt := htake.page.lt
  have hlinks : Links (BitVec.ofNat 64 q ||| 0x7) q :=
    links_or hqmod (by omega) (show 7 < 2048 by omega) (by decide) (by decide)
  have hloop := h.inUse.freeLoop (frame_aligned pgt) h.unshared htake.page htake.unallocated hd hp
    hempty hlinks
  obtain ⟨hafter, hlog⟩ := Phys.mapPage_of_loop paddr (h.congr hloop.outside) hd hloop.table
    hloop.absent halloc (by omega) hlinks hloop.loops
  refine ⟨_, hloop.outside, ?_, fun hmaps => ?_⟩
  · unfold AllocsSucceed
    rw [hlog]
    intro hin
    simp only [List.mem_cons, List.not_mem_nil, or_false, Action.alloc.injEq, reduceCtorEq] at hin
    exact htake.page.ofNat_ne_zero hin.symm
  · obtain ⟨v, -, hlast, hbefore, t, ht⟩ := hloop.mapped (paddr ||| 0x7)
    have hother := hmaps.other v fun heq => hlast (pageNumber_eq_iff.mp heq 3 (by omega))
    rw [hafter] at hother
    cases ht.symm.trans (hother.trans hbefore)

/-- `map_page` is right for whatever the free pages hold exactly if the address is mapped
already, or a table is missing and no page is free, so that the allocation fails. -/
theorem mapPage_user_iff (h : UserTree P s pgt vaddr.toNat) (haligned : paddr.toNat % 4096 = 0)
    (hmax : paddr.toNat < 2 ^ 51) :
    (∀ mem : Mem, (∀ a, ¬ P.Free s.bitset a → mem a = s.mem a) →
      AllocsSucceed (Phys.mapPageLog P.base { s with mem } pgt vaddr paddr) →
        Phys.MapsPage P.base { s with mem } pgt vaddr paddr) ↔
      (∃ t, translate s.mem pgt vaddr.toNat = some t) ∨
        tableAt s.mem (frame pgt) vaddr.toNat 3 = none ∧ Bitset.free s.bitset = 0 := by
  constructor
  · intro hall
    rcases h.cases with ⟨p, hp⟩ | ⟨d, p, hd, hp, hempty⟩
    · rcases h.last p hp with hempty | hpresent
      · obtain ⟨hallocs, hnot⟩ := not_mapsPage_of_empty paddr h hp hempty
        exact absurd (hall s.mem (fun _ _ => rfl) hallocs) hnot
      · obtain ⟨t, ht, -⟩ := translate_eq hp hpresent
        exact .inl ⟨t, ht⟩
    · refine .inr ⟨tableAt_of_missing hp hempty hd, ?_⟩
      by_contra hfree
      obtain ⟨mem, hmem, hallocs, hnot⟩ := not_mapsPage_of_missing h hfree hd hp hempty
      exact hnot (hall mem hmem hallocs)
  · intro hor mem hmem hallocs
    have h' := h.congr hmem
    have hsame := h.inUse.sameTables (frame_aligned pgt) hmem
    rcases h.cases with ⟨p, hp⟩ | ⟨d, p, hd, hp, hempty⟩
    · have hp' := (hsame.tableAt vaddr.toNat 3).trans hp
      have hpresent : present (entry s.mem p (pathIndex vaddr.toNat 3)) = true := by
        by_contra habsent
        rw [Bool.not_eq_true] at habsent
        rcases hor with ⟨t, ht⟩ | ⟨hnone, -⟩
        · cases (translate_eq_none hp habsent).symm.trans ht
        · cases hp.symm.trans hnone
      apply mapsPage_of_mapped h' haligned hmax hp'
      rw [hsame.agreeOn _ 4 3 p (by omega) hp]
      exact hpresent
    · exfalso
      rcases hor with ⟨t, ht⟩ | ⟨-, hfull⟩
      · cases (translate_eq_none hp hempty).symm.trans ht
      · obtain ⟨n, hn⟩ : ∃ n, d + (n + 1) = 3 := ⟨2 - d, by omega⟩
        have hp' := (hsame.tableAt vaddr.toNat d).trans hp
        have hempty' : present (entry mem p (pathIndex vaddr.toNat d)) = false := by
          rw [hsame.agreeOn _ 4 d p (by omega) hp]
          exact hempty
        obtain ⟨-, hway⟩ := Phys.descend_of_tableAt P.base h' hn hp'
        obtain ⟨-, hmissing⟩ := Phys.enterTable_of_missing P.base vaddr
          (s := { s with mem }) (show d + (n + 2) = 4 by omega) (by omega)
          (tableAt_lt (frame_lt _) hp) hempty'
        have hnew : (Phys.alloc P.base { s with mem }).2 = 0 :=
          congrArg Prod.snd (alloc_of_full (s := { s with mem }) hfull)
        refine hallocs (List.mem_append_left _ ?_)
        rw [hway, Phys.descendLog, hmissing, hnew]
        exact List.mem_cons_self

end

/-- A task without mapped pages, in a pool of zero pages. -/
def emptyTree : Phys := ⟨fun _ => 0, [1]⟩

theorem emptyTree_walk {path : List Nat} {p : Nat}
    (hp : walk (child emptyTree.mem) (frame 0x180000) path = some p) :
    path = [] ∧ p = 0x180000 := by
  have hroot : frame 0x180000 = 0x180000 := by decide
  rw [hroot] at hp
  exact walk_of_empty (fun _ hi => entry_zero (fun _ _ _ => rfl) hi) hp

theorem emptyTree_user (v : Nat) : UserTree lowPool emptyTree 0x180000 v := by
  have habsent : ∀ {d p}, tableAt emptyTree.mem (frame 0x180000) v d = some p →
      d = 0 ∧ present (entry emptyTree.mem p (pathIndex v d)) = false := by
    intro d p hp
    obtain ⟨hpath, -⟩ := emptyTree_walk hp
    have hlen := congrArg List.length hpath
    rw [length_indices] at hlen
    have hzero : entry emptyTree.mem p (pathIndex v d) = 0 :=
      entry_zero (fun _ _ _ => rfl) (pathIndex_lt v d)
    exact ⟨hlen, by rw [hzero]; rfl⟩
  refine ⟨rfl, by decide, unshared_of_empty fun _ hi => entry_zero (fun _ _ _ => rfl) hi,
    fun path p hp => ?_, fun d p _ hp hpresent => ?_, fun d p _ hp hpresent => ?_, fun p hp => ?_⟩
  · obtain ⟨-, rfl⟩ := emptyTree_walk hp
    decide
  · cases (habsent hp).2.symm.trans hpresent
  · cases (habsent hp).2.symm.trans hpresent
  · cases (habsent hp).1

/-- The first page of a task: page 0 is cleared. -/
theorem not_mapsPage_empty :
    UserTree lowPool emptyTree 0x180000 0x40000000 ∧
      AllocsSucceed (emptyTree.mapPageLog lowPool.base 0x180000 0x40000000 0x190000) ∧
        ¬ emptyTree.MapsPage lowPool.base 0x180000 0x40000000 0x190000 := by
  have hlog : emptyTree.mapPageLog lowPool.base 0x180000 0x40000000 0x190000 =
      [.alloc 0x181000, .word 0x180000 0x181007, .alloc 0x182000, .word 0x181008 0x182007,
        .alloc 0x183000, .word 0x182000 0x183007, .fill 0 0 4096, .word 0x183000 0x190007] := by
    decide +kernel
  refine ⟨emptyTree_user 0x40000000, ?_, fun hmaps => ?_⟩
  · rw [hlog]
    decide
  · have hwrites := hmaps.writes
    rw [hlog] at hwrites
    rcases hwrites (.fill 0 0 4096) (by decide) 0 ⟨Nat.le_refl 0, by decide⟩ with
      ⟨path, p, hp, hpage⟩ | ⟨page, hpage, hin⟩
    · obtain ⟨-, rfl⟩ := emptyTree_walk hp
      exact absurd hpage.1 (by decide)
    · have hzero : page.toNat = 0 := Nat.le_zero.mp hin.1
      obtain rfl : page = 0 := BitVec.eq_of_toNat_eq hzero
      revert hpage
      decide

theorem mapPage_user_iff_empty :
    (∀ mem : Mem, (∀ a, ¬ lowPool.Free emptyTree.bitset a → mem a = emptyTree.mem a) →
      AllocsSucceed (Phys.mapPageLog lowPool.base { emptyTree with mem } 0x180000 0x40000000
        0x190000) →
        Phys.MapsPage lowPool.base { emptyTree with mem } 0x180000 0x40000000 0x190000) ↔
      (∃ t, translate emptyTree.mem 0x180000 0x40000000 = some t) ∨
        tableAt emptyTree.mem (frame 0x180000) 0x40000000 3 = none ∧
          Bitset.free emptyTree.bitset = 0 :=
  mapPage_user_iff (emptyTree_user 0x40000000) (by decide) (by decide)

end KernelMemVirt.Rackdoll
