import KernelMemVirt.Janus.GuestMap
import KernelMemVirt.Lib.PagedSpace
import KernelMemVirt.Lib.TranslationCache

/-!
# The address space of the guest

What the program of the guest has of its memory: the pages that it maps, at the frames that
it holds.  `held` has the frames that `alloc_page` has returned to the program and that it
has not given back; the other pages that are allocated are page tables.

* `GuestTables` is the invariant of the tables.  `GuestTables.addTable` and
  `GuestTables.setLeaf` are the two kinds of writes to them.
* `frameOf` and `dataOf` are what the program has.  A new table changes neither of them, and
  a last entry moves one page.
* `GuestTables.mapPage` and `GuestTables.unmapPage` are the functions.  `map_page` makes tables
  of the pages that it takes as they are: `CleanTables` is the condition that they have no
  entry that is present.
-/

namespace KernelMemVirt.Janus.Guest

open ByteMem OwnerTree
open Rackdoll

namespace Machine

/-! ## The tables -/

/-- The tree of the guest. -/
def roots (s : Machine) (t : Nat) : Option Nat := if t = 0 then some (frame s.cr3) else none

/-- The address that the source takes from an entry is a physical one. -/
def PhysicalEntry (e : Word) : Prop := (e &&& PTE_ADDR).toNat < 2 ^ 52

/-- The directory that has the huge page of the kernel. -/
def HugeEntry (role : Nat → PageRole) (p d i : Nat) : Prop := d = 2 ∧ i = 0 ∧ At role 0 0 2 p

/-- The tables of the guest are apart from the frames that the program holds. -/
structure GuestTables (P : PoolRegion) (s : Machine) (held : List Nat)
    (role : Nat → PageRole) : Prop where
  words : s.bitset.length = BITSET_SIZE
  cr3 : PhysicalEntry s.cr3
  owned : Owned (child s.mem) s.roots role
  aligned : ∀ p, role p ≠ .free → p % 4096 = 0
  inUse : ∀ p, role p ≠ .free → P.IsPage p → P.allocated s.bitset p = true
  apart : ∀ p, role p ≠ .free → p ∉ held
  physical : ∀ p d i, (role p).depth = some d → i < 512 → present (entry s.mem p i) = true →
    PhysicalEntry (entry s.mem p i)
  small : ∀ p d i, (role p).depth = some d → 0 < d → d < 3 → i < 512 →
    present (entry s.mem p i) = true → huge (entry s.mem p i) = true → HugeEntry role p d i
  held : ∀ q ∈ held, P.IsPage q ∧ P.allocated s.bitset q = true

variable {P : PoolRegion} {s s' : Machine} {held : List Nat} {role : Nat → PageRole}
  {v d p q i : Nat} {e : Word}

/-- The tables translate each address as before. -/
def SameTranslations (s s' : Machine) : Prop :=
  s'.cr3 = s.cr3 ∧ ∀ v, translate s'.mem s'.cr3 v = translate s.mem s.cr3 v

theorem SameTranslations.refl (s : Machine) : SameTranslations s s := ⟨rfl, fun _ => rfl⟩

theorem SameTranslations.trans {s'' : Machine} (h : SameTranslations s s')
    (h' : SameTranslations s' s'') : SameTranslations s s'' :=
  ⟨h'.1.trans h.1, fun v => (h'.2 v).trans (h.2 v)⟩

namespace GuestTables

/-- The way of an address goes through tables with their roles. -/
theorem at_of_tableAt (h : GuestTables P s held role) :
    ∀ {d p : Nat}, tableAt s.mem (frame s.cr3) v d = some p → At role 0 v d p := by
  intro d
  induction d with
  | zero =>
    intro p hp
    exact h.owned.root 0 p hp
  | succ d ih =>
    intro q hq
    obtain ⟨p, hp, hchild⟩ := tableAt_succ_eq_some hq
    exact ⟨p, ih hp, h.owned.entry d p _ q (ih hp).depth hchild⟩

theorem unshared (h : GuestTables P s held role) : UnsharedTables s.mem (frame s.cr3) :=
  h.owned.unshared (show s.roots 0 = some (frame s.cr3) from rfl)

theorem physicalPath (h : GuestTables P s held role) (v : Nat) : s.PhysicalPath v where
  cr3 := h.cr3
  table _ _ _ hp hpresent := h.physical _ _ _ (h.at_of_tableAt hp).depth (pathIndex_lt v _) hpresent

/-- Only the first 2 MiB are in the huge page. -/
theorem smallPath (h : GuestTables P s held role) (hv : ¬ LowAddress v) : s.SmallPath v := by
  intro d p hpos hd hp hpresent
  have hat := h.at_of_tableAt hp
  by_contra hhuge
  rw [Bool.not_eq_false] at hhuge
  obtain ⟨rfl, hindex, hlow⟩ := h.small p d _ hat.depth hpos hd (pathIndex_lt v d) hpresent hhuge
  obtain ⟨-, -, hsame⟩ := hat.unique hlow
  refine hv ((lowAddress_iff v).mpr ⟨(hsame 0 (by omega)).trans ?_, (hsame 1 (by omega)).trans ?_,
    hindex⟩)
  · decide
  · decide

/-- A table is no frame of the program. -/
theorem not_inPage_table (h : GuestTables P s held role) (hp : role p ≠ .free) (hq : q ∈ held)
    {a : Nat} (ha : InPage q a) : ¬ InPage p a :=
  not_inPage (h.aligned p hp) (h.held q hq).1.aligned
    (fun heq => h.apart p hp (heq ▸ hq)) ha

/-- Memory apart from the tables may change, and the bits of the pages without a use. -/
theorem of_agree (h : GuestTables P s held role) {held' : List Nat}
    (hwords : s'.bitset.length = BITSET_SIZE) (hcr3 : s'.cr3 = s.cr3)
    (hmem : ∀ p, role p ≠ .free → ∀ a, p ≤ a → a < p + 4096 → s'.mem a = s.mem a)
    (hinUse : ∀ p, role p ≠ .free → P.IsPage p → P.allocated s'.bitset p = true)
    (hapart : ∀ p, role p ≠ .free → p ∉ held')
    (hheld : ∀ q ∈ held', P.IsPage q ∧ P.allocated s'.bitset q = true) :
    GuestTables P s' held' role ∧ SameTranslations s s' := by
  have hentry : ∀ {p i}, role p ≠ .free → i < 512 → entry s'.mem p i = entry s.mem p i :=
    fun hp hi => entry_congr (hmem _ hp) hi
  have hroots : s'.roots = s.roots := by
    unfold roots
    rw [hcr3]
  refine ⟨⟨hwords, hcr3 ▸ h.cr3, ?_, h.aligned, hinUse, hapart, fun p d i hd hi => ?_,
    fun p d i hd hpos hlt hi => ?_, hheld⟩, hcr3, fun v => ?_⟩
  · rw [hroots]
    refine h.owned.mono fun d p i x hd hx => ?_
    obtain ⟨hi, -⟩ := child_eq_some hx
    rwa [child_congr (hentry (ne_free_of_depth hd) hi)] at hx
  · rw [hentry (ne_free_of_depth hd) hi]
    exact h.physical p d i hd hi
  · rw [hentry (ne_free_of_depth hd) hi]
    exact h.small p d i hd hpos hlt hi
  · unfold Rackdoll.translate
    rw [hcr3]
    refine walkFrom_congr fun d p _ hp => ?_
    exact hentry (h.at_of_tableAt hp).ne_free (pathIndex_lt v d)

/-- A page that `alloc_page` takes is neither a table nor held. -/
theorem unused (h : GuestTables P s held role) {bitset : List Word}
    (htake : P.Takes s.bitset bitset q) : role q = .free ∧ q ∉ held := by
  constructor
  · by_contra huse
    exact absurd ((h.inUse q huse htake.page).symm.trans htake.unallocated) (by decide)
  · intro hin
    exact absurd ((h.held q hin).2.symm.trans htake.unallocated) (by decide)

end GuestTables

/-! ## A new table -/

/-- The missing table of `v` becomes the page `q`. -/
def withTable (s : Machine) (bitset : List Word) (v d p q : Nat) : Machine :=
  { s with
    bitset
    mem := write64 s.mem (p + 8 * pathIndex v d) (BitVec.ofNat 64 q ||| PTE_UWP) }

/-- The page has no entry that is present. -/
def CleanPage (mem : Mem) (q : Nat) : Prop := ∀ i, i < 512 → present (entry mem q i) = false

instance (mem : Mem) (q : Nat) : Decidable (CleanPage mem q) :=
  Nat.decidableBallLT 512 fun i _ => present (entry mem q i) = false

/-- The entry that leads to the table `q`. -/
theorem links_table (hq : P.IsPage q) : Links (BitVec.ofNat 64 q ||| PTE_UWP) q :=
  have hlt := hq.lt
  links_or hq.aligned (by omega) (show 7 < 2048 by omega) (by decide) (by decide)

theorem physical_page (hq : P.IsPage q) : PhysicalEntry (BitVec.ofNat 64 q ||| PTE_UWP) := by
  have hlt := hq.lt
  have hnat := hq.toNat_ofNat
  obtain ⟨hpte, -, -, -, haddr⟩ :=
    pteUWP (BitVec.ofNat 64 q) (by rw [hnat]; exact hq.aligned) (by omega)
  rw [hpte] at haddr
  unfold PhysicalEntry
  rw [haddr]
  omega

/-- The table of `v` at depth `d + 1` is missing, and `alloc_page` takes the page `q`. -/
structure NewTable (P : PoolRegion) (s : Machine) (bitset : List Word) (v d p q : Nat) :
    Prop where
  path : tableAt s.mem (frame s.cr3) v d = some p
  depth : d < 3
  missing : present (entry s.mem p (pathIndex v d)) = false
  takes : P.Takes s.bitset bitset q
  clean : CleanPage s.mem q

section

variable {bitset : List Word} (h : GuestTables P s held role)
  (hnew : NewTable P s bitset v d p q)
include h hnew

/-- The entries with the new table. -/
theorem GuestTables.entry_withTable {x j : Nat} (hx : x % 4096 = 0) (hj : j < 512) :
    entry (withTable s bitset v d p q).mem x j =
      if x = p ∧ j = pathIndex v d then BitVec.ofNat 64 q ||| PTE_UWP else entry s.mem x j :=
  entry_write64 (h.aligned p (h.at_of_tableAt hnew.path).ne_free) hx (pathIndex_lt v d) hj

/-- The new table is empty. -/
theorem GuestTables.clean_withTable {j : Nat} (hj : j < 512) :
    present (entry (withTable s bitset v d p q).mem q j) = false := by
  obtain ⟨hfree, -⟩ := h.unused hnew.takes
  rw [h.entry_withTable hnew hnew.takes.page.aligned hj, if_neg]
  · exact hnew.clean j hj
  · intro heq
    exact (h.at_of_tableAt hnew.path).ne_free (heq.1 ▸ hfree)

/-- The tree with the new table. -/
theorem GuestTables.addTable :
    GuestTables P (withTable s bitset v d p q) held
      (Function.update role q (.entry d p (pathIndex v d))) := by
  have hat := h.at_of_tableAt hnew.path
  have hlinks := links_table hnew.takes.page
  obtain ⟨hfree, hout⟩ := h.unused hnew.takes
  have hentry := fun {x j : Nat} =>
    h.entry_withTable hnew (x := x) (j := j)
  have hempty := fun {j : Nat} => h.clean_withTable hnew (j := j)
  have hused : ∀ {x}, Function.update role q (.entry d p (pathIndex v d)) x ≠ .free →
      x = q ∨ role x ≠ .free := by
    intro x hx
    by_cases hxq : x = q
    · exact .inl hxq
    · rw [Function.update_of_ne hxq] at hx
      exact .inr hx
  refine ⟨hnew.takes.words, h.cr3, ?_, fun x hx => ?_, fun x hx hpage => ?_, fun x hx => ?_,
    fun x k j hk hj hpresent => ?_, fun x k j hk hpos hlt hj hpresent hhuge => ?_, fun x hx => ?_⟩
  · refine h.owned.attach hat.depth hfree (fun x hx => ?_) (fun j => ?_) fun k x j y hk hne hy => ?_
    · obtain ⟨-, -, -, -, hframe⟩ := child_eq_some hx
      rw [hentry (h.aligned p hat.ne_free) (pathIndex_lt v d), if_pos ⟨rfl, rfl⟩] at hframe
      exact hframe.symm.trans hlinks.frame
    · refine if_neg fun hcond => ?_
      exact absurd (hcond.2.2.1.symm.trans (hempty hcond.1)) (by decide)
    · obtain ⟨hj, -⟩ := child_eq_some hy
      have hsame : entry (withTable s bitset v d p q).mem x j = entry s.mem x j := by
        rw [hentry (h.aligned x (ne_free_of_depth hk)) hj, if_neg]
        exact fun heq => hne.elim (fun hne => hne heq.1) fun hne => hne heq.2
      rwa [child_congr hsame] at hy
  · rcases hused hx with rfl | hx
    · exact hnew.takes.page.aligned
    · exact h.aligned x hx
  · rcases hused hx with rfl | hx
    · exact hnew.takes.allocated hpage (.inl rfl)
    · exact hnew.takes.allocated hpage (.inr (h.inUse x hx hpage))
  · rcases hused hx with rfl | hx
    · exact hout
    · exact h.apart x hx
  · by_cases hxq : x = q
    · subst hxq
      exact absurd (hpresent.symm.trans (hempty hj)) (by decide)
    · rw [Function.update_of_ne hxq] at hk
      rw [hentry (h.aligned x (ne_free_of_depth hk)) hj] at hpresent ⊢
      split
      · exact physical_page hnew.takes.page
      · next hne =>
        rw [if_neg hne] at hpresent
        exact h.physical x k j hk hj hpresent
  · by_cases hxq : x = q
    · subst hxq
      exact absurd (hpresent.symm.trans (hempty hj)) (by decide)
    · rw [Function.update_of_ne hxq] at hk
      rw [hentry (h.aligned x (ne_free_of_depth hk)) hj] at hpresent hhuge
      split at hhuge
      · exact absurd (hhuge.symm.trans hlinks.huge) (by decide)
      · next hne =>
        rw [if_neg hne] at hpresent
        obtain ⟨hk2, hj0, hlow⟩ := h.small x k j hk hpos hlt hj hpresent hhuge
        exact ⟨hk2, hj0, hlow.mono (keep_of_free hfree)⟩
  · exact ⟨(h.held x hx).1, hnew.takes.allocated (h.held x hx).1 (.inr (h.held x hx).2)⟩

/-- The new table is on the way of the address. -/
theorem GuestTables.tableAt_withTable :
    tableAt (withTable s bitset v d p q).mem (frame s.cr3) v (d + 1) = some q := by
  have hlinks := links_table hnew.takes.page
  have hsame : tableAt (withTable s bitset v d p q).mem (frame s.cr3) v d = some p :=
    (tableAt_write h.unshared (root_aligned s) hnew.path (Nat.le_refl d)).trans hnew.path
  have hentry := h.entry_withTable hnew
    (h.aligned p (h.at_of_tableAt hnew.path).ne_free) (pathIndex_lt v d)
  rw [if_pos ⟨rfl, rfl⟩] at hentry
  rw [tableAt_succ, hsame, Option.bind_some,
    child_of_present hnew.depth (hentry ▸ hlinks.present) (.inr (hentry ▸ hlinks.huge)), hentry,
    hlinks.frame]

/-- An empty table changes no translation. -/
theorem GuestTables.same_withTable : SameTranslations s (withTable s bitset v d p q) := by
  refine ⟨rfl, fun v' => ?_⟩
  show walkFrom (withTable s bitset v d p q).mem v' 4 (frame s.cr3) =
    walkFrom s.mem v' 4 (frame s.cr3)
  by_cases hway : ∃ k, tableAt s.mem (frame s.cr3) v' k = some p ∧ pathIndex v' k = pathIndex v d
  · obtain ⟨k, hk, hindex⟩ := hway
    obtain ⟨rfl, hsame⟩ := tableAt_unique h.unshared hnew.path hk
    have hpath : indices v' (d + 1) = indices v (d + 1) :=
      indices_eq_iff.mpr fun j hj => by
        by_cases hjd : j = d
        · rw [hjd, hindex]
        · exact (hsame j (by omega)).symm
    have hnext : tableAt (withTable s bitset v d p q).mem (frame s.cr3) v' (d + 1) = some q := by
      unfold tableAt
      rw [hpath]
      exact h.tableAt_withTable hnew
    rw [Rackdoll.translate_eq_none hk (hindex ▸ hnew.missing), Rackdoll.translate_eq_none hnext
      (h.clean_withTable hnew (pathIndex_lt v' _))]
  · refine walkFrom_congr (agreeOn_write (root_aligned s)
      (h.aligned p (h.at_of_tableAt hnew.path).ne_free) (pathIndex_lt v d) ?_)
    exact fun k _ hk hindex => hway ⟨k, hk, hindex⟩

end

/-! ## A last entry -/

/-- The memory with a new last entry. -/
def withLeaf (s : Machine) (v p : Nat) (e : Word) : Machine :=
  { s with mem := write64 s.mem (p + 8 * pathIndex v 3) e }

theorem GuestTables.setLeaf (h : GuestTables P s held role)
    (hp : tableAt s.mem (frame s.cr3) v 3 = some p) (he : present e = true → PhysicalEntry e) :
    GuestTables P (withLeaf s v p e) held role := by
  have hat := h.at_of_tableAt hp
  have hentry : ∀ {x k j}, (role x).depth = some k → j < 512 → entry (withLeaf s v p e).mem x j =
      if x = p ∧ j = pathIndex v 3 then e else entry s.mem x j := fun hk hj =>
    entry_write64 (h.aligned p hat.ne_free) (h.aligned _ (ne_free_of_depth hk)) (pathIndex_lt v 3)
      hj
  have habove : ∀ {x k j}, (role x).depth = some k → k < 3 → j < 512 →
      entry (withLeaf s v p e).mem x j = entry s.mem x j := by
    intro x k j hk hlt hj
    rw [hentry hk hj, if_neg]
    rintro ⟨rfl, -⟩
    have := Option.some.inj (hk.symm.trans hat.depth)
    omega
  refine ⟨h.words, h.cr3, h.owned.mono fun d x j y hd hy => ?_, h.aligned, h.inUse, h.apart,
    fun x k j hk hj hpresent => ?_, fun x k j hk hpos hlt hj => ?_, h.held⟩
  · obtain ⟨hj, hlt, -⟩ := child_eq_some hy
    rwa [child_congr (habove hd hlt hj)] at hy
  · rw [hentry hk hj] at hpresent ⊢
    split
    · next heq =>
      rw [if_pos heq] at hpresent
      exact he hpresent
    · next hne =>
      rw [if_neg hne] at hpresent
      exact h.physical x k j hk hj hpresent
  · rw [habove hk hlt hj]
    exact h.small x k j hk hpos hlt hj

/-! ## What the program has -/

/-- The translation of a page by the tables. -/
def walk (s : Machine) (page : Nat) : Option Cached :=
  if page < 2 ^ 36 then
    (translate s.mem s.cr3 (page * 4096)).map fun t => ⟨t.paddr / 4096, t.leaf, false⟩
  else none

/-- The frame of a page of the program, which has the addresses from 2 MiB on. -/
def frameOf (s : Machine) (page : Nat) : Option Nat :=
  if 0x200 ≤ page then (s.walk page).map fun c => c.frame * 4096 else none

/-- What a frame holds that the program has. -/
def dataOf (s : Machine) (held : List Nat) (f : Nat) : Option (Fin 4096 → BitVec 8) :=
  if f ∈ held then some fun o => s.mem (f + o) else none

/-- An access uses the translation of its page. -/
theorem lookup_eq (s : Machine) (vaddr : Word) :
    s.lookup vaddr = TranslationCache.lookup s.tlb s.walk (pageOf vaddr) := by
  have hpage : pageOf vaddr < 2 ^ 36 := by
    unfold pageOf
    omega
  unfold lookup TranslationCache.lookup walk
  rw [if_pos hpage, translate_page]
  cases s.tlb (pageOf vaddr) with
  | some c => rfl
  | none =>
    rw [Option.none_or, Option.map_map]
    refine Option.map_congr fun t ht => ?_
    have hoffset := walkFrom_offset s.mem _ (Nat.le_refl 4) ht
    have hframe : (t.paddr + vaddr.toNat % 4096) / 4096 = t.paddr / 4096 := by omega
    show (⟨(t.paddr + vaddr.toNat % 4096) / 4096, t.leaf, false⟩ : Cached) = _
    rw [hframe]

theorem SameTranslations.walk (h : SameTranslations s s') : s'.walk = s.walk := by
  funext page
  unfold Machine.walk
  rw [h.2]

theorem frameOf_congr (h : s'.walk = s.walk) : s'.frameOf = s.frameOf := by
  funext page
  unfold frameOf
  rw [h]

/-- One page of the program has another translation. -/
theorem frameOf_update {page : Nat} {c : Option Cached} (hpage : 0x200 ≤ page)
    (h : s'.walk = Function.update s.walk page c) :
    s'.frameOf = Function.update s.frameOf page (c.map fun c => c.frame * 4096) := by
  funext k
  unfold frameOf
  by_cases hk : k = page
  · rw [hk, h, Function.update_self, Function.update_self, if_pos hpage]
  · rw [h, Function.update_of_ne hk, Function.update_of_ne hk]

/-- The pages from 2 MiB on. -/
theorem not_lowAddress_iff (vaddr : Word) :
    ¬ LowAddress vaddr.toNat ↔ 0x200 ≤ pageOf vaddr := by
  unfold LowAddress pageOf
  omega

/-- The entry of a page of the program. -/
theorem GuestTables.leaf (h : GuestTables P s held role) (hv : ¬ LowAddress v) {t : Translation}
    (ht : translate s.mem s.cr3 v = some t) :
    ∃ p, tableAt s.mem (frame s.cr3) v 3 = some p ∧
      present (entry s.mem p (pathIndex v 3)) = true ∧ t.leaf = entry s.mem p (pathIndex v 3) ∧
      t.paddr = frame t.leaf + v % 4096 ∧ t.leaf &&& PTE_ADDR = BitVec.ofNat 64 (frame t.leaf) := by
  rcases (h.smallPath hv).cases with ⟨p, hp⟩ | ⟨d, p, hd, hp, hempty⟩
  · by_cases hpresent : present (entry s.mem p (pathIndex v 3)) = true
    · obtain ⟨t', ht', hleaf, hpaddr, -⟩ := translate_eq hp hpresent
      obtain rfl : t' = t := Option.some.inj (ht'.symm.trans ht)
      have hphysical := h.physical p 3 _ (h.at_of_tableAt hp).depth (pathIndex_lt v 3) hpresent
      refine ⟨p, hp, hpresent, hleaf, by rw [hpaddr, hleaf], ?_⟩
      rw [hleaf]
      exact pteAddr_eq hphysical
    · rw [Bool.not_eq_true] at hpresent
      cases ht.symm.trans (Rackdoll.translate_eq_none hp hpresent)
  · cases ht.symm.trans (Rackdoll.translate_eq_none hp hempty)

/-! ## `map_page` -/

/-- Each page that becomes a table is there, and has no entry that is present. -/
def CleanTables (pool : Nat) (vaddr : Word) : Nat → Machine → Word → Prop
  | 0, _, _ => True
  | lvl + 1, s, pgt =>
    let p := entryAddr pgt vaddr (lvl + 1)
    if read64 s.mem p &&& 1 = 0 then
      let (s, new) := s.alloc pool
      new ≠ 0 ∧ CleanPage s.mem new.toNat ∧
        CleanTables pool vaddr lvl
          { s with mem := write64 s.mem p ((new &&& PTE_ADDR) ||| PTE_UWP) } new
    else CleanTables pool vaddr lvl s (read64 s.mem p &&& PTE_ADDR)

/-- The bytes of the frames that the program holds are as before. -/
def KeepsData (s s' : Machine) (held : List Nat) : Prop :=
  ∀ q ∈ held, ∀ a, InPage q a → s'.mem a = s.mem a

theorem KeepsData.refl (s : Machine) (held : List Nat) : KeepsData s s held := fun _ _ _ _ => rfl

theorem KeepsData.trans {s'' : Machine} (h : KeepsData s s' held) (h' : KeepsData s' s'' held) :
    KeepsData s s'' held := fun q hq a ha => (h' q hq a ha).trans (h q hq a ha)

/-- A write to a table is in no frame of the program. -/
theorem GuestTables.keepsData (h : GuestTables P s held role) (hp : role p ≠ .free)
    (hi : i < 512) (hmem : s'.mem = write64 s.mem (p + 8 * i) e) : KeepsData s s' held := by
  intro q hq a ha
  have hpmod := h.aligned p hp
  have hout := h.not_inPage_table hp hq ha
  unfold InPage at hout
  rw [hmem]
  exact writeBytes_apply_of_outside (by omega)

/-- The loop of `map_page` finds the last table, and the program sees no change. -/
theorem GuestTables.descend {vaddr : Word} : ∀ {lvl d p : Nat} {s : Machine}
    {role : Nat → PageRole}, d + lvl = 3 → GuestTables P s held role →
      tableAt s.mem (frame s.cr3) vaddr.toNat d = some p → ¬ LowAddress vaddr.toNat →
      CleanTables P.base vaddr lvl s (BitVec.ofNat 64 p) →
      ∃ s' role' q, descend P.base vaddr lvl s (BitVec.ofNat 64 p) = (s', BitVec.ofNat 64 q) ∧
        GuestTables P s' held role' ∧ SameTranslations s s' ∧ KeepsData s s' held ∧
          tableAt s'.mem (frame s'.cr3) vaddr.toNat 3 = some q := by
  intro lvl
  induction lvl with
  | zero =>
    intro d p s role hd h hp _ _
    obtain rfl : d = 3 := hd
    exact ⟨s, role, p, rfl, h, .refl s, .refl s held, hp⟩
  | succ lvl ih =>
    intro d p s role hd h hp hv hclean
    have hslot := entryAddr_eq vaddr (tableAt_lt hp) hd
    unfold CleanTables at hclean
    dsimp only at hclean
    by_cases hpresent : present (entry s.mem p (pathIndex vaddr.toNat d)) = true
    · have hcond : ¬ read64 s.mem (entryAddr (BitVec.ofNat 64 p) vaddr (lvl + 1)) &&& 1 = 0 := by
        rw [hslot, and_one_eq_zero]
        exact fun hclear => absurd (hpresent.symm.trans hclear) (by decide)
      have hnext := (h.smallPath hv).next (by omega) hp hpresent
      have haddr : read64 s.mem (entryAddr (BitVec.ofNat 64 p) vaddr (lvl + 1)) &&& PTE_ADDR =
          BitVec.ofNat 64 (frame (entry s.mem p (pathIndex vaddr.toNat d))) := by
        rw [hslot]
        exact pteAddr_eq ((h.physicalPath _).table d p (by omega) hp hpresent)
      rw [if_neg hcond, haddr] at hclean
      rw [(descend_of_present P.base hcond).1, haddr]
      exact ih (by omega) h hnext hv hclean
    · rw [Bool.not_eq_true] at hpresent
      have hcond : read64 s.mem (entryAddr (BitVec.ofNat 64 p) vaddr (lvl + 1)) &&& 1 = 0 := by
        rw [hslot]
        exact (and_one_eq_zero _).mpr hpresent
      rw [if_pos hcond, hslot] at hclean
      rcases hclean with ⟨hsome, hempty, hrest⟩
      rcases P.alloc_cases h.words with ⟨bitset, q, halloc, htake⟩ | ⟨-, hnone⟩
      swap
      · refine absurd ?_ hsome
        unfold alloc
        rw [hnone]
      have hpage : s.alloc P.base = ({ s with bitset }, BitVec.ofNat 64 q) := by
        unfold alloc
        rw [halloc]
      have hqnat := htake.page.toNat_ofNat
      have hqlt := htake.page.lt
      obtain ⟨hpte, -⟩ := pteUWP (BitVec.ofNat 64 q) (by rw [hqnat]; exact htake.page.aligned)
        (by rw [hqnat]; omega)
      rw [hpage] at hempty hrest
      dsimp only at hempty hrest
      rw [hqnat] at hempty
      have hnew : NewTable P s bitset vaddr.toNat d p q := ⟨hp, by omega, hpresent, htake, hempty⟩
      have hstep := (@descend_of_missing s vaddr P.base _ _ _ hd (tableAt_lt hp) hpresent).1
      rw [hpage] at hstep
      dsimp only at hstep
      rw [hpte] at hrest hstep
      obtain ⟨s', role', q', hdesc, htables, hsame, hdata, hlast⟩ := ih (by omega)
        (h.addTable hnew) (h.tableAt_withTable hnew) hv hrest
      refine ⟨s', role', q', hstep.trans hdesc, htables, (h.same_withTable hnew).trans hsame,
        KeepsData.trans ?_ hdata, hlast⟩
      exact h.keepsData (h.at_of_tableAt hp).ne_free (pathIndex_lt vaddr.toNat d) rfl

/-- The entry that `map_page` writes for the frame `f`. -/
def leafOf (f : Nat) : Word := BitVec.ofNat 64 f ||| PTE_UWP

/-- The addresses of the pages below 2 ^ 36. -/
theorem pageNumber_page {page : Nat} (h : page < 2 ^ 36) : pageNumber (page * 4096) = page := by
  unfold pageNumber
  omega

/-- `map_page` moves one page to the frame. -/
theorem GuestTables.mapPage (h : GuestTables P s held role) {vaddr : Word} {f : Nat}
    (hv : ¬ LowAddress vaddr.toNat) (hf : P.IsPage f)
    (hclean : CleanTables P.base vaddr 3 s (s.cr3 &&& PTE_ADDR)) :
    let s' := s.mapPage P.base vaddr (BitVec.ofNat 64 f)
    (∃ role', GuestTables P s' held role') ∧ KeepsData s s' held ∧
      s'.walk = Function.update s.walk (pageOf vaddr) (some ⟨f / 4096, leafOf f, false⟩) := by
  have hflt := hf.lt
  have hfnat := hf.toNat_ofNat
  obtain ⟨hpte, hpresent, -, hframe, -⟩ := pteUWP (BitVec.ofNat 64 f)
    (by rw [hfnat]; exact hf.aligned) (by rw [hfnat]; omega)
  rw [hpte] at hpresent hframe
  rw [pteAddr_eq h.cr3] at hclean
  obtain ⟨s₁, role₁, p, hdesc, h₁, hsame, hdata, hp⟩ :=
    h.descend (Nat.zero_add 3) tableAt_zero hv hclean
  have hmap : s.mapPage P.base vaddr (BitVec.ofNat 64 f) =
      withLeaf s₁ vaddr.toNat p (leafOf f) := by
    unfold Machine.mapPage withLeaf leafOf
    rw [pteAddr_eq h.cr3, hdesc]
    dsimp only
    rw [entryAddr_eq vaddr (tableAt_lt hp) (show 3 + 0 = 3 from rfl), hpte]
  dsimp only
  rw [hmap]
  refine ⟨⟨role₁, h₁.setLeaf hp fun _ => physical_page hf⟩, hdata.trans ?_, ?_⟩
  · exact h₁.keepsData (h₁.at_of_tableAt hp).ne_free (pathIndex_lt vaddr.toNat 3) rfl
  · rw [← hsame.walk]
    funext page
    by_cases hpage : page = pageOf vaddr
    · subst hpage
      have hlt : pageOf vaddr < 2 ^ 36 := by
        unfold pageOf
        omega
      obtain ⟨t, ht, hleaf, hpaddr, -⟩ := @translate_write_self _ _ _ (pageOf vaddr * 4096) _
        h₁.unshared (root_aligned s₁) _ hp hpresent (pageNumber_page hlt)
      rw [hframe, hfnat, Nat.mul_mod_left, Nat.add_zero] at hpaddr
      rw [Function.update_self]
      unfold walk
      rw [if_pos hlt]
      unfold Rackdoll.translate withLeaf leafOf
      dsimp only
      rw [ht, Option.map_some, hleaf, hpaddr]
    · rw [Function.update_of_ne hpage]
      unfold walk
      refine ite_congr rfl (fun hlt => ?_) fun _ => rfl
      have hother : pageNumber (page * 4096) ≠ pageNumber vaddr.toNat := by
        rw [pageNumber_page hlt]
        exact hpage
      exact congrArg _ (translate_write h₁.unshared (root_aligned s₁) hp hother)

/-! ## `unmap_page` -/

/-- The tables do not depend on what is cached. -/
theorem GuestTables.setTlb (h : GuestTables P s held role) (tlb : Nat → Option Cached) :
    GuestTables P { s with tlb } held role :=
  ⟨h.words, h.cr3, h.owned, h.aligned, h.inUse, h.apart, h.physical, h.small, h.held⟩

/-- The translation of the page of an address. -/
theorem walk_pageOf (s : Machine) (vaddr : Word) :
    s.walk (pageOf vaddr) =
      (translate s.mem s.cr3 vaddr.toNat).map fun t => ⟨t.paddr / 4096, t.leaf, false⟩ := by
  have heq := lookup_eq { s with tlb := fun _ => none } vaddr
  exact heq.symm

/-- `unmap_page` takes away the translation of one page, and returns its frame. -/
theorem GuestTables.unmapPage (h : GuestTables P s held role) {vaddr : Word} (operand : Word)
    (hv : ¬ LowAddress vaddr.toNat) :
    let s' := (s.unmapPage vaddr operand).1
    (∃ role', GuestTables P s' held role') ∧ KeepsData s s' held ∧
      s'.walk = Function.update s.walk (pageOf vaddr) none ∧
        (s.unmapPage vaddr operand).2 = BitVec.ofNat 64 ((s.frameOf (pageOf vaddr)).getD 0) := by
  have hpage := (not_lowAddress_iff vaddr).mp hv
  obtain ⟨hmapped, hunmapped⟩ :=
    unmapPage_translate s vaddr operand h.unshared (h.physicalPath _) (h.smallPath hv)
  have hframe : s.frameOf (pageOf vaddr) =
      (translate s.mem s.cr3 vaddr.toNat).map fun t => t.paddr / 4096 * 4096 := by
    unfold frameOf
    rw [if_pos hpage, walk_pageOf, Option.map_map]
    rfl
  dsimp only
  rw [hframe]
  cases ht : translate s.mem s.cr3 vaddr.toNat with
  | none =>
    rw [hunmapped ht]
    refine ⟨⟨role, h⟩, .refl s held, ?_, rfl⟩
    have hnone : s.walk (pageOf vaddr) = none := by
      rw [walk_pageOf, ht]
      rfl
    exact (Function.update_eq_self_iff.mpr hnone.symm).symm
  | some t =>
    obtain ⟨p, hp, hpresent, -, hpaddr, haddr⟩ := h.leaf hv ht
    obtain ⟨hret, -, hself, hother⟩ := hmapped t ht
    obtain ⟨q, hleaf, hq, -⟩ := (leafAddr_cases (h.physicalPath _) (h.smallPath hv)).resolve_left
      fun hnone => by
        cases ht.symm.trans hnone.2.translate_eq_none
    obtain rfl := Option.some.inj (hq.symm.trans hp)
    obtain ⟨tlb, hrun⟩ : ∃ tlb, (s.unmapPage vaddr operand).1 =
        { withLeaf s vaddr.toNat q 0 with tlb } := by
      unfold Machine.unmapPage
      rw [hleaf]
      exact ⟨_, rfl⟩
    refine ⟨⟨role, ?_⟩, ?_, funext fun page => ?_, ?_⟩
    · rw [hrun]
      exact (h.setLeaf hq fun habsurd => absurd habsurd (by decide)).setTlb tlb
    · rw [hrun]
      exact h.keepsData (h.at_of_tableAt hq).ne_free (pathIndex_lt vaddr.toNat 3) rfl
    · by_cases heq : page = pageOf vaddr
      · rw [heq, Function.update_self, walk_pageOf, hself vaddr rfl]
        rfl
      · rw [Function.update_of_ne heq]
        unfold walk
        refine ite_congr rfl (fun hlt => congrArg _ ?_) fun _ => rfl
        have hnat : (BitVec.ofNat 64 (page * 4096)).toNat = page * 4096 := by
          rw [BitVec.toNat_ofNat]
          omega
        have hne : pageOf (BitVec.ofNat 64 (page * 4096)) ≠ pageOf vaddr := by
          unfold pageOf
          rw [hnat]
          exact fun hsame => heq ((pageNumber_page hlt).symm.trans hsame)
        have hsame := hother _ hne
        rwa [hnat] at hsame
    · have hmod := frame_aligned t.leaf
      have hround : t.paddr / 4096 * 4096 = frame t.leaf := by omega
      rw [hret, haddr, Option.map_some, Option.getD_some, hround]

/-! ## Frames that the program gets and gives back -/

theorem dataOf_of_mem {f : Nat} (hf : f ∈ held) :
    s.dataOf held f = some fun o : Fin 4096 => s.mem (f + o) := if_pos hf

theorem KeepsData.dataOf (h : KeepsData s s' held) : s'.dataOf held = s.dataOf held := by
  funext f
  unfold Machine.dataOf
  refine ite_congr rfl (fun hf => congrArg some (funext fun o => ?_)) fun _ => rfl
  exact h f hf _ ⟨by omega, by have := o.isLt; omega⟩

/-- `alloc_page` gives the program a frame, unless there is none. -/
theorem GuestTables.alloc_cases (h : GuestTables P s held role) :
    (∃ bitset q, s.alloc P.base = ({ s with bitset }, BitVec.ofNat 64 q) ∧ P.IsPage q ∧
      q ∉ held ∧ GuestTables P { s with bitset } (q :: held) role) ∨ s.alloc P.base = (s, 0) := by
  unfold alloc
  rcases P.alloc_cases h.words with ⟨bitset, q, halloc, htake⟩ | ⟨-, hnone⟩
  · rw [halloc]
    obtain ⟨hfree, hout⟩ := h.unused htake
    suffices htables : GuestTables P { s with bitset } (q :: held) role ∧
        SameTranslations s { s with bitset } from
      .inl ⟨bitset, q, rfl, htake.page, hout, htables.1⟩
    refine h.of_agree htake.words rfl (fun _ _ _ _ _ => rfl) (fun p hp hpage => ?_)
      (fun p hp hin => ?_) fun x hx => ?_
    · exact htake.allocated hpage (.inr (h.inUse p hp hpage))
    · rcases List.mem_cons.mp hin with rfl | hold
      · exact hp hfree
      · exact h.apart p hp hold
    · rcases List.mem_cons.mp hx with rfl | hold
      · exact ⟨htake.page, htake.allocated htake.page (.inl rfl)⟩
      · exact ⟨(h.held x hold).1, htake.allocated (h.held x hold).1 (.inr (h.held x hold).2)⟩
  · rw [hnone]
    exact .inr rfl

/-- Stores to the frames of the program. -/
theorem GuestTables.of_held (h : GuestTables P s held role) {mem : Mem}
    (hmem : ∀ a, (∀ q ∈ held, ¬ InPage q a) → mem a = s.mem a) :
    GuestTables P { s with mem } held role ∧ SameTranslations s { s with mem } := by
  refine h.of_agree h.words rfl (fun p hp a hlo hhi => hmem a fun q hq hin => ?_) h.inUse h.apart
    h.held
  exact h.not_inPage_table hp hq hin ⟨hlo, hhi⟩

/-- `free_page` takes a frame of the program. -/
theorem GuestTables.freePage (h : GuestTables P s held role) {f : Nat} (hf : f ∈ held) :
    ∃ bitset, freePage P.base s.bitset (BitVec.ofNat 64 f) = .ok bitset ∧
      GuestTables P { s with bitset } (held.filter (· ≠ f)) role := by
  obtain ⟨hpage, hbit⟩ := h.held f hf
  have hnumber := hpage.number
  have hlt := hpage.lt
  have hfree := @freePage_of_allocated P.base _ 0 _ (hpage.number_lt h.words) (by decide)
    (by omega) hbit
  rw [Nat.add_zero, ← hnumber.2] at hfree
  have hkept : ∀ x, P.IsPage x → x ≠ f → P.allocated s.bitset x = true →
      P.allocated (Bitset.clear s.bitset ((f - P.base) / 4096)) x = true := by
    intro x hx hne hold
    rw [PoolRegion.allocated_clear h.words hpage hx, decide_eq_false hne, hold]
    rfl
  refine ⟨_, hfree, ?_⟩
  generalize hbits : Bitset.clear s.bitset ((f - P.base) / 4096) = bitset at hkept
  suffices htables : GuestTables P { s with bitset } (held.filter (· ≠ f)) role ∧
      SameTranslations s { s with bitset } from htables.1
  have hwords : bitset.length = BITSET_SIZE := hbits ▸ (Bitset.length_clear ..).trans h.words
  refine h.of_agree hwords rfl (fun _ _ _ _ _ => rfl) (fun p hp hx => ?_)
    (fun p hp hin => h.apart p hp (List.mem_of_mem_filter hin)) fun x hx => ?_
  · refine hkept p hx ?_ (h.inUse p hp hx)
    rintro rfl
    exact h.apart p hp hf
  · obtain ⟨hold, hne⟩ := List.mem_filter.mp hx
    exact ⟨(h.held x hold).1, hkept x (h.held x hold).1 (of_decide_eq_true hne) (h.held x hold).2⟩

end Machine

end KernelMemVirt.Janus.Guest
