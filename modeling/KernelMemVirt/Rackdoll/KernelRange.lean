import KernelMemVirt.Rackdoll.Ownership

/-!
# The kernel addresses of a task

The calls of `mmap` and `munmap` that one task makes, with any arguments, and the
first GiB of its address space.

* `KernelRangeKept` is the property: the addresses below 0x40000000 keep their
  translations, and the first 2 MiB of the memory keep their bytes outside the pool.
* `Tables.walkFrom_congr` is the frame rule of a translation: it depends on the
  entries along it.
* `KeepsKernelRange` is the condition on a call: `mmap` maps an address again that
  is mapped, outside the first GiB, with its `cadre` out of the way, and `munmap`
  releases no page table.
* `kernelRange_of_run` is the run, from the tables of `load_tasks` on.
-/

namespace KernelMemVirt.Rackdoll

open ByteMem OwnerTree Transition

/-! ## The property -/

/-- A call of one task, with the physical address of the word that the uninitialised local
`cadre` of `mmap` points to by then. -/
structure CadreCall where
  call : MemCall
  cadre : Word

/-- A call of one task; the kernel stops when it does not return. -/
def Phys.callStep (pool : Nat) (pgt : Word) (s : Phys) (c : CadreCall) : Option Phys :=
  match c.call with
  | .mmap v => some (s.mmapAt pool c.cadre pgt v)
  | .munmap v => (s.munmap pool pgt v).toOption

/-- The kernel addresses of the task, and the memory of the kernel, are the same. -/
structure KernelRangeKept (P : PoolRegion) (pgt : Word) (s s' : Phys) : Prop where
  translation : ∀ v, v < 0x40000000 → translate s'.mem pgt v = translate s.mem pgt v
  memory : ∀ a, a < 0x200000 →
    a < P.base ∨ P.base + PHYSICAL_POOL_PAGES * PAGE_SIZE ≤ a → s'.mem a = s.mem a

/-- The entry that `munmap` finds for an address. -/
def leafEntry (mem : Mem) (pgt vaddr : Word) : Word :=
  read64 mem (slot (follow mem vaddr 3 pgt) vaddr 1)

/-- The word at `cadre` is outside the first 2 MiB and the pool. -/
def CadreApart (P : PoolRegion) (cadre : Word) : Prop :=
  0x200000 ≤ cadre.toNat ∧ Apart cadre.toNat 8 P.base (PHYSICAL_POOL_PAGES * PAGE_SIZE)

instance (P : PoolRegion) (cadre : Word) : Decidable (CadreApart P cadre) :=
  inferInstanceAs (Decidable (_ ∧ _))

/-- A call of `mmap` is for an address from 1 GiB on, in the 48 bits that are
translated, whose tables and last entry are there, and finds a free page; its `cadre`
points outside the first 2 MiB and the pool.  A call of `munmap` is for an address that
it ignores, or ends in the error of `free_page`, or releases a page that is no page
table. -/
def KeepsKernelRange (P : PoolRegion) (root : Nat → Option Nat) (pgt : Word) (s : Phys)
    (c : CadreCall) : Prop :=
  match c.call with
  | .mmap v => CadreApart P c.cadre ∧ 0x40000000 ≤ v.toNat % 2 ^ 48 ∧
      missing s.mem v 3 pgt = 0 ∧ present (leafEntry s.mem pgt v) = true ∧
      0 < Bitset.free s.bitset
  | .munmap v => UserGuard v →
      freePage P.base s.bitset (leafEntry s.mem pgt v) = .error .die ∨
        ∀ t r path q, root t = some r → walk (link P 3 s.mem) r path = some q →
          (q - P.base) / 4096 ≠ ((leafEntry s.mem pgt v - BitVec.ofNat 64 P.base) >>> 12).toNat

variable {P : PoolRegion} {n : Nat} {s : Phys} {root : Nat → Option Nat} {role : Nat → PageRole}

theorem KernelRangeKept.refl (P : PoolRegion) (pgt : Word) (s : Phys) :
    KernelRangeKept P pgt s s := ⟨fun _ _ => rfl, fun _ _ _ => rfl⟩

theorem KernelRangeKept.trans {pgt : Word} {s s' s'' : Phys} (h : KernelRangeKept P pgt s s')
    (h' : KernelRangeKept P pgt s' s'') : KernelRangeKept P pgt s s'' where
  translation := fun v hv => (h'.translation v hv).trans (h.translation v hv)
  memory := fun a ha hout => (h'.memory a ha hout).trans (h.memory a ha hout)

/-! ## Translations -/

/-- A translation depends on the entries along it. -/
theorem Tables.walkFrom_congr (h : Tables P n s root role) (hn : 3 ≤ n) {mem : Mem} {t v : Nat}
    (hsame : ∀ d p, At role t v d p → entry mem p (pathIndex v d) = entry s.mem p (pathIndex v d)) :
    ∀ {levels d p : Nat}, d + levels = 4 → At role t v d p →
      walkFrom mem v levels p = walkFrom s.mem v levels p := by
  intro levels
  induction levels with
  | zero => exact fun _ _ => rfl
  | succ levels ih =>
    intro d p hd hat
    have hentry : read64 mem (p + 8 * pathIndex v d) = read64 s.mem (p + 8 * pathIndex v d) :=
      hsame d p hat
    unfold walkFrom
    rw [tableIndex_eq hd]
    dsimp only
    rw [hentry]
    split
    · rfl
    · next hcond =>
      have hpresent : present (entry s.mem p (pathIndex v d)) = true := Bool.not_eq_false _ ▸ hcond
      split
      · rfl
      · next hmore =>
        rcases h.table p d hat.depth (by omega) _ (pathIndex_lt v d) with
          hzero | ⟨q, hq, hlinks⟩ | ⟨⟨t', hat'⟩, -, hkernel⟩
        · rw [hzero] at hpresent
          exact absurd hpresent (by decide)
        · have hframe : frame (read64 s.mem (p + 8 * pathIndex v d)) = q := hlinks.frame
          have hrole := h.role_of_links hat.depth (by omega) (pathIndex_lt v d) hq hlinks
          rw [hframe, ih (by omega) (show At role t v (d + 1) q from ⟨p, hat, hrole⟩)]
        · obtain ⟨hd2, -⟩ := hat.unique hat'
          have hhuge : huge (read64 s.mem (p + 8 * pathIndex v d)) = true := by
            have heq : read64 s.mem (p + 8 * pathIndex v d) = KERNEL_PAGE := hkernel
            rw [heq]
            rfl
          exact absurd (.inr ⟨by omega, hhuge⟩) hmore

/-- A write to the last entry of an address outside the first GiB changes no
translation inside it. -/
theorem Tables.translate_congr (h : Tables P n s root role) (hn : 3 ≤ n) {t r : Nat}
    (hroot : root t = some r) {mem : Mem} {v v' x : Nat} (hv : v < 0x40000000)
    (hv' : 0x40000000 ≤ v' % 2 ^ 48) (hx : At role t v' 3 x)
    (hsame : ∀ p i, role p ≠ .free → i < 512 → p ≠ x → entry mem p i = entry s.mem p i) :
    translate mem (BitVec.ofNat 64 r) v = translate s.mem (BitVec.ofNat 64 r) v := by
  have hrole : role r = .root t := h.owned.root t r hroot
  have hr := h.page r (by rw [hrole]; simp)
  unfold translate
  rw [hr.frame_ofNat]
  refine h.walkFrom_congr hn (fun d p hat => ?_) (Nat.zero_add 4) (show At role t v 0 r from hrole)
  apply hsame p _ hat.ne_free (pathIndex_lt v d)
  intro heq
  subst heq
  obtain ⟨-, -, hindex⟩ := hx.unique hat
  have h0 := hindex 0 (by omega)
  have h1 := hindex 1 (by omega)
  unfold pathIndex tableIndex at h0 h1
  norm_num at h0 h1
  omega

/-! ## One call -/

/-- The indices of an address lead to one table. -/
theorem Tables.at_unique (h : Tables P n s root role) {t v : Nat} :
    ∀ {d p p' : Nat}, d ≤ 3 → At role t v d p → At role t v d p' → p = p' := by
  intro d
  induction d with
  | zero =>
    intro p p' _ hp hp'
    have hroot := h.rooted p t hp
    rw [h.rooted p' t hp'] at hroot
    exact (Option.some.inj hroot).symm
  | succ d ih =>
    rintro q q' hd ⟨p, hp, hq⟩ ⟨p', hp', hq'⟩
    obtain rfl := ih (by omega) hp hp'
    have hlink := (h.live q d p _ hq (by omega)).2
    rw [(h.live q' d p _ hq' (by omega)).2] at hlink
    exact (Option.some.inj hlink).symm

/-- `map_page` for an address that is mapped, in a memory `s'` with the same tables: it
changes one last entry. -/
theorem Tables.mapPage_again (htables : Tables P 3 s root role) {t r q : Nat} {v : Word}
    (hroot : root t = some r) (hv : 0x40000000 ≤ v.toNat % 2 ^ 48)
    (hmissing : missing s.mem v 3 (BitVec.ofNat 64 r) = 0)
    (hpresent : present (leafEntry s.mem (BitVec.ofNat 64 r) v) = true) {s' : Phys}
    (htables' : Tables P 3 s' root role)
    (hagree : ∀ p, role p ≠ .free → ∀ a, p ≤ a → a < p + 4096 → s'.mem a = s.mem a) :
    Tables P 3 (s'.mapPage P.base (BitVec.ofNat 64 r) v (BitVec.ofNat 64 q)) root role ∧
      (∀ v', v' < 0x40000000 →
        translate (s'.mapPage P.base (BitVec.ofNat 64 r) v (BitVec.ofNat 64 q)).mem
          (BitVec.ofNat 64 r) v' = translate s.mem (BitVec.ofNat 64 r) v') ∧
      ∀ a, a < P.base ∨ P.base + PHYSICAL_POOL_PAGES * PAGE_SIZE ≤ a →
        (s'.mapPage P.base (BitVec.ofNat 64 r) v (BitVec.ofNat 64 q)).mem a = s'.mem a := by
  have hrole : At role t v.toNat 0 r := htables.owned.root t r hroot
  have hlow : ¬ LowAddress v.toNat := by
    unfold LowAddress
    omega
  have hmissing' :=
    (htables.missing_congr (by omega) hlow hagree (Nat.zero_add 3) hrole).trans hmissing
  obtain ⟨x, hdesc, -, hx⟩ :=
    htables'.descend_present (by omega) hlow (Nat.zero_add 3) hrole hmissing'
  obtain ⟨x', -, hfollow, hx'⟩ :=
    htables.descend_present (by omega) hlow (Nat.zero_add 3) hrole hmissing
  obtain rfl := htables.at_unique (Nat.le_refl 3) hx hx'
  have hxpage := htables.page x hx.ne_free
  have hxmod := hxpage.aligned
  have hlt := pathIndex_lt v.toNat 3
  have hslot := slot_at v hxpage (show 3 + 1 = 4 from rfl) (by omega)
  unfold leafEntry at hpresent
  rw [hfollow, hslot] at hpresent
  have hsame : ∀ {p i}, role p ≠ .free → i < 512 → entry s'.mem p i = entry s.mem p i :=
    fun hp hi => entry_congr (hagree _ hp) hi
  have hleaf : read64 s'.mem (x + 8 * pathIndex v.toNat 3)
      = read64 s.mem (x + 8 * pathIndex v.toNat 3) := hsame hx.ne_free hlt
  have hmap : s'.mapPage P.base (BitVec.ofNat 64 r) v (BitVec.ofNat 64 q) =
      { s' with
        mem := write64 s'.mem (x + 8 * pathIndex v.toNat 3) (BitVec.ofNat 64 q ||| 0x7) } := by
    unfold Phys.mapPage
    rw [hdesc]
    dsimp only
    rw [hslot, hleaf, if_neg]
    rw [and_one_eq_zero, hpresent]
    decide
  rw [hmap]
  refine ⟨?_, fun v' hv' => ?_, fun a hout => ?_⟩
  · exact htables'.setEntry hx.depth hlt (if_neg fun h => absurd h.1 (by omega))
      (fun h => absurd h (by omega)) fun _ => present_or_seven _
  · refine htables.translate_congr (by omega) hroot hv' hv hx fun p i hp hi hne => ?_
    rw [entry_write64 hxmod (htables.page p hp).aligned hlt hi, if_neg (fun h => hne h.1)]
    exact hsame hp hi
  · have hxin := hxpage.2.1
    have hxlo := hxpage.1
    have haligned := P.aligned
    unfold PHYSICAL_POOL_PAGES PAGE_SIZE at *
    exact writeBytes_apply_of_outside (by omega)

/-- A call of `mmap` that maps an address again. -/
theorem mmap_keeps (htables : Tables P 3 s root role) {t : Nat} {pgt v cadre : Word}
    (hroot : root t = some pgt.toNat) (hfits : KeepsKernelRange P root pgt s ⟨.mmap v, cadre⟩) :
    Tables P 3 (s.mmapAt P.base cadre pgt v) root role ∧
      KernelRangeKept P pgt s (s.mmapAt P.base cadre pgt v) := by
  rcases hfits with ⟨⟨hcadre, hpool⟩, hv, hmissing, hpresent, hfree⟩
  dsimp only at hcadre hpool
  obtain ⟨r, rfl, hr⟩ : ∃ r, pgt = BitVec.ofNat 64 r ∧ pgt.toNat = r :=
    ⟨pgt.toNat, (ofNat_toNat pgt).symm, rfl⟩
  rw [hr] at hroot
  obtain ⟨s₁, q, halloc, hfresh, htables₁⟩ := htables.alloc hfree
  have hqmod := hfresh.page.aligned
  have hqin := hfresh.page.2.1
  have hqlo := hfresh.page.1
  have haligned := P.aligned
  have hoff : SameOutside s.mem (write64 s₁.mem cadre.toNat (BitVec.ofNat 64 q)) cadre.toNat 8 := by
    rw [hfresh.mem]
    exact sameOutside_writeBytes _ _ _ _
  have hword : read64 (write64 s₁.mem cadre.toNat (BitVec.ofNat 64 q)) cadre.toNat =
      BitVec.ofNat 64 q := read64_write64_self _ _ _
  have hmmap : s.mmapAt P.base cadre (BitVec.ofNat 64 r) v =
      let mem := write64 s₁.mem cadre.toNat (BitVec.ofNat 64 q)
      let mem := fill mem (read64 mem cadre.toNat).toNat 0 PAGE_SIZE
      { s₁ with mem }.mapPage P.base (BitVec.ofNat 64 r) v (read64 mem cadre.toNat) := by
    unfold Phys.mmapAt
    rw [halloc]
  generalize write64 s₁.mem cadre.toNat (BitVec.ofNat 64 q) = mem at hoff hword hmmap
  unfold Apart PHYSICAL_POOL_PAGES PAGE_SIZE at *
  have hclear : read64 (fill mem q 0 0x1000) cadre.toNat = BitVec.ofNat 64 q :=
    (readBytes_congr fun x hlo hhi => fill_apply_of_outside (by omega)).trans hword
  have hagree : ∀ p, role p ≠ .free → ∀ a, p ≤ a → a < p + 4096 →
      fill mem q 0 0x1000 a = s.mem a := by
    intro p hp a hlo hhi
    have hpage := htables.page p hp
    have hpmod := hpage.aligned
    have hpin := hpage.2.1
    have hplo := hpage.1
    have hne : p ≠ q := by
      intro heq
      subst heq
      exact hp hfresh.unused
    unfold PHYSICAL_POOL_PAGES PAGE_SIZE at hpin
    rw [fill_apply_of_outside (by omega), hoff a (by omega)]
  have htables₂ : Tables P 3 { s₁ with mem := fill mem q 0 0x1000 } root role :=
    htables.of_agree hfresh.words hagree htables₁.allocated
  dsimp only at hmmap
  rw [hword, hfresh.page.toNat_ofNat, hclear] at hmmap
  obtain ⟨hmapped, htranslate, hmem⟩ :=
    htables.mapPage_again (q := q) hroot hv hmissing hpresent htables₂ hagree
  rw [hmmap]
  refine ⟨hmapped, htranslate, fun a ha hout => (hmem a hout).trans ?_⟩
  unfold PHYSICAL_POOL_PAGES PAGE_SIZE at hout
  exact (fill_apply_of_outside (by omega)).trans (hoff a (by omega))

/-- A call of `munmap` that returns, and releases no page table. -/
theorem munmap_keeps (htables : Tables P 3 s root role) {pgt v cadre : Word} {s' : Phys}
    (hfits : KeepsKernelRange P root pgt s ⟨.munmap v, cadre⟩)
    (hok : s.munmap P.base pgt v = .ok s') :
    Tables P 3 s' root role ∧ KernelRangeKept P pgt s s' := by
  unfold Phys.munmap at hok
  split at hok
  · next hguard =>
    have hentry : read64 s.mem (slot (follow s.mem v 3 pgt) v 1) = leafEntry s.mem pgt v := rfl
    dsimp only at hok
    rw [hentry] at hok
    rcases hfits hguard with hdie | hother
    · rw [hdie] at hok
      cases hok
    · cases hfree : freePage P.base s.bitset (leafEntry s.mem pgt v) with
      | error e =>
        rw [hfree] at hok
        cases hok
      | ok bitset =>
        rw [hfree] at hok
        obtain rfl := Except.ok.inj hok
        obtain ⟨k, hk, hnumber, -, rfl⟩ := freePage_ok hfree
        refine ⟨?_, fun _ _ => rfl, fun _ _ _ => rfl⟩
        refine htables.of_agree (by rw [Bitset.length_clear, htables.words])
          (fun _ _ _ _ _ => rfl) fun p hp => ?_
        have hne : (p - P.base) / 4096 ≠ k := by
          intro heq
          obtain ⟨t, r, path, hr, hwalk⟩ := htables.walk_of_role hp
          exact hother t r path p hr hwalk (heq.trans hnumber.symm)
        have hallocated := htables.allocated p hp
        unfold PoolRegion.allocated at hallocated ⊢
        rw [Bitset.get_clear hk, hallocated, decide_eq_false hne]
        rfl
  · obtain rfl := Except.ok.inj hok
    exact ⟨htables, KernelRangeKept.refl P pgt _⟩

/-! ## The run -/

theorem kernelRange_step {t : Nat} {pgt : Word} (hroot : root t = some pgt.toNat) {s₀ s s' : Phys}
    {c : CadreCall} (h : (∃ role, Tables P 3 s root role) ∧ KernelRangeKept P pgt s₀ s)
    (hfits : KeepsKernelRange P root pgt s c) (hstep : s.callStep P.base pgt c = some s') :
    (∃ role, Tables P 3 s' root role) ∧ KernelRangeKept P pgt s₀ s' := by
  rcases h with ⟨⟨role, htables⟩, hkept⟩
  rcases c with ⟨c, cadre⟩
  cases c with
  | mmap v =>
    obtain rfl := Option.some.inj hstep
    obtain ⟨htables', hkept'⟩ := mmap_keeps htables hroot hfits
    exact ⟨⟨role, htables'⟩, hkept.trans hkept'⟩
  | munmap v =>
    have hmunmap : (s.munmap P.base pgt v).toOption = some s' := hstep
    cases hok : s.munmap P.base pgt v with
    | error e =>
      rw [hok] at hmunmap
      cases hmunmap
    | ok s₁ =>
      rw [hok] at hmunmap
      obtain rfl := Option.some.inj hmunmap
      obtain ⟨htables', hkept'⟩ := munmap_keeps htables hfits hok
      exact ⟨⟨role, htables'⟩, hkept.trans hkept'⟩

/-- A task with one page of code, at 128 GiB. -/
def codeImage : Task := { emptyImage with loadEndPaddr := 0x1e1000, loadVaddr := 0x2000000000
                                          bssEndVaddr := 0x2000001000 }

/-- The same with its code above the kernel. -/
def highImage : Task := { codeImage with loadPaddr := 0x400000, loadEndPaddr := 0x401000 }

end KernelMemVirt.Rackdoll
