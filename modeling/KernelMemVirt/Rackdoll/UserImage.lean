import KernelMemVirt.Rackdoll.UserView

/-!
# What a task sees of its image

`load_tasks` gives each task its image: the bytes of the code and data, and zeros for the
bss.  The tasks that are loaded already see what they saw before.

* `ImageFits` is the condition on an image: whole pages apart from the pool, at user
  addresses.  `imageMemory` is what the task sees then.
* `UserSpaces.linkTables` adds a tree in which nothing is seen, and `UserSpaces.payloadLoop`
  and `UserSpaces.bssLoop` are the loops.
* `loadTasks_memory` is `load_tasks`, for images that are apart from each other.
-/

namespace KernelMemVirt.Rackdoll

open ByteMem OwnerTree ActionLog AddressSpace

variable {P : PoolRegion} {s : Phys} {root : Nat → Option Nat} {role : Nat → PageRole}

/-! ## A new tree -/

/-- The first part of `load_task` takes four free pages, and writes to no other. -/
theorem linkTablesLog_confined (hwords : s.bitset.length = BITSET_SIZE)
    (hfree : 4 ≤ Bitset.free s.bitset) :
    AllocsSucceed (linkTablesLog P.base s) ∧
      Confined (P.Free s.bitset) (linkTablesLog P.base s) := by
  have hstart : Tables P 3 s (fun _ => none) (fun _ => .free) := Tables.empty hwords
  obtain ⟨s₁, p4, halloc₁, hfresh₁, htables₁⟩ := hstart.alloc (by omega)
  have hcount₁ := hfresh₁.free
  obtain ⟨s₂, p3, halloc₂, hfresh₂, htables₂⟩ := htables₁.alloc (by omega)
  have hcount₂ := hfresh₂.free
  obtain ⟨s₃, p2, halloc₃, hfresh₃, htables₃⟩ := htables₂.alloc (by omega)
  have hcount₃ := hfresh₃.free
  obtain ⟨s₄, p1, halloc₄, hfresh₄, -⟩ := htables₃.alloc (by omega)
  have hfree₂ := hfresh₁.takes.unallocated_of hfresh₂.page hfresh₂.unallocated
  have hfree₃ := hfresh₁.takes.unallocated_of hfresh₃.page
    (hfresh₂.takes.unallocated_of hfresh₃.page hfresh₃.unallocated)
  have hfree₄ := hfresh₁.takes.unallocated_of hfresh₄.page
    (hfresh₂.takes.unallocated_of hfresh₄.page
      (hfresh₃.takes.unallocated_of hfresh₄.page hfresh₄.unallocated))
  have hlog : linkTablesLog P.base s =
      [.alloc (BitVec.ofNat 64 p4), .alloc (BitVec.ofNat 64 p3), .alloc (BitVec.ofNat 64 p2),
        .alloc (BitVec.ofNat 64 p1), .word p4 (BitVec.ofNat 64 p3 ||| 0x7),
        .word p3 (BitVec.ofNat 64 p2 ||| 0x7), .word p2 KERNEL_PAGE,
        .word (p2 + 8) (BitVec.ofNat 64 p1 ||| 0x1b), .word p1 0xfee0011b] := by
    unfold linkTablesLog
    rw [halloc₁]
    dsimp only
    rw [halloc₂]
    dsimp only
    rw [halloc₃]
    dsimp only
    rw [halloc₄]
    dsimp only
    rw [hfresh₁.page.toNat_ofNat, hfresh₂.page.toNat_ofNat, hfresh₃.page.toNat_ofNat,
      hfresh₄.page.toNat_ofNat]
    rfl
  have hin : ∀ {q a x}, P.IsPage q → P.allocated s.bitset q = false → q ≤ a → a ≤ q + 8 →
      a ≤ x ∧ x < a + 8 → P.Free s.bitset x :=
    fun hq hclear hlo hhi hx => ⟨_, hq, hclear, by omega, by omega⟩
  rw [hlog]
  constructor
  · unfold AllocsSucceed
    simp only [List.mem_cons, Action.alloc.injEq, reduceCtorEq, List.not_mem_nil, or_false]
    rintro (h | h | h | h)
    · exact hfresh₁.page.ofNat_ne_zero h.symm
    · exact hfresh₂.page.ofNat_ne_zero h.symm
    · exact hfresh₃.page.ofNat_ne_zero h.symm
    · exact hfresh₄.page.ofNat_ne_zero h.symm
  · intro act hact x hx
    simp only [List.mem_cons, List.not_mem_nil, or_false] at hact
    rcases hact with rfl | rfl | rfl | rfl | rfl | rfl | rfl | rfl | rfl
    · exact hx.elim
    · exact hx.elim
    · exact hx.elim
    · exact hx.elim
    · exact hin hfresh₁.page hfresh₁.unallocated (Nat.le_refl _) (by omega) hx
    · exact hin hfresh₂.page hfree₂ (Nat.le_refl _) (by omega) hx
    · exact hin hfresh₃.page hfree₃ (Nat.le_refl _) (by omega) hx
    · exact hin hfresh₃.page hfree₃ (by omega) (by omega) hx
    · exact hin hfresh₄.page hfree₄ (Nat.le_refl _) (by omega) hx

namespace KernelTables

variable {p4 p3 p2 p1 : Nat} {e : Word}

/-- From 1 GiB on there is nothing. -/
theorem walkFrom_high (h : KernelTables P s p4 p3 p2 p1 e) {v : Nat}
    (hv : ¬ (pathIndex v 0 = 0 ∧ pathIndex v 1 = 0)) :
    walkFrom s.mem v 4 p4 = none ∧ UserWay s.mem p4 v := by
  have hpage3 := (h.page p3 (by simp)).1
  have hlt3 := hpage3.lt
  have hentry4 := h.pml4 _ (pathIndex_lt v 0)
  have hentry3 := h.pml3 _ (pathIndex_lt v 1)
  by_cases h0 : pathIndex v 0 = 0
  · have hlink3 : Links (BitVec.ofNat 64 p3 ||| 0x7) p3 :=
      links_or hpage3.aligned (by omega) (show 7 < 2048 by omega) (by decide) (by decide)
    rw [if_pos h0] at hentry4
    rw [if_neg fun h1 => hv ⟨h0, h1⟩] at hentry3
    have hchild := child_of_present (show 0 < 3 by omega) (hentry4 ▸ hlink3.present) (.inl rfl)
    rw [hentry4, hlink3.frame] at hchild
    have htable : tableAt s.mem p4 v 1 = some p3 := hchild
    have hempty : Rackdoll.present (entry s.mem p3 (pathIndex v 1)) = false := by
      rw [hentry3]
      rfl
    refine ⟨translate_eq_none htable hempty, fun d p hd hp hpresent => ?_⟩
    obtain rfl | rfl | rfl : d = 0 ∨ d = 1 ∨ d = 2 := by omega
    · obtain rfl : p4 = p := Option.some.inj hp
      rw [hentry4]
      exact ⟨(getLsbD_ofNat_or _ hpage3.aligned (by omega) (.inl (by omega))).trans rfl,
        (getLsbD_ofNat_or _ hpage3.aligned (by omega) (.inl (by omega))).trans rfl⟩
    · obtain rfl := Option.some.inj (htable.symm.trans hp)
      exact absurd (hpresent.symm.trans hempty) (by decide)
    · cases (tableAt_of_missing htable hempty (by omega)).symm.trans hp
  · rw [if_neg h0] at hentry4
    have htable : tableAt s.mem p4 v 0 = some p4 := rfl
    have hempty : Rackdoll.present (entry s.mem p4 (pathIndex v 0)) = false := by
      rw [hentry4]
      rfl
    refine ⟨translate_eq_none htable hempty, fun d p hd hp hpresent => ?_⟩
    by_cases hd0 : d = 0
    · subst hd0
      obtain rfl : p4 = p := Option.some.inj hp
      exact absurd (hpresent.symm.trans hempty) (by decide)
    · cases (tableAt_of_missing htable hempty (by omega)).symm.trans hp

/-- The kernel pages are not for the user. -/
theorem not_user (h : KernelTables P s p4 p3 p2 p1 0xfee0011b) {v : Nat} {x : Translation}
    (hx : walkFrom s.mem v 4 p4 = some x) : x.user = false := by
  by_cases hv : pathIndex v 0 = 0 ∧ pathIndex v 1 = 0
  swap
  · cases (h.walkFrom_high hv).1.symm.trans hx
  rw [h.walkFrom_low hv.1 hv.2] at hx
  have hentry2 := h.pml2 _ (pathIndex_lt v 2)
  by_cases h2 : pathIndex v 2 = 0
  · rw [if_pos h2] at hentry2
    rw [walkFrom_succ, tableIndex_eq (show 2 + (1 + 1) = 4 from rfl), hentry2] at hx
    dsimp only at hx
    rw [if_neg (by decide), if_pos (by decide)] at hx
    obtain rfl := Option.some.inj hx
    show (KERNEL_PAGE : Word).getLsbD 2 = false
    decide
  · rw [if_neg h2] at hentry2
    by_cases hone : pathIndex v 2 = 1
    · have hpage1 := (h.page p1 (by simp)).1
      have hlt1 := hpage1.lt
      have hlink1 : Links (BitVec.ofNat 64 p1 ||| 0x1b) p1 :=
        links_or hpage1.aligned (by omega) (show 27 < 2048 by omega) (by decide) (by decide)
      rw [if_pos hone] at hentry2
      have hchild := child_of_present (show 2 < 3 by omega) (hentry2 ▸ hlink1.present)
        (.inr (hentry2 ▸ hlink1.huge))
      rw [hentry2, hlink1.frame] at hchild
      have hwalk : walkFrom s.mem v 2 p2 = _ := walkFrom_of_child hchild
      rw [hwalk, hentry2] at hx
      obtain ⟨y, -, rfl⟩ := Option.map_eq_some_iff.mp hx
      rw [restrict_ofNat_or _ hpage1.aligned (by omega)]
      show ((0x1b : Word).getLsbD 2 && y.user) = false
      rw [show (0x1b : Word).getLsbD 2 = false from rfl, Bool.false_and]
    · rw [if_neg hone] at hentry2
      have hnone : walkFrom s.mem v 2 p2 = none :=
        walkFrom_eq_none (show 2 < 4 by omega) (by rw [hentry2]; rfl)
      cases hnone.symm.trans hx

end KernelTables

/-- A new task sees nothing, and the others see what they saw. -/
theorem UserSpaces.linkTables (h : UserSpaces P s root role) {t : Nat} (ht : root t = none)
    (hfree : 4 ≤ Bitset.free s.bitset) (image : Task) :
    ∃ s' role' p, linkTables P.base s image = (s', { image with pgt := BitVec.ofNat 64 p }) ∧
      p < 2 ^ 64 ∧ UserSpaces P s' (Function.update root t (some p)) role' ∧
        userView s'.mem (Function.update root t (some p)) = userView s.mem root ∧
          ∀ a, ¬ P.Free s.bitset a → s'.mem a = s.mem a := by
  obtain ⟨hallocs, hconfined⟩ := linkTablesLog_confined (P := P) h.tables.words hfree
  obtain ⟨s', role', p, hlink, hp, htables, hzero, -⟩ :=
    linkTables_spec (by omega) (Nat.le_refl 4) h.tables h.zeroFree ht hfree image
  obtain ⟨x, p4, p3, p2, p1, hlink', hkernel, -⟩ :=
    kernelTables_linkTables h.tables.words h.zeroFree hallocs image
  obtain ⟨rfl, htask⟩ := Prod.mk.inj (hlink.symm.trans hlink')
  have hpage4 := (hkernel.page p4 (by simp)).1
  obtain rfl : p = p4 := by
    have hnat := congrArg (fun task => task.pgt.toNat) htask
    dsimp only at hnat
    rwa [hpage4.toNat_ofNat, BitVec.toNat_ofNat, Nat.mod_eq_of_lt hp] at hnat
  have hmem : ∀ a, ¬ P.Free s.bitset a → s'.mem a = s.mem a := by
    intro a ha
    have hreplay : s'.mem = replay s.mem (linkTablesLog P.base s) := by
      rw [← linkTables_replay P.base s image, hlink]
    rw [hreplay]
    exact replay_apply_of_confined ha hconfined
  have hagree : ∀ {t' r v}, root t' = some r → AgreeOn s.mem s'.mem r v 4 := by
    intro t' r v hroot d q hd hq
    have hat := (h.tables.tableAt_iff (by omega) hroot (by omega)).mp hq
    refine entry_congr (fun a hlo hhi => hmem a ?_) (pathIndex_lt v d)
    exact PoolRegion.not_free (h.tables.aligned hat.depth)
      (fun _ => h.tables.allocated q hat.ne_free) hlo hhi
  have hother : ∀ {t' r}, t' ≠ t → Function.update root t (some p) t' = some r →
      root t' = some r := fun hne hr => (Function.update_of_ne hne _ _).symm.trans hr
  have htranslate : ∀ {t' r v}, root t' = some r →
      translate s'.mem (BitVec.ofNat 64 r) v = translate s.mem (BitVec.ofNat 64 r) v := by
    intro t' r v hroot
    rw [h.tables.translate_root hroot, h.tables.translate_root hroot]
    exact walkFrom_congr (hagree hroot)
  have hnew : ∀ {v x}, translate s'.mem (BitVec.ofNat 64 p) v = some x → x.user = false := by
    intro v x hx
    unfold translate at hx
    rw [hpage4.frame_ofNat] at hx
    exact hkernel.not_user hx
  have hview : userView s'.mem (Function.update root t (some p)) = userView s.mem root := by
    funext t' v
    apply Option.ext
    intro a
    rw [userView_eq_some, userView_eq_some]
    refine and_congr_right fun _ => ?_
    by_cases heq : t' = t
    · subst heq
      refine iff_of_false ?_ ?_
      · rintro ⟨r, x, hr, hx, huser, -⟩
        rw [Function.update_self, Option.some.injEq] at hr
        subst hr
        rw [hnew hx] at huser
        cases huser
      · rintro ⟨r, x, hr, -⟩
        rw [ht] at hr
        cases hr
    · rw [Function.update_of_ne heq]
      refine exists_congr fun r => exists_congr fun x => and_congr_right fun hr => ?_
      rw [htranslate hr]
  refine ⟨s', role', p, hlink, hp, ⟨htables, hzero, ?_, hview ▸ h.hidden, ?_,
    hview ▸ h.unaliased, hview ▸ h.high⟩, hview, hmem⟩
  · intro t' r v hroot hv
    by_cases heq : t' = t
    · subst heq
      rw [Function.update_self, Option.some.injEq] at hroot
      subst hroot
      refine (hkernel.walkFrom_high fun hlow => ?_).2
      rcases hlow with ⟨h0, h1⟩
      unfold pathIndex tableIndex at h0 h1
      norm_num at h0 h1
      omega
    · have hroot' := hother heq hroot
      intro d q hd hq hpresent
      have hq' := (tableAt_congr (hagree hroot') (show d ≤ 4 by omega)).symm.trans hq
      rw [hagree hroot' d q (by omega) hq'] at hpresent ⊢
      exact h.way t' r v hroot' hv d q hd hq' hpresent
  · intro t' r v x hroot hx huser
    by_cases heq : t' = t
    · subst heq
      rw [Function.update_self, Option.some.injEq] at hroot
      subst hroot
      rw [hnew hx] at huser
      cases huser
    · have hroot' := hother heq hroot
      rw [htranslate hroot'] at hx
      exact h.writable t' r v x hroot' hx huser

/-! ## Images -/

/-- The physical addresses of the code and data. -/
def InPayload (image : Task) (a : Nat) : Prop :=
  image.loadPaddr.toNat ≤ a ∧ a < image.loadPaddr.toNat + (payloadSize image).toNat

/-- The code and data are whole pages, apart from the pool and from page 0, at addresses from
1 GiB on.  The bss has one page at most. -/
structure ImageFits (P : PoolRegion) (image : Task) : Prop where
  vaddr_aligned : image.loadVaddr.toNat % 4096 = 0
  paddr_aligned : image.loadPaddr.toNat % 4096 = 0
  size_aligned : (payloadSize image).toNat % 4096 = 0
  bss : (bssSize image).toNat ≤ 4096
  user : 0x40000000 ≤ image.loadVaddr.toNat
  vaddr_max : image.loadVaddr.toNat + (payloadSize image).toNat + 4096 ≤ 2 ^ 48
  high : 0x1000 ≤ image.loadPaddr.toNat
  paddr_max : image.loadPaddr.toNat + (payloadSize image).toNat ≤ 2 ^ 51
  apart : ∀ a, InPayload image a → ∀ q, P.IsPage q → ¬ InPage q a

/-- The addresses of the code and data, from the offset `i` on. -/
def CodeAddress (image : Task) (i v : Nat) : Prop :=
  image.loadVaddr.toNat + i ≤ v ∧ v < image.loadVaddr.toNat + (payloadSize image).toNat

/-- The addresses of the page of the bss, when there is one. -/
def BssAddress (image : Task) (v : Nat) : Prop :=
  bssSize image ≠ 0 ∧ (bssStartVaddr image).toNat ≤ v ∧ v < (bssStartVaddr image).toNat + 4096

instance (image : Task) (i v : Nat) : Decidable (CodeAddress image i v) :=
  inferInstanceAs (Decidable (_ ∧ _))

instance (image : Task) (v : Nat) : Decidable (BssAddress image v) :=
  inferInstanceAs (Decidable (_ ∧ _ ∧ _))

/-- The byte of the code and data at an address. -/
def codeByte (mem : Mem) (image : Task) (v : Nat) : BitVec 8 :=
  mem (image.loadPaddr.toNat + (v - image.loadVaddr.toNat))

/-- What a task sees of its image. -/
def imageMemory (mem : Mem) (image : Task) (v : Nat) : Option (BitVec 8) :=
  if BssAddress image v then some 0
  else if CodeAddress image 0 v then some (codeByte mem image v)
  else none

/-- A byte of memory that belongs to no page of the pool, and not to page 0. -/
def OutsideByte (P : PoolRegion) (a : Nat) : Prop := 0x1000 ≤ a ∧ ∀ q, P.IsPage q → ¬ InPage q a

theorem OutsideByte.dataByte {a : Nat} (h : OutsideByte P a) : DataByte P s role a :=
  ⟨h.1, fun q hq hin => absurd hin (h.2 q hq)⟩

theorem OutsideByte.not_free {bitset : List Word} {a : Nat} (h : OutsideByte P a) :
    ¬ P.Free bitset a := by
  rintro ⟨q, hq, -, hin⟩
  exact h.2 q hq hin

theorem ImageFits.outside {image : Task} (h : ImageFits P image) {a : Nat}
    (ha : InPayload image a) : OutsideByte P a := by
  have hhigh := h.high
  exact ⟨by unfold InPayload at ha; omega, h.apart a ha⟩

/-- What a change of the spaces keeps: the memory outside the pool, and the places outside it
that are seen, but for those in `A`. -/
structure OutsideKept (P : PoolRegion) (s : Phys) (root : Nat → Option Nat) (s' : Phys)
    (root' : Nat → Option Nat) (A : Nat → Prop) : Prop where
  apply : ∀ a, OutsideByte P a → s'.mem a = s.mem a
  seen : ∀ t v a, OutsideByte P a → userView s'.mem root' t v = some a →
    userView s.mem root t v = some a ∨ A a

section

variable {t p : Nat} {task : Task}

/-- One page of the code and data. -/
theorem UserSpaces.payloadPage (h : UserSpaces P s root role) (hroot : root t = some p)
    (hfits : ImageFits P task) {i : Word} (hmod : i.toNat % 4096 = 0)
    (hi : i < payloadSize task)
    (hmissing : missing s.mem (task.loadVaddr + i) 3 (BitVec.ofNat 64 p) ≤ Bitset.free s.bitset)
    (htarget : target P 4 3 ((task.loadPaddr + i) ||| 0x7) = none)
    (hunseen : ∀ t' v a, InPayload task a → task.loadPaddr.toNat + i.toNat ≤ a →
      userView s.mem root t' v ≠ some a) :
    let s' := s.mapPage P.base (BitVec.ofNat 64 p) (task.loadVaddr + i) (task.loadPaddr + i)
    (∃ role', UserSpaces P s' root role') ∧
      contents (userView s'.mem root) s'.mem =
        (contents (userView s.mem root) s.mem).assign t
          (fun v => task.loadVaddr.toNat + i.toNat ≤ v ∧
            v < task.loadVaddr.toNat + i.toNat + 4096) (codeByte s.mem task) ∧
      OutsideKept P s root s' root fun a =>
        task.loadPaddr.toNat + i.toNat ≤ a ∧ a < task.loadPaddr.toNat + i.toNat + 4096 := by
  have hi' : i.toNat < (payloadSize task).toNat := hi
  have h1 := hfits.vaddr_aligned
  have h2 := hfits.paddr_aligned
  have h3 := hfits.size_aligned
  have h4 := hfits.user
  have h5 := hfits.vaddr_max
  have h6 := hfits.high
  have h7 := hfits.paddr_max
  have hvaddr : (task.loadVaddr + i).toNat = task.loadVaddr.toNat + i.toNat := by
    rw [BitVec.toNat_add]
    omega
  have hpaddr : (task.loadPaddr + i).toNat = task.loadPaddr.toNat + i.toNat := by
    rw [BitVec.toNat_add]
    omega
  have hpayload : ∀ {a}, InPage (task.loadPaddr + i).toNat a → InPayload task a ∧
      task.loadPaddr.toNat + i.toNat ≤ a := by
    intro a ha
    unfold InPage at ha
    unfold InPayload
    omega
  have hnew : NewFrame P s root role (task.loadPaddr + i) := by
    refine ⟨.inl htarget, by omega, by omega, by omega, fun t' v a hview hin => ?_⟩
    exact hunseen t' v a (hpayload hin).1 (hpayload hin).2 hview
  obtain ⟨hspaces, hremaps, hdata⟩ := h.mapPage hroot (by omega) hmissing hnew
  have hpage : ∀ v, UserPage (task.loadVaddr + i).toNat v ↔
      task.loadVaddr.toNat + i.toNat ≤ v ∧ v < task.loadVaddr.toNat + i.toNat + 4096 := by
    intro v
    unfold UserPage pageNumber
    omega
  have hplace : ∀ v, task.loadVaddr.toNat + i.toNat ≤ v →
      v < task.loadVaddr.toNat + i.toNat + 4096 →
      (task.loadPaddr + i).toNat + v % 4096 =
        task.loadPaddr.toNat + (v - task.loadVaddr.toNat) := by
    intro v hlo hhi
    omega
  refine ⟨hspaces, ?_, fun a ha => hdata a ha.dataByte, fun t' v a _ hview => ?_⟩
  · rw [hremaps.contents fun t' a x hx => hdata x (h.dataByte hx)]
    refine Contents.assign_congr hpage fun v hv => ?_
    obtain ⟨hlo, hhi⟩ := (hpage v).mp hv
    have hin : InPage (task.loadPaddr + i).toNat ((task.loadPaddr + i).toNat + v % 4096) := by
      unfold InPage
      omega
    rw [hdata _ (hfits.outside (hpayload hin).1).dataByte, hplace v hlo hhi]
    rfl
  · by_cases hin : t' = t ∧ UserPage (task.loadVaddr + i).toNat v
    · rcases hin with ⟨rfl, hv⟩
      obtain rfl := Option.some.inj ((hremaps.moved v hv).symm.trans hview)
      exact .inr ⟨by omega, by omega⟩
    · exact .inl ((hremaps.other t' v hin).symm.trans hview)

/-- The loop over the code and data. -/
theorem UserSpaces.payloadLoop (hroot : root t = some p) (hpgt : task.pgt = BitVec.ofNat 64 p)
    (hfits : ImageFits P task) : ∀ {turns : Nat} {i : Word} {s : Phys} {role : Nat → PageRole},
      i.toNat % 4096 = 0 → i.toNat + 4096 * turns = (payloadSize task).toNat →
      UserSpaces P s root role → PayloadFits P 4 task turns i s →
      (∀ t' v a, InPayload task a → task.loadPaddr.toNat + i.toNat ≤ a →
        userView s.mem root t' v ≠ some a) →
      let s' := Rackdoll.payloadLoop P.base task turns i s
      (∃ role', UserSpaces P s' root role') ∧
        contents (userView s'.mem root) s'.mem =
          (contents (userView s.mem root) s.mem).assign t (CodeAddress task i.toNat)
            (codeByte s.mem task) ∧
        OutsideKept P s root s' root (InPayload task) := by
  intro turns
  induction turns with
  | zero =>
    intro i s role _ hsize h _ _
    refine ⟨⟨role, h⟩, (Contents.assign_of_empty fun v hv => ?_).symm, fun _ _ => rfl,
      fun _ _ _ _ hview => .inl hview⟩
    unfold CodeAddress at hv
    omega
  | succ turns ih =>
    intro i s role hmod hsize h hpayload hunseen
    have hlt := (payloadSize task).isLt
    have hi : i < payloadSize task := by
      show i.toNat < (payloadSize task).toNat
      omega
    have hnext : (i + 0x1000).toNat = i.toNat + 4096 := by
      rw [BitVec.toNat_add, show (0x1000 : Word).toNat = 4096 from rfl]
      omega
    obtain ⟨⟨-, htarget, hmissing⟩, hrest⟩ := hpayload hi
    rw [hpgt] at hmissing hrest
    obtain ⟨⟨role₁, h₁⟩, hcontents₁, hkept₁⟩ :=
      h.payloadPage hroot hfits hmod hi hmissing htarget hunseen
    have hunseen₁ : ∀ t' v a, InPayload task a → task.loadPaddr.toNat + (i + 0x1000).toNat ≤ a →
        userView (s.mapPage P.base (BitVec.ofNat 64 p) (task.loadVaddr + i)
          (task.loadPaddr + i)).mem root t' v ≠ some a := by
      intro t' v a ha hlo hview
      rw [hnext] at hlo
      rcases hkept₁.seen t' v a (hfits.outside ha) hview with hold | hpage
      · exact hunseen t' v a ha (by omega) hold
      · omega
    obtain ⟨hspaces, hcontents, hkept⟩ := ih (by omega) (by omega) h₁ hrest hunseen₁
    have hloop : Rackdoll.payloadLoop P.base task (turns + 1) i s =
        Rackdoll.payloadLoop P.base task turns (i + 0x1000)
          (s.mapPage P.base (BitVec.ofNat 64 p) (task.loadVaddr + i) (task.loadPaddr + i)) := by
      rw [Rackdoll.payloadLoop, if_pos hi, hpgt]
    have haligned := hfits.size_aligned
    dsimp only
    rw [hloop]
    refine ⟨hspaces, ?_, fun a ha => (hkept.apply a ha).trans (hkept₁.apply a ha),
      fun t' v a ha hview => ?_⟩
    · rw [hcontents, hcontents₁, hnext]
      have hbytes : ∀ v, CodeAddress task (i.toNat + 4096) v →
          codeByte (s.mapPage P.base (BitVec.ofNat 64 p) (task.loadVaddr + i)
            (task.loadPaddr + i)).mem task v = codeByte s.mem task v := by
        intro v hv
        refine hkept₁.apply _ (hfits.outside ?_)
        unfold CodeAddress at hv
        unfold InPayload
        omega
      rw [Contents.assign_congr (fun _ => Iff.rfl) hbytes, Contents.assign_assign]
      refine Contents.assign_congr (fun v => ?_) fun _ _ => rfl
      unfold CodeAddress
      omega
    · rcases hkept.seen t' v a ha hview with hold | hin
      · rcases hkept₁.seen t' v a ha hold with hold' | hpage
        · exact .inl hold'
        · exact .inr (by unfold InPayload; omega)
      · exact .inr hin

/-- The loop over the bss. -/
theorem UserSpaces.bssLoop (h : UserSpaces P s root role) (hroot : root t = some p)
    (hpgt : task.pgt = BitVec.ofNat 64 p) (hfits : ImageFits P task)
    (hbss : BssFits P 4 task (turns (bssSize task)) 0 s) :
    let s' := Rackdoll.bssLoop P.base task (turns (bssSize task)) 0 s
    (∃ role', UserSpaces P s' root role') ∧
      contents (userView s'.mem root) s'.mem =
        (contents (userView s.mem root) s.mem).assign t (BssAddress task) (fun _ => 0) ∧
      OutsideKept P s root s' root fun _ => False := by
  have hsize := hfits.bss
  by_cases hzero : bssSize task = 0
  · have hturns : turns (bssSize task) = 0 := by
      rw [hzero]
      rfl
    dsimp only
    rw [hturns]
    exact ⟨⟨role, h⟩, (Contents.assign_of_empty fun v hv => hv.1 hzero).symm, fun _ _ => rfl,
      fun _ _ _ _ hview => .inl hview⟩
  · have hpos : 0 < (bssSize task).toNat :=
      Nat.pos_of_ne_zero fun h0 => hzero (BitVec.eq_of_toNat_eq h0)
    have hturns : turns (bssSize task) = 1 := by
      unfold turns
      omega
    have hi : 0 < bssSize task := hpos
    rw [hturns] at hbss ⊢
    obtain ⟨⟨-, -, hmissing⟩, -⟩ := hbss hi
    have hadd : ∀ w : Word, w + 0 = w := fun w => BitVec.add_zero w
    rw [hpgt, hadd] at hmissing
    obtain ⟨s₁, q, halloc, hfresh, -⟩ := h.tables.alloc (by omega)
    have hcount := hfresh.free
    have h1 := hfits.vaddr_aligned
    have h2 := hfits.size_aligned
    have h3 := hfits.user
    have h4 := hfits.vaddr_max
    have hstart : (bssStartVaddr task).toNat =
        task.loadVaddr.toNat + (payloadSize task).toNat := by
      unfold bssStartVaddr
      rw [BitVec.toNat_add]
      omega
    obtain ⟨hspaces, hremaps, hcontents, hdata⟩ :=
      h.mapFresh hfresh hroot (v := bssStartVaddr task) (by omega) (by omega)
    have hloop : Rackdoll.bssLoop P.base task 1 0 s =
        s₁.mapPage P.base (BitVec.ofNat 64 p) (bssStartVaddr task) (BitVec.ofNat 64 q) := by
      rw [Rackdoll.bssLoop, if_pos hi, halloc, hpgt]
      dsimp only
      rw [Rackdoll.bssLoop, hadd, hadd]
    dsimp only
    rw [hloop]
    refine ⟨hspaces, ?_, fun a ha => hdata a ha.dataByte, fun t' v a ha hview => ?_⟩
    · rw [hcontents]
      refine Contents.assign_congr (fun v => ?_) fun _ _ => rfl
      unfold UserPage pageNumber BssAddress
      rw [and_iff_right hzero]
      omega
    · by_cases hin : t' = t ∧ UserPage (bssStartVaddr task).toNat v
      · rcases hin with ⟨rfl, hv⟩
        obtain rfl := Option.some.inj ((hremaps.moved v hv).symm.trans hview)
        exact absurd ⟨by omega, by omega⟩ (ha.2 q hfresh.page)
      · exact .inl ((hremaps.other t' v hin).symm.trans hview)

end

/-! ## Loads -/

/-- A space without a tree is empty. -/
theorem contents_of_root_none {mem : Mem} {t : Nat} (ht : root t = none) :
    contents (userView mem root) mem t = fun _ => none := by
  funext v
  refine contents_eq_none_iff.mpr (Option.eq_none_iff_forall_ne_some.mpr fun a hview => ?_)
  obtain ⟨-, r, x, hr, -⟩ := userView_eq_some.mp hview
  rw [ht] at hr
  cases hr

theorem imageMemory_congr {mem mem' : Mem} {image : Task}
    (h : ∀ a, InPayload image a → mem' a = mem a) :
    imageMemory mem' image = imageMemory mem image := by
  funext v
  unfold imageMemory
  refine ite_congr rfl (fun _ => rfl) fun _ => ite_congr rfl (fun hcode => ?_) fun _ => rfl
  unfold CodeAddress at hcode
  refine congrArg some (h _ ?_)
  unfold InPayload
  omega

/-- `load_task` gives the new task its image. -/
theorem UserSpaces.loadTask (h : UserSpaces P s root role) {t : Nat} (ht : root t = none)
    {image : Task} (hfits : ImageFits P image) (hload : LoadFits P 4 s image)
    (hunseen : ∀ t' v a, InPayload image a → userView s.mem root t' v ≠ some a) :
    ∃ s' p, loadTask P.base s image = (s', { image with pgt := BitVec.ofNat 64 p }) ∧
      p < 2 ^ 64 ∧ (∃ role', UserSpaces P s' (Function.update root t (some p)) role') ∧
        contents (userView s'.mem (Function.update root t (some p))) s'.mem =
          Function.update (contents (userView s.mem root) s.mem) t (imageMemory s.mem image) ∧
        OutsideKept P s root s' (Function.update root t (some p)) (InPayload image) := by
  rcases hload with ⟨hfree, hloops⟩
  obtain ⟨s₁, role₁, p, hlink, hp, h₁, hview₁, hmem₁⟩ := h.linkTables ht hfree image
  rw [hlink] at hloops
  rcases hloops with ⟨hpayload, hbss⟩
  have hroot : Function.update root t (some p) t = some p := Function.update_self _ _ _
  have hfits₁ : ImageFits P { image with pgt := BitVec.ofNat 64 p } := { hfits with }
  have hturns : (0 : Word).toNat + 4096 * turns (payloadSize image) =
      (payloadSize image).toNat := by
    have haligned := hfits.size_aligned
    unfold turns
    rw [show (0 : Word).toNat = 0 from rfl]
    omega
  obtain ⟨⟨role₂, h₂⟩, hcontents₂, hkept₂⟩ := UserSpaces.payloadLoop hroot rfl hfits₁
    (show (0 : Word).toNat % 4096 = 0 from rfl) hturns h₁ hpayload
    fun t' v a ha _ => by rw [hview₁]; exact hunseen t' v a ha
  obtain ⟨hspaces, hcontents, hkept⟩ := h₂.bssLoop hroot rfl hfits₁ hbss
  have houtside : ∀ a, OutsideByte P a → s₁.mem a = s.mem a := fun a ha => hmem₁ a ha.not_free
  have hcontents₁ : contents (userView s₁.mem (Function.update root t (some p))) s₁.mem =
      contents (userView s.mem root) s.mem := by
    rw [hview₁]
    refine contents_congr fun t' v a hview => hmem₁ a fun hfree => ?_
    obtain ⟨q, hq, hclear, hin⟩ := hfree
    exact absurd (((h.dataByte hview).2 q hq hin).1.symm.trans hclear) (by decide)
  unfold Rackdoll.loadTask
  rw [hlink]
  refine ⟨_, p, rfl, hp, hspaces, ?_, fun a ha => ?_, fun t' v a ha hview => ?_⟩
  · refine hcontents.trans ?_
    rw [hcontents₂, hcontents₁]
    have hbytes : ∀ v, CodeAddress image 0 v →
        codeByte s₁.mem image v = codeByte s.mem image v := by
      intro v hv
      refine houtside _ (hfits.outside ?_)
      unfold CodeAddress at hv
      unfold InPayload
      omega
    funext t' v
    by_cases heq : t' = t
    · subst heq
      rw [Function.update_self]
      unfold imageMemory
      by_cases hb : BssAddress image v
      · rw [if_pos hb]
        exact Contents.assign_of_mem hb
      · rw [if_neg hb]
        refine (Contents.assign_of_not_mem hb).trans ?_
        by_cases hc : CodeAddress image 0 v
        · rw [if_pos hc, ← hbytes v hc]
          exact Contents.assign_of_mem hc
        · rw [if_neg hc]
          refine (Contents.assign_of_not_mem hc).trans ?_
          rw [contents_of_root_none ht]
    · rw [Function.update_of_ne heq, Contents.assign_of_ne heq, Contents.assign_of_ne heq]
  · exact (hkept.apply a ha).trans ((hkept₂.apply a ha).trans (houtside a ha))
  · rcases hkept.seen t' v a ha hview with hold | hno
    · rcases hkept₂.seen t' v a ha hold with hold' | hin
      · exact .inl (hview₁ ▸ hold')
      · exact .inr hin
    · exact hno.elim

/-- The system with one task more. -/
def System.push (s : System) (phys : Phys) (task : Task) : System where
  phys := phys
  sched :=
    { s.sched with
      fifo := Function.update s.sched.fifo s.sched.fifoSize task
      fifoSize := s.sched.fifoSize + 1 }

@[simp] theorem System.push_size (s : System) (phys : Phys) (task : Task) :
    (s.push phys task).sched.fifoSize = s.sched.fifoSize + 1 := rfl

theorem System.push_fifo (s : System) (phys : Phys) (task : Task) :
    (s.push phys task).sched.fifo s.sched.fifoSize = task := Function.update_self _ _ _

theorem System.push_roots (s : System) (phys : Phys) {task : Task} {p : Nat} (hp : p < 2 ^ 64)
    (hpgt : task.pgt = BitVec.ofNat 64 p) :
    (s.push phys task).roots = Function.update s.roots s.sched.fifoSize (some p) := by
  funext t
  unfold System.roots
  by_cases ht : t = s.sched.fifoSize
  · subst ht
    rw [Function.update_self, push_size, if_pos (Nat.lt_succ_self _), push_fifo, hpgt,
      BitVec.toNat_ofNat, Nat.mod_eq_of_lt hp]
  · have hfifo : (s.push phys task).sched.fifo t = s.sched.fifo t := Function.update_of_ne ht _ _
    rw [Function.update_of_ne ht, hfifo, push_size]
    exact if_congr (by omega) rfl rfl

theorem loadTasks_size_le (pool : Nat) : ∀ (images : List Task) (s : System),
    s.sched.fifoSize ≤ (loadTasks pool s images).sched.fifoSize := by
  intro images
  induction images with
  | nil => exact fun s => Nat.le_refl _
  | cons image images ih => exact fun s => (addTask_fifo pool s image).2.1.trans (ih _)

/-- The code and data of two images have no common byte. -/
def PayloadsApart (image image' : Task) : Prop := ∀ a, InPayload image a → ¬ InPayload image' a

/-- `load_tasks` gives each task its image. -/
theorem loadTasks_spaces {mem : Mem} : ∀ {images : List Task} {s : System},
    (∃ role, UserSpaces P s.phys s.roots role) → LoadsFit P 4 s images →
    (∀ image ∈ images, ImageFits P image) → images.Pairwise PayloadsApart →
    (∀ image ∈ images, ∀ t v a, InPayload image a →
      userView s.phys.mem s.roots t v ≠ some a) →
    (∀ a, OutsideByte P a → s.phys.mem a = mem a) →
    let s' := loadTasks P.base s images
    (∃ role, UserSpaces P s'.phys s'.roots role) ∧
      ∀ t, contents (userView s'.phys.mem s'.roots) s'.phys.mem t =
        if t < s.sched.fifoSize then contents (userView s.phys.mem s.roots) s.phys.mem t
        else if t < s'.sched.fifoSize then imageMemory mem (s'.sched.fifo t)
        else fun _ => none := by
  intro images
  induction images with
  | nil =>
    intro s hspaces _ _ _ _ _
    refine ⟨hspaces, fun t => ?_⟩
    by_cases ht : t < s.sched.fifoSize
    · exact (if_pos ht).symm
    · rw [if_neg ht]
      refine Eq.trans ?_ (if_neg ht).symm
      exact contents_of_root_none (if_neg ht)
  | cons image images ih =>
    intro s hspaces hload hfits hapart hunseen hmem
    rcases hload with ⟨hfirst, hrest⟩
    obtain ⟨himage, hothers⟩ := List.forall_mem_cons.mp hfits
    obtain ⟨hnotSeen, hnotSeenRest⟩ := List.forall_mem_cons.mp hunseen
    obtain ⟨happ, hpairs⟩ := List.pairwise_cons.mp hapart
    rw [loadTasks]
    by_cases hsize : s.sched.fifoSize = TASK_FIFO_LEN
    · have hsame : addTask P.base s image = s := if_pos hsize
      rw [hsame] at hrest ⊢
      exact ih hspaces hrest hothers hpairs hnotSeenRest hmem
    · rcases hspaces with ⟨role, h⟩
      have hnone : s.roots s.sched.fifoSize = none := if_neg (Nat.lt_irrefl _)
      obtain ⟨phys, p, hloaded, hp, hspaces₁, hcontents₁, hkept₁⟩ :=
        h.loadTask hnone himage (hfirst hsize) hnotSeen
      have hadd : addTask P.base s image =
          s.push phys { image with pgt := BitVec.ofNat 64 p } := by
        unfold addTask
        rw [if_neg hsize, hloaded]
        rfl
      have hroots := s.push_roots phys hp
        (show ({ image with pgt := BitVec.ofNat 64 p } : Task).pgt = BitVec.ofNat 64 p from rfl)
      rw [hadd] at hrest ⊢
      have hseen : ∀ image' ∈ images, ∀ t v a, InPayload image' a →
          userView phys.mem (s.push phys { image with pgt := BitVec.ofNat 64 p }).roots t v ≠
            some a := by
        intro image' hin t v a ha hview
        rw [hroots] at hview
        rcases hkept₁.seen t v a ((hothers image' hin).outside ha) hview with hold | himg
        · exact hnotSeenRest image' hin t v a ha hold
        · exact happ image' hin a himg ha
      obtain ⟨hfinal, hcontents⟩ := ih (by rw [hroots]; exact hspaces₁) hrest
        hothers hpairs hseen fun a ha => (hkept₁.apply a ha).trans (hmem a ha)
      refine ⟨hfinal, fun t => (hcontents t).trans ?_⟩
      have hpushed : contents (userView phys.mem
          (s.push phys { image with pgt := BitVec.ofNat 64 p }).roots) phys.mem = _ :=
        (congrArg (fun root => contents (userView phys.mem root) phys.mem) hroots).trans hcontents₁
      have hsize₁ := s.push_size phys { image with pgt := BitVec.ofNat 64 p }
      have hle := loadTasks_size_le P.base images
        (s.push phys { image with pgt := BitVec.ofNat 64 p })
      have hslot := loadTasks_fifo P.base images
        (s.push phys { image with pgt := BitVec.ofNat 64 p }) s.sched.fifoSize (by omega)
      rw [hsize₁]
      by_cases ht : t < s.sched.fifoSize
      · rw [if_pos (by omega), if_pos ht]
        exact (congrFun hpushed t).trans (Function.update_of_ne (by omega) _ _)
      · rw [if_neg ht]
        by_cases hnew : t = s.sched.fifoSize
        · subst hnew
          rw [if_pos (Nat.lt_succ_self _), if_pos (by omega), hslot, s.push_fifo]
          refine (congrFun hpushed _).trans ((Function.update_self _ _ _).trans ?_)
          exact (imageMemory_congr fun a ha => (hmem a (himage.outside ha)).symm).symm
        · rw [if_neg (by omega)]

/-- Before `load_tasks` nothing is seen. -/
theorem userSpaces_boot {mem : Mem} (sched : Kernel)
    (hpool : ∀ a, P.base ≤ a → a < P.base + PHYSICAL_POOL_PAGES * PAGE_SIZE → mem a = 0) :
    (∃ role, UserSpaces P (System.boot mem sched).phys (System.boot mem sched).roots role) ∧
      ∀ t v a, userView mem (System.boot mem sched).roots t v ≠ some a := by
  have hroot : ∀ t, (System.boot mem sched).roots t = none := fun t => if_neg (Nat.not_lt_zero t)
  have hview : ∀ t v a, userView mem (System.boot mem sched).roots t v ≠ some a := by
    intro t v a hview
    obtain ⟨-, r, x, hr, -⟩ := userView_eq_some.mp hview
    rw [hroot] at hr
    cases hr
  obtain ⟨role, htables, hzero⟩ :
      Trees P 4 (System.boot mem sched).phys (System.boot mem sched).roots := trees_boot hpool
  refine ⟨⟨role, htables, hzero, fun t r v hr => ?_, fun t v _ => ?_, fun t r v x hr => ?_,
    fun t t' v v' a h => absurd h (hview t v a), fun t v a h => absurd h (hview t v a)⟩, hview⟩
  · rw [hroot] at hr
    cases hr
  · exact Option.eq_none_iff_forall_ne_some.mpr fun a => hview t v a
  · rw [hroot] at hr
    cases hr

/-- After `load_tasks` the memory of each task is its image. -/
theorem loadTasks_memory {mem : Mem} {sched : Kernel} {images : List Task}
    (hpool : ∀ a, P.base ≤ a → a < P.base + PHYSICAL_POOL_PAGES * PAGE_SIZE → mem a = 0)
    (hload : LoadsFit P 4 (System.boot mem sched) images)
    (hfits : ∀ image ∈ images, ImageFits P image) (hapart : images.Pairwise PayloadsApart) :
    let s := loadTasks P.base (System.boot mem sched) images
    (∃ role, UserSpaces P s.phys s.roots role) ∧
      ∀ t, contents (userView s.phys.mem s.roots) s.phys.mem t =
        if t < s.sched.fifoSize then imageMemory mem (s.sched.fifo t) else fun _ => none := by
  obtain ⟨hspaces, hview⟩ := userSpaces_boot sched hpool
  obtain ⟨hfinal, hcontents⟩ := loadTasks_spaces hspaces hload hfits hapart
    (fun _ _ t v a _ => hview t v a) fun _ _ => rfl
  exact ⟨hfinal, fun t => (hcontents t).trans (if_neg (Nat.not_lt_zero t))⟩

end KernelMemVirt.Rackdoll
