import KernelMemVirt.Lib.AddressSpace
import KernelMemVirt.Rackdoll.HeapPages
import KernelMemVirt.Rackdoll.LoadTask

/-!
# What the tasks see of the memory

`userView` is the view of the tasks: the physical address of each address that a task may
access.  `UserSpaces` is the invariant of the page tables: from 1 GiB on the tables allow
all accesses of the user, below 1 GiB he sees nothing, and no byte is seen at two
addresses.

* `Tables.tableAt_iff` relates the roles to the tables that the processor finds, so that
  the rules for its walk apply.
* `UserSpaces.addTable` and `UserSpaces.setLeaf` are the two kinds of writes that `map_page`
  makes: a new table changes no translation, a last entry moves one page of one task.
* `UserSpaces.mapPage` is the function, and `UserSpaces.mmap` says that a call of `mmap` gives
  the task a page of zeros, and changes nothing else that a task can see.
-/

namespace KernelMemVirt.Rackdoll

open ByteMem OwnerTree AddressSpace

variable {P : PoolRegion} {n : Nat} {s : Phys} {root : Nat → Option Nat} {role : Nat → PageRole}

/-! ## The tables that the processor finds -/

namespace Tables

/-- The tables below a table are those with this role. -/
theorem child_iff (h : Tables P n s root role) (hn : 3 ≤ n) {d p i q : Nat}
    (hp : (role p).depth = some d) (hd : d < 3) (hi : i < 512) :
    child s.mem d p i = some q ↔ role q = .entry d p i := by
  constructor
  · intro hchild
    obtain ⟨-, -, hpresent, hhuge, rfl⟩ := child_eq_some hchild
    rcases h.table p d hp hd i hi with hzero | ⟨q, hq, hlinks⟩ | ⟨⟨t, hat⟩, -, hkernel⟩
    · rw [hzero] at hpresent
      exact absurd hpresent (by decide)
    · rw [hlinks.frame]
      exact h.role_of_links hp (by omega) hi hq hlinks
    · obtain rfl : d = 2 := Option.some.inj (hp.symm.trans hat.depth)
      rw [hkernel] at hhuge
      exact absurd hhuge (by decide)
  · intro hrole
    have hlink := (h.live q d p i hrole hd).2
    rw [link_eq hi] at hlink
    unfold target at hlink
    split at hlink
    · next hcond =>
      obtain rfl := Option.some.inj hlink
      refine if_pos ⟨hi, hd, hcond.2.1, ?_⟩
      rcases hcond.2.2.1 with h0 | h3 | hhuge
      · exact .inl h0
      · omega
      · exact .inr hhuge
    · cases hlink

/-- The roles agree with the entries that the processor follows. -/
theorem ownedChild (h : Tables P n s root role) (hn : 3 ≤ n) : Owned (child s.mem) root role := by
  refine ⟨h.owned.root, fun d p i q hp hchild => ?_⟩
  obtain ⟨hi, hd, -⟩ := child_eq_some hchild
  exact (h.child_iff hn hp hd hi).mp hchild

theorem unsharedTables (h : Tables P n s root role) (hn : 3 ≤ n) {t r : Nat}
    (hroot : root t = some r) : UnsharedTables s.mem r := (h.ownedChild hn).unshared hroot

/-- The processor finds the tables where the roles say. -/
theorem tableAt_iff (h : Tables P n s root role) (hn : 3 ≤ n) {t r v : Nat}
    (hroot : root t = some r) : ∀ {d p : Nat}, d ≤ 3 →
      (tableAt s.mem r v d = some p ↔ At role t v d p) := by
  intro d
  induction d with
  | zero =>
    intro p _
    constructor
    · intro hp
      obtain rfl : r = p := Option.some.inj hp
      exact h.owned.root t r hroot
    · intro hat
      exact hroot.symm.trans (h.rooted p t hat)
  | succ d ih =>
    intro q hd
    rw [tableAt_succ, Option.bind_eq_some_iff]
    refine exists_congr fun p => ?_
    rw [ih (by omega)]
    exact and_congr_right fun hat => h.child_iff hn hat.depth (by omega) (pathIndex_lt v d)

theorem root_page (h : Tables P n s root role) {t r : Nat} (hroot : root t = some r) :
    P.IsPage r := h.page r (by rw [h.owned.root t r hroot]; simp)

/-- The translation with the tables of a task. -/
theorem translate_root (h : Tables P n s root role) {t r : Nat} (hroot : root t = some r)
    (mem : Mem) (v : Nat) : translate mem (BitVec.ofNat 64 r) v = walkFrom mem v 4 r := by
  unfold translate
  rw [(h.root_page hroot).frame_ofNat]

end Tables

/-! ## The view -/

/-- The physical address of each address that the task may access, in the 48 bits that are
translated. -/
def userView (mem : Mem) (root : Nat → Option Nat) : View Nat Nat Nat := fun t v =>
  if v < 2 ^ 48 then
    (root t).bind fun r =>
      ((translate mem (BitVec.ofNat 64 r) v).filter Translation.user).map Translation.paddr
  else none

theorem userView_eq_some {mem : Mem} {t v a : Nat} :
    userView mem root t v = some a ↔ v < 2 ^ 48 ∧ ∃ r x, root t = some r ∧
      translate mem (BitVec.ofNat 64 r) v = some x ∧ x.user = true ∧ x.paddr = a := by
  unfold userView
  split
  · next hv =>
    rw [Option.bind_eq_some_iff, and_iff_right hv]
    refine exists_congr fun r => ?_
    rw [Option.map_eq_some_iff]
    constructor
    · rintro ⟨hr, x, hx, hpaddr⟩
      obtain ⟨hwalk, huser⟩ := Option.filter_eq_some_iff.mp hx
      exact ⟨x, hr, hwalk, huser, hpaddr⟩
    · rintro ⟨x, hr, hwalk, huser, hpaddr⟩
      exact ⟨hr, x, Option.filter_eq_some_iff.mpr ⟨hwalk, huser⟩, hpaddr⟩
  · next hv =>
    exact iff_of_false (fun h => nomatch h) fun h => hv h.1

/-- The tables of all tasks translate each address as before. -/
def SameTranslations (root : Nat → Option Nat) (mem mem' : Mem) : Prop :=
  ∀ t r v, root t = some r →
    translate mem' (BitVec.ofNat 64 r) v = translate mem (BitVec.ofNat 64 r) v

theorem SameTranslations.userView {mem mem' : Mem} (h : SameTranslations root mem mem') :
    userView mem' root = userView mem root := by
  funext t v
  unfold Rackdoll.userView
  refine ite_congr rfl (fun _ => ?_) fun _ => rfl
  cases hr : root t with
  | none => rfl
  | some r =>
    rw [Option.bind_some, Option.bind_some, h t r v hr]

/-- The present entries on the way of `v`, above the last one, allow writes of the user. -/
def UserWay (mem : Mem) (root v : Nat) : Prop :=
  ∀ d p, d < 3 → tableAt mem root v d = some p → present (entry mem p (pathIndex v d)) = true →
    (entry mem p (pathIndex v d)).getLsbD 1 = true ∧
      (entry mem p (pathIndex v d)).getLsbD 2 = true

/-- A byte of no page table, of no free page and not of page 0. -/
def DataByte (P : PoolRegion) (s : Phys) (role : Nat → PageRole) (a : Nat) : Prop :=
  0x1000 ≤ a ∧ ∀ q, P.IsPage q → InPage q a →
    P.allocated s.bitset q = true ∧ (role q = .free ∨ (role q).depth = some 4)

/-- The tasks see private memory, from 1 GiB on. -/
structure UserSpaces (P : PoolRegion) (s : Phys) (root : Nat → Option Nat)
    (role : Nat → PageRole) : Prop where
  tables : Tables P 4 s root role
  zeroFree : ZeroFree P s
  way : ∀ t r v, root t = some r → 0x40000000 ≤ v % 2 ^ 48 → UserWay s.mem r v
  hidden : ∀ t v, v < 0x40000000 → userView s.mem root t v = none
  writable : ∀ t r v x, root t = some r → translate s.mem (BitVec.ofNat 64 r) v = some x →
    x.user = true → x.writable = true
  unaliased : Unaliased (userView s.mem root)
  high : ∀ t v a, userView s.mem root t v = some a → 0x1000 ≤ a

namespace UserSpaces

/-- What a task sees is in no page table and in no free page. -/
theorem dataByte (h : UserSpaces P s root role) {t v a : Nat}
    (hview : userView s.mem root t v = some a) : DataByte P s role a := by
  refine ⟨h.high t v a hview, fun q hq hin => ?_⟩
  obtain ⟨-, r, x, hroot, hx, huser, rfl⟩ := userView_eq_some.mp hview
  have hdepth := h.tables.paddr_page hroot huser hx hq hin.1 hin.2
  exact ⟨h.tables.allocated q (ne_free_of_depth hdepth), .inr hdepth⟩

/-- A change that no translation shows. -/
theorem of_sameTranslations (h : UserSpaces P s root role) {s' : Phys} {role' : Nat → PageRole}
    (htables : Tables P 4 s' root role') (hzero : ZeroFree P s')
    (hway : ∀ t r v, root t = some r → 0x40000000 ≤ v % 2 ^ 48 → UserWay s'.mem r v)
    (hsame : SameTranslations root s.mem s'.mem) : UserSpaces P s' root role' where
  tables := htables
  zeroFree := hzero
  way := hway
  hidden := hsame.userView ▸ h.hidden
  writable := by
    intro t r v x hroot hx
    rw [hsame t r v hroot] at hx
    exact h.writable t r v x hroot hx
  unaliased := hsame.userView ▸ h.unaliased
  high := hsame.userView ▸ h.high

/-- Memory apart from the tables may change, and the bits of the pages without a use. -/
theorem of_agree_tables (h : UserSpaces P s root role) {s' : Phys}
    (hwords : s'.bitset.length = BITSET_SIZE)
    (hmem : ∀ q d, (role q).depth = some d → d < 4 → ∀ a, q ≤ a → a < q + 4096 →
      s'.mem a = s.mem a)
    (hbits : ∀ q, role q ≠ .free → P.allocated s'.bitset q = true) (hzero : ZeroFree P s') :
    UserSpaces P s' root role ∧ SameTranslations root s.mem s'.mem := by
  have htables : Tables P 4 s' root role :=
    h.tables.of_agree_tables hwords (fun q d hq hd => hmem q d hq (by omega)) hbits
  have hagree : ∀ {t r v}, root t = some r → AgreeOn s.mem s'.mem r v 4 := by
    intro t r v hroot d p hd hp
    have hat := (h.tables.tableAt_iff (by omega) hroot (by omega)).mp hp
    exact entry_congr (hmem p d hat.depth hd) (pathIndex_lt v d)
  have hsame : SameTranslations root s.mem s'.mem := by
    intro t r v hroot
    rw [h.tables.translate_root hroot, h.tables.translate_root hroot]
    exact walkFrom_congr (hagree hroot)
  refine ⟨h.of_sameTranslations htables hzero (fun t r v hroot hv d p hd hp hpresent => ?_) hsame,
    hsame⟩
  have hp' := (tableAt_congr (hagree hroot) (show d ≤ 4 by omega)).symm.trans hp
  rw [hagree hroot d p (by omega) hp'] at hpresent ⊢
  exact h.way t r v hroot hv d p hd hp' hpresent

end UserSpaces

/-! ## A new table -/

/-- The missing table of `v` becomes the page `q`. -/
def withTable (s : Phys) (v d p q : Nat) : Phys :=
  { s with mem := write64 s.mem (p + 8 * pathIndex v d) (BitVec.ofNat 64 q ||| 0x7) }

/-- The tables of a task are apart from its data. -/
theorem DataByte.apply_of_table {a p i : Nat} {mem : Mem} {e : Word} (h : DataByte P s role a)
    (hp : P.IsPage p) {d : Nat} (hdepth : (role p).depth = some d) (hd : d ≠ 4) (hi : i < 512) :
    write64 mem (p + 8 * i) e a = mem a := by
  have hpmod := hp.aligned
  apply writeBytes_apply_of_outside
  by_contra hin
  obtain ⟨-, hfree | h4⟩ := h.2 p hp ⟨by omega, by omega⟩
  · exact ne_free_of_depth hdepth hfree
  · exact hd (Option.some.inj (hdepth.symm.trans h4))

/-- What a change of the tables keeps: the bytes of data, and the pages that wait for a
use. -/
structure DataKept (P : PoolRegion) (s : Phys) (role : Nat → PageRole) (s' : Phys)
    (role' : Nat → PageRole) : Prop where
  apply : ∀ a, DataByte P s role a → s'.mem a = s.mem a
  data : ∀ a, DataByte P s role a → DataByte P s' role' a
  unused : ∀ q, P.IsPage q → P.allocated s.bitset q = true → role q = .free → role' q = .free

theorem DataKept.refl (P : PoolRegion) (s : Phys) (role : Nat → PageRole) :
    DataKept P s role s role := ⟨fun _ _ => rfl, fun _ h => h, fun _ _ _ h => h⟩

/-- A page that waits for a use is data. -/
theorem dataByte_of_unused {q a : Nat} (hq : P.IsPage q) (hbit : P.allocated s.bitset q = true)
    (hfree : role q = .free) (ha : InPage q a) : DataByte P s role a := by
  have hlt := hq.lt
  have hmod := hq.aligned
  unfold InPage at ha
  refine ⟨by omega, fun x hx hin => ?_⟩
  have hxmod := hx.aligned
  unfold InPage at hin
  obtain rfl : x = q := by omega
  exact ⟨hbit, .inl hfree⟩

theorem DataKept.trans {s₁ s₂ : Phys} {role₁ role₂ : Nat → PageRole}
    (h : DataKept P s role s₁ role₁) (h' : DataKept P s₁ role₁ s₂ role₂) :
    DataKept P s role s₂ role₂ where
  apply := fun a ha => (h'.apply a (h.data a ha)).trans (h.apply a ha)
  data := fun a ha => h'.data a (h.data a ha)
  unused := by
    intro q hq hbit hfree
    have hmod := hq.aligned
    have hdata : DataByte P s₁ role₁ q :=
      h.data q (dataByte_of_unused hq hbit hfree ⟨Nat.le_refl q, by omega⟩)
    exact h'.unused q hq (hdata.2 q hq ⟨Nat.le_refl q, by omega⟩).1 (h.unused q hq hbit hfree)

section

variable {s₁ : Phys} {t v d p q : Nat}

/-- The trees with the new table. -/
theorem Fresh.tables (hfresh : Fresh P s s₁ role q) (h : Tables P 4 s root role)
    (hzero : ZeroFree P s) (hat : At role t v d p) (hd : d < 3)
    (hmissing : present (entry s.mem p (pathIndex v d)) = false) :
    Tables P 4 (withTable s₁ v d p q) root
      (Function.update role q (.entry d p (pathIndex v d))) := by
  have hqlt := hfresh.page.lt
  have hlinks : Links (BitVec.ofNat 64 q ||| 0x7) q :=
    links_or hfresh.page.aligned (by omega) (by decide) (by decide) (by decide)
  have hkeep : ∀ x, role x ≠ .free → P.allocated s₁.bitset x = true :=
    fun x hx => hfresh.keeps (h.page x hx) (h.allocated x hx)
  have htables₁ : Tables P 4 s₁ root role :=
    h.of_agree hfresh.words (fun _ _ _ _ _ => by rw [hfresh.mem]) hkeep
  refine htables₁.attach hat.depth (by omega) (Nat.le_refl 4) (pathIndex_lt v d)
    (fun _ => by rw [hfresh.mem]; exact hmissing) hfresh.page hfresh.unused hfresh.allocated
    (fun _ => ?_) hlinks
  rw [hfresh.mem]
  exact hzero q hfresh.page hfresh.unallocated

/-- The entries with the new table, which is empty. -/
theorem Fresh.entry (hfresh : Fresh P s s₁ role q) (hzero : ZeroFree P s) (hp : P.IsPage p)
    (hpq : p ≠ q) {x i : Nat} (hx : x % 4096 = 0) (hi : i < 512) :
    entry (withTable s₁ v d p q).mem x i =
      if x = p ∧ i = pathIndex v d then BitVec.ofNat 64 q ||| 0x7
      else if x = q then 0 else entry s.mem x i := by
  have hwrite : Rackdoll.entry (withTable s₁ v d p q).mem x i = _ :=
    entry_write64 hp.aligned hx (pathIndex_lt v d) hi
  rw [hwrite, hfresh.mem]
  refine ite_congr rfl (fun _ => rfl) fun _ => ?_
  split
  · next hxq =>
    subst hxq
    exact entry_zero (hzero x hfresh.page hfresh.unallocated) hi
  · rfl

/-- An empty table changes no translation: the addresses that lead to it had none. -/
theorem Fresh.sameTranslations (hfresh : Fresh P s s₁ role q) (h : Tables P 4 s root role)
    (hzero : ZeroFree P s) (hat : At role t v d p) (hd : d < 3)
    (hmissing : present (Rackdoll.entry s.mem p (pathIndex v d)) = false) :
    SameTranslations root s.mem (withTable s₁ v d p q).mem := by
  have hp := h.page p hat.ne_free
  have hpq : p ≠ q := fun heq => hat.ne_free (heq ▸ hfresh.unused)
  have htables := hfresh.tables h hzero hat hd hmissing
  have hentry := fun {x i : Nat} => hfresh.entry (v := v) (d := d) hzero hp hpq (x := x) (i := i)
  intro t' r v' hroot
  have hrmod := (h.root_page hroot).aligned
  rw [h.translate_root hroot, h.translate_root hroot]
  by_cases hway : ∃ k, k < 4 ∧ tableAt s.mem r v' k = some p ∧ pathIndex v' k = pathIndex v d
  · obtain ⟨k, hk, hpath, hindex⟩ := hway
    have hat' := (h.tableAt_iff (by omega) hroot (by omega)).mp hpath
    obtain ⟨rfl, -, -⟩ := hat'.unique hat
    have hnext : At (Function.update role q (.entry k p (pathIndex v k))) t' v' (k + 1) q :=
      ⟨p, hat'.mono (keep_of_free hfresh.unused), by rw [Function.update_self, hindex]⟩
    have hpath' := (htables.tableAt_iff (by omega) hroot (by omega)).mpr hnext
    rw [translate_eq_none hpath (by rw [hindex]; exact hmissing), translate_eq_none hpath']
    rw [hentry hfresh.page.aligned (pathIndex_lt v' _), if_neg fun heq => hpq heq.1.symm,
      if_pos rfl]
    decide
  · have hmem : (withTable s₁ v d p q).mem =
        write64 s.mem (p + 8 * pathIndex v d) (BitVec.ofNat 64 q ||| 0x7) := by
      unfold withTable
      rw [hfresh.mem]
    rw [hmem]
    refine walkFrom_congr (agreeOn_write hrmod hp.aligned (pathIndex_lt v d) ?_)
    exact fun k hk hpath hindex => hway ⟨k, hk, hpath, hindex⟩

/-- The new entry allows writes of the user. -/
theorem Fresh.userWay (hfresh : Fresh P s s₁ role q) (h : Tables P 4 s root role)
    (hzero : ZeroFree P s) (hat : At role t v d p) (hd : d < 3)
    (hmissing : present (Rackdoll.entry s.mem p (pathIndex v d)) = false) {t' r v' : Nat}
    (hroot : root t' = some r) (hway : UserWay s.mem r v') :
    UserWay (withTable s₁ v d p q).mem r v' := by
  have hp := h.page p hat.ne_free
  have hpq : p ≠ q := fun heq => hat.ne_free (heq ▸ hfresh.unused)
  have hqmod := hfresh.page.aligned
  have hqlt := hfresh.page.lt
  have htables := hfresh.tables h hzero hat hd hmissing
  intro k x hk hx hpresent
  have hat' := (htables.tableAt_iff (by omega) hroot (by omega)).mp hx
  rw [hfresh.entry hzero hp hpq (htables.aligned hat'.depth) (pathIndex_lt v' k)]
    at hpresent ⊢
  split
  · exact ⟨(getLsbD_ofNat_or _ hqmod (by omega) (.inl (by omega))).trans rfl,
      (getLsbD_ofNat_or _ hqmod (by omega) (.inl (by omega))).trans rfl⟩
  · next hother =>
    rw [if_neg hother] at hpresent
    split at hpresent
    · exact absurd hpresent (by decide)
    · next hxq =>
      rw [if_neg hxq]
      have hused : role x ≠ .free := by
        have hne := hat'.ne_free
        rwa [Function.update_of_ne hxq] at hne
      have hold := h.at_of_keep (keep_of_free hfresh.unused) (by omega) hused hat'
      exact hway k x hk ((h.tableAt_iff (by omega) hroot (by omega)).mpr hold) hpresent

theorem Fresh.dataKept (hfresh : Fresh P s s₁ role q) (h : Tables P 4 s root role)
    (hat : At role t v d p) (hd : d < 3) :
    DataKept P s role (withTable s₁ v d p q)
      (Function.update role q (.entry d p (pathIndex v d))) := by
  have hother : ∀ {x}, P.IsPage x → P.allocated s.bitset x = true → x ≠ q := by
    intro x _ hbit heq
    subst heq
    exact absurd (hbit.symm.trans hfresh.unallocated) (by decide)
  refine ⟨fun a ha => ?_, fun a ha => ⟨ha.1, fun x hx hin => ?_⟩, fun x hx hbit hfree => ?_⟩
  · have hwrite : (withTable s₁ v d p q).mem a = s₁.mem a :=
      ha.apply_of_table (h.page p hat.ne_free) hat.depth (by omega) (pathIndex_lt v d)
    rw [hwrite, hfresh.mem]
  · obtain ⟨hbit, huse⟩ := ha.2 x hx hin
    rw [Function.update_of_ne (hother hx hbit)]
    exact ⟨hfresh.keeps hx hbit, huse⟩
  · rw [Function.update_of_ne (hother hx hbit)]
    exact hfree

/-- A new table. -/
theorem UserSpaces.addTable (h : UserSpaces P s root role) (hat : At role t v d p) (hd : d < 3)
    (hmissing : present (Rackdoll.entry s.mem p (pathIndex v d)) = false)
    (hfresh : Fresh P s s₁ role q) :
    UserSpaces P (withTable s₁ v d p q) root
      (Function.update role q (.entry d p (pathIndex v d))) := by
  have hp := h.tables.page p hat.ne_free
  refine h.of_sameTranslations (hfresh.tables h.tables h.zeroFree hat hd hmissing) ?_ ?_
    (hfresh.sameTranslations h.tables h.zeroFree hat hd hmissing)
  · exact (hfresh.zeroFree h.zeroFree).write hp
      (hfresh.keeps hp (h.tables.allocated p hat.ne_free)) (pathIndex_lt v d)
  · intro t' r v' hroot hv'
    exact hfresh.userWay h.tables h.zeroFree hat hd hmissing hroot (h.way t' r v' hroot hv')

end

/-! ## The loop of `map_page` -/

/-- The loop of `map_page` finds the last table of the address, and no task sees a
change. -/
theorem UserSpaces.descend {t : Nat} {v : Word} (hlow : ¬ LowAddress v.toNat) :
    ∀ {turns d p : Nat} {s : Phys} {role : Nat → PageRole}, d + turns = 3 →
      UserSpaces P s root role → At role t v.toNat d p →
      missing s.mem v turns (BitVec.ofNat 64 p) ≤ Bitset.free s.bitset →
      ∃ s' role' q, Phys.descend P.base v turns s (BitVec.ofNat 64 p) = (s', BitVec.ofNat 64 q) ∧
        UserSpaces P s' root role' ∧ SameTranslations root s.mem s'.mem ∧
          DataKept P s role s' role' ∧ At role' t v.toNat 3 q := by
  intro turns
  induction turns with
  | zero =>
    intro d p s role hd h hat _
    obtain rfl : d = 3 := hd
    exact ⟨s, role, p, rfl, h, fun _ _ _ _ => rfl, .refl P s role, hat⟩
  | succ turns ih =>
    intro d p s role hd h hat hmissing
    have hslot := slot_at v (h.tables.page p hat.ne_free)
      (show d + (turns + 2) = 4 by omega) (by omega)
    unfold Phys.descend Phys.enterTable
    unfold missing at hmissing
    rw [hslot] at hmissing ⊢
    dsimp only at hmissing ⊢
    by_cases hpresent : present (Rackdoll.entry s.mem p (pathIndex v.toNat d)) = true
    · have hcond : ¬ read64 s.mem (p + 8 * pathIndex v.toNat d) &&& 1 = 0 := by
        rw [and_one_eq_zero]
        exact fun hclear => absurd (hpresent.symm.trans hclear) (by decide)
      rw [if_neg hcond] at hmissing ⊢
      obtain ⟨q, hlinks, -, hnext⟩ := h.tables.next (by omega) hat (by omega) hlow hpresent
      have haddr : read64 s.mem (p + 8 * pathIndex v.toNat d) &&& ADDR_MASK = BitVec.ofNat 64 q :=
        hlinks.addr
      rw [haddr] at hmissing ⊢
      exact ih (by omega) h hnext hmissing
    · rw [Bool.not_eq_true] at hpresent
      have hcond : read64 s.mem (p + 8 * pathIndex v.toNat d) &&& 1 = 0 :=
        (and_one_eq_zero _).mpr hpresent
      rw [if_pos hcond] at hmissing ⊢
      obtain ⟨s₁, q, halloc, hfresh, -⟩ := h.tables.alloc (by omega)
      have hqlt := hfresh.page.lt
      have hcount := hfresh.free
      have hlinks : Links (BitVec.ofNat 64 q ||| 0x7) q :=
        links_or hfresh.page.aligned (by omega) (by decide) (by decide) (by decide)
      have hnext : At (Function.update role q (.entry d p (pathIndex v.toNat d))) t v.toNat
          (d + 1) q := ⟨p, hat.mono (keep_of_free hfresh.unused), Function.update_self _ _ _⟩
      have hle := missing_le (withTable s₁ v.toNat d p q).mem v turns (BitVec.ofNat 64 q)
      have hfree : (withTable s₁ v.toNat d p q).bitset = s₁.bitset := rfl
      obtain ⟨s', role', q', hdesc, hspaces, hsame, hdata, hlast⟩ := ih (by omega)
        (h.addTable hat (by omega) hpresent hfresh) hnext (by rw [hfree]; omega)
      rw [halloc]
      dsimp only
      rw [read64_write64_self, hlinks.addr]
      refine ⟨s', role', q', hdesc, hspaces, fun t' r v' hroot => ?_,
        (hfresh.dataKept h.tables hat (by omega)).trans hdata, hlast⟩
      exact (hsame t' r v' hroot).trans
        (hfresh.sameTranslations h.tables h.zeroFree hat (by omega) hpresent t' r v' hroot)

/-! ## The last entry -/

/-- The addresses of the page of `v`. -/
def UserPage (v a : Nat) : Prop := a < 2 ^ 48 ∧ pageNumber a = pageNumber v

instance (v : Nat) : DecidablePred (UserPage v) := fun a =>
  inferInstanceAs (Decidable (a < 2 ^ 48 ∧ pageNumber a = pageNumber v))

/-- A page that `map_page` may map: no task sees it. -/
structure NewFrame (P : PoolRegion) (s : Phys) (root : Nat → Option Nat) (role : Nat → PageRole)
    (paddr : Word) : Prop where
  leaf : LeafFits P 4 s role paddr
  aligned : paddr.toNat % 4096 = 0
  max : paddr.toNat < 2 ^ 51
  high : 0x1000 ≤ paddr.toNat
  unseen : ∀ t v a, userView s.mem root t v = some a → ¬ InPage paddr.toNat a

section

variable {t r v q : Nat} {paddr : Word}

/-- The memory with a new last entry. -/
def withLeaf (s : Phys) (v q : Nat) (paddr : Word) : Phys :=
  { s with mem := write64 s.mem (q + 8 * pathIndex v 3) (paddr ||| 0x7) }

/-- The pages of the other addresses, and of the other tasks. -/
theorem Tables.translate_withLeaf (h : Tables P 4 s root role) (hat : At role t v 3 q)
    {t' r' v' : Nat} (hroot' : root t' = some r')
    (hother : ¬ (t' = t ∧ pageNumber v' = pageNumber v)) :
    translate (withLeaf s v q paddr).mem (BitVec.ofNat 64 r') v' =
      translate s.mem (BitVec.ofNat 64 r') v' := by
  rw [h.translate_root hroot', h.translate_root hroot']
  refine Rackdoll.walkFrom_congr (agreeOn_write (h.root_page hroot').aligned
    (h.aligned hat.depth) (pathIndex_lt v 3) fun k hk hpath hindex => hother ?_)
  have hat' := (h.tableAt_iff (by omega) hroot' (by omega)).mp hpath
  obtain ⟨rfl, -⟩ := hat.unique hat'
  exact hat'.page_unique hat hindex

/-- The way of the user to the last tables is as before. -/
theorem UserSpaces.way_withLeaf (h : UserSpaces P s root role) (hat : At role t v 3 q)
    {t' r' v' : Nat} (hroot' : root t' = some r') (hv' : 0x40000000 ≤ v' % 2 ^ 48) :
    UserWay (withLeaf s v q paddr).mem r' v' := by
  have hagree : AgreeOn s.mem (withLeaf s v q paddr).mem r' v' 3 := by
    refine agreeOn_write (h.tables.root_page hroot').aligned (h.tables.aligned hat.depth)
      (pathIndex_lt v 3) fun k hk hpath _ => ?_
    have hat' := (h.tables.tableAt_iff (by omega) hroot' (by omega)).mp hpath
    obtain ⟨rfl, -⟩ := hat.unique hat'
    omega
  intro k p hk hp hpresent
  have hp' := (tableAt_congr hagree (show k ≤ 3 by omega)).symm.trans hp
  rw [hagree k p hk hp'] at hpresent ⊢
  exact h.way t' r' v' hroot' hv' k p hk hp' hpresent

variable (h : UserSpaces P s root role) (hroot : root t = some r)
  (hv : 0x40000000 ≤ v % 2 ^ 48) (hat : At role t v 3 q) (hnew : NewFrame P s root role paddr)
include h hroot hv hat hnew

/-- The page of the address. -/
theorem UserSpaces.translate_withLeaf_self {v' : Nat} (hpage : pageNumber v' = pageNumber v) :
    ∃ x, translate (withLeaf s v q paddr).mem (BitVec.ofNat 64 r) v' = some x ∧
      x.paddr = paddr.toNat + v' % 4096 ∧ x.writable = true ∧ x.user = true := by
  have hpath := (h.tables.tableAt_iff (by omega) hroot (Nat.le_refl 3)).mpr hat
  obtain ⟨hlinks, hbit1, hbit2⟩ := links_userPage hnew.aligned hnew.max
  obtain ⟨x, hx, -, hpaddr, hrights⟩ := translate_write_self
    (h.tables.unsharedTables (by omega) hroot) (h.tables.root_page hroot).aligned hpath
    hlinks.present hpage
  have huser : UserPath s.mem r v 3 := by
    intro k p hk hp
    apply h.way t r v hroot hv k p hk hp
    by_contra habsent
    rw [Bool.not_eq_true] at habsent
    cases (tableAt_of_missing hp habsent hk).symm.trans hpath
  obtain ⟨hwritable, hu⟩ := hrights huser
  refine ⟨x, ?_, by rw [hpaddr, hlinks.frame], hwritable.trans hbit1, hu.trans hbit2⟩
  rw [h.tables.translate_root hroot]
  exact hx

/-- The view with the new last entry. -/
theorem UserSpaces.remaps_withLeaf :
    Remaps (userView s.mem root) (userView (withLeaf s v q paddr).mem root) t (UserPage v)
      fun a => paddr.toNat + a % 4096 where
  moved := by
    intro a ha
    obtain ⟨x, hx, hpaddr, -, huser⟩ := h.translate_withLeaf_self hroot hv hat hnew ha.2
    exact userView_eq_some.mpr ⟨ha.1, r, x, hroot, hx, huser, hpaddr⟩
  other := by
    intro t' a hother
    unfold userView
    by_cases ha : a < 2 ^ 48
    · rw [if_pos ha, if_pos ha]
      cases hr : root t' with
      | none => rfl
      | some r' =>
        rw [Option.bind_some, Option.bind_some,
          h.tables.translate_withLeaf hat hr fun hpage => hother ⟨hpage.1, ha, hpage.2⟩]
    · rw [if_neg ha, if_neg ha]
  inj := by
    intro a a' ha ha' heq
    unfold UserPage pageNumber at ha ha'
    omega
  fresh := by
    intro a _ t' a' hview
    refine hnew.unseen t' a' _ hview ?_
    unfold InPage
    omega

/-- The write of a last entry. -/
theorem UserSpaces.setLeaf :
    (∃ role', UserSpaces P (withLeaf s v q paddr) root role') ∧
      Remaps (userView s.mem root) (userView (withLeaf s v q paddr).mem root) t (UserPage v)
        (fun a => paddr.toNat + a % 4096) ∧
      ∀ a, DataByte P s role a → (withLeaf s v q paddr).mem a = s.mem a := by
  have hremaps := h.remaps_withLeaf hroot hv hat hnew
  obtain ⟨role', hmapped, -⟩ := h.tables.setLeaf (Nat.le_refl 4) h.zeroFree hat hnew.leaf
  have hcases : ∀ {t' a x}, userView (withLeaf s v q paddr).mem root t' a = some x →
      UserPage v a ∧ x = paddr.toNat + a % 4096 ∨ userView s.mem root t' a = some x := by
    intro t' a x hx
    by_cases hin : t' = t ∧ UserPage v a
    · rcases hin with ⟨rfl, ha⟩
      exact .inl ⟨ha, Option.some.inj (hx.symm.trans (hremaps.moved a ha))⟩
    · exact .inr ((hremaps.other t' a hin).symm.trans hx)
  refine ⟨⟨role', hmapped.tables, hmapped.zero, ?_, ?_, ?_, ?_, ?_⟩, hremaps, fun a ha => ?_⟩
  · exact fun t' r' v' hroot' hv' => h.way_withLeaf hat hroot' hv'
  · intro t' a ha
    rw [hremaps.other t' a fun hin => ?_]
    · exact h.hidden t' a ha
    · have hpage := hin.2.2
      unfold pageNumber at hpage
      omega
  · intro t' r' v' x hroot' hx huser
    by_cases hin : t' = t ∧ pageNumber v' = pageNumber v
    · rcases hin with ⟨rfl, hpage⟩
      obtain rfl : r = r' := Option.some.inj (hroot.symm.trans hroot')
      obtain ⟨y, hy, -, hwritable, -⟩ := h.translate_withLeaf_self hroot hv hat hnew hpage
      obtain rfl := Option.some.inj (hy.symm.trans hx)
      exact hwritable
    · rw [h.tables.translate_withLeaf hat hroot' hin] at hx
      exact h.writable t' r' v' x hroot' hx huser
  · exact hremaps.unaliased h.unaliased
  · intro t' a x hx
    rcases hcases hx with ⟨-, rfl⟩ | hold
    · have := hnew.high
      omega
    · exact h.high t' a x hold
  · exact ha.apply_of_table (h.tables.page q hat.ne_free) hat.depth (by omega) (pathIndex_lt v 3)

end

/-! ## The whole function -/

/-- The `memset` of `map_page`. -/
theorem UserSpaces.clearLeaf (h : UserSpaces P s root role) {q i : Nat}
    (hq : (role q).depth = some 3) (hi : i < 512) :
    ∃ mem, mem = (if read64 s.mem (q + 8 * i) &&& 1 = 0 then
          fill s.mem (read64 s.mem (q + 8 * i)).toNat 0 PAGE_SIZE else s.mem) ∧
      UserSpaces P { s with mem } root role ∧ SameTranslations root s.mem mem ∧
        DataKept P s role { s with mem } role := by
  split
  · next hcond =>
    have hempty : read64 s.mem (q + 8 * i) = 0 := by
      rcases h.tables.last q hq i hi with h0 | hpresent
      · exact h0
      · exact absurd (hpresent.symm.trans ((and_one_eq_zero _).mp hcond)) (by decide)
    have hsame : ∀ a, 0x1000 ≤ a → fill s.mem 0 0 PAGE_SIZE a = s.mem a := fun a ha =>
      fill_apply_of_outside (.inr (by unfold PAGE_SIZE; omega))
    have htable : ∀ x d, (role x).depth = some d → d < 4 → ∀ a, x ≤ a → a < x + 4096 →
        fill s.mem 0 0 PAGE_SIZE a = s.mem a := by
      intro x d hx _ a hlo _
      have hlt := (h.tables.page x (ne_free_of_depth hx)).lt
      exact hsame a (by omega)
    obtain ⟨hspaces, htranslate⟩ :
        UserSpaces P { s with mem := fill s.mem 0 0 PAGE_SIZE } root role ∧
          SameTranslations root s.mem (fill s.mem 0 0 PAGE_SIZE) :=
      h.of_agree_tables h.tables.words htable h.tables.allocated h.zeroFree.fillLow
    rw [hempty]
    exact ⟨_, rfl, hspaces, htranslate, fun a ha => hsame a ha.1, fun _ ha => ha,
      fun _ _ _ hx => hx⟩
  · exact ⟨s.mem, rfl, h, fun _ _ _ _ => rfl, .refl P s role⟩

/-- A change that keeps the data keeps the pages that may be mapped. -/
theorem NewFrame.of_dataKept {s' : Phys} {role' : Nat → PageRole} {paddr : Word}
    (h : NewFrame P s root role paddr) (hdata : DataKept P s role s' role')
    (hsame : SameTranslations root s.mem s'.mem) : NewFrame P s' root role' paddr where
  leaf := by
    rcases h.leaf with hnone | ⟨x, heq, hx, hfree, hbit⟩
    · exact .inl hnone
    · have hmod := hx.aligned
      have hin : InPage x x := ⟨Nat.le_refl x, by omega⟩
      have hbyte := hdata.data x (dataByte_of_unused hx hbit hfree hin)
      exact .inr ⟨x, heq, hx, hdata.unused x hx hbit hfree, (hbyte.2 x hx hin).1⟩
  aligned := h.aligned
  max := h.max
  high := h.high
  unseen := hsame.userView ▸ h.unseen

/-- `map_page` maps one page of one task; the data of the tasks stays. -/
theorem UserSpaces.mapPage (h : UserSpaces P s root role) {t p : Nat} {v paddr : Word}
    (hroot : root t = some p) (hv : 0x40000000 ≤ v.toNat % 2 ^ 48)
    (hmissing : missing s.mem v 3 (BitVec.ofNat 64 p) ≤ Bitset.free s.bitset)
    (hnew : NewFrame P s root role paddr) :
    (∃ role', UserSpaces P (s.mapPage P.base (BitVec.ofNat 64 p) v paddr) root role') ∧
      Remaps (userView s.mem root)
        (userView (s.mapPage P.base (BitVec.ofNat 64 p) v paddr).mem root) t (UserPage v.toNat)
        (fun a => paddr.toNat + a % 4096) ∧
      ∀ a, DataByte P s role a →
        (s.mapPage P.base (BitVec.ofNat 64 p) v paddr).mem a = s.mem a := by
  have hlow : ¬ LowAddress v.toNat := by
    unfold LowAddress
    omega
  obtain ⟨s₁, role₁, q, hdesc, h₁, hsame₁, hdata₁, hat⟩ := h.descend hlow (Nat.zero_add 3)
    (show At role t v.toNat 0 p from h.tables.owned.root t p hroot) hmissing
  have hslot := slot_at v (h₁.tables.page q hat.ne_free) (show 3 + 1 = 4 from rfl) (by omega)
  obtain ⟨mem, hmem, h₂, hsame₂, hdata₂⟩ := h₁.clearLeaf hat.depth (pathIndex_lt v.toNat 3)
  have hnew₂ := (hnew.of_dataKept hdata₁ hsame₁).of_dataKept hdata₂ hsame₂
  have hview : userView mem root = userView s.mem root := hsame₂.userView.trans hsame₁.userView
  obtain ⟨hspaces, hremaps, hlast⟩ := h₂.setLeaf hroot hv hat hnew₂
  have hmap : s.mapPage P.base (BitVec.ofNat 64 p) v paddr =
      withLeaf { s₁ with mem } v.toNat q paddr := by
    unfold Phys.mapPage withLeaf
    rw [hdesc]
    dsimp only
    rw [hslot, hmem]
  rw [hmap, ← hview]
  have hdata := hdata₁.trans hdata₂
  exact ⟨hspaces, hremaps, fun a ha => (hlast a (hdata.data a ha)).trans (hdata.apply a ha)⟩

/-- A page that was free is seen by no task. -/
theorem UserSpaces.newFrame_of_fresh (h : UserSpaces P s root role) {s₁ : Phys} {q : Nat}
    (hfresh : Fresh P s s₁ role q) :
    UserSpaces P s₁ root role ∧ NewFrame P s₁ root role (BitVec.ofNat 64 q) := by
  have hqlt := hfresh.page.lt
  have hqnat := hfresh.page.toNat_ofNat
  have hspaces := h.of_agree_tables hfresh.words (fun _ _ _ _ _ _ _ => by rw [hfresh.mem])
    (fun x hx => hfresh.keeps (h.tables.page x hx) (h.tables.allocated x hx))
    (hfresh.zeroFree h.zeroFree)
  refine ⟨hspaces.1, .inr ⟨q, rfl, hfresh.page, hfresh.unused, hfresh.allocated⟩, ?_, by omega,
    by omega, fun t v a hview hin => ?_⟩
  · rw [hqnat]
    exact hfresh.page.aligned
  · rw [hspaces.2.userView] at hview
    rw [hqnat] at hin
    have hbit := ((h.dataByte hview).2 q hfresh.page hin).1
    exact absurd (hbit.symm.trans hfresh.unallocated) (by decide)

/-- A page that was free becomes a page of zeros of the task; nothing else that a task sees
changes. -/
theorem UserSpaces.mapFresh (h : UserSpaces P s root role) {s₁ : Phys} {t p q : Nat} {v : Word}
    (hfresh : Fresh P s s₁ role q) (hroot : root t = some p)
    (hv : 0x40000000 ≤ v.toNat % 2 ^ 48)
    (hmissing : missing s.mem v 3 (BitVec.ofNat 64 p) ≤ Bitset.free s₁.bitset) :
    let s' := s₁.mapPage P.base (BitVec.ofNat 64 p) v (BitVec.ofNat 64 q)
    (∃ role', UserSpaces P s' root role') ∧
      Remaps (userView s.mem root) (userView s'.mem root) t (UserPage v.toNat)
          (fun a => q + a % 4096) ∧
        contents (userView s'.mem root) s'.mem =
            (contents (userView s.mem root) s.mem).assign t (UserPage v.toNat) (fun _ => 0) ∧
          ∀ a, DataByte P s role a → s'.mem a = s.mem a := by
  have hqnat := hfresh.page.toNat_ofNat
  have hclear := h.zeroFree q hfresh.page hfresh.unallocated
  obtain ⟨h₁, hnew⟩ := h.newFrame_of_fresh hfresh
  obtain ⟨hspaces, hremaps, hdata⟩ := h₁.mapPage hroot hv (by rw [hfresh.mem]; exact hmissing) hnew
  rw [hfresh.mem, hqnat] at hremaps
  rw [hfresh.mem] at hdata
  have hallocated : ∀ a, DataByte P s role a → DataByte P s₁ role a := fun a ha =>
    ⟨ha.1, fun x hx hin => ⟨hfresh.keeps hx (ha.2 x hx hin).1, (ha.2 x hx hin).2⟩⟩
  refine ⟨hspaces, hremaps, ?_, fun a ha => hdata a (hallocated a ha)⟩
  rw [hremaps.contents fun t' a x hx => hdata x (h₁.dataByte (hfresh.mem ▸ hx))]
  have hzero : ∀ a, (s₁.mapPage P.base (BitVec.ofNat 64 p) v (BitVec.ofNat 64 q)).mem
      (q + a % 4096) = 0 := by
    intro a
    have hin : InPage q (q + a % 4096) := ⟨by omega, by omega⟩
    rw [hdata _ (dataByte_of_unused hfresh.page hfresh.allocated hfresh.unused hin)]
    exact hclear _ hin.1 hin.2
  exact congrArg _ (funext hzero)

/-- `mmap` gives the task a page of zeros, at new places. -/
theorem UserSpaces.mmap (h : UserSpaces P s root role) {t p : Nat} {v : Word}
    (hroot : root t = some p) (hv : 0x40000000 ≤ v.toNat % 2 ^ 48)
    (hfree : missing s.mem v 3 (BitVec.ofNat 64 p) + 1 ≤ Bitset.free s.bitset) :
    let s' := s.mmap P.base (BitVec.ofNat 64 p) v
    (∃ role', UserSpaces P s' root role') ∧
      (∃ q, Remaps (userView s.mem root) (userView s'.mem root) t (UserPage v.toNat)
          fun a => q + a % 4096) ∧
        contents (userView s'.mem root) s'.mem =
          (contents (userView s.mem root) s.mem).assign t (UserPage v.toNat) fun _ => 0 := by
  obtain ⟨s₁, q, halloc, hfresh, -⟩ := h.tables.alloc (by omega)
  have hcount := hfresh.free
  have hclear := h.zeroFree q hfresh.page hfresh.unallocated
  have hmmap : s.mmap P.base (BitVec.ofNat 64 p) v =
      s₁.mapPage P.base (BitVec.ofNat 64 p) v (BitVec.ofNat 64 q) := by
    unfold Phys.mmap
    rw [halloc]
    dsimp only
    rw [hfresh.page.toNat_ofNat, fill_of_zero (by rw [hfresh.mem]; exact hclear)]
  obtain ⟨hspaces, hremaps, hcontents, -⟩ := h.mapFresh hfresh hroot hv (by omega)
  dsimp only
  rw [hmmap]
  exact ⟨hspaces, ⟨q, hremaps⟩, hcontents⟩

/-- A store of a task at an address that it sees. -/
theorem UserSpaces.store (h : UserSpaces P s root role) {t v a : Nat}
    (hview : userView s.mem root t v = some a) (b : BitVec 8) :
    UserSpaces P (s.store a (some b)) root role ∧
      SameTranslations root s.mem (s.store a (some b)).mem ∧
        contents (userView (s.store a (some b)).mem root) (s.store a (some b)).mem =
          (contents (userView s.mem root) s.mem).assign t (· = v) fun _ => b := by
  have hdata := h.dataByte hview
  have hsame : ∀ q d, (role q).depth = some d → d ≠ 4 → ∀ x, q ≤ x → x < q + 4096 →
      Function.update s.mem a b x = s.mem x := by
    intro q d hq hd x hlo hhi
    refine Function.update_of_ne ?_ _ _
    rintro rfl
    obtain ⟨-, hfree | h4⟩ := hdata.2 q (h.tables.page q (ne_free_of_depth hq)) ⟨hlo, hhi⟩
    · exact ne_free_of_depth hq hfree
    · exact hd (Option.some.inj (hq.symm.trans h4))
  have hzero : ZeroFree P (s.store a (some b)) := by
    intro q hq hclear x hlo hhi
    have hne : x ≠ a := by
      rintro rfl
      exact absurd ((hdata.2 q hq ⟨hlo, hhi⟩).1.symm.trans hclear) (by decide)
    exact (Function.update_of_ne hne _ _).trans (h.zeroFree q hq hclear x hlo hhi)
  obtain ⟨hspaces, htranslate⟩ : UserSpaces P (s.store a (some b)) root role ∧
      SameTranslations root s.mem (s.store a (some b)).mem :=
    h.of_agree_tables h.tables.words (fun q d hq hd => hsame q d hq (by omega))
      h.tables.allocated hzero
  refine ⟨hspaces, htranslate, ?_⟩
  rw [htranslate.userView]
  exact h.unaliased.contents_update hview b

end KernelMemVirt.Rackdoll
