import KernelMemVirt.Rackdoll.Tables

/-!
# The last entries of the trees

An address is backed by a page when its indices lead to a last table, and the entry
there is present.

* `LeavesIn mem role A` bounds these addresses: `A t v` holds of each address `v` that
  is backed in the tree of the task `t`.
* `Tables.leaves_write`, `Tables.leaves_use` and `Tables.leaves_attach` are the changes
  of a tree: only the write of a last entry backs an address.
* `Tables.leaf_of_walkFrom` and `Tables.walkFrom_of_leaf` are the walk of the processor.
-/

namespace KernelMemVirt.Rackdoll

open ByteMem OwnerTree

/-- The page of an address, in the 48 bits that are translated. -/
def pageNumber (v : Nat) : Nat := v % 2 ^ 48 / 4096

/-- The indices of an address are its page. -/
theorem pageNumber_eq_iff {v v' : Nat} :
    pageNumber v = pageNumber v' ↔ ∀ k, k < 4 → pathIndex v k = pathIndex v' k := by
  unfold pageNumber
  constructor
  · intro heq k hk
    unfold pathIndex tableIndex
    interval_cases k
    all_goals
      norm_num
      omega
  · intro hindex
    have h0 := hindex 0 (by omega)
    have h1 := hindex 1 (by omega)
    have h2 := hindex 2 (by omega)
    have h3 := hindex 3 (by omega)
    unfold pathIndex tableIndex at h0 h1 h2 h3
    norm_num at h0 h1 h2 h3
    omega

/-- Two addresses with one last entry are on one page, for one task. -/
theorem At.page_unique {role : Nat → PageRole} {t t' v v' p : Nat} (h : At role t v 3 p)
    (h' : At role t' v' 3 p) (hindex : pathIndex v 3 = pathIndex v' 3) :
    t = t' ∧ pageNumber v = pageNumber v' := by
  obtain ⟨-, ht, hsame⟩ := h.unique h'
  refine ⟨ht, pageNumber_eq_iff.mpr fun k hk => ?_⟩
  by_cases hk3 : k = 3
  · rw [hk3, hindex]
  · exact hsame k (by omega)

/-- `A` holds of the addresses that the tasks have mapped. -/
def LeavesIn (mem : Mem) (role : Nat → PageRole) (A : Nat → Nat → Prop) : Prop :=
  ∀ t v p, At role t v 3 p → present (entry mem p (pathIndex v 3)) = true → A t v

variable {P : PoolRegion} {n : Nat} {s : Phys} {root : Nat → Option Nat} {role : Nat → PageRole}
  {A : Nat → Nat → Prop}

/-- What a change of the tables leaves alone: it backs no address outside `new`, and
writes to no page that is allocated and has no use. -/
structure LeavesKept (P : PoolRegion) (s s' : Phys) (role role' : Nat → PageRole)
    (new : Nat → Nat → Prop) : Prop where
  leaves : ∀ A : Nat → Nat → Prop, (∀ t v, new t v → A t v) → LeavesIn s.mem role A →
    LeavesIn s'.mem role' A
  reserved : ∀ x, P.IsPage x → P.allocated s.bitset x = true → role x = .free →
    ∀ a, x ≤ a → a < x + 4096 → s'.mem a = s.mem a

theorem LeavesKept.refl (P : PoolRegion) (s : Phys) (role : Nat → PageRole)
    (new : Nat → Nat → Prop) : LeavesKept P s s role role new :=
  ⟨fun _ _ h => h, fun _ _ _ _ _ _ _ => rfl⟩

/-- It depends on the last tables. -/
theorem LeavesIn.congr {mem mem' : Mem} (h : LeavesIn mem role A)
    (hsame : ∀ p, (role p).depth = some 3 → ∀ i, i < 512 → entry mem' p i = entry mem p i) :
    LeavesIn mem' role A := by
  intro t v p hat hpresent
  rw [hsame p hat.depth _ (pathIndex_lt v 3)] at hpresent
  exact h t v p hat hpresent

namespace Tables

/-! ## Changes of the trees -/

/-- A write to one entry backs an address only when it is a last entry. -/
theorem leaves_write (h : Tables P n s root role) {d p i : Nat} {e : Word}
    (hp : (role p).depth = some d) (hi : i < 512)
    (hnew : d = 3 → ∀ t v, At role t v 3 p → pathIndex v 3 = i → A t v)
    (hleaves : LeavesIn s.mem role A) : LeavesIn (write64 s.mem (p + 8 * i) e) role A := by
  intro t v q hat hpresent
  rw [entry_write64 (h.aligned hp) (h.aligned hat.depth) hi (pathIndex_lt v 3)] at hpresent
  split at hpresent
  · next hsame =>
    rcases hsame with ⟨rfl, hindex⟩
    have hd : d = 3 := Option.some.inj (hp.symm.trans hat.depth)
    exact hnew hd t v hat hindex
  · exact hleaves t v q hat hpresent

/-- A page that had a use before has the same addresses. -/
theorem at_of_keep (h : Tables P n s root role) {role' : Nat → PageRole}
    (hkeep : ∀ x, role x ≠ .free → role' x = role x) {t v : Nat} :
    ∀ {d p : Nat}, d ≤ 3 → role p ≠ .free → At role' t v d p → At role t v d p := by
  intro d
  induction d with
  | zero =>
    intro p _ hp hat
    have hrole : role' p = .root t := hat
    exact (hkeep p hp).symm.trans hrole
  | succ d ih =>
    rintro q hd hq ⟨p, hat, hrole⟩
    rw [hkeep q hq] at hrole
    have hdepth := (h.live q d p _ hrole (by omega)).1
    exact ⟨p, ih (by omega) (ne_free_of_depth hdepth) hat, hrole⟩

/-- Pages that had no use get one: a new last table is empty. -/
theorem leaves_use (h : Tables P n s root role) {role' : Nat → PageRole} {mem : Mem}
    (hkeep : ∀ x, role x ≠ .free → role' x = role x)
    (hempty : ∀ x, role x = .free → (role' x).depth = some 3 → ∀ i, i < 512 → entry mem x i = 0)
    (hleaves : LeavesIn mem role A) : LeavesIn mem role' A := by
  intro t v p hat hpresent
  by_cases hp : role p = .free
  · rw [hempty p hp hat.depth _ (pathIndex_lt v 3)] at hpresent
    exact absurd hpresent (by decide)
  · exact hleaves t v p (h.at_of_keep hkeep (Nat.le_refl 3) hp hat) hpresent

/-- Entry `i` of `p` now refers to `q`, which had no use. -/
theorem leaves_attach (h : Tables P n s root role) {d p i q : Nat} {e : Word}
    (hp : (role p).depth = some d) (hi : i < 512) (hq : P.IsPage q) (hfree : role q = .free)
    (hzero : d < 3 → ∀ a, q ≤ a → a < q + 4096 → s.mem a = 0)
    (hnew : d = 3 → ∀ t v, At role t v 3 p → pathIndex v 3 = i → A t v)
    (hleaves : LeavesIn s.mem role A) :
    LeavesIn (write64 s.mem (p + 8 * i) e) (Function.update role q (.entry d p i)) A := by
  refine h.leaves_use (keep_of_free hfree) (fun x hx hdepth j hj => ?_)
    (h.leaves_write hp hi hnew hleaves)
  have hxq : x = q := by
    by_contra hne
    rw [Function.update_of_ne hne, hx] at hdepth
    cases hdepth
  subst hxq
  rw [Function.update_self] at hdepth
  obtain rfl : d = 2 := Nat.succ.inj (Option.some.inj hdepth)
  have hpx : x ≠ p := by
    intro heq
    subst heq
    exact ne_free_of_depth hp hfree
  rw [entry_write64 (h.aligned hp) hq.aligned hi hj, if_neg (fun heq => hpx heq.1)]
  exact entry_zero (hzero (by omega)) hj

/-- The page `q`, which had no use, becomes a root. -/
theorem leaves_addRoot (h : Tables P n s root role) {t q : Nat} (hfree : role q = .free)
    (hleaves : LeavesIn s.mem role A) : LeavesIn s.mem (Function.update role q (.root t)) A := by
  refine h.leaves_use (keep_of_free hfree) (fun x hx hdepth => ?_) hleaves
  by_cases hxq : x = q
  · subst hxq
    rw [Function.update_self] at hdepth
    cases hdepth
  · rw [Function.update_of_ne hxq, hx] at hdepth
    cases hdepth

/-! ## The walk -/

/-- The walk of the processor ends in a last table, apart from the huge page of the
kernel, which the tasks may not access. -/
theorem leaf_of_walkFrom (h : Tables P n s root role) (hn : 3 ≤ n) {t v : Nat} :
    ∀ {levels d p : Nat} {x : Translation}, d + levels = 4 → At role t v d p →
      walkFrom s.mem v levels p = some x → ¬ LowAddress v ∨ x.user = true →
      ∃ q, At role t v 3 q ∧ present (entry s.mem q (pathIndex v 3)) = true ∧
        x.paddr = frame (entry s.mem q (pathIndex v 3)) + v % 4096 := by
  intro levels
  induction levels with
  | zero => intro d p x _ _ hwalk; cases hwalk
  | succ levels ih =>
    intro d p x hd hat hwalk huser
    have hlt := pathIndex_lt v d
    unfold walkFrom at hwalk
    rw [tableIndex_eq hd] at hwalk
    dsimp only at hwalk
    split at hwalk
    · cases hwalk
    · next hcond =>
      have hpresent : present (entry s.mem p (pathIndex v d)) = true := Bool.not_eq_false _ ▸ hcond
      by_cases hlast : d = 3
      · subst hlast
        obtain rfl : levels = 0 := by omega
        rw [if_pos (.inl rfl)] at hwalk
        obtain rfl := Option.some.inj hwalk
        exact ⟨p, hat, hpresent, rfl⟩
      · rcases h.table p d hat.depth (by omega) _ hlt with
          hzero | ⟨q, hq, hlinks⟩ | ⟨⟨t', hat'⟩, hindex, hkernel⟩
        · rw [hzero] at hpresent
          exact absurd hpresent (by decide)
        · have hhuge : huge (read64 s.mem (p + 8 * pathIndex v d)) = false := hlinks.huge
          have hframe : frame (read64 s.mem (p + 8 * pathIndex v d)) = q := hlinks.frame
          rw [if_neg ?_, hframe] at hwalk
          · obtain ⟨y, hy, rfl⟩ := Option.map_eq_some_iff.mp hwalk
            have hnext : At role t v (d + 1) q :=
              ⟨p, hat, h.role_of_links hat.depth (by omega) hlt hq hlinks⟩
            have hrest : ¬ LowAddress v ∨ y.user = true :=
              huser.imp_right fun hu => (Bool.and_eq_true_iff.mp hu).2
            have hfound := ih (show d + 1 + levels = 4 by omega) hnext hy hrest
            exact hfound
          · rw [hhuge]
            rintro (hzero | ⟨-, hfalse⟩)
            · omega
            · cases hfalse
        · obtain ⟨rfl, rfl, hsame⟩ := hat'.unique hat
          have hlow : LowAddress v := (lowAddress_iff v).mpr
            ⟨(hsame 0 (by omega)).symm.trans (by decide),
              (hsame 1 (by omega)).symm.trans (by decide), hindex⟩
          have hentry : read64 s.mem (p + 8 * pathIndex v 2) = KERNEL_PAGE := hkernel
          rw [hentry, if_pos (.inr ⟨by omega, rfl⟩)] at hwalk
          obtain rfl := Option.some.inj hwalk
          rcases huser with hhigh | hu
          · exact absurd hlow hhigh
          · have hsupervisor : BitVec.getLsbD KERNEL_PAGE 2 = false := by decide
            exact absurd (hsupervisor.symm.trans hu) (by decide)

/-- The tables lead the processor to each last table. -/
theorem walkFrom_of_at (h : Tables P n s root role) {t v r : Nat} (hroot : role r = .root t) :
    ∀ {d levels q : Nat} {x : Translation}, d ≤ 3 → d + levels = 4 → At role t v d q →
      walkFrom s.mem v levels q = some x →
      ∃ y, walkFrom s.mem v 4 r = some y ∧ y.paddr = x.paddr := by
  intro d
  induction d with
  | zero =>
    intro levels q x _ hd hat hwalk
    have hq : q = r := by
      have hrole := h.rooted q t hat
      rw [h.rooted r t hroot] at hrole
      exact (Option.some.inj hrole).symm
    obtain rfl : levels = 4 := by omega
    exact ⟨x, hq ▸ hwalk, rfl⟩
  | succ d ih =>
    rintro levels q x hd3 hd ⟨p, hat, hrole⟩ hwalk
    have hlink := (h.live q d p _ hrole (by omega)).2
    rw [link_eq (pathIndex_lt v d)] at hlink
    obtain ⟨-, hpresent, -, hframe⟩ := target_eq_some hlink
    have hmore : ¬ (levels = 0 ∨ levels ≤ 2 ∧ huge (entry s.mem p (pathIndex v d)) = true) := by
      rintro (hzero | ⟨hle, hhuge⟩)
      · omega
      · unfold target at hlink
        split at hlink
        · next hcond =>
          rcases hcond.2.2.1 with hd0 | hd3' | hfalse
          · omega
          · omega
          · exact absurd (hhuge.symm.trans hfalse) (by decide)
        · cases hlink
    have hstep : walkFrom s.mem v (levels + 1) p = some
        { x with
          writable := (entry s.mem p (pathIndex v d)).getLsbD 1 && x.writable
          user := (entry s.mem p (pathIndex v d)).getLsbD 2 && x.user
          executable := !(entry s.mem p (pathIndex v d)).getLsbD 63 && x.executable } := by
      rw [walkFrom, tableIndex_eq (show d + (levels + 1) = 4 by omega)]
      have hsame : read64 s.mem (p + 8 * pathIndex v d) = entry s.mem p (pathIndex v d) := rfl
      dsimp only
      rw [hsame, hpresent, if_neg (by decide), if_neg hmore, hframe, hwalk]
      rfl
    have hfound := ih (by omega) (show d + (levels + 1) = 4 by omega) hat hstep
    exact hfound

/-- A present last entry is the end of a walk. -/
theorem walkFrom_of_leaf (h : Tables P n s root role) {t v r q : Nat} (hroot : role r = .root t)
    (hat : At role t v 3 q) (hpresent : present (entry s.mem q (pathIndex v 3)) = true) :
    ∃ x, walkFrom s.mem v 4 r = some x ∧
      x.paddr = frame (entry s.mem q (pathIndex v 3)) + v % 4096 := by
  obtain ⟨x, hx, hpaddr⟩ : ∃ x, walkFrom s.mem v 1 q = some x ∧
      x.paddr = frame (entry s.mem q (pathIndex v 3)) + v % 4096 := by
    have hsame : read64 s.mem (q + 8 * pathIndex v 3) = entry s.mem q (pathIndex v 3) := rfl
    rw [walkFrom, tableIndex_eq (show 3 + (0 + 1) = 4 from rfl)]
    dsimp only
    rw [hsame, hpresent, if_neg (by decide), if_pos (.inl rfl)]
    exact ⟨_, rfl, rfl⟩
  obtain ⟨y, hy, heq⟩ := h.walkFrom_of_at hroot (Nat.le_refl 3) (show 3 + 1 = 4 from rfl) hat hx
  exact ⟨y, hy, heq.trans hpaddr⟩

end Tables

end KernelMemVirt.Rackdoll
