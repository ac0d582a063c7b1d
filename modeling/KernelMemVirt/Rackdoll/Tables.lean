import KernelMemVirt.Lib.OwnerTree
import KernelMemVirt.Rackdoll.PageTable

/-!
# Page tables as trees of pool pages

The pages of the pool that the tables refer to form an `OwnerTree`: `link` is the
page that an entry refers to, and a task is named by a number.

* `At role t v d p` says that the indices of the address `v` lead to the page `p`
  after `d` tables of task `t`.
* `Tables` is the invariant: pages in use have one owner and are allocated, and
  the entries of the tables are empty, refer to a table, or are the huge page of
  the kernel.  With `n = 4` it speaks of the pages that are mapped as well, with
  `n = 3` of the tables only.
* `Tables.attach`, `Tables.addRoot`, `Tables.setEntry` and `Tables.of_agree` are the
  changes that the code makes.
-/

namespace KernelMemVirt.Rackdoll

open ByteMem OwnerTree

/-! ## The pool -/

/-- The array `pool`: whole pages of the kernel, in the first 2 MiB. -/
structure PoolRegion where
  base : Nat
  aligned : base % 4096 = 0
  low : 0x100000 ≤ base
  high : base + PHYSICAL_POOL_PAGES * PAGE_SIZE ≤ 0x200000

namespace PoolRegion

variable (P : PoolRegion)

/-- `q` is the address of a page of the pool. -/
def IsPage (q : Nat) : Prop :=
  P.base ≤ q ∧ q < P.base + PHYSICAL_POOL_PAGES * PAGE_SIZE ∧ q % 4096 = 0

instance (q : Nat) : Decidable (P.IsPage q) := inferInstanceAs (Decidable (_ ∧ _ ∧ _))

/-- The bit of page `q`. -/
def allocated (bitset : List Word) (q : Nat) : Bool := Bitset.get bitset ((q - P.base) / 4096)

variable {P}

theorem IsPage.aligned {q : Nat} (h : P.IsPage q) : q % 4096 = 0 := h.2.2

theorem IsPage.lt {q : Nat} (h : P.IsPage q) : 0x100000 ≤ q ∧ q + 4096 ≤ 0x200000 := by
  have hlow := P.low
  have hhigh := P.high
  have haligned := P.aligned
  rcases h with ⟨hlo, hhi, hmod⟩
  unfold PHYSICAL_POOL_PAGES PAGE_SIZE at *
  omega

/-- The pages by their numbers. -/
theorem isPage_iff {q : Nat} :
    P.IsPage q ↔ ∃ n, n < PHYSICAL_POOL_PAGES ∧ q = P.base + 4096 * n := by
  have haligned := P.aligned
  unfold IsPage PHYSICAL_POOL_PAGES PAGE_SIZE
  constructor
  · intro hex
    rcases hex with ⟨hlo, hhi, hmod⟩
    exact ⟨(q - P.base) / 4096, by omega, by omega⟩
  · intro hex
    rcases hex with ⟨n, hn, rfl⟩
    exact ⟨by omega, by omega, by omega⟩

theorem IsPage.number {q : Nat} (h : P.IsPage q) :
    (q - P.base) / 4096 < PHYSICAL_POOL_PAGES ∧ q = P.base + 4096 * ((q - P.base) / 4096) := by
  have haligned := P.aligned
  unfold IsPage PHYSICAL_POOL_PAGES PAGE_SIZE at *
  omega

theorem IsPage.toNat_ofNat {q : Nat} (h : P.IsPage q) : (BitVec.ofNat 64 q).toNat = q := by
  have hlt := h.lt
  rw [BitVec.toNat_ofNat]
  omega

/-- A pointer to a page is not the failure value of `alloc_page`. -/
theorem IsPage.ofNat_ne_zero {q : Nat} (h : P.IsPage q) : BitVec.ofNat 64 q ≠ 0 := by
  intro heq
  have hzero : q = 0 := h.toNat_ofNat.symm.trans (congrArg BitVec.toNat heq)
  have hlt := h.lt
  omega

/-- The frame of a pointer to a page. -/
theorem IsPage.frame_ofNat {q : Nat} (h : P.IsPage q) : frame (BitVec.ofNat 64 q) = q := by
  have hlt := h.lt
  have haligned := h.aligned
  unfold frame
  rw [h.toNat_ofNat]
  omega

end PoolRegion

/-! ## References -/

variable (P : PoolRegion) (n : Nat)

/-- The pool page that the entry `e` of a table at depth `d` refers to; depths
from `n` on are not followed. -/
def target (d : Nat) (e : Word) : Option Nat :=
  if d < n ∧ present e = true ∧ (d = 0 ∨ d = 3 ∨ huge e = false) ∧ P.IsPage (frame e) then
    some (frame e)
  else none

/-- The pool page that entry `i` of the table at `p` refers to. -/
def link (mem : Mem) (d p i : Nat) : Option Nat :=
  if i < 512 then target P n d (entry mem p i) else none

variable {P n}

theorem target_zero (d : Nat) : target P n d 0 = none :=
  if_neg fun h => absurd h.2.1 (by decide)

theorem target_eq_some {d q : Nat} {e : Word} (h : target P n d e = some q) :
    d < n ∧ present e = true ∧ P.IsPage q ∧ frame e = q := by
  unfold target at h
  split at h
  · next hcond =>
    cases h
    exact ⟨hcond.1, hcond.2.1, hcond.2.2.2, rfl⟩
  · cases h

theorem target_links {d q : Nat} {e : Word} (hd : d < n) (hq : P.IsPage q) (h : Links e q) :
    target P n d e = some q := by
  unfold target
  rw [h.frame, if_pos ⟨hd, h.present, .inr (.inr h.huge), hq⟩]

theorem link_eq {mem : Mem} {d p i : Nat} (hi : i < 512) :
    link P n mem d p i = target P n d (entry mem p i) := if_pos hi

/-! ## Paths -/

abbrev PageRole := Role Nat Nat Nat

/-- The index of `v` into a table at depth `d`. -/
def pathIndex (v d : Nat) : Nat := tableIndex v (4 - d)

theorem pathIndex_lt (v d : Nat) : pathIndex v d < 512 := tableIndex_lt v _

theorem tableIndex_eq {v d lvl : Nat} (h : d + lvl = 4) : tableIndex v lvl = pathIndex v d := by
  rw [pathIndex, show 4 - d = lvl by omega]

/-- The indices of `v` lead from the root of task `t` to `p` at depth `d`. -/
def At (role : Nat → PageRole) (t v : Nat) : Nat → Nat → Prop
  | 0, p => role p = .root t
  | d + 1, q => ∃ p, At role t v d p ∧ role q = .entry d p (pathIndex v d)

theorem At.depth {role : Nat → PageRole} {t v d p : Nat} (h : At role t v d p) :
    (role p).depth = some d := by
  cases d with
  | zero =>
    have hrole : role p = .root t := h
    rw [hrole, Role.depth_root]
  | succ d =>
    rcases h with ⟨_, -, hrole⟩
    rw [hrole, Role.depth_entry]

/-- Roles that are kept keep the paths. -/
theorem At.mono {role role' : Nat → PageRole} {t v : Nat}
    (hkeep : ∀ q, role q ≠ .free → role' q = role q) :
    ∀ {d p : Nat}, At role t v d p → At role' t v d p := by
  intro d
  induction d with
  | zero =>
    intro p h
    have hrole : role p = .root t := h
    show role' p = .root t
    rw [hkeep p (by rw [hrole]; simp), hrole]
  | succ d ih =>
    intro q hex
    rcases hex with ⟨p, hp, hrole⟩
    exact ⟨p, ih hp, by rw [hkeep q (by rw [hrole]; simp), hrole]⟩

theorem ne_free_of_depth {role : Nat → PageRole} {p d : Nat} (h : (role p).depth = some d) :
    role p ≠ .free := by
  intro hfree
  rw [hfree] at h
  cases h

theorem exists_depth {role : Nat → PageRole} {p : Nat} (h : role p ≠ .free) :
    ∃ d, (role p).depth = some d := by
  cases hrole : role p with
  | free => exact absurd hrole h
  | root t => exact ⟨0, rfl⟩
  | entry d p' i => exact ⟨d + 1, rfl⟩

theorem At.ne_free {role : Nat → PageRole} {t v d p : Nat} (h : At role t v d p) :
    role p ≠ .free := ne_free_of_depth h.depth

/-- A page that had no use gets one: the roles of the others are kept. -/
theorem keep_of_free {role : Nat → PageRole} {q : Nat} {r : PageRole} (hfree : role q = .free) :
    ∀ x, role x ≠ .free → Function.update role q r x = role x := by
  intro x hx
  have hne : x ≠ q := by
    intro heq
    exact hx (heq ▸ hfree)
  exact Function.update_of_ne hne _ _

/-- Two addresses that lead to one page have the same indices up to there. -/
theorem At.unique {role : Nat → PageRole} {t t' v v' : Nat} :
    ∀ {d d' p : Nat}, At role t v d p → At role t' v' d' p →
      d = d' ∧ t = t' ∧ ∀ k, k < d → pathIndex v k = pathIndex v' k := by
  intro d
  induction d with
  | zero =>
    intro d' p h h'
    have hrole : role p = .root t := h
    cases d' with
    | zero =>
      have hrole' : role p = .root t' := h'
      exact ⟨rfl, Role.root.inj (hrole.symm.trans hrole'),
        fun k hk => absurd hk (Nat.not_lt_zero k)⟩
    | succ d' =>
      rcases h' with ⟨_, -, hrole'⟩
      exact absurd (hrole.symm.trans hrole') (by simp)
  | succ d ih =>
    rintro d' q ⟨p, hp, hrole⟩ h'
    cases d' with
    | zero =>
      have hrole' : role q = .root t' := h'
      exact absurd (hrole.symm.trans hrole') (by simp)
    | succ d' =>
      rcases h' with ⟨p', hp', hrole'⟩
      obtain ⟨rfl, rfl, hindex⟩ := Role.entry.inj (hrole.symm.trans hrole')
      obtain ⟨-, ht, hold⟩ := ih hp hp'
      refine ⟨rfl, ht, fun k hk => ?_⟩
      by_cases hkd : k = d
      · rw [hkd, hindex]
      · exact hold k (by omega)

/-- The first 2 MiB of the address space, where the code and the data of the
kernel are. -/
def LowAddress (v : Nat) : Prop := v % 2 ^ 48 < 0x200000

instance (v : Nat) : Decidable (LowAddress v) := inferInstanceAs (Decidable (_ < _))

theorem lowAddress_iff (v : Nat) :
    LowAddress v ↔ pathIndex v 0 = 0 ∧ pathIndex v 1 = 0 ∧ pathIndex v 2 = 0 := by
  unfold LowAddress pathIndex tableIndex
  norm_num
  omega

/-- The table with the huge page of the kernel. -/
def KernelDirectory (role : Nat → PageRole) (p : Nat) : Prop := ∃ t, At role t 0 2 p

/-! ## The invariant -/

/-- The flags `G`, `PS`, `PCD`, `PWT`, `W` and `P`, at address 0. -/
abbrev KERNEL_PAGE : Word := 0x19b

variable (P n)

/-- The tables are trees of pool pages. -/
structure Tables (s : Phys) (root : Nat → Option Nat) (role : Nat → PageRole) : Prop where
  words : s.bitset.length = BITSET_SIZE
  owned : Owned (link P n s.mem) root role
  page : ∀ q, role q ≠ .free → P.IsPage q
  allocated : ∀ q, role q ≠ .free → P.allocated s.bitset q = true
  table : ∀ p d, (role p).depth = some d → d < 3 → ∀ i, i < 512 →
    entry s.mem p i = 0 ∨ (∃ q, P.IsPage q ∧ Links (entry s.mem p i) q) ∨
      KernelDirectory role p ∧ i = 0 ∧ entry s.mem p i = KERNEL_PAGE
  last : ∀ p, (role p).depth = some 3 → ∀ i, i < 512 →
    entry s.mem p i = 0 ∨ present (entry s.mem p i) = true
  live : ∀ q d p i, role q = .entry d p i → d < 3 →
    (role p).depth = some d ∧ link P n s.mem d p i = some q
  rooted : ∀ q t, role q = .root t → root t = some q
  depth_lt : ∀ q d p i, role q = .entry d p i → d < n

/-- The pages that are not allocated are zero. -/
def ZeroFree (s : Phys) : Prop :=
  ∀ q, P.IsPage q → P.allocated s.bitset q = false → ∀ a, q ≤ a → a < q + 4096 → s.mem a = 0

variable {P n} {s : Phys} {root : Nat → Option Nat} {role : Nat → PageRole}

theorem PoolRegion.IsPage.number_lt {bitset : List Word} (hwords : bitset.length = BITSET_SIZE)
    {q : Nat} (hq : P.IsPage q) : (q - P.base) / 4096 < 64 * bitset.length := by
  rw [hwords]
  exact hq.number.1

/-- Different pages have different bits. -/
theorem PoolRegion.IsPage.number_inj {q q' : Nat} (hq : P.IsPage q) (hq' : P.IsPage q') :
    (q - P.base) / 4096 = (q' - P.base) / 4096 ↔ q = q' := by
  have h := hq.number.2
  have h' := hq'.number.2
  constructor
  · intro heq
    omega
  · intro heq
    subst heq
    rfl

theorem PoolRegion.allocated_set {bitset : List Word} (hwords : bitset.length = BITSET_SIZE)
    {q q' : Nat} (hq : P.IsPage q) (hq' : P.IsPage q') :
    P.allocated (Bitset.set bitset ((q - P.base) / 4096)) q' =
      (decide (q' = q) || P.allocated bitset q') := by
  unfold PoolRegion.allocated
  rw [Bitset.get_set (hq.number_lt hwords), decide_eq_decide.mpr (hq'.number_inj hq)]

theorem PoolRegion.allocated_clear {bitset : List Word} (hwords : bitset.length = BITSET_SIZE)
    {q q' : Nat} (hq : P.IsPage q) (hq' : P.IsPage q') :
    P.allocated (Bitset.clear bitset ((q - P.base) / 4096)) q' =
      (!decide (q' = q) && P.allocated bitset q') := by
  unfold PoolRegion.allocated
  rw [Bitset.get_clear (hq.number_lt hwords), decide_eq_decide.mpr (hq'.number_inj hq)]

/-- `q` is the page that `alloc_page` takes. -/
structure PoolRegion.Takes (P : PoolRegion) (bitset bitset' : List Word) (q : Nat) : Prop where
  page : P.IsPage q
  unallocated : P.allocated bitset q = false
  words : bitset'.length = BITSET_SIZE
  bits : ∀ x, P.IsPage x →
    P.allocated bitset' x = (decide (x = q) || P.allocated bitset x)
  free : Bitset.free bitset = Bitset.free bitset' + 1

namespace PoolRegion.Takes

variable {bitset bitset' : List Word} {q x : Nat}

/-- The page is allocated, and so are those that were. -/
theorem allocated (h : P.Takes bitset bitset' q) (hx : P.IsPage x)
    (hbit : x = q ∨ P.allocated bitset x = true) : P.allocated bitset' x = true := by
  rw [h.bits x hx]
  rcases hbit with heq | hold
  · rw [decide_eq_true heq, Bool.true_or]
  · rw [hold, Bool.or_true]

/-- A page that is not allocated was not before. -/
theorem unallocated_of (h : P.Takes bitset bitset' q) (hx : P.IsPage x)
    (hbit : P.allocated bitset' x = false) : P.allocated bitset x = false := by
  rw [h.bits x hx] at hbit
  exact (Bool.or_eq_false_iff.mp hbit).2

/-- The pages that are not allocated are still zero. -/
theorem zeroFree (h : P.Takes s.bitset bitset' q) (hzero : ZeroFree P s) :
    ZeroFree P { s with bitset := bitset' } :=
  fun x hx hbit => hzero x hx (h.unallocated_of hx hbit)

end PoolRegion.Takes

/-- `alloc_page` takes a page, unless there is none. -/
theorem PoolRegion.alloc_cases (P : PoolRegion) {bitset : List Word}
    (hwords : bitset.length = BITSET_SIZE) :
    (∃ bitset' q, allocPage P.base bitset = (bitset', BitVec.ofNat 64 q) ∧
      P.Takes bitset bitset' q) ∨
    (Bitset.free bitset = 0 ∧ allocPage P.base bitset = (bitset, 0)) := by
  rcases allocPage_cases P.base bitset with ⟨k, hk, hclear, hpage⟩ | hnone
  · have hq : P.IsPage (P.base + 4096 * k) :=
      PoolRegion.isPage_iff.mpr ⟨k, by rw [hwords] at hk; exact hk, rfl⟩
    have hnumber : (P.base + 4096 * k - P.base) / 4096 = k := by omega
    refine .inl ⟨_, _, hpage, hq, ?_, ?_, fun x hx => ?_, Bitset.free_set hk hclear⟩
    · unfold PoolRegion.allocated
      rwa [hnumber]
    · rw [Bitset.length_set, hwords]
    · have hset := PoolRegion.allocated_set hwords hq hx
      rwa [hnumber] at hset
  · exact .inr hnone

/-- The byte at `a` is in a page of the pool that is not allocated. -/
def PoolRegion.Free (P : PoolRegion) (bitset : List Word) (a : Nat) : Prop :=
  ∃ q, P.IsPage q ∧ P.allocated bitset q = false ∧ q ≤ a ∧ a < q + 4096

namespace Tables

theorem walk_of_depth (h : Tables P 3 s root role) :
    ∀ {d q : Nat}, (role q).depth = some d →
      ∃ t r path, root t = some r ∧ path.length = d ∧ walk (link P 3 s.mem) r path = some q := by
  intro d
  induction d with
  | zero =>
    intro q hq
    cases hrole : role q with
    | free => rw [hrole] at hq; cases hq
    | root t => exact ⟨t, q, [], h.rooted q t hrole, rfl, rfl⟩
    | entry d p i => rw [hrole] at hq; cases hq
  | succ d ih =>
    intro q hq
    cases hrole : role q with
    | free => rw [hrole] at hq; cases hq
    | root t => rw [hrole] at hq; cases hq
    | entry d' p i =>
      rw [hrole, Role.depth_entry, Option.some.injEq, Nat.succ.injEq] at hq
      subst hq
      obtain ⟨hp, hlink⟩ := h.live q d' p i hrole (h.depth_lt q d' p i hrole)
      obtain ⟨t, r, path, hr, hlen, hwalk⟩ := ih hp
      refine ⟨t, r, i :: path, hr, by rw [List.length_cons, hlen], ?_⟩
      exact walk_cons_eq_some.mpr ⟨p, hwalk, by rw [hlen]; exact hlink⟩

/-- Every page in use is reached from a root, when only tables count. -/
theorem walk_of_role (h : Tables P 3 s root role) {q : Nat} (hq : role q ≠ .free) :
    ∃ t r path, root t = some r ∧ walk (link P 3 s.mem) r path = some q := by
  obtain ⟨d, hd⟩ := exists_depth hq
  obtain ⟨t, r, path, hr, -, hwalk⟩ := h.walk_of_depth hd
  exact ⟨t, r, path, hr, hwalk⟩

theorem aligned (h : Tables P n s root role) {p d : Nat} (hp : (role p).depth = some d) :
    p % 4096 = 0 := (h.page p (ne_free_of_depth hp)).aligned

/-- The page that an entry of a table refers to is used by it. -/
theorem role_of_links (h : Tables P n s root role) {d p i q : Nat}
    (hp : (role p).depth = some d) (hd : d < n) (hi : i < 512) (hq : P.IsPage q)
    (hlinks : Links (entry s.mem p i) q) : role q = .entry d p i :=
  h.owned.entry d p i q hp ((link_eq hi).trans (target_links hd hq hlinks))

/-- Memory apart from the tables, and the bits of the pages without a use, may
change. -/
theorem of_agree_tables (h : Tables P n s root role) {s' : Phys}
    (hwords : s'.bitset.length = BITSET_SIZE)
    (hmem : ∀ q d, (role q).depth = some d → d < n ∨ d < 4 →
      ∀ a, q ≤ a → a < q + 4096 → s'.mem a = s.mem a)
    (hbits : ∀ q, role q ≠ .free → P.allocated s'.bitset q = true) :
    Tables P n s' root role := by
  have hentry : ∀ {p d i : Nat}, (role p).depth = some d → d < n ∨ d < 4 → i < 512 →
      entry s'.mem p i = entry s.mem p i := fun hp hd hi => entry_congr (hmem _ _ hp hd) hi
  have hlink : ∀ {p d i}, (role p).depth = some d →
      link P n s'.mem d p i = link P n s.mem d p i := by
    intro p d i hp
    unfold link
    split
    · next hi =>
      by_cases hd : d < n
      · rw [hentry hp (.inl hd) hi]
      · have hnone : ∀ e, target P n d e = none := fun e => if_neg fun hcond => hd hcond.1
        rw [hnone, hnone]
    · rfl
  refine ⟨hwords, ?_, h.page, hbits, ?_, ?_, ?_, h.rooted, h.depth_lt⟩
  · exact h.owned.mono fun d p i q hd hq => (hlink hd).symm.trans hq
  · intro p d hp hd i hi
    rw [hentry hp (.inr (by omega)) hi]
    exact h.table p d hp hd i hi
  · intro p hp i hi
    rw [hentry hp (.inr (by omega)) hi]
    exact h.last p hp i hi
  · intro q d p i hq hd
    obtain ⟨hp, href⟩ := h.live q d p i hq hd
    exact ⟨hp, (hlink hp).trans href⟩

/-- Memory apart from the pages in use, and their bits, may change. -/
theorem of_agree (h : Tables P n s root role) {s' : Phys} (hwords : s'.bitset.length = BITSET_SIZE)
    (hmem : ∀ q, role q ≠ .free → ∀ a, q ≤ a → a < q + 4096 → s'.mem a = s.mem a)
    (hbits : ∀ q, role q ≠ .free → P.allocated s'.bitset q = true) :
    Tables P n s' root role :=
  h.of_agree_tables hwords (fun q _ hd _ => hmem q (ne_free_of_depth hd)) hbits

/-- The references after a write to one entry. -/
theorem link_write {mem : Mem} {p i d' p' i' : Nat} {e : Word} (hp : p % 4096 = 0)
    (hp' : p' % 4096 = 0) (hi : i < 512) (hne : p' ≠ p ∨ i' ≠ i) :
    link P n (write64 mem (p + 8 * i) e) d' p' i' = link P n mem d' p' i' := by
  unfold link
  split
  · next hi' => rw [entry_write64 hp hp' hi hi', if_neg (by omega)]
  · rfl

/-- The references of the tables after a write to one entry. -/
theorem link_setEntry (h : Tables P n s root role) {d p i : Nat} (e : Word)
    (hp : (role p).depth = some d) (hi : i < 512) {d' p' i' : Nat}
    (hd' : (role p').depth = some d') (hne : p' ≠ p ∨ i' ≠ i) :
    link P n (write64 s.mem (p + 8 * i) e) d' p' i' = link P n s.mem d' p' i' :=
  link_write (h.aligned hp) (h.aligned hd') hi hne

/-- The entries of the tables after a write to one of them. -/
theorem entry_setEntry (h : Tables P n s root role) {d p i : Nat} (e : Word)
    (hp : (role p).depth = some d) (hi : i < 512) {d' p' i' : Nat}
    (hd' : (role p').depth = some d') (hi' : i' < 512) :
    entry (write64 s.mem (p + 8 * i) e) p' i' =
      if p' = p ∧ i' = i then e else entry s.mem p' i' :=
  entry_write64 (h.aligned hp) (h.aligned hd') hi hi'

/-- Entry `i` of `p`, which was not present, now refers to the page `q`. -/
theorem attach (h : Tables P n s root role) {d p i q : Nat} {e : Word}
    (hp : (role p).depth = some d) (hd : d < n) (hn : n ≤ 4) (hi : i < 512)
    (hempty : d < 3 → present (entry s.mem p i) = false) (hq : P.IsPage q)
    (hfree : role q = .free) (hbit : P.allocated s.bitset q = true)
    (hzero : d < 3 → ∀ a, q ≤ a → a < q + 4096 → s.mem a = 0) (hlinks : Links e q) :
    Tables P n { s with mem := write64 s.mem (p + 8 * i) e } root
      (Function.update role q (.entry d p i)) := by
  have hpmod := h.aligned hp
  have hqmod := hq.aligned
  have hpq : p ≠ q := by
    intro heq
    rw [heq, hfree] at hp
    cases hp
  have hself : link P n (write64 s.mem (p + 8 * i) e) d p i = some q := by
    rw [link_eq hi, entry_write64 hpmod hpmod hi hi, if_pos ⟨rfl, rfl⟩]
    exact target_links hd hq hlinks
  have hnew : d < 3 → ∀ j, j < 512 → entry (write64 s.mem (p + 8 * i) e) q j = 0 := by
    intro hd3 j hj
    rw [entry_write64 hpmod hqmod hi hj, if_neg (fun heq => hpq heq.1.symm)]
    exact entry_zero (hzero hd3) hj
  refine ⟨h.words, ?_, ?_, ?_, ?_, ?_, ?_, ?_, ?_⟩
  · refine h.owned.attach hp hfree (fun x hx => ?_) (fun j => ?_) fun d' p' i' x hd' hne hx => ?_
    · exact Option.some.inj (hx.symm.trans hself)
    · unfold link
      split
      · next hj =>
        by_cases hd3 : d < 3
        · rw [hnew hd3 j hj]
          exact target_zero _
        · exact if_neg fun hcond => absurd hcond.1 (by omega)
      · rfl
    · exact (h.link_setEntry e hp hi hd' hne).symm.trans hx
  · exact (Function.forall_update_iff role fun x r => r ≠ .free → P.IsPage x).mpr
      ⟨fun _ => hq, fun x _ => h.page x⟩
  · exact (Function.forall_update_iff role fun x r => r ≠ .free →
      P.allocated s.bitset x = true).mpr ⟨fun _ => hbit, fun x _ => h.allocated x⟩
  · intro p'
    by_cases hp'q : p' = q
    · subst hp'q
      rw [Function.update_self]
      intro d' hd' hd3 i' hi'
      obtain rfl : d + 1 = d' := Option.some.inj hd'
      exact .inl (hnew (by omega) i' hi')
    · rw [Function.update_of_ne hp'q]
      intro d' hd' hd3 i' hi'
      rw [h.entry_setEntry e hp hi hd' hi']
      split
      · exact .inr (.inl ⟨q, hq, hlinks⟩)
      · rcases h.table p' d' hd' hd3 i' hi' with hzero | hlink | ⟨⟨t, hat⟩, hkernel⟩
        · exact .inl hzero
        · exact .inr (.inl hlink)
        · exact .inr (.inr ⟨⟨t, hat.mono (keep_of_free hfree)⟩, hkernel⟩)
  · intro p'
    by_cases hp'q : p' = q
    · subst hp'q
      rw [Function.update_self]
      intro hd' i' hi'
      obtain rfl : d = 2 := Nat.succ.inj (Option.some.inj hd')
      exact .inl (hnew (by omega) i' hi')
    · rw [Function.update_of_ne hp'q]
      intro hd' i' hi'
      rw [h.entry_setEntry e hp hi hd' hi']
      split
      · exact .inr hlinks.present
      · exact h.last p' hd' i' hi'
  · intro x
    by_cases hxq : x = q
    · subst hxq
      rw [Function.update_self]
      intro d' p' i' hx hd3
      obtain ⟨rfl, rfl, rfl⟩ := Role.entry.inj hx
      rw [Function.update_of_ne hpq]
      exact ⟨hp, hself⟩
    · rw [Function.update_of_ne hxq]
      intro d' p' i' hx hd3
      obtain ⟨hdp, href⟩ := h.live x d' p' i' hx hd3
      have hne : p' ≠ p ∨ i' ≠ i := by
        by_contra hboth
        rw [not_or, not_not, not_not] at hboth
        rcases hboth with ⟨rfl, rfl⟩
        obtain rfl : d = d' := Option.some.inj (hp.symm.trans hdp)
        rw [link_eq hi] at href
        rw [(target_eq_some href).2.1] at hempty
        exact absurd (hempty hd3) (by decide)
      rw [keep_of_free hfree p' (ne_free_of_depth hdp)]
      exact ⟨hdp, (h.link_setEntry e hp hi hdp hne).trans href⟩
  · exact (Function.forall_update_iff role fun x r => ∀ t, r = .root t → root t = some x).mpr
      ⟨fun _ ht => (nomatch ht), fun x _ => h.rooted x⟩
  · exact (Function.forall_update_iff role fun _ r => ∀ d' p' i', r = .entry d' p' i' → d' < n).mpr
      ⟨fun _ _ _ heq => (Role.entry.inj heq).1 ▸ hd, fun x _ => h.depth_lt x⟩

/-- Entry `i` of `p` gets a value that refers to no page of the pool: the huge
page in the table for it, or a mapping in a last table. -/
theorem setEntry (h : Tables P n s root role) {d p i : Nat} {e : Word}
    (hp : (role p).depth = some d) (hi : i < 512) (htarget : target P n d e = none)
    (htable : d < 3 → KernelDirectory role p ∧ i = 0 ∧ e = KERNEL_PAGE ∧
      present (entry s.mem p i) = false)
    (hlast : d = 3 → present e = true) :
    Tables P n { s with mem := write64 s.mem (p + 8 * i) e } root role := by
  have hpmod := h.aligned hp
  have hself : link P n (write64 s.mem (p + 8 * i) e) d p i = none := by
    rw [link_eq hi, entry_write64 hpmod hpmod hi hi, if_pos ⟨rfl, rfl⟩]
    exact htarget
  refine ⟨h.words, ?_, h.page, h.allocated, ?_, ?_, ?_, h.rooted, h.depth_lt⟩
  · refine h.owned.mono fun d' p' i' x hd' hx => ?_
    by_cases hself' : p' = p ∧ i' = i
    · rcases hself' with ⟨rfl, rfl⟩
      obtain rfl : d = d' := Option.some.inj (hp.symm.trans hd')
      rw [hself] at hx
      cases hx
    · exact (h.link_setEntry e hp hi hd' (not_and_or.mp hself')).symm.trans hx
  · intro p' d' hd' hd3 i' hi'
    rw [h.entry_setEntry e hp hi hd' hi']
    split
    · next hself' =>
      rcases hself' with ⟨rfl, rfl⟩
      obtain rfl : d = d' := Option.some.inj (hp.symm.trans hd')
      obtain ⟨hkernel, h0, he, -⟩ := htable hd3
      exact .inr (.inr ⟨hkernel, h0, he⟩)
    · exact h.table p' d' hd' hd3 i' hi'
  · intro p' hd' i' hi'
    rw [h.entry_setEntry e hp hi hd' hi']
    split
    · next hself' =>
      rcases hself' with ⟨rfl, rfl⟩
      exact .inr (hlast (Option.some.inj (hp.symm.trans hd')))
    · exact h.last p' hd' i' hi'
  · intro x d' p' i' hx hd3
    obtain ⟨hdp, href⟩ := h.live x d' p' i' hx hd3
    refine ⟨hdp, ?_⟩
    by_cases hself' : p' = p ∧ i' = i
    · rcases hself' with ⟨rfl, rfl⟩
      obtain rfl : d = d' := Option.some.inj (hp.symm.trans hdp)
      rw [link_eq hi] at href
      exact absurd (htable hd3).2.2.2 (by rw [(target_eq_some href).2.1]; decide)
    · exact (h.link_setEntry e hp hi hdp (not_and_or.mp hself')).trans href

/-- The page `q` becomes the root of task `t`. -/
theorem addRoot (h : Tables P n s root role) {t q : Nat} (ht : root t = none)
    (hq : P.IsPage q) (hfree : role q = .free) (hbit : P.allocated s.bitset q = true)
    (hzero : ∀ a, q ≤ a → a < q + 4096 → s.mem a = 0) :
    Tables P n s (Function.update root t (some q)) (Function.update role q (.root t)) := by
  refine ⟨h.words, ?_, ?_, ?_, ?_, ?_, ?_, ?_, ?_⟩
  · refine h.owned.addRoot ht hfree fun j => ?_
    unfold link
    split
    · next hj => rw [entry_zero hzero hj, target_zero]
    · rfl
  · exact (Function.forall_update_iff role fun x r => r ≠ .free → P.IsPage x).mpr
      ⟨fun _ => hq, fun x _ => h.page x⟩
  · exact (Function.forall_update_iff role fun x r => r ≠ .free →
      P.allocated s.bitset x = true).mpr ⟨fun _ => hbit, fun x _ => h.allocated x⟩
  · intro p'
    by_cases hp'q : p' = q
    · subst hp'q
      exact fun _ _ _ i' hi' => .inl (entry_zero hzero hi')
    · rw [Function.update_of_ne hp'q]
      intro d' hd' hd3 i' hi'
      rcases h.table p' d' hd' hd3 i' hi' with hempty | hlink | ⟨⟨t', hat⟩, hkernel⟩
      · exact .inl hempty
      · exact .inr (.inl hlink)
      · exact .inr (.inr ⟨⟨t', hat.mono (keep_of_free hfree)⟩, hkernel⟩)
  · exact (Function.forall_update_iff role fun x r => r.depth = some 3 → ∀ i, i < 512 →
      entry s.mem x i = 0 ∨ present (entry s.mem x i) = true).mpr
      ⟨fun _ _ hi => .inl (entry_zero hzero hi), fun x _ => h.last x⟩
  · intro x
    by_cases hxq : x = q
    · subst hxq
      rw [Function.update_self]
      exact fun _ _ _ hx => (nomatch hx)
    · rw [Function.update_of_ne hxq]
      intro d' p' i' hx hd3
      obtain ⟨hdp, href⟩ := h.live x d' p' i' hx hd3
      rw [keep_of_free hfree p' (ne_free_of_depth hdp)]
      exact ⟨hdp, href⟩
  · intro x
    by_cases hxq : x = q
    · subst hxq
      rw [Function.update_self]
      intro t' hx
      rw [← Role.root.inj hx, Function.update_self]
    · rw [Function.update_of_ne hxq]
      intro t' hx
      have hroot := h.rooted x t' hx
      have hne : t' ≠ t := by
        intro heq
        rw [heq, ht] at hroot
        cases hroot
      rw [Function.update_of_ne hne]
      exact hroot
  · exact (Function.forall_update_iff role fun _ r => ∀ d' p' i', r = .entry d' p' i' → d' < n).mpr
      ⟨fun _ _ _ heq => (nomatch heq), fun x _ => h.depth_lt x⟩

end Tables

end KernelMemVirt.Rackdoll
