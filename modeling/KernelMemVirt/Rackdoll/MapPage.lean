import KernelMemVirt.Rackdoll.Leaves

/-!
# `map_page` on trees of pool pages

`missing` counts the tables that `map_page` has to allocate for an address.  When
as many pages are free, and the address is not in the first 2 MiB, the loop of
`map_page` ends in the last table of the address and `Tables` holds again:
`descend_spec`.  One turn adds one table (`Tables.addTable`), and what the turns
have in common is that they extend the trees (`Extended`).  `mapPage_spec` adds the
last entry, which backs the page of the address and no other.

`Tables.descend_present` is the case without allocation, where nothing changes.
-/

namespace KernelMemVirt.Rackdoll

open ByteMem OwnerTree

/-- The number of tables that `map_page` allocates in `n` turns of its loop. -/
def missing (mem : Mem) (vaddr : Word) : Nat → Word → Nat
  | 0, _ => 0
  | n + 1, cadre =>
    let e := read64 mem (slot cadre vaddr (n + 2))
    if e &&& 1 = 0 then n + 1 else missing mem vaddr n (e &&& ADDR_MASK)

theorem missing_le (mem : Mem) (vaddr : Word) : ∀ (n : Nat) (cadre : Word),
    missing mem vaddr n cadre ≤ n := by
  intro n
  induction n with
  | zero => exact fun _ => Nat.le_refl 0
  | succ n ih =>
    intro cadre
    unfold missing
    dsimp only
    split
    · exact Nat.le_refl _
    · exact Nat.le_succ_of_le (ih _)

variable {P : PoolRegion} {n : Nat} {s : Phys} {root : Nat → Option Nat} {role : Nat → PageRole}

/-! ## Allocation -/

/-- A page that `alloc_page` has just returned. -/
structure Fresh (P : PoolRegion) (s s' : Phys) (role : Nat → PageRole) (q : Nat) : Prop where
  mem : s'.mem = s.mem
  page : P.IsPage q
  unallocated : P.allocated s.bitset q = false
  unused : role q = .free
  words : s'.bitset.length = BITSET_SIZE
  bits : ∀ x, P.IsPage x →
    P.allocated s'.bitset x = (decide (x = q) || P.allocated s.bitset x)
  free : Bitset.free s.bitset = Bitset.free s'.bitset + 1

theorem Fresh.takes {s' : Phys} {q : Nat} (h : Fresh P s s' role q) :
    P.Takes s.bitset s'.bitset q := ⟨h.page, h.unallocated, h.words, h.bits, h.free⟩

theorem Fresh.allocated {s' : Phys} {q : Nat} (h : Fresh P s s' role q) :
    P.allocated s'.bitset q = true := h.takes.allocated h.page (.inl rfl)

/-- Allocated pages stay allocated. -/
theorem Fresh.keeps {s' : Phys} {q x : Nat} (h : Fresh P s s' role q) (hx : P.IsPage x)
    (hbit : P.allocated s.bitset x = true) : P.allocated s'.bitset x = true :=
  h.takes.allocated hx (.inr hbit)

/-- `alloc_page` returns a page that no table uses. -/
theorem Tables.alloc (h : Tables P n s root role) (hfree : 0 < Bitset.free s.bitset) :
    ∃ s' q, s.alloc P.base = (s', BitVec.ofNat 64 q) ∧ Fresh P s s' role q ∧
      Tables P n s' root role := by
  rcases P.alloc_cases h.words with ⟨bitset, q, hpage, htake⟩ | ⟨hnone, -⟩
  · have hunused : role q = .free := by
      by_contra hne
      have hclear := htake.unallocated
      rw [h.allocated q hne] at hclear
      cases hclear
    refine ⟨{ s with bitset }, q, ?_,
      ⟨rfl, htake.page, htake.unallocated, hunused, htake.words, htake.bits, htake.free⟩, ?_⟩
    · unfold Phys.alloc
      rw [hpage]
    · refine h.of_agree htake.words (fun _ _ _ _ _ => rfl) fun x hx => ?_
      exact htake.allocated (h.page x hx) (.inr (h.allocated x hx))
  · omega

/-- `alloc_page` when no page is free. -/
theorem alloc_of_full (hfull : Bitset.free s.bitset = 0) : s.alloc P.base = (s, 0) := by
  rcases allocPage_cases P.base s.bitset with ⟨k, hk, hclear, -⟩ | ⟨-, hpage⟩
  · have hset := Bitset.free_set hk hclear
    omega
  · unfold Phys.alloc
    rw [hpage]

/-- The other pages that are not allocated are zero. -/
theorem Fresh.zeroFree {s' : Phys} {q : Nat} (h : Fresh P s s' role q) (hzero : ZeroFree P s) :
    ZeroFree P s' := by
  intro x hx hbit a hlo hhi
  rw [h.mem]
  exact hzero x hx (h.takes.unallocated_of hx hbit) a hlo hhi

/-- A write to an entry of one page leaves the other pages alone. -/
theorem write64_apply_of_ne {mem : Mem} {p x i a : Nat} {e : Word} (hp : P.IsPage p)
    (hx : P.IsPage x) (hne : x ≠ p) (hi : i < 512) (hlo : x ≤ a) (hhi : a < x + 4096) :
    write64 mem (p + 8 * i) e a = mem a := by
  have hpmod := hp.aligned
  have hxmod := hx.aligned
  exact writeBytes_apply_of_outside (by omega)

/-- A write to an allocated page. -/
theorem ZeroFree.write (h : ZeroFree P s) {p i : Nat} {e : Word} (hp : P.IsPage p)
    (hbit : P.allocated s.bitset p = true) (hi : i < 512) :
    ZeroFree P { s with mem := write64 s.mem (p + 8 * i) e } := by
  intro x hx hclear a hlo hhi
  have hne : x ≠ p := by
    intro heq
    subst heq
    exact absurd (hbit.symm.trans hclear) (by decide)
  exact (write64_apply_of_ne hp hx hne hi hlo hhi).trans (h x hx hclear a hlo hhi)

/-! ## The loop -/

/-- The slot of an address in a table at depth `d`. -/
theorem slot_at {p d lvl : Nat} (v : Word) (hp : P.IsPage p) (hd : d + lvl = 4) (hlvl : 1 ≤ lvl) :
    slot (BitVec.ofNat 64 p) v lvl = p + 8 * pathIndex v.toNat d := by
  have hlt := hp.lt
  rw [slot_eq v (by omega) hlvl (by omega), tableIndex_eq hd]

/-- A present entry on the way of an address outside the first 2 MiB leads to the
next table. -/
theorem Tables.next (h : Tables P n s root role) (hn : 3 ≤ n) {t v d p : Nat}
    (hat : At role t v d p) (hd : d < 3) (hlow : ¬ LowAddress v)
    (hpresent : present (entry s.mem p (pathIndex v d)) = true) :
    ∃ q, Links (entry s.mem p (pathIndex v d)) q ∧ P.IsPage q ∧ At role t v (d + 1) q := by
  have hlt := pathIndex_lt v d
  rcases h.table p d hat.depth hd _ hlt with hzero | ⟨q, hq, hlinks⟩ | ⟨⟨t', hat'⟩, hindex, -⟩
  · rw [hzero] at hpresent
    exact absurd hpresent (by decide)
  · exact ⟨q, hlinks, hq, p, hat, h.role_of_links hat.depth (by omega) hlt hq hlinks⟩
  · obtain ⟨rfl, -, hsame⟩ := hat'.unique hat
    refine absurd ((lowAddress_iff v).mpr ⟨?_, ?_, hindex⟩) hlow
    · exact (hsame 0 (by omega)).symm.trans (by decide)
    · exact (hsame 1 (by omega)).symm.trans (by decide)

/-- What `map_page` does to the tables, when the new entry refers to no page of
the pool, or to a page that has no use. -/
structure Mapped (P : PoolRegion) (n : Nat) (s s' : Phys) (root : Nat → Option Nat)
    (role role' : Nat → PageRole) : Prop where
  tables : Tables P n s' root role'
  keep : ∀ x, role x ≠ .free → role' x = role x
  bits : ∀ x, P.IsPage x → P.allocated s.bitset x = true → P.allocated s'.bitset x = true
  zero : ZeroFree P s'

/-- What the turns of the loop keep, besides. -/
structure Extended (P : PoolRegion) (n : Nat) (s s' : Phys) (root : Nat → Option Nat)
    (role role' : Nat → PageRole) : Prop extends Mapped P n s s' root role role' where
  unused : ∀ x, P.IsPage x → P.allocated s.bitset x = true → role x = .free → role' x = .free
  kept : LeavesKept P s s' role role' (fun _ _ => False)

theorem Extended.refl (h : Tables P n s root role) (hzero : ZeroFree P s) :
    Extended P n s s root role role where
  tables := h
  keep := fun _ _ => rfl
  bits := fun _ _ hbit => hbit
  zero := hzero
  unused := fun _ _ _ hfree => hfree
  kept := LeavesKept.refl P s role _

section

variable {s₁ s₂ : Phys} {role₁ role₂ : Nat → PageRole} {new : Nat → Nat → Prop}

theorem Extended.mapped (h : Extended P n s s₁ root role role₁)
    (h' : Mapped P n s₁ s₂ root role₁ role₂) : Mapped P n s s₂ root role role₂ where
  tables := h'.tables
  keep := by
    intro x hx
    rw [h'.keep x (by rw [h.keep x hx]; exact hx), h.keep x hx]
  bits := fun x hx hbit => h'.bits x hx (h.bits x hx hbit)
  zero := h'.zero

theorem Extended.leavesKept (h : Extended P n s s₁ root role role₁)
    (h' : LeavesKept P s₁ s₂ role₁ role₂ new) : LeavesKept P s s₂ role role₂ new where
  leaves := fun A hnew hold => h'.leaves A hnew (h.kept.leaves A (fun _ _ hno => hno.elim) hold)
  reserved := by
    intro x hx hbit hfree a hlo hhi
    have hrest := h'.reserved x hx (h.bits x hx hbit) (h.unused x hx hbit hfree) a hlo hhi
    exact hrest.trans (h.kept.reserved x hx hbit hfree a hlo hhi)

theorem Extended.trans (h : Extended P n s s₁ root role role₁)
    (h' : Extended P n s₁ s₂ root role₁ role₂) : Extended P n s s₂ root role role₂ where
  toMapped := h.mapped h'.toMapped
  unused := fun x hx hbit hfree => h'.unused x hx (h.bits x hx hbit) (h.unused x hx hbit hfree)
  kept := h.leavesKept h'.kept

end

/-- A turn of the loop in which a new page becomes the missing table. -/
theorem Tables.addTable (htables : Tables P n s root role) (hn : 3 ≤ n) (hn4 : n ≤ 4)
    (hzero : ZeroFree P s) {t v d p : Nat} (hat : At role t v d p) (hd : d < 3)
    (hmissing : present (entry s.mem p (pathIndex v d)) = false)
    (hfree : 0 < Bitset.free s.bitset) :
    ∃ s₁ q role₂, s.alloc P.base = (s₁, BitVec.ofNat 64 q) ∧
      Links (BitVec.ofNat 64 q ||| 0x7) q ∧ Bitset.free s.bitset = Bitset.free s₁.bitset + 1 ∧
      Extended P n s
        { s₁ with mem := write64 s₁.mem (p + 8 * pathIndex v d) (BitVec.ofNat 64 q ||| 0x7) }
        root role role₂ ∧
      At role₂ t v (d + 1) q := by
  have hp := htables.page p hat.ne_free
  have hlt := pathIndex_lt v d
  obtain ⟨s₁, q, halloc, hfresh, htables₁⟩ := htables.alloc hfree
  have hqlt := hfresh.page.lt
  have hlinks : Links (BitVec.ofNat 64 q ||| 0x7) q :=
    links_or hfresh.page.aligned (by omega) (by decide) (by decide) (by decide)
  have hqzero : ∀ a, q ≤ a → a < q + 4096 → s₁.mem a = 0 := by
    rw [hfresh.mem]
    exact hzero q hfresh.page hfresh.unallocated
  have hkeep : ∀ x, role x ≠ .free →
      Function.update role q (.entry d p (pathIndex v d)) x = role x := keep_of_free hfresh.unused
  refine ⟨s₁, q, _, halloc, hlinks, hfresh.free, ⟨⟨?_, hkeep, ?_, ?_⟩, ?_, ?_, ?_⟩,
    p, hat.mono hkeep, Function.update_self _ _ _⟩
  · exact htables₁.attach hat.depth (show d < n by omega) hn4 hlt
      (fun _ => by rw [hfresh.mem]; exact hmissing) hfresh.page hfresh.unused hfresh.allocated
      (fun _ => hqzero) hlinks
  · exact fun x hx hbit => hfresh.keeps hx hbit
  · exact (hfresh.zeroFree hzero).write hp
      (hfresh.keeps hp (htables.allocated p hat.ne_free)) hlt
  · intro x _ hbit hxfree
    rw [Function.update_of_ne ?_, hxfree]
    intro heq
    subst heq
    rw [hfresh.unallocated] at hbit
    cases hbit
  · intro A _ hold
    rw [← hfresh.mem] at hold
    exact htables₁.leaves_attach hat.depth hlt hfresh.page hfresh.unused (fun _ => hqzero)
      (fun h => absurd h (by omega)) hold
  · intro x hx _ hxfree a hlo hhi
    rw [← hfresh.mem]
    exact write64_apply_of_ne hp hx (fun heq => hat.ne_free (heq ▸ hxfree)) hlt hlo hhi

/-- The loop of `map_page`: there are enough free pages, which are zero, and the
address is not in the first 2 MiB. -/
theorem descend_spec (hn : 3 ≤ n) (hn4 : n ≤ 4) {t : Nat} {v : Word} (hlow : ¬ LowAddress v.toNat) :
    ∀ {turns d p : Nat} {s : Phys} {role : Nat → PageRole}, d + turns = 3 →
      Tables P n s root role → ZeroFree P s → At role t v.toNat d p →
      missing s.mem v turns (BitVec.ofNat 64 p) ≤ Bitset.free s.bitset →
      ∃ s' role' q,
        Phys.descend P.base v turns s (BitVec.ofNat 64 p) = (s', BitVec.ofNat 64 q) ∧
          Extended P n s s' root role role' ∧ At role' t v.toNat 3 q := by
  intro turns
  induction turns with
  | zero =>
    intro d p s role hd htables hzero hat _
    obtain rfl : d = 3 := hd
    exact ⟨s, role, p, rfl, Extended.refl htables hzero, hat⟩
  | succ turns ih =>
    intro d p s role hd htables hzero hat hmissing
    have hp := htables.page p hat.ne_free
    have hslot := slot_at v hp (show d + (turns + 2) = 4 by omega) (by omega)
    unfold Phys.descend Phys.enterTable
    unfold missing at hmissing
    rw [hslot] at hmissing ⊢
    dsimp only at hmissing ⊢
    by_cases hpresent : present (entry s.mem p (pathIndex v.toNat d)) = true
    · have hcond : ¬ read64 s.mem (p + 8 * pathIndex v.toNat d) &&& 1 = 0 := by
        rw [and_one_eq_zero]
        exact fun h => absurd (hpresent.symm.trans h) (by decide)
      rw [if_neg hcond] at hmissing ⊢
      obtain ⟨q, hlinks, -, hnext⟩ := htables.next hn hat (by omega) hlow hpresent
      have haddr : read64 s.mem (p + 8 * pathIndex v.toNat d) &&& ADDR_MASK = BitVec.ofNat 64 q :=
        hlinks.addr
      rw [haddr] at hmissing ⊢
      exact ih (by omega) htables hzero hnext hmissing
    · rw [Bool.not_eq_true] at hpresent
      have hcond : read64 s.mem (p + 8 * pathIndex v.toNat d) &&& 1 = 0 :=
        (and_one_eq_zero _).mpr hpresent
      rw [if_pos hcond] at hmissing ⊢
      obtain ⟨s₁, q, role₂, halloc, hlinks, hfree, hturn, hnext⟩ :=
        htables.addTable hn hn4 hzero hat (by omega) hpresent (by omega)
      rw [halloc]
      dsimp only
      rw [read64_write64_self, hlinks.addr]
      have hcount : ∀ mem, missing mem v turns (BitVec.ofNat 64 q) ≤ Bitset.free s₁.bitset := by
        intro mem
        have hle := missing_le mem v turns (BitVec.ofNat 64 q)
        omega
      obtain ⟨s', role', q', hdesc, hrest, hlast⟩ :=
        ih (by omega) hturn.tables hturn.zero hnext (hcount _)
      exact ⟨s', role', q', hdesc, hturn.trans hrest, hlast⟩

/-- The count depends on the tables only. -/
theorem Tables.missing_congr (h : Tables P n s root role) (hn : 3 ≤ n) {t : Nat} {v : Word}
    (hlow : ¬ LowAddress v.toNat) {mem : Mem}
    (hmem : ∀ q, role q ≠ .free → ∀ a, q ≤ a → a < q + 4096 → mem a = s.mem a) :
    ∀ {turns d p : Nat}, d + turns = 3 → At role t v.toNat d p →
      missing mem v turns (BitVec.ofNat 64 p) = missing s.mem v turns (BitVec.ofNat 64 p) := by
  intro turns
  induction turns with
  | zero => exact fun _ _ => rfl
  | succ turns ih =>
    intro d p hd hat
    have hlt := pathIndex_lt v.toNat d
    have hslot := slot_at v (h.page p hat.ne_free) (show d + (turns + 2) = 4 by omega) (by omega)
    have hsame : read64 mem (p + 8 * pathIndex v.toNat d) = entry s.mem p (pathIndex v.toNat d) :=
      entry_congr (hmem p hat.ne_free) hlt
    unfold missing
    rw [hslot]
    dsimp only
    rw [hsame]
    refine ite_congr rfl (fun _ => rfl) fun hcond => ?_
    rw [and_one_eq_zero, Bool.not_eq_false] at hcond
    obtain ⟨q, hlinks, -, hnext⟩ := h.next hn hat (by omega) hlow hcond
    have haddr : read64 s.mem (p + 8 * pathIndex v.toNat d) &&& ADDR_MASK = BitVec.ofNat 64 q :=
      hlinks.addr
    rw [hlinks.addr, haddr]
    exact ih (by omega) hnext

/-- When no table is missing the loop changes nothing, and goes where `munmap`
goes. -/
theorem Tables.descend_present (h : Tables P n s root role) (hn : 3 ≤ n) {t : Nat} {v : Word}
    (hlow : ¬ LowAddress v.toNat) :
    ∀ {turns d p : Nat}, d + turns = 3 → At role t v.toNat d p →
      missing s.mem v turns (BitVec.ofNat 64 p) = 0 →
      ∃ q, Phys.descend P.base v turns s (BitVec.ofNat 64 p) = (s, BitVec.ofNat 64 q) ∧
        follow s.mem v turns (BitVec.ofNat 64 p) = BitVec.ofNat 64 q ∧ At role t v.toNat 3 q := by
  intro turns
  induction turns with
  | zero =>
    intro d p hd hat _
    obtain rfl : d = 3 := hd
    exact ⟨p, rfl, rfl, hat⟩
  | succ turns ih =>
    intro d p hd hat hmissing
    have hslot := slot_at v (h.page p hat.ne_free) (show d + (turns + 2) = 4 by omega) (by omega)
    unfold missing at hmissing
    unfold Phys.descend Phys.enterTable follow
    rw [hslot] at hmissing ⊢
    dsimp only at hmissing ⊢
    split at hmissing
    · omega
    · next hcond =>
      rw [if_neg hcond]
      rw [and_one_eq_zero, Bool.not_eq_false] at hcond
      obtain ⟨q, hlinks, -, hnext⟩ := h.next hn hat (by omega) hlow hcond
      have haddr : read64 s.mem (p + 8 * pathIndex v.toNat d) &&& ADDR_MASK = BitVec.ofNat 64 q :=
        hlinks.addr
      rw [haddr] at hmissing ⊢
      exact ih (by omega) hnext hmissing

/-! ## The whole function -/

theorem present_or_seven (paddr : Word) : present (paddr ||| 0x7) = true := by
  unfold present
  rw [BitVec.getLsbD_or, show (0x7 : Word).getLsbD 0 = true from rfl, Bool.or_true]

/-- Memory below the pool may change. -/
theorem Tables.fillLow (h : Tables P n s root role) :
    Tables P n { s with mem := fill s.mem 0 0 PAGE_SIZE } root role := by
  refine h.of_agree h.words (fun q hq a hlo _ => ?_) h.allocated
  have hlt := (h.page q hq).lt
  exact fill_apply_of_outside (.inr (by unfold PAGE_SIZE; omega))

theorem ZeroFree.fillLow (h : ZeroFree P s) :
    ZeroFree P { s with mem := fill s.mem 0 0 PAGE_SIZE } := by
  intro q hq hbit a hlo hhi
  have hlt := hq.lt
  exact (fill_apply_of_outside (.inr (by unfold PAGE_SIZE; omega))).trans (h q hq hbit a hlo hhi)

/-- The value of a last entry: it refers to no page of the pool that counts, or
to one that is allocated and has no use. -/
def LeafFits (P : PoolRegion) (n : Nat) (s : Phys) (role : Nat → PageRole) (paddr : Word) : Prop :=
  target P n 3 (paddr ||| 0x7) = none ∨
    ∃ q, paddr = BitVec.ofNat 64 q ∧ P.IsPage q ∧ role q = .free ∧ P.allocated s.bitset q = true

theorem Extended.leafFits {s₁ : Phys} {role₁ : Nat → PageRole} {paddr : Word}
    (h : Extended P n s s₁ root role role₁) (hleaf : LeafFits P n s role paddr) :
    LeafFits P n s₁ role₁ paddr := by
  rcases hleaf with hnone | ⟨x, heq, hx, hfree, hbit⟩
  · exact .inl hnone
  · exact .inr ⟨x, heq, hx, h.unused x hx hbit hfree, h.bits x hx hbit⟩

/-- The `memset` of `map_page`.  An entry that is not present is zero, so the page at
address 0 is cleared. -/
theorem Tables.clearLeaf (h : Tables P n s root role) (hzero : ZeroFree P s) {q i : Nat}
    (hq : (role q).depth = some 3) (hi : i < 512) :
    ∃ mem, mem = (if read64 s.mem (q + 8 * i) &&& 1 = 0 then
          fill s.mem (read64 s.mem (q + 8 * i)).toNat 0 PAGE_SIZE else s.mem) ∧
      Extended P n s { s with mem } root role role := by
  split
  · next hcond =>
    have hempty : read64 s.mem (q + 8 * i) = 0 := by
      rcases h.last q hq i hi with h0 | hpresent
      · exact h0
      · exact absurd (hpresent.symm.trans ((and_one_eq_zero _).mp hcond)) (by decide)
    have hsame : ∀ x, P.IsPage x → ∀ a, x ≤ a → fill s.mem 0 0 PAGE_SIZE a = s.mem a := by
      intro x hx a hlo
      have hlt := hx.lt
      exact fill_apply_of_outside (.inr (by unfold PAGE_SIZE; omega))
    rw [hempty]
    refine ⟨_, rfl, ⟨h.fillLow, fun _ _ => rfl, fun _ _ hbit => hbit, hzero.fillLow⟩,
      fun _ _ _ hfree => hfree, fun A _ hold => ?_, fun x hx _ _ a hlo _ => hsame x hx a hlo⟩
    refine hold.congr fun x hx j hj => ?_
    exact entry_congr (fun a hlo _ => hsame x (h.page x (ne_free_of_depth hx)) a hlo) hj
  · exact ⟨s.mem, rfl, Extended.refl h hzero⟩

/-- The write of the last entry. -/
theorem Tables.setLeaf (h : Tables P n s root role) (hn4 : n ≤ 4) (hzero : ZeroFree P s)
    {t v q : Nat} (hat : At role t v 3 q) {paddr : Word} (hleaf : LeafFits P n s role paddr) :
    ∃ role', Mapped P n s { s with mem := write64 s.mem (q + 8 * pathIndex v 3) (paddr ||| 0x7) }
        root role role' ∧
      LeavesKept P s { s with mem := write64 s.mem (q + 8 * pathIndex v 3) (paddr ||| 0x7) }
        role role' (fun t' v' => t' = t ∧ pageNumber v' = pageNumber v) ∧
      At role' t v 3 q := by
  have hq := h.page q hat.ne_free
  have hlt := pathIndex_lt v 3
  have hwrite : ZeroFree P
      { s with mem := write64 s.mem (q + 8 * pathIndex v 3) (paddr ||| 0x7) } :=
    hzero.write hq (h.allocated q hat.ne_free) hlt
  have hnew : ∀ {A : Nat → Nat → Prop},
      (∀ t' v', t' = t ∧ pageNumber v' = pageNumber v → A t' v') →
      ∀ t' v', At role t' v' 3 q → pathIndex v' 3 = pathIndex v 3 → A t' v' := by
    intro A hA t' v' hat' hindex
    exact hA t' v' (hat'.page_unique hat hindex)
  have hreserved : ∀ x, P.IsPage x → P.allocated s.bitset x = true → role x = .free →
      ∀ a, x ≤ a → a < x + 4096 →
        write64 s.mem (q + 8 * pathIndex v 3) (paddr ||| 0x7) a = s.mem a := by
    intro x hx _ hfree a hlo hhi
    exact write64_apply_of_ne hq hx (fun heq => hat.ne_free (heq ▸ hfree)) hlt hlo hhi
  by_cases hcounts : 3 < n ∧ target P n 3 (paddr ||| 0x7) ≠ none
  · rcases hleaf with hnone | ⟨x, rfl, hx, hfree, hbit⟩
    · exact absurd hnone hcounts.2
    · have hxlt := hx.lt
      have hlinks : Links (BitVec.ofNat 64 x ||| 0x7) x :=
        links_or hx.aligned (by omega) (by decide) (by decide) (by decide)
      exact ⟨_, ⟨h.attach hat.depth hcounts.1 hn4 hlt (fun h => absurd h (by omega)) hx hfree hbit
          (fun h => absurd h (by omega)) hlinks, keep_of_free hfree, fun _ _ hb => hb, hwrite⟩,
        ⟨fun A hA hold => h.leaves_attach hat.depth hlt hx hfree (fun h => absurd h (by omega))
          (fun _ => hnew hA) hold, hreserved⟩, hat.mono (keep_of_free hfree)⟩
  · have hnone : target P n 3 (paddr ||| 0x7) = none := by
      by_contra hsome
      exact hcounts ⟨(target_eq_some (Option.ne_none_iff_exists'.mp hsome).choose_spec).1, hsome⟩
    exact ⟨role, ⟨h.setEntry hat.depth hlt hnone (fun h => absurd h (by omega))
        (fun _ => present_or_seven _), fun _ _ => rfl, fun _ _ hb => hb, hwrite⟩,
      ⟨fun A hA hold => h.leaves_write hat.depth hlt (fun _ => hnew hA) hold, hreserved⟩, hat⟩

theorem mapPage_spec (hn : 3 ≤ n) (hn4 : n ≤ 4) {t p : Nat} {v paddr : Word}
    (hlow : ¬ LowAddress v.toNat) (htables : Tables P n s root role) (hzero : ZeroFree P s)
    (hroot : role p = .root t)
    (hmissing : missing s.mem v 3 (BitVec.ofNat 64 p) ≤ Bitset.free s.bitset)
    (hleaf : LeafFits P n s role paddr) :
    ∃ role' q, Mapped P n s (s.mapPage P.base (BitVec.ofNat 64 p) v paddr) root role role' ∧
      LeavesKept P s (s.mapPage P.base (BitVec.ofNat 64 p) v paddr) role role'
        (fun t' v' => t' = t ∧ pageNumber v' = pageNumber v.toNat) ∧
      At role' t v.toNat 3 q ∧
        entry (s.mapPage P.base (BitVec.ofNat 64 p) v paddr).mem q (pathIndex v.toNat 3)
          = paddr ||| 0x7 := by
  obtain ⟨s₁, role₁, q, hdesc, hdone, hlast⟩ :=
    descend_spec hn hn4 hlow (Nat.zero_add 3) htables hzero (show At role t v.toNat 0 p from hroot)
      hmissing
  have hslot := slot_at v (hdone.tables.page q hlast.ne_free) (show 3 + 1 = 4 from rfl) (by omega)
  obtain ⟨mem, hmem, hclear⟩ :=
    hdone.tables.clearLeaf hdone.zero hlast.depth (pathIndex_lt v.toNat 3)
  have hready := hdone.trans hclear
  obtain ⟨role', hmapped, hkept, hat⟩ :=
    hready.tables.setLeaf hn4 hready.zero hlast (hready.leafFits hleaf)
  unfold Phys.mapPage
  rw [hdesc]
  dsimp only
  rw [hslot, ← hmem]
  exact ⟨role', q, hready.mapped hmapped, hready.leavesKept hkept, hat, read64_write64_self _ _ _⟩

end KernelMemVirt.Rackdoll
