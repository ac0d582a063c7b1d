import KernelMemVirt.Rackdoll.Leaves

/-!
# Page tables anywhere in memory

The tree of tables that the processor walks, with no condition on where its tables are.
`child` is the table that an entry leads to, and `tableAt mem root v d` is the table that
the indices of `v` lead to after `d` entries.

* `translate_eq` gives the translation of an address from its last table, and
  `translate_eq_none` the addresses that end before.
* `walkFrom_congr` is what a translation depends on: the entries on the path of its
  address.
* `agreeOn_write` is a write to one entry: only the addresses whose path has that entry can
  see it.  When no table of the tree is shared, and it is a last entry, they are one page:
  `translate_write`.
-/

namespace KernelMemVirt.Rackdoll

open ByteMem OwnerTree

/-! ## Paths -/

/-- The table that entry `i` of the table `p` at depth `d` leads to. -/
def child (mem : Mem) (d p i : Nat) : Option Nat :=
  if i < 512 ∧ d < 3 ∧ present (entry mem p i) = true ∧ (d = 0 ∨ huge (entry mem p i) = false) then
    some (frame (entry mem p i))
  else none

/-- The first `d` indices of an address, the last one first. -/
def indices (v : Nat) : Nat → List Nat
  | 0 => []
  | d + 1 => pathIndex v d :: indices v d

@[simp] theorem length_indices (v d : Nat) : (indices v d).length = d := by
  induction d with
  | zero => rfl
  | succ d ih => rw [indices, List.length_cons, ih]

theorem indices_eq_iff {v v' : Nat} : ∀ {d : Nat},
    indices v d = indices v' d ↔ ∀ k, k < d → pathIndex v k = pathIndex v' k := by
  intro d
  induction d with
  | zero => exact iff_of_true rfl fun k hk => absurd hk (Nat.not_lt_zero k)
  | succ d ih =>
    rw [indices, indices, List.cons.injEq, ih]
    constructor
    · intro hboth k hk
      rcases hboth with ⟨hlast, hrest⟩
      by_cases hkd : k = d
      · rw [hkd, hlast]
      · exact hrest k (by omega)
    · exact fun hall => ⟨hall d (Nat.lt_succ_self d), fun k hk => hall k (by omega)⟩

/-- The table of `v` at depth `d` of the tree at `root`. -/
def tableAt (mem : Mem) (root v d : Nat) : Option Nat := walk (child mem) root (indices v d)

variable {mem mem' : Mem} {root v v' d p q i : Nat}

theorem tableAt_zero : tableAt mem root v 0 = some root := rfl

theorem tableAt_succ :
    tableAt mem root v (d + 1) =
      (tableAt mem root v d).bind fun p => child mem d p (pathIndex v d) := by
  have hlen := length_indices v d
  show ((tableAt mem root v d).bind fun p => child mem (indices v d).length p (pathIndex v d)) = _
  rw [hlen]

/-- A table on a path has a table above it. -/
theorem tableAt_succ_eq_some (h : tableAt mem root v (d + 1) = some q) :
    ∃ p, tableAt mem root v d = some p ∧ child mem d p (pathIndex v d) = some q :=
  Option.bind_eq_some_iff.mp (tableAt_succ.symm.trans h)

theorem child_eq_some (h : child mem d p i = some q) :
    i < 512 ∧ d < 3 ∧ present (entry mem p i) = true ∧ (d = 0 ∨ huge (entry mem p i) = false) ∧
      frame (entry mem p i) = q := by
  unfold child at h
  split at h
  · next hcond =>
    cases h
    exact ⟨hcond.1, hcond.2.1, hcond.2.2.1, hcond.2.2.2, rfl⟩
  · cases h

theorem child_of_present (hd : d < 3) (hpresent : present (entry mem p (pathIndex v d)) = true)
    (hhuge : d = 0 ∨ huge (entry mem p (pathIndex v d)) = false) :
    child mem d p (pathIndex v d) = some (frame (entry mem p (pathIndex v d))) :=
  if_pos ⟨pathIndex_lt v d, hd, hpresent, hhuge⟩

theorem tableAt_le (h : tableAt mem root v d = some p) : d ≤ 3 := by
  cases d with
  | zero => exact Nat.zero_le 3
  | succ d =>
    obtain ⟨_, -, hchild⟩ := tableAt_succ_eq_some h
    exact (child_eq_some hchild).2.1

theorem frame_aligned (e : Word) : frame e % 4096 = 0 := by
  unfold frame
  omega

theorem frame_lt (e : Word) : frame e < 2 ^ 52 := by
  unfold frame
  omega

/-- The tables below an aligned root are aligned. -/
theorem walk_aligned (hroot : root % 4096 = 0) {path : List Nat}
    (h : walk (child mem) root path = some p) : p % 4096 = 0 := by
  cases path with
  | nil =>
    obtain rfl : root = p := Option.some.inj h
    exact hroot
  | cons i path =>
    obtain ⟨_, -, hchild⟩ := walk_cons_eq_some.mp h
    exact (child_eq_some hchild).2.2.2.2 ▸ frame_aligned _

theorem tableAt_aligned (hroot : root % 4096 = 0) (h : tableAt mem root v d = some p) :
    p % 4096 = 0 := walk_aligned hroot h

theorem tableAt_lt (hroot : root < 2 ^ 52) (h : tableAt mem root v d = some p) : p < 2 ^ 52 := by
  cases d with
  | zero =>
    obtain rfl : root = p := Option.some.inj h
    exact hroot
  | succ d =>
    obtain ⟨_, -, hchild⟩ := tableAt_succ_eq_some h
    exact (child_eq_some hchild).2.2.2.2 ▸ frame_lt _

/-- Below an entry that is not present there is no table. -/
theorem tableAt_of_missing (hp : tableAt mem root v d = some p)
    (hempty : present (entry mem p (pathIndex v d)) = false) :
    ∀ {d' : Nat}, d < d' → tableAt mem root v d' = none := by
  intro d'
  induction d' with
  | zero => exact fun h => absurd h (Nat.not_lt_zero d)
  | succ d' ih =>
    intro hd
    by_cases hsame : d' = d
    · subst hsame
      rw [tableAt_succ, hp, Option.bind_some]
      exact if_neg fun hcond => absurd (hcond.2.2.1.symm.trans hempty) (by decide)
    · rw [tableAt_succ, ih (by omega)]
      rfl

/-- Where present entries lead to tables, a way ends in a last table or at an entry that is not
present. -/
theorem way_ends (hnext : ∀ {d p : Nat}, d < 3 → tableAt mem root v d = some p →
      present (entry mem p (pathIndex v d)) = true → ∃ q, tableAt mem root v (d + 1) = some q) :
    (∃ p, tableAt mem root v 3 = some p) ∨
      ∃ d p, d < 3 ∧ tableAt mem root v d = some p ∧
        present (entry mem p (pathIndex v d)) = false := by
  by_contra hnot
  rw [not_or] at hnot
  have hall : ∀ d, d ≤ 3 → ∃ p, tableAt mem root v d = some p := by
    intro d
    induction d with
    | zero => exact fun _ => ⟨root, rfl⟩
    | succ d ih =>
      intro hd
      obtain ⟨p, hp⟩ := ih (by omega)
      by_cases hpresent : present (entry mem p (pathIndex v d)) = true
      · exact hnext (by omega) hp hpresent
      · rw [Bool.not_eq_true] at hpresent
        exact absurd ⟨d, p, by omega, hp, hpresent⟩ hnot.2
  exact hnot.1 (hall 3 (Nat.le_refl 3))

/-- There is an address with given indices. -/
theorem exists_address (f : Nat → Nat) (hf : ∀ k, f k < 512) :
    ∃ v, v < 2 ^ 48 ∧ ∀ k, k < 4 → pathIndex v k = f k := by
  have h0 := hf 0
  have h1 := hf 1
  have h2 := hf 2
  have h3 := hf 3
  refine ⟨(((f 0 * 512 + f 1) * 512 + f 2) * 512 + f 3) * 4096, by omega, fun k hk => ?_⟩
  unfold pathIndex tableIndex
  interval_cases k
  all_goals
    norm_num
    omega

/-! ## The walk -/

/-- The walk at a table. -/
theorem walkFrom_succ {n : Nat} :
    walkFrom mem v (n + 1) p =
      let e := entry mem p (tableIndex v (n + 1))
      if present e = false then none
      else if n = 0 ∨ n ≤ 2 ∧ huge e = true then
        some
          { paddr := e.toNat % 2 ^ 52 / 2 ^ (12 + 9 * n) * 2 ^ (12 + 9 * n) + v % 2 ^ (12 + 9 * n)
            writable := e.getLsbD 1
            user := e.getLsbD 2
            executable := !e.getLsbD 63
            leaf := e }
      else
        (walkFrom mem v n (frame e)).map fun t =>
          { t with
            writable := e.getLsbD 1 && t.writable
            user := e.getLsbD 2 && t.user
            executable := !e.getLsbD 63 && t.executable } := rfl

theorem walkFrom_eq_none (hd : d < 4) (h : present (entry mem p (pathIndex v d)) = false) :
    walkFrom mem v (4 - d) p = none := by
  rw [show 4 - d = (3 - d) + 1 by omega, walkFrom_succ,
    tableIndex_eq (show d + (3 - d + 1) = 4 by omega)]
  exact if_pos h

/-- The translation by a last entry. -/
def ofLeaf (e : Word) (v : Nat) : Translation where
  paddr := frame e + v % 4096
  writable := e.getLsbD 1
  user := e.getLsbD 2
  executable := !e.getLsbD 63
  leaf := e

theorem walkFrom_last :
    walkFrom mem v 1 p = if present (entry mem p (pathIndex v 3)) = false then none
      else some (ofLeaf (entry mem p (pathIndex v 3)) v) := by
  rw [show 1 = 0 + 1 from rfl, walkFrom_succ, tableIndex_eq (show 3 + (0 + 1) = 4 from rfl)]
  refine ite_congr rfl (fun _ => rfl) fun _ => ?_
  rw [if_pos (.inl rfl)]
  rfl

/-- The rights of a translation with one more entry above it. -/
def restrict (e : Word) (t : Translation) : Translation :=
  { t with
    writable := e.getLsbD 1 && t.writable
    user := e.getLsbD 2 && t.user
    executable := !e.getLsbD 63 && t.executable }

theorem walkFrom_of_child (h : child mem d p (pathIndex v d) = some q) :
    walkFrom mem v (4 - d) p =
      (walkFrom mem v (3 - d) q).map (restrict (entry mem p (pathIndex v d))) := by
  obtain ⟨-, hd, hpresent, hhuge, rfl⟩ := child_eq_some h
  rw [show 4 - d = (3 - d) + 1 by omega, walkFrom_succ,
    tableIndex_eq (show d + (3 - d + 1) = 4 by omega)]
  dsimp only
  have hnot : ¬ (3 - d = 0 ∨ 3 - d ≤ 2 ∧ huge (entry mem p (pathIndex v d)) = true) := by
    intro hor
    rcases hor with hzero | ⟨hle, hset⟩
    · omega
    · rcases hhuge with rfl | hclear
      · omega
      · rw [hset] at hclear
        cases hclear
  rw [if_neg (by rw [hpresent]; decide), if_neg hnot]
  rfl

/-- The entries above depth `d` on the path of `v` allow writes from the user. -/
def UserPath (mem : Mem) (root v d : Nat) : Prop :=
  ∀ k p, k < d → tableAt mem root v k = some p →
    (entry mem p (pathIndex v k)).getLsbD 1 = true ∧ (entry mem p (pathIndex v k)).getLsbD 2 = true

/-- The walk from the table at depth `d`, which the entries above can only restrict. -/
theorem walkFrom_of_tableAt : ∀ {d p : Nat}, tableAt mem root v d = some p →
    ∃ f : Translation → Translation,
      walkFrom mem v 4 root = (walkFrom mem v (4 - d) p).map f ∧
        ∀ t, (f t).paddr = t.paddr ∧ (f t).leaf = t.leaf ∧
          (UserPath mem root v d → (f t).writable = t.writable ∧ (f t).user = t.user) := by
  intro d
  induction d with
  | zero =>
    intro p h
    obtain rfl : root = p := Option.some.inj h
    exact ⟨id, by rw [Option.map_id]; rfl, fun _ => ⟨rfl, rfl, fun _ => ⟨rfl, rfl⟩⟩⟩
  | succ d ih =>
    intro q h
    obtain ⟨p, hp, hchild⟩ := tableAt_succ_eq_some h
    obtain ⟨f, hwalk, hf⟩ := ih hp
    refine ⟨f ∘ restrict (entry mem p (pathIndex v d)), ?_, fun t => ?_⟩
    · rw [hwalk, walkFrom_of_child hchild, Option.map_map, show 4 - (d + 1) = 3 - d by omega]
    · obtain ⟨hpaddr, hleaf, hrights⟩ := hf (restrict (entry mem p (pathIndex v d)) t)
      refine ⟨hpaddr, hleaf, fun huser => ?_⟩
      obtain ⟨hw, hu⟩ := hrights fun k x hk => huser k x (by omega)
      obtain ⟨hbit1, hbit2⟩ := huser d p (Nat.lt_succ_self d) hp
      refine ⟨hw.trans ?_, hu.trans ?_⟩
      · unfold restrict
        rw [hbit1, Bool.true_and]
      · unfold restrict
        rw [hbit2, Bool.true_and]

/-- An address whose path ends at an entry that is not present. -/
theorem translate_eq_none (h : tableAt mem root v d = some p)
    (hempty : present (entry mem p (pathIndex v d)) = false) : walkFrom mem v 4 root = none := by
  obtain ⟨f, hwalk, -⟩ := walkFrom_of_tableAt h
  have hd := tableAt_le h
  rw [hwalk, walkFrom_eq_none (by omega) hempty]
  rfl

/-- An address with a last table and a present entry there. -/
theorem translate_eq (h : tableAt mem root v 3 = some p)
    (hpresent : present (entry mem p (pathIndex v 3)) = true) :
    ∃ t, walkFrom mem v 4 root = some t ∧ t.leaf = entry mem p (pathIndex v 3) ∧
      t.paddr = frame (entry mem p (pathIndex v 3)) + v % 4096 ∧
      (UserPath mem root v 3 → t.writable = (entry mem p (pathIndex v 3)).getLsbD 1 ∧
        t.user = (entry mem p (pathIndex v 3)).getLsbD 2) := by
  obtain ⟨f, hwalk, hf⟩ := walkFrom_of_tableAt h
  have hlast : walkFrom mem v (4 - 3) p = some (ofLeaf (entry mem p (pathIndex v 3)) v) :=
    walkFrom_last.trans (if_neg (by rw [hpresent]; decide))
  rw [hlast] at hwalk
  obtain ⟨hpaddr, hleaf, hrights⟩ := hf _
  exact ⟨_, hwalk, hleaf, hpaddr, hrights⟩

/-! ## The addresses of one page -/

theorem tableIndex_mod (v : Nat) {lvl : Nat} (hlo : 1 ≤ lvl) (hhi : lvl ≤ 4) :
    tableIndex (v % 2 ^ 48) lvl = tableIndex v lvl := by
  unfold tableIndex
  interval_cases lvl
  all_goals
    norm_num
    omega

/-- The processor translates 48 bits. -/
theorem walkFrom_mod (mem : Mem) (v : Nat) : ∀ {n : Nat}, n ≤ 4 → ∀ table,
    walkFrom mem (v % 2 ^ 48) n table = walkFrom mem v n table := by
  intro n
  induction n with
  | zero => exact fun _ _ => rfl
  | succ n ih =>
    intro hn table
    have hoffset : v % 2 ^ 48 % 2 ^ (12 + 9 * n) = v % 2 ^ (12 + 9 * n) :=
      Nat.mod_mod_of_dvd v (pow_dvd_pow 2 (by omega))
    rw [walkFrom_succ, walkFrom_succ, tableIndex_mod v (by omega) hn]
    dsimp only
    rw [hoffset, ih (by omega)]

/-- The addresses of a page are translated alike. -/
theorem walkFrom_page (mem : Mem) (v : Nat) : ∀ {n : Nat}, n ≤ 4 → ∀ table,
    walkFrom mem v n table = (walkFrom mem (v / 4096 * 4096) n table).map fun x =>
      { x with paddr := x.paddr + v % 4096 } := by
  intro n
  induction n with
  | zero => exact fun _ _ => rfl
  | succ n ih =>
    intro hn table
    have hindex : tableIndex (v / 4096 * 4096) (n + 1) = tableIndex v (n + 1) := by
      have hlt : n < 4 := hn
      unfold tableIndex
      interval_cases n <;> omega
    have hoffset : v % 2 ^ (12 + 9 * n) =
        v / 4096 * 4096 % 2 ^ (12 + 9 * n) + v % 4096 := by
      rw [pow_add, show (2 : Nat) ^ 12 = 4096 from rfl, Nat.mod_mul, Nat.mul_comm (v / 4096),
        Nat.mul_mod_mul_left, Nat.add_comm]
    rw [walkFrom_succ, walkFrom_succ, hindex]
    dsimp only
    rw [ih (by omega), hoffset]
    split
    · rfl
    · split
      · rw [Option.map_some, Nat.add_assoc]
      · rw [Option.map_map, Option.map_map]
        rfl

/-- The translation of an address, by the one of its page. -/
theorem translate_page (mem : Mem) (cr3 : Word) (v : Nat) :
    translate mem cr3 v = (translate mem cr3 (pageNumber v * 4096)).map fun x =>
      { x with paddr := x.paddr + v % 4096 } := by
  have hmod : v % 2 ^ 48 % 4096 = v % 4096 := by omega
  unfold translate
  rw [← walkFrom_mod mem v (Nat.le_refl 4), walkFrom_page mem _ (Nat.le_refl 4), hmod]
  rfl

/-- The offset in the page is kept. -/
theorem walkFrom_offset (mem : Mem) (v : Nat) {n : Nat} (hn : n ≤ 4) {table : Nat}
    {t : Translation} (h : walkFrom mem v n table = some t) : t.paddr % 4096 = v % 4096 := by
  induction n generalizing table t with
  | zero => cases h
  | succ n ih =>
    rw [walkFrom_succ] at h
    dsimp only at h
    split at h
    · cases h
    · split at h
      · cases h
        dsimp only
        rw [pow_add, show (2 : Nat) ^ 12 = 4096 from rfl, Nat.mul_left_comm, Nat.mul_add_mod,
          Nat.mod_mul_right_mod]
      · obtain ⟨t', ht', rfl⟩ := Option.map_eq_some_iff.mp h
        have hoffset := ih (by omega) ht'
        exact hoffset

/-! ## What a translation depends on -/

/-- The memories agree on the first `n` entries of the path of `v`. -/
def AgreeOn (mem mem' : Mem) (root v n : Nat) : Prop :=
  ∀ d p, d < n → tableAt mem root v d = some p →
    entry mem' p (pathIndex v d) = entry mem p (pathIndex v d)

theorem child_congr (h : entry mem' p i = entry mem p i) : child mem' d p i = child mem d p i := by
  unfold child
  rw [h]

theorem tableAt_congr {n : Nat} (h : AgreeOn mem mem' root v n) : ∀ {d : Nat}, d ≤ n →
    tableAt mem' root v d = tableAt mem root v d := by
  intro d
  induction d with
  | zero =>
    intro _
    rw [tableAt_zero, tableAt_zero]
  | succ d ih =>
    intro hd
    rw [tableAt_succ, tableAt_succ, ih (by omega)]
    cases hp : tableAt mem root v d with
    | none => rw [Option.bind_none, Option.bind_none]
    | some p =>
      rw [Option.bind_some, Option.bind_some]
      exact child_congr (h d p hd hp)

/-- One entry of two walks: equal entries, and equal walks from the next table. -/
theorem walkFrom_step_congr {n : Nat} (hd : d + (n + 1) = 4) (hp : tableAt mem root v d = some p)
    (hentry : entry mem' q (pathIndex v d) = entry mem p (pathIndex v d))
    (hnext : ∀ x, tableAt mem root v (d + 1) = some x → walkFrom mem' v n x = walkFrom mem v n x) :
    walkFrom mem' v (n + 1) q = walkFrom mem v (n + 1) p := by
  rw [walkFrom_succ, walkFrom_succ, tableIndex_eq hd, hentry]
  dsimp only
  refine ite_congr rfl (fun _ => rfl) fun hpresent => ite_congr rfl (fun _ => rfl) fun hgo => ?_
  rw [Bool.not_eq_false] at hpresent
  rw [not_or, not_and, Bool.not_eq_true] at hgo
  have hchild : child mem d p (pathIndex v d) = some (frame (entry mem p (pathIndex v d))) := by
    apply child_of_present (by omega) hpresent
    by_cases hzero : d = 0
    · exact .inl hzero
    · exact .inr (hgo.2 (by omega))
  have htable : tableAt mem root v (d + 1) = some (frame (entry mem p (pathIndex v d))) := by
    rw [tableAt_succ, hp]
    exact hchild
  rw [hnext _ htable]

/-- The walk from a table on the path, by the number of entries that are left. -/
theorem walkFrom_congr_at (h : AgreeOn mem mem' root v 4) : ∀ {n d p : Nat}, d + n = 4 →
    tableAt mem root v d = some p → walkFrom mem' v n p = walkFrom mem v n p := by
  intro n
  induction n with
  | zero => exact fun _ _ => rfl
  | succ n ih =>
    intro d p hd hp
    exact walkFrom_step_congr hd hp (h d p (by omega) hp) fun x hx => ih (by omega) hx

theorem walkFrom_congr (h : AgreeOn mem mem' root v 4) :
    walkFrom mem' v 4 root = walkFrom mem v 4 root :=
  walkFrom_congr_at h (show 0 + 4 = 4 from rfl) rfl

/-! ## Trees without shared tables -/

/-- No table of the tree at `root` is the target of two entries. -/
abbrev UnsharedTables (mem : Mem) (root : Nat) : Prop := Unshared (child mem) root

/-- Two addresses that lead to one table have the same indices up to there. -/
theorem tableAt_unique (h : UnsharedTables mem root) {d' : Nat}
    (hp : tableAt mem root v d = some p) (hp' : tableAt mem root v' d' = some p) :
    d = d' ∧ ∀ k, k < d → pathIndex v k = pathIndex v' k := by
  have hpath := h.walk_injective hp hp'
  obtain rfl : d = d' := by
    have hlen := congrArg List.length hpath
    rwa [length_indices, length_indices] at hlen
  exact ⟨rfl, indices_eq_iff.mp hpath⟩

/-- A write to an entry is seen by the addresses with that entry on their path. -/
theorem agreeOn_write (hroot : root % 4096 = 0) {n : Nat} {e : Word} (hp : p % 4096 = 0)
    (hi : i < 512) (hother : ∀ k, k < n → tableAt mem root v k = some p → pathIndex v k ≠ i) :
    AgreeOn mem (write64 mem (p + 8 * i) e) root v n := by
  intro k q hk hq
  rw [entry_write64 hp (tableAt_aligned hroot hq) hi (pathIndex_lt v k)]
  refine if_neg fun hsame => ?_
  rcases hsame with ⟨rfl, hindex⟩
  exact hother k hk hq hindex

/-- A write to the entry of `v` at depth `d` leaves the way there alone. -/
theorem tableAt_write (h : UnsharedTables mem root) (hroot : root % 4096 = 0) {e : Word}
    (hp : tableAt mem root v d = some p) {k : Nat} (hk : k ≤ d) :
    tableAt (write64 mem (p + 8 * pathIndex v d) e) root v k = tableAt mem root v k := by
  refine tableAt_congr (agreeOn_write hroot (tableAt_aligned hroot hp) (pathIndex_lt v d) ?_) hk
  intro j hj hq _
  obtain ⟨hdepth, -⟩ := tableAt_unique h hp hq
  omega

/-- A write to the last entry of `v` changes the translations of its page only. -/
theorem translate_write (h : UnsharedTables mem root) (hroot : root % 4096 = 0) {e : Word}
    (hp : tableAt mem root v 3 = some p) (hpage : pageNumber v' ≠ pageNumber v) :
    walkFrom (write64 mem (p + 8 * pathIndex v 3) e) v' 4 root = walkFrom mem v' 4 root := by
  refine walkFrom_congr (agreeOn_write hroot (tableAt_aligned hroot hp) (pathIndex_lt v 3) ?_)
  intro k _ hq hindex
  obtain ⟨hdepth, hsame⟩ := tableAt_unique h hp hq
  obtain rfl : 3 = k := hdepth
  refine hpage (pageNumber_eq_iff.mpr fun j hj => ?_)
  by_cases hj3 : j = 3
  · rw [hj3, hindex]
  · exact (hsame j (by omega)).symm

/-- The addresses of one page have one path. -/
theorem tableAt_of_page (h : pageNumber v' = pageNumber v) (hd : d ≤ 4) :
    tableAt mem root v' d = tableAt mem root v d := by
  unfold tableAt
  rw [indices_eq_iff.mpr fun k hk => pageNumber_eq_iff.mp h k (by omega)]

/-- The page of a last entry that was written. -/
theorem translate_write_self (h : UnsharedTables mem root) (hroot : root % 4096 = 0) {e : Word}
    (hp : tableAt mem root v 3 = some p) (hpresent : present e = true)
    (hpage : pageNumber v' = pageNumber v) :
    ∃ t, walkFrom (write64 mem (p + 8 * pathIndex v 3) e) v' 4 root = some t ∧ t.leaf = e ∧
      t.paddr = frame e + v' % 4096 ∧
      (UserPath mem root v 3 → t.writable = e.getLsbD 1 ∧ t.user = e.getLsbD 2) := by
  have hlt := pathIndex_lt v 3
  have hpmod := tableAt_aligned hroot hp
  have hentry : entry (write64 mem (p + 8 * pathIndex v 3) e) p (pathIndex v' 3) = e := by
    rw [pageNumber_eq_iff.mp hpage 3 (by omega), entry_write64 hpmod hpmod hlt hlt,
      if_pos ⟨rfl, rfl⟩]
  have hsame : ∀ k, k ≤ 3 → tableAt (write64 mem (p + 8 * pathIndex v 3) e) root v' k =
      tableAt mem root v k := by
    intro k hk
    rw [tableAt_of_page hpage (by omega), tableAt_write h hroot hp hk]
  obtain ⟨t, ht, hleaf, hpaddr, hrights⟩ :=
    translate_eq ((hsame 3 (Nat.le_refl 3)).trans hp) (by rw [hentry]; exact hpresent)
  rw [hentry] at hleaf hpaddr hrights
  refine ⟨t, ht, hleaf, hpaddr, fun huser => hrights fun k q hk hq => ?_⟩
  have hq' : tableAt mem root v k = some q := (hsame k (by omega)).symm.trans hq
  rw [pageNumber_eq_iff.mp hpage k (by omega),
    entry_write64 hpmod (tableAt_aligned hroot hq') hlt (pathIndex_lt v k), if_neg fun heq => ?_]
  · exact huser k q hk hq'
  · obtain ⟨hdepth, -⟩ := tableAt_unique h hp (heq.1 ▸ hq')
    omega

/-! ## Changes apart from the tables -/

/-- The memories have the same entries in the tables of the tree at `root`. -/
def SameTables (mem mem' : Mem) (root : Nat) : Prop :=
  ∀ path p, walk (child mem) root path = some p → ∀ i, i < 512 → entry mem' p i = entry mem p i

theorem SameTables.walk (h : SameTables mem mem' root) (path : List Nat) :
    walk (child mem') root path = walk (child mem) root path := by
  refine walk_congr fun pre i post p _ hp => ?_
  unfold child
  by_cases hi : i < 512
  · rw [h pre p hp i hi]
  · rw [if_neg fun hcond => hi hcond.1, if_neg fun hcond => hi hcond.1]

theorem SameTables.tableAt (h : SameTables mem mem' root) (v d : Nat) :
    tableAt mem' root v d = tableAt mem root v d := h.walk (indices v d)

theorem SameTables.agreeOn (h : SameTables mem mem' root) (v n : Nat) :
    AgreeOn mem mem' root v n :=
  fun d p _ hp => h (indices v d) p hp _ (pathIndex_lt v d)

theorem SameTables.unshared (h : SameTables mem mem' root) (hunshared : UnsharedTables mem root) :
    UnsharedTables mem' root where
  root i path := by
    rw [h.walk]
    exact hunshared.root i path
  entry i i' path path' q := by
    rw [h.walk, h.walk, h.walk, h.walk]
    exact hunshared.entry i i' path path' q

variable {P : PoolRegion} {bitset : List Word}

/-- The bytes of a page. -/
def InPage (q a : Nat) : Prop := q ≤ a ∧ a < q + 4096

/-- Different pages have no common byte. -/
theorem not_inPage {x a : Nat} (hq : q % 4096 = 0) (hx : x % 4096 = 0) (hne : x ≠ q)
    (h : InPage x a) : ¬ InPage q a := by
  unfold InPage at *
  omega

/-- The tables that are pages of the pool are allocated. -/
def TablesInUse (P : PoolRegion) (bitset : List Word) (mem : Mem) (root : Nat) : Prop :=
  ∀ path p, walk (child mem) root path = some p → P.IsPage p → P.allocated bitset p = true

/-- An aligned page that is not a free page of the pool has no free byte. -/
theorem PoolRegion.not_free (hp : p % 4096 = 0)
    (h : P.IsPage p → P.allocated bitset p = true) {a : Nat} (hlo : p ≤ a) (hhi : a < p + 4096) :
    ¬ P.Free bitset a := by
  intro hfree
  obtain ⟨q, hq, hclear, hqlo, hqhi⟩ := hfree
  have hqmod := hq.aligned
  obtain rfl : p = q := by omega
  rw [h hq] at hclear
  cases hclear

/-- What the free pages hold does not show in the tables. -/
theorem TablesInUse.sameTables (h : TablesInUse P bitset mem root) (hroot : root % 4096 = 0)
    (hmem : ∀ a, ¬ P.Free bitset a → mem' a = mem a) : SameTables mem mem' root := by
  intro path p hp i hi
  refine entry_congr (fun a hlo hhi => hmem a ?_) hi
  exact PoolRegion.not_free (walk_aligned hroot hp) (h path p hp) hlo hhi

/-! ## A page that leads back to itself -/

/-- The page `q` holds the word `e` in every entry. -/
def loopPage (mem : Mem) (q : Nat) (e : Word) : Mem := fun x =>
  if q ≤ x ∧ x < q + 4096 then e.extractLsb' (8 * ((x - q) % 8)) 8 else mem x

theorem loopPage_apply_of_outside {e : Word} {x : Nat} (h : x < q ∨ q + 4096 ≤ x) :
    loopPage mem q e x = mem x :=
  if_neg (by omega)

theorem entry_loopPage {e : Word} (hi : i < 512) : entry (loopPage mem q e) q i = e := by
  refine readBytes_ext fun k hk => ?_
  have hoff : (q + 8 * i + k - q) % 8 = k := by omega
  unfold loopPage
  rw [if_pos (by omega), hoff]

/-- When an entry on the way of `v` leads to a page that leads back to itself, but for the
entry `j`, addresses that share this way are mapped. -/
theorem exists_translate_of_loop (hd : d < 3) (hp : tableAt mem root v d = some p)
    (hlink : Links (entry mem p (pathIndex v d)) q) {j : Nat}
    (hloop : ∀ i, i < 512 → i ≠ j → Links (entry mem q i) q) :
    ∃ v', v' < 2 ^ 48 ∧ (∀ k, k ≤ d → pathIndex v' k = pathIndex v k) ∧ pathIndex v' 3 ≠ j ∧
      ∃ t, walkFrom mem v' 4 root = some t := by
  obtain ⟨c, hc, hcj⟩ : ∃ c, c < 512 ∧ c ≠ j := by
    by_cases hj : j = 0
    · exact ⟨1, by omega, by omega⟩
    · exact ⟨0, by omega, fun h => hj h.symm⟩
  obtain ⟨v', hv', hindex⟩ := exists_address (fun k => if k ≤ d then pathIndex v k else c)
    fun k => by
      split
      · exact pathIndex_lt v k
      · exact hc
  have hshared : ∀ k, k ≤ d → pathIndex v' k = pathIndex v k := fun k hk =>
    (hindex k (by omega)).trans (if_pos hk)
  have hrest : ∀ k, d < k → k < 4 → pathIndex v' k = c := fun k hk hk4 =>
    (hindex k hk4).trans (if_neg (by omega))
  have htable : tableAt mem root v' d = some p := by
    have hsame : indices v' d = indices v d := indices_eq_iff.mpr fun k hk => hshared k (by omega)
    unfold tableAt
    rw [hsame]
    exact hp
  have hafter : ∀ k, d < k → k ≤ 3 → tableAt mem root v' k = some q := by
    intro k
    induction k with
    | zero => exact fun h => absurd h (Nat.not_lt_zero d)
    | succ k ih =>
      intro hdk hk
      by_cases hkd : k = d
      · subst hkd
        rw [← hshared k (Nat.le_refl k)] at hlink
        rw [tableAt_succ, htable, Option.bind_some,
          child_of_present hd hlink.present (.inr hlink.huge), hlink.frame]
      · have hlinks := hloop (pathIndex v' k) (pathIndex_lt v' k)
          (by rw [hrest k (by omega) (by omega)]; exact hcj)
        rw [tableAt_succ, ih (by omega) (by omega), Option.bind_some,
          child_of_present (by omega) hlinks.present (.inr hlinks.huge), hlinks.frame]
  have hlast : pathIndex v' 3 ≠ j := by
    rw [hrest 3 hd (by omega)]
    exact hcj
  obtain ⟨t, ht, -⟩ := translate_eq (hafter 3 hd (Nat.le_refl 3))
    (hloop _ (pathIndex_lt v' 3) hlast).present
  exact ⟨v', hv', hshared, hlast, t, ht⟩

/-- The addresses that share the way of `v` end where it ends. -/
theorem translate_eq_none_of_shared (hp : tableAt mem root v d = some p)
    (hempty : present (entry mem p (pathIndex v d)) = false)
    (hshared : ∀ k, k ≤ d → pathIndex v' k = pathIndex v k) : walkFrom mem v' 4 root = none := by
  have hsame : indices v' d = indices v d := indices_eq_iff.mpr fun k hk => hshared k (by omega)
  have htable : tableAt mem root v' d = some p := by
    unfold tableAt
    rw [hsame]
    exact hp
  exact translate_eq_none htable (by rw [hshared d (Nat.le_refl d)]; exact hempty)

/-- The addresses that are mapped when the missing table of `v` becomes the page `q`, which
leads back to itself, and its entry for `v` gets the value `e`. -/
theorem exists_translate_of_loop_write (hroot : root % 4096 = 0) (h : UnsharedTables mem root)
    (hd : d < 3) (hp : tableAt mem root v d = some p) (hq : q % 4096 = 0)
    (hnotTable : ∀ k, tableAt mem root v k ≠ some q) (hpq : p ≠ q) {link : Word}
    (hlinks : Links link q)
    (hloop : ∀ i, i < 512 → entry (write64 mem (p + 8 * pathIndex v d) link) q i = link)
    (e : Word) :
    ∃ v', v' < 2 ^ 48 ∧ (∀ k, k ≤ d → pathIndex v' k = pathIndex v k) ∧
      pathIndex v' 3 ≠ pathIndex v 3 ∧
        ∃ t, walkFrom (write64 (write64 mem (p + 8 * pathIndex v d) link)
          (q + 8 * pathIndex v 3) e) v' 4 root = some t := by
  have hlt := pathIndex_lt v
  have hpmod := tableAt_aligned hroot hp
  have hfirst : ∀ k, k ≤ d → tableAt (write64 mem (p + 8 * pathIndex v d) link) root v k =
      tableAt mem root v k := fun k hk => tableAt_write h hroot hp hk
  have hway : tableAt (write64 (write64 mem (p + 8 * pathIndex v d) link)
      (q + 8 * pathIndex v 3) e) root v d = some p := by
    refine (tableAt_congr (agreeOn_write hroot hq (hlt 3) fun k hk hk' => ?_)
      (Nat.le_refl d)).trans ((hfirst d (Nat.le_refl d)).trans hp)
    exact absurd ((hfirst k (by omega)).symm.trans hk') (hnotTable k)
  have hentry : Links (entry (write64 (write64 mem (p + 8 * pathIndex v d) link)
      (q + 8 * pathIndex v 3) e) p (pathIndex v d)) q := by
    rw [entry_write64 hq hpmod (hlt 3) (hlt d), if_neg fun heq => hpq heq.1,
      entry_write64 hpmod hpmod (hlt d) (hlt d), if_pos ⟨rfl, rfl⟩]
    exact hlinks
  refine exists_translate_of_loop hd hway hentry fun i hi hne => ?_
  rw [entry_write64 hq hq (hlt 3) hi, if_neg fun heq => hne heq.2, hloop i hi]
  exact hlinks

/-- The free page `q` leads back to itself, and the way of `v` ends in the table `p`.  If `q`
becomes the missing table, another address is mapped. -/
structure FreeLoop (P : PoolRegion) (bitset : List Word) (mem : Mem) (root v d p q : Nat)
    (link : Word) : Prop where
  outside : ∀ a, ¬ P.Free bitset a → loopPage mem q link a = mem a
  table : tableAt (loopPage mem q link) root v d = some p
  absent : present (entry (loopPage mem q link) p (pathIndex v d)) = false
  loops : ∀ i, i < 512 →
    entry (write64 (loopPage mem q link) (p + 8 * pathIndex v d) link) q i = link
  mapped : ∀ e, ∃ v', v' < 2 ^ 48 ∧ pathIndex v' 3 ≠ pathIndex v 3 ∧
    walkFrom (loopPage mem q link) v' 4 root = none ∧
      ∃ t, walkFrom (write64 (write64 (loopPage mem q link) (p + 8 * pathIndex v d) link)
        (q + 8 * pathIndex v 3) e) v' 4 root = some t

theorem TablesInUse.freeLoop (h : TablesInUse P bitset mem root) (hroot : root % 4096 = 0)
    (hunshared : UnsharedTables mem root) (hq : P.IsPage q) (hclear : P.allocated bitset q = false)
    (hd : d < 3) (hp : tableAt mem root v d = some p)
    (hempty : present (entry mem p (pathIndex v d)) = false) {link : Word}
    (hlinks : Links link q) : FreeLoop P bitset mem root v d p q link := by
  have hpmod := tableAt_aligned hroot hp
  have hqmod := hq.aligned
  have houtside : ∀ a, ¬ P.Free bitset a → loopPage mem q link a = mem a := by
    intro a ha
    apply loopPage_apply_of_outside
    by_contra hin
    exact ha ⟨q, hq, hclear, by omega, by omega⟩
  have hsame := h.sameTables hroot houtside
  have htable := (hsame.tableAt v d).trans hp
  have habsent : present (entry (loopPage mem q link) p (pathIndex v d)) = false := by
    rw [hsame.agreeOn _ 4 d p (by omega) hp]
    exact hempty
  have hnotTable : ∀ k, tableAt (loopPage mem q link) root v k ≠ some q := by
    intro k hk
    rw [hsame.tableAt] at hk
    cases hclear.symm.trans (h (indices v k) q hk hq)
  have hpq : p ≠ q := fun heq => hnotTable d (htable.trans (congrArg some heq))
  have hloop : ∀ i, i < 512 →
      entry (write64 (loopPage mem q link) (p + 8 * pathIndex v d) link) q i = link := by
    intro i hi
    rw [entry_write64 hpmod hqmod (pathIndex_lt v d) hi, if_neg fun heq => hpq heq.1.symm,
      entry_loopPage hi]
  refine ⟨houtside, htable, habsent, hloop, fun e => ?_⟩
  obtain ⟨v', hv', hshared, hlast, ht⟩ := exists_translate_of_loop_write hroot
    (hsame.unshared hunshared) hd htable hqmod hnotTable hpq hlinks hloop e
  exact ⟨v', hv', hlast, translate_eq_none_of_shared htable habsent hshared, ht⟩

/-! ## An empty tree -/

/-- From a table without entries no path leads on. -/
theorem walk_of_empty (h : ∀ i, i < 512 → entry mem root i = 0) {path : List Nat}
    (hp : walk (child mem) root path = some p) : path = [] ∧ p = root := by
  induction path generalizing p with
  | nil => exact ⟨rfl, (Option.some.inj hp).symm⟩
  | cons i path ih =>
    obtain ⟨p', hp', hchild⟩ := walk_cons_eq_some.mp hp
    obtain ⟨-, rfl⟩ := ih hp'
    obtain ⟨hi, -, hpresent, -⟩ := child_eq_some hchild
    rw [h i hi] at hpresent
    exact absurd hpresent (by decide)

theorem unshared_of_empty (h : ∀ i, i < 512 → entry mem root i = 0) : UnsharedTables mem root where
  root i path hwalk := by
    cases (walk_of_empty h hwalk).1
  entry i i' path path' q hq := by
    cases (walk_of_empty h hq).1

/-! ## A tree with one path -/

/-- A tree with the four tables `root + 4096 * k`, which have one entry each, on the path
of `v`. -/
def pathMem (root v : Nat) (leaf : Word) : Mem :=
  let link (mem : Mem) (k : Nat) : Mem :=
    write64 mem (root + 4096 * k + 8 * pathIndex v k)
      (BitVec.ofNat 64 (root + 4096 * (k + 1)) ||| 0x7)
  write64 (link (link (link (fun _ => 0) 0) 1) 2) (root + 4096 * 3 + 8 * pathIndex v 3) leaf

/-- The entry of `pathMem` in the table at depth `d`. -/
def pathEntry (root : Nat) (leaf : Word) (d : Nat) : Word :=
  if d = 3 then leaf else BitVec.ofNat 64 (root + 4096 * (d + 1)) ||| 0x7

section

variable {leaf : Word} (hroot : root % 4096 = 0)
include hroot

theorem entry_pathMem (hd : d ≤ 3) (hi : i < 512) :
    entry (pathMem root v leaf) (root + 4096 * d) i =
      if i = pathIndex v d then pathEntry root leaf d else 0 := by
  have hlt := pathIndex_lt v
  have hzero : entry (fun _ => 0) (root + 4096 * d) i = 0 := entry_zero (fun _ _ _ => rfl) hi
  unfold pathMem
  dsimp only
  rw [entry_write64 (by omega) (by omega) (hlt 3) hi,
    entry_write64 (by omega) (by omega) (hlt 2) hi, entry_write64 (by omega) (by omega) (hlt 1) hi,
    entry_write64 (by omega) (by omega) (hlt 0) hi, hzero]
  unfold pathEntry
  obtain rfl | rfl | rfl | rfl : d = 0 ∨ d = 1 ∨ d = 2 ∨ d = 3 := by omega
  all_goals simp

variable (hmax : root + 0x4000 ≤ 2 ^ 51)
include hmax

theorem links_pathEntry (hd : d < 3) : Links (pathEntry root leaf d) (root + 4096 * (d + 1)) := by
  unfold pathEntry
  rw [if_neg (show ¬ d = 3 by omega)]
  exact links_or (by omega) (by omega) (by decide) (by decide) (by decide)

theorem tableAt_pathMem : ∀ {d : Nat}, d ≤ 3 →
    tableAt (pathMem root v leaf) root v d = some (root + 4096 * d) := by
  intro d
  induction d with
  | zero => exact fun _ => rfl
  | succ d ih =>
    intro hd
    have hlinks : Links (pathEntry root leaf d) (root + 4096 * (d + 1)) :=
      links_pathEntry hroot hmax (by omega)
    have hentry : entry (pathMem root v leaf) (root + 4096 * d) (pathIndex v d) = _ :=
      entry_pathMem hroot (by omega)
      (pathIndex_lt v d)
    rw [if_pos rfl] at hentry
    rw [tableAt_succ, ih (by omega), Option.bind_some, child_of_present (by omega)
      (by rw [hentry]; exact hlinks.present) (.inr (by rw [hentry]; exact hlinks.huge)), hentry,
      hlinks.frame]

/-- No other path leads to a table. -/
theorem walk_pathMem : ∀ {path : List Nat} {q : Nat},
    walk (child (pathMem root v leaf)) root path = some q →
      path = indices v path.length ∧ q = root + 4096 * path.length := by
  intro path
  induction path with
  | nil =>
    intro q hq
    obtain rfl : root = q := Option.some.inj hq
    exact ⟨rfl, rfl⟩
  | cons i path ih =>
    intro q hq
    obtain ⟨p, hp, hchild⟩ := walk_cons_eq_some.mp hq
    obtain ⟨hpath, rfl⟩ := ih hp
    obtain ⟨hi, hd, hpresent, -, rfl⟩ := child_eq_some hchild
    rw [entry_pathMem hroot (by omega) hi] at hpresent ⊢
    split at hpresent
    · next hindex =>
      refine ⟨?_, ?_⟩
      · rw [List.length_cons, indices, ← hpath, hindex]
      · rw [if_pos hindex]
        exact (links_pathEntry hroot hmax hd).frame
    · exact absurd hpresent (by decide)

theorem unshared_pathMem : UnsharedTables (pathMem root v leaf) root where
  root := by
    intro i path hwalk
    have hroot' := (walk_pathMem hroot hmax hwalk).2
    rw [List.length_cons] at hroot'
    omega
  entry := by
    intro i i' path path' q hq hq'
    obtain ⟨hpath, hlen⟩ := walk_pathMem hroot hmax hq
    obtain ⟨hpath', hlen'⟩ := walk_pathMem hroot hmax hq'
    have heq : (i :: path).length = (i' :: path').length := by omega
    rw [heq, ← hpath'] at hpath
    obtain ⟨rfl, rfl⟩ := List.cons.inj hpath
    exact ⟨rfl, rfl⟩

end

end KernelMemVirt.Rackdoll
