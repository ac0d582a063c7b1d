import KernelMemVirt.Gc.PageDesc

/-!
# Resolving interior pointers

`DescInv` says that `heap_desc` describes the mapped zones and nothing else.
`hash_zone` keeps it when a zone is mapped and when one is unmapped.

From it, `toHeader` is computed exactly.  `resolve_iff` is the general case:
the header of an element is found if and only if the element size divides the
upper half of the zone address and the page numbers do not wrap.  For zones in
the first 4 GiB both hold, and `toHeader_low` is what is left.
-/

namespace KernelMemVirt.Gc

open ByteMem

/-- The range of `len` bytes at `h` shares no page number with a mapped zone. -/
def LowFresh (zone : Nat → Nat) (h len : Nat) : Prop :=
  ∀ b k k', 4096 * k < len → 4096 * k' < zone b → pageOf (h + 4096 * k) ≠ pageOf (b + 4096 * k')

/-- The table describes the zones; the zone at `b` has `zone b` bytes and holds
elements of `elmt b` bytes. -/
structure DescInv (desc : Nat → Word) (zone elmt : Nat → Nat) : Prop where
  elmt_bound : ∀ b, 0 < zone b → 0 < elmt b ∧ elmt b < 2 ^ 31
  zone_bound : ∀ b, 0 < zone b → b % 4096 = 0 ∧ zone b % 4096 = 0 ∧ zone b < 2 ^ 32 ∧
    b + zone b < 2 ^ 63
  page_sep : ∀ b b' k k', b ≠ b' → 4096 * k < zone b → 4096 * k' < zone b' →
    pageOf (b + 4096 * k) ≠ pageOf (b' + 4096 * k')
  page : ∀ b k, 4096 * k < zone b →
    desc (pageOf (b + 4096 * k)) = (pageEntry (BitVec.ofNat 32 (elmt b)) (-1) k).signExtend 64
  noPage : ∀ i, (∀ b k, 4096 * k < zone b → pageOf (b + 4096 * k) ≠ i) → desc i = 0

theorem descInv_init : DescInv (fun _ => 0) (fun _ => 0) (fun _ => 0) where
  elmt_bound := by simp
  zone_bound := by simp
  page_sep := by simp
  page := by simp
  noPage := by simp

namespace DescInv

variable {desc : Nat → Word} {zone elmt : Nat → Nat}

/-- A new zone enters the table. -/
theorem openZone (hd : DescInv desc zone elmt) {h : Nat} {size e : Int32}
    (hpage : h % 4096 = 0) (hsize : size.toNat % 4096 = 0) (hpos : 0 < size.toNat)
    (hend : h + size.toNat < 2 ^ 63) (he : 0 < e.toNat) (he' : e.toNat < 2 ^ 31)
    (hzone : zone h = 0) (hfresh : LowFresh zone h size.toNat) :
    DescInv (hashZone desc h size e (-1)) (Function.update zone h size.toNat)
      (Function.update elmt h e.toNat) := by
  have hlt := size.isLt
  refine ⟨?_, ?_, ?_, ?_, ?_⟩
  · intro b hb
    by_cases hbh : b = h
    · subst hbh
      rw [Function.update_self]
      exact ⟨he, he'⟩
    · rw [Function.update_of_ne hbh] at hb ⊢
      exact hd.elmt_bound b hb
  · intro b hb
    by_cases hbh : b = h
    · subst hbh
      rw [Function.update_self]
      exact ⟨hpage, hsize, hlt, hend⟩
    · rw [Function.update_of_ne hbh] at hb ⊢
      exact hd.zone_bound b hb
  · intro b b' k k' hne hk hk'
    by_cases hbh : b = h
    · subst hbh
      rw [Function.update_self] at hk
      rw [Function.update_of_ne hne.symm] at hk'
      exact hfresh b' k k' hk hk'
    · rw [Function.update_of_ne hbh] at hk
      by_cases hbh' : b' = h
      · subst hbh'
        rw [Function.update_self] at hk'
        exact (hfresh b k' k hk' hk).symm
      · rw [Function.update_of_ne hbh'] at hk'
        exact hd.page_sep b b' k k' hne hk hk'
  · intro b k hk
    by_cases hbh : b = h
    · subst hbh
      rw [Function.update_self] at hk
      rw [Function.update_self, hashZone_page hsize (by omega) hk, BitVec.ofNat_toNat,
        BitVec.setWidth_eq]
    · rw [Function.update_of_ne hbh] at hk ⊢
      rw [hashZone_other (by omega) hpos fun k' hk' => hfresh b k' k hk' hk]
      exact hd.page b k hk
  · intro i hi
    have hnew : ∀ k, 4096 * k < size.toNat → pageOf (h + 4096 * k) ≠ i := by
      intro k hk
      exact hi h k (by rwa [Function.update_self])
    rw [hashZone_other (by omega) hpos hnew]
    refine hd.noPage i fun b k hk => hi b k ?_
    have hbh : b ≠ h := by
      intro heq
      subst heq
      omega
    rwa [Function.update_of_ne hbh]

/-- A zone leaves the table. -/
theorem closeZone (hd : DescInv desc zone elmt) {h : Nat} {size : Int32}
    (hzone : zone h = size.toNat) (hpos : 0 < size.toNat) :
    DescInv (hashZone desc h size 0 0) (Function.update zone h 0) elmt := by
  obtain ⟨-, hpages, -, hend⟩ := hd.zone_bound h (by omega)
  have hsub : ∀ b k, 4096 * k < Function.update zone h 0 b → b ≠ h ∧ 4096 * k < zone b := by
    intro b k hk
    by_cases hbh : b = h
    · subst hbh
      simp at hk
    · rw [Function.update_of_ne hbh] at hk
      exact ⟨hbh, hk⟩
  refine ⟨?_, ?_, ?_, ?_, ?_⟩
  · exact fun b hb => hd.elmt_bound b (by have := hsub b 0 (by omega); omega)
  · intro b hb
    obtain ⟨hbh, hold⟩ := hsub b 0 (by omega)
    rw [Function.update_of_ne hbh]
    exact hd.zone_bound b (by omega)
  · exact fun b b' k k' hne hk hk' => hd.page_sep b b' k k' hne (hsub b k hk).2 (hsub b' k' hk').2
  · intro b k hk
    obtain ⟨hbh, hold⟩ := hsub b k hk
    rw [hashZone_other (by omega) hpos fun k' hk' =>
      hd.page_sep h b k' k hbh.symm (by omega) hold]
    exact hd.page b k hold
  · intro i hi
    by_cases hin : ∃ k, 4096 * k < size.toNat ∧ pageOf (h + 4096 * k) = i
    · rcases hin with ⟨k, hk, rfl⟩
      rw [hashZone_page (by omega) (by omega) hk]
      unfold pageEntry
      split
      · rfl
      · exact congrArg (BitVec.signExtend 64) BitVec.zero_mul
    · have hother : ∀ k, 4096 * k < size.toNat → pageOf (h + 4096 * k) ≠ i :=
        fun k hk heq => hin ⟨k, hk, heq⟩
      rw [hashZone_other (by omega) hpos hother]
      refine hd.noPage i fun b k hk => ?_
      by_cases hbh : b = h
      · subst hbh
        exact hother k (by omega)
      · exact hi b k (by rwa [Function.update_of_ne hbh])

variable {s : Heap}

/-- From a page number of a zone, the table leads to the first page. -/
theorem zoneOf (hd : DescInv s.desc zone elmt) {b k p : Nat} (hp : p < 2 ^ 64)
    (hk : 4096 * k < zone b) (hpage : pageOf (b + 4096 * k) = pageOf p) :
    s.zoneOf p =
      if pageOf b + k < 2 ^ 20 then
        .ok (some (BitVec.ofNat 64 (pageOf b), BitVec.ofNat 64 (elmt b)))
      else .error .outOfBounds := by
  obtain ⟨hbase, -, hmax, -⟩ := hd.zone_bound b (by omega)
  obtain ⟨he, he'⟩ := hd.elmt_bound b (by omega)
  refine zoneOf_page hp he he' (by omega) ?_ ?_ ?_
  · rw [← hpage, pageOf_add _ hbase]
  · exact hd.page b 0 (by omega)
  · rw [← hpage]
    exact hd.page b k hk

/-- A page number of no zone leads nowhere. -/
theorem zoneOf_noPage (hd : DescInv s.desc zone elmt) {p : Nat} (hp : p < 2 ^ 64)
    (hno : ∀ b k, 4096 * k < zone b → pageOf (b + 4096 * k) ≠ pageOf p) :
    s.zoneOf p = .ok none := by
  unfold Heap.zoneOf
  dsimp only
  rw [pageNumber_toNat hp, hd.noPage _ hno]
  rfl

/-- In a zone, `toHeader` divides by the element size of the zone. -/
theorem toHeader (hd : DescInv s.desc zone elmt) {b p : Nat} (hlo : b ≤ p)
    (hhi : p < b + zone b) :
    s.toHeader p =
      if pageOf b + (p - b) / 4096 < 2 ^ 20 then
        .ok (s.headerIn (BitVec.ofNat 64 (pageOf b)) (BitVec.ofNat 64 (elmt b))
          (BitVec.ofNat 64 p))
      else .error .outOfBounds := by
  obtain ⟨hpage, -, -, hend⟩ := hd.zone_bound b (by omega)
  have hsame : pageOf (b + 4096 * ((p - b) / 4096)) = pageOf p := by
    unfold pageOf
    omega
  rw [toHeader_eq_zoneOf, hd.zoneOf (by omega) (by omega) hsame]
  split <;> rfl

/-- A pointer into no zone is not an object. -/
theorem toHeader_noPage (hd : DescInv s.desc zone elmt) {p : Nat} (hp : p < 2 ^ 64)
    (hno : ∀ b k, 4096 * k < zone b → pageOf (b + 4096 * k) ≠ pageOf p) :
    s.toHeader p = .ok 0 := by
  rw [toHeader_eq_zoneOf, hd.zoneOf_noPage hp hno]
  rfl

/-- The header of an element is found if and only if the element size divides the
upper half of the zone address and the page numbers do not wrap. -/
theorem resolve_iff (hd : DescInv s.desc zone elmt) {b i h n p : Nat}
    (hh : h = b + i * elmt b) (hin : h + elmt b ≤ b + zone b) (hn : 4 + n ≤ elmt b)
    (hheader : (read32 s.mem h).toNat = n) (hlo : h + 4 ≤ p) (hhi : p < h + 4 + n) :
    s.toHeader p = .ok h ↔
      elmt b ∣ b - b % 2 ^ 32 ∧ pageOf b + (p - b) / 4096 < 2 ^ 20 := by
  obtain ⟨hpage, -, -, hend⟩ := hd.zone_bound b (by omega)
  obtain ⟨he, he'⟩ := hd.elmt_bound b (by omega)
  have hsplit : p - b % 2 ^ 32 = (b - b % 2 ^ 32) + (i * elmt b + (p - h)) := by omega
  rw [hd.toHeader (show b ≤ p by omega) (by omega)]
  by_cases hwrap : pageOf b + (p - b) / 4096 < 2 ^ 20
  · rw [if_pos hwrap, headerIn_eq s hpage (by omega) (by omega) he he', and_iff_left hwrap,
      Except.ok.injEq]
    dsimp only
    constructor
    · intro hfound
      split at hfound
      · apply (Nat.dvd_add_left (Nat.dvd_mul_left (elmt b) i)).mp
        exact ⟨(p - b % 2 ^ 32) / elmt b, by omega⟩
      · have hb : b = 0 := by omega
        simp [hb]
    · intro hex
      rcases hex with ⟨q, hq⟩
      have hdiv : (p - b % 2 ^ 32) / elmt b = q + i := by
        rw [hsplit, hq, Nat.mul_comm i, Nat.mul_add_div he, Nat.mul_add_div he,
          Nat.div_eq_of_lt (by omega), Nat.add_zero]
      have hbase : b % 2 ^ 32 + elmt b * (q + i) = h := by
        rw [Nat.mul_add, ← hq, hh, Nat.mul_comm i]
        omega
      rw [hdiv, hbase, hheader, if_pos ⟨hlo, hhi⟩]
  · rw [if_neg hwrap]
    exact ⟨fun hfound => (nomatch hfound), fun hboth => absurd hboth.2 hwrap⟩

/-- In a zone of the first 4 GiB. -/
theorem toHeader_low (hd : DescInv s.desc zone elmt) {b i h p : Nat} (hlow : b + zone b ≤ 2 ^ 32)
    (hh : h = b + i * elmt b) (hlo : h + 4 ≤ p) (hhi : p < h + elmt b)
    (hin : h + elmt b ≤ b + zone b) :
    s.toHeader p = .ok (if p < h + 4 + (read32 s.mem h).toNat then h else 0) := by
  obtain ⟨hpage, -, -, hend⟩ := hd.zone_bound b (by omega)
  obtain ⟨he, he'⟩ := hd.elmt_bound b (by omega)
  have hbase : b % 2 ^ 32 = b := by omega
  have hdiv : (p - b) / elmt b = i := by
    rw [show p - b = elmt b * i + (p - h) by rw [Nat.mul_comm]; omega, Nat.mul_add_div he,
      Nat.div_eq_of_lt (by omega), Nat.add_zero]
  rw [hd.toHeader (show b ≤ p by omega) (by omega), if_pos (by unfold pageOf; omega),
    headerIn_eq s hpage (by omega) (by omega) he he', hbase, hdiv, Nat.mul_comm, ← hh]
  exact congrArg Except.ok (if_congr (and_iff_right hlo) rfl rfl)

end DescInv

end KernelMemVirt.Gc
