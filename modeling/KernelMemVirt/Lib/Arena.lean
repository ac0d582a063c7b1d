import KernelMemVirt.Lib.ByteMem
import Mathlib.Algebra.BigOperators.Finprod
import Mathlib.Algebra.BigOperators.Ring.Finset
import Mathlib.Algebra.Order.BigOperators.Group.Finset
import Mathlib.Logic.Function.Basic
import Mathlib.Order.Interval.Finset.Nat

/-!
# Zones, slots and bump regions

The geometry of an allocator that maps zones and cuts them into slots.  A zone
either has a part that is not cut yet, the bump region of some class, or it is
one slot as a whole.  There is no memory here, only address ranges.

`Layout.Ok` says that the ranges nest and do not overlap.  The four rules are
the four things an allocator does with them:

* `Layout.Ok.carve` cuts a slot off a bump region;
* `Layout.Ok.openZone` maps a zone and makes it the bump region of a class;
* `Layout.Ok.dedicate` maps a zone for a single slot;
* `Layout.Ok.close` unmaps such a zone.

A zone, a slot or a region of length 0 is absent.
-/

namespace Arena

open ByteMem

/-- The zone at `b` has `zone b` bytes, the slot at `a` has `slot a` bytes, and
class `c` has the bump region from `lo c` to `hi c`. -/
structure Layout where
  zone : Nat → Nat
  slot : Nat → Nat
  lo : Nat → Nat
  hi : Nat → Nat

namespace Layout

/-- Zones do not overlap, slots and bump regions lie in zones, and no two of
them overlap. -/
structure Ok (L : Layout) : Prop where
  zone_sep : ∀ b b', b ≠ b' → 0 < L.zone b → 0 < L.zone b' → Apart b (L.zone b) b' (L.zone b')
  slot_in : ∀ a, 0 < L.slot a → ∃ b, b ≤ a ∧ a + L.slot a ≤ b + L.zone b
  slot_sep : ∀ a a', a ≠ a' → 0 < L.slot a → 0 < L.slot a' → Apart a (L.slot a) a' (L.slot a')
  bump_in : ∀ c, L.lo c < L.hi c → ∃ b, b ≤ L.lo c ∧ L.hi c ≤ b + L.zone b
  bump_sep : ∀ c c', c ≠ c' → L.lo c < L.hi c → L.lo c' < L.hi c' →
    Apart (L.lo c) (L.hi c - L.lo c) (L.lo c') (L.hi c' - L.lo c')
  bump_slot : ∀ c a, L.lo c < L.hi c → 0 < L.slot a →
    Apart a (L.slot a) (L.lo c) (L.hi c - L.lo c)

/-- The range of `len` bytes at `b` meets no zone. -/
def Fresh (L : Layout) (b len : Nat) : Prop :=
  0 < len ∧ ∀ b', 0 < L.zone b' → Apart b len b' (L.zone b')

/-- Cut `w` bytes off the bump region of class `c`. -/
def carve (L : Layout) (c w : Nat) : Layout :=
  { L with
    slot := Function.update L.slot (L.lo c) w
    lo := Function.update L.lo c (L.lo c + w) }

/-- A new zone, to be the bump region of class `c`. -/
def openZone (L : Layout) (c b len : Nat) : Layout :=
  { L with
    zone := Function.update L.zone b len
    lo := Function.update L.lo c b
    hi := Function.update L.hi c (b + len) }

/-- A new zone that is one slot. -/
def dedicate (L : Layout) (b len : Nat) : Layout :=
  { L with
    zone := Function.update L.zone b len
    slot := Function.update L.slot b len }

/-- A zone goes away with its only slot. -/
def close (L : Layout) (b : Nat) : Layout :=
  { L with
    zone := Function.update L.zone b 0
    slot := Function.update L.slot b 0 }

variable {L : Layout}

/-- No zone is at the start of a fresh range. -/
theorem Fresh.zone_eq_zero {b len : Nat} (h : L.Fresh b len) : L.zone b = 0 := by
  by_contra hne
  have hsep := h.2 b (Nat.pos_of_ne_zero hne)
  have hpos := h.1
  unfold Apart at hsep
  omega

/-- A slot is apart from a fresh range. -/
theorem Ok.slot_fresh (hL : L.Ok) {b len a : Nat} (h : L.Fresh b len) (ha : 0 < L.slot a) :
    Apart a (L.slot a) b len := by
  obtain ⟨b', hlo, hhi⟩ := hL.slot_in a ha
  have hsep := h.2 b' (by omega)
  unfold Apart at hsep ⊢
  omega

/-- A bump region is apart from a fresh range. -/
theorem Ok.bump_fresh (hL : L.Ok) {b len c : Nat} (h : L.Fresh b len) (hc : L.lo c < L.hi c) :
    Apart (L.lo c) (L.hi c - L.lo c) b len := by
  obtain ⟨b', hlo, hhi⟩ := hL.bump_in c hc
  have hsep := h.2 b' (by omega)
  unfold Apart at hsep ⊢
  omega

/-- Cutting a slot off a bump region. -/
theorem Ok.carve (hL : L.Ok) {c w : Nat} (hw : 0 < w) (hfit : L.lo c + w ≤ L.hi c) :
    (L.carve c w).Ok := by
  have hc : L.lo c < L.hi c := by omega
  obtain ⟨b, hb⟩ := hL.bump_in c hc
  rcases hL with ⟨hzone, hslot_in, hslot, hbump_in, hbump, hcross⟩
  refine ⟨hzone, ?_, ?_, ?_, ?_, ?_⟩ <;> simp only [Layout.carve, Function.update_apply]
  · intro a ha
    by_cases heq : a = L.lo c
    · exact ⟨b, by grind⟩
    · simp only [heq, if_false] at ha ⊢
      exact hslot_in a ha
  · intro a a' hne ha ha'
    have h₁ := hcross c a hc
    have h₂ := hcross c a' hc
    have h₃ := hslot a a' hne
    unfold Apart at *
    grind
  · intro c' hc'
    by_cases heq : c' = c
    · exact ⟨b, by grind⟩
    · simp only [heq, if_false] at hc' ⊢
      exact hbump_in c' hc'
  · intro c₁ c₂ hne h₁ h₂
    have h₃ := hbump c₁ c₂ hne
    unfold Apart at *
    grind
  · intro c' a hc' ha
    have h₁ := hcross c' a
    have h₂ := hcross c a
    have h₃ := hbump c' c
    unfold Apart at *
    grind

/-- Mapping a zone as the bump region of a class; what is left of the region it
had is given up. -/
theorem Ok.openZone (hL : L.Ok) {c b len : Nat} (hfresh : L.Fresh b len) :
    (L.openZone c b len).Ok := by
  have hb := hfresh.zone_eq_zero
  refine ⟨?_, ?_, hL.slot_sep, ?_, ?_, ?_⟩ <;> simp only [Layout.openZone, Function.update_apply]
  · intro b₁ b₂ hne h₁ h₂
    have h₃ := hL.zone_sep b₁ b₂ hne
    have h₄ := hfresh.2 b₁
    have h₅ := hfresh.2 b₂
    unfold Apart at *
    grind
  · intro a ha
    obtain ⟨b', hb'⟩ := hL.slot_in a ha
    exact ⟨b', by grind⟩
  · intro c' hc'
    by_cases heq : c' = c
    · exact ⟨b, by grind⟩
    · simp only [heq, if_false] at hc' ⊢
      obtain ⟨b', hb'⟩ := hL.bump_in c' hc'
      exact ⟨b', by grind⟩
  · intro c₁ c₂ hne h₁ h₂
    have h₃ := hL.bump_sep c₁ c₂ hne
    have h₄ := fun h : L.lo c₁ < L.hi c₁ => hL.bump_fresh hfresh h
    have h₅ := fun h : L.lo c₂ < L.hi c₂ => hL.bump_fresh hfresh h
    unfold Apart at *
    grind
  · intro c' a hc' ha
    have h₁ := hL.bump_slot c' a
    have h₂ := hL.slot_fresh hfresh ha
    unfold Apart at *
    grind

/-- Mapping a zone that is one slot. -/
theorem Ok.dedicate (hL : L.Ok) {b len : Nat} (hfresh : L.Fresh b len) : (L.dedicate b len).Ok := by
  have hb := hfresh.zone_eq_zero
  have hslot := fun a (ha : 0 < L.slot a) => hL.slot_fresh hfresh ha
  refine ⟨?_, ?_, ?_, ?_, hL.bump_sep, ?_⟩ <;> simp only [Layout.dedicate, Function.update_apply]
  · intro b₁ b₂ hne h₁ h₂
    have h₃ := hL.zone_sep b₁ b₂ hne
    have h₄ := hfresh.2 b₁
    have h₅ := hfresh.2 b₂
    unfold Apart at *
    grind
  · intro a ha
    by_cases heq : a = b
    · exact ⟨b, by grind⟩
    · simp only [heq, if_false] at ha ⊢
      obtain ⟨b', hb'⟩ := hL.slot_in a ha
      exact ⟨b', by grind⟩
  · intro a a' hne ha ha'
    have h₁ := hL.slot_sep a a' hne
    have h₂ := hslot a
    have h₃ := hslot a'
    unfold Apart at *
    grind
  · intro c hc
    obtain ⟨b', hb'⟩ := hL.bump_in c hc
    exact ⟨b', by grind⟩
  · intro c a hc ha
    have h₁ := hL.bump_slot c a hc
    have h₂ := hL.bump_fresh hfresh hc
    unfold Apart at *
    grind

/-- Unmapping a zone that is one slot. -/
theorem Ok.close (hL : L.Ok) {b : Nat} (hb : 0 < L.zone b) (hslot : L.slot b = L.zone b) :
    (L.close b).Ok := by
  refine ⟨?_, ?_, ?_, ?_, hL.bump_sep, ?_⟩ <;> simp only [Layout.close, Function.update_apply]
  · intro b₁ b₂ hne h₁ h₂
    have h₃ := hL.zone_sep b₁ b₂ hne
    grind
  · intro a ha
    by_cases heq : a = b
    · simp [heq] at ha
    · simp only [heq, if_false] at ha ⊢
      obtain ⟨b', hb'⟩ := hL.slot_in a ha
      have h₁ := hL.slot_sep a b heq ha (by omega)
      unfold Apart at h₁
      exact ⟨b', by grind⟩
  · intro a a' hne ha ha'
    have h₁ := hL.slot_sep a a' hne
    grind
  · intro c hc
    obtain ⟨b', hb'⟩ := hL.bump_in c hc
    have h₁ := hL.bump_slot c b hc (by omega)
    unfold Apart at h₁
    exact ⟨b', by grind⟩
  · intro c a hc ha
    have h₁ := hL.bump_slot c a hc
    grind

end Layout

/-! ## The total length -/

/-- The total length of finitely many ranges. -/
noncomputable def total (f : Nat → Nat) : Nat := ∑ᶠ b, f b

section Total

variable {f : Nat → Nat} {n : Nat}

theorem total_zero : total (fun _ => 0) = 0 := finsum_zero

/-- Ranges that start below `n`. -/
theorem total_eq_sum (hmax : ∀ b, 0 < f b → b < n) : total f = ∑ b ∈ Finset.range n, f b := by
  apply finsum_eq_sum_of_support_subset
  intro b hb
  exact Finset.mem_coe.mpr (Finset.mem_range.mpr (hmax b (Nat.pos_of_ne_zero hb)))

/-- Ranges that do not overlap have no more bytes than the space they lie in. -/
theorem total_le (hsep : ∀ b b', b ≠ b' → 0 < f b → 0 < f b' → Apart b (f b) b' (f b'))
    (hmax : ∀ b, 0 < f b → b + f b ≤ n) : total f ≤ n := by
  have hdisjoint : ((Finset.range n : Finset Nat) : Set Nat).PairwiseDisjoint
      fun b => Finset.Ico b (b + f b) := by
    intro b _ b' _ hne
    refine Finset.disjoint_left.mpr fun a ha ha' => ?_
    simp only [Finset.mem_Ico] at ha ha'
    have hapart := hsep b b' hne (by omega) (by omega)
    unfold Apart at hapart
    omega
  have hsub : (Finset.range n).biUnion (fun b => Finset.Ico b (b + f b)) ⊆ Finset.range n := by
    intro a ha
    simp only [Finset.mem_biUnion, Finset.mem_range, Finset.mem_Ico] at ha ⊢
    rcases ha with ⟨b, -, hlo, hhi⟩
    have := hmax b (by omega)
    omega
  have hstart : ∀ b, 0 < f b → b < n := by
    intro b hb
    have := hmax b hb
    omega
  calc total f = ∑ b ∈ Finset.range n, (Finset.Ico b (b + f b)).card := by
        simp [total_eq_sum hstart]
    _ = ((Finset.range n).biUnion fun b => Finset.Ico b (b + f b)).card :=
      (Finset.card_biUnion hdisjoint).symm
    _ ≤ (Finset.range n).card := Finset.card_le_card hsub
    _ = n := Finset.card_range n

/-- One range takes another length. -/
theorem total_update (hmax : ∀ b, 0 < f b → b < n) {b : Nat} (hb : b < n) (len : Nat) :
    total (Function.update f b len) + f b = total f + len := by
  have hmem : b ∈ Finset.range n := Finset.mem_range.mpr hb
  have hmax' : ∀ b', 0 < Function.update f b len b' → b' < n := by
    intro b' hpos
    by_cases hbb : b' = b
    · rwa [hbb]
    · rw [Function.update_of_ne hbb] at hpos
      exact hmax b' hpos
  rw [total_eq_sum hmax, total_eq_sum hmax', Finset.sum_update_of_mem hmem,
    ← Finset.sum_sdiff (Finset.singleton_subset_iff.mpr hmem), Finset.sum_singleton]
  omega

/-- Some of the ranges, each counted once. -/
theorem sum_map_le_total (hmax : ∀ b, 0 < f b → b < n) {l : List Nat} (hnodup : l.Nodup)
    (hl : ∀ b ∈ l, b < n) : (l.map f).sum ≤ total f := by
  rw [← List.sum_toFinset f hnodup, total_eq_sum hmax]
  refine Finset.sum_le_sum_of_subset fun b hb => ?_
  exact Finset.mem_range.mpr (hl b (List.mem_toFinset.mp hb))

end Total

end Arena
