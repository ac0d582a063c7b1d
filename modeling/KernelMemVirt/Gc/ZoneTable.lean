import KernelMemVirt.Gc.Resolve
import KernelMemVirt.Lib.Transition

/-!
# The page table over runs

`new_zone` maps a zone and enters its pages in `heap_desc`, and the end of a large
object takes them out again, by `hash_zone(zone, size, 0, 0)`.  For zones in the first
4 GiB that do not overlap, the table describes the mapped zones after every run.

A `ZoneRun` remembers the zones: the length of the zone at an address, 0 where there is
none, and its element size.
-/

namespace KernelMemVirt.Gc

open ByteMem Transition

/-! ## Runs -/

inductive ZoneEvent
  | map (size elmtSize : Int32) (mapped : Option Nat)
  | unmap (zone : Nat) (size : Int32)

structure ZoneRun where
  heap : Heap
  zone : Nat → Nat
  elmt : Nat → Nat

namespace ZoneRun

variable (st : ZoneRun)

def init (mem : Mem) : ZoneRun := ⟨Heap.init mem, fun _ => 0, fun _ => 0⟩

/-- The release of a zone in `pre_free`. -/
def release (zone : Nat) (size : Int32) : ZoneRun :=
  { st with
    heap := { st.heap with desc := hashZone st.heap.desc zone size 0 0 }
    zone := Function.update st.zone zone 0 }

/-- One step; `none` when `mmap` fails, which ends the process. -/
def step : ZoneEvent → Option ZoneRun
  | .map size elmtSize mapped =>
    match st.heap.newZone size elmtSize mapped with
    | .ok (heap, zone) =>
      some
        { heap
          zone := Function.update st.zone zone size.toNat
          elmt := Function.update st.elmt zone elmtSize.toNat }
    | .error _ => none
  | .unmap zone size => some (st.release zone size)

/-- Element sizes are positive and zones are whole pages of the first 4 GiB, apart from
the mapped ones; only mapped zones are released. -/
def Allowed : ZoneEvent → Prop
  | .map size elmtSize mapped =>
    0 < elmtSize.toInt ∧ 0 < size.toInt ∧ size.toNat % 4096 = 0 ∧
      ∀ z, mapped = some z → z % 4096 = 0 ∧ z + size.toNat ≤ 2 ^ 32 ∧
        ∀ b, 0 < st.zone b → Apart z size.toNat b (st.zone b)
  | .unmap zone size => 0 < st.zone zone ∧ st.zone zone = size.toNat

/-- The entry of a page, as the `int` that `toHeader` reads. -/
def entry (a : Nat) : Int := ((st.heap.desc (pageOf a)).setWidth 32 : Int32).toInt

/-- The table describes the mapped zones. -/
structure Described : Prop where
  first : ∀ b, 0 < st.zone b → st.heap.desc (pageOf b) = BitVec.ofNat 64 (st.elmt b)
  next : ∀ b k, 0 < k → 4096 * k < st.zone b → st.entry (b + 4096 * k) = -k
  empty : ∀ a, a < 2 ^ 32 → (∀ b, ¬ (b ≤ a ∧ a < b + st.zone b)) → st.heap.desc (pageOf a) = 0
  /-- From any page of a zone, `toHeader` goes to the first page and its element size. -/
  hop : ∀ b p, b ≤ p → p < b + st.zone b → st.heap.toHeader p =
    .ok (st.heap.headerIn (BitVec.ofNat 64 (pageOf b)) (BitVec.ofNat 64 (st.elmt b))
      (BitVec.ofNat 64 p))
  /-- A release changes no entry of another zone. -/
  release : ∀ z size, st.Allowed (.unmap z size) → ∀ b a, b ≠ z → b ≤ a → a < b + st.zone b →
    (st.release z size).heap.desc (pageOf a) = st.heap.desc (pageOf a)

/-- The invariant: `DescInv`, for zones in the first 4 GiB. -/
structure Inv : Prop where
  desc : DescInv st.heap.desc st.zone st.elmt
  low : ∀ b, 0 < st.zone b → b + st.zone b ≤ 2 ^ 32

variable {st}

theorem inv_init (mem : Mem) : (init mem).Inv where
  desc := descInv_init
  low := fun _ hb => absurd hb (Nat.lt_irrefl 0)

theorem toNat_of_toInt_pos {x : Int32} (h : 0 < x.toInt) : 0 < x.toNat ∧ x.toNat < 2 ^ 31 := by
  rw [BitVec.toInt_eq_toNat_cond] at h
  split at h <;> omega

/-- The page of an address in a zone. -/
theorem pageOf_in_zone {b a : Nat} (hpage : b % 4096 = 0) (hlo : b ≤ a) :
    pageOf a = pageOf (b + 4096 * ((a - b) / 4096)) := by
  unfold pageOf
  omega

/-- In the first 4 GiB, zones that are apart share no page number. -/
theorem Inv.lowFresh (h : st.Inv) {z len : Nat} (hz : z % 4096 = 0) (hend : z + len ≤ 2 ^ 32)
    (hapart : ∀ b, 0 < st.zone b → Apart z len b (st.zone b)) : LowFresh st.zone z len := by
  intro b k k' hk hk'
  have hsep := hapart b (by omega)
  have hlow := h.low b (by omega)
  obtain ⟨hb, -, -, -⟩ := h.desc.zone_bound b (by omega)
  unfold Apart at hsep
  unfold pageOf
  omega

theorem Inv.described (h : st.Inv) : st.Described := by
  have hpage := fun b hb => (h.desc.zone_bound b hb).1
  refine ⟨fun b hb => ?_, fun b k hk hlt => ?_, fun a ha hno => ?_, fun b p hlo hhi => ?_, ?_⟩
  · obtain ⟨-, he⟩ := h.desc.elmt_bound b hb
    have hentry := h.desc.page b 0 (by omega)
    rwa [Nat.mul_zero, Nat.add_zero, pageEntry, if_pos rfl, signExtend_ofNat he] at hentry
  · have hlen := (h.desc.zone_bound b (by omega)).2.2.1
    unfold entry
    rw [h.desc.page b k hlt, setWidth_signExtend, toInt_pageEntry _ (by omega) (by omega)]
  · refine h.desc.noPage _ fun b k hk heq => hno b ?_
    have hlow := h.low b (by omega)
    have hb := hpage b (by omega)
    have hwhole := (h.desc.zone_bound b (by omega)).2.1
    unfold pageOf at heq
    omega
  · have hlow := h.low b (by omega)
    have hb := hpage b (by omega)
    rw [h.desc.toHeader hlo hhi, if_pos]
    unfold pageOf
    omega
  · intro z size hallowed b a hne hlo hhi
    rcases hallowed with ⟨hz, hsize⟩
    have hend := (h.desc.zone_bound z hz).2.2.2
    rw [pageOf_in_zone (hpage b (by omega)) hlo]
    exact hashZone_other (by omega) (by omega) fun k hk =>
      h.desc.page_sep z b k _ hne.symm (by omega) (by omega)

theorem Inv.step (h : st.Inv) {st' : ZoneRun} {e : ZoneEvent} (hallowed : st.Allowed e)
    (hstep : st.step e = some st') : st'.Inv := by
  cases e with
  | map size elmtSize mapped =>
    rcases hallowed with ⟨helmt, hsize, hwhole, hmapped⟩
    cases mapped with
    | none => cases hstep
    | some z =>
      obtain rfl := Option.some.inj hstep
      obtain ⟨hz, hend, hapart⟩ := hmapped z rfl
      obtain ⟨hpos, -⟩ := toNat_of_toInt_pos hsize
      obtain ⟨he, he'⟩ := toNat_of_toInt_pos helmt
      have hzone : st.zone z = 0 := by
        by_contra hne
        have hsep := hapart z (by omega)
        unfold Apart at hsep
        omega
      refine ⟨?_, fun b hb => ?_⟩
      · exact h.desc.openZone hz hwhole hpos (by omega) he he' hzone
          (h.lowFresh hz hend hapart)
      · dsimp only at hb ⊢
        by_cases hbz : b = z
        · rw [hbz, Function.update_self]
          exact hend
        · rw [Function.update_of_ne hbz] at hb ⊢
          exact h.low b hb
  | unmap z size =>
    rcases hallowed with ⟨hpos, hzone⟩
    obtain rfl := Option.some.inj hstep
    refine ⟨h.desc.closeZone hzone (by omega), fun b hb => ?_⟩
    unfold release at hb ⊢
    dsimp only at hb ⊢
    by_cases hbz : b = z
    · rw [hbz, Function.update_self] at hb
      exact absurd hb (Nat.lt_irrefl 0)
    · rw [Function.update_of_ne hbz] at hb ⊢
      exact h.low b hb

end ZoneRun

/-- After every run of `new_zone` and of releases, the table describes the mapped
zones. -/
theorem zoneTable_of_run {mem : Mem} {es : List ZoneEvent} {st : ZoneRun}
    (hok : RunOk ZoneRun.step ZoneRun.Allowed (ZoneRun.init mem) es)
    (hrun : run ZoneRun.step (ZoneRun.init mem) es = some st) : st.Described := by
  have hinv := run_invariant_of_ok (fun _ _ _ (hs : ZoneRun.Inv _) h hstep => hs.step h hstep) es _
    st (ZoneRun.inv_init mem) hok hrun
  exact hinv.described

/-- Two zones are mapped, and the first is released. -/
def twoZones : List ZoneEvent :=
  [.map 0x3000 24 (some 0x10000000), .map 0x1000 16 (some 0x10003000), .unmap 0x10000000 0x3000]

theorem zoneTable_of_run_two :
    ∃ st, run ZoneRun.step (ZoneRun.init fun _ => 0) twoZones = some st ∧ st.Described := by
  obtain ⟨st, hst⟩ : ∃ st, run ZoneRun.step (ZoneRun.init fun _ => 0) twoZones = some st := ⟨_, rfl⟩
  refine ⟨st, hst, zoneTable_of_run ?_ hst⟩
  refine (runOk_cons_of_some rfl).mpr ⟨⟨by decide, by decide, by decide, fun z hz => ?_⟩, ?_⟩
  · obtain rfl := Option.some.inj hz
    exact ⟨by decide, by decide, fun b hb => absurd hb (Nat.lt_irrefl 0)⟩
  · refine (runOk_cons_of_some rfl).mpr ⟨⟨by decide, by decide, by decide, fun z hz => ?_⟩, ?_⟩
    · obtain rfl := Option.some.inj hz
      refine ⟨by decide, by decide, fun b hb => ?_⟩
      dsimp only at hb ⊢
      by_cases hfirst : b = 0x10000000
      · rw [hfirst]
        decide
      · rw [Function.update_of_ne hfirst] at hb
        exact absurd hb (Nat.lt_irrefl 0)
    · exact (runOk_cons_of_some rfl).mpr ⟨⟨by decide, by decide⟩, trivial⟩

end KernelMemVirt.Gc
