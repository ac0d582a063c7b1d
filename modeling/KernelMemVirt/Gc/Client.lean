import KernelMemVirt.Gc.Uniform
import Mathlib.Data.List.Nodup

/-!
# The sizes the clients use

The programs that use the allocator ask for multiples of 8 bytes.  Then a class
has one size, and zones in the first 4 GiB are resolved, so the allocator works:
`client_of_run` says that fresh objects are zeroed, that the free lists hold the
freed small objects, each once and no live one, and that freeing an object again
is found out.

A `ClientRun` remembers the freed objects, until their memory is given to another
object or zone.
-/

namespace KernelMemVirt.Gc

open ByteMem FreeList Transition

/-- The number of bytes from the header on that a malloc takes: those of the
object, or those of the zone that is mapped for it. -/
def taken (s : Heap) (size : Nat) : Nat := max (4 + size) ((source s size).mapLength size)

/-- A run of the allocator with the freed objects. -/
structure ClientRun where
  run : HeapRun
  freed : List Obj

namespace ClientRun

variable (r : ClientRun)

def init (mem : Mem) : ClientRun := ⟨HeapRun.init mem, []⟩

/-- One step; `none` when the process ends. -/
def step : HeapEvent → Option ClientRun
  | .malloc size mapped =>
    match r.run.heap.preMalloc size mapped with
    | .ok (s', h) =>
      some ⟨r.run.allocated s' size.toNat h, r.freed.filter fun o =>
        decide (Apart o.header (4 + o.size) h (taken r.run.heap size.toNat))⟩
    | .error _ => none
  | .free p =>
    match r.run.heap.preFree p with
    | .ok s' =>
      some ⟨r.run.released s' (p - 4), r.run.live.filter (fun o => o.header == p - 4) ++ r.freed⟩
    | .error _ => none
  | .write a v => some ⟨r.run.written a v, r.freed⟩

/-- The steps of a client: sizes are positive multiples of 8 below `2 ^ 30`, and
`mmap` stays in the first 4 GiB. -/
def Allowed : HeapEvent → Prop
  | .malloc size mapped =>
    0 < size.toNat ∧ size.toNat % 8 = 0 ∧ size.toNat < 2 ^ 30 ∧
      r.run.MapsFresh size.toNat mapped ∧
        let len := (source r.run.heap size.toNat).mapLength size.toNat
        ∀ z, mapped = some z → 0 < len → z + len ≤ 2 ^ 32
  | .free p => r.run.Allowed (.free p)
  | .write a v => r.run.Allowed (.write a v)

/-- What the allocator promises to its clients. -/
structure Sound (free : Nat → List Nat) : Prop where
  /-- The free lists. -/
  chain : ∀ c, Chain r.run.heap.mem 4 (r.run.heap.allocator c).first (free c)
  /-- A new object is zeroed. -/
  zeroed : ∀ size mapped s' h, r.Allowed (.malloc size mapped) →
    r.run.heap.preMalloc size mapped = .ok (s', h) →
      ∀ a, toObject h ≤ a → a < toObject h + size.toNat → s'.mem a = 0
  /-- A freed small object is in one free list, once. -/
  freed_once : ∀ o ∈ r.freed, o.size < 8192 →
    ∃ c, (free c).count o.header = 1 ∧ ∀ c', c' ≠ c → o.header ∉ free c'
  /-- No live object is in a free list. -/
  live_not_free : ∀ o ∈ r.run.live, ∀ c, o.header ∉ free c
  /-- A freed object is not found, and not freed again. -/
  freed_dead : ∀ o ∈ r.freed, ∀ p, toObject o.header ≤ p → p < toObject o.header + o.size →
    r.run.heap.toHeader p = .ok 0 ∧ r.run.heap.preFree p = .error .notAnObject

end ClientRun

/-! ## The memory that a malloc takes -/

theorem add_le_taken (s : Heap) (size : Nat) : 4 + size ≤ taken s size := Nat.le_max_left _ _

theorem mapLength_le_taken (s : Heap) (size : Nat) :
    (source s size).mapLength size ≤ taken s size := Nat.le_max_right _ _

/-- The zones after a malloc. -/
theorem Malloc.zone {st : HeapRun} {s' : Heap} {size : Int32} {mapped : Option Nat} {h : Nat}
    (hmalloc : Malloc st.heap size mapped s' h) :
    (st.allocated s' size.toNat h).zone = st.zone ∨
      mapped = some h ∧ 0 < (source st.heap size.toNat).mapLength size.toNat ∧
        (st.allocated s' size.toNat h).zone =
          Function.update st.zone h ((source st.heap size.toNat).mapLength size.toNat) := by
  have hroom := header_add_le_slotWidth size.toNat
  rcases hmalloc with ⟨hsource, -, -, -, -, -, -⟩ | ⟨hsource, -, -, -, -, -, -, -⟩ |
    ⟨hsource, -, rfl, -, -, -, -⟩ | ⟨hsource, -, rfl, -, -, -⟩ <;>
    simp only [HeapRun.allocated, hsource, Source.mapLength]
  · exact .inl trivial
  · exact .inl trivial
  · have hround := le_pageRound (32 * slotWidth size.toNat)
    exact .inr ⟨trivial, by omega, trivial⟩
  · have hround := le_pageRound (slotWidth size.toNat)
    exact .inr ⟨trivial, by omega, trivial⟩

/-- The zones stay in the first 4 GiB. -/
theorem Malloc.zone_low {st : HeapRun} {s' : Heap} {size : Int32} {mapped : Option Nat} {h : Nat}
    (hmalloc : Malloc st.heap size mapped s' h)
    (hold : ∀ b, 0 < st.zone b → b + st.zone b ≤ 2 ^ 32)
    (hlow : let len := (source st.heap size.toNat).mapLength size.toNat
      ∀ z, mapped = some z → 0 < len → z + len ≤ 2 ^ 32) :
    ∀ b, 0 < (st.allocated s' size.toNat h).zone b →
      b + (st.allocated s' size.toNat h).zone b ≤ 2 ^ 32 := by
  intro b hb
  rcases hmalloc.zone with heq | ⟨hmapped, hlen, heq⟩ <;> rw [heq] at hb ⊢
  · exact hold b hb
  · by_cases hbh : b = h
    · subst hbh
      rw [Function.update_self]
      exact hlow b hmapped hlen
    · rw [Function.update_of_ne hbh] at hb ⊢
      exact hold b hb

/-- In the first 4 GiB, a fresh zone shares no page number with the others. -/
theorem HeapInv.lowFresh {st : HeapRun} {free : Nat → List Nat} (hinv : HeapInv st free)
    (hold : ∀ b, 0 < st.zone b → b + st.zone b ≤ 2 ^ 32) {size : Nat} {mapped : Option Nat}
    (hmaps : st.MapsFresh size mapped) {z : Nat} (hz : mapped = some z)
    (hlen : 0 < (source st.heap size).mapLength size)
    (hend : z + (source st.heap size).mapLength size ≤ 2 ^ 32) :
    LowFresh st.zone z ((source st.heap size).mapLength size) := by
  intro b k k' hk hk' hpage
  obtain ⟨hz4, -, hfresh⟩ := hmaps z hz hlen
  obtain ⟨hb4, hlen4, -⟩ := hinv.zone_bound b (by omega)
  have hbase := hold b (by omega)
  have hapart : Apart z ((source st.heap size).mapLength size) b (st.zone b) :=
    hfresh.2 b (show 0 < st.zone b by omega)
  unfold pageOf at hpage
  unfold Apart at hapart
  omega

/-- A malloc changes the memory it takes only. -/
theorem Malloc.sameOutside {s s' : Heap} {size : Int32} {mapped : Option Nat} {h : Nat}
    (hmalloc : Malloc s size mapped s' h) : SameOutside s.mem s'.mem h (taken s size.toNat) := by
  have hheader : ∀ m : Mem, SameOutside m (write32 m h size) h (taken s size.toNat) := fun m =>
    (sameOutside_writeBytes m h 4 size).mono (Nat.le_refl h)
      (by have := add_le_taken s size.toNat; omega)
  have hzone : ∀ n, n ≤ taken s size.toNat →
      SameOutside s.mem (fill s.mem h 0 n) h (taken s size.toNat) := fun n hn =>
    (sameOutside_fill _ _ _ _).mono (Nat.le_refl h) (by omega)
  rcases hmalloc with ⟨-, -, -, -, hmem, -, -⟩ | ⟨-, -, -, -, -, hmem, -, -⟩ |
    ⟨hsource, -, -, -, hmem, -, -⟩ | ⟨hsource, -, -, hmem, -, -⟩ <;> rw [hmem]
  · refine SameOutside.trans ?_ (hheader _)
    exact (sameOutside_fill _ _ _ _).mono (by omega)
      (by have := add_le_taken s size.toNat; omega)
  · exact hheader _
  · refine (hzone _ ?_).trans (hheader _)
    unfold taken
    rw [hsource]
    exact Nat.le_max_right _ _
  · refine (hzone _ ?_).trans (hheader _)
    unfold taken
    rw [hsource]
    exact Nat.le_max_right _ _

/-- It is apart from the other slots. -/
theorem HeapInv.slot_taken {st : HeapRun} {free : Nat → List Nat} (hinv : HeapInv st free)
    {s' : Heap} {size : Int32} {mapped : Option Nat} {h : Nat}
    (hmaps : st.MapsFresh size.toNat mapped) (hfit : st.SlotsFit (.malloc size mapped))
    (hmalloc : Malloc st.heap size mapped s' h) {x : Nat} (hne : x ≠ h) (hx : 0 < st.slot x) :
    Apart x (st.slot x) h (taken st.heap size.toNat) := by
  have hroom := header_add_le_slotWidth size.toNat
  rcases hmalloc with ⟨hsource, -, hfirst, -, -, -, -⟩ | ⟨hsource, -, hlo, hend, -, -, -, -⟩ |
    ⟨hsource, -, rfl, -, -, -, -⟩ | ⟨hsource, -, rfl, -, -, -⟩ <;> unfold taken <;> rw [hsource]
  · have hwide := hfit hsource
    rw [hfirst] at hwide
    have hsep := hinv.slot_sep hne hx (show 0 < st.slot h by omega)
    rw [Source.mapLength]
    unfold Apart at hsep ⊢
    omega
  · have hsep : Apart x (st.slot x) (st.heap.allocator (classOf size.toNat)).currentZone
        ((st.heap.allocator (classOf size.toNat)).endZone
          - (st.heap.allocator (classOf size.toNat)).currentZone) :=
      hinv.layout.bump_slot (classOf size.toNat) x
        (show (st.heap.allocator _).currentZone < (st.heap.allocator _).endZone by omega) hx
    rw [Source.mapLength]
    unfold Apart at hsep ⊢
    omega
  · have hround := le_pageRound (32 * slotWidth size.toNat)
    have hbytes : 0 < Source.mapLength size.toNat .newZone := by
      show 0 < pageRound _
      omega
    obtain ⟨-, -, hfresh⟩ := hmaps h rfl (by rw [hsource]; exact hbytes)
    rw [hsource] at hfresh
    rw [Nat.max_eq_right (by show 4 + _ ≤ pageRound _; omega)]
    exact hinv.layout.slot_fresh hfresh hx
  · have hround := le_pageRound (slotWidth size.toNat)
    have hbytes : 0 < Source.mapLength size.toNat .ownZone := by
      show 0 < pageRound _
      omega
    obtain ⟨-, -, hfresh⟩ := hmaps h rfl (by rw [hsource]; exact hbytes)
    rw [hsource] at hfresh
    rw [Nat.max_eq_right (by show 4 + _ ≤ pageRound _; omega)]
    exact hinv.layout.slot_fresh hfresh hx

/-! ## Bump regions are zeroed -/

/-- The bytes of the bump regions are zero. -/
def BumpZero (s : Heap) : Prop :=
  ∀ c a, (s.allocator c).currentZone ≤ a → a < (s.allocator c).endZone → s.mem a = 0

/-- A change inside a slot does not show in a bump region. -/
theorem BumpZero.slot {st : HeapRun} {free : Nat → List Nat} (hinv : HeapInv st free)
    (hzero : BumpZero st.heap) {mem : Mem} {a n h : Nat} (hmem : SameOutside st.heap.mem mem a n)
    (hlo : h ≤ a) (hhi : a + n ≤ h + st.slot h) (hn : 0 < n) {c x : Nat}
    (hx : (st.heap.allocator c).currentZone ≤ x) (hx' : x < (st.heap.allocator c).endZone) :
    mem x = 0 := by
  have hsep : Apart h (st.slot h) (st.heap.allocator c).currentZone
      ((st.heap.allocator c).endZone - (st.heap.allocator c).currentZone) :=
    hinv.layout.bump_slot c h
      (show (st.heap.allocator _).currentZone < (st.heap.allocator _).endZone by omega)
      (show 0 < st.slot h by omega)
  rw [hmem x (by unfold Apart at hsep; omega)]
  exact hzero c x hx hx'

/-- A change in a fresh zone does not show in a bump region. -/
theorem BumpZero.fresh {st : HeapRun} {free : Nat → List Nat} (hinv : HeapInv st free)
    (hzero : BumpZero st.heap) {mem : Mem} {h n : Nat} (hmem : SameOutside st.heap.mem mem h n)
    (hfresh : st.layout.Fresh h n) {c x : Nat}
    (hx : (st.heap.allocator c).currentZone ≤ x) (hx' : x < (st.heap.allocator c).endZone) :
    mem x = 0 := by
  have hsep : Apart (st.heap.allocator c).currentZone
      ((st.heap.allocator c).endZone - (st.heap.allocator c).currentZone) h n :=
    hinv.layout.bump_fresh hfresh
      (show (st.heap.allocator _).currentZone < (st.heap.allocator _).endZone by omega)
  rw [hmem x (by unfold Apart at hsep; omega)]
  exact hzero c x hx hx'

/-- `pre_malloc` keeps the bump regions zeroed. -/
theorem BumpZero.malloc {st : HeapRun} {free : Nat → List Nat} (hinv : HeapInv st free)
    (hzero : BumpZero st.heap) {s' : Heap} {size : Int32} {mapped : Option Nat} {h : Nat}
    (hmaps : st.MapsFresh size.toNat mapped) (hfit : st.SlotsFit (.malloc size mapped))
    (hmalloc : Malloc st.heap size mapped s' h) : BumpZero s' := by
  have hroom := header_add_le_slotWidth size.toNat
  have hsame := hmalloc.sameOutside
  unfold taken at hsame
  intro c a hlo' hhi'
  rcases hmalloc with ⟨hsource, -, hfirst, -, -, -, halloc⟩ |
    ⟨hsource, -, hlo, hend, -, hmem, -, halloc⟩ |
    ⟨hsource, -, rfl, -, hmem, -, halloc⟩ | ⟨hsource, -, rfl, -, -, halloc⟩
  · have hregion : (s'.allocator c).currentZone = (st.heap.allocator c).currentZone ∧
        (s'.allocator c).endZone = (st.heap.allocator c).endZone := by
      by_cases hc : c = classOf size.toNat <;> simp [halloc, hc]
    rw [hregion.1] at hlo'
    rw [hregion.2] at hhi'
    have hwide := hfit hsource
    rw [hfirst] at hwide
    rw [hsource, Source.mapLength] at hsame
    exact hzero.slot hinv hsame (Nat.le_refl h) (by omega) (by omega) hlo' hhi'
  · rw [hmem]
    by_cases hc : c = classOf size.toNat
    · subst hc
      simp only [halloc, Function.update_self] at hlo' hhi'
      rw [write32_apply_of_outside (by omega)]
      exact hzero _ a (by omega) hhi'
    · rw [halloc, Function.update_of_ne hc] at hlo' hhi'
      have hsep : Apart (st.heap.allocator c).currentZone
          ((st.heap.allocator c).endZone - (st.heap.allocator c).currentZone)
          (st.heap.allocator (classOf size.toNat)).currentZone
          ((st.heap.allocator (classOf size.toNat)).endZone
            - (st.heap.allocator (classOf size.toNat)).currentZone) :=
        hinv.layout.bump_sep c (classOf size.toNat) hc
          (show (st.heap.allocator _).currentZone < (st.heap.allocator _).endZone by omega)
          (show (st.heap.allocator _).currentZone < (st.heap.allocator _).endZone by omega)
      rw [write32_apply_of_outside (by unfold Apart at hsep; omega)]
      exact hzero c a hlo' hhi'
  · have hround := le_pageRound (32 * slotWidth size.toNat)
    obtain ⟨-, -, hfresh⟩ := hmaps h rfl (by rw [hsource, Source.mapLength]; omega)
    rw [hsource, Source.mapLength] at hfresh hsame
    rw [Nat.max_eq_right (by omega)] at hsame
    by_cases hc : c = classOf size.toNat
    · subst hc
      simp only [halloc, Function.update_self] at hlo' hhi'
      rw [hmem, write32_apply_of_outside (by omega),
        fill_apply_of_inside (by omega) (by omega)]
    · rw [halloc, Function.update_of_ne hc] at hlo' hhi'
      exact hzero.fresh hinv hsame hfresh hlo' hhi'
  · have hround := le_pageRound (slotWidth size.toNat)
    obtain ⟨-, -, hfresh⟩ := hmaps h rfl (by rw [hsource, Source.mapLength]; omega)
    rw [hsource, Source.mapLength] at hfresh hsame
    rw [Nat.max_eq_right (by omega)] at hsame
    rw [halloc] at hlo' hhi'
    exact hzero.fresh hinv hsame hfresh hlo' hhi'

/-- A new object is zeroed. -/
theorem BumpZero.zeroed {s : Heap} (hzero : BumpZero s) {s' : Heap} {size : Int32}
    {mapped : Option Nat} {h : Nat} (hmalloc : Malloc s size mapped s' h) {a : Nat}
    (hlo : h + 4 ≤ a) (hhi : a < h + 4 + size.toNat) : s'.mem a = 0 := by
  have hroom := header_add_le_slotWidth size.toNat
  rcases hmalloc with ⟨-, -, -, -, hmem, -, -⟩ | ⟨-, -, hcur, hend, -, hmem, -, -⟩ |
    ⟨-, -, -, -, hmem, -, -⟩ | ⟨-, -, -, hmem, -, -⟩ <;>
    rw [hmem, write32_apply_of_outside (by omega)]
  · exact fill_apply_of_inside hlo hhi
  · exact hzero (classOf size.toNat) a (by omega) (by omega)
  · have hround := le_pageRound (32 * slotWidth size.toNat)
    exact fill_apply_of_inside (by omega) (by omega)
  · have hround := le_pageRound (slotWidth size.toNat)
    exact fill_apply_of_inside (by omega) (by omega)

/-! ## The invariant -/

/-- The size of the objects of a class. -/
def clientSize (c : Nat) : Nat := 4 * c

theorem clientSize_classOf {n : Nat} (h : n % 8 = 0) : clientSize (classOf n) = n := by
  unfold clientSize classOf
  omega

/-- The heap of a client, with the free slots of class `c` in `free c` and zones
of elements of `elmt` bytes. -/
structure ClientInv (r : ClientRun) (free : Nat → List Nat) (elmt : Nat → Nat) : Prop where
  heap : HeapInv r.run free
  grid : Grid r.run clientSize elmt free
  zone_low : ∀ b, 0 < r.run.zone b → b + r.run.zone b ≤ 2 ^ 32
  live_size : ∀ o ∈ r.run.live, 8 ≤ o.size ∧ o.size % 8 = 0
  bump : BumpZero r.run.heap
  free_header : ∀ c, ∀ h ∈ free c, read32 r.run.heap.mem h = 0
  freed_small : ∀ o ∈ r.freed, o.size < 8192 →
    o.header ∈ free (classOf o.size) ∧ o.size % 8 = 0
  freed_large : ∀ o ∈ r.freed, 8192 ≤ o.size → o.header + (4 + o.size) ≤ 2 ^ 32 ∧
    ∀ b, 0 < r.run.zone b → Apart o.header (4 + o.size) b (r.run.zone b)

theorem clientInv_init (mem : Mem) : ClientInv (ClientRun.init mem) (fun _ => []) fun _ => 0 where
  heap := heapInv_init mem
  grid := grid_init mem _
  zone_low := by simp [ClientRun.init, HeapRun.init]
  live_size := by simp [ClientRun.init, HeapRun.init]
  bump := by
    intro c a _ ha
    exact absurd ha (Nat.not_lt_zero a)
  free_header := by simp
  freed_small := by simp [ClientRun.init]
  freed_large := by simp [ClientRun.init]

namespace ClientInv

variable {r : ClientRun} {free : Nat → List Nat} {elmt : Nat → Nat}

/-! ### What the invariant gives -/

/-- A pointer into a live object is resolved. -/
theorem toHeader_live (h : ClientInv r free elmt) {o : Obj} (ho : o ∈ r.run.live) {p : Nat}
    (hlo : o.header + 4 ≤ p) (hhi : p < o.header + 4 + o.size) :
    r.run.heap.toHeader p = .ok o.header :=
  h.grid.widthGrid.toHeader_live h.heap h.zone_low ho hlo hhi

/-- A pointer into a freed object is not. -/
theorem toHeader_freed (h : ClientInv r free elmt) {o : Obj} (ho : o ∈ r.freed) {p : Nat}
    (hlo : o.header + 4 ≤ p) (hhi : p < o.header + 4 + o.size) :
    r.run.heap.toHeader p = .ok 0 := by
  by_cases hsmall : o.size < 8192
  · obtain ⟨hfree, hmod⟩ := h.freed_small o ho hsmall
    obtain ⟨⟨b, i, hb, hin, he⟩, -⟩ := h.grid.free _ _ hfree
    have hroom := header_add_le_slotWidth o.size
    have hzero := h.free_header _ _ hfree
    rw [clientSize_classOf hmod] at hb hin he
    rw [h.grid.desc.toHeader_low (h.zone_low b (by omega)) (he ▸ hb) hlo (by omega) (by omega),
      hzero, if_neg (by simp; omega)]
  · obtain ⟨hmax, hsep⟩ := h.freed_large o ho (by omega)
    refine h.grid.desc.toHeader_noPage (by omega) fun b k hk hpage => ?_
    obtain ⟨hb, hlen, -⟩ := h.heap.zone_bound b (by omega)
    have hlow := h.zone_low b (by omega)
    have hapart := hsep b (by omega)
    unfold pageOf at hpage
    unfold Apart at hapart
    omega

theorem preFree_freed (h : ClientInv r free elmt) {o : Obj} (ho : o ∈ r.freed) {p : Nat}
    (hlo : o.header + 4 ≤ p) (hhi : p < o.header + 4 + o.size) :
    r.run.heap.preFree p = .error .notAnObject := by
  unfold Heap.preFree
  rw [h.toHeader_freed ho hlo hhi]
  rfl

/-- The invariant is what the clients need. -/
theorem sound (h : ClientInv r free elmt) : r.Sound free where
  chain := h.heap.chain
  zeroed := by
    intro size mapped s' header hallowed hok a hlo hhi
    rcases hallowed with ⟨-, -, hsize, -, -⟩
    exact h.bump.zeroed (preMalloc_cases (by omega) hok) hlo hhi
  freed_once := by
    intro o ho hsmall
    obtain ⟨hfree, -⟩ := h.freed_small o ho hsmall
    refine ⟨classOf o.size, List.nodup_iff_count_eq_one.mp (h.heap.free_nodup _) _ hfree, ?_⟩
    exact fun c hc hmem => hc (h.heap.free_class c _ _ hmem hfree)
  live_not_free := fun o ho c hmem => h.heap.free_dead c _ hmem o ho rfl
  freed_dead := fun _ ho _ hlo hhi => ⟨h.toHeader_freed ho hlo hhi, h.preFree_freed ho hlo hhi⟩

/-! ### What the steps keep -/

/-- `pre_malloc`. -/
theorem malloc (hinv : ClientInv r free elmt) {size : Int32} {mapped : Option Nat}
    (hpos : 0 < size.toNat) (hmod : size.toNat % 8 = 0) (hsize : size.toNat + 4100 ≤ 2 ^ 31)
    (hmaps : r.run.MapsFresh size.toNat mapped)
    (hlow : let len := (source r.run.heap size.toNat).mapLength size.toNat
      ∀ z, mapped = some z → 0 < len → z + len ≤ 2 ^ 32) {s' : Heap} {h : Nat}
    (hmalloc : Malloc r.run.heap size mapped s' h) :
    ∃ free', ClientInv ⟨r.run.allocated s' size.toNat h, r.freed.filter fun o =>
      decide (Apart o.header (4 + o.size) h (taken r.run.heap size.toNat))⟩ free'
        (r.run.allocatedElmt elmt size.toNat h) := by
  have hclass := clientSize_classOf hmod
  have huniform : r.run.Uniform clientSize size.toNat mapped := by
    refine ⟨fun _ => hclass, fun z hz hlen => ?_⟩
    have hend := hlow z hz hlen
    exact ⟨by omega, hinv.heap.lowFresh hinv.zone_low hmaps hz hlen hend⟩
  have hfit : r.run.SlotsFit (.malloc size mapped) :=
    hinv.grid.slotsFit_malloc hinv.heap fun _ => hclass
  obtain ⟨free', hheap', hgrid', hsub, hkeep⟩ :=
    hinv.grid.malloc hinv.heap hsize hmaps huniform hmalloc
  have htaken := add_le_taken r.run.heap size.toNat
  have hzone := hmalloc.zone
  refine ⟨free', hheap', hgrid', ?_, ?_, ?_, ?_, ?_, ?_⟩
  · exact hmalloc.zone_low hinv.zone_low hlow
  · intro o ho
    rcases List.mem_cons.mp ho with rfl | hold
    · exact ⟨by dsimp only; omega, hmod⟩
    · exact hinv.live_size o hold
  · exact hinv.bump.malloc hinv.heap hmaps hfit hmalloc
  · intro c x hx
    have hne : h ≠ x := hheap'.free_dead c x hx ⟨h, size.toNat⟩ List.mem_cons_self
    have hfits := hinv.heap.free_fits c x (hsub c x hx)
    have hapart := hinv.heap.slot_taken hmaps hfit hmalloc hne.symm (by omega)
    exact (header_frame hmalloc.sameOutside hapart (by omega)).trans
      (hinv.free_header c x (hsub c x hx))
  · intro o ho hsmall
    obtain ⟨hold, hapart⟩ := List.mem_filter.mp ho
    obtain ⟨hfree, hsize8⟩ := hinv.freed_small o hold hsmall
    refine ⟨hkeep _ _ hfree ?_, hsize8⟩
    intro heq
    subst heq
    have := of_decide_eq_true hapart
    unfold Apart at this
    omega
  · intro o ho hlarge
    obtain ⟨hold, hapart⟩ := List.mem_filter.mp ho
    obtain ⟨hmax, hsep⟩ := hinv.freed_large o hold hlarge
    refine ⟨hmax, fun b hb => ?_⟩
    rcases hzone with heq | ⟨-, -, heq⟩ <;> rw [heq] at hb ⊢
    · exact hsep b hb
    · by_cases hbh : b = h
      · subst hbh
        have := of_decide_eq_true hapart
        have hmapped := mapLength_le_taken r.run.heap size.toNat
        rw [Function.update_self]
        unfold Apart at this ⊢
        omega
      · rw [Function.update_of_ne hbh] at hb ⊢
        exact hsep b hb

/-- The freed objects after `pre_free`. -/
theorem mem_freed (hinv : ClientInv r free elmt) {o o' : Obj} (ho : o ∈ r.run.live)
    (ho' : o' ∈ r.run.live.filter (fun x => x.header == o.header) ++ r.freed) :
    o' = o ∨ o' ∈ r.freed := by
  rcases List.mem_append.mp ho' with hnew | hold
  · obtain ⟨hlive, heq⟩ := List.mem_filter.mp hnew
    exact .inl (hinv.heap.live_unique hlive ho (beq_iff_eq.mp heq))
  · exact .inr hold

/-- `pre_free` of a small object. -/
theorem free_small (hinv : ClientInv r free elmt) {s' : Heap} {o : Obj} (ho : o ∈ r.run.live)
    (hne : o.header ≠ 0) (hsmall : o.size < 8192)
    (hmem : s'.mem = write64 (write32 r.run.heap.mem o.header 0) (o.header + 4)
      (BitVec.ofNat 64 (r.run.heap.allocator (classOf o.size)).first))
    (hdesc : s'.desc = r.run.heap.desc)
    (halloc : s'.allocator = Function.update r.run.heap.allocator (classOf o.size)
      { r.run.heap.allocator (classOf o.size) with first := o.header }) :
    ClientInv ⟨r.run.released s' o.header,
        r.run.live.filter (fun x => x.header == o.header) ++ r.freed⟩
      (Function.update free (classOf o.size) (o.header :: free (classOf o.size))) elmt := by
  obtain ⟨hbig, hmod⟩ := hinv.live_size o ho
  have hwide := hinv.grid.slotWidth_le_slot hinv.heap ho
  have htwelve := twelve_le_slotWidth (show 5 ≤ o.size by omega)
  obtain ⟨-, hzone⟩ := hinv.heap.released_of_small s' ho hsmall
  have hsame : SameOutside r.run.heap.mem s'.mem o.header 12 := by
    rw [hmem]
    exact sameOutside_link _ _ _
  refine ⟨hinv.heap.released_small ho hne hsmall (by omega) hmem halloc,
    hinv.grid.released_small hinv.heap ho hsmall hdesc halloc, ?_, ?_, ?_, ?_, ?_, ?_⟩
  · rw [hzone]
    exact hinv.zone_low
  · exact fun o' ho' => hinv.live_size o' (HeapInv.mem_released.mp ho').1
  · intro c a hlo hhi
    have hregion : (s'.allocator c).currentZone = (r.run.heap.allocator c).currentZone ∧
        (s'.allocator c).endZone = (r.run.heap.allocator c).endZone := by
      by_cases hc : c = classOf o.size <;> simp [halloc, hc]
    exact hinv.bump.slot hinv.heap hsame (Nat.le_refl _) (by omega) (by omega)
      (hregion.1 ▸ hlo) (hregion.2 ▸ hhi)
  · have hself : read32 s'.mem o.header = 0 := by
      rw [hmem]
      exact (readBytes_writeBytes_of_apart (.inl (Nat.le_refl _))).trans
        (read32_write32_self _ _ _)
    have hother : ∀ c, ∀ x ∈ free c, read32 s'.mem x = 0 := by
      intro c x hx
      have hfits := hinv.heap.free_fits c x hx
      have hne := (hinv.heap.free_dead c x hx o ho).symm
      have hsep := hinv.heap.slot_apart hne (by omega) (show 0 < 12 by omega) (by omega)
      exact (header_frame hsame hsep (by omega)).trans (hinv.free_header c x hx)
    intro c x hx
    rcases mem_update_cons hx with hold | ⟨rfl, -⟩
    · exact hother c x hold
    · exact hself
  · intro o' ho' hsmall'
    rcases hinv.mem_freed ho ho' with rfl | hold
    · rw [Function.update_self]
      exact ⟨List.mem_cons_self, hmod⟩
    · obtain ⟨hfree, hmod'⟩ := hinv.freed_small o' hold hsmall'
      refine ⟨?_, hmod'⟩
      by_cases hc : classOf o'.size = classOf o.size
      · rw [hc, Function.update_self]
        exact List.mem_cons_of_mem _ (hc ▸ hfree)
      · rwa [Function.update_of_ne hc]
  · intro o' ho' hlarge
    rw [hzone]
    rcases hinv.mem_freed ho ho' with rfl | hold
    · omega
    · exact hinv.freed_large o' hold hlarge

/-- `pre_free` of a large object. -/
theorem free_large (hinv : ClientInv r free elmt) {s' : Heap} {o : Obj} (ho : o ∈ r.run.live)
    (hlarge : 8192 ≤ o.size) (hmem : s'.mem = r.run.heap.mem) {len : Int32}
    (hlen : len.toNat = pageRound (slotWidth o.size))
    (hdesc : s'.desc = hashZone r.run.heap.desc o.header len 0 0)
    (halloc : s'.allocator = r.run.heap.allocator) :
    ClientInv ⟨r.run.released s' o.header,
      r.run.live.filter (fun x => x.header == o.header) ++ r.freed⟩ free elmt := by
  obtain ⟨-, hwhole⟩ := hinv.heap.live_large o ho hlarge
  have hfit := hinv.heap.live_fits o ho
  refine ⟨hinv.heap.released_large ho hlarge hmem halloc,
    hinv.grid.released_large hinv.heap ho hlarge hlen hdesc halloc, ?_, ?_, ?_, ?_, ?_, ?_⟩
  · intro b hb
    obtain ⟨-, heq⟩ := hinv.heap.released_zone ho hlarge hb
    rw [heq] at hb ⊢
    exact hinv.zone_low b hb
  · exact fun o' ho' => hinv.live_size o' (HeapInv.mem_released.mp ho').1
  · intro c a hlo hhi
    show s'.mem a = 0
    rw [hmem]
    exact hinv.bump c a (halloc ▸ hlo) (halloc ▸ hhi)
  · intro c x hx
    show read32 s'.mem x = 0
    rw [hmem]
    exact hinv.free_header c x hx
  · intro o' ho' hsmall
    rcases hinv.mem_freed ho ho' with rfl | hold
    · omega
    · exact hinv.freed_small o' hold hsmall
  · intro o' ho' hlarge'
    rcases hinv.mem_freed ho ho' with rfl | hold
    · have hlow := hinv.zone_low o'.header (by omega)
      refine ⟨by omega, fun b hb => ?_⟩
      obtain ⟨hne, heq⟩ := hinv.heap.released_zone ho hlarge hb
      rw [heq] at hb ⊢
      have hsep : Apart o'.header (r.run.zone o'.header) b (r.run.zone b) :=
        hinv.heap.layout.zone_sep _ _ hne.symm (show 0 < r.run.zone o'.header by omega) hb
      unfold Apart at hsep ⊢
      omega
    · obtain ⟨hmax, hsep⟩ := hinv.freed_large o' hold hlarge'
      refine ⟨hmax, fun b hb => ?_⟩
      obtain ⟨-, heq⟩ := hinv.heap.released_zone ho hlarge hb
      rw [heq] at hb ⊢
      exact hsep b hb

/-- `pre_free` finds the header of the object. -/
theorem release (hinv : ClientInv r free elmt) {o : Obj} (ho : o ∈ r.run.live) {s' : Heap}
    (hok : r.run.heap.preFree (toObject o.header) = .ok s') :
    o.header ≠ 0 ∧ Release r.run.heap o.header s' := by
  obtain ⟨hpos, -⟩ := hinv.live_size o ho
  exact hinv.grid.widthGrid.release hinv.heap hinv.zone_low ho (by omega) hok

/-- `pre_free`. -/
theorem preFree (hinv : ClientInv r free elmt) {o : Obj} (ho : o ∈ r.run.live) {s' : Heap}
    (hok : r.run.heap.preFree (toObject o.header) = .ok s') :
    ∃ free', ClientInv ⟨r.run.released s' o.header,
      r.run.live.filter (fun x => x.header == o.header) ++ r.freed⟩ free' elmt := by
  have hstored := hinv.heap.live_header o ho
  have hmax := hinv.heap.live_size o ho
  obtain ⟨hne, hrelease⟩ := hinv.release ho hok
  rcases hrelease with ⟨hsmall, hmem, hdesc, halloc⟩ | ⟨hlarge, hmem, hdesc, halloc⟩
  · rw [hstored] at hmem halloc hsmall
    exact ⟨_, hinv.free_small ho hne hsmall hmem hdesc halloc⟩
  · have hlen := largeZone_toNat
      (show (read32 r.run.heap.mem o.header).toNat < 2 ^ 31 by omega)
    rw [hstored] at hlarge hlen
    exact ⟨_, hinv.free_large ho hlarge hmem hlen hdesc halloc⟩

/-- A client write. -/
theorem written (hinv : ClientInv r free elmt) {o : Obj} (ho : o ∈ r.run.live) {a : Nat}
    (v : BitVec 8) (hlo : o.header + 4 ≤ a) (hhi : a < o.header + 4 + o.size) :
    ClientInv ⟨r.run.written a v, r.freed⟩ free elmt := by
  have hfit := hinv.heap.live_fits o ho
  have hsame : SameOutside r.run.heap.mem (Function.update r.run.heap.mem a v) a 1 :=
    fun x hx => Function.update_of_ne (by omega) _ _
  have hgrid := hinv.grid
  refine ⟨hinv.heap.written ho v hlo hhi,
    ⟨hgrid.desc, hgrid.live, hgrid.live_small, hgrid.free, hgrid.bump⟩, hinv.zone_low,
    hinv.live_size, ?_, ?_, hinv.freed_small, hinv.freed_large⟩
  · intro c x hx hx'
    exact hinv.bump.slot hinv.heap hsame (show o.header ≤ a by omega) (by omega) (by omega) hx hx'
  · intro c x hx
    have hfits := hinv.heap.free_fits c x hx
    have hne := (hinv.heap.free_dead c x hx o ho).symm
    have hsep := hinv.heap.slot_sep hne (by omega) (show 0 < r.run.slot o.header by omega)
    refine (header_frame hsame (show Apart x 4 a 1 from ?_) (Nat.le_refl 4)).trans
      (hinv.free_header c x hx)
    unfold Apart at hsep ⊢
    omega

end ClientInv

/-! ## The run -/

/-- Every step of a client keeps the invariant. -/
theorem clientInv_step (r : ClientRun) (e : HeapEvent) (r' : ClientRun)
    (hinv : ∃ free elmt, ClientInv r free elmt) (hallowed : r.Allowed e)
    (hstep : r.step e = some r') : ∃ free elmt, ClientInv r' free elmt := by
  rcases hinv with ⟨free, elmt, hinv⟩
  cases e with
  | malloc size mapped =>
    simp only [ClientRun.step] at hstep
    split at hstep
    · next s' h hok =>
      cases hstep
      rcases hallowed with ⟨hpos, hmod, hsize, hmaps, hlow⟩
      have hbound : size.toNat + 4100 ≤ 2 ^ 31 := by omega
      obtain ⟨free', hinv'⟩ :=
        hinv.malloc hpos hmod hbound hmaps hlow (preMalloc_cases (by omega) hok)
      exact ⟨free', _, hinv'⟩
    · cases hstep
  | free p =>
    rcases hallowed with ⟨o, ho, rfl, hsize⟩
    simp only [ClientRun.step, Nat.add_sub_cancel] at hstep
    split at hstep
    · next s' hok =>
      cases hstep
      obtain ⟨free', hinv'⟩ := hinv.preFree ho hok
      exact ⟨free', elmt, hinv'⟩
    · cases hstep
  | write a v =>
    rcases hallowed with ⟨o, ho, hlo, hhi⟩
    cases hstep
    exact ⟨_, _, hinv.written ho v hlo hhi⟩

/-- The allocator is sound in every run of a client. -/
theorem client_of_run {mem : Mem} {es : List HeapEvent} {r : ClientRun}
    (hok : RunOk ClientRun.step ClientRun.Allowed (ClientRun.init mem) es)
    (hrun : run ClientRun.step (ClientRun.init mem) es = some r) : ∃ free, r.Sound free := by
  obtain ⟨free, elmt, hinv⟩ := run_invariant_of_ok clientInv_step es _ r
    ⟨_, _, clientInv_init mem⟩ hok hrun
  exact ⟨free, hinv.sound⟩

/-- The first allocation of a client, with its zone in the first 4 GiB. -/
theorem allowed_first {size : Int32} {z : Nat} (hpos : 0 < size.toNat)
    (hmod : size.toNat % 8 = 0) (hsize : size.toNat < 2 ^ 30) (hpage : z % 4096 = 0)
    (hend : z + (source (Heap.init fun _ => 0) size.toNat).mapLength size.toNat ≤ 2 ^ 32) :
    (ClientRun.init fun _ => 0).Allowed (.malloc size (some z)) := by
  refine ⟨hpos, hmod, hsize, mapsFresh_init _ hpage (Nat.lt_of_le_of_lt hend (by decide)), ?_⟩
  intro len z' hz _
  cases hz
  exact hend

/-- A small and a large object, both freed. -/
theorem client_freeBoth :
    ∃ r, run ClientRun.step (ClientRun.init fun _ => 0)
        [.malloc 16 (some 0x10000000), .malloc 8192 (some 0x20000000), .write 0x10000005 7,
          .free 0x10000004, .free 0x20000004] = some r ∧
      r.freed = [⟨0x20000000, 8192⟩, ⟨0x10000000, 16⟩] ∧ ∃ free, r.Sound free := by
  have hok : RunOk ClientRun.step ClientRun.Allowed (ClientRun.init fun _ => 0)
      [.malloc 16 (some 0x10000000), .malloc 8192 (some 0x20000000), .write 0x10000005 7,
        .free 0x10000004, .free 0x20000004] := by
    refine (runOk_cons_of_some rfl).mpr
      ⟨allowed_first (by decide) (by decide) (by decide) (by decide) (by decide), ?_⟩
    refine (runOk_cons_of_some rfl).mpr ⟨⟨by decide, by decide, by decide, ?_, ?_⟩, ?_⟩
    · intro z hz _
      cases hz
      refine ⟨by decide, by decide, by decide, fun b hb => ?_⟩
      have hb' : 0 < Function.update (fun _ : Nat => 0) 0x10000000 4096 b := hb
      obtain rfl : b = 0x10000000 := by
        by_contra hne
        rw [Function.update_of_ne hne] at hb'
        exact absurd hb' (Nat.lt_irrefl 0)
      decide
    · intro len z hz _
      cases hz
      decide
    refine (runOk_cons_of_some rfl).mpr ⟨⟨⟨0x10000000, 16⟩, by decide, by decide, by decide⟩, ?_⟩
    refine (runOk_cons_of_some rfl).mpr ⟨⟨⟨0x10000000, 16⟩, by decide, rfl, by decide⟩, ?_⟩
    exact (runOk_cons_of_some rfl).mpr
      ⟨⟨⟨0x20000000, 8192⟩, by decide, rfl, by decide⟩, trivial⟩
  exact ⟨_, rfl, rfl, client_of_run hok rfl⟩

end KernelMemVirt.Gc
