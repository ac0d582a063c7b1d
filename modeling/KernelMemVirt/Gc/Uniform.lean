import KernelMemVirt.Gc.Heap
import KernelMemVirt.Gc.Resolve

/-!
# Size classes of one width

A class holds up to four sizes, with slots of two widths.  In the runs of this
file each class `c` is used for slots of `ω c` bytes only.  Its zones are then
arrays of slots of one width, `heap_desc` has that width for each of them, and
`WidthGrid` says so for the live objects, the free slots and the bump regions.

`WidthGrid.slotsFit_malloc` is what this gives for the allocator: a free slot
always has the width of the next object of its class.  `Grid` is the case where
each class `c` is used for the size `σ c` only.
-/

namespace KernelMemVirt.Gc

open ByteMem FreeList

/-- The address `a` is at a multiple of `w` in a zone of elements of `w` bytes,
and the zone has `n` bytes from there on. -/
def OnGrid (zone elmt : Nat → Nat) (a w n : Nat) : Prop :=
  ∃ b i, a = b + i * w ∧ a + n ≤ b + zone b ∧ elmt b = w

theorem OnGrid.mono {zone elmt : Nat → Nat} {a w n k : Nat} (h : OnGrid zone elmt a w n)
    (hk : k ≤ n) : OnGrid zone elmt a w k := by
  rcases h with ⟨b, i, ha, hn, he⟩
  exact ⟨b, i, ha, by omega, he⟩

/-- Only the zone around the address counts. -/
theorem OnGrid.frame {zone zone' elmt elmt' : Nat → Nat} {a w n : Nat}
    (h : OnGrid zone elmt a w n)
    (hsame : ∀ b, b ≤ a → a + n ≤ b + zone b → zone' b = zone b ∧ elmt' b = elmt b) :
    OnGrid zone' elmt' a w n := by
  rcases h with ⟨b, i, ha, hn, he⟩
  obtain ⟨hzone, helmt⟩ := hsame b (by omega) hn
  exact ⟨b, i, ha, hzone ▸ hn, helmt ▸ he⟩

/-- A new zone leaves the grid of the others alone. -/
theorem OnGrid.openZone {zone elmt : Nat → Nat} {a w n h len e : Nat}
    (hgrid : OnGrid zone elmt a w n) (hn : 0 < n) (hzone : zone h = 0) :
    OnGrid (Function.update zone h len) (Function.update elmt h e) a w n :=
  hgrid.frame fun b hlo hhi => by
    have hbh : b ≠ h := by
      intro heq
      subst heq
      omega
    exact ⟨Function.update_of_ne hbh _ _, Function.update_of_ne hbh _ _⟩

/-- The heap is laid out in arrays; the slots of class `c` have `ω c` bytes. -/
structure WidthGrid (st : HeapRun) (ω elmt : Nat → Nat) (free : Nat → List Nat) : Prop where
  desc : DescInv st.heap.desc st.zone elmt
  live : ∀ o ∈ st.live, OnGrid st.zone elmt o.header (slotWidth o.size) (slotWidth o.size)
  live_small : ∀ o ∈ st.live, o.size < 8192 →
    st.slot o.header = slotWidth o.size ∧ ω (classOf o.size) = slotWidth o.size
  free : ∀ c, ∀ h ∈ free c, OnGrid st.zone elmt h (ω c) (ω c) ∧ st.slot h = ω c
  bump : ∀ c, (st.heap.allocator c).currentZone < (st.heap.allocator c).endZone →
    OnGrid st.zone elmt (st.heap.allocator c).currentZone (ω c)
      ((st.heap.allocator c).endZone - (st.heap.allocator c).currentZone)

theorem widthGrid_init (mem : Mem) (ω : Nat → Nat) :
    WidthGrid (HeapRun.init mem) ω (fun _ => 0) fun _ => [] where
  desc := descInv_init
  live := by simp [HeapRun.init]
  live_small := by simp [HeapRun.init]
  free := by simp
  bump := by simp [HeapRun.init, Heap.init]

/-- A malloc of a small object asks for a slot of the width of its class, and a new zone
shares no page number with the others. -/
def HeapRun.OneWidth (st : HeapRun) (ω : Nat → Nat) (size : Nat) (mapped : Option Nat) : Prop :=
  (size < 8192 → ω (classOf size) = slotWidth size) ∧
    let len := (source st.heap size).mapLength size
    ∀ z, mapped = some z → 0 < len → z + len < 2 ^ 63 ∧ LowFresh st.zone z len

theorem slotWidth_pos (n : Nat) : 0 < slotWidth n := by
  have := header_add_le_slotWidth n
  omega

theorem slotWidth_lt {n : Nat} (h : n + 4100 ≤ 2 ^ 31) : slotWidth n < 2 ^ 31 := by
  have := slotWidth_le n
  omega

/-- The widths of the elements after an allocation at `h`. -/
def HeapRun.allocatedElmt (st : HeapRun) (elmt : Nat → Nat) (size h : Nat) : Nat → Nat :=
  match source st.heap size with
  | .reuse | .cut => elmt
  | .newZone | .ownZone => Function.update elmt h (slotWidth size)

namespace WidthGrid

variable {st : HeapRun} {ω elmt : Nat → Nat} {free : Nat → List Nat}

/-- A free slot is as wide as the next object of its class. -/
theorem slotsFit_malloc (hinv : HeapInv st free) (hgrid : WidthGrid st ω elmt free) {size : Int32}
    {mapped : Option Nat}
    (hsize : size.toNat < 8192 → ω (classOf size.toNat) = slotWidth size.toNat) :
    st.SlotsFit (.malloc size mapped) := by
  intro hsource
  unfold source at hsource
  split at hsource
  · next hsmall =>
    dsimp only at hsource
    split at hsource
    · next hne =>
      obtain ⟨rest, hrest, -⟩ := (hinv.chain (classOf size.toNat)).eq_cons hne
      have hfree := (hgrid.free (classOf size.toNat) _ (hrest ▸ List.mem_cons_self)).2
      exact Nat.le_of_eq ((hsize hsmall).symm.trans hfree.symm)
    · split at hsource <;> cases hsource
  · cases hsource

/-! ## Allocation -/

theorem allocated_reuse (hinv : HeapInv st free) (hgrid : WidthGrid st ω elmt free) {s' : Heap}
    {size : Int32} {h : Nat} (hsource : source st.heap size.toNat = .reuse)
    (hfirst : (st.heap.allocator (classOf size.toNat)).first = h) (hne : h ≠ 0)
    (hdesc : s'.desc = st.heap.desc)
    (halloc : s'.allocator = Function.update st.heap.allocator (classOf size.toNat)
      { st.heap.allocator (classOf size.toNat) with
        first := (read64 st.heap.mem (h + 4)).toNat })
    (hclass : ω (classOf size.toNat) = slotWidth size.toNat) :
    WidthGrid (st.allocated s' size.toNat h) ω elmt
      (Function.update free (classOf size.toNat) (free (classOf size.toNat)).tail) := by
  have hslot : (st.allocated s' size.toNat h).slot = st.slot := by
    simp [HeapRun.allocated, hsource]
  have hzone : (st.allocated s' size.toNat h).zone = st.zone := by
    simp [HeapRun.allocated, hsource]
  have hchain := hinv.chain (classOf size.toNat)
  rw [hfirst] at hchain
  obtain ⟨rest, hrest, -⟩ := hchain.eq_cons hne
  obtain ⟨hcell, hwidth⟩ := hgrid.free (classOf size.toNat) h (hrest ▸ List.mem_cons_self)
  rw [hclass] at hcell hwidth
  refine ⟨?_, ?_, ?_, ?_, ?_⟩
  · rw [hzone]
    exact hdesc ▸ hgrid.desc
  · intro o ho
    rw [hzone]
    rcases List.mem_cons.mp ho with rfl | hold
    · exact hcell
    · exact hgrid.live o hold
  · intro o ho hsmall
    rw [hslot]
    rcases List.mem_cons.mp ho with rfl | hold
    · exact ⟨hwidth, hclass⟩
    · exact hgrid.live_small o hold hsmall
  · intro c x hx
    rw [hslot, hzone]
    by_cases hc : c = classOf size.toNat
    · subst hc
      rw [Function.update_self] at hx
      exact hgrid.free _ x (List.mem_of_mem_tail hx)
    · rw [Function.update_of_ne hc] at hx
      exact hgrid.free c x hx
  · intro c hc
    rw [hzone]
    by_cases heq : c = classOf size.toNat
    · subst heq
      have hold := hgrid.bump (classOf size.toNat)
      simp only [HeapRun.allocated, halloc, Function.update_self] at hc ⊢
      exact hold hc
    · have hold := hgrid.bump c
      simp only [HeapRun.allocated, halloc, Function.update_of_ne heq] at hc ⊢
      exact hold hc

theorem allocated_cut (hinv : HeapInv st free) (hgrid : WidthGrid st ω elmt free) {s' : Heap}
    {size : Int32} {h : Nat} (hsource : source st.heap size.toNat = .cut)
    (hlo : (st.heap.allocator (classOf size.toNat)).currentZone = h)
    (hfit : h + slotWidth size.toNat ≤ (st.heap.allocator (classOf size.toNat)).endZone)
    (hdesc : s'.desc = st.heap.desc)
    (halloc : s'.allocator = Function.update st.heap.allocator (classOf size.toNat)
      { st.heap.allocator (classOf size.toNat) with currentZone := h + slotWidth size.toNat })
    (hclass : ω (classOf size.toNat) = slotWidth size.toNat) :
    WidthGrid (st.allocated s' size.toNat h) ω elmt free := by
  have hpos := slotWidth_pos size.toNat
  have hslot : (st.allocated s' size.toNat h).slot
      = Function.update st.slot h (slotWidth size.toNat) := by
    simp [HeapRun.allocated, hsource]
  have hzone : (st.allocated s' size.toNat h).zone = st.zone := by
    simp [HeapRun.allocated, hsource]
  obtain ⟨b, i, hb, hend, he⟩ := hgrid.bump (classOf size.toNat) (by omega)
  rw [hclass] at hb he
  have hother : ∀ x, 0 < st.slot x → x ≠ h := by
    intro x hx heq
    subst heq
    have hsep : Apart x (st.slot x) (st.heap.allocator (classOf size.toNat)).currentZone
        ((st.heap.allocator (classOf size.toNat)).endZone
          - (st.heap.allocator (classOf size.toNat)).currentZone) :=
      hinv.layout.bump_slot (classOf size.toNat) x
        (show (st.heap.allocator _).currentZone < (st.heap.allocator _).endZone by omega) hx
    unfold Apart at hsep
    omega
  refine ⟨?_, ?_, ?_, ?_, ?_⟩
  · rw [hzone]
    exact hdesc ▸ hgrid.desc
  · intro o ho
    rw [hzone]
    rcases List.mem_cons.mp ho with rfl | hold
    · show OnGrid st.zone elmt h (slotWidth size.toNat) (slotWidth size.toNat)
      exact ⟨b, i, hlo ▸ hb, by omega, he⟩
    · exact hgrid.live o hold
  · intro o ho hsmall
    rw [hslot]
    rcases List.mem_cons.mp ho with rfl | hold
    · exact ⟨Function.update_self h _ _, hclass⟩
    · have hfits := hinv.live_fits o hold
      rw [Function.update_of_ne (hother _ (by omega))]
      exact hgrid.live_small o hold hsmall
  · intro c x hx
    have hfits := hinv.free_fits c x hx
    rw [hslot, hzone, Function.update_of_ne (hother x (by omega))]
    exact hgrid.free c x hx
  · intro c hc
    rw [hzone]
    by_cases heq : c = classOf size.toNat
    · subst heq
      simp only [HeapRun.allocated, halloc, Function.update_self] at hc ⊢
      rw [hclass]
      exact ⟨b, i + 1, by rw [Nat.add_mul]; omega, by omega, he⟩
    · have hold := hgrid.bump c
      simp only [HeapRun.allocated, halloc, Function.update_of_ne heq] at hc ⊢
      exact hold hc

/-- A zone for a class or for one object is mapped at `h`. -/
theorem allocated_fresh (hinv : HeapInv st free) (hgrid : WidthGrid st ω elmt free) {s' : Heap}
    {size len : Int32} {h width : Nat} (hsize : size.toNat + 4100 ≤ 2 ^ 31)
    (hpage : h % 4096 = 0) (hlen : len.toNat % 4096 = 0)
    (hroom : slotWidth size.toNat ≤ len.toNat) (hend : h + len.toNat < 2 ^ 63)
    (hfresh : st.layout.Fresh h len.toNat) (hlow : LowFresh st.zone h len.toNat)
    (hzone : (st.allocated s' size.toNat h).zone = Function.update st.zone h len.toNat)
    (hslot : (st.allocated s' size.toNat h).slot = Function.update st.slot h width)
    (hwidth : size.toNat < 8192 → width = slotWidth size.toNat ∧
      ω (classOf size.toNat) = slotWidth size.toNat)
    (hdesc : s'.desc = hashZone st.heap.desc h len (totalSize size) (-1))
    (hbump : ∀ c, (s'.allocator c).currentZone < (s'.allocator c).endZone →
      (s'.allocator c) = (st.heap.allocator c) ∨ ω c = slotWidth size.toNat ∧
        (s'.allocator c).currentZone = h + slotWidth size.toNat ∧
          (s'.allocator c).endZone = h + len.toNat) :
    WidthGrid (st.allocated s' size.toNat h) ω (Function.update elmt h (slotWidth size.toNat))
      free := by
  have hlt := slotWidth_lt hsize
  have hpos := slotWidth_pos size.toNat
  have hlenPos : 0 < len.toNat := by omega
  have hempty : st.zone h = 0 := hfresh.zone_eq_zero
  have hother : ∀ x, 0 < st.slot x → x ≠ h := by
    intro x hx heq
    subst heq
    have hsep : Apart x (st.slot x) x len.toNat := hinv.layout.slot_fresh hfresh hx
    unfold Apart at hsep
    omega
  refine ⟨?_, ?_, ?_, ?_, ?_⟩
  · have htot := totalSize_toNat (show size.toNat < 2 ^ 31 by omega)
    rw [hzone, ← htot]
    rw [← htot] at hlt hpos
    exact hdesc ▸ hgrid.desc.openZone hpage hlen hlenPos hend hpos hlt hempty hlow
  · intro o ho
    rw [hzone]
    rcases List.mem_cons.mp ho with rfl | hold
    · exact ⟨h, 0, by simp, by simpa using hroom, by simp⟩
    · exact (hgrid.live o hold).openZone (slotWidth_pos _) hempty
  · intro o ho hsmall
    rw [hslot]
    rcases List.mem_cons.mp ho with rfl | hold
    · rw [Function.update_self]
      exact hwidth hsmall
    · have hfits := hinv.live_fits o hold
      rw [Function.update_of_ne (hother _ (by omega))]
      exact hgrid.live_small o hold hsmall
  · intro c x hx
    have hfits := hinv.free_fits c x hx
    obtain ⟨hcell, hw⟩ := hgrid.free c x hx
    rw [hslot, hzone, Function.update_of_ne (hother x (by omega))]
    exact ⟨hcell.openZone (by omega) hempty, hw⟩
  · intro c hc
    rw [hzone]
    rcases hbump c hc with hold | ⟨hclass, hcur, hstop⟩
    · simp only [HeapRun.allocated, hold] at hc ⊢
      exact (hgrid.bump c hc).openZone (by omega) hempty
    · simp only [HeapRun.allocated, hcur, hstop, hclass] at hc ⊢
      exact ⟨h, 1, by omega, by rw [Function.update_self]; omega, by simp⟩

theorem allocated_newZone (hinv : HeapInv st free) (hgrid : WidthGrid st ω elmt free) {s' : Heap}
    {size : Int32} {h : Nat} (hsource : source st.heap size.toNat = .newZone)
    (hsize : size.toNat < 8192) (hmaps : st.MapsFresh size.toNat (some h))
    (hdesc : s'.desc =
      hashZone st.heap.desc h (align (totalSize size * 32) 4096) (totalSize size) (-1))
    (halloc : s'.allocator = Function.update st.heap.allocator (classOf size.toNat)
      ⟨0, h + slotWidth size.toNat, h + pageRound (32 * slotWidth size.toNat)⟩)
    (hone : st.OneWidth ω size.toNat (some h)) :
    WidthGrid (st.allocated s' size.toNat h) ω (Function.update elmt h (slotWidth size.toNat))
      free := by
  have hpos := slotWidth_pos size.toNat
  have hround := le_pageRound (32 * slotWidth size.toNat)
  have hlen := classZone_toNat hsize
  have hbytes : 0 < (source st.heap size.toNat).mapLength size.toNat := by
    rw [hsource]
    show 0 < pageRound _
    omega
  obtain ⟨hpage, -, hfresh⟩ := hmaps h rfl hbytes
  obtain ⟨hend, hlow⟩ := hone.2 h rfl hbytes
  rw [hsource, Source.mapLength, ← hlen] at hfresh hend hlow
  refine hgrid.allocated_fresh hinv (by omega) hpage (hlen ▸ pageRound_mod _) (by omega) hend
    hfresh hlow ?_ ?_ (fun hsmall => ⟨rfl, hone.1 hsmall⟩) hdesc fun c _ => ?_
  · rw [hlen]
    simp [HeapRun.allocated, hsource]
  · simp [HeapRun.allocated, hsource]
  · by_cases hc : c = classOf size.toNat
    · subst hc
      exact .inr ⟨hone.1 hsize, by simp [halloc], by rw [hlen]; simp [halloc]⟩
    · exact .inl (by rw [halloc, Function.update_of_ne hc])

theorem allocated_ownZone (hinv : HeapInv st free) (hgrid : WidthGrid st ω elmt free) {s' : Heap}
    {size : Int32} {h : Nat} (hsource : source st.heap size.toNat = .ownZone)
    (hlarge : 8192 ≤ size.toNat) (hsize : size.toNat + 4100 ≤ 2 ^ 31)
    (hmaps : st.MapsFresh size.toNat (some h))
    (hdesc : s'.desc = hashZone st.heap.desc h (align (totalSize size) 4096) (totalSize size) (-1))
    (halloc : s'.allocator = st.heap.allocator)
    (hone : st.OneWidth ω size.toNat (some h)) :
    WidthGrid (st.allocated s' size.toNat h) ω (Function.update elmt h (slotWidth size.toNat))
      free := by
  have hpos := slotWidth_pos size.toNat
  have hround := le_pageRound (slotWidth size.toNat)
  have hlen := largeZone_toNat (show size.toNat < 2 ^ 31 by omega)
  have hbytes : 0 < (source st.heap size.toNat).mapLength size.toNat := by
    rw [hsource]
    show 0 < pageRound _
    omega
  obtain ⟨hpage, -, hfresh⟩ := hmaps h rfl hbytes
  obtain ⟨hend, hlow⟩ := hone.2 h rfl hbytes
  rw [hsource, Source.mapLength, ← hlen] at hfresh hend hlow
  have hslot : (st.allocated s' size.toNat h).slot
      = Function.update st.slot h (pageRound (slotWidth size.toNat)) := by
    simp [HeapRun.allocated, hsource]
  refine hgrid.allocated_fresh hinv hsize hpage (hlen ▸ pageRound_mod _) (by omega) hend
    hfresh hlow ?_ hslot (fun hsmall => absurd hsmall (by omega)) hdesc
    fun c _ => .inl (by rw [halloc])
  rw [hlen]
  simp [HeapRun.allocated, hsource]

/-- `pre_malloc` keeps the grid. -/
theorem malloc (hinv : HeapInv st free) (hgrid : WidthGrid st ω elmt free) {s' : Heap}
    {size : Int32} {mapped : Option Nat} {h : Nat} (hsize : size.toNat + 4100 ≤ 2 ^ 31)
    (hmaps : st.MapsFresh size.toNat mapped) (hone : st.OneWidth ω size.toNat mapped)
    (hmalloc : Malloc st.heap size mapped s' h) :
    ∃ free', HeapInv (st.allocated s' size.toNat h) free' ∧
      WidthGrid (st.allocated s' size.toNat h) ω (st.allocatedElmt elmt size.toNat h) free' ∧
        (∀ c, ∀ x ∈ free' c, x ∈ free c) ∧ ∀ c, ∀ x ∈ free c, x ≠ h → x ∈ free' c := by
  have hfit : st.SlotsFit (.malloc size mapped) := hgrid.slotsFit_malloc hinv hone.1
  unfold HeapRun.allocatedElmt
  rcases hmalloc with
    ⟨hsource, hsmall, hfirst, hne, hmem, hdesc, halloc⟩ |
    ⟨hsource, hsmall, hlo, hend, hfirst, hmem, hdesc, halloc⟩ |
    ⟨hsource, hsmall, rfl, hfirst, hmem, hdesc, halloc⟩ |
    ⟨hsource, hlarge, rfl, hmem, hdesc, halloc⟩ <;> rw [hsource]
  · refine ⟨_,
      hinv.allocated_reuse hsource hsmall hfirst hne hmem halloc (hfirst ▸ hfit hsource),
      hgrid.allocated_reuse hinv hsource hfirst hne hdesc halloc (hone.1 hsmall),
      fun c x hx => ?_, fun c x hx hxh => ?_⟩
    · by_cases hc : c = classOf size.toNat
      · subst hc
        rw [Function.update_self] at hx
        exact List.mem_of_mem_tail hx
      · rwa [Function.update_of_ne hc] at hx
    · by_cases hc : c = classOf size.toNat
      · subst hc
        have hchain := hinv.chain (classOf size.toNat)
        rw [hfirst] at hchain
        obtain ⟨rest, hrest, -⟩ := hchain.eq_cons hne
        rw [hrest] at hx
        rw [Function.update_self, hrest, List.tail_cons]
        exact (List.mem_cons.mp hx).resolve_left hxh
      · rwa [Function.update_of_ne hc]
  · exact ⟨_, hinv.allocated_cut hsource hsmall hlo hend hmem halloc,
      hgrid.allocated_cut hinv hsource hlo hend hdesc halloc (hone.1 hsmall),
      fun _ _ hx => hx, fun _ _ hx _ => hx⟩
  · exact ⟨_, hinv.allocated_newZone hsource hsmall hmaps hfirst hmem halloc,
      hgrid.allocated_newZone hinv hsource hsmall hmaps hdesc halloc hone,
      fun _ _ hx => hx, fun _ _ hx _ => hx⟩
  · exact ⟨_, hinv.allocated_ownZone hsource hsize hmaps hmem halloc,
      hgrid.allocated_ownZone hinv hsource hlarge hsize hmaps hdesc halloc hone,
      fun _ _ hx => hx, fun _ _ hx _ => hx⟩

/-! ## Release -/

/-- A slot is at least as wide as the elements of its zone. -/
theorem slotWidth_le_slot (hinv : HeapInv st free) (hgrid : WidthGrid st ω elmt free) {o : Obj}
    (ho : o ∈ st.live) : slotWidth o.size ≤ st.slot o.header := by
  by_cases hsmall : o.size < 8192
  · exact Nat.le_of_eq (hgrid.live_small o ho hsmall).1.symm
  · obtain ⟨hlength, hwhole⟩ := hinv.live_large o ho (by omega)
    rw [hwhole, hlength]
    exact le_pageRound _

theorem released_small (hinv : HeapInv st free) (hgrid : WidthGrid st ω elmt free) {s' : Heap}
    {o : Obj} (ho : o ∈ st.live) (hsize : o.size < 8192) (hdesc : s'.desc = st.heap.desc)
    (halloc : s'.allocator = Function.update st.heap.allocator (classOf o.size)
      { st.heap.allocator (classOf o.size) with first := o.header }) :
    WidthGrid (st.released s' o.header) ω elmt
      (Function.update free (classOf o.size) (o.header :: free (classOf o.size))) := by
  obtain ⟨hslot, hzone⟩ := hinv.released_of_small s' ho hsize
  obtain ⟨hwidth, hclass⟩ := hgrid.live_small o ho hsize
  refine ⟨?_, ?_, ?_, ?_, ?_⟩
  · rw [hzone]
    exact hdesc ▸ hgrid.desc
  · intro o' ho'
    rw [hzone]
    exact hgrid.live o' (HeapInv.mem_released.mp ho').1
  · intro o' ho' hsmall
    rw [hslot]
    exact hgrid.live_small o' (HeapInv.mem_released.mp ho').1 hsmall
  · intro c x hx
    rw [hslot, hzone]
    rcases mem_update_cons hx with hold | ⟨rfl, rfl⟩
    · exact hgrid.free c x hold
    · rw [hclass]
      exact ⟨hgrid.live o ho, hwidth⟩
  · intro c hc
    rw [hzone]
    have hold := hgrid.bump c
    by_cases heq : c = classOf o.size
    · subst heq
      simp only [HeapRun.released, halloc, Function.update_self] at hc ⊢
      exact hold hc
    · simp only [HeapRun.released, halloc, Function.update_of_ne heq] at hc ⊢
      exact hold hc

/-- A large object has its zone for itself, and the grids of the other zones stay. -/
theorem released_large (hinv : HeapInv st free) (hgrid : WidthGrid st ω elmt free) {s' : Heap}
    {o : Obj} (ho : o ∈ st.live) (hlarge : 8192 ≤ o.size) {len : Int32}
    (hlen : len.toNat = pageRound (slotWidth o.size))
    (hdesc : s'.desc = hashZone st.heap.desc o.header len 0 0)
    (halloc : s'.allocator = st.heap.allocator) :
    WidthGrid (st.released s' o.header) ω elmt free := by
  obtain ⟨hslot, hzone⟩ := hinv.released_of_large s' ho hlarge
  obtain ⟨hlength, hwhole⟩ := hinv.live_large o ho hlarge
  have hfit := hinv.live_fits o ho
  have hkeep : ∀ {a w n : Nat}, Apart a n o.header (st.slot o.header) → 0 < n →
      OnGrid st.zone elmt a w n → OnGrid (Function.update st.zone o.header 0) elmt a w n := by
    intro a w n hsep hn hcell
    refine hcell.frame fun b hlo hhi => ?_
    have hb : b ≠ o.header := by
      intro heq
      subst heq
      unfold Apart at hsep
      omega
    exact ⟨Function.update_of_ne hb _ _, rfl⟩
  refine ⟨?_, ?_, ?_, ?_, ?_⟩
  · rw [hzone]
    exact hdesc ▸ hgrid.desc.closeZone (by omega) (by omega)
  · intro o' ho'
    obtain ⟨hold, hne⟩ := HeapInv.mem_released.mp ho'
    have hfit' := hinv.live_fits o' hold
    have hwidth := hgrid.slotWidth_le_slot hinv hold
    have hsep := hinv.slot_sep hne (by omega) (show 0 < st.slot o.header by omega)
    rw [hzone]
    refine hkeep ?_ (slotWidth_pos _) (hgrid.live o' hold)
    unfold Apart at hsep ⊢
    omega
  · intro o' ho' hsmall
    obtain ⟨hold, hne⟩ := HeapInv.mem_released.mp ho'
    rw [hslot, Function.update_of_ne hne]
    exact hgrid.live_small o' hold hsmall
  · intro c x hx
    obtain ⟨hcell, hwidth⟩ := hgrid.free c x hx
    have hne := (hinv.free_dead c x hx o ho).symm
    have hfits := hinv.free_fits c x hx
    have hsep := hinv.slot_sep hne (by omega) (show 0 < st.slot o.header by omega)
    rw [hslot, hzone, Function.update_of_ne hne]
    exact ⟨hkeep (hwidth ▸ hsep) (by omega) hcell, hwidth⟩
  · intro c hc
    rw [hzone]
    simp only [HeapRun.released, halloc] at hc ⊢
    have hsep : Apart o.header (st.slot o.header) (st.heap.allocator c).currentZone
        ((st.heap.allocator c).endZone - (st.heap.allocator c).currentZone) :=
      hinv.layout.bump_slot c o.header hc (show 0 < st.slot o.header by omega)
    exact hkeep hsep.symm (by omega) (hgrid.bump c hc)

/-- A client write does not show in the layout. -/
theorem written (hgrid : WidthGrid st ω elmt free) (a : Nat) (v : BitVec 8) :
    WidthGrid (st.written a v) ω elmt free :=
  ⟨hgrid.desc, hgrid.live, hgrid.live_small, hgrid.free, hgrid.bump⟩

/-- With zones in the first 4 GiB, a pointer into a live object is resolved. -/
theorem toHeader_live (hinv : HeapInv st free) (hgrid : WidthGrid st ω elmt free)
    (hlow : ∀ b, 0 < st.zone b → b + st.zone b ≤ 2 ^ 32) {o : Obj} (ho : o ∈ st.live) {p : Nat}
    (hlo : o.header + 4 ≤ p) (hhi : p < o.header + 4 + o.size) :
    st.heap.toHeader p = .ok o.header := by
  obtain ⟨b, i, hb, hin, he⟩ := hgrid.live o ho
  have hroom := header_add_le_slotWidth o.size
  have hheader := hinv.live_header o ho
  rw [hgrid.desc.toHeader_low (hlow b (by omega)) (he ▸ hb) hlo (by omega) (by omega),
    if_pos (by omega)]

/-- `pre_free` finds the header of a live object. -/
theorem release (hinv : HeapInv st free) (hgrid : WidthGrid st ω elmt free)
    (hlow : ∀ b, 0 < st.zone b → b + st.zone b ≤ 2 ^ 32) {o : Obj} (ho : o ∈ st.live)
    (hpos : 0 < o.size) {s' : Heap} (hok : st.heap.preFree (toObject o.header) = .ok s') :
    o.header ≠ 0 ∧ Release st.heap o.header s' := by
  have hstored := hinv.live_header o ho
  have hmax := hinv.live_size o ho
  obtain ⟨h, hheader, hne, hrelease⟩ := preFree_cases hok
  have hfound : st.heap.toHeader (toObject o.header) = .ok o.header :=
    hgrid.toHeader_live hinv hlow ho (Nat.le_refl _) (by unfold toObject HEADER_SIZE; omega)
  obtain rfl : h = o.header := Except.ok.inj (hheader.symm.trans hfound)
  exact ⟨hne, hrelease (by omega)⟩

end WidthGrid

/-- The heap is laid out in arrays. -/
structure Grid (st : HeapRun) (σ elmt : Nat → Nat) (free : Nat → List Nat) : Prop where
  desc : DescInv st.heap.desc st.zone elmt
  live : ∀ o ∈ st.live, OnGrid st.zone elmt o.header (slotWidth o.size) (slotWidth o.size)
  live_small : ∀ o ∈ st.live, o.size < 8192 →
    st.slot o.header = slotWidth o.size ∧ σ (classOf o.size) = o.size
  free : ∀ c, ∀ h ∈ free c,
    OnGrid st.zone elmt h (slotWidth (σ c)) (slotWidth (σ c)) ∧ st.slot h = slotWidth (σ c)
  bump : ∀ c, (st.heap.allocator c).currentZone < (st.heap.allocator c).endZone →
    OnGrid st.zone elmt (st.heap.allocator c).currentZone (slotWidth (σ c))
      ((st.heap.allocator c).endZone - (st.heap.allocator c).currentZone)

theorem grid_init (mem : Mem) (σ : Nat → Nat) :
    Grid (HeapRun.init mem) σ (fun _ => 0) fun _ => [] where
  desc := descInv_init
  live := by simp [HeapRun.init]
  live_small := by simp [HeapRun.init]
  free := by simp
  bump := by simp [HeapRun.init, Heap.init]

/-- A malloc of a small object asks for the size of its class, and a new zone
shares no page number with the others. -/
def HeapRun.Uniform (st : HeapRun) (σ : Nat → Nat) (size : Nat) (mapped : Option Nat) : Prop :=
  (size < 8192 → σ (classOf size) = size) ∧
    let len := (source st.heap size).mapLength size
    ∀ z, mapped = some z → 0 < len → z + len < 2 ^ 63 ∧ LowFresh st.zone z len

namespace Grid

variable {st : HeapRun} {σ elmt : Nat → Nat} {free : Nat → List Nat}

/-- The slots of a class have the width of its size. -/
theorem widthGrid (h : Grid st σ elmt free) :
    WidthGrid st (fun c => slotWidth (σ c)) elmt free where
  desc := h.desc
  live := h.live
  live_small := fun o ho hsmall =>
    ⟨(h.live_small o ho hsmall).1, congrArg slotWidth (h.live_small o ho hsmall).2⟩
  free := h.free
  bump := h.bump

theorem of_widthGrid (h : WidthGrid st (fun c => slotWidth (σ c)) elmt free)
    (hclass : ∀ o ∈ st.live, o.size < 8192 → σ (classOf o.size) = o.size) :
    Grid st σ elmt free where
  desc := h.desc
  live := h.live
  live_small := fun o ho hsmall => ⟨(h.live_small o ho hsmall).1, hclass o ho hsmall⟩
  free := h.free
  bump := h.bump

/-- A free slot is as wide as the next object of its class. -/
theorem slotsFit_malloc (hinv : HeapInv st free) (hgrid : Grid st σ elmt free) {size : Int32}
    {mapped : Option Nat} (hsize : size.toNat < 8192 → σ (classOf size.toNat) = size.toNat) :
    st.SlotsFit (.malloc size mapped) :=
  hgrid.widthGrid.slotsFit_malloc hinv fun hsmall => congrArg slotWidth (hsize hsmall)

/-- `pre_malloc` keeps the grid. -/
theorem malloc (hinv : HeapInv st free) (hgrid : Grid st σ elmt free) {s' : Heap} {size : Int32}
    {mapped : Option Nat} {h : Nat} (hsize : size.toNat + 4100 ≤ 2 ^ 31)
    (hmaps : st.MapsFresh size.toNat mapped) (huniform : st.Uniform σ size.toNat mapped)
    (hmalloc : Malloc st.heap size mapped s' h) :
    ∃ free', HeapInv (st.allocated s' size.toNat h) free' ∧
      Grid (st.allocated s' size.toNat h) σ (st.allocatedElmt elmt size.toNat h) free' ∧
        (∀ c, ∀ x ∈ free' c, x ∈ free c) ∧ ∀ c, ∀ x ∈ free c, x ≠ h → x ∈ free' c := by
  have hone : st.OneWidth (fun c => slotWidth (σ c)) size.toNat mapped :=
    ⟨fun hsmall => congrArg slotWidth (huniform.1 hsmall), huniform.2⟩
  obtain ⟨free', hheap, hwidth, hrest⟩ := hgrid.widthGrid.malloc hinv hsize hmaps hone hmalloc
  refine ⟨free', hheap, of_widthGrid hwidth fun o ho hsmall => ?_, hrest⟩
  rcases List.mem_cons.mp ho with rfl | hold
  · exact huniform.1 hsmall
  · exact (hgrid.live_small o hold hsmall).2

/-- A slot is at least as wide as the elements of its zone. -/
theorem slotWidth_le_slot (hinv : HeapInv st free) (hgrid : Grid st σ elmt free) {o : Obj}
    (ho : o ∈ st.live) : slotWidth o.size ≤ st.slot o.header :=
  hgrid.widthGrid.slotWidth_le_slot hinv ho

theorem released_small (hinv : HeapInv st free) (hgrid : Grid st σ elmt free) {s' : Heap} {o : Obj}
    (ho : o ∈ st.live) (hsize : o.size < 8192) (hdesc : s'.desc = st.heap.desc)
    (halloc : s'.allocator = Function.update st.heap.allocator (classOf o.size)
      { st.heap.allocator (classOf o.size) with first := o.header }) :
    Grid (st.released s' o.header) σ elmt
      (Function.update free (classOf o.size) (o.header :: free (classOf o.size))) :=
  of_widthGrid (hgrid.widthGrid.released_small hinv ho hsize hdesc halloc) fun o' ho' hsmall =>
    (hgrid.live_small o' (HeapInv.mem_released.mp ho').1 hsmall).2

theorem released_large (hinv : HeapInv st free) (hgrid : Grid st σ elmt free) {s' : Heap} {o : Obj}
    (ho : o ∈ st.live) (hlarge : 8192 ≤ o.size) {len : Int32}
    (hlen : len.toNat = pageRound (slotWidth o.size))
    (hdesc : s'.desc = hashZone st.heap.desc o.header len 0 0)
    (halloc : s'.allocator = st.heap.allocator) : Grid (st.released s' o.header) σ elmt free :=
  of_widthGrid (hgrid.widthGrid.released_large hinv ho hlarge hlen hdesc halloc)
    fun o' ho' hsmall => (hgrid.live_small o' (HeapInv.mem_released.mp ho').1 hsmall).2

end Grid

end KernelMemVirt.Gc
