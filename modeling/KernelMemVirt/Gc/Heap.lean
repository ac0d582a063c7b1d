import KernelMemVirt.Gc.Size
import KernelMemVirt.Lib.Arena
import KernelMemVirt.Lib.FreeList
import KernelMemVirt.Lib.Transition
import Mathlib.Data.List.Pairwise

/-!
# Runs of the object allocator

A run is a sequence of `pre_malloc`, `pre_free` and client writes.  A `HeapRun`
is the heap of `alloc.c` together with what the program cannot see: the live
objects, the zones that are mapped, and the width each slot was cut with.

* `Malloc` lists the four things `pre_malloc` may do, and `preMalloc_cases` says
  that it does one of them.
* `HeapInv` is the invariant: zones, slots and bump regions nest as an `Arena`,
  a live object fits its slot and its header holds its size, and the free lists
  thread the free slots, each once.
* `SlotsFit` is what a step must respect for it: a slot is not reused for a wider
  object, `pre_free` finds the header of the object, and the slot it frees has
  room for a link.
* `heapInv_step` is the step, and `noOverlap_of_run` is the run.
-/

namespace KernelMemVirt.Gc

open ByteMem Transition FreeList

/-! ## Runs -/

/-- A live object: the address of its header and its size. -/
structure Obj where
  header : Nat
  size : Nat
  deriving DecidableEq

/-- The heap with the live objects, the lengths of the mapped zones and the
widths of the slots. -/
structure HeapRun where
  heap : Heap
  live : List Obj
  zone : Nat → Nat
  slot : Nat → Nat

inductive HeapEvent
  | malloc (size : Int32) (mapped : Option Nat)
  | free (p : Nat)
  | write (a : Nat) (v : BitVec 8)

/-- The size class of a small object. -/
def classOf (size : Nat) : Nat := size / 4

/-- Where the memory of an object comes from. -/
inductive Source
  | reuse
  | cut
  | newZone
  | ownZone
  deriving DecidableEq

/-- The branch that `allocate_internal` takes. -/
def source (s : Heap) (size : Nat) : Source :=
  if size < 8192 then
    let a := s.allocator (classOf size)
    if a.first ≠ 0 then .reuse
    else if a.endZone < a.currentZone + slotWidth size then .newZone
    else .cut
  else .ownZone

/-- The number of bytes asked from `mmap`. -/
def Source.mapLength (size : Nat) : Source → Nat
  | .reuse => 0
  | .cut => 0
  | .newZone => pageRound (32 * slotWidth size)
  | .ownZone => pageRound (slotWidth size)

namespace HeapRun

variable (st : HeapRun)

def init (mem : Mem) : HeapRun := ⟨Heap.init mem, [], fun _ => 0, fun _ => 0⟩

/-- The ranges of the heap. -/
def layout : Arena.Layout where
  zone := st.zone
  slot := st.slot
  lo := fun c => (st.heap.allocator c).currentZone
  hi := fun c => (st.heap.allocator c).endZone

/-- An object of `size` bytes is allocated at `h`. -/
def allocated (s' : Heap) (size h : Nat) : HeapRun where
  heap := s'
  live := ⟨h, size⟩ :: st.live
  zone :=
    match source st.heap size with
    | .reuse | .cut => st.zone
    | .newZone => Function.update st.zone h (pageRound (32 * slotWidth size))
    | .ownZone => Function.update st.zone h (pageRound (slotWidth size))
  slot :=
    match source st.heap size with
    | .reuse => st.slot
    | .cut | .newZone => Function.update st.slot h (slotWidth size)
    | .ownZone => Function.update st.slot h (pageRound (slotWidth size))

/-- The live object at `h` has a zone of its own. -/
def ownsZone (h : Nat) : Bool := st.live.any fun o => o.header == h && decide (8192 ≤ o.size)

/-- The object at `h` is freed. -/
def released (s' : Heap) (h : Nat) : HeapRun where
  heap := s'
  live := st.live.filter fun o => o.header != h
  zone := if st.ownsZone h then Function.update st.zone h 0 else st.zone
  slot := if st.ownsZone h then Function.update st.slot h 0 else st.slot

/-- A client writes a byte. -/
def written (a : Nat) (v : BitVec 8) : HeapRun :=
  { st with heap := { st.heap with mem := Function.update st.heap.mem a v } }

/-- One step; `none` when the process ends. -/
def step : HeapEvent → Option HeapRun
  | .malloc size mapped =>
    match st.heap.preMalloc size mapped with
    | .ok (s', h) => some (st.allocated s' size.toNat h)
    | .error _ => none
  | .free p =>
    match st.heap.preFree p with
    | .ok s' => some (st.released s' (p - 4))
    | .error _ => none
  | .write a v => some (st.written a v)

/-- `mmap` returns whole pages that are not mapped. -/
def MapsFresh (size : Nat) (mapped : Option Nat) : Prop :=
  let len := (source st.heap size).mapLength size
  ∀ z, mapped = some z → 0 < len →
    z % 4096 = 0 ∧ z + len < 2 ^ 64 ∧ st.layout.Fresh z len

/-- The steps of the runs: any size up to `2 ^ 30`, frees of live objects that
are not empty, and writes inside live objects. -/
def Allowed : HeapEvent → Prop
  | .malloc size mapped => size.toNat ≤ 2 ^ 30 ∧ st.MapsFresh size.toNat mapped
  | .free p => ∃ o ∈ st.live, p = o.header + 4 ∧ 1 ≤ o.size
  | .write a _ => ∃ o ∈ st.live, o.header + 4 ≤ a ∧ a < o.header + 4 + o.size

/-- A free slot is only reused for an object it is wide enough for.  A free
resolves to the header of its object, or to none, and the slot has room for the
link of the free list. -/
def SlotsFit : HeapEvent → Prop
  | .malloc size _ =>
    source st.heap size.toNat = .reuse →
      slotWidth size.toNat ≤ st.slot (st.heap.allocator (classOf size.toNat)).first
  | .free p =>
    (∀ h, st.heap.toHeader p = .ok h → h ≠ 0 → h + 4 = p) ∧ 12 ≤ st.slot (p - 4)
  | .write _ _ => True

/-- The ranges of the live objects, headers included, are apart, and each lies
in a mapped zone. -/
def NoOverlap : Prop :=
  st.live.Pairwise (fun o o' => Apart o.header (4 + o.size) o'.header (4 + o'.size)) ∧
    ∀ o ∈ st.live, ∃ z, z ≤ o.header ∧ o.header + (4 + o.size) ≤ z + st.zone z

end HeapRun

/-! ## What `pre_malloc` does -/

/-- The four ways to get an object, with the heap after each. -/
inductive Malloc (s : Heap) (size : Int32) (mapped : Option Nat) (s' : Heap) (h : Nat) : Prop
  | reuse (hsource : source s size.toNat = .reuse) (hsize : size.toNat < 8192)
      (hfirst : (s.allocator (classOf size.toNat)).first = h) (hne : h ≠ 0)
      (hmem : s'.mem = write32 (fill s.mem (h + 4) 0 size.toNat) h size)
      (hdesc : s'.desc = s.desc)
      (halloc : s'.allocator = Function.update s.allocator (classOf size.toNat)
        { s.allocator (classOf size.toNat) with first := (read64 s.mem (h + 4)).toNat })
  | cut (hsource : source s size.toNat = .cut) (hsize : size.toNat < 8192)
      (hlo : (s.allocator (classOf size.toNat)).currentZone = h)
      (hfit : h + slotWidth size.toNat ≤ (s.allocator (classOf size.toNat)).endZone)
      (hfirst : (s.allocator (classOf size.toNat)).first = 0)
      (hmem : s'.mem = write32 s.mem h size) (hdesc : s'.desc = s.desc)
      (halloc : s'.allocator = Function.update s.allocator (classOf size.toNat)
        { s.allocator (classOf size.toNat) with currentZone := h + slotWidth size.toNat })
  | newZone (hsource : source s size.toNat = .newZone) (hsize : size.toNat < 8192)
      (hmapped : mapped = some h)
      (hfirst : (s.allocator (classOf size.toNat)).first = 0)
      (hmem : s'.mem = write32 (fill s.mem h 0 (pageRound (32 * slotWidth size.toNat))) h size)
      (hdesc : s'.desc = hashZone s.desc h (align (totalSize size * 32) 4096) (totalSize size) (-1))
      (halloc : s'.allocator = Function.update s.allocator (classOf size.toNat)
        ⟨0, h + slotWidth size.toNat, h + pageRound (32 * slotWidth size.toNat)⟩)
  | ownZone (hsource : source s size.toNat = .ownZone) (hsize : 8192 ≤ size.toNat)
      (hmapped : mapped = some h)
      (hmem : s'.mem = write32 (fill s.mem h 0 (pageRound (slotWidth size.toNat))) h size)
      (hdesc : s'.desc = hashZone s.desc h (align (totalSize size) 4096) (totalSize size) (-1))
      (halloc : s'.allocator = s.allocator)

/-- `pre_malloc` takes one of the four ways. -/
theorem preMalloc_cases {s s' : Heap} {size : Int32} {mapped : Option Nat} {h : Nat}
    (hsize : size.toNat < 2 ^ 31) (hok : s.preMalloc size mapped = .ok (s', h)) :
    Malloc s size mapped s' h := by
  have htot := totalSize_toNat hsize
  unfold Heap.preMalloc Heap.allocateInternal Heap.takeSlot at hok
  by_cases hsmall : size.toNat < 8192
  · rw [getObjectAllocator_small hsmall] at hok
    have hzone := classZone_toNat hsmall
    dsimp only at hok
    by_cases hfirst : (s.allocator (size.toNat / 4)).first = 0
    · rw [if_neg (not_not.mpr hfirst), Heap.bump, htot] at hok
      split at hok
      · next hfull =>
        unfold Heap.newZone at hok
        cases mapped with
        | none => cases hok
        | some z =>
          simp only [Except.map, hzone, hfirst, Except.ok.injEq, Prod.mk.injEq] at hok
          rcases hok with ⟨rfl, rfl⟩
          exact .newZone (by simp [source, hsmall, classOf, hfirst, hfull]) hsmall rfl hfirst
            rfl rfl rfl
      · next hroom =>
        cases hok
        exact .cut (by simp [source, hsmall, classOf, hfirst, hroom]) hsmall rfl
          (Nat.le_of_not_lt hroom) hfirst rfl rfl rfl
    · rw [if_pos hfirst] at hok
      cases hok
      exact .reuse (by simp [source, hsmall, classOf, hfirst]) hsmall rfl hfirst rfl rfl rfl
  · rw [getObjectAllocator_large (by omega) hsize] at hok
    have hzone := largeZone_toNat hsize
    unfold Heap.newZone at hok
    cases mapped with
    | none => cases hok
    | some z =>
      simp only [Except.map, hzone, Except.ok.injEq, Prod.mk.injEq] at hok
      rcases hok with ⟨rfl, rfl⟩
      exact .ownZone (by simp [source, hsmall]) (by omega) rfl rfl rfl rfl

/-- The two ways to give an object back, by the size in its header. -/
inductive Release (s : Heap) (h : Nat) (s' : Heap) : Prop
  | small (hsize : (read32 s.mem h).toNat < 8192)
      (hmem : s'.mem = write64 (write32 s.mem h 0) (h + 4)
        (BitVec.ofNat 64 (s.allocator (classOf (read32 s.mem h).toNat)).first))
      (hdesc : s'.desc = s.desc)
      (halloc : s'.allocator = Function.update s.allocator (classOf (read32 s.mem h).toNat)
        { s.allocator (classOf (read32 s.mem h).toNat) with first := h })
  | large (hsize : 8192 ≤ (read32 s.mem h).toNat) (hmem : s'.mem = s.mem)
      (hdesc : s'.desc = hashZone s.desc h (align (totalSize (read32 s.mem h)) 4096) 0 0)
      (halloc : s'.allocator = s.allocator)

/-- `pre_free` gives back the object that `toHeader` finds. -/
theorem preFree_cases {s s' : Heap} {p : Nat} (hok : s.preFree p = .ok s') :
    ∃ h, s.toHeader p = .ok h ∧ h ≠ 0 ∧
      ((read32 s.mem h).toNat < 2 ^ 31 → Release s h s') := by
  unfold Heap.preFree at hok
  cases hheader : s.toHeader p with
  | error e =>
    rw [hheader] at hok
    cases hok
  | ok h =>
    rw [hheader] at hok
    by_cases h0 : h = 0
    · subst h0
      cases hok
    · refine ⟨h, rfl, h0, fun hsize => ?_⟩
      simp only [bind, Except.bind, pure, Except.pure, ne_eq, h0, not_false_eq_true, if_true,
        Heap.giveBack] at hok
      by_cases hsmall : (read32 s.mem h).toNat < 8192
      · rw [getObjectAllocator_small hsmall] at hok
        cases hok
        exact .small hsmall rfl rfl rfl
      · rw [getObjectAllocator_large (by omega) hsize] at hok
        cases hok
        exact .large (by omega) rfl rfl rfl

/-- The header and the link of a free object are in its first 12 bytes. -/
theorem sameOutside_link (m : Mem) (h : Nat) (v : BitVec 64) :
    SameOutside m (write64 (write32 m h 0) (h + 4) v) h 12 :=
  ((sameOutside_writeBytes _ _ _ _).mono (Nat.le_refl h) (by omega)).trans
    ((sameOutside_writeBytes _ _ _ _).mono (by omega) (by omega))

/-- `pre_free` changes 12 bytes at most. -/
theorem Release.sameOutside {s s' : Heap} {h : Nat} (hrelease : Release s h s') :
    SameOutside s.mem s'.mem h 12 := by
  rcases hrelease with ⟨-, hmem, -, -⟩ | ⟨-, hmem, -, -⟩
  · rw [hmem]
    exact sameOutside_link _ _ _
  · rw [hmem]
    exact fun _ _ => rfl

/-! ## The invariant -/

/-- The heap is well formed, with the free slots of class `c` in the list
`free c`. -/
structure HeapInv (st : HeapRun) (free : Nat → List Nat) : Prop where
  layout : st.layout.Ok
  zone_bound : ∀ b, 0 < st.zone b →
    b % 4096 = 0 ∧ st.zone b % 4096 = 0 ∧ b + st.zone b < 2 ^ 64
  live_distinct : st.live.Pairwise fun o o' => o.header ≠ o'.header
  live_fits : ∀ o ∈ st.live, 4 + o.size ≤ st.slot o.header
  live_size : ∀ o ∈ st.live, o.size + 4100 ≤ 2 ^ 31
  live_header : ∀ o ∈ st.live, (read32 st.heap.mem o.header).toNat = o.size
  live_large : ∀ o ∈ st.live, 8192 ≤ o.size →
    st.zone o.header = pageRound (slotWidth o.size) ∧ st.slot o.header = st.zone o.header
  chain : ∀ c, Chain st.heap.mem 4 (st.heap.allocator c).first (free c)
  free_fits : ∀ c, ∀ h ∈ free c, 12 ≤ st.slot h
  free_nodup : ∀ c, (free c).Nodup
  free_class : ∀ c c' h, h ∈ free c → h ∈ free c' → c = c'
  free_dead : ∀ c, ∀ h ∈ free c, ∀ o ∈ st.live, o.header ≠ h

/-- The empty heap is well formed. -/
theorem heapInv_init (mem : Mem) : HeapInv (HeapRun.init mem) fun _ => [] where
  layout := by
    constructor <;> simp [HeapRun.layout, HeapRun.init, Heap.init]
  zone_bound := by simp [HeapRun.init]
  live_distinct := List.Pairwise.nil
  live_fits := by simp [HeapRun.init]
  live_size := by simp [HeapRun.init]
  live_header := by simp [HeapRun.init]
  live_large := by simp [HeapRun.init]
  chain := fun _ => rfl
  free_fits := by simp
  free_nodup := fun _ => List.nodup_nil
  free_class := by simp
  free_dead := by simp

namespace HeapInv

variable {st : HeapRun} {free : Nat → List Nat}

/-- Slots at different addresses are apart. -/
theorem slot_sep (h : HeapInv st free) {a a' : Nat} (hne : a ≠ a') (ha : 0 < st.slot a)
    (ha' : 0 < st.slot a') : Apart a (st.slot a) a' (st.slot a') :=
  h.layout.slot_sep a a' hne ha ha'

/-- A slot is apart from the first bytes of another. -/
theorem slot_apart (h : HeapInv st free) {a a' n : Nat} (hne : a ≠ a') (ha : 0 < st.slot a)
    (hn : 0 < n) (hfit : n ≤ st.slot a') : Apart a (st.slot a) a' n := by
  have hsep := h.slot_sep hne ha (by omega)
  unfold Apart at hsep ⊢
  omega

/-- A slot lies in a zone, so it ends in the address space. -/
theorem slot_bound (h : HeapInv st free) {a : Nat} (ha : 0 < st.slot a) :
    a + st.slot a < 2 ^ 64 := by
  obtain ⟨b, hlo, hhi⟩ := h.layout.slot_in a ha
  have hhi' : a + st.slot a ≤ b + st.zone b := hhi
  obtain ⟨-, -, hbound⟩ := h.zone_bound b (by omega)
  omega

/-- Live objects do not overlap. -/
theorem noOverlap (h : HeapInv st free) : st.NoOverlap := by
  refine ⟨?_, fun o ho => ?_⟩
  · refine h.live_distinct.imp_of_mem fun {o o'} ho ho' hne => ?_
    have hfit := h.live_fits o ho
    have hfit' := h.live_fits o' ho'
    have hsep := h.slot_sep hne (by omega) (by omega)
    unfold Apart at hsep ⊢
    omega
  · have hfit := h.live_fits o ho
    obtain ⟨z, hlo, hhi⟩ := h.layout.slot_in o.header (show 0 < st.slot o.header by omega)
    have hhi' : o.header + st.slot o.header ≤ z + st.zone z := hhi
    exact ⟨z, hlo, by omega⟩

end HeapInv

/-- A change of memory apart from a slot keeps the header in the slot. -/
theorem header_frame {mem mem' : Mem} {a n x width : Nat} (hmem : SameOutside mem mem' a n)
    (hsep : Apart x width a n) (hwidth : 4 ≤ width) : read32 mem' x = read32 mem x :=
  hmem.readBytes (by unfold Apart at hsep ⊢; omega)

/-- It keeps the link in the slot as well. -/
theorem link_frame {mem mem' : Mem} {a n x width : Nat} (hmem : SameOutside mem mem' a n)
    (hsep : Apart x width a n) (hwidth : 12 ≤ width) :
    read64 mem' (x + 4) = read64 mem (x + 4) :=
  hmem.readBytes (by unfold Apart at hsep ⊢; omega)

namespace HeapInv

variable {st : HeapRun} {free : Nat → List Nat}

/-! ## Allocation -/

/-- The header of the new object is apart from all the other slots. -/
theorem allocate (hinv : HeapInv st free) {s' : Heap} {size h w : Nat} {free' : Nat → List Nat}
    (hlayout : (st.allocated s' size h).layout.Ok)
    (hbound : ∀ b, 0 < (st.allocated s' size h).zone b →
      b % 4096 = 0 ∧ (st.allocated s' size h).zone b % 4096 = 0 ∧
        b + (st.allocated s' size h).zone b < 2 ^ 64)
    (hslot : ∀ x, x ≠ h → (st.allocated s' size h).slot x = st.slot x)
    (hzone : ∀ x, x ≠ h → (st.allocated s' size h).zone x = st.zone x)
    (hsize : size + 4100 ≤ 2 ^ 31) (hfit : 4 + size ≤ (st.allocated s' size h).slot h)
    (hlarge : 8192 ≤ size → (st.allocated s' size h).zone h = pageRound (slotWidth size) ∧
      (st.allocated s' size h).slot h = (st.allocated s' size h).zone h)
    (hdead : ∀ o ∈ st.live, o.header ≠ h) (hmem : SameOutside st.heap.mem s'.mem h w)
    (hapart : ∀ x, x ≠ h → 0 < st.slot x → Apart x (st.slot x) h w)
    (hheader : (read32 s'.mem h).toNat = size)
    (hsub : ∀ c, ∀ x ∈ free' c, x ∈ free c ∧ x ≠ h) (hnodup : ∀ c, (free' c).Nodup)
    (hchain : ∀ c, Chain st.heap.mem 4 (s'.allocator c).first (free' c)) :
    HeapInv (st.allocated s' size h) free' := by
  refine ⟨hlayout, hbound, ?_, ?_, ?_, ?_, ?_, ?_, ?_, hnodup, ?_, ?_⟩
  · exact List.pairwise_cons.mpr ⟨fun o ho => (hdead o ho).symm, hinv.live_distinct⟩
  · intro o ho
    rcases List.mem_cons.mp ho with rfl | hold
    · exact hfit
    · rw [hslot _ (hdead o hold)]
      exact hinv.live_fits o hold
  · intro o ho
    rcases List.mem_cons.mp ho with rfl | hold
    · exact hsize
    · exact hinv.live_size o hold
  · intro o ho
    rcases List.mem_cons.mp ho with rfl | hold
    · exact hheader
    · have hfits := hinv.live_fits o hold
      have hread : read32 s'.mem o.header = read32 st.heap.mem o.header :=
        header_frame hmem (hapart o.header (hdead o hold) (by omega)) (by omega)
      exact (congrArg BitVec.toNat hread).trans (hinv.live_header o hold)
  · intro o ho
    rcases List.mem_cons.mp ho with rfl | hold
    · exact hlarge
    · rw [hslot _ (hdead o hold), hzone _ (hdead o hold)]
      exact hinv.live_large o hold
  · intro c
    refine chain_congr (fun x hx => ?_) (hchain c)
    obtain ⟨hold, hne⟩ := hsub c x hx
    have hfits := hinv.free_fits c x hold
    exact link_frame hmem (hapart x hne (by omega)) hfits
  · intro c x hx
    obtain ⟨hold, hne⟩ := hsub c x hx
    rw [hslot x hne]
    exact hinv.free_fits c x hold
  · exact fun c c' x hx hx' => hinv.free_class c c' x (hsub c x hx).1 (hsub c' x hx').1
  · intro c x hx o ho
    obtain ⟨hold, hne⟩ := hsub c x hx
    rcases List.mem_cons.mp ho with rfl | hlive
    · exact hne.symm
    · exact hinv.free_dead c x hold o hlive

/-- A new object in a range that meets no slot. -/
theorem allocateFresh (hinv : HeapInv st free) {s' : Heap} {size h w : Nat}
    (hlayout : (st.allocated s' size h).layout.Ok)
    (hbound : ∀ b, 0 < (st.allocated s' size h).zone b →
      b % 4096 = 0 ∧ (st.allocated s' size h).zone b % 4096 = 0 ∧
        b + (st.allocated s' size h).zone b < 2 ^ 64)
    (hslot : ∀ x, x ≠ h → (st.allocated s' size h).slot x = st.slot x)
    (hzone : ∀ x, x ≠ h → (st.allocated s' size h).zone x = st.zone x)
    (hsize : size + 4100 ≤ 2 ^ 31) (hfit : 4 + size ≤ (st.allocated s' size h).slot h)
    (hlarge : 8192 ≤ size → (st.allocated s' size h).zone h = pageRound (slotWidth size) ∧
      (st.allocated s' size h).slot h = (st.allocated s' size h).zone h)
    (hmem : SameOutside st.heap.mem s'.mem h w) (hw : 0 < w)
    (hapart : ∀ x, 0 < st.slot x → Apart x (st.slot x) h w)
    (hheader : (read32 s'.mem h).toNat = size)
    (hfirst : ∀ c, (s'.allocator c).first = (st.heap.allocator c).first) :
    HeapInv (st.allocated s' size h) free := by
  have hother : ∀ x, 0 < st.slot x → x ≠ h := by
    intro x hx heq
    subst heq
    have hsep := hapart x hx
    unfold Apart at hsep
    omega
  refine hinv.allocate hlayout hbound hslot hzone hsize hfit hlarge ?_ hmem
    (fun x _ hx => hapart x hx) hheader ?_ hinv.free_nodup ?_
  · intro o ho
    have hfits := hinv.live_fits o ho
    exact hother _ (by omega)
  · intro c x hx
    have hfits := hinv.free_fits c x hx
    exact ⟨hx, hother x (by omega)⟩
  · intro c
    rw [hfirst c]
    exact hinv.chain c

/-- Reusing the first free slot of a class. -/
theorem allocated_reuse (hinv : HeapInv st free) {s' : Heap} {size : Int32} {h : Nat}
    (hsource : source st.heap size.toNat = .reuse) (hsize : size.toNat < 8192)
    (hfirst : (st.heap.allocator (classOf size.toNat)).first = h) (hne : h ≠ 0)
    (hmem : s'.mem = write32 (fill st.heap.mem (h + 4) 0 size.toNat) h size)
    (halloc : s'.allocator = Function.update st.heap.allocator (classOf size.toNat)
      { st.heap.allocator (classOf size.toNat) with
        first := (read64 st.heap.mem (h + 4)).toNat })
    (hwide : slotWidth size.toNat ≤ st.slot h) :
    HeapInv (st.allocated s' size.toNat h)
      (Function.update free (classOf size.toNat) (free (classOf size.toNat)).tail) := by
  have hroom := header_add_le_slotWidth size.toNat
  have hchain := hinv.chain (classOf size.toNat)
  rw [hfirst] at hchain
  obtain ⟨rest, hrest, htail⟩ := hchain.eq_cons hne
  have hmemfree : h ∈ free (classOf size.toNat) := hrest ▸ List.mem_cons_self
  have hnodup := hinv.free_nodup (classOf size.toNat)
  rw [hrest, List.nodup_cons] at hnodup
  rw [hrest, List.tail_cons]
  have hslot : (st.allocated s' size.toNat h).slot = st.slot := by
    simp [HeapRun.allocated, hsource]
  have hzone : (st.allocated s' size.toNat h).zone = st.zone := by
    simp [HeapRun.allocated, hsource]
  have hlayout : (st.allocated s' size.toNat h).layout = st.layout := by
    unfold HeapRun.layout
    rw [hslot, hzone]
    congr 1 <;> funext c <;> by_cases hc : c = classOf size.toNat <;>
      simp [HeapRun.allocated, halloc, hc]
  have hchain' : ∀ c, Chain st.heap.mem 4 (s'.allocator c).first
      (Function.update free (classOf size.toNat) rest c) := by
    intro c
    by_cases hc : c = classOf size.toNat
    · simpa [halloc, hc] using htail
    · simpa [halloc, hc] using hinv.chain c
  have hsub : ∀ c, ∀ x ∈ Function.update free (classOf size.toNat) rest c,
      x ∈ free c ∧ x ≠ h := by
    intro c x hx
    by_cases hc : c = classOf size.toNat
    · subst hc
      rw [Function.update_self] at hx
      exact ⟨hrest ▸ List.mem_cons_of_mem h hx, fun heq => hnodup.1 (heq ▸ hx)⟩
    · rw [Function.update_of_ne hc] at hx
      exact ⟨hx, fun heq => hc (hinv.free_class c _ h (heq ▸ hx) hmemfree)⟩
  have hnodup' : ∀ c, (Function.update free (classOf size.toNat) rest c).Nodup := by
    intro c
    by_cases hc : c = classOf size.toNat
    · simpa [hc] using hnodup.2
    · simpa [hc] using hinv.free_nodup c
  have hsame : SameOutside st.heap.mem s'.mem h (slotWidth size.toNat) := by
    rw [hmem]
    exact ((sameOutside_fill _ _ _ _).mono (by omega) (by omega)).trans
      ((sameOutside_writeBytes _ _ _ _).mono (Nat.le_refl h) (by omega))
  have hheader : (read32 s'.mem h).toNat = size.toNat := by
    rw [hmem, read32_write32_self]
  refine hinv.allocate (hlayout ▸ hinv.layout) (hzone ▸ hinv.zone_bound)
    (fun x _ => congrFun hslot x) (fun x _ => congrFun hzone x) (by omega) (hslot ▸ by omega)
    (by omega) (hinv.free_dead _ h hmemfree) hsame ?_ hheader hsub hnodup' hchain'
  exact fun x hx hpos => hinv.slot_apart hx hpos (by omega) hwide

/-- Cutting a slot off the current zone of a class. -/
theorem allocated_cut (hinv : HeapInv st free) {s' : Heap} {size : Int32} {h : Nat}
    (hsource : source st.heap size.toNat = .cut) (hsize : size.toNat < 8192)
    (hlo : (st.heap.allocator (classOf size.toNat)).currentZone = h)
    (hfit : h + slotWidth size.toNat ≤ (st.heap.allocator (classOf size.toNat)).endZone)
    (hmem : s'.mem = write32 st.heap.mem h size)
    (halloc : s'.allocator = Function.update st.heap.allocator (classOf size.toNat)
      { st.heap.allocator (classOf size.toNat) with currentZone := h + slotWidth size.toNat }) :
    HeapInv (st.allocated s' size.toNat h) free := by
  have hroom := header_add_le_slotWidth size.toNat
  have hslot : (st.allocated s' size.toNat h).slot
      = Function.update st.slot h (slotWidth size.toNat) := by
    simp [HeapRun.allocated, hsource]
  have hzone : (st.allocated s' size.toNat h).zone = st.zone := by
    simp [HeapRun.allocated, hsource]
  have hlayout : (st.allocated s' size.toNat h).layout
      = st.layout.carve (classOf size.toNat) (slotWidth size.toNat) := by
    unfold HeapRun.layout Arena.Layout.carve
    dsimp only
    rw [hslot, hzone, hlo]
    congr 1 <;> funext c <;> by_cases hc : c = classOf size.toNat <;>
      simp [HeapRun.allocated, halloc, hc]
  have hok : (st.allocated s' size.toNat h).layout.Ok := by
    rw [hlayout]
    apply hinv.layout.carve (by omega)
    show (st.heap.allocator _).currentZone + _ ≤ _
    rw [hlo]
    exact hfit
  have hsame : SameOutside st.heap.mem s'.mem h (slotWidth size.toNat) := by
    rw [hmem]
    exact (sameOutside_writeBytes _ _ _ _).mono (Nat.le_refl h) (by omega)
  have hapart : ∀ x, 0 < st.slot x → Apart x (st.slot x) h (slotWidth size.toNat) := by
    intro x hx
    have hsep : Apart x (st.slot x) (st.heap.allocator (classOf size.toNat)).currentZone
        ((st.heap.allocator (classOf size.toNat)).endZone
          - (st.heap.allocator (classOf size.toNat)).currentZone) :=
      hinv.layout.bump_slot (classOf size.toNat) x
        (show (st.heap.allocator _).currentZone < (st.heap.allocator _).endZone by omega) hx
    unfold Apart at hsep ⊢
    omega
  refine hinv.allocateFresh hok (hzone ▸ hinv.zone_bound) ?_ (fun x _ => congrFun hzone x)
    (by omega) ?_ (by omega) hsame (by omega) hapart ?_ ?_
  · intro x hx
    rw [hslot, Function.update_of_ne hx]
  · rw [hslot, Function.update_self]
    exact hroom
  · rw [hmem, read32_write32_self]
  · intro c
    by_cases hc : c = classOf size.toNat <;> simp [halloc, hc]

/-- The bounds of the zones after a fresh one is mapped. -/
theorem zone_bound_update (hinv : HeapInv st free) {h len : Nat}
    (hpage : h % 4096 = 0) (hlen : len % 4096 = 0) (hend : h + len < 2 ^ 64) (b : Nat)
    (hb : 0 < Function.update st.zone h len b) :
    b % 4096 = 0 ∧ Function.update st.zone h len b % 4096 = 0 ∧
      b + Function.update st.zone h len b < 2 ^ 64 := by
  by_cases heq : b = h
  · subst heq
    rw [Function.update_self]
    exact ⟨hpage, hlen, hend⟩
  · rw [Function.update_of_ne heq] at hb ⊢
    exact hinv.zone_bound b hb

/-- Cutting a slot off a new zone of a class. -/
theorem allocated_newZone (hinv : HeapInv st free) {s' : Heap} {size : Int32} {h : Nat}
    (hsource : source st.heap size.toNat = .newZone) (hsize : size.toNat < 8192)
    (hmaps : st.MapsFresh size.toNat (some h))
    (hfirst : (st.heap.allocator (classOf size.toNat)).first = 0)
    (hmem : s'.mem =
      write32 (fill st.heap.mem h 0 (pageRound (32 * slotWidth size.toNat))) h size)
    (halloc : s'.allocator = Function.update st.heap.allocator (classOf size.toNat)
      ⟨0, h + slotWidth size.toNat, h + pageRound (32 * slotWidth size.toNat)⟩) :
    HeapInv (st.allocated s' size.toNat h) free := by
  have hroom := header_add_le_slotWidth size.toNat
  have hround := le_pageRound (32 * slotWidth size.toNat)
  obtain ⟨hpage, hend, hfresh⟩ := hmaps h rfl (by rw [hsource]; show 0 < pageRound _; omega)
  rw [hsource] at hend hfresh
  have hend : h + pageRound (32 * slotWidth size.toNat) < 2 ^ 64 := hend
  have hfresh : st.layout.Fresh h (pageRound (32 * slotWidth size.toNat)) := hfresh
  have hslot : (st.allocated s' size.toNat h).slot
      = Function.update st.slot h (slotWidth size.toNat) := by
    simp [HeapRun.allocated, hsource]
  have hzone : (st.allocated s' size.toNat h).zone
      = Function.update st.zone h (pageRound (32 * slotWidth size.toNat)) := by
    simp [HeapRun.allocated, hsource]
  have hlayout : (st.allocated s' size.toNat h).layout
      = (st.layout.openZone (classOf size.toNat) h (pageRound (32 * slotWidth size.toNat))).carve
          (classOf size.toNat) (slotWidth size.toNat) := by
    unfold HeapRun.layout Arena.Layout.carve Arena.Layout.openZone
    rw [hslot, hzone]
    congr 1
    · simp
    all_goals
      funext c
      by_cases hc : c = classOf size.toNat <;> simp [HeapRun.allocated, halloc, hc]
  have hok : (st.allocated s' size.toNat h).layout.Ok := by
    rw [hlayout]
    apply (hinv.layout.openZone hfresh).carve (by omega)
    simp only [Arena.Layout.openZone, Function.update_self]
    omega
  have hsame : SameOutside st.heap.mem s'.mem h (pageRound (32 * slotWidth size.toNat)) := by
    rw [hmem]
    exact (sameOutside_fill _ _ _ _).trans
      ((sameOutside_writeBytes _ _ _ _).mono (Nat.le_refl h) (by omega))
  refine hinv.allocateFresh hok ?_ ?_ ?_ (by omega) ?_ (by omega) hsame (by omega)
    (fun x hx => hinv.layout.slot_fresh hfresh hx) ?_ ?_
  · rw [hzone]
    exact hinv.zone_bound_update hpage (pageRound_mod _) hend
  · intro x hx
    rw [hslot, Function.update_of_ne hx]
  · intro x hx
    rw [hzone, Function.update_of_ne hx]
  · rw [hslot, Function.update_self]
    exact hroom
  · rw [hmem, read32_write32_self]
  · intro c
    by_cases hc : c = classOf size.toNat <;> simp [halloc, hc, hfirst]

/-- A zone for one large object. -/
theorem allocated_ownZone (hinv : HeapInv st free) {s' : Heap} {size : Int32} {h : Nat}
    (hsource : source st.heap size.toNat = .ownZone) (hsize : size.toNat + 4100 ≤ 2 ^ 31)
    (hmaps : st.MapsFresh size.toNat (some h))
    (hmem : s'.mem = write32 (fill st.heap.mem h 0 (pageRound (slotWidth size.toNat))) h size)
    (halloc : s'.allocator = st.heap.allocator) :
    HeapInv (st.allocated s' size.toNat h) free := by
  have hroom := header_add_le_slotWidth size.toNat
  have hround := le_pageRound (slotWidth size.toNat)
  obtain ⟨hpage, hend, hfresh⟩ := hmaps h rfl (by rw [hsource]; show 0 < pageRound _; omega)
  rw [hsource] at hend hfresh
  have hend : h + pageRound (slotWidth size.toNat) < 2 ^ 64 := hend
  have hfresh : st.layout.Fresh h (pageRound (slotWidth size.toNat)) := hfresh
  have hslot : (st.allocated s' size.toNat h).slot
      = Function.update st.slot h (pageRound (slotWidth size.toNat)) := by
    simp [HeapRun.allocated, hsource]
  have hzone : (st.allocated s' size.toNat h).zone
      = Function.update st.zone h (pageRound (slotWidth size.toNat)) := by
    simp [HeapRun.allocated, hsource]
  have hlayout : (st.allocated s' size.toNat h).layout
      = st.layout.dedicate h (pageRound (slotWidth size.toNat)) := by
    unfold HeapRun.layout Arena.Layout.dedicate
    rw [hslot, hzone]
    simp [HeapRun.allocated, halloc]
  have hsame : SameOutside st.heap.mem s'.mem h (pageRound (slotWidth size.toNat)) := by
    rw [hmem]
    exact (sameOutside_fill _ _ _ _).trans
      ((sameOutside_writeBytes _ _ _ _).mono (Nat.le_refl h) (by omega))
  refine hinv.allocateFresh (hlayout ▸ hinv.layout.dedicate hfresh) ?_ ?_ ?_ hsize ?_ ?_ hsame
    (by omega) (fun x hx => hinv.layout.slot_fresh hfresh hx) ?_ ?_
  · rw [hzone]
    exact hinv.zone_bound_update hpage (pageRound_mod _) hend
  · intro x hx
    rw [hslot, Function.update_of_ne hx]
  · intro x hx
    rw [hzone, Function.update_of_ne hx]
  · rw [hslot, Function.update_self]
    omega
  · intro _
    rw [hzone, hslot, Function.update_self, Function.update_self]
    exact ⟨rfl, rfl⟩
  · rw [hmem, read32_write32_self]
  · intro c
    rw [halloc]

/-! ## Release -/

theorem live_unique (hinv : HeapInv st free) {o o' : Obj} (ho : o ∈ st.live) (ho' : o' ∈ st.live)
    (heq : o.header = o'.header) : o = o' := by
  by_contra hne
  have : Std.Symm fun o o' : Obj => o.header ≠ o'.header := ⟨fun _ _ h => h.symm⟩
  exact hinv.live_distinct.forall ho ho' hne heq

theorem ownsZone_eq (hinv : HeapInv st free) {o : Obj} (ho : o ∈ st.live) :
    st.ownsZone o.header = decide (8192 ≤ o.size) := by
  unfold HeapRun.ownsZone
  by_cases hlarge : 8192 ≤ o.size
  · rw [decide_eq_true hlarge, List.any_eq_true]
    exact ⟨o, ho, by simp [hlarge]⟩
  · rw [decide_eq_false hlarge, List.any_eq_false]
    intro o' ho'
    simp only [Bool.and_eq_true, beq_iff_eq, decide_eq_true_eq, not_and]
    intro heq
    rw [hinv.live_unique ho' ho heq]
    exact hlarge

/-- A freed small object leaves the slots and the zones as they are. -/
theorem released_of_small (hinv : HeapInv st free) (s' : Heap) {o : Obj} (ho : o ∈ st.live)
    (hsize : o.size < 8192) :
    (st.released s' o.header).slot = st.slot ∧ (st.released s' o.header).zone = st.zone := by
  have hown : st.ownsZone o.header = false := by
    rw [hinv.ownsZone_eq ho, decide_eq_false (by omega)]
  simp [HeapRun.released, hown]

/-- A freed large object takes its slot and its zone away. -/
theorem released_of_large (hinv : HeapInv st free) (s' : Heap) {o : Obj} (ho : o ∈ st.live)
    (hsize : 8192 ≤ o.size) :
    (st.released s' o.header).slot = Function.update st.slot o.header 0 ∧
      (st.released s' o.header).zone = Function.update st.zone o.header 0 := by
  have hown : st.ownsZone o.header = true := by
    rw [hinv.ownsZone_eq ho, decide_eq_true hsize]
  simp [HeapRun.released, hown]

/-- The zones that are left when the zone of a large object is unmapped. -/
theorem released_zone (hinv : HeapInv st free) {s' : Heap} {o : Obj} (ho : o ∈ st.live)
    (hlarge : 8192 ≤ o.size) {b : Nat} (hb : 0 < (st.released s' o.header).zone b) :
    b ≠ o.header ∧ (st.released s' o.header).zone b = st.zone b := by
  rw [(hinv.released_of_large s' ho hlarge).2] at hb ⊢
  by_cases hbo : b = o.header
  · simp [hbo] at hb
  · exact ⟨hbo, Function.update_of_ne hbo _ _⟩

theorem mem_released {s' : Heap} {h : Nat} {o : Obj} :
    o ∈ (st.released s' h).live ↔ o ∈ st.live ∧ o.header ≠ h := by
  simp [HeapRun.released]

/-- The first free slot of a class is an address. -/
theorem first_lt (hinv : HeapInv st free) (c : Nat) : (st.heap.allocator c).first < 2 ^ 64 := by
  by_cases h0 : (st.heap.allocator c).first = 0
  · omega
  · obtain ⟨rest, hrest, -⟩ := (hinv.chain c).eq_cons h0
    have hfits := hinv.free_fits c _ (hrest ▸ List.mem_cons_self)
    have hbound := hinv.slot_bound (show 0 < st.slot (st.heap.allocator c).first by omega)
    omega

/-- A freed small object goes on the free list of its class. -/
theorem released_small (hinv : HeapInv st free) {s' : Heap} {o : Obj} (ho : o ∈ st.live)
    (hne : o.header ≠ 0) (hsize : o.size < 8192) (hwide : 12 ≤ st.slot o.header)
    (hmem : s'.mem = write64 (write32 st.heap.mem o.header 0) (o.header + 4)
      (BitVec.ofNat 64 (st.heap.allocator (classOf o.size)).first))
    (halloc : s'.allocator = Function.update st.heap.allocator (classOf o.size)
      { st.heap.allocator (classOf o.size) with first := o.header }) :
    HeapInv (st.released s' o.header)
      (Function.update free (classOf o.size) (o.header :: free (classOf o.size))) := by
  obtain ⟨hslot, hzone⟩ := hinv.released_of_small s' ho hsize
  have hlayout : (st.released s' o.header).layout = st.layout := by
    unfold HeapRun.layout
    rw [hslot, hzone]
    congr 1 <;> funext c <;> by_cases hc : c = classOf o.size <;>
      simp [HeapRun.released, halloc, hc]
  have hzeroed : SameOutside st.heap.mem (write32 st.heap.mem o.header 0) o.header 12 :=
    (sameOutside_writeBytes _ _ _ _).mono (Nat.le_refl _) (by omega)
  have hsame : SameOutside st.heap.mem s'.mem o.header 12 := by
    rw [hmem]
    exact sameOutside_link _ _ _
  have hlinks : ∀ c, ∀ x ∈ free c, x ≠ o.header ∧ Apart x (st.slot x) o.header 12 ∧
      12 ≤ st.slot x := by
    intro c x hx
    have hfits := hinv.free_fits c x hx
    have hne := (hinv.free_dead c x hx o ho).symm
    exact ⟨hne, hinv.slot_apart hne (by omega) (by omega) hwide, hfits⟩
  refine ⟨hlayout ▸ hinv.layout, hzone ▸ hinv.zone_bound, ?_, ?_, ?_, ?_, ?_, ?_, ?_, ?_, ?_, ?_⟩
  · exact hinv.live_distinct.filter _
  · intro o' ho'
    rw [hslot]
    exact hinv.live_fits o' (mem_released.mp ho').1
  · exact fun o' ho' => hinv.live_size o' (mem_released.mp ho').1
  · intro o' ho'
    obtain ⟨hold, hne⟩ := mem_released.mp ho'
    have hfits := hinv.live_fits o' hold
    have hread : read32 s'.mem o'.header = read32 st.heap.mem o'.header :=
      header_frame hsame (hinv.slot_apart hne (by omega) (by omega) hwide) (by omega)
    exact (congrArg BitVec.toNat hread).trans (hinv.live_header o' hold)
  · intro o' ho'
    rw [hslot, hzone]
    exact hinv.live_large o' (mem_released.mp ho').1
  · intro c
    by_cases hc : c = classOf o.size
    · subst hc
      have hold : Chain (write32 st.heap.mem o.header 0) 4
          (st.heap.allocator (classOf o.size)).first (free (classOf o.size)) :=
        chain_congr (fun x hx => link_frame hzeroed (hlinks _ x hx).2.1 (hlinks _ x hx).2.2)
          (hinv.chain _)
      have hpush := hold.push hne (hinv.first_lt _) fun x hx => by
        obtain ⟨-, hsep, hfits⟩ := hlinks _ x hx
        unfold Apart at hsep ⊢
        omega
      rw [← hmem] at hpush
      simpa [HeapRun.released, halloc] using hpush
    · have hold := chain_congr
        (fun x hx => link_frame hsame (hlinks c x hx).2.1 (hlinks c x hx).2.2) (hinv.chain c)
      simpa [HeapRun.released, halloc, hc] using hold
  · intro c x hx
    rw [hslot]
    rcases mem_update_cons hx with hold | ⟨rfl, -⟩
    · exact hinv.free_fits c x hold
    · exact hwide
  · intro c
    by_cases hc : c = classOf o.size
    · subst hc
      rw [Function.update_self]
      exact List.nodup_cons.mpr
        ⟨fun hx => (hlinks _ _ hx).1 rfl, hinv.free_nodup _⟩
    · rw [Function.update_of_ne hc]
      exact hinv.free_nodup c
  · intro c c' x hx hx'
    rcases mem_update_cons hx with hold | ⟨heq, rfl⟩ <;>
      rcases mem_update_cons hx' with hold' | ⟨heq', rfl⟩
    · exact hinv.free_class c c' x hold hold'
    · exact absurd heq' (hlinks c x hold).1
    · exact absurd heq (hlinks c' x hold').1
    · rfl
  · intro c x hx o' ho'
    obtain ⟨hold', hne⟩ := mem_released.mp ho'
    rcases mem_update_cons hx with hold | ⟨rfl, -⟩
    · exact hinv.free_dead c x hold o' hold'
    · exact hne

/-- A freed large object takes its zone away. -/
theorem released_large (hinv : HeapInv st free) {s' : Heap} {o : Obj} (ho : o ∈ st.live)
    (hsize : 8192 ≤ o.size) (hmem : s'.mem = st.heap.mem)
    (halloc : s'.allocator = st.heap.allocator) : HeapInv (st.released s' o.header) free := by
  obtain ⟨hslot, hzone⟩ := hinv.released_of_large s' ho hsize
  obtain ⟨-, hwhole⟩ := hinv.live_large o ho hsize
  have hfit := hinv.live_fits o ho
  have hlayout : (st.released s' o.header).layout = st.layout.close o.header := by
    unfold HeapRun.layout Arena.Layout.close
    rw [hslot, hzone]
    simp [HeapRun.released, halloc]
  have hne : ∀ c, ∀ x ∈ free c, x ≠ o.header := fun c x hx => (hinv.free_dead c x hx o ho).symm
  refine ⟨?_, ?_, hinv.live_distinct.filter _, ?_, ?_, ?_, ?_, ?_, ?_, hinv.free_nodup,
    hinv.free_class, ?_⟩
  · rw [hlayout]
    exact hinv.layout.close (show 0 < st.zone o.header by omega) hwhole
  · intro b hb
    rw [hzone] at hb ⊢
    have hb' : b ≠ o.header := by
      intro heq
      subst heq
      simp at hb
    rw [Function.update_of_ne hb'] at hb ⊢
    exact hinv.zone_bound b hb
  · intro o' ho'
    obtain ⟨hold, hother⟩ := mem_released.mp ho'
    rw [hslot, Function.update_of_ne hother]
    exact hinv.live_fits o' hold
  · exact fun o' ho' => hinv.live_size o' (mem_released.mp ho').1
  · intro o' ho'
    show (read32 s'.mem o'.header).toNat = o'.size
    rw [hmem]
    exact hinv.live_header o' (mem_released.mp ho').1
  · intro o' ho'
    obtain ⟨hold, hother⟩ := mem_released.mp ho'
    rw [hslot, hzone, Function.update_of_ne hother, Function.update_of_ne hother]
    exact hinv.live_large o' hold
  · intro c
    show Chain s'.mem 4 (s'.allocator c).first (free c)
    rw [hmem, halloc]
    exact hinv.chain c
  · intro c x hx
    rw [hslot, Function.update_of_ne (hne c x hx)]
    exact hinv.free_fits c x hx
  · exact fun c x hx o' ho' => hinv.free_dead c x hx o' (mem_released.mp ho').1

/-- A client write inside a live object. -/
theorem written (hinv : HeapInv st free) {o : Obj} (ho : o ∈ st.live) {a : Nat} (v : BitVec 8)
    (hlo : o.header + 4 ≤ a) (hhi : a < o.header + 4 + o.size) :
    HeapInv (st.written a v) free := by
  have hfit := hinv.live_fits o ho
  have hsame : SameOutside st.heap.mem (Function.update st.heap.mem a v) a 1 :=
    fun x hx => Function.update_of_ne (by omega) _ _
  have hapart : ∀ x, x ≠ o.header → 0 < st.slot x → Apart x (st.slot x) a 1 := by
    intro x hx hpos
    have hsep := hinv.slot_sep hx hpos (show 0 < st.slot o.header by omega)
    unfold Apart at hsep ⊢
    omega
  refine ⟨hinv.layout, hinv.zone_bound, hinv.live_distinct, hinv.live_fits, hinv.live_size, ?_,
    hinv.live_large, ?_, hinv.free_fits, hinv.free_nodup, hinv.free_class, hinv.free_dead⟩
  · intro o' ho'
    have hfit' := hinv.live_fits o' ho'
    have hread : read32 (Function.update st.heap.mem a v) o'.header
        = read32 st.heap.mem o'.header := by
      by_cases hself : o'.header = o.header
      · exact hsame.readBytes (by unfold Apart; omega)
      · exact header_frame hsame (hapart _ hself (by omega)) (by omega)
    exact (congrArg BitVec.toNat hread).trans (hinv.live_header o' ho')
  · intro c
    refine chain_congr (fun x hx => ?_) (hinv.chain c)
    have hfits := hinv.free_fits c x hx
    have hne := (hinv.free_dead c x hx o ho).symm
    exact link_frame hsame (hapart x hne (by omega)) hfits

end HeapInv

/-! ## The run -/

/-- One step that respects the slots keeps the heap well formed. -/
theorem heapInv_step {st st' : HeapRun} {e : HeapEvent} (hinv : ∃ free, HeapInv st free)
    (hallowed : st.Allowed e) (hfit : st.SlotsFit e) (hstep : st.step e = some st') :
    ∃ free, HeapInv st' free := by
  rcases hinv with ⟨free, hinv⟩
  cases e with
  | malloc size mapped =>
    rcases hallowed with ⟨hmax, hmaps⟩
    have hsize : size.toNat + 4100 ≤ 2 ^ 31 := by omega
    simp only [HeapRun.step] at hstep
    split at hstep
    · next s' h hok =>
      cases hstep
      rcases preMalloc_cases (by omega) hok with
        ⟨hsource, hsmall, hfirst, hne, hmem, -, halloc⟩ |
        ⟨hsource, hsmall, hlo, hend, -, hmem, -, halloc⟩ |
        ⟨hsource, hsmall, rfl, hfirst, hmem, -, halloc⟩ | ⟨hsource, hlarge, rfl, hmem, -, halloc⟩
      · exact ⟨_,
          hinv.allocated_reuse hsource hsmall hfirst hne hmem halloc (hfirst ▸ hfit hsource)⟩
      · exact ⟨free, hinv.allocated_cut hsource hsmall hlo hend hmem halloc⟩
      · exact ⟨free, hinv.allocated_newZone hsource hsmall hmaps hfirst hmem halloc⟩
      · exact ⟨free, hinv.allocated_ownZone hsource hsize hmaps hmem halloc⟩
    · cases hstep
  | free p =>
    rcases hallowed with ⟨o, ho, rfl, -⟩
    rcases hfit with ⟨hresolves, hwide⟩
    simp only [HeapRun.step, Nat.add_sub_cancel] at hstep hwide
    split at hstep
    · next s' hok =>
      cases hstep
      obtain ⟨h, hheader, hne, hrelease⟩ := preFree_cases hok
      obtain rfl : h = o.header := Nat.add_right_cancel (hresolves h hheader hne)
      have hstored := hinv.live_header o ho
      have hmax := hinv.live_size o ho
      rcases hrelease (by omega) with ⟨hsmall, hmem, -, halloc⟩ | ⟨hlarge, hmem, -, halloc⟩
      · rw [hstored] at hmem halloc hsmall
        exact ⟨_, hinv.released_small ho hne hsmall hwide hmem halloc⟩
      · rw [hstored] at hlarge
        exact ⟨free, hinv.released_large ho hlarge hmem halloc⟩
    · cases hstep
  | write a v =>
    rcases hallowed with ⟨o, ho, hlo, hhi⟩
    cases hstep
    exact ⟨free, hinv.written ho v hlo hhi⟩

/-- In every run whose steps respect the slots, the live objects are apart and
inside mapped zones. -/
theorem noOverlap_of_run {mem : Mem} {es : List HeapEvent} {st : HeapRun}
    (hok : RunOk HeapRun.step (fun st e => st.Allowed e ∧ st.SlotsFit e) (HeapRun.init mem) es)
    (hrun : run HeapRun.step (HeapRun.init mem) es = some st) : st.NoOverlap := by
  have hstart : ∃ free, HeapInv (HeapRun.init mem) free := ⟨_, heapInv_init mem⟩
  obtain ⟨free, hinv⟩ := run_invariant_of_ok
    (fun _ _ _ hs h hstep => heapInv_step hs h.1 h.2 hstep) es _ st hstart hok hrun
  exact hinv.noOverlap

/-- Two objects of `n` bytes in a zone at `0x10000000`, of which the first is
freed before an object of `k` bytes is allocated. -/
def reuseEvents (n k : Int32) : List HeapEvent :=
  [.malloc n (some 0x10000000), .malloc n none, .free 0x10000004, .malloc k none]

theorem mapsFresh_none (st : HeapRun) (size : Nat) : st.MapsFresh size none :=
  fun _ hz => absurd hz (by simp)

theorem mapsFresh_init (mem : Mem) {size z : Nat} (hpage : z % 4096 = 0)
    (hend : z + (source (HeapRun.init mem).heap size).mapLength size < 2 ^ 64) :
    (HeapRun.init mem).MapsFresh size (some z) := by
  intro z' hz hlen
  cases hz
  exact ⟨hpage, hend, hlen, fun b hb => absurd hb (Nat.lt_irrefl 0)⟩

theorem slotsFit_of_first {st : HeapRun} {size : Int32} {mapped : Option Nat}
    (hfirst : (st.heap.allocator (classOf size.toNat)).first = 0) :
    st.SlotsFit (.malloc size mapped) := by
  intro hsource
  simp only [source, hfirst] at hsource
  split at hsource
  · simp at hsource
    split at hsource <;> cases hsource
  · cases hsource

/-- A slot of 24 bytes is reused for an object that needs 24 bytes. -/
theorem noOverlap_reuse_sixteen :
    ∃ st, run HeapRun.step (HeapRun.init fun _ => 0) (reuseEvents 16 18) = some st ∧
      st.live = [⟨0x10000000, 18⟩, ⟨0x10000018, 16⟩] ∧ st.NoOverlap := by
  have hok : RunOk HeapRun.step (fun st e => st.Allowed e ∧ st.SlotsFit e)
      (HeapRun.init fun _ => 0) (reuseEvents 16 18) := by
    refine (runOk_cons_of_some rfl).mpr ⟨⟨⟨by decide, ?_⟩, slotsFit_of_first rfl⟩, ?_⟩
    · exact mapsFresh_init _ (by decide) (by decide)
    refine (runOk_cons_of_some rfl).mpr
      ⟨⟨⟨by decide, mapsFresh_none _ _⟩, slotsFit_of_first rfl⟩, ?_⟩
    refine (runOk_cons_of_some rfl).mpr
      ⟨⟨⟨⟨0x10000000, 16⟩, by decide, rfl, by decide⟩, ?_, by decide⟩, ?_⟩
    · intro h hheader _
      cases hheader
      rfl
    refine (runOk_cons_of_some rfl).mpr ⟨⟨⟨by decide, mapsFresh_none _ _⟩, ?_⟩, trivial⟩
    exact fun _ => by decide
  exact ⟨_, rfl, rfl, noOverlap_of_run hok rfl⟩

/-- Sizes 12 and 13 share a class, but the slots are 16 and 24 bytes wide: the
reused slot runs into the next object. -/
theorem noOverlap_not_of_reuse_twelve :
    ¬ ∀ (mem : Mem) (es : List HeapEvent) (st : HeapRun),
      RunOk HeapRun.step HeapRun.Allowed (HeapRun.init mem) es →
      run HeapRun.step (HeapRun.init mem) es = some st → st.NoOverlap := by
  intro h
  have hok : RunOk HeapRun.step HeapRun.Allowed (HeapRun.init fun _ => 0) (reuseEvents 12 13) := by
    refine (runOk_cons_of_some rfl).mpr ⟨⟨by decide, ?_⟩, ?_⟩
    · exact mapsFresh_init _ (by decide) (by decide)
    refine (runOk_cons_of_some rfl).mpr ⟨⟨by decide, mapsFresh_none _ _⟩, ?_⟩
    refine (runOk_cons_of_some rfl).mpr
      ⟨⟨⟨0x10000000, 12⟩, by decide, rfl, by decide⟩, ?_⟩
    exact (runOk_cons_of_some rfl).mpr ⟨⟨by decide, mapsFresh_none _ _⟩, trivial⟩
  exact absurd (h _ _ _ hok rfl).1 (by decide)

end KernelMemVirt.Gc
