import KernelMemVirt.Gc.Client
import KernelMemVirt.Lib.StateLogic

/-!
# The mutator

A program that runs on the heap of `alloc.c`: it takes objects from `gcmalloc`, loads and stores
inside of them, and stores references with `doWriteRef` of `gc.h`, which calls `_writeBarrier` of
`gc.c` first.

The state of a program is a `HeapRun`, the heap with the live objects.  A load or a store outside
the live objects is the `fault` that ends the program, so a program that does not fault is memory
safe.  Nothing frees objects here: the collector of `gc.c` is empty.

* `HeapOk` is the invariant.  `MutatorInv` is the invariant for sizes that are multiples of 8 and
  zones in the first 4 GiB, where `toHeader` finds every object (`ClientInv.toHeader_live`).
* `Grows` says what a program keeps: the objects that were there, with their bytes.
* `wp_gcmalloc`, `MutatorInv.stored` and `wp_writeBarrier` are the three operations: a new object
  is zeroed and apart from the others, a store shows in its own bytes only, and the assertion of
  the barrier holds.
-/

namespace KernelMemVirt.Gc

open ByteMem StateLogic

/-! ## The source -/

/-- Why a program ends before its end. -/
inductive Stop
  | heap (e : HeapError)
  /-- The assertion of `_writeBarrier`. -/
  | assertion
  /-- A division by zero, or an access outside the live objects. -/
  | fault
  /-- "ne devrait pas arriver" -/
  | unexpected
  /-- "votre hashmap est corrompue" -/
  | corrupted
  | outOfFuel
  deriving DecidableEq, Repr

/-- The zones with their lengths.  Nothing is freed, so a zone starts with a live object. -/
def HeapRun.zones (r : HeapRun) : List (Nat × Nat) :=
  r.live.filterMap fun o =>
    if 0 < r.zone o.header then some (o.header, r.zone o.header) else none

/-- What `mmap` returns for `len` bytes: whole pages, not at 0 and apart from the zones, or
`MAP_FAILED`.  It may depend on all that happened before. -/
structure Mmap where
  answer : HeapRun → Nat → Option Nat
  inRange : ∀ r len z, answer r len = some z → z % 4096 = 0 ∧ 0 < z ∧ z + len < 2 ^ 64
  apart : ∀ r len z, answer r len = some z → ∀ m ∈ r.zones, Apart z len m.1 m.2

/-- The zones are in the first 4 GiB. -/
def Mmap.Low (os : Mmap) : Prop := ∀ r len z, os.answer r len = some z → z + len ≤ 2 ^ 32

structure LowMmap extends Mmap where
  low : toMmap.Low

instance : Coe LowMmap Mmap := ⟨LowMmap.toMmap⟩

/-- The range lies in one live object. -/
def HeapRun.InObject (r : HeapRun) (a n : Nat) : Prop :=
  ∃ o ∈ r.live, toObject o.header ≤ a ∧ a + n ≤ toObject o.header + o.size

instance (r : HeapRun) (a n : Nat) : Decidable (r.InObject a n) :=
  inferInstanceAs (Decidable (∃ o ∈ r.live, _ ∧ _))

/-- A store of `n` bytes. -/
def HeapRun.stored (r : HeapRun) (a n : Nat) (v : BitVec (8 * n)) : HeapRun :=
  { r with heap := { r.heap with mem := writeBytes r.heap.mem a n v } }

abbrev Mutator := StateT HeapRun (Except Stop)

namespace Mutator

/-- A load of a pointer. -/
def load64 (a : Nat) : Mutator Nat := do
  let r ← get
  if r.InObject a 8 then return (read64 r.heap.mem a).toNat else throw .fault

/-- A load of an `int`. -/
def load32 (a : Nat) : Mutator Int32 := do
  let r ← get
  if r.InObject a 4 then return read32 r.heap.mem a else throw .fault

def store64 (a : Nat) (v : Nat) : Mutator Unit := do
  let r ← get
  if r.InObject a 8 then set (r.stored a 8 (BitVec.ofNat 64 v)) else throw .fault

def store32 (a : Nat) (v : Int32) : Mutator Unit := do
  let r ← get
  if r.InObject a 4 then set (r.stored a 4 v) else throw .fault

/-- `gcmalloc`. -/
def gcmalloc (os : Mmap) (size : Int32) : Mutator Nat := do
  let r ← get
  let len := (source r.heap size.toNat).mapLength size.toNat
  match r.heap.preMalloc size (os.answer r len) with
  | .ok (s', header) =>
    set (r.allocated s' size.toNat header)
    return toObject header
  | .error e => throw (.heap e)

def toHeader (p : Nat) : Mutator Nat := do
  match (← get).heap.toHeader p with
  | .ok header => return header
  | .error e => throw (.heap e)

/-- `_writeBarrier`. -/
def writeBarrier (dst src : Nat) : Mutator Unit := do
  let headerDst ← toHeader dst
  let headerSrc ← toHeader src
  if headerDst ≠ 0 ∧ headerSrc ≠ 0 then return () else throw .assertion

/-- `doWriteRef`, a macro that evaluates `src` twice. -/
def doWriteRef (dst : Nat) (src : Mutator Nat) : Mutator Unit := do
  writeBarrier dst (← src)
  store64 dst (← src)

end Mutator

/-! ## Objects -/

/-- `p` is the address of a live object of `n` bytes. -/
def HeapRun.HasObject (r : HeapRun) (p n : Nat) : Prop := ∃ h, p = toObject h ∧ ⟨h, n⟩ ∈ r.live

/-- The objects of `r` are there, with their bytes. -/
def Grows (r r' : HeapRun) : Prop :=
  ∀ p n, r.HasObject p n → r'.HasObject p n ∧
    ∀ a, p ≤ a → a < p + n → r'.heap.mem a = r.heap.mem a

/-- There is a new object. -/
structure NewObject (r r' : HeapRun) (p n : Nat) : Prop where
  object : r'.HasObject p n
  fresh : ∀ q k, r.HasObject q k → q ≠ p
  zeroed : ∀ a, p ≤ a → a < p + n → r'.heap.mem a = 0
  grows : Grows r r'

section Objects

variable {r r' r'' : HeapRun} {p q n k a : Nat}

theorem Grows.refl (r : HeapRun) : Grows r r := fun _ _ h => ⟨h, fun _ _ _ => rfl⟩

theorem Grows.trans (h : Grows r r') (h' : Grows r' r'') : Grows r r'' := by
  intro p n hp
  obtain ⟨hp', hbytes⟩ := h p n hp
  obtain ⟨hp'', hbytes'⟩ := h' p n hp'
  exact ⟨hp'', fun a hlo hhi => (hbytes' a hlo hhi).trans (hbytes a hlo hhi)⟩

theorem HeapRun.HasObject.inObject (h : r.HasObject p n) (hlo : p ≤ a) (hhi : a + k ≤ p + n) :
    r.InObject a k := by
  rcases h with ⟨header, rfl, hlive⟩
  exact ⟨_, hlive, hlo, hhi⟩

theorem HeapRun.HasObject.stored (h : r.HasObject p n) (v : BitVec (8 * k)) :
    (r.stored a k v).HasObject p n := h

/-- A read inside an object that is there before and after. -/
theorem Grows.readBytes (h : Grows r r') (hp : r.HasObject p n) (hlo : p ≤ a)
    (hhi : a + k ≤ p + n) :
    ByteMem.readBytes r'.heap.mem a k = ByteMem.readBytes r.heap.mem a k :=
  readBytes_congr fun x hx hx' => (h p n hp).2 x (by omega) (by omega)

end Objects

/-! ## The invariant -/

/-- The heap of a program that frees nothing. -/
structure HeapOk (r : HeapRun) : Prop where
  heap : HeapInv r fun _ => []
  bump : BumpZero r.heap
  zones : ∀ b, 0 < r.zone b → 0 < b ∧ ∃ o ∈ r.live, o.header = b

/-- The heap of a program that takes multiples of 8 bytes, with zones in the first 4 GiB. -/
structure MutatorInv (r : HeapRun) : Prop extends HeapOk r where
  client : ∃ free elmt, ClientInv ⟨r, []⟩ free elmt

theorem heapOk_init (mem : Mem) : HeapOk (HeapRun.init mem) where
  heap := heapInv_init mem
  bump := (clientInv_init mem).bump
  zones := by simp [HeapRun.init]

theorem mutatorInv_init (mem : Mem) : MutatorInv (HeapRun.init mem) where
  toHeapOk := heapOk_init mem
  client := ⟨_, _, clientInv_init mem⟩

/-- The heap with another memory. -/
def HeapRun.setMem (r : HeapRun) (mem : Mem) : HeapRun := { r with heap := { r.heap with mem } }

/-- A change of a range is made byte by byte. -/
theorem HeapRun.setMem_of_written {P : HeapRun → Prop} {r : HeapRun} {mem : Mem} {a n : Nat}
    (h : P r) (hsame : SameOutside r.heap.mem mem a n)
    (hbyte : ∀ r x v, P r → a ≤ x → x < a + n → P (r.written x v)) : P (r.setMem mem) := by
  induction n generalizing a r with
  | zero =>
    have hmem : mem = r.heap.mem := funext fun x => hsame x (by omega)
    rw [hmem]
    exact h
  | succ n ih =>
    refine @ih (r.written a (mem a)) (a + 1) (hbyte r a (mem a) h (Nat.le_refl a) (by omega))
      (fun x hx => ?_) fun r x v hr hlo hhi => hbyte r x v hr (by omega) (by omega)
    show mem x = Function.update r.heap.mem a (mem a) x
    by_cases hxa : x = a
    · rw [hxa, Function.update_self]
    · rw [Function.update_of_ne hxa]
      exact hsame x (by omega)

namespace HeapOk

variable {r : HeapRun} {p q n k a : Nat}

/-- A change inside a live object. -/
theorem setMem (h : HeapOk r) {mem : Mem} (hp : r.HasObject p n)
    (hsame : SameOutside r.heap.mem mem a k) (hlo : p ≤ a) (hhi : a + k ≤ p + n) :
    HeapOk (r.setMem mem) := by
  rcases hp with ⟨header, rfl, hlive⟩
  have hfit := h.heap.live_fits _ hlive
  dsimp only at hfit
  have hheap : HeapInv (r.setMem mem) (fun _ => []) ∧ (r.setMem mem).live = r.live := by
    refine @HeapRun.setMem_of_written (fun r' => HeapInv r' (fun _ => []) ∧ r'.live = r.live)
      r mem a k ⟨h.heap, rfl⟩ hsame fun r' x v hr hx hx' => ?_
    rcases hr with ⟨hinv, heq⟩
    exact ⟨hinv.written (o := ⟨header, n⟩) (heq ▸ hlive) v (Nat.le_trans hlo hx)
      (Nat.lt_of_lt_of_le hx' hhi), heq⟩
  refine ⟨hheap.1, fun c x hx hx' => ?_, h.zones⟩
  unfold toObject HEADER_SIZE at *
  have hroom : SameOutside r.heap.mem mem header (4 + n) := hsame.mono (by omega) (by omega)
  exact h.bump.slot h.heap hroom (Nat.le_refl header) (by omega) (by omega) hx hx'

theorem first_eq_zero (h : HeapOk r) (c : Nat) : (r.heap.allocator c).first = 0 := h.heap.chain c

/-- Objects are apart. -/
theorem apart (h : HeapOk r) (hp : r.HasObject p n) (hq : r.HasObject q k) (hne : p ≠ q) :
    Apart p n q k := by
  rcases hp with ⟨hd, rfl, hlive⟩
  rcases hq with ⟨hd', rfl, hlive'⟩
  have hfit := h.heap.live_fits _ hlive
  have hfit' := h.heap.live_fits _ hlive'
  dsimp only at hfit hfit'
  have hsep := h.heap.slot_sep (fun heq => hne (congrArg toObject heq))
    (show 0 < r.slot hd by omega) (show 0 < r.slot hd' by omega)
  unfold Apart toObject HEADER_SIZE at *
  omega

/-- What `mmap` returns is apart from the zones. -/
theorem mapsFresh (h : HeapOk r) (os : Mmap) (n : Nat) :
    r.MapsFresh n (os.answer r ((source r.heap n).mapLength n)) := by
  intro z hz hlen
  obtain ⟨hpage, -, hend⟩ := os.inRange _ _ z hz
  refine ⟨hpage, hend, hlen, fun b hb => ?_⟩
  obtain ⟨-, o, ho, rfl⟩ := h.zones b hb
  have hzone : (o.header, r.zone o.header) ∈ r.zones :=
    List.mem_filterMap.mpr ⟨o, ho, if_pos hb⟩
  exact os.apart _ _ z hz _ hzone

/-- A new object. -/
theorem malloc (h : HeapOk r) {size : Int32} (hsize : size.toNat + 4100 ≤ 2 ^ 31)
    {mapped : Option Nat} (hmaps : r.MapsFresh size.toNat mapped)
    (hpos : ∀ z, mapped = some z → 0 < z) {s' : Heap} {hd : Nat}
    (hmalloc : Malloc r.heap size mapped s' hd) : HeapOk (r.allocated s' size.toNat hd) := by
  refine ⟨?_, h.bump.malloc h.heap hmaps (slotsFit_of_first (h.first_eq_zero _)) hmalloc, ?_⟩
  · rcases hmalloc with ⟨-, -, hfirst, hne, -, -, -⟩ |
      ⟨hsource, hsmall, hlo, hend, -, hmem, -, halloc⟩ |
      ⟨hsource, hsmall, rfl, hfirst, hmem, -, halloc⟩ | ⟨hsource, -, rfl, hmem, -, halloc⟩
    · exact absurd (hfirst.symm.trans (h.first_eq_zero _)) hne
    · exact h.heap.allocated_cut hsource hsmall hlo hend hmem halloc
    · exact h.heap.allocated_newZone hsource hsmall hmaps hfirst hmem halloc
    · exact h.heap.allocated_ownZone hsource hsize hmaps hmem halloc
  · have hold : ∀ b, 0 < r.zone b → 0 < b ∧ ∃ o ∈ (r.allocated s' size.toNat hd).live,
        o.header = b := by
      intro b hb
      obtain ⟨hb0, o, ho, heq⟩ := h.zones b hb
      exact ⟨hb0, o, List.mem_cons_of_mem _ ho, heq⟩
    intro b hb
    rcases hmalloc.zone with heq | ⟨hz, -, heq⟩ <;> rw [heq] at hb
    · exact hold b hb
    · by_cases hbh : b = hd
      · subst hbh
        exact ⟨hpos b hz, _, List.mem_cons_self, rfl⟩
      · rw [Function.update_of_ne hbh] at hb
        exact hold b hb

/-- It is new. -/
theorem newObject (h : HeapOk r) {size : Int32} {mapped : Option Nat}
    (hmaps : r.MapsFresh size.toNat mapped) {s' : Heap} {hd : Nat}
    (hmalloc : Malloc r.heap size mapped s' hd) (h' : HeapOk (r.allocated s' size.toNat hd)) :
    NewObject r (r.allocated s' size.toNat hd) (toObject hd) size.toNat := by
  refine ⟨⟨hd, rfl, List.mem_cons_self⟩, ?_, fun a hlo hhi => h.bump.zeroed hmalloc hlo hhi, ?_⟩
  · rintro q k ⟨hq, rfl, hlive⟩ heq
    have hne := List.rel_of_pairwise_cons h'.heap.live_distinct hlive
    unfold toObject at heq
    exact hne (by dsimp only; omega)
  · rintro q k ⟨hq, rfl, hlive⟩
    refine ⟨⟨hq, rfl, List.mem_cons_of_mem _ hlive⟩, fun a hlo hhi => ?_⟩
    have hne := List.rel_of_pairwise_cons h'.heap.live_distinct hlive
    have hold := h.heap.live_fits _ hlive
    dsimp only at hne hold
    have hsep := h.heap.slot_taken hmaps (slotsFit_of_first (h.first_eq_zero _)) hmalloc
      hne.symm (by omega)
    refine hmalloc.sameOutside a ?_
    unfold Apart toObject HEADER_SIZE at *
    omega

/-- What `pre_malloc` leaves with the answer of `mmap`. -/
theorem gcmalloc (h : HeapOk r) {os : Mmap} {size : Int32} (hsize : size.toNat + 4100 ≤ 2 ^ 31)
    {s' : Heap} {hd : Nat}
    (hmalloc : Malloc r.heap size
      (os.answer r ((source r.heap size.toNat).mapLength size.toNat)) s' hd) :
    HeapOk (r.allocated s' size.toNat hd) ∧
      NewObject r (r.allocated s' size.toNat hd) (toObject hd) size.toNat := by
  have hmaps := h.mapsFresh os size.toNat
  have h' := h.malloc hsize hmaps (fun z hz => (os.inRange r _ z hz).2.1) hmalloc
  exact ⟨h', h.newObject hmaps hmalloc h'⟩

end HeapOk

/-- A change inside a live object. -/
theorem ClientInv.setMem {freed : List Obj} {free : Nat → List Nat} {elmt : Nat → Nat} {o : Obj}
    {n a : Nat} {mem : Mem} {r : HeapRun} (hinv : ClientInv ⟨r, freed⟩ free elmt)
    (ho : o ∈ r.live) (hsame : SameOutside r.heap.mem mem a n) (hlo : o.header + 4 ≤ a)
    (hhi : a + n ≤ o.header + 4 + o.size) : ClientInv ⟨r.setMem mem, freed⟩ free elmt := by
  have hboth := @HeapRun.setMem_of_written
    (fun r' => ClientInv ⟨r', freed⟩ free elmt ∧ r'.live = r.live) r mem a n ⟨hinv, rfl⟩ hsame
    fun r' x v hr hx hx' => by
      rcases hr with ⟨hinv, heq⟩
      exact ⟨hinv.written (heq ▸ ho) v (by omega) (by omega), heq⟩
  exact hboth.1

namespace MutatorInv

variable {r : HeapRun} {p q n k a : Nat}

theorem setMem (h : MutatorInv r) {mem : Mem} (hp : r.HasObject p n)
    (hsame : SameOutside r.heap.mem mem a k) (hlo : p ≤ a) (hhi : a + k ≤ p + n) :
    MutatorInv (r.setMem mem) := by
  refine ⟨h.toHeapOk.setMem hp hsame hlo hhi, ?_⟩
  rcases hp with ⟨header, rfl, hlive⟩
  obtain ⟨free, elmt, hinv⟩ := h.client
  exact ⟨free, elmt, hinv.setMem hlive hsame hlo hhi⟩

/-- A store inside a live object. -/
theorem stored (h : MutatorInv r) (hp : r.HasObject p n) (hlo : p ≤ a) (hhi : a + k ≤ p + n)
    (v : BitVec (8 * k)) : MutatorInv (r.stored a k v) :=
  h.setMem hp (sameOutside_writeBytes _ _ _ _) hlo hhi

/-- A new object. -/
theorem malloc (h : MutatorInv r) {size : Int32} (hpos : 0 < size.toNat)
    (hmod : size.toNat % 8 = 0) (hsize : size.toNat + 4100 ≤ 2 ^ 31) {os : Mmap} (hlow : os.Low)
    {s' : Heap} {hd : Nat}
    (hmalloc : Malloc r.heap size
      (os.answer r ((source r.heap size.toNat).mapLength size.toNat)) s' hd) :
    MutatorInv (r.allocated s' size.toNat hd) := by
  obtain ⟨free, elmt, hinv⟩ := h.client
  have hmaps := h.mapsFresh os size.toNat
  obtain ⟨free', hinv'⟩ := hinv.malloc hpos hmod hsize hmaps (fun z hz _ => hlow r _ z hz) hmalloc
  exact ⟨(h.toHeapOk.gcmalloc hsize hmalloc).1, free', _, hinv'⟩

/-- An object is in the first 4 GiB. -/
theorem bound (h : MutatorInv r) (hp : r.HasObject p n) : 4 ≤ p ∧ p + n ≤ 2 ^ 32 := by
  rcases hp with ⟨hd, rfl, hlive⟩
  obtain ⟨free, elmt, hinv⟩ := h.client
  have hfit := hinv.heap.live_fits _ hlive
  dsimp only at hfit
  obtain ⟨b, hlo, hhi⟩ := hinv.heap.layout.slot_in hd (show 0 < r.slot hd by omega)
  have hhi' : hd + r.slot hd ≤ b + r.zone b := hhi
  have hlow := hinv.zone_low b (show 0 < r.zone b by omega)
  dsimp only at hlow
  unfold toObject HEADER_SIZE
  omega

theorem object_pos (h : MutatorInv r) (hp : r.HasObject p n) : 0 < n := by
  rcases hp with ⟨hd, -, hlive⟩
  obtain ⟨free, elmt, hinv⟩ := h.client
  have hsize := (hinv.live_size _ hlive).1
  dsimp only at hsize
  omega

/-- A pointer into an object is resolved to a header. -/
theorem toHeader (h : MutatorInv r) (hp : r.HasObject p n) (hlo : p ≤ a) (hhi : a < p + n) :
    ∃ header, header ≠ 0 ∧ r.heap.toHeader a = .ok header := by
  rcases hp with ⟨hd, rfl, hlive⟩
  obtain ⟨free, elmt, hinv⟩ := h.client
  have hfit := hinv.heap.live_fits _ hlive
  dsimp only at hfit
  obtain ⟨b, hblo, hbhi⟩ := hinv.heap.layout.slot_in hd (show 0 < r.slot hd by omega)
  have hzone : 0 < r.zone b := by
    have hend : hd + r.slot hd ≤ b + r.zone b := hbhi
    omega
  obtain ⟨hpos, -⟩ := h.zones b hzone
  exact ⟨hd, by omega, hinv.toHeader_live hlive hlo hhi⟩

/-- A store shows in its own bytes only. -/
theorem read_stored_of_apart {b j : Nat} {v : BitVec (8 * k)} (h : Apart b j a k) :
    readBytes (r.stored a k v).heap.mem b j = readBytes r.heap.mem b j :=
  readBytes_writeBytes_of_apart h

theorem read_stored_self {v : BitVec (8 * k)} :
    readBytes (r.stored a k v).heap.mem a k = v :=
  readBytes_writeBytes_self _ _ _ _

end MutatorInv

/-! ## The operations -/

/-- The one reason to stop that is left: `mmap` fails. -/
def NoMemory (e : Stop) : Prop := e = .heap .mapFailed

/-- `pre_malloc` of a size that is not negative fails with `mmap` only. -/
theorem preMalloc_error {s : Heap} {size : Int32} {mapped : Option Nat} {e : HeapError}
    (hsize : size.toNat < 2 ^ 31) (h : s.preMalloc size mapped = .error e) : e = .mapFailed := by
  have hzone : ∀ (len elmt : Int32), s.newZone len elmt mapped = .error .mapFailed ∨
      ∃ x, s.newZone len elmt mapped = .ok x := by
    intro len elmt
    unfold Heap.newZone
    cases mapped with
    | none => exact .inl rfl
    | some z => exact .inr ⟨_, rfl⟩
  have htake : s.takeSlot size true mapped = .error e := by
    unfold Heap.preMalloc Heap.allocateInternal at h
    cases hslot : s.takeSlot size true mapped with
    | ok x =>
      rw [hslot] at h
      cases h
    | error e' =>
      rw [hslot] at h
      exact congrArg Except.error (Except.error.inj h)
  unfold Heap.takeSlot at htake
  by_cases hsmall : size.toNat < 8192
  · rw [getObjectAllocator_small hsmall] at htake
    dsimp only at htake
    split at htake
    · cases htake
    · unfold Heap.bump at htake
      dsimp only at htake
      split at htake
      · rcases hzone (align (totalSize size * 32) 4096) (totalSize size) with hz | ⟨x, hz⟩ <;>
          rw [hz] at htake <;> cases htake
        rfl
      · cases htake
  · rw [getObjectAllocator_large (by omega) hsize] at htake
    dsimp only at htake
    rcases hzone (align (totalSize size) 4096) (totalSize size) with hz | ⟨x, hz⟩ <;>
      rw [hz] at htake <;> cases htake
    rfl

namespace Mutator

variable {allowed : Stop → Prop} {os : Mmap} {r : HeapRun} {p n a : Nat}

theorem wp_load64 {Q : Nat → HeapRun → Prop} (h : r.InObject a 8) :
    wp allowed (load64 a) Q r ↔ Q (read64 r.heap.mem a).toNat r := by
  simp [load64, wp_ite, h]

theorem wp_load32 {Q : Int32 → HeapRun → Prop} (h : r.InObject a 4) :
    wp allowed (load32 a) Q r ↔ Q (read32 r.heap.mem a) r := by
  simp [load32, wp_ite, h]

theorem wp_store64 {Q : Unit → HeapRun → Prop} {v : Nat} (h : r.InObject a 8) :
    wp allowed (store64 a v) Q r ↔ Q () (r.stored a 8 (BitVec.ofNat 64 v)) := by
  simp [store64, wp_ite, h]

theorem wp_store32 {Q : Unit → HeapRun → Prop} {v : Int32} (h : r.InObject a 4) :
    wp allowed (store32 a v) Q r ↔ Q () (r.stored a 4 v) := by
  simp [store32, wp_ite, h]

/-- `gcmalloc` returns what `pre_malloc` takes, or `mmap` fails. -/
theorem wp_gcmalloc_of_malloc (hfail : allowed (.heap .mapFailed)) {size : Int32}
    (hsize : size.toNat < 2 ^ 31) {Q : Nat → HeapRun → Prop}
    (hQ : ∀ s' hd,
      Malloc r.heap size (os.answer r ((source r.heap size.toNat).mapLength size.toNat)) s' hd →
        Q (toObject hd) (r.allocated s' size.toNat hd)) :
    wp allowed (gcmalloc os size) Q r := by
  simp only [gcmalloc, wp_bind, wp_get]
  cases hok : r.heap.preMalloc size
      (os.answer r ((source r.heap size.toNat).mapLength size.toNat)) with
  | error e =>
    rw [preMalloc_error hsize hok]
    exact wp_throw.mpr hfail
  | ok x =>
    rcases x with ⟨s', hd⟩
    simp only [wp_bind, wp_set, wp_pure]
    exact hQ s' hd (preMalloc_cases hsize hok)

/-- `gcmalloc`. -/
theorem wp_gcmalloc_of_heapOk (hfail : allowed (.heap .mapFailed)) (h : HeapOk r) {size : Int32}
    (hsize : size.toNat + 4100 ≤ 2 ^ 31) :
    wp allowed (gcmalloc os size) (fun p r' => HeapOk r' ∧ NewObject r r' p size.toNat) r := by
  refine wp_gcmalloc_of_malloc hfail (by omega) fun s' hd hmalloc => ?_
  exact h.gcmalloc hsize hmalloc

/-- `gcmalloc`, for a multiple of 8. -/
theorem wp_gcmalloc {os : LowMmap} (h : MutatorInv r) {size : Int32} (hpos : 0 < size.toNat)
    (hmod : size.toNat % 8 = 0) (hsize : size.toNat + 4100 ≤ 2 ^ 31) :
    wp NoMemory (gcmalloc os size)
      (fun p r' => MutatorInv r' ∧ NewObject r r' p size.toNat) r := by
  have hfail : NoMemory (.heap .mapFailed) := rfl
  have hlt : size.toNat < 2 ^ 31 := by omega
  refine wp_gcmalloc_of_malloc hfail hlt fun s' hd hmalloc => ?_
  exact ⟨h.malloc hpos hmod hsize os.low hmalloc, (h.toHeapOk.gcmalloc hsize hmalloc).2⟩

/-- The assertion of the barrier holds for pointers into objects. -/
theorem wp_writeBarrier (h : MutatorInv r) {src q k : Nat} (hp : r.HasObject p n)
    (hlo : p ≤ a) (hhi : a < p + n) (hq : r.HasObject q k) (hlo' : q ≤ src) (hhi' : src < q + k)
    {Q : Unit → HeapRun → Prop} : wp allowed (writeBarrier a src) Q r ↔ Q () r := by
  obtain ⟨hd, hne, hfound⟩ := h.toHeader hp hlo hhi
  obtain ⟨hd', hne', hfound'⟩ := h.toHeader hq hlo' hhi'
  simp [writeBarrier, toHeader, wp_ite, hfound, hfound', hne, hne']

end Mutator

/-! ## An `mmap` -/

/-- The first page behind the zones, and behind page 0. -/
def zonesEnd (zones : List (Nat × Nat)) : Nat :=
  pageRound (zones.foldr (fun m n => max (m.1 + m.2) n) 4096)

theorem le_zonesEnd {zones : List (Nat × Nat)} {m : Nat × Nat} (hm : m ∈ zones) :
    m.1 + m.2 ≤ zonesEnd zones := by
  refine Nat.le_trans ?_ (le_pageRound _)
  induction zones with
  | nil => exact absurd hm List.not_mem_nil
  | cons m' zones ih =>
    rw [List.foldr_cons]
    rcases List.mem_cons.mp hm with rfl | hm
    · exact Nat.le_max_left _ _
    · exact Nat.le_trans (ih hm) (Nat.le_max_right _ _)

theorem zonesEnd_pos (zones : List (Nat × Nat)) : 0 < zonesEnd zones := by
  refine Nat.lt_of_lt_of_le ?_ (le_pageRound _)
  induction zones with
  | nil => simp
  | cons m zones ih => exact Nat.lt_of_lt_of_le ih (Nat.le_max_right _ _)

/-- An `mmap` that puts each zone behind the others, as long as the first 4 GiB last.  That is
more than the 764 MiB of `main.c`. -/
def pageMmap : LowMmap where
  answer r len :=
    if zonesEnd r.zones + len ≤ 2 ^ 32 then some (zonesEnd r.zones) else none
  inRange := by
    intro r len z h
    obtain ⟨hend, hz⟩ := Option.ite_none_right_eq_some.mp h
    obtain rfl := Option.some.inj hz
    have hpos := zonesEnd_pos r.zones
    exact ⟨pageRound_mod _, hpos, by omega⟩
  apart := by
    intro r len z h m hm
    obtain ⟨-, hz⟩ := Option.ite_none_right_eq_some.mp h
    obtain rfl := Option.some.inj hz
    exact .inr (le_zonesEnd hm)
  low := by
    intro r len z h
    obtain ⟨hend, hz⟩ := Option.ite_none_right_eq_some.mp h
    obtain rfl := Option.some.inj hz
    exact hend

end KernelMemVirt.Gc
