import KernelMemVirt.Lib.ByteMem
import Mathlib.Logic.Function.Basic

/-!
# The object allocator of the garbage collector

`alloc.c`: objects of fewer than 8192 bytes come from zones of equal elements,
one `object_allocator` for each size class, and a larger object has a zone of
its own.  The table `heap_desc` maps a page to the element size of its zone, or
to the distance to the first page of the zone, so that an interior pointer can
be resolved.

An address is a `Nat` below `2 ^ 64`.  What `mmap` returns is an input of an
allocation, `none` for `MAP_FAILED`; mapped memory is zeroed.  `error` ends the
process, and so does an access outside `allocator` or `heap_desc`; both are a
`HeapError`.
-/

namespace KernelMemVirt.Gc

open ByteMem

abbrev Word := BitVec 64

/-- An `int` or an `unsigned int`. -/
abbrev Int32 := BitVec 32

abbrev PAGE_SIZE : Nat := 4096

abbrev OBJECT_ALIGN : Int32 := 8

abbrev NB_ZONES : Nat := 2048

/-- The number of pages that `heap_desc` describes: `1 << HIGH_BITS` banks of
`1 << LOW_BITS` entries. -/
abbrev HEAP_PAGES : Nat := 1024 * 1024

/-- `sizeof(struct object_header)`. -/
abbrev HEADER_SIZE : Nat := 4

/-- `toObject`. -/
def toObject (header : Nat) : Nat := header + HEADER_SIZE

/-- `struct object_allocator`. -/
structure ObjectAllocator where
  first : Nat
  currentZone : Nat
  endZone : Nat
  deriving DecidableEq

/-- The variables of `alloc.c` and the memory.  Entry `n` of `desc` is
`heap_desc[n >> LOW_BITS].pages[n & ((1 << LOW_BITS) - 1)]`. -/
structure Heap where
  mem : Mem
  desc : Nat → Word
  allocator : Nat → ObjectAllocator
  nbAllocated : Word
  nbFree : Word
  sizeAllocated : Word
  sizeFree : Word
  sizeMapped : Word

/-- The ways the process may end. -/
inductive HeapError
  | mapFailed
  | notAnObject
  | inconsistentHashTable
  | outOfBounds
  deriving DecidableEq, Repr

/-- The heap after `init_bank_desc`. -/
def Heap.init (mem : Mem) : Heap where
  mem := mem
  desc := fun _ => 0
  allocator := fun _ => ⟨0, 0, 0⟩
  nbAllocated := 0
  nbFree := 0
  sizeAllocated := 0
  sizeFree := 0
  sizeMapped := 0

/-! ## Sizes -/

/-- `align`. -/
def align (size al : Int32) : Int32 := (size + al - 1) &&& -al

/-- `total_size`.  The sum is made in 64 bits and truncated again. -/
def totalSize (size : Int32) : Int32 := align ((if size = 0 then 8 else size) + 4) OBJECT_ALIGN

/-- `get_object_allocator`: an index into `allocator`, for an `int` below
`NB_ZONES << OBJECT_ALIGN_SHIFT`. -/
def getObjectAllocator (size : Int32) : Option Int :=
  if size.toInt < (NB_ZONES : Int) * 4 then some (size.toInt / 4) else none

/-! ## The page table -/

/-- The page number of `set_page_desc` and `toHeader`. -/
def pageNumber (p : Word) : Word := (p <<< 32) >>> 44

/-- `set_page_desc`.  The page number has 20 bits, so the access is in bounds. -/
def setPageDesc (desc : Nat → Word) (page : Nat) (value : Word) : Nat → Word :=
  Function.update desc (pageNumber (BitVec.ofNat 64 page)).toNat value

/-- The loop of `hash_zone`, for a number of turns that is at least that of the
source. -/
def hashLoop (desc : Nat → Word) (cur stop : Nat) (n depl : Int32) : Nat → Nat → Word
  | 0 => desc
  | turns + 1 =>
    if cur < stop then
      hashLoop (setPageDesc desc cur (n.signExtend 64)) (cur + PAGE_SIZE) stop (n + depl) depl turns
    else desc

/-- `hash_zone`. -/
def hashZone (desc : Nat → Word) (zone : Nat) (size elmtSize depl : Int32) : Nat → Word :=
  hashLoop (setPageDesc desc zone (elmtSize.signExtend 64)) (zone + PAGE_SIZE)
    (zone + size.toNat) depl depl (size.toNat / PAGE_SIZE)

/-! ## Allocation -/

namespace Heap

variable (s : Heap)

/-- `allocator[i] = a`. -/
def setAllocator (i : Nat) (a : ObjectAllocator) : Heap :=
  { s with allocator := Function.update s.allocator i a }

/-- `new_zone`. -/
def newZone (size elmtSize : Int32) (mapped : Option Nat) : Except HeapError (Heap × Nat) :=
  match mapped with
  | none => .error .mapFailed
  | some zone =>
    .ok
      ({ s with
          mem := fill s.mem zone 0 size.toNat
          desc := hashZone s.desc zone size elmtSize (-1)
          sizeMapped := s.sizeMapped + size.signExtend 64 },
        zone)

/-- The end of `allocate_internal`: the statistics and the header. -/
def putHeader (res : Nat) (size : Int32) : Heap :=
  { s with
    mem := write32 s.mem res size
    sizeAllocated := s.sizeAllocated + size.setWidth 64
    nbAllocated := s.nbAllocated + 1 }

/-- The branch of `allocate_internal` that takes an object off the free list. -/
def popFirst (i : Nat) (size : Int32) (zeroFilled : Bool) : Heap × Nat :=
  let a := s.allocator i
  let next := (read64 s.mem (a.first + HEADER_SIZE)).toNat
  let mem := if zeroFilled then fill s.mem (toObject a.first) 0 size.toNat else s.mem
  ({ s with mem }.setAllocator i { a with first := next }, a.first)

/-- The branch of `allocate_internal` that cuts an object off the current zone,
or off a new one. -/
def bump (i : Nat) (tot : Int32) (mapped : Option Nat) : Except HeapError (Heap × Nat) :=
  let a := s.allocator i
  if a.endZone < a.currentZone + tot.toNat then
    let size := align (tot * 32) 4096
    (s.newZone size tot mapped).map fun (s', zone) =>
      (s'.setAllocator i
        { a with currentZone := zone + tot.toNat, endZone := zone + size.toNat }, zone)
  else .ok (s.setAllocator i { a with currentZone := a.currentZone + tot.toNat }, a.currentZone)

/-- The part of `allocate_internal` under the lock: the memory for the object. -/
def takeSlot (size : Int32) (zeroFilled : Bool) (mapped : Option Nat) :
    Except HeapError (Heap × Nat) :=
  let tot := totalSize size
  match getObjectAllocator size with
  | some (.ofNat i) =>
    if (s.allocator i).first ≠ 0 then .ok (s.popFirst i size zeroFilled)
    else s.bump i tot mapped
  | some (.negSucc _) => .error .outOfBounds
  | none => s.newZone (align tot 4096) tot mapped

/-- `allocate_internal`. -/
def allocateInternal (size : Int32) (zeroFilled : Bool) (mapped : Option Nat) :
    Except HeapError (Heap × Nat) :=
  (s.takeSlot size zeroFilled mapped).map fun (s', res) => (s'.putHeader res size, res)

/-- `pre_malloc`. -/
def preMalloc (size : Int32) (mapped : Option Nat) : Except HeapError (Heap × Nat) :=
  s.allocateInternal size true mapped

/-! ## Resolution and release -/

/-- The last part of `toHeader`: page `n` is the first of a zone of elements of
`elmtSize` bytes.  The result 0 stands for a null pointer. -/
def headerIn (n elmtSize p : Word) : Nat :=
  let pageAddr := n <<< 12
  let header := pageAddr + elmtSize * ((p - pageAddr) / elmtSize)
  if p - (header + 4) < (read32 s.mem header.toNat).setWidth 64 then header.toNat else 0

/-- `toHeader`.  The result 0 stands for a null pointer. -/
def toHeader (p : Nat) : Except HeapError Nat :=
  let p : Word := BitVec.ofNat 64 p
  let n := pageNumber p
  let elmtSize : Int32 := (s.desc n.toNat).setWidth 32
  if elmtSize.toInt < 0 then
    let n := n + elmtSize.signExtend 64
    if HEAP_PAGES ≤ n.toNat then .error .outOfBounds
    else
      let elmtSize : Int32 := (s.desc n.toNat).setWidth 32
      if elmtSize.toInt ≤ 0 then .error .inconsistentHashTable
      else .ok (s.headerIn n (elmtSize.signExtend 64) p)
  else if elmtSize ≠ 0 then .ok (s.headerIn n (elmtSize.signExtend 64) p)
  else .ok 0

/-- The part of `pre_free` that gives the memory back.  The object of an
allocator goes on its free list; the pages of a large object are unmapped. -/
def giveBack (header : Nat) (size : Int32) : Except HeapError Heap :=
  match getObjectAllocator size with
  | some (.ofNat i) =>
    let a := s.allocator i
    let mem := write32 s.mem header 0
    let mem := write64 mem (header + HEADER_SIZE) (BitVec.ofNat 64 a.first)
    .ok ({ s with mem }.setAllocator i { a with first := header })
  | some (.negSucc _) => .error .outOfBounds
  | none => .ok { s with desc := hashZone s.desc header (align (totalSize size) 4096) 0 0 }

/-- The statistics of `pre_free`. -/
def countFree (size : Int32) : Heap :=
  { s with nbFree := s.nbFree + 1, sizeFree := s.sizeFree + size.signExtend 64 }

/-- `pre_free`. -/
def preFree (p : Nat) : Except HeapError Heap := do
  let header ← s.toHeader p
  if header ≠ 0 then
    let size := read32 s.mem header
    let s' ← s.giveBack header size
    return s'.countFree size
  else .error .notAnObject

end Heap

end KernelMemVirt.Gc
