import KernelMemVirt.Janus.State
import KernelMemVirt.Lib.AccessLog
import KernelMemVirt.Lib.ByteMem

/-!
# The vector of the monitor

`vector.h`: an array in a block of the heap, with a capacity and a size that are counted in
elements.  Its functions are given the length of an element at each call.

* `Vector.push` and `Vector.remove` are the functions, with the bytes of the block that they access.
* `vector_grow` reallocates and leaves the capacity as it was, 0.  So there is room for 32 elements
  and never for more (`run_spec`), and the capacity is wrong from the first push on (`appends_iff`).
* `vector_remove` takes the element behind the last one for the last one: `removesOne_iff`.
-/

namespace KernelMemVirt.Janus

open ByteMem Logged

/-! ## The source -/

/-- A block of the heap, with the size that it has been allocated with. -/
structure Block where
  bytes : Mem
  extent : Word

/-- `realloc`, which does not fail.  There is `junk` where the old block had no byte. -/
def Block.realloc (block : Block) (size : Word) (junk : Mem) : Block where
  bytes x := if x < min block.extent.toNat size.toNat then block.bytes x else junk x
  extent := size

/-- `struct vector`.  A null pointer is a block without bytes. -/
structure Vector where
  capacity : Word
  size : Word
  buffer : Block

/-- Some bytes, counted from the start of a block, and the size of the block. -/
structure BlockAccess where
  off : Nat
  len : Nat
  extent : Nat

/-- The bytes are in the block. -/
def BlockAccess.Inside (a : BlockAccess) : Prop := a.off + a.len ≤ a.extent

namespace Vector

def create : Vector := ⟨0, 0, ⟨fun _ => 0, 0⟩⟩

def grow (self : Vector) (cap len : Word) (junk : Mem) : Vector :=
  if cap ≤ self.capacity then self
  else { self with buffer := self.buffer.realloc (cap * len) junk }

/-- The bytes of the buffer that start at `off`. -/
def range (self : Vector) (off len : Word) : BlockAccess :=
  ⟨off.toNat, len.toNat, self.buffer.extent.toNat⟩

/-- The test of `vector_push` for a full vector. -/
def room (self : Vector) (len : Word) (junk : Mem) : Vector :=
  if self.size = self.capacity then
    let nc := if self.capacity = 0 then 32 else self.capacity * 2
    self.grow nc len junk
  else self

/-- `memcpy` of `len` bytes at `e` to an offset of the buffer. -/
def store (self : Vector) (off : Word) (e : Mem) (len : Word) : Mem := fun x =>
  if off.toNat ≤ x ∧ x < off.toNat + len.toNat then e (x - off.toNat) else self.buffer.bytes x

/-- `vector_push`, with the memory at `e`.  It gives the offset of the new element. -/
def push (self : Vector) (e : Mem) (len : Word) (junk : Mem) :
    Logged BlockAccess (Word × Vector) := do
  let self := self.room len junk
  let off := self.size * len
  let bytes ← access (self.range off len) (self.store off e len)
  return (off, { self with buffer := ⟨bytes, self.buffer.extent⟩, size := self.size + 1 })

def remove (self : Vector) (index len : Word) : Logged BlockAccess Vector :=
  if self.size ≤ index then pure self
  else do
    let bytes ←
      if index ≠ self.size - 1 then do
        access (self.range (self.size * len) len) ()
        access (self.range (index * len) len)
          (copy self.buffer.bytes (index * len).toNat (self.size * len).toNat len.toNat)
      else pure self.buffer.bytes
    return { self with buffer := ⟨bytes, self.buffer.extent⟩, size := self.size - 1 }

def clear (self : Vector) : Vector := { self with size := 0 }

/-! ## Elements -/

/-- The `len` bytes at an offset. -/
def slot (bytes : Mem) (off len : Nat) : List (BitVec 8) :=
  (List.range len).map fun k => bytes (off + k)

/-- The elements that the vector holds. -/
def elements (v : Vector) (len : Word) : List (List (BitVec 8)) :=
  (List.range v.size.toNat).map fun i => slot v.buffer.bytes (i * len.toNat) len.toNat

section Elements

variable {v : Vector} {bytes bytes' : Mem} {off off' len : Nat}

theorem slot_congr (h : ∀ k < len, bytes (off + k) = bytes' (off' + k)) :
    slot bytes off len = slot bytes' off' len :=
  List.map_congr_left fun k hk => h k (List.mem_range.mp hk)

@[simp] theorem length_elements (v : Vector) (len : Word) :
    (v.elements len).length = v.size.toNat := by
  simp [elements]

/-- The elements are in the bytes below the end of the last one. -/
theorem elements_congr {v' : Vector} {len : Word} (hsize : v'.size = v.size)
    (hbytes : ∀ x < v.size.toNat * len.toNat, v'.buffer.bytes x = v.buffer.bytes x) :
    v'.elements len = v.elements len := by
  unfold elements
  rw [hsize]
  refine List.map_congr_left fun i hi => slot_congr fun k hk => hbytes _ ?_
  have hend : (i + 1) * len.toNat ≤ v.size.toNat * len.toNat :=
    Nat.mul_le_mul_right _ (List.mem_range.mp hi)
  rw [Nat.succ_mul] at hend
  omega

/-- An element that is stored behind the others. -/
theorem elements_store {len off : Word} {e : Mem} (hsize : v.size.toNat + 1 < 2 ^ 64)
    (hoff : off.toNat = v.size.toNat * len.toNat) :
    elements ⟨v.capacity, v.size + 1, ⟨v.store off e len, v.buffer.extent⟩⟩ len =
      v.elements len ++ [slot e 0 len.toNat] := by
  have hsucc : (v.size + 1).toNat = v.size.toNat + 1 := by bv_omega
  have hold : elements ⟨v.capacity, v.size, ⟨v.store off e len, v.buffer.extent⟩⟩ len =
      v.elements len :=
    elements_congr rfl fun x hx => if_neg (by omega)
  have hnew : slot (v.store off e len) (v.size.toNat * len.toNat) len.toNat =
      slot e 0 len.toNat := by
    refine slot_congr fun k hk => ?_
    rw [store, if_pos (by omega), hoff, Nat.add_sub_cancel_left, Nat.zero_add]
  rw [← hold, ← hnew]
  simp only [elements, hsucc, List.range_succ, List.map_append, List.map_cons, List.map_nil]

end Elements

/-! ## Pushes -/

/-- A call of one of the functions for elements of one length. -/
inductive Op where
  | push (e junk : Mem)
  | clear

/-- The vector after a list of calls. -/
def run (len : Word) (v : Vector) : List Op → Logged BlockAccess Vector
  | [] => pure v
  | .push e junk :: ops => do
    let pushed ← v.push e len junk
    run len pushed.2 ops
  | .clear :: ops => run len v.clear ops

/-- The elements that have been pushed since the last `clear`, where `elems` have been before. -/
def pushed (len : Word) (elems : List (List (BitVec 8))) : List Op → List (List (BitVec 8))
  | [] => elems
  | .push e _ :: ops => pushed len (elems ++ [slot e 0 len.toNat]) ops
  | .clear :: ops => pushed len [] ops

/-- After a list of calls, the vector is what the calls have made of it. -/
structure Appends (len : Word) (ops : List Op) : Prop where
  inside : (run len create ops).Within BlockAccess.Inside
  elements : (run len create ops).value.elements len = pushed len [] ops
  size : (run len create ops).value.size.toNat = (pushed len [] ops).length
  room : (run len create ops).value.size ≤ (run len create ops).value.capacity
  capacity : (run len create ops).value.capacity.toNat =
    (run len create ops).value.buffer.extent.toNat / len.toNat

/-- The elements that are there at a time, `n` at first, never need more than the bytes that the
first push allocates. -/
def Fits (len : Word) : Nat → List Op → Prop
  | _, [] => True
  | n, .push _ _ :: ops => (n + 1) * len.toNat ≤ (32 * len).toNat ∧ Fits len (n + 1) ops
  | _, .clear :: ops => Fits len 0 ops

/-- The vector holds `elems`, in a block that has been allocated for 32 elements. -/
structure Holds (len : Word) (v : Vector) (elems : List (List (BitVec 8))) : Prop where
  capacity : v.capacity = 0
  elements : v.elements len = elems
  extent : elems ≠ [] → v.buffer.extent = 32 * len
  fits : elems.length * len.toNat ≤ (32 * len).toNat

section Push

variable {len : Word} {v : Vector} {elems : List (List (BitVec 8))} {ops : List Op}

theorem Holds.size_eq (h : v.Holds len elems) : v.size.toNat = elems.length := by
  have hlength := congrArg List.length h.elements
  rwa [length_elements] at hlength

/-- An empty vector is full, as its capacity is 0, and the others never are. -/
theorem Holds.room (h : v.Holds len elems) (junk : Mem) :
    (v.room len junk).Holds len elems ∧ (v.room len junk).buffer.extent = 32 * len := by
  have hsize := h.size_eq
  have hcapacity := h.capacity
  by_cases hempty : elems = []
  · subst hempty
    have hzero : v.size = 0 := BitVec.eq_of_toNat_eq hsize
    have hroom : v.room len junk = { v with buffer := v.buffer.realloc (32 * len) junk } := by
      simp [Vector.room, grow, hzero, hcapacity]
    rw [hroom]
    refine ⟨⟨hcapacity, ?_, fun hne => absurd rfl hne, h.fits⟩, rfl⟩
    exact List.eq_nil_of_length_eq_zero ((length_elements _ _).trans hsize)
  · have hpos : v.size ≠ v.capacity := by
      have := List.length_pos_iff.mpr hempty
      bv_omega
    rw [Vector.room, if_neg hpos]
    exact ⟨h, h.extent hempty⟩

/-- The copy stays in the block as long as there is room for one element more. -/
theorem push_within (h : v.Holds len elems) (e junk : Mem) :
    (v.push e len junk).Within BlockAccess.Inside ↔
      (elems.length + 1) * len.toNat ≤ (32 * len).toNat := by
  obtain ⟨hroom, hextent⟩ := h.room junk
  have hoff : ((v.room len junk).size * len).toNat = elems.length * len.toNat := by
    have := h.fits
    rw [BitVec.toNat_mul, hroom.size_eq]
    exact Nat.mod_eq_of_lt (by omega)
  simp [push, Vector.range, BlockAccess.Inside, hoff, hextent, Nat.succ_mul]

/-- The new element comes after the others. -/
theorem Holds.push (h : v.Holds len elems) (e junk : Mem) (hlen : 1 ≤ len.toNat)
    (hfits : (elems.length + 1) * len.toNat ≤ (32 * len).toNat) :
    (v.push e len junk).value.2.Holds len (elems ++ [slot e 0 len.toNat]) ∧
      (v.push e len junk).value.2.buffer.extent = 32 * len := by
  obtain ⟨hroom, hextent⟩ := h.room junk
  have hsize := hroom.size_eq
  have hlt : elems.length + 1 < 2 ^ 64 := by
    have := Nat.le_mul_of_pos_right (elems.length + 1) hlen
    omega
  have hoff : ((v.room len junk).size * len).toNat =
      (v.room len junk).size.toNat * len.toNat := by
    have := h.fits
    rw [BitVec.toNat_mul, hsize]
    exact Nat.mod_eq_of_lt (by omega)
  refine ⟨⟨hroom.capacity, ?_, fun _ => hextent, by simpa using hfits⟩, hextent⟩
  rw [← hroom.elements]
  exact elements_store (by omega) hoff

theorem holds_create (len : Word) : create.Holds len [] :=
  ⟨rfl, rfl, fun h => absurd rfl h, by simp⟩

theorem Holds.clear (h : v.Holds len elems) : v.clear.Holds len [] :=
  ⟨h.capacity, rfl, fun h => absurd rfl h, by simp⟩

/-! ## A list of calls -/

/-- The copies stay in the block exactly as long as the elements fit, and up to there the vector
holds what has been pushed. -/
theorem run_spec (hlen : 1 ≤ len.toNat) (h : v.Holds len elems) (ops : List Op) :
    ((run len v ops).Within BlockAccess.Inside ↔ Fits len elems.length ops) ∧
      (Fits len elems.length ops → (run len v ops).value.Holds len (pushed len elems ops)) := by
  induction ops generalizing v elems with
  | nil => exact ⟨iff_of_true (within_pure v) trivial, fun _ => h⟩
  | cons op ops ih =>
    cases op with
    | clear => exact ih h.clear
    | push e junk =>
      have hwithin := push_within h e junk
      by_cases hfits : (elems.length + 1) * len.toNat ≤ (32 * len).toNat
      · have hrest := ih (h.push e junk hlen hfits).1
        rw [List.length_append, List.length_singleton] at hrest
        rw [run, within_bind, value_bind]
        exact ⟨and_congr hwithin hrest.1, fun hall => hrest.2 hall.2⟩
      · rw [run, within_bind]
        exact ⟨iff_of_false (fun hin => hfits (hwithin.mp hin.1)) (fun hall => hfits hall.1),
          fun hall => absurd hall.1 hfits⟩

/-- Once something has been pushed, the block is the one for 32 elements. -/
theorem extent_run (hlen : 1 ≤ len.toNat) (h : v.Holds len elems)
    (hfits : Fits len elems.length ops)
    (hpush : v.buffer.extent = 32 * len ∨ ∃ op ∈ ops, op ≠ .clear) :
    (run len v ops).value.buffer.extent = 32 * len := by
  induction ops generalizing v elems with
  | nil =>
    rcases hpush with hextent | ⟨op, hop, -⟩
    · exact hextent
    · cases hop
  | cons op ops ih =>
    cases op with
    | clear =>
      refine ih h.clear hfits (hpush.imp_right fun ⟨op, hop, hne⟩ => ⟨op, ?_, hne⟩)
      exact (List.mem_cons.mp hop).resolve_left hne
    | push e junk =>
      obtain ⟨hnext, hextent⟩ := h.push e junk hlen hfits.1
      refine ih hnext ?_ (Or.inl hextent)
      rw [List.length_append]
      exact hfits.2

/-- Without a push, nothing happens. -/
theorem appends_of_clears (hclears : ∀ op ∈ ops, op = .clear) : Appends len ops := by
  have hrun : run len create ops = pure create ∧ pushed len [] ops = [] := by
    induction ops with
    | nil => exact ⟨rfl, rfl⟩
    | cons op ops ih =>
      obtain rfl := hclears op List.mem_cons_self
      exact ih fun op hop => hclears op (List.mem_cons_of_mem _ hop)
  obtain ⟨hrun, hpushed⟩ := hrun
  constructor
  · rw [hrun]
    exact within_pure create
  · rw [hrun, hpushed]
    rfl
  · rw [hrun, hpushed]
    rfl
  · rw [hrun]
    exact BitVec.le_refl 0
  · rw [hrun]
    exact (Nat.zero_div len.toNat).symm

/-- A push needs the room for an element. -/
theorem Fits.le_of_push {n : Nat} (hfits : Fits len n ops) (hpush : ∃ op ∈ ops, op ≠ .clear) :
    len.toNat ≤ (32 * len).toNat := by
  induction ops generalizing n with
  | nil =>
    obtain ⟨op, hop, -⟩ := hpush
    cases hop
  | cons op ops ih =>
    cases op with
    | clear =>
      obtain ⟨op, hop, hne⟩ := hpush
      exact ih hfits ⟨op, (List.mem_cons.mp hop).resolve_left hne, hne⟩
    | push e junk => exact Nat.le_trans (Nat.le_mul_of_pos_left _ n.succ_pos) hfits.1

end Push

/-- No push leaves the vector with the capacity it should have: `vector_grow` does not set it.  What
is pushed is there, and in the block, as long as no more than the 32 elements of the first
allocation are. -/
theorem appends_iff (len : Word) (hlen : 1 ≤ len) (ops : List Op) :
    (Appends len ops ↔ ∀ op ∈ ops, op = .clear) ∧
      ((run len create ops).Within BlockAccess.Inside ↔ Fits len 0 ops) ∧
      (Fits len 0 ops → (run len create ops).value.elements len = pushed len [] ops) := by
  obtain ⟨hwithin, hholds⟩ := run_spec hlen (holds_create len) ops
  refine ⟨⟨fun happends => ?_, appends_of_clears⟩, hwithin, fun hfits => (hholds hfits).elements⟩
  by_contra hpush
  simp only [not_forall, exists_prop] at hpush
  have hfits := hwithin.mp happends.inside
  have hextent := extent_run hlen (holds_create len) hfits (Or.inr hpush)
  have hcapacity := happends.capacity
  rw [(hholds hfits).capacity, hextent] at hcapacity
  have hroom : 0 < (32 * len).toNat / len.toNat := Nat.div_pos (hfits.le_of_push hpush) hlen
  exact absurd hcapacity (Nat.ne_of_lt hroom)

/-- A byte, a `clear`, and another byte. -/
def reuse : List Op := [.push (fun _ => 1) (fun _ => 0), .clear, .push (fun _ => 2) (fun _ => 0)]

theorem appends_iff_reuse :
    ¬ Appends 1 reuse ∧ (run 1 create reuse).value.elements 1 = [[2]] := by
  obtain ⟨happends, -, helements⟩ := appends_iff 1 (by decide) reuse
  refine ⟨fun h => ?_, helements (by simp [reuse, Fits])⟩
  simpa [reuse] using happends.mp h

/-- The byte after the 32nd is written behind the block. -/
theorem not_appends_bytes :
    ¬ Appends 1 (List.replicate 33 (.push (fun _ => 1) (fun _ => 0))) := by
  intro h
  have hfits := (run_spec (by decide) (holds_create 1) _).1.mp h.inside
  simp [List.replicate, Fits] at hfits

/-! ## Removal -/

/-- The bytes are among those of the first `n` elements. -/
def OfElements (n : Nat) (len : Word) (a : BlockAccess) : Prop := a.off + a.len ≤ n * len.toNat

/-- `vector_remove` does nothing for an index behind the elements.  Otherwise it takes one element
out, and puts the last one in its place; it accesses nothing but the elements. -/
structure RemovesOne (v : Vector) (index len : Word) : Prop where
  outside : v.size ≤ index → (v.remove index len).value = v
  others : index < v.size →
    ((v.remove index len).value.elements len).Perm ((v.elements len).eraseIdx index.toNat)
  places : index < v.size → ∀ i, i + 1 < v.size.toNat → i ≠ index.toNat →
    ((v.remove index len).value.elements len)[i]? = (v.elements len)[i]?
  accesses : (v.remove index len).Within (OfElements v.size.toNat len)

section Remove

variable {v : Vector} {index len : Word}

/-- With one element less, the vector holds all but the last. -/
theorem elements_shrink {bytes : Mem} (hsize : v.size ≠ 0)
    (hbytes : ∀ x < (v.size.toNat - 1) * len.toNat, bytes x = v.buffer.bytes x) :
    elements ⟨v.capacity, v.size - 1, ⟨bytes, v.buffer.extent⟩⟩ len =
      (v.elements len).dropLast := by
  obtain ⟨n, hn⟩ : ∃ n, v.size.toNat = n + 1 := ⟨v.size.toNat - 1, by bv_omega⟩
  have hpred : (v.size - 1).toNat = n := by bv_omega
  have hshort : v.elements len =
      elements ⟨v.capacity, v.size - 1, v.buffer⟩ len ++
        [slot v.buffer.bytes (n * len.toNat) len.toNat] := by
    simp only [elements, hn, hpred, List.range_succ, List.map_append, List.map_cons, List.map_nil]
  rw [hshort, List.dropLast_concat]
  exact elements_congr rfl fun x hx => hbytes x (by rwa [hn, Nat.add_sub_cancel, ← hpred])

/-- It is enough that the bytes of all but the last element stay, and that the removed element is
the last one or like all the others. -/
theorem removesOne_of_kept {bytes : Mem} (hin : index < v.size)
    (hvalue : (v.remove index len).value = ⟨v.capacity, v.size - 1, ⟨bytes, v.buffer.extent⟩⟩)
    (hbytes : ∀ x < (v.size.toNat - 1) * len.toNat, bytes x = v.buffer.bytes x)
    (hperm : (v.elements len).dropLast.Perm ((v.elements len).eraseIdx index.toNat))
    (haccesses : (v.remove index len).Within (OfElements v.size.toNat len)) :
    RemovesOne v index len := by
  have hdrop : (v.remove index len).value.elements len = (v.elements len).dropLast := by
    rw [hvalue]
    exact elements_shrink (by bv_omega) hbytes
  refine ⟨fun h => absurd hin (BitVec.not_lt.mpr h), fun _ => hdrop ▸ hperm, fun _ i hi _ => ?_,
    haccesses⟩
  rw [hdrop, List.getElem?_dropLast, length_elements, if_pos (by omega)]

theorem removesOne_of_outside (houtside : v.size ≤ index) : RemovesOne v index len := by
  have hremove : v.remove index len = pure v := if_pos houtside
  have hin : ¬ index < v.size := BitVec.not_lt.mpr houtside
  refine ⟨fun _ => by rw [hremove]; rfl, fun h => absurd h hin, fun h => absurd h hin, ?_⟩
  rw [hremove]
  exact within_pure v

theorem removesOne_of_last (hin : index < v.size) (hlast : index = v.size - 1) :
    RemovesOne v index len := by
  have hremove : v.remove index len =
      pure ⟨v.capacity, v.size - 1, ⟨v.buffer.bytes, v.buffer.extent⟩⟩ := by
    rw [remove, if_neg (BitVec.not_le.mpr hin), if_neg (not_not.mpr hlast)]
    rfl
  have hlength : index.toNat + 1 = (v.elements len).length := by
    rw [length_elements]
    bv_omega
  refine removesOne_of_kept hin (congrArg Logged.value hremove) (fun _ _ => rfl) ?_ ?_
  · rw [List.eraseIdx_eq_dropLast hlength]
  · rw [hremove]
    exact within_pure _

/-- Any other element is overwritten with what is behind the last one. -/
theorem remove_of_inner (len : Word) (hin : index < v.size) (hne : index ≠ v.size - 1) :
    (v.remove index len).value = ⟨v.capacity, v.size - 1,
        ⟨copy v.buffer.bytes (index * len).toNat (v.size * len).toNat len.toNat,
          v.buffer.extent⟩⟩ ∧
      (v.remove index len).log = [v.range (v.size * len) len, v.range (index * len) len] := by
  rw [remove, if_neg (BitVec.not_le.mpr hin), if_pos hne]
  exact ⟨rfl, rfl⟩

/-- Elements without bytes are all the same. -/
theorem removesOne_of_no_bytes (hin : index < v.size) (hne : index ≠ v.size - 1) :
    RemovesOne v index 0 := by
  obtain ⟨hvalue, hlog⟩ := remove_of_inner 0 hin hne
  have helements : v.elements 0 = List.replicate v.size.toNat [] := by
    simp [elements, slot, List.map_const']
  have hindex : index.toNat < v.size.toNat := hin
  refine removesOne_of_kept hin hvalue (fun x hx => by simp at hx) ?_ ?_
  · rw [helements, List.dropLast_replicate, List.eraseIdx_replicate, if_pos hindex]
  · intro a ha
    rw [hlog] at ha
    simp only [List.mem_cons, List.not_mem_nil, or_false] at ha
    rcases ha with rfl | rfl <;> simp [OfElements, Vector.range]

/-- The bytes behind the last element are read. -/
theorem not_removesOne (hholds : v.size.toNat * len.toNat ≤ v.buffer.extent.toNat)
    (hin : index < v.size) (hne : index ≠ v.size - 1) (hlen : len ≠ 0) :
    ¬ RemovesOne v index len := by
  intro h
  have hoff : (v.size * len).toNat = v.size.toNat * len.toNat := by
    rw [BitVec.toNat_mul]
    exact Nat.mod_eq_of_lt (by omega)
  have hread : OfElements v.size.toNat len (v.range (v.size * len) len) :=
    h.accesses _ (by simp [(remove_of_inner len hin hne).2])
  have hpos : len.toNat ≠ 0 := fun hzero => hlen (BitVec.eq_of_toNat_eq hzero)
  simp only [OfElements, Vector.range, hoff] at hread
  omega

end Remove

/-- `vector_remove` is right for an index behind the elements and for the last one.  For any other
it copies what is behind the last element, if elements have any bytes. -/
theorem removesOne_iff (v : Vector) (index len : Word)
    (hholds : v.size.toNat * len.toNat ≤ v.buffer.extent.toNat) :
    RemovesOne v index len ↔ v.size ≤ index ∨ index = v.size - 1 ∨ len = 0 := by
  by_cases hin : index < v.size
  · by_cases hlast : index = v.size - 1
    · exact iff_of_true (removesOne_of_last hin hlast) (Or.inr (Or.inl hlast))
    by_cases hlen : len = 0
    · subst hlen
      exact iff_of_true (removesOne_of_no_bytes hin hlast) (Or.inr (Or.inr rfl))
    · refine iff_of_false (not_removesOne hholds hin hlast hlen) ?_
      rintro (houtside | hindex | hzero)
      · exact BitVec.not_lt.mpr houtside hin
      · exact hlast hindex
      · exact hlen hzero
  · have houtside := BitVec.not_lt.mp hin
    exact iff_of_true (removesOne_of_outside houtside) (Or.inl houtside)

/-- Two elements of one byte in a block that they fill. -/
def twoBytes : Vector := ⟨2, 2, ⟨fun k => if k = 0 then 1 else 2, 2⟩⟩

theorem removesOne_iff_twoBytes : RemovesOne twoBytes 1 1 ∧ RemovesOne twoBytes 2 1 :=
  ⟨(removesOne_iff twoBytes 1 1 (by decide)).mpr (Or.inr (Or.inl rfl)),
    (removesOne_iff twoBytes 2 1 (by decide)).mpr (Or.inl (by decide))⟩

/-- The removal of the first of them reads behind the block. -/
theorem not_removesOne_twoBytes : ¬ RemovesOne twoBytes 0 1 :=
  not_removesOne (by decide) (by decide) (by decide) (by decide)

end Vector

end KernelMemVirt.Janus
