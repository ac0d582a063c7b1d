import KernelMemVirt.Janus.Multiboot2
import KernelMemVirt.Lib.ByteMem

/-!
# Loading the guest image

`load_multiboot2` of `monitor/multiboot2.c` reads a part of a file to `load_addr`, up to
`load_end_addr`, and clears the memory from there to `bss_end_addr`.  The lengths are differences of
32 bits, taken before anything is known about the order of the three addresses.  The header format
has 0 for `bss_end_addr` where there is nothing to clear.

* `loadMultiboot2` is the function, with the ranges of memory that it writes.
* `Loadable` is when it returns 0, and `loadMultiboot2_of_loadable` is what it has done then.
* `ImageLoaded` is what it should have done, and `loadsRight_iff` says when it has.
-/

namespace KernelMemVirt.Janus.Multiboot2

open ByteMem Logged

/-! ## The source -/

/-- A file that has been opened.  There is no seeking in a pipe. -/
structure Stream where
  bytes : List (BitVec 8)
  seekable : Bool
  deriving DecidableEq

/-- The address space of the monitor. -/
structure Space where
  mem : Mem
  mapped : Nat → Bool

/-- A store into a range, that leaves the memory `mem`.  One into a range that is not all mapped
does not come to an end. -/
def Space.store (space : Space) (range : Bytes) (mem : Mem) : Logged Bytes (Option Space) :=
  access range
    (if ∀ k < range.len, space.mapped (range.off + k) then some { space with mem } else none)

/-- The memory with the first `n` bytes of a list at an address. -/
def storeBytes (mem : Mem) (addr n : Nat) (bytes : List (BitVec 8)) : Mem := fun x =>
  if addr ≤ x ∧ x < addr + n then bytes.getD (x - addr) 0 else mem x

/-- `fread` of one item of `len` bytes, from an offset.  It gives the number of items read; an item
of no bytes is none. -/
def fread (space : Space) (addr len : Nat) (stream : Stream) (start : Nat) :
    Logged Bytes (Option (Nat × Space)) := do
  let rest := stream.bytes.drop start
  let got := min len rest.length
  match ← space.store ⟨addr, got⟩ (storeBytes space.mem addr got rest) with
  | none => pure none
  | some space => pure (some (if len ≠ 0 ∧ len ≤ rest.length then 1 else 0, space))

def memset (space : Space) (addr : Nat) (c : BitVec 8) (len : Nat) : Logged Bytes (Option Space) :=
  space.store ⟨addr, len⟩ (fill space.mem addr c len)

namespace LoadInfo

variable (info : LoadInfo (BitVec 32))

/-- `size_t len`. -/
def len : Word := (info.loadEndAddr - info.loadAddr).setWidth 64

/-- `size_t bss`. -/
def bss : Word := (info.bssEndAddr - info.loadEndAddr).setWidth 64

/-- `uint32_t start`. -/
def start : BitVec 32 := info.headerOff - (info.headerAddr - info.loadAddr)

end LoadInfo

/-- `load_multiboot2`, where no file is one that cannot be opened. -/
def loadMultiboot2 (space : Space) (info : LoadInfo (BitVec 32)) :
    Option Stream → Logged Bytes (Option (Int × Space))
  | none => pure (some (-1, space))
  | some stream =>
    if stream.seekable = false then pure (some (-1, space))
    else do
      match ← fread space info.loadAddr.toNat info.len.toNat stream info.start.toNat with
      | none => pure none
      | some (items, space) =>
        if items ≠ 1 then pure (some (-1, space))
        else do
          match ← memset space info.loadEndAddr.toNat 0 info.bss.toNat with
          | none => pure none
          | some space => pure (some (0, space))

/-! ## What it should do -/

/-- A byte of the file. -/
def Stream.byteAt (stream : Stream) (i : Int) : Option (BitVec 8) :=
  if 0 ≤ i then stream.bytes[i.toNat]? else none

namespace LoadInfo

variable (info : LoadInfo (BitVec 32))

/-- The offset in the file of what belongs at `load_addr`. -/
def fileOffset : Int := info.headerOff.toNat - (info.headerAddr.toNat - info.loadAddr.toNat : Int)

/-- The address is one of the image. -/
def InImage (x : Nat) : Prop := info.loadAddr.toNat ≤ x ∧ x < info.loadEndAddr.toNat

/-- The address is one of the bss. -/
def InBss (x : Nat) : Prop := info.loadEndAddr.toNat ≤ x ∧ x < info.bssEndAddr.toNat

end LoadInfo

/-- The image is in memory, and nothing else has been written. -/
structure ImageLoaded (info : LoadInfo (BitVec 32)) (stream : Stream) (mem : Mem)
    (written : List Bytes) : Prop where
  image : ∀ x, info.InImage x →
    stream.byteAt (info.fileOffset + (x - info.loadAddr.toNat : Nat)) = some (mem x)
  bss : ∀ x, info.InBss x → mem x = 0
  only : ∀ b ∈ written, ∀ k < b.len, info.InImage (b.off + k) ∨ info.InBss (b.off + k)

/-- If `load_multiboot2` returns 0, it has loaded the image. -/
def LoadsRight (space : Space) (info : LoadInfo (BitVec 32)) (file : Option Stream) : Prop :=
  ∀ space', (loadMultiboot2 space info file).value = some (0, space') →
    ∃ stream, file = some stream ∧
      ImageLoaded info stream space'.mem (loadMultiboot2 space info file).log

/-! ## When it returns 0 -/

/-- There are bytes to load, the file has them all, and where they go is mapped. -/
structure Loadable (space : Space) (info : LoadInfo (BitVec 32)) (stream : Stream) : Prop where
  seekable : stream.seekable = true
  nonempty : info.loadAddr ≠ info.loadEndAddr
  long : info.start.toNat + info.len.toNat ≤ stream.bytes.length
  image : ∀ k < info.len.toNat, space.mapped (info.loadAddr.toNat + k)
  bss : ∀ k < info.bss.toNat, space.mapped (info.loadEndAddr.toNat + k)

section Load

variable {space space' : Space} {info : LoadInfo (BitVec 32)} {stream : Stream}
  {file : Option Stream}

/-- The memory with the image and the bss in it. -/
def loadedMem (mem : Mem) (info : LoadInfo (BitVec 32)) (stream : Stream) : Mem :=
  fill (storeBytes mem info.loadAddr.toNat info.len.toNat (stream.bytes.drop info.start.toNat))
    info.loadEndAddr.toNat 0 info.bss.toNat

theorem len_ne_zero_iff : info.len.toNat ≠ 0 ↔ info.loadAddr ≠ info.loadEndAddr := by
  unfold LoadInfo.len
  constructor <;> bv_omega

theorem store_of_mapped {range : Bytes} {mem : Mem}
    (hmapped : ∀ k < range.len, space.mapped (range.off + k)) :
    space.store range mem = access range (some { space with mem }) := by
  rw [Space.store, if_pos hmapped]

theorem mapped_of_store {range : Bytes} {mem : Mem}
    (hstore : (space.store range mem).value = some space') :
    (∀ k < range.len, space.mapped (range.off + k)) ∧ space' = { space with mem } := by
  unfold Space.store at hstore
  split at hstore
  · rename_i hmapped
    exact ⟨hmapped, (Option.some.inj hstore).symm⟩
  · cases hstore

/-- The read of an item that the file has all of. -/
theorem fread_of_long {addr len start : Nat} (hlen : len ≠ 0)
    (hlong : start + len ≤ stream.bytes.length) (hmapped : ∀ k < len, space.mapped (addr + k)) :
    fread space addr len stream start = access ⟨addr, len⟩
      (some (1, ⟨storeBytes space.mem addr len (stream.bytes.drop start), space.mapped⟩)) := by
  have hrest : len ≤ (stream.bytes.drop start).length := by
    rw [List.length_drop]
    omega
  unfold fread
  dsimp only
  rw [Nat.min_eq_left hrest, if_pos ⟨hlen, hrest⟩, store_of_mapped hmapped]
  rfl

/-- An item has been read only if the file has all of it. -/
theorem long_of_fread {addr len start : Nat}
    (hread : (fread space addr len stream start).value = some (1, space')) :
    len ≠ 0 ∧ start + len ≤ stream.bytes.length ∧ (∀ k < len, space.mapped (addr + k)) ∧
      space'.mapped = space.mapped := by
  unfold fread at hread
  simp only [value_bind] at hread
  cases hstore : (space.store ⟨addr, min len (stream.bytes.drop start).length⟩
      (storeBytes space.mem addr (min len (stream.bytes.drop start).length)
        (stream.bytes.drop start))).value with
  | none =>
    rw [hstore] at hread
    cases hread
  | some stored =>
    obtain ⟨hmapped, rfl⟩ := mapped_of_store hstore
    simp only [hstore, value_pure, Option.some.injEq, Prod.mk.injEq] at hread
    obtain ⟨hitems, rfl⟩ := hread
    by_cases hall : len ≠ 0 ∧ len ≤ (stream.bytes.drop start).length
    · simp only [Nat.min_eq_left hall.2] at hmapped
      rw [List.length_drop] at hall
      exact ⟨hall.1, by omega, hmapped, rfl⟩
    · rw [if_neg hall] at hitems
      cases hitems

theorem loadMultiboot2_of_loadable (h : Loadable space info stream) :
    (loadMultiboot2 space info (some stream)).value =
        some (0, ⟨loadedMem space.mem info stream, space.mapped⟩) ∧
      (loadMultiboot2 space info (some stream)).log =
        [⟨info.loadAddr.toNat, info.len.toNat⟩, ⟨info.loadEndAddr.toNat, info.bss.toNat⟩] := by
  have hread := fread_of_long (len_ne_zero_iff.mpr h.nonempty) h.long h.image
  have hclear : ∀ mem c, memset ⟨mem, space.mapped⟩ info.loadEndAddr.toNat c info.bss.toNat =
      access _ (some ⟨fill mem _ c _, space.mapped⟩) := fun mem c => store_of_mapped h.bss
  simp [loadMultiboot2, h.seekable, hread, hclear, loadedMem]

/-- It returns 0 for no other input. -/
theorem loadable_of_returns_zero
    (hzero : (loadMultiboot2 space info file).value = some (0, space')) :
    ∃ stream, file = some stream ∧ Loadable space info stream := by
  cases file with
  | none => simp [loadMultiboot2] at hzero
  | some stream =>
    refine ⟨stream, rfl, ?_⟩
    unfold loadMultiboot2 at hzero
    cases hseek : stream.seekable with
    | false => simp [hseek] at hzero
    | true =>
      simp only [hseek, Bool.true_eq_false, if_false, value_bind] at hzero
      cases hread : (fread space info.loadAddr.toNat info.len.toNat stream
          info.start.toNat).value with
      | none => simp [hread] at hzero
      | some result =>
        obtain ⟨items, space1⟩ := result
        simp only [hread] at hzero
        by_cases hitems : items = 1
        · subst hitems
          obtain ⟨hlen, hlong, himage, hmapped⟩ := long_of_fread hread
          simp only [ne_eq, not_true_eq_false, if_false, value_bind] at hzero
          cases hclear : (memset space1 info.loadEndAddr.toNat 0 info.bss.toNat).value with
          | none =>
            rw [hclear] at hzero
            cases hzero
          | some space2 =>
            have hbss := (mapped_of_store hclear).1
            rw [hmapped] at hbss
            exact ⟨hseek, len_ne_zero_iff.mp hlen, hlong, himage, hbss⟩
        · simp [hitems] at hzero

/-! ## When it has loaded the image -/

/-- The addresses are in the order of the header format, and the file has the same bytes at `start`
as at the offset that the header means. -/
structure WellPlaced (info : LoadInfo (BitVec 32)) (stream : Stream) : Prop where
  image : info.loadAddr ≤ info.loadEndAddr
  bss : info.loadEndAddr ≤ info.bssEndAddr
  offset : ∀ k < info.len.toNat,
    stream.byteAt (info.fileOffset + k) = stream.byteAt (info.start.toNat + k)

/-- A difference that has not wrapped is the distance of its ends. -/
theorem add_sub_of_le {a b : BitVec 32} (hle : a ≤ b) :
    a.toNat + ((b - a).setWidth 64).toNat = b.toNat := by
  bv_omega

/-- A difference that has wrapped leads to the end of the 32-bit addresses. -/
theorem le_add_sub_of_lt {a b : BitVec 32} (hlt : b < a) :
    2 ^ 32 ≤ a.toNat + ((b - a).setWidth 64).toNat := by
  bv_omega

theorem add_len (hle : info.loadAddr ≤ info.loadEndAddr) :
    info.loadAddr.toNat + info.len.toNat = info.loadEndAddr.toNat := add_sub_of_le hle

theorem not_inside_last {x : Nat} (hx : 2 ^ 32 ≤ x + 1) : ¬ (info.InImage x ∨ info.InBss x) := by
  have := info.loadEndAddr.isLt
  have := info.bssEndAddr.isLt
  unfold LoadInfo.InImage LoadInfo.InBss
  omega

/-- A byte of the image in memory is the one of the file at `start`. -/
theorem byteAt_eq_loadedMem {mem : Mem} (h : Loadable space info stream)
    (hle : info.loadAddr ≤ info.loadEndAddr) {k : Nat} (hk : k < info.len.toNat) :
    stream.byteAt (info.start.toNat + k) =
      some (loadedMem mem info stream (info.loadAddr.toNat + k)) := by
  have hend := add_len hle
  have hlong := h.long
  rw [loadedMem, fill_apply_of_outside (Or.inl (by omega)), storeBytes, if_pos (by omega),
    Nat.add_sub_cancel_left, Stream.byteAt, if_pos (by omega), List.getD_eq_getElem?_getD,
    List.getElem?_drop]
  have hlt : info.start.toNat + k < stream.bytes.length := by omega
  rw [show ((info.start.toNat : Int) + k).toNat = info.start.toNat + k by omega,
    List.getElem?_eq_getElem hlt]
  rfl

theorem imageLoaded_iff {mem : Mem} (h : Loadable space info stream) :
    ImageLoaded info stream (loadedMem mem info stream)
        [⟨info.loadAddr.toNat, info.len.toNat⟩, ⟨info.loadEndAddr.toNat, info.bss.toNat⟩] ↔
      WellPlaced info stream := by
  have hlen := len_ne_zero_iff.mpr h.nonempty
  constructor
  · intro hloaded
    have himage : info.loadAddr ≤ info.loadEndAddr := by
      by_contra hlt
      have hwrap : 2 ^ 32 ≤ info.loadAddr.toNat + info.len.toNat :=
        le_add_sub_of_lt (BitVec.not_le.mp hlt)
      have hlast := hloaded.only _ List.mem_cons_self (info.len.toNat - 1) (Nat.sub_one_lt hlen)
      exact not_inside_last (by dsimp only; omega) hlast
    have hbss : info.loadEndAddr ≤ info.bssEndAddr := by
      by_contra hlt
      have hwrap : 2 ^ 32 ≤ info.loadEndAddr.toNat + info.bss.toNat :=
        le_add_sub_of_lt (BitVec.not_le.mp hlt)
      have hpos : info.bss.toNat ≠ 0 := by
        have := info.loadEndAddr.isLt
        omega
      have hlast := hloaded.only _ (List.mem_cons_of_mem _ List.mem_cons_self)
        (info.bss.toNat - 1) (Nat.sub_one_lt hpos)
      exact not_inside_last (by dsimp only; omega) hlast
    refine ⟨himage, hbss, fun k hk => ?_⟩
    have hend := add_len himage
    have hbyte := hloaded.image (info.loadAddr.toNat + k) ⟨by omega, by omega⟩
    rw [Nat.add_sub_cancel_left] at hbyte
    exact hbyte.trans (byteAt_eq_loadedMem h himage hk).symm
  · rintro ⟨himage, hbss, hoffset⟩
    have hend := add_len himage
    have hend' : info.loadEndAddr.toNat + info.bss.toNat = info.bssEndAddr.toNat :=
      add_sub_of_le hbss
    refine ⟨fun x hx => ?_, fun x hx => ?_, fun b hb k hk => ?_⟩
    · obtain ⟨k, rfl⟩ := Nat.exists_eq_add_of_le hx.1
      have hk : k < info.len.toNat := by
        have := hx.2
        omega
      rw [Nat.add_sub_cancel_left, hoffset k hk, byteAt_eq_loadedMem h himage hk]
    · exact fill_apply_of_inside hx.1 (by have := hx.2; omega)
    · simp only [List.mem_cons, List.not_mem_nil, or_false] at hb
      rcases hb with rfl | rfl
      · exact Or.inl ⟨by dsimp only; omega, by dsimp only at hk ⊢; omega⟩
      · exact Or.inr ⟨by dsimp only; omega, by dsimp only at hk ⊢; omega⟩

theorem wellPlaced_of_loadsRight (h : Loadable space info stream)
    (hright : LoadsRight space info (some stream)) : WellPlaced info stream := by
  obtain ⟨hvalue, hlog⟩ := loadMultiboot2_of_loadable h
  obtain ⟨stream', hstream, hloaded⟩ := hright _ hvalue
  cases hstream
  rw [hlog] at hloaded
  exact (imageLoaded_iff h).mp hloaded

/-- What `load_multiboot2` has done when it returns 0 is right exactly for the headers whose
addresses are in order, and whose offset in the file is the one that 32 bits give. -/
theorem loadsRight_iff (space : Space) (info : LoadInfo (BitVec 32)) (file : Option Stream) :
    LoadsRight space info file ↔
      ∀ stream, file = some stream → Loadable space info stream → WellPlaced info stream := by
  constructor
  · rintro hright stream rfl h
    exact wellPlaced_of_loadsRight h hright
  · intro hplaced space' hzero
    obtain ⟨stream, rfl, h⟩ := loadable_of_returns_zero hzero
    obtain ⟨hvalue, hlog⟩ := loadMultiboot2_of_loadable h
    rw [hvalue] at hzero
    cases hzero
    refine ⟨stream, rfl, ?_⟩
    rw [hlog]
    exact (imageLoaded_iff h).mpr (hplaced stream rfl h)

/-- A header without a bss, for an image of 16 bytes. -/
def noBss : LoadInfo (BitVec 32) := ⟨0, 0x100000, 0x100000, 0x100010, 0, 0x100000⟩

/-- Everything from the end of the image to the end of the 32-bit addresses is cleared. -/
theorem not_loadsRight_noBss :
    ¬ LoadsRight ⟨fun _ => 1, fun _ => true⟩ noBss (some ⟨List.replicate 16 1, true⟩) := by
  intro hright
  have hloadable : Loadable ⟨fun _ => 1, fun _ => true⟩ noBss ⟨List.replicate 16 1, true⟩ :=
    ⟨rfl, by simp [noBss], by simp [noBss, LoadInfo.start, LoadInfo.len], fun _ _ => rfl,
      fun _ _ => rfl⟩
  have hbss := (wellPlaced_of_loadsRight hloadable hright).bss
  simp [noBss] at hbss

/-- The header is 16 bytes further in memory than in the image that the addresses give. -/
def headerAbove : LoadInfo (BitVec 32) := ⟨0x10, 0x100020, 0x100000, 0x100010, 0x100010, 0x100000⟩

/-- The bytes of the image would be in front of the file, and `start` wraps to the end of a file of
4 GiB.  Only the image has to be mapped. -/
theorem not_loadsRight_headerAbove {bytes : List (BitVec 8)} (hlength : bytes.length = 2 ^ 32) :
    ¬ LoadsRight ⟨fun _ => 0, fun x => decide (0x100000 ≤ x ∧ x < 0x100010)⟩ headerAbove
      (some ⟨bytes, true⟩) := by
  intro hright
  have hstart : headerAbove.start.toNat = 0xfffffff0 := by decide
  have hlen : headerAbove.len.toNat = 16 := by decide
  have hbss : headerAbove.bss.toNat = 0 := by decide
  have haddr : headerAbove.loadAddr.toNat = 0x100000 := by decide
  have hloadable : Loadable ⟨fun _ => 0, fun x => decide (0x100000 ≤ x ∧ x < 0x100010)⟩ headerAbove
      ⟨bytes, true⟩ := by
    refine ⟨rfl, by decide, ?_, fun k hk => ?_, fun k hk => ?_⟩
    · dsimp only
      omega
    · rw [decide_eq_true_eq]
      omega
    · omega
  have hfirst := (wellPlaced_of_loadsRight hloadable hright).offset 0 (by omega)
  have hbefore : ¬ 0 ≤ headerAbove.fileOffset + ((0 : Nat) : Int) := by decide
  rw [Stream.byteAt, Stream.byteAt, if_neg hbefore, if_pos (by omega)] at hfirst
  have hin := List.getElem?_eq_none_iff.mp hfirst.symm
  dsimp only at hin
  omega

end Load

end KernelMemVirt.Janus.Multiboot2
