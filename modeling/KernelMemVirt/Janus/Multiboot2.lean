import KernelMemVirt.Janus.State
import KernelMemVirt.Lib.AccessLog
import KernelMemVirt.Lib.Bitset
import KernelMemVirt.Lib.RecordWalk
import Mathlib.Data.Nat.Find

/-!
# The header of the guest image

`parse_multiboot2` of `monitor/multiboot2.c` reads the first 32768 bytes of a file, looks for a
header at the offsets that are multiples of 4, and walks over the tags behind it.  Nothing that the
header says is compared with the number of bytes that were read.

* `parseMultiboot2` is the function, with the bytes of the buffer that it examines.
* `searchLoop_spec` is the search: it finds the first header, or none.
* `Header` is a header with its tags, and `extractLoop_of_visits` says that the loop over them is a
  walk over records.  It stays for ever at a tag of size 0: `walksForward_iff`.
* `parseMultiboot2_of_wellFormed` is the result for a file with a well-formed list of tags.
* `justified_iff` says for which files a result is one that the file justifies.
-/

namespace KernelMemVirt.Janus.Multiboot2

open ByteMem Logged

/-! ## The source -/

abbrev SEARCH_ZONE_LEN : Nat := 32768

abbrev MULTIBOOT_MAGIC : BitVec 32 := 0xe85250d6

abbrev MULTIBOOT_TAG_TYPE_ADDRESS : BitVec 16 := 2

abbrev MULTIBOOT_TAG_TYPE_ENTRY : BitVec 16 := 3

/-- `struct multiboot2_load_info`, with fields of type `α`. -/
structure LoadInfo (α : Type) where
  headerOff : α
  headerAddr : α
  loadAddr : α
  loadEndAddr : α
  bssEndAddr : α
  entryAddr : α
  deriving DecidableEq

/-- A variable of this type, where `none` is a field that is not set. -/
abbrev InfoVar := LoadInfo (Option (BitVec 32))

/-- A variable that is only declared. -/
def InfoVar.unset : InfoVar := ⟨none, none, none, none, none, none⟩

/-- Some bytes of the buffer. -/
structure Bytes where
  off : Nat
  len : Nat
  deriving DecidableEq

/-- The bytes are among the first `size`. -/
def Bytes.Inside (size : Nat) (b : Bytes) : Prop := b.off + b.len ≤ size

@[simp] theorem Bytes.inside_mk {size off len : Nat} :
    Bytes.Inside size ⟨off, len⟩ ↔ off + len ≤ size := Iff.rfl

/-- A field of `len` bytes that is read. -/
def field (mem : Mem) (off len : Nat) : Logged Bytes (BitVec (8 * len)) :=
  access ⟨off, len⟩ (readBytes mem off len)

/-- The loop of `parse_multiboot2`, up to the offset at which it is left. -/
def searchLoop (mem : Mem) (size i : Nat) : Logged Bytes Nat :=
  if i < size then do
    let magic : BitVec 32 ← field mem i 4
    if magic ≠ MULTIBOOT_MAGIC then searchLoop mem size (i + 4)
    else do
      let magic : BitVec 32 ← field mem i 4
      let architecture : BitVec 32 ← field mem (i + 4) 4
      let headerLength : BitVec 32 ← field mem (i + 8) 4
      let checksum : BitVec 32 ← field mem (i + 12) 4
      if magic + architecture + headerLength + checksum ≠ 0 then searchLoop mem size (i + 4)
      else pure i
  else pure i
termination_by size - i

/-- The offset behind a tag, with its padding. -/
def nextOffset (i : Word) (size : BitVec 32) : Word :=
  let i := i + size.setWidth 64
  if i % 8 ≠ 0 then (i &&& ~~~7) + 8 else i

/-- The two tests on the type of the tag at `tag`. -/
def tagTests (mem : Mem) (tag : Nat) (info : InfoVar) : Logged Bytes InfoVar := do
  let type : BitVec 16 ← field mem tag 2
  let info ←
    if type = MULTIBOOT_TAG_TYPE_ADDRESS then do
      let headerAddr ← field mem (tag + 8) 4
      let loadAddr ← field mem (tag + 12) 4
      let loadEndAddr ← field mem (tag + 16) 4
      let bssEndAddr ← field mem (tag + 20) 4
      pure { info with
        headerAddr := some headerAddr
        loadAddr := some loadAddr
        loadEndAddr := some loadEndAddr
        bssEndAddr := some bssEndAddr }
    else pure info
  let type : BitVec 16 ← field mem tag 2
  if type = MULTIBOOT_TAG_TYPE_ENTRY then do
    let entryAddr ← field mem (tag + 8) 4
    pure { info with entryAddr := some entryAddr }
  else pure info

/-- The loop of `extract_multiboot2`, for a number of turns. -/
def extractLoop (mem : Mem) (off : Nat) : Nat → Word → InfoVar → Logged Bytes (Option InfoVar)
  | 0, _, _ => pure none
  | turns + 1, i, info => do
    let headerLength : BitVec 32 ← field mem (off + 8) 4
    if i < headerLength.setWidth 64 then do
      let info ← tagTests mem (off + i.toNat) info
      let size : BitVec 32 ← field mem (off + i.toNat + 4) 4
      extractLoop mem off turns (nextOffset i size) info
    else pure (some info)

/-- `extract_multiboot2`, which returns 0. -/
def extractMultiboot2 (mem : Mem) (turns off : Nat) (info : InfoVar) :
    Logged Bytes (Option InfoVar) :=
  extractLoop mem off turns 16 { info with headerOff := some (BitVec.ofNat 32 off) }

/-- The buffer, and the memory behind it, after `fread`: there is `junk` where the file has not
been read to. -/
def zone (file : List (BitVec 8)) (junk : Mem) : Mem := fun k =>
  (file.take SEARCH_ZONE_LEN).getD k (junk k)

/-- What `fread` returns. -/
def zoneSize (file : List (BitVec 8)) : Nat := (file.take SEARCH_ZONE_LEN).length

/-- `parse_multiboot2`, with its result, where `none` is a file that cannot be opened. -/
def parseMultiboot2 (junk : Mem) (turns : Nat) (info : InfoVar) :
    Option (List (BitVec 8)) → Logged Bytes (Option (Int × InfoVar))
  | none => pure (some (-1, info))
  | some file => do
    let i ← searchLoop (zone file junk) (zoneSize file) 0
    if zoneSize file ≤ i then pure (some (-1, info))
    else do
      match ← extractMultiboot2 (zone file junk) turns i info with
      | some info => pure (some (0, info))
      | none => pure none

/-! ## Headers -/

/-- The search accepts offset `i`. -/
def IsHeader (mem : Mem) (size i : Nat) : Prop :=
  i % 4 = 0 ∧ i < size ∧ read32 mem i = MULTIBOOT_MAGIC ∧
    read32 mem i + read32 mem (i + 4) + read32 mem (i + 8) + read32 mem (i + 12) = 0

instance (mem : Mem) (size i : Nat) : Decidable (IsHeader mem size i) :=
  inferInstanceAs (Decidable (_ ∧ _ ∧ _ ∧ _))

/-- Offset `o` is the first that the search accepts. -/
structure IsFirstHeader (mem : Mem) (size o : Nat) : Prop where
  accepted : IsHeader mem size o
  first : ∀ i < o, ¬ IsHeader mem size i

/-- The header at an offset. -/
structure Header where
  mem : Mem
  off : Nat

namespace Header

variable (h : Header)

def length : Nat := (read32 h.mem (h.off + 8)).toNat

def tagType (i : Nat) : BitVec 16 := readBytes h.mem (h.off + i) 2

def tagSize (i : Nat) : Nat := (read32 h.mem (h.off + i + 4)).toNat

/-- The offset of the next tag, a multiple of 8. -/
def nextTag (i : Nat) : Nat := (i + h.tagSize i + 7) / 8 * 8

def IsAddress (i : Nat) : Prop := h.tagType i = MULTIBOOT_TAG_TYPE_ADDRESS

def IsEntry (i : Nat) : Prop := h.tagType i = MULTIBOOT_TAG_TYPE_ENTRY

instance (i : Nat) : Decidable (h.IsAddress i) := inferInstanceAs (Decidable (_ = _))

instance (i : Nat) : Decidable (h.IsEntry i) := inferInstanceAs (Decidable (_ = _))

/-- The chain of sizes from the first tag on comes to a tag at `i`, in the header. -/
def HasTag (i : Nat) : Prop := RecordWalk.Reached h.nextTag h.length 16 i ∧ i < h.length

/-- The fields of the address tag at `i`. -/
def setAddress (i : Nat) (info : InfoVar) : InfoVar :=
  { info with
    headerAddr := some (read32 h.mem (h.off + i + 8))
    loadAddr := some (read32 h.mem (h.off + i + 12))
    loadEndAddr := some (read32 h.mem (h.off + i + 16))
    bssEndAddr := some (read32 h.mem (h.off + i + 20)) }

/-- The field of the entry tag at `i`. -/
def setEntry (i : Nat) (info : InfoVar) : InfoVar :=
  { info with entryAddr := some (read32 h.mem (h.off + i + 8)) }

/-- What the loop does at a tag. -/
def visit (info : InfoVar) (i : Nat) : InfoVar :=
  if h.IsAddress i then h.setAddress i info
  else if h.IsEntry i then h.setEntry i info
  else info

/-- The variable that is filled from the header, an address tag and an entry tag. -/
def loadInfo (address entry : Nat) : InfoVar :=
  h.setEntry entry (h.setAddress address
    { InfoVar.unset with headerOff := some (BitVec.ofNat 32 h.off) })

/-- The loop returns, and each of its turns leads to a larger offset. -/
def WalksForward (info : InfoVar) : Prop :=
  (∃ turns info', (extractMultiboot2 h.mem turns h.off info).value = some info') ∧
    ∀ i : Word, h.HasTag i.toNat → i < nextOffset i (read32 h.mem (h.off + i.toNat + 4))

/-- What the loop examines at a tag is among the first `size` bytes. -/
structure TagInside (size i : Nat) : Prop where
  tag : h.off + i + 8 ≤ size
  address : h.IsAddress i → h.off + i + 24 ≤ size
  entry : h.IsEntry i → h.off + i + 12 ≤ size

/-- Tags from offset `i` to the end of the header, with the sizes that they should have. -/
inductive TagList : Nat → List Nat → Prop
  | done {i : Nat} (hend : h.length ≤ i) : TagList i []
  | tag {i : Nat} {is : List Nat} (size : 8 ≤ h.tagSize i)
      (address : h.IsAddress i → h.tagSize i = 24) (entry : h.IsEntry i → h.tagSize i = 12)
      (inside : i + h.tagSize i ≤ h.length) (rest : TagList (h.nextTag i) is) :
      TagList i (i :: is)

/-- The header is complete: all of it is among the first `size` bytes, and tags of both kinds are
among those at the offsets `is`. -/
structure WellFormed (size : Nat) (is : List Nat) : Prop where
  inside : h.off + h.length ≤ size
  tags : h.TagList 16 is
  address : ∃ i ∈ is, h.IsAddress i
  entry : ∃ i ∈ is, h.IsEntry i

/-- The function can rely on the header: every tag that the chain of sizes comes to has a size and
is among the first `size` bytes, and there are tags of both kinds. -/
structure Reliable (size : Nat) : Prop where
  header : h.off + 16 ≤ size
  sizes : ∀ i, h.HasTag i → h.tagSize i ≠ 0
  inside : ∀ i, h.HasTag i → h.TagInside size i
  address : ∃ i, h.HasTag i ∧ h.IsAddress i
  entry : ∃ i, h.HasTag i ∧ h.IsEntry i

end Header

/-- `parse_multiboot2` returns.  If it returns 0, it has examined only bytes of the file, and all
the fields are set from the first header and from tags of both kinds in it. -/
def Justified (junk : Mem) (file : List (BitVec 8)) : Prop :=
  ∃ turns ret info,
    (parseMultiboot2 junk turns .unset (some file)).value = some (ret, info) ∧
      (ret = 0 →
        Within (Bytes.Inside (zoneSize file))
            (parseMultiboot2 junk turns .unset (some file)) ∧
          ∃ h : Header, h.mem = zone file junk ∧ IsFirstHeader h.mem (zoneSize file) h.off ∧
            ∃ address entry, h.HasTag address ∧ h.IsAddress address ∧ h.HasTag entry ∧
              h.IsEntry entry ∧ info = h.loadInfo address entry)

/-! ## The search -/

section Search

variable {mem : Mem} {size : Nat}

theorem searchLoop_done {i : Nat} (h : size ≤ i) : searchLoop mem size i = pure i := by
  rw [searchLoop, if_neg (by omega)]

/-- An offset that is not accepted is left, and at most 16 bytes there are examined. -/
theorem searchLoop_skip {i : Nat} (hlt : i < size) (halign : i % 4 = 0)
    (hnot : ¬ IsHeader mem size i) :
    (searchLoop mem size i).value = (searchLoop mem size (i + 4)).value ∧
      ∀ {P : Bytes → Prop},
        (Within P (searchLoop mem size i) → Within P (searchLoop mem size (i + 4))) ∧
        ((∀ k len, k + len ≤ 16 → P ⟨i + k, len⟩) →
          Within P (searchLoop mem size (i + 4)) → Within P (searchLoop mem size i)) := by
  rw [searchLoop, if_pos hlt]
  by_cases hmagic : readBytes mem i 4 = MULTIBOOT_MAGIC
  · have hsum : ¬ MULTIBOOT_MAGIC + readBytes mem (i + 4) 4 + readBytes mem (i + 8) 4 +
        readBytes mem (i + 12) 4 = 0 := by
      rw [← hmagic]
      exact fun hsum => hnot ⟨halign, hlt, hmagic, hsum⟩
    simp only [field, value_bind, value_access, within_bind, within_access, hmagic, hsum, ne_eq,
      not_true_eq_false, not_false_eq_true, if_false, if_true, true_and]
    intro P
    refine ⟨fun h => h.2.2.2.2.2, fun hplaces hrest => ?_⟩
    exact ⟨hplaces 0 4 (by omega), hplaces 0 4 (by omega), hplaces 4 4 (by omega),
      hplaces 8 4 (by omega), hplaces 12 4 (by omega), hrest⟩
  · simp only [field, value_bind, value_access, within_bind, within_access, hmagic, ne_eq,
      not_false_eq_true, if_true, true_and]
    intro P
    exact ⟨And.right, fun hplaces hrest => ⟨hplaces 0 4 (by omega), hrest⟩⟩

/-- The loop ends at an offset that is accepted, and has examined the 16 bytes there. -/
theorem searchLoop_found {i : Nat} (h : IsHeader mem size i) :
    (searchLoop mem size i).value = i ∧
      ∀ {P : Bytes → Prop}, Within P (searchLoop mem size i) ↔
        P ⟨i, 4⟩ ∧ P ⟨i + 4, 4⟩ ∧ P ⟨i + 8, 4⟩ ∧ P ⟨i + 12, 4⟩ := by
  obtain ⟨-, hlt, hmagic, hsum⟩ := h
  rw [hmagic] at hsum
  rw [searchLoop, if_pos hlt]
  simp only [field, value_bind, value_access, within_bind, within_access, hmagic, hsum, ne_eq,
    not_true_eq_false, if_false, value_pure, within_pure, and_true, true_and]
  exact fun {P} => ⟨And.right, fun h => ⟨h.1, h⟩⟩

/-- The first header is found from every offset before it, and nothing behind it is examined. -/
theorem searchLoop_of_first {o : Nat} (h : IsFirstHeader mem size o) :
    ∀ {n i : Nat}, o = i + 4 * n → i % 4 = 0 →
      (searchLoop mem size i).value = o ∧
        (Within (Bytes.Inside size) (searchLoop mem size i) ↔ o + 16 ≤ size) := by
  have hlt : o < size := h.accepted.2.1
  intro n
  induction n with
  | zero =>
    intro i ho _
    obtain rfl : o = i := ho
    obtain ⟨hvalue, hwithin⟩ := searchLoop_found h.accepted
    refine ⟨hvalue, hwithin.trans ?_⟩
    simp only [Bytes.inside_mk]
    omega
  | succ n ih =>
    intro i ho halign
    obtain ⟨hvalue, hskip⟩ := searchLoop_skip (by omega) halign (h.first i (by omega))
    obtain ⟨hfound, hwithin⟩ := ih (i := i + 4) (by omega) (by omega)
    refine ⟨hvalue.trans hfound, fun h => hwithin.mp (hskip.1 h), fun hfits => ?_⟩
    refine hskip.2 (fun k len hk => ?_) (hwithin.mpr hfits)
    rw [Bytes.inside_mk]
    omega

/-- Without a header the loop comes to the end. -/
theorem le_searchLoop (hnone : ∀ i, ¬ IsHeader mem size i) :
    ∀ {n i : Nat}, size - i ≤ n → i % 4 = 0 → size ≤ (searchLoop mem size i).value := by
  intro n
  induction n with
  | zero =>
    intro i hn _
    rw [searchLoop_done (by omega)]
    exact Nat.le_of_sub_eq_zero (Nat.le_zero.mp hn)
  | succ n ih =>
    intro i hn halign
    by_cases hlt : i < size
    · rw [(searchLoop_skip hlt halign (hnone i)).1]
      exact ih (by omega) (by omega)
    · rw [searchLoop_done (by omega)]
      exact Nat.le_of_not_lt hlt

/-- The search, from the start of the buffer. -/
theorem searchLoop_spec {o : Nat} (h : IsFirstHeader mem size o) :
    (searchLoop mem size 0).value = o ∧
      (Within (Bytes.Inside size) (searchLoop mem size 0) ↔ o + 16 ≤ size) := by
  have halign : o % 4 = 0 := h.accepted.1
  exact searchLoop_of_first h (n := o / 4) (by omega) rfl

/-- There is a first header, or there is none. -/
theorem exists_isFirstHeader (mem : Mem) (size : Nat) :
    (∃ o, IsFirstHeader mem size o) ∨ ∀ i, ¬ IsHeader mem size i := by
  by_cases h : ∃ i, IsHeader mem size i
  · exact .inl ⟨Nat.find h, Nat.find_spec h, fun i hi => Nat.find_min h hi⟩
  · exact .inr (not_exists.mp h)

end Search

/-! ## The walk over the tags -/

/-- The file of some words. -/
def fileOfWords (words : List (BitVec 32)) : List (BitVec 8) :=
  words.flatMap fun w => (List.range 4).map fun i => w.extractLsb' (8 * i) 8

/-- The padding goes up to a multiple of 8.  An offset before the end of a header is small enough
for the sum with any size. -/
theorem toNat_nextOffset {i : Word} (size : BitVec 32) (hi : i.toNat < 2 ^ 32) :
    (nextOffset i size).toNat = (i.toNat + size.toNat + 7) / 8 * 8 := by
  have hsize := size.isLt
  have hsum : (i + size.setWidth 64).toNat = i.toNat + size.toNat := by
    rw [BitVec.toNat_add, BitVec.toNat_setWidth]
    omega
  have hmask : ∀ i, i < 64 → (~~~7 : Word).getLsbD i = decide (3 ≤ i) := by decide
  have haligned : (i + size.setWidth 64) % 8 ≠ 0 ↔ (i.toNat + size.toNat) % 8 ≠ 0 := by
    rw [ne_eq, ← BitVec.toNat_inj, BitVec.toNat_umod, hsum]
    rfl
  unfold nextOffset
  dsimp only
  split
  · next hne =>
    have hne' := haligned.mp hne
    rw [BitVec.toNat_add, Bitset.toNat_and_mask hmask, hsum]
    rw [show (8 : Word).toNat = 8 from rfl]
    omega
  · next heq =>
    have heq' := haligned.not.mp heq
    rw [hsum]
    omega

namespace Header

section Walk

variable {h : Header}

theorem padded_nextTag (h : Header) : RecordWalk.Padded 8 h.tagSize h.nextTag := fun _ => rfl

/-- The tests at a tag. -/
theorem tagTests_spec (h : Header) (size i : Nat) (info : InfoVar) :
    (tagTests h.mem (h.off + i) info).value = h.visit info i ∧
      (Within (Bytes.Inside size) (tagTests h.mem (h.off + i) info) ↔
        h.off + i + 2 ≤ size ∧ (h.IsAddress i → h.off + i + 24 ≤ size) ∧
          (h.IsEntry i → h.off + i + 12 ≤ size)) := by
  have hdistinct : ¬ MULTIBOOT_TAG_TYPE_ADDRESS = MULTIBOOT_TAG_TYPE_ENTRY := by decide
  have hdistinct' : ¬ MULTIBOOT_TAG_TYPE_ENTRY = MULTIBOOT_TAG_TYPE_ADDRESS := by decide
  by_cases haddress : readBytes h.mem (h.off + i) 2 = MULTIBOOT_TAG_TYPE_ADDRESS
  · simp only [tagTests, field, Bytes.inside_mk, value_bind, value_access, within_bind,
      within_access, within_pure, value_pure, haddress, hdistinct, visit, IsAddress, IsEntry,
      tagType, setAddress, if_true, if_false, true_and, and_true, true_implies, false_implies,
      Nat.add_assoc]
    omega
  · by_cases hentry : readBytes h.mem (h.off + i) 2 = MULTIBOOT_TAG_TYPE_ENTRY
    · simp only [tagTests, field, Bytes.inside_mk, value_bind, value_access, within_bind,
        within_access, within_pure, value_pure, hentry, hdistinct', visit, IsAddress, IsEntry,
        tagType, setEntry, if_true, if_false, true_and, and_true, true_implies, false_implies]
      omega
    · simp only [tagTests, field, Bytes.inside_mk, value_bind, value_access, within_bind,
        within_access, within_pure, value_pure, haddress, hentry, visit, IsAddress, IsEntry,
        tagType, if_false, true_and, and_true, false_implies]
      omega

/-- One turn of the loop. -/
theorem extractLoop_step (size : Nat) {turns i : Nat} {w : Word} (hw : w.toNat = i)
    (hlt : i < h.length) (info : InfoVar) :
    ∃ w' : Word, w'.toNat = h.nextTag i ∧
      (extractLoop h.mem h.off (turns + 1) w info).value =
        (extractLoop h.mem h.off turns w' (h.visit info i)).value ∧
      (Within (Bytes.Inside size) (extractLoop h.mem h.off (turns + 1) w info) ↔
        h.off + 12 ≤ size ∧ h.TagInside size i ∧
          Within (Bytes.Inside size)
            (extractLoop h.mem h.off turns w' (h.visit info i))) := by
  subst hw
  have hlength : h.length < 2 ^ 32 := (read32 h.mem (h.off + 8)).isLt
  have htest : w < (readBytes h.mem (h.off + 8) 4 : BitVec 32).setWidth 64 := by
    rw [BitVec.lt_def, BitVec.toNat_setWidth]
    exact Nat.lt_of_lt_of_eq hlt (Nat.mod_eq_of_lt (by omega)).symm
  obtain ⟨hvalue, hwithin⟩ := tagTests_spec h size w.toNat info
  refine ⟨_, toNat_nextOffset (read32 h.mem (h.off + w.toNat + 4)) (by omega), ?_, ?_⟩
  · rw [extractLoop]
    simp only [field, value_bind, value_access, htest, if_true, hvalue]
  · rw [extractLoop]
    simp only [field, within_bind, within_access, value_access, htest, if_true, hvalue, hwithin,
      Bytes.inside_mk]
    constructor
    · rintro ⟨hheader, ⟨_, haddress, hentry⟩, htag, hrest⟩
      exact ⟨by omega, ⟨by omega, haddress, hentry⟩, hrest⟩
    · rintro ⟨hheader, ⟨htag, haddress, hentry⟩, hrest⟩
      exact ⟨by omega, ⟨by omega, haddress, hentry⟩, by omega, hrest⟩

/-- Behind the header the loop ends. -/
theorem extractLoop_end (size : Nat) {turns i : Nat} {w : Word} (hw : w.toNat = i)
    (hge : h.length ≤ i) (info : InfoVar) :
    (extractLoop h.mem h.off (turns + 1) w info).value = some info ∧
      (Within (Bytes.Inside size) (extractLoop h.mem h.off (turns + 1) w info) ↔
        h.off + 12 ≤ size) := by
  subst hw
  have hlength : h.length < 2 ^ 32 := (read32 h.mem (h.off + 8)).isLt
  have htest : ¬ w < (readBytes h.mem (h.off + 8) 4 : BitVec 32).setWidth 64 := by
    rw [BitVec.lt_def, BitVec.toNat_setWidth, Nat.not_lt]
    exact Nat.le_trans (Nat.mod_le _ _) hge
  rw [extractLoop]
  simp only [field, value_bind, within_bind, within_access, value_access, htest, if_false,
    value_pure, within_pure, and_true, Bytes.inside_mk, Nat.add_assoc]

/-- The loop is a walk over records. -/
theorem extractLoop_of_visits (size : Nat) {i : Nat} {is : List Nat}
    (hvisits : RecordWalk.Visits h.nextTag h.length i is) :
    ∀ {turns : Nat} {w : Word} (info : InfoVar), w.toNat = i → is.length < turns →
      (extractLoop h.mem h.off turns w info).value = some (is.foldl h.visit info) ∧
        (Within (Bytes.Inside size) (extractLoop h.mem h.off turns w info) ↔
          h.off + 12 ≤ size ∧ ∀ i ∈ is, h.TagInside size i) := by
  induction hvisits with
  | done hge =>
    intro turns w info hw hturns
    obtain ⟨turns, rfl⟩ := Nat.exists_eq_succ_of_ne_zero (Nat.ne_of_gt hturns)
    obtain ⟨hvalue, hwithin⟩ := extractLoop_end size hw hge info
    exact ⟨hvalue, by simpa using hwithin⟩
  | record hlt _ ih =>
    intro turns w info hw hturns
    obtain ⟨turns, rfl⟩ := Nat.exists_eq_succ_of_ne_zero (Nat.ne_of_gt (Nat.zero_lt_of_lt hturns))
    obtain ⟨w', hw', hvalue, hwithin⟩ := extractLoop_step size hw hlt info
    obtain ⟨hvalue', hwithin'⟩ := ih (h.visit info _) hw' (Nat.lt_of_succ_lt_succ hturns)
    refine ⟨hvalue.trans hvalue', ?_⟩
    rw [hwithin, hwithin', List.forall_mem_cons]
    tauto

/-- A loop that returns has walked to the end. -/
theorem visits_of_extractLoop : ∀ {turns i : Nat} {w : Word} {info info' : InfoVar}, w.toNat = i →
    (extractLoop h.mem h.off turns w info).value = some info' →
      ∃ is, RecordWalk.Visits h.nextTag h.length i is ∧ is.length < turns := by
  intro turns
  induction turns with
  | zero =>
    intro i w info info' _ hvalue
    cases hvalue
  | succ turns ih =>
    intro i w info info' hw hvalue
    by_cases hlt : i < h.length
    · obtain ⟨w', hw', hstep, -⟩ := extractLoop_step 0 hw hlt info
      obtain ⟨is, hvisits, hturns⟩ := ih hw' (hstep.symm.trans hvalue)
      exact ⟨i :: is, .record hlt hvisits, Nat.succ_lt_succ hturns⟩
    · exact ⟨[], .done (Nat.le_of_not_lt hlt), Nat.succ_pos turns⟩

/-- The tags are left exactly if they have a size. -/
theorem exists_visits_iff (h : Header) :
    (∃ is, RecordWalk.Visits h.nextTag h.length 16 is) ↔ ∀ i, h.HasTag i → h.tagSize i ≠ 0 := by
  rw [h.padded_nextTag.exists_visits_iff (by decide) (show 8 ∣ 16 by decide)]
  simp only [HasTag, Nat.pos_iff_ne_zero, and_imp]

theorem sizes_of_walksForward {info : InfoVar} (hforward : h.WalksForward info) :
    ∀ i, h.HasTag i → h.tagSize i ≠ 0 := by
  obtain ⟨⟨turns, info', hvalue⟩, -⟩ := hforward
  obtain ⟨is, hvisits, -⟩ := visits_of_extractLoop (h := h) rfl hvalue
  exact (exists_visits_iff h).mp ⟨is, hvisits⟩

theorem walksForward_of_sizes (hsizes : ∀ i, h.HasTag i → h.tagSize i ≠ 0) (info : InfoVar) :
    h.WalksForward info := by
  obtain ⟨is, hvisits⟩ := (exists_visits_iff h).mpr hsizes
  constructor
  · exact ⟨is.length + 1, _, (extractLoop_of_visits 0 hvisits _ rfl (Nat.lt_succ_self _)).1⟩
  · rintro i ⟨hreached, hlt⟩
    have hlength : h.length < 2 ^ 32 := (read32 h.mem (h.off + 8)).isLt
    have hne := hsizes i.toNat ⟨hreached, hlt⟩
    have haligned := h.padded_nextTag.dvd_of_reached (show 8 ∣ 16 by decide) hreached
    rw [BitVec.lt_def, toNat_nextOffset _ (by omega)]
    exact (h.padded_nextTag.lt_next_iff (by decide) haligned).mpr (Nat.pos_of_ne_zero hne)

/-- The loop of `extract_multiboot2` goes forward exactly if no tag that it comes to has
size 0. -/
theorem walksForward_iff (h : Header) (info : InfoVar) :
    h.WalksForward info ↔ ∀ i, h.HasTag i → h.tagSize i ≠ 0 :=
  ⟨sizes_of_walksForward, fun hsizes => walksForward_of_sizes hsizes info⟩

/-- A header of 24 bytes with a tag of size 0. -/
def emptyTag : Header where
  mem := zone (fileOfWords [MULTIBOOT_MAGIC, 0, 24, -(MULTIBOOT_MAGIC + 24), 0, 0]) (fun _ => 0)
  off := 0

/-- The loop stays at a tag of size 0. -/
theorem walksForward_not_of_emptyTag : ¬ ∀ (h : Header) (info : InfoVar), h.WalksForward info := by
  intro hforward
  have hsizes := sizes_of_walksForward (hforward emptyTag .unset)
  exact absurd (hsizes 16 ⟨.first, by decide⟩) (by decide)

end Walk

/-! ## What the tags set -/

section Fields

variable {h : Header}

theorem visit_of_address {i : Nat} (hi : h.IsAddress i) (info : InfoVar) :
    h.visit info i = h.setAddress i info := if_pos hi

theorem not_isEntry_of_address {i : Nat} (hi : h.IsAddress i) : ¬ h.IsEntry i := by
  intro hentry
  rw [IsEntry, hi] at hentry
  revert hentry
  decide

theorem visit_of_entry {i : Nat} (hi : h.IsEntry i) (info : InfoVar) :
    h.visit info i = h.setEntry i info := by
  rw [visit, if_neg fun haddress => not_isEntry_of_address haddress hi, if_pos hi]

theorem visit_of_other {i : Nat} (haddress : ¬ h.IsAddress i) (hentry : ¬ h.IsEntry i)
    (info : InfoVar) : h.visit info i = info := by
  rw [visit, if_neg haddress, if_neg hentry]

/-- The last tag of each kind counts. -/
theorem foldl_visit (h : Header) (is : List Nat) (info : InfoVar) :
    is.foldl h.visit info =
      (is.filter (h.IsEntry ·)).getLast?.elim id h.setEntry
        ((is.filter (h.IsAddress ·)).getLast?.elim id h.setAddress info) := by
  induction is using List.reverseRecOn with
  | nil => rfl
  | append_singleton is i ih =>
    rw [List.foldl_append, List.foldl_cons, List.foldl_nil, ih, List.filter_append,
      List.filter_append, List.filter_singleton, List.filter_singleton]
    by_cases haddress : h.IsAddress i
    · have hentry := not_isEntry_of_address haddress
      simp only [visit_of_address haddress, haddress, hentry, decide_true, decide_false, cond_true,
        cond_false, List.append_nil, List.getLast?_concat, Option.elim_some]
      cases (is.filter (h.IsEntry ·)).getLast? <;> cases (is.filter (h.IsAddress ·)).getLast? <;>
        rfl
    · by_cases hentry : h.IsEntry i
      · simp only [visit_of_entry hentry, haddress, hentry, decide_true, decide_false,
          cond_true, cond_false, List.append_nil, List.getLast?_concat, Option.elim_some]
        cases (is.filter (h.IsEntry ·)).getLast? <;> rfl
      · simp only [visit_of_other haddress hentry, haddress, hentry, decide_false, cond_false,
          List.append_nil]

/-- A walk that comes to tags of both kinds sets all the fields. -/
theorem foldl_visit_eq_loadInfo {is : List Nat} (haddress : ∃ i ∈ is, h.IsAddress i)
    (hentry : ∃ i ∈ is, h.IsEntry i) (info : InfoVar) :
    ∃ address entry, (is.filter (h.IsAddress ·)).getLast? = some address ∧
      (is.filter (h.IsEntry ·)).getLast? = some entry ∧
      is.foldl h.visit { info with headerOff := some (BitVec.ofNat 32 h.off) } =
        h.loadInfo address entry := by
  have hsome : ∀ {p : Nat → Prop} [DecidablePred p], (∃ i ∈ is, p i) →
      ∃ i, (is.filter (p ·)).getLast? = some i := by
    rintro p _ ⟨i, hi, hp⟩
    have hmem : i ∈ is.filter (p ·) := List.mem_filter.mpr ⟨hi, decide_eq_true hp⟩
    exact ⟨_, List.getLast?_eq_some_getLast (List.ne_nil_of_mem hmem)⟩
  obtain ⟨address, ha⟩ := hsome haddress
  obtain ⟨entry, he⟩ := hsome hentry
  refine ⟨address, entry, ha, he, ?_⟩
  rw [foldl_visit, ha, he]
  rfl

end Fields

/-! ## Lists of tags -/

section Tags

variable {h : Header}

theorem TagList.visits {i : Nat} {is : List Nat} (htags : h.TagList i is) :
    RecordWalk.Visits h.nextTag h.length i is := by
  induction htags with
  | done hend => exact .done hend
  | tag size _ _ inside _ ih => exact .record (by omega) ih

/-- A tag that ends in the header has its fields in the header. -/
theorem TagList.tagInside {size i : Nat} {is : List Nat} (hinside : h.off + h.length ≤ size)
    (htags : h.TagList i is) : ∀ j ∈ is, h.TagInside size j := by
  induction htags with
  | done _ => simp
  | @tag i is htag haddress hentry hfits _ ih =>
    intro j hj
    rcases List.mem_cons.mp hj with rfl | hj
    · refine ⟨by omega, fun h => ?_, fun h => ?_⟩
      · have hsize := haddress h
        omega
      · have hsize := hentry h
        omega
    · exact ih j hj

theorem WellFormed.header {size : Nat} {is : List Nat} (hform : h.WellFormed size is) :
    h.off + 16 ≤ size := by
  have hinside := hform.inside
  obtain ⟨i, hi, -⟩ := hform.address
  cases hform.tags with
  | done _ => cases hi
  | tag _ _ _ _ _ => omega

end Tags

end Header

/-! ## The results -/

section Results

variable {junk : Mem} {file : List (BitVec 8)}

theorem parseMultiboot2_of_none (hnone : ∀ i, ¬ IsHeader (zone file junk) (zoneSize file) i)
    (turns : Nat) (info : InfoVar) :
    (parseMultiboot2 junk turns info (some file)).value = some (-1, info) := by
  have hend := le_searchLoop hnone (Nat.le_refl _) (Nat.zero_mod 4)
  rw [parseMultiboot2, value_bind, if_pos hend]
  rfl

/-- With a first header the result is that of the walk over its tags. -/
theorem parseMultiboot2_of_first {o : Nat}
    (hfirst : IsFirstHeader (zone file junk) (zoneSize file) o) (turns : Nat) (info : InfoVar) :
    (parseMultiboot2 junk turns info (some file)).value =
        (extractMultiboot2 (zone file junk) turns o info).value.map (0, ·) ∧
      (Within (Bytes.Inside (zoneSize file))
          (parseMultiboot2 junk turns info (some file)) ↔
        o + 16 ≤ zoneSize file ∧ Within (Bytes.Inside (zoneSize file))
          (extractMultiboot2 (zone file junk) turns o info)) := by
  obtain ⟨hvalue, hwithin⟩ := searchLoop_spec hfirst
  have hlt : ¬ zoneSize file ≤ o := Nat.not_le.mpr hfirst.accepted.2.1
  rw [parseMultiboot2, value_bind, within_bind, hvalue, if_neg hlt, value_bind, within_bind,
    hwithin]
  cases (extractMultiboot2 (zone file junk) turns o info).value with
  | none => simp
  | some info' => simp

/-- The walk, for a header whose tags have sizes. -/
theorem extractMultiboot2_of_visits {h : Header} {turns : Nat} {is : List Nat}
    (hvisits : RecordWalk.Visits h.nextTag h.length 16 is) (hturns : is.length < turns)
    (size : Nat) (info : InfoVar) :
    (extractMultiboot2 h.mem turns h.off info).value =
        some (is.foldl h.visit { info with headerOff := some (BitVec.ofNat 32 h.off) }) ∧
      (Within (Bytes.Inside size) (extractMultiboot2 h.mem turns h.off info) ↔
        h.off + 12 ≤ size ∧ ∀ i ∈ is, h.TagInside size i) :=
  Header.extractLoop_of_visits size hvisits _ rfl hturns

/-- A file whose first header is well-formed is parsed.  The fields are those of the last tags, and
nothing but the file is examined. -/
theorem parseMultiboot2_of_wellFormed (junk : Mem) (file : List (BitVec 8)) (info : InfoVar)
    (h : Header) (is : List Nat) (hmem : h.mem = zone file junk)
    (hfirst : IsFirstHeader h.mem (zoneSize file) h.off)
    (hform : h.WellFormed (zoneSize file) is) :
    ∃ address entry, (is.filter (h.IsAddress ·)).getLast? = some address ∧
      (is.filter (h.IsEntry ·)).getLast? = some entry ∧
      ∀ turns, is.length < turns →
        (parseMultiboot2 junk turns info (some file)).value =
            some (0, h.loadInfo address entry) ∧
          Within (Bytes.Inside (zoneSize file))
            (parseMultiboot2 junk turns info (some file)) := by
  obtain ⟨mem, o⟩ := h
  obtain rfl : mem = zone file junk := hmem
  obtain ⟨address, entry, haddress, hentry, hfold⟩ :=
    Header.foldl_visit_eq_loadInfo hform.address hform.entry info
  refine ⟨address, entry, haddress, hentry, fun turns hturns => ?_⟩
  obtain ⟨hvalue, hwithin⟩ := parseMultiboot2_of_first hfirst turns info
  obtain ⟨hextract, hinside⟩ :=
    extractMultiboot2_of_visits hform.tags.visits hturns (zoneSize file) info
  have hheader : o + 16 ≤ zoneSize file := hform.header
  constructor
  · rw [hvalue, hextract, hfold]
    rfl
  · rw [hwithin, hinside]
    exact ⟨hheader, by dsimp only; omega, hform.tags.tagInside hform.inside⟩

/-- An image with the tags of `entry.S`, behind a word that looks like a header. -/
def imageFile : List (BitVec 8) :=
  fileOfWords [MULTIBOOT_MAGIC,
    MULTIBOOT_MAGIC, 0, 64, -(MULTIBOOT_MAGIC + 64),
    2, 24, 0x100000, 0x100000, 0x102000, 0x103000,
    3, 12, 0x100040, 0,
    0, 8]

def imageHeader : Header := ⟨zone imageFile (fun _ => 0), 4⟩

theorem wellFormed_imageHeader : imageHeader.WellFormed (zoneSize imageFile) [16, 40, 56] where
  inside := by decide
  tags := .tag (by decide) (by decide) (by decide) (by decide)
    (.tag (by decide) (by decide) (by decide) (by decide)
      (.tag (by decide) (by decide) (by decide) (by decide) (.done (by decide))))
  address := ⟨16, by decide, by decide⟩
  entry := ⟨40, by decide, by decide⟩

theorem isFirstHeader_imageHeader :
    IsFirstHeader imageHeader.mem (zoneSize imageFile) imageHeader.off where
  accepted := by decide
  first := by decide

theorem parseMultiboot2_of_wellFormed_imageFile :
    ∃ address entry,
      ([16, 40, 56].filter (imageHeader.IsAddress ·)).getLast? = some address ∧
      ([16, 40, 56].filter (imageHeader.IsEntry ·)).getLast? = some entry ∧
      ∀ turns, [16, 40, 56].length < turns →
        (parseMultiboot2 (fun _ => 0) turns .unset (some imageFile)).value =
            some (0, imageHeader.loadInfo address entry) ∧
          Within (Bytes.Inside (zoneSize imageFile))
            (parseMultiboot2 (fun _ => 0) turns .unset (some imageFile)) :=
  parseMultiboot2_of_wellFormed (fun _ => 0) imageFile .unset imageHeader [16, 40, 56] rfl
    isFirstHeader_imageHeader wellFormed_imageHeader

theorem reliable_of_justified (hjust : Justified junk file)
    (hsome : ∃ i, IsHeader (zone file junk) (zoneSize file) i) :
    ∃ h : Header, h.mem = zone file junk ∧ IsFirstHeader h.mem (zoneSize file) h.off ∧
      h.Reliable (zoneSize file) := by
  obtain ⟨turns, ret, info, hvalue, hjust⟩ := hjust
  have hret : ret = 0 := by
    rcases exists_isFirstHeader (zone file junk) (zoneSize file) with ⟨o, hfirst⟩ | hnone
    · rw [(parseMultiboot2_of_first hfirst turns .unset).1, Option.map_eq_some_iff] at hvalue
      obtain ⟨info', -, hpair⟩ := hvalue
      exact (congrArg Prod.fst hpair).symm
    · obtain ⟨i, hi⟩ := hsome
      exact absurd hi (hnone i)
  obtain ⟨hwithin, ⟨mem, o⟩, hmem, hfirst, address, entry, haddress, hisAddress, hentry, hisEntry,
    -⟩ := hjust hret
  obtain rfl : mem = zone file junk := hmem
  obtain ⟨hparse, hinside⟩ := parseMultiboot2_of_first hfirst turns .unset
  rw [hvalue, eq_comm, Option.map_eq_some_iff] at hparse
  obtain ⟨info', hextract, -⟩ := hparse
  obtain ⟨is, hvisits, hturns⟩ :=
    Header.visits_of_extractLoop (h := ⟨zone file junk, o⟩) rfl hextract
  obtain ⟨hheader, hextracted⟩ := hinside.mp hwithin
  have htags := ((extractMultiboot2_of_visits hvisits hturns _ _).2.mp hextracted).2
  refine ⟨⟨zone file junk, o⟩, rfl, hfirst, hheader, ?_, ?_, ⟨address, haddress, hisAddress⟩,
    ⟨entry, hentry, hisEntry⟩⟩
  · exact (Header.exists_visits_iff _).mp ⟨is, hvisits⟩
  · intro i hi
    exact htags i (hvisits.mem_iff.mpr hi)

theorem justified_of_reliable {h : Header} (hmem : h.mem = zone file junk)
    (hfirst : IsFirstHeader h.mem (zoneSize file) h.off) (hrel : h.Reliable (zoneSize file)) :
    Justified junk file := by
  obtain ⟨mem, o⟩ := h
  obtain rfl : mem = zone file junk := hmem
  obtain ⟨is, hvisits⟩ := (Header.exists_visits_iff _).mpr hrel.sizes
  have hmem : ∀ i, i ∈ is ↔ (Header.mk (zone file junk) o).HasTag i := fun i => hvisits.mem_iff
  obtain ⟨address, haddress, hisAddress⟩ := hrel.address
  obtain ⟨entry, hentry, hisEntry⟩ := hrel.entry
  obtain ⟨address, entry, hlast, hlast', hfold⟩ := Header.foldl_visit_eq_loadInfo
    ⟨address, (hmem _).mpr haddress, hisAddress⟩ ⟨entry, (hmem _).mpr hentry, hisEntry⟩ .unset
  obtain ⟨hvalue, hwithin⟩ := parseMultiboot2_of_first hfirst (is.length + 1) .unset
  obtain ⟨hextract, hinside⟩ :=
    extractMultiboot2_of_visits hvisits (Nat.lt_succ_self _) (zoneSize file) .unset
  have hheader : o + 16 ≤ zoneSize file := hrel.header
  have hfound := List.mem_filter.mp (List.mem_of_getLast? hlast)
  have hfound' := List.mem_filter.mp (List.mem_of_getLast? hlast')
  refine ⟨is.length + 1, 0, _, ?_, fun _ => ⟨?_, ⟨zone file junk, o⟩, rfl, hfirst, address, entry,
    (hmem _).mp hfound.1, of_decide_eq_true hfound.2, (hmem _).mp hfound'.1,
    of_decide_eq_true hfound'.2, rfl⟩⟩
  · rw [hvalue, hextract, hfold]
    rfl
  · rw [hwithin, hinside]
    exact ⟨hheader, by dsimp only; omega, fun i hi => hrel.inside i ((hmem i).mp hi)⟩

/-- The result is justified exactly if there is no header, or the first one is reliable. -/
theorem justified_iff (junk : Mem) (file : List (BitVec 8)) :
    Justified junk file ↔
      (∀ i, ¬ IsHeader (zone file junk) (zoneSize file) i) ∨
        ∃ h : Header, h.mem = zone file junk ∧ IsFirstHeader h.mem (zoneSize file) h.off ∧
          h.Reliable (zoneSize file) := by
  constructor
  · intro hjust
    by_cases hsome : ∃ i, IsHeader (zone file junk) (zoneSize file) i
    · exact .inr (reliable_of_justified hjust hsome)
    · exact .inl (not_exists.mp hsome)
  · rintro (hnone | ⟨h, hmem, hfirst, hrel⟩)
    · refine ⟨0, -1, .unset, parseMultiboot2_of_none hnone 0 .unset, fun h => ?_⟩
      exact absurd h (by decide)
    · exact justified_of_reliable hmem hfirst hrel

/-- A header without a tag. -/
def bareFile : List (BitVec 8) :=
  fileOfWords [MULTIBOOT_MAGIC, 0, 16, -(MULTIBOOT_MAGIC + 16)]

/-- Nothing but the offset is set, and the result is 0. -/
theorem justified_not_of_bareFile :
    ¬ ∀ (junk : Mem) (file : List (BitVec 8)), Justified junk file := by
  intro hjust
  have haccepted : IsHeader (zone bareFile (fun _ => 0)) (zoneSize bareFile) 0 := by decide
  obtain ⟨⟨mem, o⟩, hmem, hfirst, hrel⟩ :=
    reliable_of_justified (hjust (fun _ => 0) bareFile) ⟨0, haccepted⟩
  obtain rfl : mem = zone bareFile (fun _ => 0) := hmem
  obtain rfl : o = 0 := by
    by_contra hne
    exact hfirst.first 0 (Nat.pos_of_ne_zero hne) haccepted
  obtain ⟨i, htag, -⟩ := hrel.address
  have hvisits : RecordWalk.Visits (Header.mk (zone bareFile (fun _ => 0)) 0).nextTag
      (Header.mk (zone bareFile (fun _ => 0)) 0).length 16 [] := .done (by decide)
  exact absurd (hvisits.mem_iff.mpr htag) (List.not_mem_nil)

end Results

end KernelMemVirt.Janus.Multiboot2
