import KernelMemVirt.Gc.Client

/-!
# Words of a conservative scan

A scan gives `toHeader` any 64-bit word.  It looks up the page of the low 32 bits, but divides the
distance of the whole word, so a word from 4 GiB on is looked for as far behind the zone.

* `Heap.toHeaderLoad` is the header that is loaded, and `toHeader_congr` says that no other byte is
  read.
* `ElementInv` says that every element of a zone has the header of a live object, or a zero.
* `HeapRun.SoundAt` is the property, and `HeapRun.Resolvable` the words that have it:
  `soundAt_iff_of_run`.
-/

namespace KernelMemVirt.Gc

open ByteMem Transition

/-! ## The memory that is read -/

/-- The header that `toHeader` loads, if the table leads to a zone. -/
def Heap.toHeaderLoad (s : Heap) (p : Nat) : Option Nat :=
  match s.zoneOf p with
  | .ok (some (n, e)) => some (headerAddr n e (BitVec.ofNat 64 p)).toNat
  | .ok none => none
  | .error _ => none

theorem headerIn_congr {s s' : Heap} {n e p : Word}
    (hread : read32 s'.mem (headerAddr n e p).toNat = read32 s.mem (headerAddr n e p).toNat) :
    s'.headerIn n e p = s.headerIn n e p := by
  unfold headerAddr at hread
  unfold Heap.headerIn
  dsimp only at hread ⊢
  rw [hread]

/-- Only the table and the loaded header count. -/
theorem toHeader_congr {s s' : Heap} {p : Nat} (hdesc : s'.desc = s.desc)
    (hload : ∀ h, s.toHeaderLoad p = some h → ∀ a, h ≤ a → a < h + 4 → s'.mem a = s.mem a) :
    s'.toHeader p = s.toHeader p := by
  have hzone : s'.zoneOf p = s.zoneOf p := by
    unfold Heap.zoneOf
    rw [hdesc]
  rw [toHeader_eq_zoneOf, toHeader_eq_zoneOf, hzone]
  unfold Heap.toHeaderLoad at hload
  cases hfound : s.zoneOf p with
  | error e => rw [Except.map, Except.map]
  | ok zone =>
    rw [Except.map, Except.map]
    cases zone with
    | none => rw [Option.elim_none, Option.elim_none]
    | some ne =>
      rw [hfound] at hload
      exact congrArg Except.ok (headerIn_congr (readBytes_congr (hload _ rfl)))

/-! ## The property -/

/-- The mapped memory: the zones, and whatever else the process has mapped. -/
def HeapRun.Mapped (st : HeapRun) (other : Nat → Prop) (a : Nat) : Prop :=
  other a ∨ ∃ b, b ≤ a ∧ a < b + st.zone b

/-- `toHeader` is sound on the word `w`. -/
structure HeapRun.SoundAt (st : HeapRun) (other : Nat → Prop) (w : Nat) : Prop where
  /-- The accesses to `heap_desc` are in bounds, and the entries are consistent. -/
  returns : ∃ h, st.heap.toHeader w = .ok h
  mapped : ∀ h, st.heap.toHeaderLoad w = some h → ∀ a, h ≤ a → a < h + 4 → st.Mapped other a
  live : ∀ h, st.heap.toHeader w = .ok h → h ≠ 0 →
    ∃ o ∈ st.live, o.header = h ∧ toObject h ≤ w ∧ w < toObject h + (read32 st.heap.mem h).toNat

/-- The last element that starts at or before `w`, counted from the zone at `b` as if it did not
end. -/
def HeapRun.elementBefore (st : HeapRun) (b w : Nat) : Nat :=
  let e := (st.heap.desc (pageOf b)).toNat
  b + e * ((w - b) / e)

/-- The words of the first 4 GiB, the words with a page number of no zone, and the others for which
the computed header is mapped and holds a size that ends before the word. -/
def HeapRun.Resolvable (st : HeapRun) (other : Nat → Prop) (w : Nat) : Prop :=
  w < 2 ^ 32 ∨ ∀ b k, 4096 * k < st.zone b → pageOf (b + 4096 * k) = pageOf w →
    let h := st.elementBefore b w
    (∀ a, h ≤ a → a < h + 4 → st.Mapped other a) ∧
      (toObject h ≤ w → toObject h + (read32 st.heap.mem h).toNat ≤ w)

/-- The `int` that is passed to `mmap`. -/
def Source.mmapLength (size : Int32) : Source → Int32
  | .reuse => 0
  | .cut => 0
  | .newZone => align (totalSize size * 32) 4096
  | .ownZone => align (totalSize size) 4096

/-- The steps of a client that asks for any positive multiple of 8, with zones in the first
4 GiB. -/
def ClientRun.Requests (r : ClientRun) : HeapEvent → Prop
  | .malloc size mapped =>
    0 < size.toNat ∧ size.toNat % 8 = 0 ∧ r.run.MapsFresh size.toNat mapped ∧
      let len := (((source r.run.heap size.toNat).mmapLength size).signExtend 64).toNat
      ∀ z, mapped = some z → 0 < len → z + len ≤ 2 ^ 32
  | .free p => r.run.Allowed (.free p)
  | .write a v => r.run.Allowed (.write a v)

/-! ## The sizes -/

/-- The `int` is positive for the zones that `mmap` can give. -/
theorem mmapLength_toNat {s : Heap} {size : Int32} (hsize : size.toNat + 4100 ≤ 2 ^ 31) :
    (((source s size.toNat).mmapLength size).signExtend 64).toNat
      = (source s size.toNat).mapLength size.toNat := by
  have hpositive : ∀ {x : Int32} {n : Nat}, x.toNat = n → n < 2 ^ 31 →
      (x.signExtend 64).toNat = n := by
    intro x n hx hn
    rw [signExtend_of_toNat hx hn, BitVec.toNat_ofNat]
    omega
  cases hsource : source s size.toNat with
  | reuse => rfl
  | cut => rfl
  | newZone =>
    have hsmall : size.toNat < 8192 := by
      by_contra hnot
      simp [source, hnot] at hsource
    exact hpositive (classZone_toNat hsmall) (pageRound_class_lt hsmall)
  | ownZone =>
    exact hpositive (largeZone_toNat (by omega)) (pageRound_slotWidth_lt hsize)

/-- A size that gets an object is that of a zone with a positive length. -/
theorem ClientRun.Requests.bound {r : ClientRun} {size : Int32} {mapped : Option Nat}
    (hallowed : r.Requests (.malloc size mapped)) {s' : Heap} {h : Nat}
    (hok : r.run.heap.preMalloc size mapped = .ok (s', h)) : size.toNat + 4100 ≤ 2 ^ 31 := by
  rcases hallowed with ⟨-, hmod, -, hlow⟩
  by_contra hlarge
  have hsource : source r.run.heap size.toNat = .ownZone := by simp [source]; omega
  by_cases hint : size.toNat < 2 ^ 31
  · have hlen : (align (totalSize size) 4096).toNat = 2 ^ 31 := by
      rw [largeZone_toNat hint]
      unfold slotWidth pageRound
      split <;> omega
    have hneg : (((align (totalSize size) 4096)).signExtend 64).toNat = 2 ^ 64 - 2 ^ 31 := by
      rw [show align (totalSize size) 4096 = BitVec.ofNat 32 (2 ^ 31) from
        BitVec.eq_of_toNat_eq (by rw [hlen]; rfl)]
      decide
    rcases preMalloc_cases hint hok with ⟨hother, -, -, -, -, -, -⟩ |
      ⟨hother, -, -, -, -, -, -, -⟩ | ⟨hother, -, -, -, -, -, -⟩ | ⟨-, -, hmapped, -, -, -⟩
    · rw [hsource] at hother
      cases hother
    · rw [hsource] at hother
      cases hother
    · rw [hsource] at hother
      cases hother
    · rw [hsource, Source.mmapLength, hneg] at hlow
      have := hlow h hmapped (by decide)
      omega
  · obtain ⟨i, hindex⟩ := getObjectAllocator_neg (Nat.le_of_not_lt hint)
    unfold Heap.preMalloc Heap.allocateInternal Heap.takeSlot at hok
    rw [hindex] at hok
    cases hok

/-! ## The headers of the elements -/

/-- The header of an element is that of a live object, or zero. -/
def ElementHeaders (mem : Mem) (live : List Obj) (zone elmt : Nat → Nat) : Prop :=
  ∀ b i, i * elmt b < zone b →
    (∃ o ∈ live, o.header = b + i * elmt b) ∨ read32 mem (b + i * elmt b) = 0

/-- The heap of a client, with the headers of all elements. -/
structure ElementInv (r : ClientRun) (free : Nat → List Nat) (elmt : Nat → Nat) : Prop where
  client : ClientInv r free elmt
  elmt_mod : ∀ b, 0 < r.run.zone b → elmt b % 8 = 0
  header : ElementHeaders r.run.heap.mem r.run.live r.run.zone elmt

theorem elementInv_init (mem : Mem) :
    ElementInv (ClientRun.init mem) (fun _ => []) fun _ => 0 where
  client := clientInv_init mem
  elmt_mod := by simp
  header := by
    intro b i hi
    exact absurd hi (Nat.not_lt_zero _)

theorem slotWidth_mod (n : Nat) : slotWidth n % 8 = 0 := Nat.mul_mod_left _ _

namespace ElementInv

variable {r : ClientRun} {free : Nat → List Nat} {elmt : Nat → Nat}

/-- Elements are aligned, so the header of the last one is in the zone even where the element is
cut off. -/
theorem element_fits (h : ElementInv r free elmt) {b i : Nat} (hi : i * elmt b < r.run.zone b) :
    i * elmt b + 4 ≤ r.run.zone b := by
  have hmod := h.elmt_mod b (by omega)
  obtain ⟨-, hlen, -⟩ := h.client.heap.zone_bound b (by omega)
  have haligned : i * elmt b % 8 = 0 := by rw [Nat.mul_mod, hmod]; simp
  omega

/-- The header of an element is apart from every other element. -/
theorem element_apart (h : ElementInv r free elmt) {b i a w n : Nat}
    (hi : i * elmt b < r.run.zone b) (ha : OnGrid r.run.zone elmt a w n) (hn : 0 < n)
    (hw : n ≤ w) (hne : b + i * elmt b ≠ a) : Apart (b + i * elmt b) 4 a n := by
  rcases ha with ⟨b', j, rfl, hin, rfl⟩
  have hfits := h.element_fits hi
  by_cases hb : b = b'
  · subst hb
    have hmod := h.elmt_mod b (by omega)
    rcases Nat.lt_trichotomy i j with hlt | rfl | hgt
    · have hstep := Nat.mul_le_mul_right (elmt b) (Nat.succ_le_of_lt hlt)
      rw [Nat.succ_mul] at hstep
      unfold Apart
      omega
    · exact absurd rfl hne
    · have hstep := Nat.mul_le_mul_right (elmt b) (Nat.succ_le_of_lt hgt)
      rw [Nat.succ_mul] at hstep
      unfold Apart
      omega
  · have hsep : Apart b (r.run.zone b) b' (r.run.zone b') :=
      h.client.heap.layout.zone_sep b b' hb (show 0 < r.run.zone b by omega)
        (show 0 < r.run.zone b' by omega)
    unfold Apart at hsep ⊢
    omega

/-- A change inside one element leaves the headers of the others alone. -/
theorem header_element (h : ElementInv r free elmt) {mem : Mem} {live : List Obj} {x w n : Nat}
    (hx : OnGrid r.run.zone elmt x w n) (hn : 0 < n) (hw : n ≤ w)
    (hmem : SameOutside r.run.heap.mem mem x n)
    (hlive : ∀ o ∈ r.run.live, o.header ≠ x → o ∈ live)
    (hself : (∃ o ∈ live, o.header = x) ∨ read32 mem x = 0) :
    ElementHeaders mem live r.run.zone elmt := by
  intro b i hi
  by_cases hbx : b + i * elmt b = x
  · rwa [hbx]
  · rcases h.header b i hi with ⟨o, ho, heq⟩ | hzero
    · exact .inl ⟨o, hlive o ho (heq ▸ hbx), heq⟩
    · exact .inr ((hmem.readBytes (h.element_apart hi hx hn hw hbx)).trans hzero)

/-- The elements of a fresh zone are zero but for the first. -/
theorem header_fresh (h : ElementInv r free elmt) {mem : Mem} {x len w size : Nat} {v : Int32}
    (hfresh : r.run.layout.Fresh x len) (hw : w % 8 = 0) (hw' : 0 < w) (hlen : len % 8 = 0)
    (hmem : mem = write32 (fill r.run.heap.mem x 0 len) x v) :
    ElementHeaders mem (⟨x, size⟩ :: r.run.live) (Function.update r.run.zone x len)
      (Function.update elmt x w) := by
  intro b i hi
  by_cases hb : b = x
  · subst hb
    rw [Function.update_self, Function.update_self] at *
    by_cases h0 : i = 0
    · subst h0
      exact .inl ⟨_, List.mem_cons_self, by simp⟩
    · have hstep := Nat.mul_le_mul_right w (Nat.one_le_iff_ne_zero.mpr h0)
      have haligned : i * w % 8 = 0 := by rw [Nat.mul_mod, hw]; simp
      refine .inr (readBytes_eq_zero fun a hlo hhi => ?_)
      rw [hmem, write32_apply_of_outside (by omega)]
      exact fill_apply_of_inside (by omega) (by omega)
  · rw [Function.update_of_ne hb, Function.update_of_ne hb] at *
    have hpos : 0 < len := hfresh.1
    have hfits := h.element_fits hi
    have hsep : Apart x len b (r.run.zone b) := hfresh.2 b (show 0 < r.run.zone b by omega)
    rcases h.header b i hi with ⟨o, ho, heq⟩ | hzero
    · exact .inl ⟨o, List.mem_cons_of_mem _ ho, heq⟩
    · refine .inr (Eq.trans (readBytes_congr fun a hlo hhi => ?_) hzero)
      unfold Apart at hsep
      rw [hmem, write32_apply_of_outside (by omega), fill_apply_of_outside (by omega)]

/-! ### What the steps keep -/

/-- `pre_malloc`. -/
theorem malloc (h : ElementInv r free elmt) {size : Int32} {mapped : Option Nat}
    (hmaps : r.run.MapsFresh size.toNat mapped) {s' : Heap} {x : Nat}
    (hmalloc : Malloc r.run.heap size mapped s' x) {r' : ClientRun} {free' : Nat → List Nat}
    (hrun : r'.run = r.run.allocated s' size.toNat x)
    (hclient : ClientInv r' free' (r.run.allocatedElmt elmt size.toNat x)) :
    ElementInv r' free' (r.run.allocatedElmt elmt size.toNat x) := by
  have hroom := header_add_le_slotWidth size.toNat
  have hwidth := slotWidth_pos size.toNat
  have hnew : OnGrid r'.run.zone (r.run.allocatedElmt elmt size.toNat x) x
      (slotWidth size.toNat) (slotWidth size.toNat) :=
    hclient.grid.live ⟨x, size.toNat⟩ (by rw [hrun]; exact List.mem_cons_self)
  have hsame := hmalloc.sameOutside
  have hslot : r.run.allocatedElmt elmt size.toNat x = elmt → r'.run.zone = r.run.zone →
      taken r.run.heap size.toNat = 4 + size.toNat →
      ElementInv r' free' (r.run.allocatedElmt elmt size.toNat x) := by
    intro helmt hzone htaken
    rw [helmt, hzone] at hnew
    rw [htaken] at hsame
    rw [helmt] at hclient ⊢
    refine ⟨hclient, hzone ▸ h.elmt_mod, ?_⟩
    rw [hzone, hrun]
    refine h.header_element (hnew.mono hroom) (by omega) hroom hsame
      (fun o ho _ => List.mem_cons_of_mem _ ho) (.inl ⟨_, List.mem_cons_self, rfl⟩)
  have hmap : ∀ len, len % 8 = 0 →
      r.run.allocatedElmt elmt size.toNat x = Function.update elmt x (slotWidth size.toNat) →
      r'.run.zone = Function.update r.run.zone x len → r.run.layout.Fresh x len →
      s'.mem = write32 (fill r.run.heap.mem x 0 len) x size →
      ElementInv r' free' (r.run.allocatedElmt elmt size.toNat x) := by
    intro len hlen helmt hzone hfresh hmem
    rw [helmt] at hclient ⊢
    refine ⟨hclient, fun b hb => ?_, ?_⟩
    · rw [hzone] at hb
      by_cases hbx : b = x
      · subst hbx
        rw [Function.update_self]
        exact slotWidth_mod _
      · rw [Function.update_of_ne hbx] at hb ⊢
        exact h.elmt_mod b hb
    · rw [hzone, hrun]
      exact h.header_fresh hfresh (slotWidth_mod _) hwidth hlen hmem
  have hround : ∀ n, pageRound n % 8 = 0 := fun n => by
    have := pageRound_mod n
    omega
  rcases hmalloc with ⟨hsource, -, -, -, -, -, -⟩ | ⟨hsource, -, -, -, -, -, -, -⟩ |
    ⟨hsource, -, rfl, -, hmem, -, -⟩ | ⟨hsource, -, rfl, hmem, -, -⟩
  · apply hslot
    · simp only [HeapRun.allocatedElmt, hsource]
    · simp only [hrun, HeapRun.allocated, hsource]
    · simp [taken, hsource, Source.mapLength]
  · apply hslot
    · simp only [HeapRun.allocatedElmt, hsource]
    · simp only [hrun, HeapRun.allocated, hsource]
    · simp [taken, hsource, Source.mapLength]
  · have hle := le_pageRound (32 * slotWidth size.toNat)
    obtain ⟨-, -, hfresh⟩ := hmaps x rfl (by rw [hsource, Source.mapLength]; omega)
    rw [hsource, Source.mapLength] at hfresh
    apply hmap _ (hround _) _ _ hfresh hmem
    · simp only [HeapRun.allocatedElmt, hsource]
    · simp only [hrun, HeapRun.allocated, hsource]
  · have hle := le_pageRound (slotWidth size.toNat)
    obtain ⟨-, -, hfresh⟩ := hmaps x rfl (by rw [hsource, Source.mapLength]; omega)
    rw [hsource, Source.mapLength] at hfresh
    apply hmap _ (hround _) _ _ hfresh hmem
    · simp only [HeapRun.allocatedElmt, hsource]
    · simp only [hrun, HeapRun.allocated, hsource]

/-- `pre_free`. -/
theorem preFree (h : ElementInv r free elmt) {o : Obj} (ho : o ∈ r.run.live) {s' : Heap}
    (hok : r.run.heap.preFree (toObject o.header) = .ok s') :
    ∃ free', ElementInv ⟨r.run.released s' o.header,
      r.run.live.filter (fun x => x.header == o.header) ++ r.freed⟩ free' elmt := by
  obtain ⟨free', hclient⟩ := h.client.preFree ho hok
  obtain ⟨-, hrelease⟩ := h.client.release ho hok
  obtain ⟨hpos, -⟩ := h.client.live_size o ho
  have hstored := h.client.heap.live_header o ho
  have hlive : ∀ o' ∈ r.run.live, o'.header ≠ o.header →
      o' ∈ (r.run.released s' o.header).live :=
    fun o' ho' hne => HeapInv.mem_released.mpr ⟨ho', hne⟩
  suffices hkeep : (∀ b, 0 < (r.run.released s' o.header).zone b → elmt b % 8 = 0) ∧
      ElementHeaders s'.mem (r.run.released s' o.header).live
        (r.run.released s' o.header).zone elmt from ⟨free', hclient, hkeep.1, hkeep.2⟩
  rcases hrelease with ⟨hsmall, hmem, -, -⟩ | ⟨hlarge, hmem, -, -⟩
  · rw [hstored] at hsmall
    obtain ⟨-, hzone⟩ := h.client.heap.released_of_small s' ho hsmall
    have htwelve := twelve_le_slotWidth (show 5 ≤ o.size by omega)
    have hself : read32 s'.mem o.header = 0 := by
      rw [hmem]
      exact (readBytes_writeBytes_of_apart (.inl (Nat.le_refl _))).trans
        (read32_write32_self _ _ _)
    rw [hzone]
    refine ⟨h.elmt_mod, ?_⟩
    refine h.header_element ((h.client.grid.live o ho).mono htwelve) (by omega) htwelve ?_ hlive
      (.inr hself)
    exact hmem ▸ sameOutside_link _ _ _
  · rw [hstored] at hlarge
    obtain ⟨hlength, hwhole⟩ := h.client.heap.live_large o ho hlarge
    have hfits := h.client.heap.live_fits o ho
    refine ⟨fun b hb => ?_, fun b i hi => ?_⟩
    · obtain ⟨-, heq⟩ := h.client.heap.released_zone ho hlarge hb
      exact h.elmt_mod b (heq ▸ hb)
    · obtain ⟨hne, heq⟩ := h.client.heap.released_zone ho hlarge (Nat.zero_lt_of_lt hi)
      have hi' : i * elmt b < r.run.zone b := heq ▸ hi
      have hsep : Apart b (r.run.zone b) o.header (r.run.zone o.header) :=
        h.client.heap.layout.zone_sep _ _ hne (show 0 < r.run.zone b by omega)
          (show 0 < r.run.zone o.header by omega)
      rcases h.header b i hi' with ⟨o', ho', hat⟩ | hzero
      · refine .inl ⟨o', hlive o' ho' ?_, hat⟩
        unfold Apart at hsep
        omega
      · exact .inr (hmem ▸ hzero)

/-- A client write. -/
theorem written (h : ElementInv r free elmt) {o : Obj} (ho : o ∈ r.run.live) {a : Nat}
    (v : BitVec 8) (hlo : o.header + 4 ≤ a) (hhi : a < o.header + 4 + o.size) :
    ElementInv ⟨r.run.written a v, r.freed⟩ free elmt := by
  have hroom := header_add_le_slotWidth o.size
  have hsame : SameOutside r.run.heap.mem (Function.update r.run.heap.mem a v) o.header
      (4 + o.size) := fun x hx => Function.update_of_ne (by omega) _ _
  refine ⟨h.client.written ho v hlo hhi, h.elmt_mod, ?_⟩
  exact h.header_element ((h.client.grid.live o ho).mono hroom) (by omega) hroom hsame
    (fun _ ho' _ => ho') (.inl ⟨o, ho, rfl⟩)

end ElementInv

/-- Every step of a client keeps the headers. -/
theorem elementInv_step (r : ClientRun) (e : HeapEvent) (r' : ClientRun)
    (hinv : ∃ free elmt, ElementInv r free elmt) (hallowed : r.Requests e)
    (hstep : r.step e = some r') : ∃ free elmt, ElementInv r' free elmt := by
  rcases hinv with ⟨free, elmt, hinv⟩
  cases e with
  | malloc size mapped =>
    simp only [ClientRun.step] at hstep
    split at hstep
    · next s' x hok =>
      cases hstep
      have hbound := hallowed.bound hok
      rcases hallowed with ⟨hpos, hmod, hmaps, hlow⟩
      rw [mmapLength_toNat hbound] at hlow
      have hmalloc := preMalloc_cases (by omega) hok
      obtain ⟨free', hclient⟩ := hinv.client.malloc hpos hmod hbound hmaps hlow hmalloc
      exact ⟨free', _, hinv.malloc hmaps hmalloc rfl hclient⟩
    · cases hstep
  | free p =>
    rcases hallowed with ⟨o, ho, rfl, -⟩
    simp only [ClientRun.step, Nat.add_sub_cancel] at hstep
    split at hstep
    · next s' hok =>
      cases hstep
      obtain ⟨free', hinv'⟩ := hinv.preFree ho hok
      exact ⟨free', elmt, hinv'⟩
    · cases hstep
  | write a v =>
    rcases hallowed with ⟨o, ho, hlo, hhi⟩
    cases hstep
    exact ⟨_, _, hinv.written ho v hlo hhi⟩

/-! ## The lookup -/

namespace ElementInv

variable {r : ClientRun} {free : Nat → List Nat} {elmt : Nat → Nat}

/-- The element before a word, by the size of the elements. -/
theorem elementBefore_eq (h : ElementInv r free elmt) {b w : Nat} (hb : 0 < r.run.zone b) :
    r.run.elementBefore b w = b + (w - b) / elmt b * elmt b := by
  obtain ⟨-, he⟩ := h.client.grid.desc.elmt_bound b hb
  have hentry : r.run.heap.desc (pageOf b) = BitVec.ofNat 64 (elmt b) :=
    (h.client.grid.desc.page b 0 hb).trans (signExtend_ofNat he)
  unfold HeapRun.elementBefore
  rw [hentry, BitVec.toNat_ofNat, Nat.mod_eq_of_lt (show elmt b < 2 ^ 64 by omega)]
  exact congrArg (b + ·) (Nat.mul_comm _ _)

/-- A word with the page number of a zone is not before the zone. -/
theorem zone_le_word (h : ElementInv r free elmt) {b k w : Nat} (hk : 4096 * k < r.run.zone b)
    (hpage : pageOf (b + 4096 * k) = pageOf w) : b ≤ w ∧ (w < 2 ^ 32 → w < b + r.run.zone b) := by
  obtain ⟨hbase, hlen, -⟩ := h.client.heap.zone_bound b (by omega)
  have hlow := h.client.zone_low b (by omega)
  unfold pageOf at hpage
  omega

/-- A word with the page number of a zone is looked up at the element before it. -/
theorem lookup (h : ElementInv r free elmt) {b k w : Nat} (hw : w < 2 ^ 64)
    (hk : 4096 * k < r.run.zone b) (hpage : pageOf (b + 4096 * k) = pageOf w) :
    let x := r.run.elementBefore b w
    r.run.heap.toHeaderLoad w = some x ∧
      r.run.heap.toHeader w =
        .ok (if x + 4 ≤ w ∧ w < x + 4 + (read32 r.run.heap.mem x).toNat then x else 0) := by
  obtain ⟨hbase, hlen, -⟩ := h.client.heap.zone_bound b (by omega)
  obtain ⟨he, he'⟩ := h.client.grid.desc.elmt_bound b (by omega)
  obtain ⟨hle, -⟩ := h.zone_le_word hk hpage
  have hlow := h.client.zone_low b (by omega)
  have hself : b % 2 ^ 32 = b := by omega
  have hnowrap : pageOf b + k < 2 ^ 20 := by
    unfold pageOf
    omega
  have hzone := h.client.grid.desc.zoneOf hw hk hpage
  rw [if_pos hnowrap] at hzone
  have haddr := headerAddr_toNat hbase (show b % 2 ^ 32 ≤ w by omega) hw he he'
  have hfound := headerIn_eq r.run.heap hbase (show b % 2 ^ 32 ≤ w by omega) hw he he'
  rw [hself, Nat.mul_comm, ← h.elementBefore_eq (by omega)] at haddr hfound
  constructor
  · unfold Heap.toHeaderLoad
    rw [hzone]
    exact congrArg some haddr
  · rw [toHeader_eq_zoneOf, hzone]
    exact congrArg Except.ok hfound

/-- A header that is found is that element, with a size that reaches over the word. -/
theorem found (h : ElementInv r free elmt) {b k w x : Nat} (hw : w < 2 ^ 64)
    (hk : 4096 * k < r.run.zone b) (hpage : pageOf (b + 4096 * k) = pageOf w)
    (hx : r.run.heap.toHeader w = .ok x) (hne : x ≠ 0) :
    x = r.run.elementBefore b w ∧ toObject x ≤ w ∧
      w < toObject x + (read32 r.run.heap.mem x).toNat := by
  obtain ⟨-, hfound⟩ := h.lookup hw hk hpage
  have heq := Except.ok.inj (hx.symm.trans hfound)
  split at heq
  · next hin =>
    subst heq
    exact ⟨rfl, hin.1, hin.2⟩
  · exact absurd heq hne

/-- In the first 4 GiB the element before a word is one of the zone. -/
theorem resolves_low (h : ElementInv r free elmt) {b k w : Nat} (hk : 4096 * k < r.run.zone b)
    (hpage : pageOf (b + 4096 * k) = pageOf w) (hw : w < 2 ^ 32) :
    let x := r.run.elementBefore b w
    b ≤ x ∧ x + 4 ≤ b + r.run.zone b ∧
      ((∃ o ∈ r.run.live, o.header = x) ∨ read32 r.run.heap.mem x = 0) := by
  obtain ⟨hle, hin⟩ := h.zone_le_word hk hpage
  have hquot := Nat.div_mul_le_self (w - b) (elmt b)
  have hi : (w - b) / elmt b * elmt b < r.run.zone b := by omega
  have hfits := h.element_fits hi
  have hheader := h.header b _ hi
  rw [← h.elementBefore_eq (by omega)] at hheader
  have hx := h.elementBefore_eq (b := b) (w := w) (by omega)
  exact ⟨by omega, by omega, hheader⟩

/-- A live object ends in the first 4 GiB. -/
theorem live_low (h : ElementInv r free elmt) {o : Obj} (ho : o ∈ r.run.live) :
    o.header + (4 + o.size) ≤ 2 ^ 32 := by
  obtain ⟨b, hlo, hhi⟩ := h.client.heap.noOverlap.2 o ho
  have hlow := h.client.zone_low b (by omega)
  omega

/-- A word from `2 ^ 32` on is found with its low half: the header that `toHeader` computes from it
is that of no live object, since these are all below. -/
theorem soundAt_iff (h : ElementInv r free elmt) (other : Nat → Prop) {w : Nat} (hw : w < 2 ^ 64) :
    r.run.SoundAt other w ↔ r.run.Resolvable other w := by
  constructor
  · intro hsound
    by_cases hlow : w < 2 ^ 32
    · exact .inl hlow
    refine .inr fun b k hk hpage => ?_
    obtain ⟨hload, hfound⟩ := h.lookup hw hk hpage
    refine ⟨hsound.mapped _ hload, fun hlo => ?_⟩
    by_contra hhi
    unfold toObject HEADER_SIZE at hlo hhi
    rw [if_pos ⟨hlo, by omega⟩] at hfound
    have hne : r.run.elementBefore b w ≠ 0 := by
      obtain ⟨he, he'⟩ := h.client.grid.desc.elmt_bound b (by omega)
      have hquot := Nat.lt_div_mul_add (a := w - b) he
      rw [h.elementBefore_eq (by omega)]
      omega
    obtain ⟨o, ho, heq, -, hend⟩ := hsound.live _ hfound hne
    have hsize := h.client.heap.live_header o ho
    have hbound := h.live_low ho
    rw [heq] at hsize
    unfold toObject HEADER_SIZE at hend
    omega
  · intro hres
    by_cases hzone : ∃ b k, 4096 * k < r.run.zone b ∧ pageOf (b + 4096 * k) = pageOf w
    · rcases hzone with ⟨b, k, hk, hpage⟩
      obtain ⟨hload, hfound⟩ := h.lookup hw hk hpage
      rcases hres with hlow | hhigh
      · obtain ⟨hlo, hhi, hheader⟩ := h.resolves_low hk hpage hlow
        refine ⟨⟨_, hfound⟩, fun x hx a ha ha' => ?_, fun x hx hne => ?_⟩
        · obtain rfl : r.run.elementBefore b w = x := Option.some.inj (hload.symm.trans hx)
          exact .inr ⟨b, by omega, by omega⟩
        · obtain ⟨rfl, hin, hend⟩ := h.found hw hk hpage hx hne
          rcases hheader with ⟨o, ho, hat⟩ | hzero
          · exact ⟨o, ho, hat, hin, hend⟩
          · rw [hzero] at hend
            exact absurd hend (Nat.not_lt.mpr hin)
      · obtain ⟨hmapped, hsize⟩ := hhigh b k hk hpage
        refine ⟨⟨_, hfound⟩, fun x hx => ?_, fun x hx hne => ?_⟩
        · obtain rfl : r.run.elementBefore b w = x := Option.some.inj (hload.symm.trans hx)
          exact hmapped
        · obtain ⟨rfl, hin, hend⟩ := h.found hw hk hpage hx hne
          exact absurd hend (Nat.not_lt.mpr (hsize hin))
    · have hno : ∀ b k, 4096 * k < r.run.zone b → pageOf (b + 4096 * k) ≠ pageOf w :=
        fun b k hk hpage => hzone ⟨b, k, hk, hpage⟩
      have hnone := h.client.grid.desc.zoneOf_noPage (s := r.run.heap) hw hno
      have hnull := h.client.grid.desc.toHeader_noPage hw hno
      refine ⟨⟨0, hnull⟩, fun x hx => ?_, fun x hx hne => ?_⟩
      · unfold Heap.toHeaderLoad at hx
        rw [hnone] at hx
        cases hx
      · exact absurd (Except.ok.inj (hx.symm.trans hnull)) hne

end ElementInv

/-! ## The run -/

/-- In every heap of a client, the words on which `toHeader` is sound are those that can be
resolved. -/
theorem soundAt_iff_of_run (other : Nat → Prop) {mem : Mem} {es : List HeapEvent} {r : ClientRun}
    (hok : RunOk ClientRun.step ClientRun.Requests (ClientRun.init mem) es)
    (hrun : run ClientRun.step (ClientRun.init mem) es = some r) {w : Nat} (hw : w < 2 ^ 64) :
    r.run.SoundAt other w ↔ r.run.Resolvable other w := by
  obtain ⟨free, elmt, hinv⟩ := run_invariant_of_ok elementInv_step es _ r
    ⟨_, _, elementInv_init mem⟩ hok hrun
  exact hinv.soundAt_iff other hw

/-- One object of 16 bytes. -/
theorem requests_first :
    (ClientRun.init fun _ => 0).Requests (.malloc 16 (some 0x10000000)) := by
  refine ⟨by decide, by decide, mapsFresh_init _ (by decide) (by decide), ?_⟩
  intro len z hz _
  cases hz
  decide

theorem soundAt_iff_of_run_sixteen :
    ∃ r, run ClientRun.step (ClientRun.init fun _ => 0) [.malloc 16 (some 0x10000000)] = some r ∧
      (r.run.SoundAt (fun _ => False) 0x110000008 ↔
        r.run.Resolvable (fun _ => False) 0x110000008) := by
  have hok : RunOk ClientRun.step ClientRun.Requests (ClientRun.init fun _ => 0)
      [.malloc 16 (some 0x10000000)] :=
    (runOk_cons_of_some rfl).mpr ⟨requests_first, trivial⟩
  exact ⟨_, rfl, soundAt_iff_of_run _ hok rfl (by decide)⟩

/-- The word is 4 GiB behind the object, and the header is loaded from there. -/
theorem soundAt_not_of_high_word :
    ¬ ∀ (mem : Mem) (es : List HeapEvent) (r : ClientRun) (w : Nat),
      RunOk ClientRun.step ClientRun.Requests (ClientRun.init mem) es →
      run ClientRun.step (ClientRun.init mem) es = some r → w < 2 ^ 64 →
      r.run.SoundAt (fun _ => False) w := by
  intro h
  have hok : RunOk ClientRun.step ClientRun.Requests (ClientRun.init fun _ => 0)
      [.malloc 16 (some 0x10000000)] :=
    (runOk_cons_of_some rfl).mpr ⟨requests_first, trivial⟩
  have hsound := h _ _ _ 0x110000008 hok rfl (by decide)
  rcases hsound.mapped 0x110000008 (by decide) 0x110000008 (by decide) (by decide) with
    hother | ⟨b, hlo, hhi⟩
  · exact hother
  · have hhi' : 0x110000008 < b + Function.update (fun _ : Nat => 0) 0x10000000 4096 b := hhi
    by_cases hb : b = 0x10000000
    · subst hb
      exact absurd hhi' (by decide)
    · rw [Function.update_of_ne hb] at hhi'
      omega

end KernelMemVirt.Gc
