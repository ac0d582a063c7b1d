import KernelMemVirt.Gc.Client

/-!
# The frame of `pre_free`

`pre_free` stores 0 to the header of a small object and a link of 8 bytes after it, so it needs
12 bytes.  The slot of an object of at most 4 bytes has 8, and the link ends in the next slot.

A class holds sizes of two widths, so a slot may also be reused for an object that ends in the
next slot, and the header of the next object is a part of its body.

* `HeapRun.FreesAlone` is the property: the other live objects keep their bytes.
* `freesAlone_of_run` is the run, where `SlotsFit` is the condition on the reuse of a slot and on
  the freeing of an object.
* `LinkFits` is a condition on the sizes alone, and `freesAlone_of_linkFits` is the run.
-/

namespace KernelMemVirt.Gc

open ByteMem Transition

/-! ## The property -/

/-- Freeing the object changes neither the header nor the body of another one. -/
def HeapRun.FreesAloneAt (st : HeapRun) (o : Obj) : Prop :=
  ∀ s', st.heap.preFree (toObject o.header) = .ok s' →
    ∀ o' ∈ st.live, o' ≠ o →
      ∀ a, o'.header ≤ a → a < toObject o'.header + o'.size → s'.mem a = st.heap.mem a

/-- The same for every live object. -/
def HeapRun.FreesAlone (st : HeapRun) : Prop := ∀ o ∈ st.live, st.FreesAloneAt o

/-- The steps of the runs: any size from 1 to `2 ^ 30`, with zones in the first 4 GiB, frees of
live objects, and writes inside them. -/
def HeapRun.LowAllowed (st : HeapRun) : HeapEvent → Prop
  | .malloc size mapped =>
    1 ≤ size.toNat ∧ st.Allowed (.malloc size mapped) ∧
      let len := (source st.heap size.toNat).mapLength size.toNat
      ∀ z, mapped = some z → 0 < len → z + len ≤ 2 ^ 32
  | .free p => st.Allowed (.free p)
  | .write a v => st.Allowed (.write a v)

theorem HeapRun.LowAllowed.allowed {st : HeapRun} {e : HeapEvent} (h : st.LowAllowed e) :
    st.Allowed e := by
  cases e with
  | malloc size mapped => exact h.2.1
  | free p => exact h
  | write a v => exact h

/-! ## The run -/

/-- The stores of `pre_free` stay in the slot of the object. -/
theorem HeapInv.freesAloneAt {st : HeapRun} {free : Nat → List Nat} (h : HeapInv st free) {o : Obj}
    (ho : o ∈ st.live) (hfits : st.SlotsFit (.free (toObject o.header))) : st.FreesAloneAt o := by
  intro s' hok o' ho' hne a hlo hhi
  rcases hfits with ⟨hresolves, hwide⟩
  obtain ⟨x, hheader, hx, hrelease⟩ := preFree_cases hok
  obtain rfl : x = o.header := Nat.add_right_cancel (hresolves x hheader hx)
  have hsame : SameOutside st.heap.mem s'.mem o.header 12 := by
    have hstored := h.live_header o ho
    have hmax := h.live_size o ho
    exact (hrelease (by omega)).sameOutside
  have hfits' := h.live_fits o' ho'
  have hdistinct : o'.header ≠ o.header := fun heq => hne (h.live_unique ho' ho heq)
  unfold toObject HEADER_SIZE at hwide hhi
  rw [Nat.add_sub_cancel] at hwide
  have hsep := h.slot_sep hdistinct (by omega) (show 0 < st.slot o.header by omega)
  apply hsame a
  unfold Apart at hsep
  omega

/-- In every run whose steps respect the slots, freeing an object changes no other one. -/
theorem freesAlone_of_run {mem : Mem} {es : List HeapEvent} {st : HeapRun}
    (hok : RunOk HeapRun.step (fun st e => st.LowAllowed e ∧ st.SlotsFit e) (HeapRun.init mem) es)
    (hrun : run HeapRun.step (HeapRun.init mem) es = some st) {o : Obj} (ho : o ∈ st.live)
    (hfits : st.SlotsFit (.free (toObject o.header))) : st.FreesAloneAt o := by
  have hstart : ∃ free, HeapInv (HeapRun.init mem) free := ⟨_, heapInv_init mem⟩
  obtain ⟨free, hinv⟩ := run_invariant_of_ok
    (fun _ _ _ hs h hstep => heapInv_step hs h.1.allowed h.2 hstep) es _ st hstart hok hrun
  exact hinv.freesAloneAt ho hfits

/-- Two objects of `n` bytes in a zone at `0x10000000`. -/
def pairEvents (n : Int32) : List HeapEvent :=
  [.malloc n (some 0x10000000), .malloc n none]

theorem lowAllowed_first {n : Int32} (hpos : 1 ≤ n.toNat) (hsize : n.toNat ≤ 2 ^ 30)
    (hend : 0x10000000 + (source (Heap.init fun _ => 0) n.toNat).mapLength n.toNat ≤ 2 ^ 32) :
    (HeapRun.init fun _ => 0).LowAllowed (.malloc n (some 0x10000000)) := by
  refine ⟨hpos, ⟨hsize, mapsFresh_init _ (by decide) (Nat.lt_of_le_of_lt hend (by decide))⟩, ?_⟩
  intro len z hz _
  cases hz
  exact hend

theorem lowAllowed_next (st : HeapRun) {n : Int32} (hpos : 1 ≤ n.toNat) (hsize : n.toNat ≤ 2 ^ 30) :
    st.LowAllowed (.malloc n none) :=
  ⟨hpos, ⟨hsize, mapsFresh_none _ _⟩, fun _ hz => absurd hz (by simp)⟩

/-- Sizes 16 and 18 share a class, with slots of 24 bytes. -/
theorem freesAlone_of_run_sixteen :
    ∃ st, run HeapRun.step (HeapRun.init fun _ => 0) (reuseEvents 16 18) = some st ∧
      st.live = [⟨0x10000000, 18⟩, ⟨0x10000018, 16⟩] ∧ st.FreesAloneAt ⟨0x10000000, 18⟩ := by
  have hok : RunOk HeapRun.step (fun st e => st.LowAllowed e ∧ st.SlotsFit e)
      (HeapRun.init fun _ => 0) (reuseEvents 16 18) := by
    refine (runOk_cons_of_some rfl).mpr ⟨⟨?_, slotsFit_of_first rfl⟩, ?_⟩
    · exact lowAllowed_first (by decide) (by decide) (by decide)
    refine (runOk_cons_of_some rfl).mpr ⟨⟨?_, slotsFit_of_first rfl⟩, ?_⟩
    · exact lowAllowed_next _ (by decide) (by decide)
    refine (runOk_cons_of_some rfl).mpr ⟨⟨?_, ?_, by decide⟩, ?_⟩
    · exact ⟨⟨0x10000000, 16⟩, by decide, rfl, by decide⟩
    · intro h hheader _
      cases hheader
      rfl
    refine (runOk_cons_of_some rfl).mpr ⟨⟨?_, fun _ => by decide⟩, trivial⟩
    exact lowAllowed_next _ (by decide) (by decide)
  refine ⟨_, rfl, rfl, freesAlone_of_run hok rfl (by decide) ⟨?_, by decide⟩⟩
  intro h hheader _
  cases hheader
  rfl

/-- The slots of objects of 4 bytes have 8: the link of the first is stored over the header of
the second. -/
theorem freesAlone_not_of_four :
    ¬ ∀ (mem : Mem) (es : List HeapEvent) (st : HeapRun),
      RunOk HeapRun.step HeapRun.LowAllowed (HeapRun.init mem) es →
      run HeapRun.step (HeapRun.init mem) es = some st → st.FreesAlone := by
  intro h
  have hok : RunOk HeapRun.step HeapRun.LowAllowed (HeapRun.init fun _ => 0) (pairEvents 4) := by
    refine (runOk_cons_of_some rfl).mpr ⟨?_, ?_⟩
    · exact lowAllowed_first (by decide) (by decide) (by decide)
    exact (runOk_cons_of_some rfl).mpr ⟨lowAllowed_next _ (by decide) (by decide), trivial⟩
  have hsame := h _ _ _ hok rfl ⟨0x10000000, 4⟩ (by decide) _ rfl ⟨0x10000008, 4⟩ (by decide)
    (by decide) 0x10000008 (by decide) (by decide)
  exact absurd hsame (by decide)

/-- At 12 bytes the link fits, but an object of 15 bytes reuses the first slot, and the header of
the second object is a part of it. -/
theorem freesAlone_not_of_twelve :
    ¬ ∀ (mem : Mem) (es : List HeapEvent) (st : HeapRun),
      RunOk HeapRun.step (fun st e => st.LowAllowed e ∧
        ∀ size mapped, e = .malloc size mapped → 5 ≤ size.toNat) (HeapRun.init mem) es →
      run HeapRun.step (HeapRun.init mem) es = some st → st.FreesAlone := by
  intro h
  have hsize : ∀ (n : Int32) (m : Option Nat), 5 ≤ n.toNat → ∀ size mapped,
      HeapEvent.malloc n m = .malloc size mapped → 5 ≤ size.toNat := by
    intro n m hn size mapped heq
    cases heq
    exact hn
  have hok : RunOk HeapRun.step (fun st e => st.LowAllowed e ∧
      ∀ size mapped, e = .malloc size mapped → 5 ≤ size.toNat) (HeapRun.init fun _ => 0)
      (pairEvents 12 ++
        [.free 0x10000014, .free 0x10000004, .malloc 15 none, .malloc 12 none]) := by
    refine (runOk_cons_of_some rfl).mpr ⟨⟨?_, hsize 12 _ (by decide)⟩, ?_⟩
    · exact lowAllowed_first (by decide) (by decide) (by decide)
    refine (runOk_cons_of_some rfl).mpr ⟨⟨?_, hsize 12 _ (by decide)⟩, ?_⟩
    · exact lowAllowed_next _ (by decide) (by decide)
    refine (runOk_cons_of_some rfl).mpr ⟨⟨?_, fun _ _ heq => by cases heq⟩, ?_⟩
    · exact ⟨⟨0x10000010, 12⟩, by decide, rfl, by decide⟩
    refine (runOk_cons_of_some rfl).mpr ⟨⟨?_, fun _ _ heq => by cases heq⟩, ?_⟩
    · exact ⟨⟨0x10000000, 12⟩, by decide, rfl, by decide⟩
    refine (runOk_cons_of_some rfl).mpr ⟨⟨?_, hsize 15 _ (by decide)⟩, ?_⟩
    · exact lowAllowed_next _ (by decide) (by decide)
    exact (runOk_cons_of_some rfl).mpr
      ⟨⟨lowAllowed_next _ (by decide) (by decide), hsize 12 _ (by decide)⟩, trivial⟩
  have hsame := h _ _ _ hok rfl ⟨0x10000010, 12⟩ (by decide) _ rfl ⟨0x10000000, 15⟩ (by decide)
    (by decide) 0x10000010 (by decide) (by decide)
  exact absurd hsame (by decide)

/-! ## Sizes for which the slots fit -/

/-- An object has room for a link, and the small objects of a class have slots of one width. -/
def LinkFits (ω : Nat → Nat) : HeapEvent → Prop
  | .malloc size _ =>
    5 ≤ size.toNat ∧ (size.toNat < 8192 → ω (classOf size.toNat) = slotWidth size.toNat)
  | .free _ => True
  | .write _ _ => True

/-- The heap of such a run. -/
structure FrameInv (ω : Nat → Nat) (st : HeapRun) (free : Nat → List Nat) (elmt : Nat → Nat) :
    Prop where
  heap : HeapInv st free
  grid : WidthGrid st ω elmt free
  zone_low : ∀ b, 0 < st.zone b → b + st.zone b ≤ 2 ^ 32
  live_size : ∀ o ∈ st.live, 5 ≤ o.size

theorem frameInv_init (ω : Nat → Nat) (mem : Mem) :
    FrameInv ω (HeapRun.init mem) (fun _ => []) fun _ => 0 where
  heap := heapInv_init mem
  grid := widthGrid_init mem ω
  zone_low := by simp [HeapRun.init]
  live_size := by simp [HeapRun.init]

namespace FrameInv

variable {ω elmt : Nat → Nat} {st : HeapRun} {free : Nat → List Nat}

/-- `pre_free` finds the header of the object, and its slot has room for the link. -/
theorem release (h : FrameInv ω st free elmt) {o : Obj} (ho : o ∈ st.live) {s' : Heap}
    (hok : st.heap.preFree (toObject o.header) = .ok s') :
    o.header ≠ 0 ∧ Release st.heap o.header s' ∧ 12 ≤ st.slot o.header := by
  have hsize := h.live_size o ho
  have hwide := h.grid.slotWidth_le_slot h.heap ho
  have htwelve := twelve_le_slotWidth hsize
  obtain ⟨hne, hrelease⟩ := h.grid.release h.heap h.zone_low ho (by omega) hok
  exact ⟨hne, hrelease, by omega⟩

/-- A live object may be freed. -/
theorem slotsFit_free (h : FrameInv ω st free elmt) {o : Obj} (ho : o ∈ st.live) :
    st.SlotsFit (.free (toObject o.header)) := by
  have hsize := h.live_size o ho
  have hwide := h.grid.slotWidth_le_slot h.heap ho
  have htwelve := twelve_le_slotWidth hsize
  have hfound : st.heap.toHeader (toObject o.header) = .ok o.header :=
    h.grid.toHeader_live h.heap h.zone_low ho (Nat.le_refl _) (Nat.lt_add_of_pos_right (by omega))
  refine ⟨fun x hx _ => ?_, ?_⟩
  · rw [hfound] at hx
    exact congrArg (· + 4) (Except.ok.inj hx).symm
  · unfold toObject HEADER_SIZE
    rw [Nat.add_sub_cancel]
    omega

theorem freesAlone (h : FrameInv ω st free elmt) : st.FreesAlone :=
  fun _ ho => h.heap.freesAloneAt ho (h.slotsFit_free ho)

/-- `pre_malloc`. -/
theorem malloc (h : FrameInv ω st free elmt) {size : Int32} {mapped : Option Nat}
    (hallowed : st.LowAllowed (.malloc size mapped)) (hfits : LinkFits ω (.malloc size mapped))
    {s' : Heap} {x : Nat} (hmalloc : Malloc st.heap size mapped s' x) :
    ∃ free', FrameInv ω (st.allocated s' size.toNat x) free'
      (st.allocatedElmt elmt size.toNat x) := by
  rcases hallowed with ⟨-, ⟨hsize, hmaps⟩, hlow⟩
  have hone : st.OneWidth ω size.toNat mapped := by
    refine ⟨hfits.2, fun z hz hlen => ?_⟩
    have hend := hlow z hz hlen
    exact ⟨by omega, h.heap.lowFresh h.zone_low hmaps hz hlen hend⟩
  obtain ⟨free', hheap, hgrid, -⟩ := h.grid.malloc h.heap (by omega) hmaps hone hmalloc
  refine ⟨free', hheap, hgrid, hmalloc.zone_low h.zone_low hlow, fun o ho => ?_⟩
  rcases List.mem_cons.mp ho with rfl | hold
  · exact hfits.1
  · exact h.live_size o hold

/-- `pre_free`. -/
theorem preFree (h : FrameInv ω st free elmt) {o : Obj} (ho : o ∈ st.live) {s' : Heap}
    (hok : st.heap.preFree (toObject o.header) = .ok s') :
    ∃ free', FrameInv ω (st.released s' o.header) free' elmt := by
  have hstored := h.heap.live_header o ho
  have hmax := h.heap.live_size o ho
  have hlive : ∀ o' ∈ (st.released s' o.header).live, 5 ≤ o'.size :=
    fun o' ho' => h.live_size o' (HeapInv.mem_released.mp ho').1
  obtain ⟨hne, hrelease, hwide⟩ := h.release ho hok
  rcases hrelease with ⟨hsmall, hmem, hdesc, halloc⟩ | ⟨hlarge, hmem, hdesc, halloc⟩
  · rw [hstored] at hmem halloc hsmall
    obtain ⟨-, hzone⟩ := h.heap.released_of_small s' ho hsmall
    exact ⟨_, h.heap.released_small ho hne hsmall hwide hmem halloc,
      h.grid.released_small h.heap ho hsmall hdesc halloc, hzone ▸ h.zone_low, hlive⟩
  · have hlen := largeZone_toNat (show (read32 st.heap.mem o.header).toNat < 2 ^ 31 by omega)
    rw [hstored] at hlarge hlen
    refine ⟨_, h.heap.released_large ho hlarge hmem halloc,
      h.grid.released_large h.heap ho hlarge hlen hdesc halloc, fun b hb => ?_, hlive⟩
    obtain ⟨-, heq⟩ := h.heap.released_zone ho hlarge hb
    rw [heq] at hb ⊢
    exact h.zone_low b hb

end FrameInv

theorem frameInv_step (ω : Nat → Nat) (st : HeapRun) (e : HeapEvent) (st' : HeapRun)
    (hinv : ∃ free elmt, FrameInv ω st free elmt) (hok : st.LowAllowed e ∧ LinkFits ω e)
    (hstep : st.step e = some st') : ∃ free elmt, FrameInv ω st' free elmt := by
  rcases hinv with ⟨free, elmt, h⟩
  rcases hok with ⟨hallowed, hfits⟩
  cases e with
  | malloc size mapped =>
    simp only [HeapRun.step] at hstep
    split at hstep
    · next s' x hmalloc =>
      cases hstep
      have hsize : size.toNat ≤ 2 ^ 30 := hallowed.2.1.1
      obtain ⟨free', hinv⟩ := h.malloc hallowed hfits (preMalloc_cases (by omega) hmalloc)
      exact ⟨free', _, hinv⟩
    · cases hstep
  | free p =>
    rcases hallowed with ⟨o, ho, rfl, -⟩
    simp only [HeapRun.step, Nat.add_sub_cancel] at hstep
    split at hstep
    · next s' hfree =>
      cases hstep
      obtain ⟨free', hinv⟩ := h.preFree ho hfree
      exact ⟨free', elmt, hinv⟩
    · cases hstep
  | write a v =>
    rcases hallowed with ⟨o, ho, hlo, hhi⟩
    cases hstep
    exact ⟨free, elmt, h.heap.written ho v hlo hhi, h.grid.written a v, h.zone_low, h.live_size⟩

/-- In every run in which objects have at least 5 bytes, and the slots of a class one width,
`pre_free` touches only the freed object. -/
theorem freesAlone_of_linkFits (ω : Nat → Nat) {mem : Mem} {es : List HeapEvent} {st : HeapRun}
    (hok : RunOk HeapRun.step (fun st e => st.LowAllowed e ∧ LinkFits ω e) (HeapRun.init mem) es)
    (hrun : run HeapRun.step (HeapRun.init mem) es = some st) : st.FreesAlone := by
  obtain ⟨free, elmt, hinv⟩ := run_invariant_of_ok (frameInv_step ω) es _ st
    ⟨_, _, frameInv_init ω mem⟩ hok hrun
  exact hinv.freesAlone

end KernelMemVirt.Gc
