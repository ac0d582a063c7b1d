import KernelMemVirt.Gc.Client

/-!
# The statistics of the allocator

`print_stats` prints differences of two counters, for the number and the size of the live objects,
and `size_mapped`, for the memory that is mapped.  The first two are right in every run of a client.
The third only grows: `pre_free` unmaps the zone of a large object and does not subtract its length.

* `MallocCounts` and `FreeCounts` are what a step does to the counters.
* `StatInv` is the invariant, in words, and `HeapRun.LiveCounted` what it says in numbers.
* `HeapRun.MapCounted` is lost by the first large object that is freed: `statistics_of_run`.
-/

namespace KernelMemVirt.Gc

open ByteMem Transition

/-! ## The property -/

/-- The total length of the zones that are mapped. -/
noncomputable def HeapRun.mappedBytes (st : HeapRun) : Nat := Arena.total st.zone

/-- What `print_stats` prints of the live objects. -/
structure HeapRun.LiveCounted (st : HeapRun) : Prop where
  number : (st.heap.nbAllocated - st.heap.nbFree).toNat = st.live.length
  bytes : (st.heap.sizeAllocated - st.heap.sizeFree).toNat = (st.live.map Obj.size).sum

/-- What it prints of the memory. -/
def HeapRun.MapCounted (st : HeapRun) : Prop := st.heap.sizeMapped.toNat = st.mappedBytes

/-- The step does not free a large object. -/
def ClientRun.KeepsZones (r : ClientRun) : HeapEvent → Prop
  | .free p => ∀ o ∈ r.run.live, p = toObject o.header → o.size < 8192
  | _ => True

/-! ## The counters -/

/-- The counters after `pre_malloc`. -/
structure MallocCounts (s : Heap) (size : Int32) (s' : Heap) : Prop where
  nbAllocated : s'.nbAllocated = s.nbAllocated + 1
  nbFree : s'.nbFree = s.nbFree
  sizeAllocated : s'.sizeAllocated = s.sizeAllocated + size.setWidth 64
  sizeFree : s'.sizeFree = s.sizeFree
  sizeMapped : s'.sizeMapped =
    s.sizeMapped + BitVec.ofNat 64 ((source s size.toNat).mapLength size.toNat)

theorem preMalloc_counts {s s' : Heap} {size : Int32} {mapped : Option Nat} {h : Nat}
    (hsize : size.toNat + 4100 ≤ 2 ^ 31) (hok : s.preMalloc size mapped = .ok (s', h)) :
    MallocCounts s size s' := by
  have hint : size.toNat < 2 ^ 31 := by omega
  have htot := totalSize_toNat hint
  unfold Heap.preMalloc Heap.allocateInternal Heap.takeSlot at hok
  by_cases hsmall : size.toNat < 8192
  · rw [getObjectAllocator_small hsmall] at hok
    have hzone := classZone_toNat hsmall
    have hlength : (align (totalSize size * 32) 4096).signExtend 64
        = BitVec.ofNat 64 (pageRound (32 * slotWidth size.toNat)) :=
      signExtend_of_toNat hzone (pageRound_class_lt hsmall)
    dsimp only at hok
    by_cases hfirst : (s.allocator (size.toNat / 4)).first = 0
    · rw [if_neg (not_not.mpr hfirst), Heap.bump, htot] at hok
      split at hok
      · next hfull =>
        unfold Heap.newZone at hok
        cases mapped with
        | none => cases hok
        | some z =>
          cases hok
          have hsource : source s size.toNat = .newZone := by
            simp [source, hsmall, classOf, hfirst, hfull]
          refine ⟨rfl, rfl, rfl, rfl, ?_⟩
          rw [hsource]
          exact congrArg (s.sizeMapped + ·) hlength
      · next hroom =>
        cases hok
        have hsource : source s size.toNat = .cut := by
          simp [source, hsmall, classOf, hfirst, hroom]
        refine ⟨rfl, rfl, rfl, rfl, ?_⟩
        rw [hsource]
        exact (BitVec.add_zero _).symm
    · rw [if_pos hfirst] at hok
      cases hok
      have hsource : source s size.toNat = .reuse := by
        simp [source, hsmall, classOf, hfirst]
      refine ⟨rfl, rfl, rfl, rfl, ?_⟩
      rw [hsource]
      exact (BitVec.add_zero _).symm
  · rw [getObjectAllocator_large (by omega) hint] at hok
    have hzone := largeZone_toNat hint
    have hlength : (align (totalSize size) 4096).signExtend 64
        = BitVec.ofNat 64 (pageRound (slotWidth size.toNat)) :=
      signExtend_of_toNat hzone (pageRound_slotWidth_lt hsize)
    unfold Heap.newZone at hok
    cases mapped with
    | none => cases hok
    | some z =>
      cases hok
      have hsource : source s size.toNat = .ownZone := by simp [source, hsmall]
      refine ⟨rfl, rfl, rfl, rfl, ?_⟩
      rw [hsource]
      exact congrArg (s.sizeMapped + ·) hlength

/-- The counters after `pre_free` of an object of `size` bytes.  Whether its pages are unmapped
makes no difference. -/
structure FreeCounts (s : Heap) (size : Int32) (s' : Heap) : Prop where
  nbAllocated : s'.nbAllocated = s.nbAllocated
  nbFree : s'.nbFree = s.nbFree + 1
  sizeAllocated : s'.sizeAllocated = s.sizeAllocated
  sizeFree : s'.sizeFree = s.sizeFree + size.signExtend 64
  sizeMapped : s'.sizeMapped = s.sizeMapped

theorem preFree_counts {s s' : Heap} {p h : Nat} (hheader : s.toHeader p = .ok h)
    (hok : s.preFree p = .ok s') : FreeCounts s (read32 s.mem h) s' := by
  unfold Heap.preFree at hok
  rw [hheader] at hok
  by_cases h0 : h = 0
  · simp [h0, bind, Except.bind] at hok
  · simp only [bind, Except.bind, pure, Except.pure, ne_eq, h0, not_false_eq_true, if_true,
      Heap.giveBack] at hok
    split at hok
    · cases hok
    · next heap hgive =>
      cases hok
      split at hgive
      · cases hgive
        exact ⟨rfl, rfl, rfl, rfl, rfl⟩
      · cases hgive
      · cases hgive
        exact ⟨rfl, rfl, rfl, rfl, rfl⟩

/-! ## The invariant -/

theorem Obj.perm_cons_filter {live : List Obj}
    (hdistinct : live.Pairwise fun o o' => o.header ≠ o'.header) {o : Obj} (ho : o ∈ live) :
    live.Perm (o :: live.filter fun o' => o'.header != o.header) := by
  induction live with
  | nil => cases ho
  | cons x live ih =>
    obtain ⟨hx, hrest⟩ := List.pairwise_cons.mp hdistinct
    rcases List.mem_cons.mp ho with rfl | ho
    · have hkeep : live.filter (fun o' => o'.header != o.header) = live :=
        List.filter_eq_self.mpr fun o' ho' => bne_iff_ne.mpr (hx o' ho').symm
      simp [hkeep]
    · have hne : (x.header != o.header) = true := bne_iff_ne.mpr (hx o ho)
      rw [List.filter_cons_of_pos (p := fun o' : Obj => o'.header != o.header) hne]
      exact ((ih hrest ho).cons x).trans (List.Perm.swap o x _)

/-- The counters of the live objects, modulo `2 ^ 64`. -/
structure StatInv (st : HeapRun) : Prop where
  number : st.heap.nbAllocated - st.heap.nbFree = BitVec.ofNat 64 st.live.length
  bytes : st.heap.sizeAllocated - st.heap.sizeFree = BitVec.ofNat 64 (st.live.map Obj.size).sum

theorem statInv_init (mem : Mem) : StatInv (HeapRun.init mem) where
  number := by simp [HeapRun.init, Heap.init]
  bytes := by simp [HeapRun.init, Heap.init]

namespace StatInv

variable {st : HeapRun} {s' : Heap}

theorem allocated (hstat : StatInv st) {size : Int32} (h : Nat)
    (hcounts : MallocCounts st.heap size s') : StatInv (st.allocated s' size.toNat h) where
  number := by
    have hnumber := hstat.number
    simp only [HeapRun.allocated, List.length_cons, hcounts.nbAllocated, hcounts.nbFree]
    rw [BitVec.ofNat_add, ← hnumber]
    bv_omega
  bytes := by
    have hbytes := hstat.bytes
    simp only [HeapRun.allocated, List.map_cons, List.sum_cons, hcounts.sizeAllocated,
      hcounts.sizeFree]
    rw [BitVec.ofNat_add, ← hbytes, BitVec.ofNat_toNat]
    bv_omega

theorem released (hstat : StatInv st) {free : Nat → List Nat} (hinv : HeapInv st free) {o : Obj}
    (ho : o ∈ st.live) (hcounts : FreeCounts st.heap (read32 st.heap.mem o.header) s') :
    StatInv (st.released s' o.header) := by
  have hperm := Obj.perm_cons_filter hinv.live_distinct ho
  have hsize : (read32 st.heap.mem o.header).signExtend 64 = BitVec.ofNat 64 o.size := by
    have hmax := hinv.live_size o ho
    exact signExtend_of_toNat (hinv.live_header o ho) (by omega)
  constructor
  · have hnumber := hstat.number
    rw [hperm.length_eq, List.length_cons, BitVec.ofNat_add] at hnumber
    simp only [HeapRun.released, hcounts.nbAllocated, hcounts.nbFree]
    bv_omega
  · have hbytes := hstat.bytes
    rw [(hperm.map Obj.size).sum_eq, List.map_cons, List.sum_cons, BitVec.ofNat_add] at hbytes
    simp only [HeapRun.released, hcounts.sizeAllocated, hcounts.sizeFree, hsize]
    bv_omega

/-- The live objects have no more bytes than the first 4 GiB, so the words are the numbers. -/
theorem liveCounted {free : Nat → List Nat} (hstat : StatInv st) (hinv : HeapInv st free)
    (hlow : ∀ b, 0 < st.zone b → b + st.zone b ≤ 2 ^ 32) : st.LiveCounted := by
  have hslot : ∀ a, 0 < st.slot a → a + st.slot a ≤ 2 ^ 32 := by
    intro a ha
    obtain ⟨b, hlo, hhi⟩ := hinv.layout.slot_in a ha
    have hhi' : a + st.slot a ≤ b + st.zone b := hhi
    have hend := hlow b (by omega)
    omega
  have hstart : ∀ a, 0 < st.slot a → a < 2 ^ 32 := by
    intro a ha
    have := hslot a ha
    omega
  have htotal : Arena.total st.slot ≤ 2 ^ 32 :=
    Arena.total_le (fun a a' => hinv.layout.slot_sep a a') hslot
  have hnodup : (st.live.map Obj.header).Nodup :=
    List.pairwise_map.mpr hinv.live_distinct
  have hslots : ((st.live.map Obj.header).map st.slot).sum ≤ Arena.total st.slot := by
    refine Arena.sum_map_le_total hstart hnodup fun b hb => ?_
    obtain ⟨o, ho, rfl⟩ := List.mem_map.mp hb
    have hfit := hinv.live_fits o ho
    exact hstart o.header (by omega)
  rw [List.map_map] at hslots
  have hbytes : (st.live.map Obj.size).sum ≤ (st.live.map (st.slot ∘ Obj.header)).sum :=
    List.sum_le_sum fun o ho => by
      have hfit := hinv.live_fits o ho
      exact (show o.size ≤ st.slot o.header by omega)
  have hnumber : st.live.length ≤ (st.live.map (st.slot ∘ Obj.header)).sum := by
    have hone := List.sum_le_sum (l := st.live) (f := fun _ => 1) (g := st.slot ∘ Obj.header)
      fun o ho => by
        have hfit := hinv.live_fits o ho
        exact (show 1 ≤ st.slot o.header by omega)
    simpa using hone
  constructor
  · rw [hstat.number, BitVec.toNat_ofNat, Nat.mod_eq_of_lt (by omega)]
  · rw [hstat.bytes, BitVec.toNat_ofNat, Nat.mod_eq_of_lt (by omega)]

end StatInv

/-! ## The mapped memory -/

theorem ClientInv.mappedBytes_le {r : ClientRun} {free : Nat → List Nat} {elmt : Nat → Nat}
    (hinv : ClientInv r free elmt) : r.run.mappedBytes ≤ 2 ^ 32 :=
  Arena.total_le (fun b b' => hinv.heap.layout.zone_sep b b') hinv.zone_low

theorem HeapRun.zone_start {st : HeapRun} (hlow : ∀ b, 0 < st.zone b → b + st.zone b ≤ 2 ^ 32) :
    ∀ b, 0 < st.zone b → b < 2 ^ 32 := by
  intro b hb
  have := hlow b hb
  omega

/-- `pre_malloc` adds the length of the zone it maps. -/
theorem Malloc.mappedBytes {st : HeapRun} {s' : Heap} {size : Int32} {mapped : Option Nat}
    {h : Nat} (hmalloc : Malloc st.heap size mapped s' h)
    (hlow : ∀ b, 0 < st.zone b → b + st.zone b ≤ 2 ^ 32) (hmaps : st.MapsFresh size.toNat mapped)
    (hend : let len := (source st.heap size.toNat).mapLength size.toNat
      ∀ z, mapped = some z → 0 < len → z + len ≤ 2 ^ 32) :
    (st.allocated s' size.toNat h).mappedBytes =
      st.mappedBytes + (source st.heap size.toNat).mapLength size.toNat := by
  have hopen : ∀ len, 0 < len → (source st.heap size.toNat).mapLength size.toNat = len →
      mapped = some h → Arena.total (Function.update st.zone h len) = st.mappedBytes + len := by
    intro len hpos hlen hmapped
    obtain ⟨-, -, hfresh⟩ := hmaps h hmapped (by omega)
    have hbound := hend h hmapped (by omega)
    have hupdate := Arena.total_update (HeapRun.zone_start hlow) (show h < 2 ^ 32 by omega) len
    have hzero : st.zone h = 0 := hfresh.zone_eq_zero
    rwa [hzero] at hupdate
  have hroom := header_add_le_slotWidth size.toNat
  rcases hmalloc with ⟨hsource, -, -, -, -, -, -⟩ | ⟨hsource, -, -, -, -, -, -, -⟩ |
    ⟨hsource, -, hmapped, -, -, -, -⟩ | ⟨hsource, -, hmapped, -, -, -⟩ <;>
    simp only [HeapRun.mappedBytes, HeapRun.allocated, hsource, Source.mapLength, Nat.add_zero]
  · have hround := le_pageRound (32 * slotWidth size.toNat)
    exact hopen _ (by omega) (by rw [hsource]; rfl) hmapped
  · have hround := le_pageRound (slotWidth size.toNat)
    exact hopen _ (by omega) (by rw [hsource]; rfl) hmapped

/-- The mapped bytes after `pre_free`. -/
theorem HeapInv.mappedBytes_released {st : HeapRun} {free : Nat → List Nat} (hinv : HeapInv st free)
    (hlow : ∀ b, 0 < st.zone b → b + st.zone b ≤ 2 ^ 32) (s' : Heap) {o : Obj}
    (ho : o ∈ st.live) :
    (st.released s' o.header).mappedBytes + (if 8192 ≤ o.size then st.zone o.header else 0) =
      st.mappedBytes := by
  unfold HeapRun.mappedBytes
  by_cases hlarge : 8192 ≤ o.size
  · obtain ⟨-, hwhole⟩ := hinv.live_large o ho hlarge
    have hfit := hinv.live_fits o ho
    have hstart := HeapRun.zone_start hlow o.header (by omega)
    rw [(hinv.released_of_large s' ho hlarge).2, if_pos hlarge]
    exact Arena.total_update (HeapRun.zone_start hlow) hstart 0
  · rw [(hinv.released_of_small s' ho (by omega)).2, if_neg hlarge]
    rfl

/-! ## The run -/

/-- The invariant of a client with that of the counters. -/
def CountInv (r : ClientRun) : Prop := (∃ free elmt, ClientInv r free elmt) ∧ StatInv r.run

theorem countInv_step (r : ClientRun) (e : HeapEvent) (r' : ClientRun) (hinv : CountInv r)
    (hallowed : r.Allowed e) (hstep : r.step e = some r') : CountInv r' := by
  obtain ⟨⟨free, elmt, hclient⟩, hstat⟩ := hinv
  refine ⟨clientInv_step r e r' ⟨free, elmt, hclient⟩ hallowed hstep, ?_⟩
  cases e with
  | malloc size mapped =>
    simp only [ClientRun.step] at hstep
    split at hstep
    · next s' h hok =>
      cases hstep
      rcases hallowed with ⟨-, -, hsize, -, -⟩
      exact hstat.allocated h (preMalloc_counts (by omega) hok)
    · cases hstep
  | free p =>
    rcases hallowed with ⟨o, ho, rfl, hsize⟩
    simp only [ClientRun.step, Nat.add_sub_cancel] at hstep
    split at hstep
    · next s' hok =>
      cases hstep
      have hheader := hclient.toHeader_live ho (Nat.le_refl _) (by omega)
      exact hstat.released hclient.heap ho (preFree_counts hheader hok)
    · cases hstep
  | write a v =>
    cases hstep
    exact ⟨hstat.number, hstat.bytes⟩

/-- A step keeps `size_mapped` right exactly if it does not free a large object. -/
theorem mapCounted_step (r : ClientRun) (e : HeapEvent) (r' : ClientRun) (hinv : CountInv r)
    (hmap : r.run.MapCounted) (hallowed : r.Allowed e) (hstep : r.step e = some r') :
    r'.run.MapCounted ↔ r.KeepsZones e := by
  obtain ⟨free', elmt', hafter⟩ := (countInv_step r e r' hinv hallowed hstep).1
  obtain ⟨⟨free, elmt, hclient⟩, -⟩ := hinv
  have hbound := hclient.mappedBytes_le
  have hbound' := hafter.mappedBytes_le
  unfold HeapRun.MapCounted at hmap ⊢
  cases e with
  | malloc size mapped =>
    simp only [ClientRun.step] at hstep
    split at hstep
    · next s' h hok =>
      cases hstep
      rcases hallowed with ⟨-, -, hsize, hmaps, hlow⟩
      have hbytes := (preMalloc_cases (by omega) hok).mappedBytes hclient.zone_low hmaps hlow
      have hcount := (preMalloc_counts (by omega) hok).sizeMapped
      refine iff_of_true ?_ trivial
      rw [hbytes] at hbound' ⊢
      show s'.sizeMapped.toNat = _
      rw [hcount, BitVec.toNat_add, BitVec.toNat_ofNat, hmap]
      omega
    · cases hstep
  | free p =>
    rcases hallowed with ⟨o, ho, rfl, hsize⟩
    simp only [ClientRun.step, Nat.add_sub_cancel] at hstep
    split at hstep
    · next s' hok =>
      cases hstep
      have hheader := hclient.toHeader_live ho (Nat.le_refl _) (by omega)
      have hcount := (preFree_counts hheader hok).sizeMapped
      have hbytes := hclient.heap.mappedBytes_released hclient.zone_low s' ho
      have hkeeps : r.KeepsZones (.free (o.header + 4)) ↔ o.size < 8192 := by
        refine ⟨fun h => h o ho rfl, fun hsmall o' ho' heq => ?_⟩
        obtain rfl := hclient.heap.live_unique ho ho' (Nat.add_right_cancel heq)
        exact hsmall
      rw [hkeeps]
      show s'.sizeMapped.toNat = (r.run.released s' o.header).mappedBytes ↔ _
      rw [hcount, hmap]
      by_cases hlarge : 8192 ≤ o.size
      · obtain ⟨-, hwhole⟩ := hclient.heap.live_large o ho hlarge
        have hfit := hclient.heap.live_fits o ho
        rw [if_pos hlarge] at hbytes
        exact iff_of_false (by omega) (by omega)
      · rw [if_neg hlarge] at hbytes
        exact iff_of_true (by omega) (by omega)
    · cases hstep
  | write a v =>
    cases hstep
    exact iff_of_true hmap trivial

theorem countInv_init (mem : Mem) : CountInv (ClientRun.init mem) :=
  ⟨⟨_, _, clientInv_init mem⟩, statInv_init mem⟩

theorem mapCounted_init (mem : Mem) : (ClientRun.init mem).run.MapCounted := by
  unfold HeapRun.MapCounted HeapRun.mappedBytes
  rw [show (ClientRun.init mem).run.zone = fun _ => 0 from rfl, Arena.total_zero]
  rfl

theorem CountInv.liveCounted {r : ClientRun} (h : CountInv r) : r.run.LiveCounted := by
  obtain ⟨⟨free, elmt, hclient⟩, hstat⟩ := h
  exact hstat.liveCounted hclient.heap hclient.zone_low

/-- The counters of the live objects are right after every step of a client, and `size_mapped` is
right after every step exactly if no large object is freed. -/
theorem statistics_of_run {mem : Mem} {es : List HeapEvent} {r : ClientRun}
    (hok : RunOk ClientRun.step ClientRun.Allowed (ClientRun.init mem) es)
    (hrun : run ClientRun.step (ClientRun.init mem) es = some r) :
    (∀ u ∈ states ClientRun.step (ClientRun.init mem) es, u.run.LiveCounted) ∧
      ((∀ u ∈ states ClientRun.step (ClientRun.init mem) es, u.run.MapCounted) ↔
        RunOk ClientRun.step ClientRun.KeepsZones (ClientRun.init mem) es) := by
  constructor
  · intro u hu
    exact (states_invariant_of_ok countInv_step es _ (countInv_init mem) hok u hu).liveCounted
  · exact states_iff_of_ok countInv_step mapCounted_step es _ r (countInv_init mem)
      (mapCounted_init mem) hok hrun

/-- An object of a size class is allocated and freed. -/
theorem statistics_freeSmall :
    (∀ u ∈ states ClientRun.step (ClientRun.init fun _ => 0)
        [.malloc 16 (some 0x10000000), .free 0x10000004], u.run.LiveCounted) ∧
      ∀ u ∈ states ClientRun.step (ClientRun.init fun _ => 0)
        [.malloc 16 (some 0x10000000), .free 0x10000004], u.run.MapCounted := by
  have hok : RunOk ClientRun.step ClientRun.Allowed (ClientRun.init fun _ => 0)
      [.malloc 16 (some 0x10000000), .free 0x10000004] := by
    refine (runOk_cons_of_some rfl).mpr
      ⟨allowed_first (by decide) (by decide) (by decide) (by decide) (by decide), ?_⟩
    exact (runOk_cons_of_some rfl).mpr ⟨⟨⟨0x10000000, 16⟩, by decide, rfl, by decide⟩, trivial⟩
  have hkeeps : RunOk ClientRun.step ClientRun.KeepsZones (ClientRun.init fun _ => 0)
      [.malloc 16 (some 0x10000000), .free 0x10000004] := by
    refine (runOk_cons_of_some rfl).mpr ⟨trivial, (runOk_cons_of_some rfl).mpr ⟨?_, trivial⟩⟩
    intro o ho _
    cases List.mem_singleton.mp ho
    decide
  obtain ⟨hlive, hmap⟩ := statistics_of_run hok rfl
  exact ⟨hlive, hmap.mpr hkeeps⟩

/-- A large object is allocated and freed: no zone is mapped any more, but `size_mapped` still
counts three pages. -/
theorem statistics_not_of_freeLarge :
    ¬ ∀ (mem : Mem) (es : List HeapEvent) (r : ClientRun),
      RunOk ClientRun.step ClientRun.Allowed (ClientRun.init mem) es →
      run ClientRun.step (ClientRun.init mem) es = some r →
        r.run.LiveCounted ∧ r.run.MapCounted := by
  intro h
  have hok : RunOk ClientRun.step ClientRun.Allowed (ClientRun.init fun _ => 0)
      [.malloc 8192 (some 0x20000000), .free 0x20000004] := by
    refine (runOk_cons_of_some rfl).mpr
      ⟨allowed_first (by decide) (by decide) (by decide) (by decide) (by decide), ?_⟩
    exact (runOk_cons_of_some rfl).mpr
      ⟨⟨⟨0x20000000, 8192⟩, by decide, rfl, by decide⟩, trivial⟩
  have hmap := (h _ _ _ hok rfl).2
  have hzone : Function.update (Function.update (fun _ : Nat => 0) 0x20000000 12288) 0x20000000 0
      = fun _ => 0 := by
    rw [Function.update_idem, Function.update_eq_self_iff]
  have hmapped : Arena.total (Function.update
      (Function.update (fun _ : Nat => 0) 0x20000000 12288) 0x20000000 0) = 0 := by
    rw [hzone, Arena.total_zero]
  exact absurd (hmap.trans hmapped) (by decide)

end KernelMemVirt.Gc
