import KernelMemVirt.Gc.Uniform

/-!
# Interior pointers on 64-bit addresses

`toHeader` clears the upper half of the zone address before it divides the
distance to the pointer by the element size, and the page numbers have 20 bits.
For the heaps made by mallocs of one size, `resolve_iff_of_run` gives the
pointers that are resolved: the element size must divide what was cleared, and
no 4 GiB boundary may lie between the start of the zone and the pointer.
-/

namespace KernelMemVirt.Gc

open ByteMem Transition

/-- A malloc of `s` bytes, with the zone in the 47-bit user address space and on
pages whose low 32 address bits no mapped page has. -/
def HeapRun.UserMalloc (st : HeapRun) (s : Int32) : HeapEvent → Prop
  | .malloc size mapped =>
    size = s ∧ st.MapsFresh s.toNat mapped ∧
      let len := (source st.heap s.toNat).mapLength s.toNat
      ∀ z, mapped = some z → 0 < len → z + len ≤ 2 ^ 47 ∧ LowFresh st.zone z len
  | _ => False

/-- The heap is an array of slots for objects of `s` bytes. -/
def UserInv (s : Int32) (st : HeapRun) : Prop :=
  ∃ free elmt, HeapInv st free ∧ Grid st (fun _ => s.toNat) elmt free ∧
    ∀ o ∈ st.live, o.size = s.toNat

theorem userInv_init (s : Int32) (mem : Mem) : UserInv s (HeapRun.init mem) :=
  ⟨_, _, heapInv_init mem, grid_init mem _, by simp [HeapRun.init]⟩

theorem userInv_step {s : Int32} (hs : s.toNat < 2 ^ 30) (st : HeapRun) (e : HeapEvent)
    (st' : HeapRun) (hinv : UserInv s st) (hok : st.UserMalloc s e)
    (hstep : st.step e = some st') : UserInv s st' := by
  rcases hinv with ⟨free, elmt, hheap, hgrid, hlive⟩
  cases e with
  | malloc size mapped =>
    rcases hok with ⟨rfl, hmaps, hlow⟩
    simp only [HeapRun.step] at hstep
    split at hstep
    · next s' h hmalloc =>
      cases hstep
      have huniform : st.Uniform (fun _ => size.toNat) size.toNat mapped :=
        ⟨fun _ => rfl, fun z hz hlen => ⟨by have := (hlow z hz hlen).1; omega, (hlow z hz hlen).2⟩⟩
      obtain ⟨free', hheap', hgrid', -, -⟩ :=
        hgrid.malloc hheap (by omega) hmaps huniform (preMalloc_cases (by omega) hmalloc)
      refine ⟨free', _, hheap', hgrid', fun o ho => ?_⟩
      rcases List.mem_cons.mp ho with rfl | hold
      · rfl
      · exact hlive o hold
    · cases hstep
  | free p => exact hok.elim
  | write a v => exact hok.elim

/-- After any number of mallocs of `s` bytes, a pointer into a live object is
resolved to the object if and only if the width of a slot divides the upper half
of the zone address, and the page of the pointer is below the next 4 GiB
boundary. -/
theorem resolve_iff_of_run {mem : Mem} {s : Int32} {es : List HeapEvent} {st : HeapRun}
    (hs : s.toNat < 2 ^ 30)
    (hok : RunOk HeapRun.step (fun st e => st.UserMalloc s e) (HeapRun.init mem) es)
    (hrun : run HeapRun.step (HeapRun.init mem) es = some st) {o : Obj} (ho : o ∈ st.live)
    {p : Nat} (hlo : toObject o.header ≤ p) (hhi : p < toObject o.header + s.toNat) :
    ∃ z, z ≤ o.header ∧ o.header + (4 + s.toNat) ≤ z + st.zone z ∧
      (st.heap.toHeader p = .ok o.header ↔
        slotWidth s.toNat ∣ z - z % 2 ^ 32 ∧ z % 2 ^ 32 / 4096 + (p - z) / 4096 < 2 ^ 20) := by
  obtain ⟨free, elmt, hheap, hgrid, hlive⟩ :=
    run_invariant_of_ok (userInv_step hs) es _ st (userInv_init s mem) hok hrun
  unfold toObject HEADER_SIZE at hlo hhi
  have hsize := hlive o ho
  have hroom := header_add_le_slotWidth s.toNat
  obtain ⟨b, i, hb, hin, he⟩ := hgrid.live o ho
  rw [hsize] at hb hin he
  refine ⟨b, by omega, by omega, ?_⟩
  have hiff := hgrid.desc.resolve_iff (he ▸ hb) (he ▸ hin) (he ▸ hroom)
    ((hheap.live_header o ho).trans hsize) hlo hhi
  rw [he] at hiff
  exact hiff

/-- One zone is mapped for the first object. -/
theorem userMalloc_init {s : Int32} {z : Nat} (hpage : z % 4096 = 0)
    (hend : z + (source (Heap.init fun _ => 0) s.toNat).mapLength s.toNat ≤ 2 ^ 47) :
    (HeapRun.init fun _ => 0).UserMalloc s (.malloc s (some z)) := by
  refine ⟨rfl, mapsFresh_init _ hpage (Nat.lt_of_le_of_lt hend (by decide)), ?_⟩
  intro len z' hz _
  cases hz
  exact ⟨hend, fun _ _ _ _ hk => absurd hk (Nat.not_lt_zero _)⟩

theorem resolve_iff_of_run_sixteen :
    ∃ st, run HeapRun.step (HeapRun.init fun _ => 0) [.malloc 16 (some 0x10000000)] = some st ∧
      ∃ z, z ≤ 0x10000000 ∧ 0x10000000 + (4 + 16) ≤ z + st.zone z ∧
        (st.heap.toHeader 0x10000008 = .ok 0x10000000 ↔
          slotWidth 16 ∣ z - z % 2 ^ 32 ∧
            z % 2 ^ 32 / 4096 + (0x10000008 - z) / 4096 < 2 ^ 20) := by
  have hok : RunOk HeapRun.step (fun st e => st.UserMalloc 16 e) (HeapRun.init fun _ => 0)
      [.malloc 16 (some 0x10000000)] :=
    (runOk_cons_of_some rfl).mpr ⟨userMalloc_init (by decide) (by decide), trivial⟩
  refine ⟨_, rfl, ?_⟩
  exact resolve_iff_of_run (show (16 : Int32).toNat < 2 ^ 30 by decide) hok rfl
    (show Obj.mk 0x10000000 16 ∈ _ from List.mem_cons_self) (by decide) (by decide)

/-- At 4 GiB, the slots of 24 bytes are looked for at the wrong multiple. -/
theorem resolve_not_of_high_zone :
    ¬ ∀ (mem : Mem) (s : Int32) (es : List HeapEvent) (st : HeapRun) (o : Obj) (p : Nat),
      1 ≤ s.toNat → s.toNat < 2 ^ 30 →
      RunOk HeapRun.step (fun st e => st.UserMalloc s e) (HeapRun.init mem) es →
      run HeapRun.step (HeapRun.init mem) es = some st → o ∈ st.live →
      toObject o.header ≤ p → p < toObject o.header + s.toNat →
      st.heap.toHeader p = .ok o.header := by
  intro h
  have hok : RunOk HeapRun.step (fun st e => st.UserMalloc 16 e) (HeapRun.init fun _ => 0)
      [.malloc 16 (some 0x100000000)] :=
    (runOk_cons_of_some rfl).mpr ⟨userMalloc_init (by decide) (by decide), trivial⟩
  have hresolved := h _ 16 _ _ ⟨0x100000000, 16⟩ 0x100000004 (by decide) (by decide) hok rfl
    List.mem_cons_self (by decide) (by decide)
  exact absurd hresolved (by decide)

end KernelMemVirt.Gc
