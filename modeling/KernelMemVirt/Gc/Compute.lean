import KernelMemVirt.Gc.MapProgram
import KernelMemVirt.Gc.Rehash

/-!
# `compute`

The thread of `main.c`: in each round it makes two maps, inserts the numbers from 0 on into one
of them with the other as its helper, and checks that it finds them all.

`InMemory` says that the memory holds the maps of a run of `hash` (`HashRun`, of the module
`Rehash`), whose nodes are the objects that `gcmalloc` returned.  `wp_insert` is one turn of the
first loop, and `wp_hasElmt_inMemory` one of the second.

The messages that `compute` prints, and `attach_thread` and `detach_thread`, are left out.
-/

namespace KernelMemVirt.Gc

open StateLogic

/-! ## The source -/

namespace Mutator

/-- The body of the first loop of `compute`: a new element with the value is given to `hash`. -/
def insert (os : LowMmap) (fuel hm helper : Nat) (value : Int32) : Mutator Unit := do
  let elmt ← gcmalloc os 16
  store32 (elmt + 8) value
  let _ ← hash os fuel 2 hm elmt helper

/-- The body of the second loop. -/
def check (fuel hm : Nat) (i : Int32) : Mutator Unit := do
  let found ← hasElmt fuel hm i
  if found = 0 then throw .corrupted else return ()

/-- A round of `compute`. -/
def round (os : LowMmap) (fuel nbElmt : Nat) : Mutator Unit := do
  let helper ← newHashmap os
  let hm ← newHashmap os
  forLoop (fun i => insert os fuel hm helper (BitVec.ofNat 32 i)) nbElmt 0
  forLoop (fun i => check fuel hm (BitVec.ofNat 32 i)) nbElmt 0

/-- `compute`.  The counter of the rounds is an `int`, so their number has to be an `int`. -/
def compute (os : LowMmap) (fuel : Nat) (arg : BitVec 64) : Mutator Unit := do
  let num := 1 + arg
  let nbRound := 64 * num
  if num = 0 then throw .fault
  else
    let nbElmt := 64 * 2048 / num
    forLoop (fun _ => round os fuel nbElmt.toNat) nbRound.toNat 0

end Mutator

/-! ## The maps in memory -/

/-- The memory holds the maps of a run of `hash`, at `L`. -/
structure RunInMemory (L : MapLayout) (r : HeapRun) (t : HashRun Nat)
    (ns : List Nat) : Prop where
  represents : Represents L r t.state
  hm : MapId.hm ∈ L.maps
  helper : MapId.helper ∈ L.maps
  nodes : ∀ n ∈ t.used, n ∈ L.nodes
  inv : t.Inv ns
  length : t.used.length = t.inserted.length

/-- The map at `hm`, with the helper at `helper`, holds the values. -/
def InMemory (hm helper : Nat) (values : List Int32) (r : HeapRun) : Prop :=
  ∃ L t ns, RunInMemory L r t ns ∧ L.map .hm = hm ∧ L.map .helper = helper ∧
    t.inserted = values

section InMemory

variable {os : LowMmap} {r : HeapRun} {hm helper fuel : Nat} {values : List Int32} {v : Int32}

theorem InMemory.mutatorInv (h : InMemory hm helper values r) : MutatorInv r := by
  obtain ⟨L, t, ns, hrun, -⟩ := h
  exact hrun.represents.inv

/-- Memory without maps. -/
theorem represents_empty (h : MutatorInv r) {s : MapState Nat} (hs : s.heap.arrays = 0) :
    Represents ⟨[], fun _ => 0, fun _ => 0, []⟩ r s := by
  have hnone : ∀ o, ¬ MapLayout.Present ⟨[], fun _ => 0, fun _ => 0, []⟩ s o := by
    intro o ho
    cases o with
    | map m => exact List.not_mem_nil ho
    | array a =>
      have hlt : a < s.heap.arrays := ho
      omega
    | node n => exact List.not_mem_nil ho
  refine ⟨h, fun o ho => absurd ho (hnone o), fun o _ ho => absurd ho (hnone o),
    fun c hc => absurd hc.1 (hnone _), ⟨fun m hm => ?_, fun a ha => ?_, fun n hn => ?_⟩⟩
  · exact absurd hm List.not_mem_nil
  · omega
  · exact absurd hn List.not_mem_nil

/-- `new_hashmap` twice. -/
theorem wp_newMaps (h : MutatorInv r) :
    wp NoMemory (Mutator.newHashmap os) (fun helper => wp NoMemory (Mutator.newHashmap os)
      fun hm => InMemory hm helper []) r := by
  let start : MapState Nat := ⟨⟨0, fun _ => [], fun _ => none, fun _ => 0⟩, fun _ => ⟨0, 0, 0⟩⟩
  have h₀ : Represents _ r start := represents_empty h rfl
  refine h₀.wp_newHashmap (m := .helper) List.not_mem_nil fun r₁ helper array₁ h₁ => ?_
  refine h₁.wp_newHashmap (m := .hm) (show MapId.hm ∉ [MapId.helper] by decide)
    fun r₂ hm array₂ h₂ => ?_
  refine ⟨_, HashRun.init start, [], ⟨h₂, by simp, by simp, fun n hn => ?_,
    HashRun.inv_init start, rfl⟩, ?_, ?_, rfl⟩
  · exact absurd hn List.not_mem_nil
  · simp
  · simp

/-- The test of `hash` for a rehash is made on small numbers. -/
theorem HashRun.Inv.small {t : HashRun Nat} {ns : List Nat} (h : t.Inv ns)
    (hused : t.used.length < 2 ^ 26)
    (htest : ((t.state.map .hm).mod <<< 1).slt ((t.state.map .hm).nbElment + 1)) :
    0 < (t.state.map .hm).mod.toNat ∧ 16 * (t.state.map .hm).mod.toNat < 2 ^ 30 := by
  have hpos : 0 < (t.state.map .hm).mod.toNat := h.holds.mod_pos
  have hmod : (t.state.map .hm).mod.toNat < 2 ^ 29 := h.holds.mod_lt
  have hcount : (t.state.map .hm).nbElment.toNat = ns.length := h.count
  have hlen := h.length_used
  have hshift : ((t.state.map .hm).mod <<< 1).toNat = 2 * (t.state.map .hm).mod.toNat := by
    rw [BitVec.toNat_shiftLeft, Nat.shiftLeft_eq]
    omega
  have hsucc : ((t.state.map .hm).nbElment + 1).toNat = ns.length + 1 := by
    rw [BitVec.toNat_add, hcount, show (1 : Int32).toNat = 1 from rfl]
    omega
  rw [slt_iff_of_lt (by omega) (by omega), hshift, hsucc] at htest
  exact ⟨hpos, by omega⟩

/-- A value is inserted. -/
theorem wp_insert (h : InMemory hm helper values r) (hv : v.toNat < 2 ^ 31)
    (hlength : values.length < 2 ^ 26) (hfuel : values.length + 1 < fuel) :
    wp NoMemory (Mutator.insert os fuel hm helper v)
      (fun _ => InMemory hm helper (v :: values)) r := by
  obtain ⟨L, t, ns, hrun, rfl, rfl, rfl⟩ := h
  have hused := hrun.length
  simp only [Mutator.insert, wp_bind, wp_pure]
  refine wp_mono (@Mutator.wp_gcmalloc _ os hrun.represents.inv 16 (by decide) (by decide)
    (by decide)) fun p r₁ hres => ?_
  obtain ⟨hinv₁, hnew⟩ := hres
  have hp : p ∉ t.used := fun hin =>
    hrun.represents.base_ne hnew (o := .node p) (hrun.nodes p hin) rfl
  have h₁ := hrun.represents.new_node hinv₁ hnew
  refine h₁.wp_set_value List.mem_cons_self fun r₂ h₂ => ?_
  have hstate : Represents { L with nodes := p :: L.nodes } r₂ (t.newNode ⟨p, v⟩) := by
    simpa [HashRun.newNode, Function.update_idem] using h₂
  have hallowed : t.Allowed ⟨p, v⟩ := by
    have hmod := hrun.inv.holds.mod_lt
    have hcount := hrun.inv.count
    have hlen := hrun.inv.length_used
    exact ⟨hp, hv, .inr (by omega)⟩
  obtain ⟨state, ns', hcall, hinv'⟩ :=
    @HashRun.Inv.step _ _ t ns fuel ⟨p, v⟩ hrun.inv hallowed (by omega)
  refine wp_mono (hstate.wp_hash hrun.hm hrun.helper List.mem_cons_self
    (fun htest => hrun.inv.small (by omega) htest) hcall) fun _ r₃ h₃ => ?_
  obtain ⟨L', hsame, hrep⟩ := h₃
  refine ⟨L', _, ns', ⟨hrep, hsame.maps ▸ hrun.hm, hsame.maps ▸ hrun.helper, fun n hn => ?_,
    hinv', by simp [hused]⟩, by rw [hsame.map], by rw [hsame.map], rfl⟩
  rw [hsame.nodes]
  rcases List.mem_cons.mp hn with rfl | hold
  · exact List.mem_cons_self
  · exact List.mem_cons_of_mem _ (hrun.nodes n hold)

/-- `has_elmt` finds the values that were inserted. -/
theorem wp_hasElmt_inMemory (h : InMemory hm helper values r) (hv : v.toNat < 2 ^ 31)
    (hfuel : values.length + 1 < fuel) {Q : Int32 → HeapRun → Prop} :
    wp NoMemory (Mutator.hasElmt fuel hm v) Q r ↔ Q (if v ∈ values then 1 else 0) r := by
  obtain ⟨L, t, ns, hrun, rfl, rfl, rfl⟩ := h
  have hfound := (hrun.inv.sound (show t.used.length + 1 < fuel by rw [hrun.length]; exact hfuel)
    ).hasElmt v hv
  rw [hrun.represents.wp_hasElmt hrun.hm hfound]
  simp

/-- The numbers below `n`, the last one first. -/
def numbers (n : Nat) : List Int32 := ((List.range n).map (BitVec.ofNat 32)).reverse

theorem numbers_succ (n : Nat) : numbers (n + 1) = BitVec.ofNat 32 n :: numbers n := by
  simp [numbers, List.range_succ]

@[simp] theorem length_numbers (n : Nat) : (numbers n).length = n := by
  simp [numbers]

theorem mem_numbers {n i : Nat} (hi : i < n) : BitVec.ofNat 32 i ∈ numbers n := by
  simp only [numbers, List.mem_reverse, List.mem_map, List.mem_range]
  exact ⟨i, hi, rfl⟩

/-- A round inserts its numbers and finds them. -/
theorem wp_round (h : MutatorInv r) {nbElmt : Nat} (hmax : nbElmt ≤ 2 ^ 26)
    (hfuel : nbElmt + 1 < fuel) :
    wp NoMemory (Mutator.round os fuel nbElmt) (fun _ => MutatorInv) r := by
  simp only [Mutator.round, wp_bind]
  refine wp_mono (wp_newMaps h) fun helper r₁ h₁ => wp_mono h₁ fun hm r₂ h₂ => ?_
  have hvalue : ∀ i < nbElmt, (BitVec.ofNat 32 i).toNat < 2 ^ 31 := by
    intro i hi
    rw [BitVec.toNat_ofNat]
    omega
  refine wp_mono (wp_forLoop (fun i => InMemory hm helper (numbers i)) h₂ fun i r' _ hi h' =>
    ?_) fun _ r₃ h₃ => ?_
  · have hlength := length_numbers i
    rw [numbers_succ]
    exact wp_insert h' (hvalue i (by omega)) (by omega) (by omega)
  rw [Nat.zero_add] at h₃
  refine wp_mono (wp_forLoop (fun _ => InMemory hm helper (numbers nbElmt)) h₃
    fun i r' _ hi h' => ?_) fun _ r₄ h₄ => h₄.mutatorInv
  have hlength := length_numbers nbElmt
  rw [Mutator.check, wp_bind, wp_hasElmt_inMemory h' (hvalue i (by omega)) (by omega),
    if_pos (mem_numbers (by omega)), if_neg (by decide), wp_pure]
  exact h'

/-- A program that inserts any values, as `compute` inserts its numbers. -/
def Mutator.insertAll (os : LowMmap) (fuel : Nat) (values : List Int32) : Mutator Nat := do
  let helper ← Mutator.newHashmap os
  let hm ← Mutator.newHashmap os
  values.forM (Mutator.insert os fuel hm helper)
  return hm

theorem wp_insertAll (h : InMemory hm helper values r) {more : List Int32}
    (hmore : ∀ v ∈ more, v.toNat < 2 ^ 31) (hlength : values.length + more.length ≤ 2 ^ 26)
    (hfuel : values.length + more.length + 1 < fuel) :
    wp NoMemory (more.forM (Mutator.insert os fuel hm helper))
      (fun _ => InMemory hm helper (more.reverse ++ values)) r := by
  induction more generalizing values r with
  | nil => exact wp_pure.mpr h
  | cons v more ih =>
    rw [List.length_cons] at hlength hfuel
    show wp NoMemory (Mutator.insert os fuel hm helper v >>= fun _ =>
      more.forM (Mutator.insert os fuel hm helper)) _ r
    rw [wp_bind]
    refine wp_mono (wp_insert h (hmore v List.mem_cons_self) (by omega) (by omega))
      fun _ r₁ h₁ => ?_
    have hrest := ih h₁ (fun w hw => hmore w (List.mem_cons_of_mem _ hw))
      (by rw [List.length_cons]; omega) (by rw [List.length_cons]; omega)
    rwa [List.reverse_cons, List.append_assoc]

end InMemory

/-! ## The programs -/

/-- A map on the heap, into which any values have been inserted, is their set. -/
theorem hasElmt_of_insertAll (os : LowMmap) (mem : ByteMem.Mem) {fuel : Nat} {values : List Int32}
    {v : Int32} (hvalues : ∀ w ∈ values, w.toNat < 2 ^ 31) (hlength : values.length ≤ 2 ^ 26)
    (hfuel : values.length + 1 < fuel) (hv : v.toNat < 2 ^ 31) :
    wp NoMemory (Mutator.insertAll os fuel values >>= fun hm => Mutator.hasElmt fuel hm v)
      (fun found _ => found = if v ∈ values then 1 else 0) (HeapRun.init mem) := by
  simp only [Mutator.insertAll, wp_bind, wp_pure]
  refine wp_mono (wp_newMaps (mutatorInv_init mem)) fun helper r₁ h₁ =>
    wp_mono h₁ fun hm r₂ h₂ => ?_
  refine wp_mono (wp_insertAll h₂ hvalues (by simpa using hlength) (by simpa using hfuel))
    fun _ r₃ h₃ => ?_
  rw [wp_hasElmt_inMemory h₃ hv (by simpa using hfuel)]
  simp

/-- Nine values, two of them the same: the map grows on the way. -/
theorem hasElmt_of_insertAll_rehash :
    wp NoMemory (Mutator.insertAll pageMmap 11 [7, 7, 4, 0, 1, 2, 3, 5, 6] >>= fun hm =>
        Mutator.hasElmt 11 hm 4)
      (fun found _ => found = if (4 : Int32) ∈ [(7 : Int32), 7, 4, 0, 1, 2, 3, 5, 6] then 1 else 0)
      (HeapRun.init fun _ => 0) :=
  hasElmt_of_insertAll pageMmap _ (by simp) (by simp) (by simp) (by simp)

/-- The program has the memory that it needs, and ends. -/
example : (((Mutator.insertAll pageMmap 11 [7, 7, 4, 0, 1, 2, 3, 5, 6] >>= fun hm =>
    Mutator.hasElmt 11 hm 4) (HeapRun.init fun _ => 0)).map Prod.fst).toOption = some 1 := by
  decide +kernel

end KernelMemVirt.Gc
