import KernelMemVirt.Gc.MapMemory

/-!
# The program of the hash map, against the hash map

Each function of `main.c` on memory does what the function of the same name does to a `MapState`:
if the state is represented, and the abstract function gives a result, then the program does not
fail, unless `mmap` does, and the new state is represented.

The functions that only read (`wp_bucket`, `wp_findEnd`, `wp_hasElmt`) leave the memory as it is.
A call of `hash` during a rehash takes no memory, so the layout stays (`wp_hash_none`), and
`hashmap_apply` is shown for any function of that kind.
-/

namespace KernelMemVirt.Gc

open ByteMem StateLogic

namespace Represents

variable {os : LowMmap} {L : MapLayout} {r : HeapRun} {s s' : MapState Nat} {m other : MapId}
  {l : Place Nat} {value : Int32} {fuel n : Nat}

/-! ## Reading -/

/-- A bucket is an element of the array, at the remainder. -/
theorem bucketOf_cases {hashmap : HashMap} (hbucket : bucketOf hashmap value = some l) :
    hashmap.mod ≠ 0 ∧ (value.srem hashmap.mod).toNat < 2 ^ 31 ∧
      l = .slot hashmap.nodes (value.srem hashmap.mod).toNat := by
  unfold bucketOf at hbucket
  split at hbucket
  · cases hbucket
  · next hmod =>
    dsimp only at hbucket
    split at hbucket
    · cases hbucket
    · next hsign =>
      cases hbucket
      have hmsb := (BitVec.slt_zero_iff_msb_cond).not.mp hsign
      have hlt := BitVec.msb_eq_false_iff_two_mul_lt.mp (Bool.not_eq_true _ ▸ hmsb)
      exact ⟨hmod, by omega, rfl⟩

theorem wp_bucket (h : Represents L r s) (hm : m ∈ L.maps)
    (hbucket : bucketOf (s.map m) value = some l) {Q : Nat → HeapRun → Prop} :
    wp NoMemory (Mutator.bucket (L.map m) value) Q r ↔ Q (L.place l) r := by
  obtain ⟨hmod, hindex, rfl⟩ := bucketOf_cases hbucket
  have hbound := h.array_bound (h.closed.nodes m hm)
  simp only [Mutator.bucket, wp_bind, h.wp_nodes hm, h.wp_mod hm, wp_ite, if_neg hmod, wp_pure]
  rw [elementAddr_eq (by omega) hindex]
  rfl

/-- The walk along a chain. -/
theorem wp_findEnd (h : Represents L r s) (hl : L.HasPlace s l) {x : Option (Place Nat)}
    (hfind : Gc.findEnd s.heap value fuel l = some x) {Q : Option Nat → HeapRun → Prop} :
    wp NoMemory (Mutator.findEnd value fuel (L.place l)) Q r ↔ Q (x.map L.place) r := by
  induction fuel generalizing l with
  | zero => cases hfind
  | succ fuel ih =>
    rw [Gc.findEnd] at hfind
    split at hfind
    · cases hfind
    · next hload =>
      cases hfind
      simp [Mutator.findEnd, h.wp_place hl hload, wp_ite, pointer]
    · next n hload =>
      have hn := h.load_closed hl hload
      have hne := h.node_ne_zero hn
      rw [Mutator.findEnd]
      simp only [wp_bind, h.wp_place hl hload, pointer, wp_ite, if_neg hne, h.wp_value hn]
      by_cases heq : s.heap.value n = value
      · rw [if_pos heq] at hfind ⊢
        cases hfind
        exact wp_pure
      · rw [if_neg heq] at hfind ⊢
        exact ih (l := .next n) hn hfind

/-- The end of a chain is a null pointer of the maps. -/
theorem place_of_findEnd (h : Represents L r s) (hl : L.HasPlace s l) {cur : Place Nat}
    (hfind : Gc.findEnd s.heap value fuel l = some (some cur)) :
    L.HasPlace s cur ∧ s.heap.load cur = some none := by
  induction fuel generalizing l with
  | zero => cases hfind
  | succ fuel ih =>
    rw [Gc.findEnd] at hfind
    split at hfind
    · cases hfind
    · next hload =>
      cases hfind
      exact ⟨hl, hload⟩
    · next n hload =>
      split at hfind
      · cases hfind
      · exact ih (l := .next n) (h.load_closed hl hload) hfind

theorem hasPlace_of_bucketOf (h : Represents L r s) (hm : m ∈ L.maps)
    (hbucket : bucketOf (s.map m) value = some l) : L.HasPlace s l := by
  obtain ⟨-, -, rfl⟩ := bucketOf_cases hbucket
  exact h.closed.nodes m hm

theorem wp_hasElmt (h : Represents L r s) (hm : m ∈ L.maps) {found : Bool}
    (helmt : Gc.hasElmt fuel s m value = some found) {Q : Int32 → HeapRun → Prop} :
    wp NoMemory (Mutator.hasElmt fuel (L.map m) value) Q r ↔ Q (if found then 1 else 0) r := by
  unfold Gc.hasElmt at helmt
  obtain ⟨cur, hbucket, hrest⟩ := Option.bind_eq_some_iff.mp helmt
  obtain ⟨x, hfind, hx⟩ := Option.bind_eq_some_iff.mp hrest
  simp only [Mutator.hasElmt, wp_bind, h.wp_bucket hm hbucket,
    h.wp_findEnd (h.hasPlace_of_bucketOf hm hbucket) hfind]
  cases hx
  cases x <;> simp

/-! ## Writing -/

/-- A cell of the maps and an object pass the barrier. -/
theorem wp_barrier (h : Represents L r s) {c : Cell} (hc : L.Has s c) {q k : Nat}
    (hq : r.HasObject q k) {Q : Unit → HeapRun → Prop} :
    wp NoMemory (Mutator.writeBarrier (L.addr c) q) Q r ↔ Q () r := by
  have hend := hc.2
  have hwidth := c.width_pos
  have hpos := h.inv.object_pos hq
  exact Mutator.wp_writeBarrier h.inv (h.object _ hc.1) (Nat.le_add_right _ _)
    (by omega) hq (Nat.le_refl q) (by omega)

theorem wp_barrier_nodes (h : Represents L r s) (hm : m ∈ L.maps) {q k : Nat}
    (hq : r.HasObject q k) {Q : Unit → HeapRun → Prop} :
    wp NoMemory (Mutator.writeBarrier (L.map m) q) Q r ↔ Q () r :=
  h.wp_barrier (has_nodes s hm) hq

theorem wp_barrier_place (h : Represents L r s) (hl : L.HasPlace s l) {p : Option Nat}
    (hload : s.heap.load l = some p) {q k : Nat} (hq : r.HasObject q k)
    {Q : Unit → HeapRun → Prop} :
    wp NoMemory (Mutator.writeBarrier (L.place l) q) Q r ↔ Q () r := by
  rw [place_eq]
  exact h.wp_barrier (has_place hl hload).1 hq

/-- The element is linked. -/
theorem wp_link (h : Represents L r s) (hm : m ∈ L.maps) (hn : n ∈ L.nodes) {cur : Place Nat}
    (hcur : L.HasPlace s cur) (hload : s.heap.load cur = some none) {Q : Unit → HeapRun → Prop}
    (hQ : ∀ r', Represents L r' (link s m n cur) → Q () r') :
    wp NoMemory (Mutator.link (L.map m) n (L.place cur)) Q r := by
  rw [Mutator.link, wp_bind]
  refine h.wp_set_place (l := .next n) (p := none) hn rfl nofun fun r₁ h₁ => ?_
  have hload₁ : (s.heap.store (.next n) none).load cur = some none := by
    by_cases heq : cur = .next n
    · rw [heq]
      exact load_store_self rfl
    · exact (load_store_of_ne heq).trans hload
  have hcur₁ : L.HasPlace { s with heap := s.heap.store (.next n) none } cur := by
    cases cur <;> exact hcur
  simp only [Mutator.doWriteRef, wp_bind, wp_pure]
  rw [h₁.wp_barrier_place hcur₁ hload₁ (h₁.node_object hn)]
  refine h₁.wp_set_place (p := some n) hcur₁ hload₁ (fun k hk => ?_) fun r₂ h₂ => ?_
  · cases hk
    exact hn
  rw [h₂.wp_count hm]
  exact h₂.wp_set_count hm hQ

/-- `doWriteRef(hm->nodes, gcmalloc(hm->mod * 8))`, where the macro takes two arrays and one of
them becomes the array of the map. -/
theorem wp_newArray (h : Represents L r s) (hm : m ∈ L.maps) (hpos : 0 < (s.map m).mod.toNat)
    (hmod : 8 * (s.map m).mod.toNat < 2 ^ 30) {Q : Unit → HeapRun → Prop}
    (hQ : ∀ r' p, Represents { L with array := Function.update L.array s.heap.arrays p } r'
      ({ s with heap := (s.heap.gcmalloc ((s.map m).mod * 8)).1 }.setMap m
        { s.map m with nodes := s.heap.arrays }) → Q () r') :
    wp NoMemory (Mutator.doWriteRef (L.map m) do
      let mod ← Mutator.load32 (L.map m + 8)
      Mutator.gcmalloc os (mod * 8)) Q r := by
  have hsize : ((s.map m).mod * 8).toNat = 8 * (s.map m).mod.toNat := by
    rw [BitVec.toNat_mul, show (8 : Int32).toNat = 8 from rfl]
    omega
  have hmalloc : ∀ {r : HeapRun}, MutatorInv r → _ := fun hinv =>
    @Mutator.wp_gcmalloc _ os hinv ((s.map m).mod * 8) (by omega) (by omega) (by omega)
  simp only [Mutator.doWriteRef, wp_bind]
  rw [h.wp_mod hm]
  refine wp_mono (hmalloc h.inv) fun p₁ r₁ hnew₁ => ?_
  have h₁ := h.grows hnew₁.1 hnew₁.2.grows
  rw [h₁.wp_barrier_nodes hm hnew₁.2.object, h₁.wp_mod hm]
  refine wp_mono (hmalloc h₁.inv) fun p₂ r₂ hnew₂ => ?_
  have h₂ := h₁.new_array hnew₂.1 (by omega) hnew₂.2
  have hstore := @wp_set_nodes _ _ _ m Q h₂ hm s.heap.arrays (Nat.lt_succ_self _)
    fun r₃ h₃ => hQ r₃ p₂ h₃
  dsimp only at hstore
  rwa [Function.update_self] at hstore

/-- The fields that `hash` assigns before it takes the new array. -/
theorem setMap_grow (s : MapState Nat) (hne : other ≠ m) :
    let s₁ := s.setMap other { s.map other with nodes := (s.map m).nodes }
    let s₂ := s₁.setMap other { s₁.map other with nbElment := (s₁.map m).nbElment }
    let s₃ := s₂.setMap other { s₂.map other with mod := (s₂.map m).mod }
    let s₄ := s₃.setMap m { s₃.map m with nbElment := 0 }
    s₄.setMap m { s₄.map m with mod := (s₄.map m).mod <<< 1 } =
      (s.setMap other (s.map m)).setMap m ⟨(s.map m).nodes, (s.map m).mod <<< 1, 0⟩ := by
  refine congrArg (MapState.mk s.heap) (funext fun m' => ?_)
  cases m <;> cases other <;> cases m' <;> simp_all [MapState.setMap]

/-- The helper takes the array, and the map a new one. -/
theorem wp_grow (h : Represents L r s) (hm : m ∈ L.maps) (ho : other ∈ L.maps)
    (hne : other ≠ m) (hpos : 0 < (s.map m).mod.toNat)
    (hmod : 16 * (s.map m).mod.toNat < 2 ^ 30) {Q : Unit → HeapRun → Prop}
    (hQ : ∀ r' p, Represents { L with array := Function.update L.array s.heap.arrays p } r'
      (grow s m other) → Q () r') :
    wp NoMemory (Mutator.grow os (L.map m) (L.map other)) Q r := by
  have hshift : ((s.map m).mod <<< 1).toNat = 2 * (s.map m).mod.toNat := by
    rw [BitVec.toNat_shiftLeft, Nat.shiftLeft_eq]
    omega
  have hnodes := h.closed.nodes m hm
  simp only [Mutator.grow, wp_bind]
  simp only [Mutator.doWriteRef, wp_bind, h.wp_nodes hm,
    h.wp_barrier_nodes ho (h.array_object hnodes)]
  refine h.wp_set_nodes ho hnodes fun r₁ h₁ => ?_
  rw [h₁.wp_count hm]
  refine h₁.wp_set_count ho fun r₂ h₂ => ?_
  rw [h₂.wp_mod hm]
  refine h₂.wp_set_mod ho fun r₃ h₃ => h₃.wp_set_count hm fun r₄ h₄ => ?_
  rw [h₄.wp_mod hm]
  refine h₄.wp_set_mod hm fun r₅ h₅ => ?_
  rw [setMap_grow s hne] at h₅
  have hself : (((s.setMap other (s.map m)).setMap m
      ⟨(s.map m).nodes, (s.map m).mod <<< 1, 0⟩).map m) =
        ⟨(s.map m).nodes, (s.map m).mod <<< 1, 0⟩ := Function.update_self _ _ _
  have hlast := @wp_newArray os _ _ _ m h₅ hm (by rw [hself]; dsimp only; omega)
    (by rw [hself]; dsimp only; omega) Q fun r₆ p h₆ => hQ r₆ p (by
      rw [hself] at h₆
      simpa [grow, MapState.setMap, NodeHeap.gcmalloc, Function.update_idem] using h₆)
  simpa only [Mutator.doWriteRef, wp_bind] using hlast

/-! ## A new map -/

/-- The new array is at `q`. -/
theorem base_ne_new_array {size : Int32} {p q : Nat} (hne : ∀ o, L.Present s o → L.base o ≠ p)
    (hq : q ≠ p) (o : Item)
    (ho : L.Present { s with heap := (s.heap.gcmalloc size).1 } o) :
    MapLayout.base { L with array := Function.update L.array s.heap.arrays q } o ≠ p := by
  cases o with
  | map m => exact hne (.map m) ho
  | node n => exact hne (.node n) ho
  | array a =>
    show Function.update L.array s.heap.arrays q a ≠ p
    rcases Nat.lt_succ_iff_lt_or_eq.mp ho with hold | rfl
    · rw [Function.update_of_ne (Nat.ne_of_lt hold)]
      exact hne (.array a) hold
    · rw [Function.update_self]
      exact hq

/-- An object with the fields of a map without an array. -/
structure NewMap (r : HeapRun) (p : Nat) : Prop where
  object : r.HasObject p 16
  mod : read32 r.heap.mem (p + 8) = 3
  count : read32 r.heap.mem (p + 12) = 0

theorem NewMap.grows {r' : HeapRun} {p : Nat} (h : NewMap r p) (hgrows : Grows r r') :
    NewMap r' p where
  object := (hgrows p 16 h.object).1
  mod := (hgrows.readBytes h.object (Nat.le_add_right p 8) (by omega)).trans h.mod
  count := (hgrows.readBytes h.object (Nat.le_add_right p 12) (by omega)).trans h.count

/-- The object of `new_hashmap`. -/
theorem wp_newMap (h : Represents L r s) {Q : Nat → HeapRun → Prop}
    (hQ : ∀ r' p, Represents L r' s → (∀ o, L.Present s o → L.base o ≠ p) → NewMap r' p →
      Q p r') :
    wp NoMemory (Mutator.gcmalloc os 16)
      (fun p => wp NoMemory (Mutator.store32 (p + 8) 3) fun _ => Q p) r := by
  refine wp_mono (@Mutator.wp_gcmalloc _ os h.inv 16 (by decide) (by decide) (by decide))
    fun p r₁ hres => ?_
  obtain ⟨hinv, hnew⟩ := hres
  have hobj : r₁.HasObject p 16 := hnew.object
  have hne : ∀ o, L.Present s o → L.base o ≠ p := fun o ho => h.base_ne hnew ho
  have hzero : read32 r₁.heap.mem (p + 12) = 0 :=
    readBytes_eq_zero fun x hlo hhi => hnew.zeroed x (by omega) (show x < p + 16 by omega)
  have hstore := (h.grows hinv hnew.grows).stored_other hobj hne (Nat.le_add_right p 8)
    (k := 4) (by omega) 3
  rw [Mutator.wp_store32 (hobj.inObject (Nat.le_add_right p 8) (by omega))]
  refine hQ _ p hstore hne ⟨hobj, MutatorInv.read_stored_self, ?_⟩
  exact (MutatorInv.read_stored_of_apart (by unfold Apart; omega)).trans hzero

/-- `new_hashmap`. -/
theorem wp_newHashmap (h : Represents L r s) (hm : m ∉ L.maps) {Q : Nat → HeapRun → Prop}
    (hQ : ∀ r' p array, Represents ⟨m :: L.maps, Function.update L.map m p, array, L.nodes⟩ r'
      (Gc.newHashmap s m) → Q p r') :
    wp NoMemory (Mutator.newHashmap os) Q r := by
  simp only [Mutator.newHashmap, Mutator.doWriteRef, wp_bind, wp_pure]
  refine h.wp_newMap fun r₂ p h₂ hne hmap₂ => ?_
  rw [Mutator.wp_load32 (hmap₂.object.inObject (Nat.le_add_right p 8) (by omega)), hmap₂.mod]
  refine wp_mono (@Mutator.wp_gcmalloc _ os h₂.inv (3 * 8) (by decide) (by decide) (by decide))
    fun q₁ r₃ hres => ?_
  obtain ⟨hinv₃, hnew₃⟩ := hres
  have hmap₃ := hmap₂.grows hnew₃.grows
  rw [Mutator.wp_writeBarrier hinv₃ hmap₃.object (Nat.le_refl p) (by omega) hnew₃.object
      (Nat.le_refl q₁) (Nat.lt_add_of_pos_right (by decide)),
    Mutator.wp_load32 (hmap₃.object.inObject (Nat.le_add_right p 8) (by omega)), hmap₃.mod]
  refine wp_mono (@Mutator.wp_gcmalloc _ os hinv₃ (3 * 8) (by decide) (by decide) (by decide))
    fun q₂ r₄ hres => ?_
  obtain ⟨hinv₄, hnew₄⟩ := hres
  have hmap₄ := hmap₃.grows hnew₄.grows
  rw [Mutator.wp_store64 (hmap₄.object.inObject (Nat.le_refl p) (by omega))]
  have h₄ := (h₂.grows hinv₃ hnew₃.grows).new_array hinv₄ (by decide) hnew₄
  have hne₄ := @base_ne_new_array L s (3 * 8) p q₂ hne (hnew₄.fresh p 16 hmap₃.object).symm
  have h₅ := h₄.stored_other hmap₄.object hne₄ (Nat.le_refl p) (k := 8) (by omega)
    (BitVec.ofNat 64 q₂)
  refine hQ _ p _ (@new_map _ _ _ p h₅ m hm ⟨s.heap.arrays, 3, 0⟩ hmap₄.object hne₄ ?_
    (Nat.lt_succ_self _) ?_ ?_)
  · have hbound := (hinv₄.bound hnew₄.object).2
    have hread : read64 (r₄.stored p 8 (BitVec.ofNat 64 q₂)).heap.mem p = BitVec.ofNat 64 q₂ :=
      MutatorInv.read_stored_self
    dsimp only
    rw [hread, Function.update_self, BitVec.toNat_ofNat]
    exact Nat.mod_eq_of_lt (by omega)
  · exact (MutatorInv.read_stored_of_apart (by unfold Apart; omega)).trans hmap₄.mod
  · exact (MutatorInv.read_stored_of_apart (by unfold Apart; omega)).trans hmap₄.count

/-! ## The walk -/

/-- The program `func` does what `func'` does, and takes no memory. -/
def Simulates (L : MapLayout) (func : Nat → Mutator Unit)
    (func' : Nat → MapState Nat → Option (MapState Nat)) : Prop :=
  ∀ {n s s' r}, Represents L r s → n ∈ L.nodes → func' n s = some s' →
    wp NoMemory (func n)
      (fun _ r' => Represents L r' s' ∧ s'.heap.arrays = s.heap.arrays) r

section Walk

variable {func : Nat → Mutator Unit} {func' : Nat → MapState Nat → Option (MapState Nat)}
  {turns : Nat}

/-- `recurse_apply` reads its place. -/
theorem exists_load_of_recurseApply (hrun : Gc.recurseApply func' turns l s = some s') :
    ∃ p, s.heap.load l = some p := by
  cases turns with
  | zero => cases hrun
  | succ turns =>
    rw [Gc.recurseApply] at hrun
    split at hrun
    · cases hrun
    · next hload => exact ⟨_, hload⟩
    · next hload => exact ⟨_, hload⟩

theorem hasPlace_congr (heq : s'.heap.arrays = s.heap.arrays) (hl : L.HasPlace s l) :
    L.HasPlace s' l := by
  cases l with
  | slot a i =>
    unfold MapLayout.HasPlace at hl ⊢
    rwa [heq]
  | next n => exact hl

/-- `recurse_apply`. -/
theorem wp_recurseApply (hfunc : Simulates L func func') (h : Represents L r s)
    (hl : L.HasPlace s l) (hrun : Gc.recurseApply func' turns l s = some s') :
    wp NoMemory (Mutator.recurseApply func turns (L.place l))
      (fun _ r' => Represents L r' s' ∧ s'.heap.arrays = s.heap.arrays) r := by
  induction turns generalizing l s s' r with
  | zero => cases hrun
  | succ turns ih =>
    rw [Gc.recurseApply] at hrun
    split at hrun
    · cases hrun
    · next hload =>
      cases hrun
      rw [Mutator.recurseApply, wp_bind, h.wp_place hl hload, pointer, wp_ite, if_pos rfl, wp_pure]
      exact ⟨h, rfl⟩
    · next n hload =>
      obtain ⟨s₁, htail, hrest⟩ := Option.bind_eq_some_iff.mp hrun
      obtain ⟨p, hload₁, hcall⟩ := Option.bind_eq_some_iff.mp hrest
      obtain ⟨k, rfl, hcall⟩ := Option.bind_eq_some_iff.mp hcall
      have hn := h.load_closed hl hload
      have hne := h.node_ne_zero hn
      rw [Mutator.recurseApply, wp_bind, h.wp_place hl hload, pointer, wp_ite, if_neg hne, wp_bind]
      simp only [wp_bind]
      refine wp_mono (ih (l := .next n) h hn htail) fun _ r₁ h₁ => ?_
      rcases h₁ with ⟨h₁, harrays⟩
      have hl₁ := hasPlace_congr harrays hl
      rw [h₁.wp_place hl₁ hload₁]
      refine wp_mono (hfunc h₁ (h₁.load_closed hl₁ hload₁) hcall) fun _ r₂ h₂ => ?_
      exact ⟨h₂.1, h₂.2.trans harrays⟩

/-- The loop of `hashmap_apply`. -/
theorem wp_applyLoop (hfunc : Simulates L func func') {i : Int32}
    (h : Represents L r s) (hm : m ∈ L.maps)
    (hrun : Gc.applyLoop func' fuel m turns i s = some s') :
    wp NoMemory (Mutator.applyLoop func fuel (L.map m) turns i)
      (fun _ r' => Represents L r' s' ∧ s'.heap.arrays = s.heap.arrays) r := by
  induction turns generalizing i s r with
  | zero => cases hrun
  | succ turns ih =>
    rw [Gc.applyLoop] at hrun
    simp only [Mutator.applyLoop, wp_bind, h.wp_mod hm, wp_ite]
    split at hrun
    · next hlt =>
      obtain ⟨s₁, hwalk, hrest⟩ := Option.bind_eq_some_iff.mp hrun
      have hplace : L.HasPlace s (.slot (s.map m).nodes i.toNat) := h.closed.nodes m hm
      obtain ⟨p, hload⟩ := exists_load_of_recurseApply hwalk
      have hlength : i.toNat < (s.heap.array (s.map m).nodes).length :=
        (List.getElem?_eq_some_iff.mp hload).1
      have hbound := h.array_bound (h.closed.nodes m hm)
      rw [if_pos hlt, h.wp_nodes hm, elementAddr_eq (by omega) (by omega)]
      refine wp_mono (wp_recurseApply hfunc h hplace hwalk) fun _ r₁ h₁ => ?_
      refine wp_mono (ih h₁.1 hrest) fun _ r₂ h₂ => ?_
      exact ⟨h₂.1, h₂.2.trans h₁.2⟩
    · next hge =>
      cases hrun
      rw [if_neg hge]
      exact wp_pure.mpr ⟨h, rfl⟩

theorem wp_hashmapApply (hfunc : Simulates L func func') (h : Represents L r s)
    (hm : m ∈ L.maps) (hrun : Gc.hashmapApply func' fuel m s = some s') :
    wp NoMemory (Mutator.hashmapApply func fuel (L.map m))
      (fun _ r' => Represents L r' s' ∧ s'.heap.arrays = s.heap.arrays) r :=
  wp_applyLoop hfunc h hm hrun

end Walk

/-! ## `hash` -/

/-- The address that is given for the helper. -/
def helperAddr (L : MapLayout) (helper : Option MapId) : Nat := helper.elim 0 L.map

/-- `hash`, up to the walk over the helper. -/
theorem wp_hash_of {depth : Nat} (helper : Option MapId) {present : Bool}
    {Q : Int32 → HeapRun → Prop} (h : Represents L r s) (hm : m ∈ L.maps)
    (hhelper : ∀ o ∈ helper, o ∈ L.maps) (hn : n ∈ L.nodes)
    (hrun : Gc.hash fuel (depth + 1) m n helper s = some (s', present))
    (hdone : ∀ r', Represents L r' s' → s'.heap.arrays = s.heap.arrays →
      Q (if present then 1 else 0) r')
    (hgrow : ∀ cur other r', other ∈ helper → other ≠ m → present = false →
      Represents L r' (link s m n cur) →
      ((s.map m).mod <<< 1).slt ((s.map m).nbElment + 1) →
      Gc.hashmapApply (fun elmt s => (Gc.hash fuel depth m elmt none s).map Prod.fst) fuel other
        (grow (link s m n cur) m other) = some s' →
      wp NoMemory (do
        Mutator.grow os (L.map m) (L.map other)
        Mutator.hashmapApply (fun elmt => do
          let _ ← Mutator.hash os fuel depth (L.map m) elmt 0) fuel (L.map other)
        return 0) Q r') :
    wp NoMemory (Mutator.hash os fuel (depth + 1) (L.map m) n (helperAddr L helper)) Q r := by
  rw [Gc.hash] at hrun
  obtain ⟨l, hbucket, hrun⟩ := Option.bind_eq_some_iff.mp hrun
  obtain ⟨x, hfind, hrun⟩ := Option.bind_eq_some_iff.mp hrun
  have hplace := h.hasPlace_of_bucketOf hm hbucket
  simp only [Mutator.hash, wp_bind, h.wp_value hn, h.wp_bucket hm hbucket,
    h.wp_findEnd hplace hfind]
  cases x with
  | none =>
    cases hrun
    exact wp_pure.mpr (hdone r h rfl)
  | some cur =>
    obtain ⟨hcur, hload⟩ := h.place_of_findEnd hplace hfind
    simp only [Option.map_some, wp_bind]
    refine h.wp_link hm hn hcur hload fun r₁ h₁ => ?_
    rw [h₁.wp_mod hm, h₁.wp_count hm, wp_ite]
    dsimp only at hrun
    split at hrun
    · next htest =>
      rw [if_pos htest]
      cases helper with
      | none => cases hrun
      | some other =>
        dsimp only at hrun
        split at hrun
        · cases hrun
        · next hne =>
          obtain ⟨s₂, hwalk, hrun⟩ := Option.bind_eq_some_iff.mp hrun
          cases hrun
          have haddr : L.map other ≠ L.map m := fun heq =>
            hne (Item.map.inj (h.distinct (.map other) (.map m) (hhelper other rfl) hm heq))
          rw [link_map_self] at htest
          rw [wp_ite, helperAddr, Option.elim_some, if_neg haddr]
          exact hgrow cur other r₁ rfl hne rfl h₁ htest hwalk
    · next htest =>
      cases hrun
      rw [if_neg htest]
      exact wp_pure.mpr (hdone r₁ h₁ (store_arrays.trans store_arrays))

/-- A call of `hash` in the middle of a rehash. -/
theorem wp_hash_none {depth : Nat} {present : Bool} (h : Represents L r s) (hm : m ∈ L.maps)
    (hn : n ∈ L.nodes) (hrun : Gc.hash fuel depth m n none s = some (s', present)) :
    wp NoMemory (Mutator.hash os fuel depth (L.map m) n 0)
      (fun _ r' => Represents L r' s' ∧ s'.heap.arrays = s.heap.arrays) r := by
  cases depth with
  | zero => cases hrun
  | succ depth =>
    exact wp_hash_of none h hm nofun hn hrun (fun r' h' heq => ⟨h', heq⟩) nofun

/-- The objects that were there are where they were. -/
structure SamePlaces (L L' : MapLayout) : Prop where
  maps : L'.maps = L.maps
  map : L'.map = L.map
  nodes : L'.nodes = L.nodes

/-- `hash` with a helper. -/
theorem wp_hash {depth : Nat} {present : Bool} (h : Represents L r s) (hm : m ∈ L.maps)
    (ho : other ∈ L.maps) (hn : n ∈ L.nodes)
    (hsize : ((s.map m).mod <<< 1).slt ((s.map m).nbElment + 1) →
      0 < (s.map m).mod.toNat ∧ 16 * (s.map m).mod.toNat < 2 ^ 30)
    (hrun : Gc.hash fuel depth m n (some other) s = some (s', present)) :
    wp NoMemory (Mutator.hash os fuel depth (L.map m) n (L.map other))
      (fun _ r' => ∃ L', SamePlaces L L' ∧ Represents L' r' s') r := by
  cases depth with
  | zero => cases hrun
  | succ depth =>
    refine wp_hash_of (some other) h hm (fun o ho' => Option.mem_some.mp ho' ▸ ho) hn
      hrun (fun r' h' _ => ⟨L, ⟨rfl, rfl, rfl⟩, h'⟩) ?_
    intro cur o r₁ ho' hne _ h₁ htest hwalk
    obtain rfl := Option.mem_some.mp ho'
    obtain ⟨hpos, hmod⟩ := hsize htest
    rw [wp_bind]
    refine h₁.wp_grow hm ho hne (by rw [link_map_self]; exact hpos)
      (by rw [link_map_self]; exact hmod) fun r₂ p h₂ => ?_
    generalize hL : { L with array := Function.update L.array _ p } = L' at h₂
    have hmaps : L'.maps = L.maps := hL ▸ rfl
    have hmap : L'.map = L.map := hL ▸ rfl
    have hmove : Simulates L' (fun elmt => do
        let _ ← Mutator.hash os fuel depth (L'.map m) elmt 0)
        (fun elmt s => (Gc.hash fuel depth m elmt none s).map Prod.fst) := by
      intro k t t' u hu hk hcall
      obtain ⟨x, hx, rfl⟩ := Option.map_eq_some_iff.mp hcall
      rw [wp_bind]
      exact wp_mono (wp_hash_none hu (hmaps ▸ hm) hk hx) fun _ _ h' => wp_pure.mpr h'
    have happly := wp_hashmapApply hmove h₂ (hmaps ▸ ho) hwalk
    rw [hmap] at happly
    rw [wp_bind]
    exact wp_mono happly fun _ r₃ h₃ => wp_pure.mpr ⟨L', ⟨hmaps, hmap, hL ▸ rfl⟩, h₃.1⟩

end Represents

end KernelMemVirt.Gc
