import KernelMemVirt.Gc.Alloc
import KernelMemVirt.Lib.Chain
import KernelMemVirt.Lib.Transition
import Mathlib.Data.List.Nodup

/-!
# The hash map of the test program

`new_hashmap`, `hashmap_apply`, `has_elmt` and `hash` of `main.c`.  A map is an array of
chains of nodes; when it holds more than twice as many nodes as chains, `hash` gives its
array to the helper map, takes an array of twice the length, and walks the old chains to
link every node into the new ones.

The heap holds arrays and nodes.  `gcmalloc` gives a fresh array of null pointers, and
`doWriteRef` is an assignment.  A failure (a null pointer that is read or written, an
index outside an array, the error of `hash`, or a walk that is longer than its fuel) is
`none`.

This module is about a call of `hash` that does not rehash.
-/

namespace KernelMemVirt.Gc

open LinkedChain

/-! ## The source -/

/-- The place of a pointer: an element of an array, or the field `next` of a node. -/
inductive Place (N : Type)
  | slot (array : Nat) (i : Nat)
  | next (node : N)
  deriving DecidableEq

theorem Place.slot_ne_next {N : Type} (a i : Nat) (n : N) : Place.slot a i ≠ Place.next n := nofun

/-- The arrays allocated so far, numbered from 0, and the fields of the nodes. -/
structure NodeHeap (N : Type) where
  arrays : Nat
  array : Nat → List (Option N)
  next : N → Option N
  value : N → Int32

structure HashMap where
  nodes : Nat
  mod : Int32
  nbElment : Int32
  deriving DecidableEq

/-- The two maps of `compute`. -/
inductive MapId
  | hm
  | helper
  deriving DecidableEq

structure MapState (N : Type) where
  heap : NodeHeap N
  map : MapId → HashMap

section Source

variable {N : Type} [DecidableEq N]

/-- The pointer at a place; `none` is outside the arrays. -/
def NodeHeap.load (h : NodeHeap N) : Place N → Option (Option N)
  | .slot a i => (h.array a)[i]?
  | .next n => some (h.next n)

def NodeHeap.store (h : NodeHeap N) (l : Place N) (p : Option N) : NodeHeap N :=
  match l with
  | .slot a i => { h with array := Function.update h.array a ((h.array a).set i p) }
  | .next n => { h with next := Function.update h.next n p }

/-- `gcmalloc` of an array of pointers: the size in bytes is an `unsigned int`. -/
def NodeHeap.gcmalloc (h : NodeHeap N) (size : Int32) : NodeHeap N × Nat :=
  ({ h with
      arrays := h.arrays + 1
      array := Function.update h.array h.arrays (List.replicate (size.toNat / 8) none) },
    h.arrays)

def MapState.setMap (s : MapState N) (m : MapId) (hm : HashMap) : MapState N :=
  { s with map := Function.update s.map m hm }

/-- `new_hashmap`, with the result at `m`. -/
def newHashmap (s : MapState N) (m : MapId) : MapState N :=
  let hm : HashMap := ⟨0, 3, 0⟩
  let (heap, nodes) := s.heap.gcmalloc (hm.mod * 8)
  { s with heap }.setMap m { hm with nodes }

/-- `&hm->nodes[value % hm->mod]`. -/
def bucketOf (hm : HashMap) (value : Int32) : Option (Place N) :=
  if hm.mod = 0 then none
  else
    let i := value.srem hm.mod
    if i.slt 0 then none else some (.slot hm.nodes i.toNat)

/-- The walk along a chain: `some none` if a node with the value is found, or the place
of the null pointer at its end. -/
def findEnd (h : NodeHeap N) (value : Int32) : Nat → Place N → Option (Option (Place N))
  | 0, _ => none
  | fuel + 1, cur =>
    match h.load cur with
    | none => none
    | some none => some (some cur)
    | some (some n) => if h.value n = value then some none else findEnd h value fuel (.next n)

/-- `has_elmt`. -/
def hasElmt (fuel : Nat) (s : MapState N) (m : MapId) (value : Int32) : Option Bool := do
  let cur ← bucketOf (s.map m) value
  let found ← findEnd s.heap value fuel cur
  return found.isNone

/-- `recurse_apply`, the nested function of `hashmap_apply`. -/
def recurseApply (func : N → MapState N → Option (MapState N)) :
    Nat → Place N → MapState N → Option (MapState N)
  | 0, _, _ => none
  | fuel + 1, elmt, s =>
    match s.heap.load elmt with
    | none => none
    | some none => some s
    | some (some n) => do
      let s ← recurseApply func fuel (.next n) s
      let n ← s.heap.load elmt
      func (← n) s

/-- The loop of `hashmap_apply`, from `i` on. -/
def applyLoop (func : N → MapState N → Option (MapState N)) (fuel : Nat) (m : MapId) :
    Nat → Int32 → MapState N → Option (MapState N)
  | 0, _, _ => none
  | turns + 1, i, s =>
    if i.slt (s.map m).mod then do
      let s ← recurseApply func fuel (.slot (s.map m).nodes i.toNat) s
      applyLoop func fuel m turns (i + 1) s
    else some s

/-- `hashmap_apply`.  The index is an `int`, so the loop has less than `2 ^ 31` turns. -/
def hashmapApply (func : N → MapState N → Option (MapState N)) (fuel : Nat) (m : MapId)
    (s : MapState N) : Option (MapState N) :=
  applyLoop func fuel m (2 ^ 31) 0 s

/-- What `hash` does to its map before it walks the helper: the helper takes the old
array, and the map a new one. -/
def grow (s : MapState N) (m other : MapId) : MapState N :=
  let old := s.map m
  let s := s.setMap other ⟨old.nodes, old.mod, old.nbElment⟩
  let mod := old.mod <<< 1
  let (heap, nodes) := s.heap.gcmalloc (mod * 8)
  { s with heap }.setMap m ⟨nodes, mod, 0⟩

/-- `*cur = elmt`, the count, and before them `elmt->next = 0`. -/
def link (s : MapState N) (m : MapId) (elmt : N) (cur : Place N) : MapState N :=
  let hm := s.map m
  { s with heap := (s.heap.store (.next elmt) none).store cur (some elmt) }.setMap m
    { hm with nbElment := hm.nbElment + 1 }

/-- `hash`: the state, and if the value was present.  The first argument is the depth of
nested calls: `hash` calls itself for every node that it moves, with a null helper. -/
def hash (fuel : Nat) :
    Nat → MapId → N → Option MapId → MapState N → Option (MapState N × Bool)
  | 0, _, _, _, _ => none
  | depth + 1, m, elmt, helper, s => do
    let value := s.heap.value elmt
    let cur ← bucketOf (s.map m) value
    match ← findEnd s.heap value fuel cur with
    | none => return (s, true)
    | some cur =>
      let s := link s m elmt cur
      if ((s.map m).mod <<< 1).slt (s.map m).nbElment then
        match helper with
        | none => none
        | some other =>
          if other = m then none
          else
            let s := grow s m other
            let func elmt s := (hash fuel depth m elmt none s).map Prod.fst
            let s ← hashmapApply func fuel other s
            return (s, false)
      else return (s, false)

end Source

/-! ## Chains -/

section Chains

variable {N : Type}

/-- The nodes of a list whose value belongs to a chain. -/
def inBucket (value : N → Int32) (mod i : Nat) (ns : List N) : List N :=
  ns.filter fun n => (value n).toNat % mod = i

/-- The map holds the nodes `ns`, in the order in which they were linked. -/
structure Holds (h : NodeHeap N) (hm : HashMap) (ns : List N) : Prop where
  mod_pos : 0 < hm.mod.toNat
  mod_lt : hm.mod.toNat < 2 ^ 29
  array_lt : hm.nodes < h.arrays
  length : (h.array hm.nodes).length = hm.mod.toNat
  chain : ∀ i < hm.mod.toNat,
    Chain h.load .next (.slot hm.nodes i) (inBucket h.value hm.mod.toNat i ns)
  nonneg : ∀ n ∈ ns, (h.value n).toNat < 2 ^ 31
  distinct : (ns.map h.value).Nodup
  count : hm.nbElment = BitVec.ofNat 32 ns.length

variable {h : NodeHeap N} {hm : HashMap} {ns : List N} {fuel : Nat} {value : Int32}

theorem Holds.nodup (hholds : Holds h hm ns) : ns.Nodup := List.Nodup.of_map _ hholds.distinct

/-- The comparison of two integers that are not negative. -/
theorem slt_iff_of_lt {x y : Int32} (hx : x.toNat < 2 ^ 31) (hy : y.toNat < 2 ^ 31) :
    x.slt y ↔ x.toNat < y.toNat := by
  rw [BitVec.slt, decide_eq_true_iff, BitVec.toInt_eq_toNat_of_lt (by omega),
    BitVec.toInt_eq_toNat_of_lt (by omega), Int.ofNat_lt]

/-- The remainder of a value that is not negative. -/
theorem bucketOf_eq (hpos : 0 < hm.mod.toNat) (hmod : hm.mod.toNat < 2 ^ 29)
    (hvalue : value.toNat < 2 ^ 31) :
    (bucketOf hm value : Option (Place N)) =
      some (.slot hm.nodes (value.toNat % hm.mod.toNat)) := by
  have hrem : value.srem hm.mod = value % hm.mod := by
    have hmsb : value.msb = false := BitVec.msb_eq_false_iff_two_mul_lt.mpr (by omega)
    have hmsb' : hm.mod.msb = false := BitVec.msb_eq_false_iff_two_mul_lt.mpr (by omega)
    rw [BitVec.srem, hmsb, hmsb']
    rfl
  have hne : hm.mod ≠ 0 := fun heq => by
    rw [heq] at hpos
    exact absurd hpos (by decide)
  have hmodlt := Nat.mod_lt value.toNat hpos
  have hsign : ¬ (value % hm.mod).slt 0 := by
    rw [slt_iff_of_lt (by rw [BitVec.toNat_umod]; omega) (by decide)]
    exact Nat.not_lt_zero _
  unfold bucketOf
  rw [if_neg hne]
  dsimp only
  rw [hrem, if_neg hsign, BitVec.toNat_umod]

/-- The walk finds a node with the value, or the end of the chain. -/
theorem findEnd_of_chain {l : Place N} (hchain : Chain h.load .next l ns)
    (hfuel : ns.length < fuel) :
    findEnd h value fuel l =
      some (if value ∈ ns.map h.value then none else some (endOf .next l ns)) := by
  induction ns generalizing l fuel with
  | nil =>
    obtain ⟨fuel, rfl⟩ := Nat.exists_eq_succ_of_ne_zero (Nat.ne_of_gt hfuel)
    rw [findEnd, show h.load l = some none from hchain]
    rfl
  | cons n ns ih =>
    obtain ⟨fuel, rfl⟩ := Nat.exists_eq_succ_of_ne_zero (Nat.ne_of_gt (Nat.zero_lt_of_lt hfuel))
    rw [findEnd, hchain.1]
    dsimp only
    by_cases heq : h.value n = value
    · rw [if_pos heq, if_pos (List.mem_map.mpr ⟨n, List.mem_cons_self, heq⟩)]
    · rw [if_neg heq, ih hchain.2 (Nat.lt_of_succ_lt_succ hfuel), List.map_cons]
      have hmem : value ∈ h.value n :: ns.map h.value ↔ value ∈ ns.map h.value :=
        ⟨fun hin => (List.mem_cons.mp hin).resolve_left (Ne.symm heq), List.mem_cons_of_mem _⟩
      simp only [hmem, endOf]

/-- A value of the map is on the chain of its remainder. -/
theorem mem_map_inBucket {mod : Nat} :
    value ∈ (inBucket h.value mod (value.toNat % mod) ns).map h.value ↔ value ∈ ns.map h.value := by
  constructor
  · intro hin
    obtain ⟨n, hn, heq⟩ := List.mem_map.mp hin
    exact List.mem_map.mpr ⟨n, (List.mem_filter.mp hn).1, heq⟩
  · intro hin
    obtain ⟨n, hn, rfl⟩ := List.mem_map.mp hin
    exact List.mem_map_of_mem (List.mem_filter.mpr ⟨hn, decide_eq_true rfl⟩)

theorem length_inBucket_le (mod i : Nat) : (inBucket h.value mod i ns).length ≤ ns.length :=
  List.length_filter_le _ _

/-- The walk along the chain of a value. -/
theorem Holds.findEnd (hholds : Holds h hm ns) (hfuel : ns.length < fuel) :
    findEnd h value fuel (.slot hm.nodes (value.toNat % hm.mod.toNat)) =
      some (if value ∈ ns.map h.value then none
        else some (endOf .next (.slot hm.nodes (value.toNat % hm.mod.toNat))
          (inBucket h.value hm.mod.toNat (value.toNat % hm.mod.toNat) ns))) := by
  have hchain := hholds.chain _ (Nat.mod_lt value.toNat hholds.mod_pos)
  rw [findEnd_of_chain hchain (Nat.lt_of_le_of_lt (length_inBucket_le _ _) hfuel)]
  simp only [mem_map_inBucket]

/-- `has_elmt` on a value that is not negative. -/
theorem Holds.hasElmt {s : MapState N} {m : MapId} (hholds : Holds s.heap (s.map m) ns)
    (hfuel : ns.length < fuel) (hvalue : value.toNat < 2 ^ 31) :
    hasElmt fuel s m value = some (decide (value ∈ ns.map s.heap.value)) := by
  unfold Gc.hasElmt
  rw [bucketOf_eq hholds.mod_pos hholds.mod_lt hvalue]
  show (Gc.findEnd _ _ _ _).bind _ = _
  rw [hholds.findEnd hfuel]
  by_cases hin : value ∈ ns.map s.heap.value
  · rw [if_pos hin, decide_eq_true hin]
    rfl
  · rw [if_neg hin, decide_eq_false hin]
    rfl

/-- The place where a node is linked. -/
def target (s : MapState N) (m : MapId) (ns : List N) (e : N) : Place N :=
  let i := (s.heap.value e).toNat % (s.map m).mod.toNat
  endOf .next (.slot (s.map m).nodes i) (inBucket s.heap.value (s.map m).mod.toNat i ns)

theorem target_cases {s : MapState N} {m : MapId} {e : N} :
    (∃ i, target s m ns e = .slot (s.map m).nodes i) ∨ ∃ n ∈ ns, target s m ns e = .next n := by
  rcases endOf_cases with hend | ⟨n, hn, hend⟩
  · exact Or.inl ⟨_, hend⟩
  · exact Or.inr ⟨n, (List.mem_filter.mp hn).1, hend⟩

theorem next_ne_target {s : MapState N} {m : MapId} {e : N} (he : e ∉ ns) :
    Place.next e ≠ target s m ns e := by
  intro heq
  rcases target_cases with ⟨i, hend⟩ | ⟨n, hn, hend⟩
  · rw [hend] at heq
    cases heq
  · rw [hend] at heq
    cases heq
    exact he hn

theorem inBucket_append {e : N} (value : N → Int32) (mod i : Nat) :
    inBucket value mod i (ns ++ [e]) =
      inBucket value mod i ns ++ if (value e).toNat % mod = i then [e] else [] := by
  rw [inBucket, List.filter_append]
  by_cases hi : (value e).toNat % mod = i
  · rw [if_pos hi, List.filter_singleton, decide_eq_true hi]
    rfl
  · rw [if_neg hi, List.filter_singleton, decide_eq_false hi]
    rfl

/-- The test for a rehash, in natural numbers. -/
theorem Holds.test {s : MapState N} {m : MapId} {e : N}
    (hholds : Holds s.heap (s.map m) (ns ++ [e]))
    (hlen : ns.length ≤ 2 * (s.map m).mod.toNat) :
    ((s.map m).mod <<< 1).slt (s.map m).nbElment ↔ 2 * (s.map m).mod.toNat < ns.length + 1 := by
  have hmod := hholds.mod_lt
  have hshift : ((s.map m).mod <<< 1).toNat = 2 * (s.map m).mod.toNat := by
    rw [BitVec.toNat_shiftLeft, Nat.shiftLeft_eq]
    omega
  have hcount : (s.map m).nbElment.toNat = ns.length + 1 := by
    rw [hholds.count, List.length_append, List.length_singleton, BitVec.toNat_ofNat]
    omega
  rw [slt_iff_of_lt (by omega) (by omega), hshift, hcount]

theorem Holds.bucketOf_value {s : MapState N} {m : MapId} {e : N}
    (hholds : Holds s.heap (s.map m) ns)
    (hsign : (s.heap.value e).toNat < 2 ^ 31) :
    (bucketOf (s.map m) (s.heap.value e) : Option (Place N)) =
      some (Place.slot (s.map m).nodes ((s.heap.value e).toNat % (s.map m).mod.toNat)) :=
  bucketOf_eq hholds.mod_pos hholds.mod_lt hsign

end Chains

/-! ## A node is linked -/

section Linking

variable {N : Type} [DecidableEq N] {h h' : NodeHeap N} {l l' : Place N} {p : Option N}

theorem load_store_self {q : Option N} (hl : h.load l = some q) :
    (h.store l p).load l = some p := by
  cases l with
  | slot a i =>
    have hlt : i < (h.array a).length := (List.getElem?_eq_some_iff.mp hl).1
    show (Function.update h.array a ((h.array a).set i p) a)[i]? = some p
    rw [Function.update_self, List.getElem?_set_self hlt]
  | next n =>
    show some (Function.update h.next n p n) = some p
    rw [Function.update_self]

theorem load_store_of_ne (hne : l' ≠ l) : (h.store l p).load l' = h.load l' := by
  cases l with
  | next n =>
    cases l' with
    | slot b j => rfl
    | next n' =>
      show some (Function.update h.next n p n') = some (h.next n')
      rw [Function.update_of_ne fun heq => hne (congrArg Place.next heq)]
  | slot a i =>
    cases l' with
    | next n' => rfl
    | slot b j =>
      show (Function.update h.array a ((h.array a).set i p) b)[j]? = (h.array b)[j]?
      by_cases hb : b = a
      · subst hb
        rw [Function.update_self,
          List.getElem?_set_ne fun heq => hne (congrArg (Place.slot b) heq.symm)]
      · rw [Function.update_of_ne hb]

@[simp] theorem store_value : (h.store l p).value = h.value := by
  cases l <;> rfl

@[simp] theorem store_arrays : (h.store l p).arrays = h.arrays := by
  cases l <;> rfl

theorem length_store (b : Nat) : ((h.store l p).array b).length = (h.array b).length := by
  cases l with
  | next n => rfl
  | slot a i =>
    show (Function.update h.array a ((h.array a).set i p) b).length = (h.array b).length
    by_cases hb : b = a
    · subst hb
      rw [Function.update_self, List.length_set]
    · rw [Function.update_of_ne hb]

/-- Only the array `a` and the nodes `ns` are different. -/
structure Frame (h h' : NodeHeap N) (a : Nat) (ns : List N) : Prop where
  arrays : h'.arrays = h.arrays
  value : h'.value = h.value
  array : ∀ b, b ≠ a → h'.array b = h.array b
  next : ∀ n, n ∉ ns → h'.next n = h.next n

variable {s : MapState N} {m : MapId} {ns : List N} {e : N}

@[simp] theorem link_map_self {cur : Place N} :
    (link s m e cur).map m = { s.map m with nbElment := (s.map m).nbElment + 1 } :=
  Function.update_self _ _ _

/-- Writes to the array and to the nodes of a map. -/
theorem frame_link (he : e ∈ ns) {cur : Place N}
    (hcur : (∃ i, cur = .slot (s.map m).nodes i) ∨ ∃ n ∈ ns, cur = .next n) :
    Frame s.heap (link s m e cur).heap (s.map m).nodes ns := by
  rcases hcur with ⟨i, rfl⟩ | ⟨n, hn, rfl⟩
  · exact ⟨rfl, rfl, fun b hb => Function.update_of_ne hb _ _, fun n hn =>
      Function.update_of_ne (fun heq : n = e => hn (heq.symm ▸ he)) _ _⟩
  · refine ⟨rfl, rfl, fun b hb => rfl, fun k hk => ?_⟩
    have hkn : k ≠ n := fun heq => hk (heq ▸ hn)
    have hke : k ≠ e := fun heq => hk (heq ▸ he)
    exact (Function.update_of_ne hkn _ _).trans (Function.update_of_ne hke _ _)

/-- The map after a new node has been linked. -/
theorem Holds.link (hholds : Holds s.heap (s.map m) ns) (hsign : (s.heap.value e).toNat < 2 ^ 31)
    (hnew : s.heap.value e ∉ ns.map s.heap.value) :
    Holds (Gc.link s m e (target s m ns e)).heap ((Gc.link s m e (target s m ns e)).map m)
      (ns ++ [e]) := by
  have he : e ∉ ns := fun hmem => hnew (List.mem_map_of_mem hmem)
  have hne : Place.next e ≠ target s m ns e := next_ne_target he
  have hbucket := hholds.chain _ (Nat.mod_lt (s.heap.value e).toNat hholds.mod_pos)
  have hload : s.heap.load (target s m ns e) = some none := hbucket.load_endOf
  have hcur : (Gc.link s m e (target s m ns e)).heap.load (target s m ns e) = some (some e) :=
    load_store_self ((load_store_of_ne hne.symm).trans hload)
  have hnext : (Gc.link s m e (target s m ns e)).heap.load (.next e) = some none :=
    (load_store_of_ne hne).trans (load_store_self rfl)
  have hother : ∀ l, l ≠ target s m ns e → l ≠ .next e →
      (Gc.link s m e (target s m ns e)).heap.load l = s.heap.load l :=
    fun l hl hle => (load_store_of_ne hl).trans (load_store_of_ne hle)
  have hvalue : (Gc.link s m e (target s m ns e)).heap.value = s.heap.value :=
    store_value.trans store_value
  rw [link_map_self]
  refine ⟨hholds.mod_pos, hholds.mod_lt, ?_, ?_, fun i hi => ?_, fun n hn => ?_, ?_, ?_⟩
  · have harrays : (Gc.link s m e (target s m ns e)).heap.arrays = s.heap.arrays :=
      store_arrays.trans store_arrays
    rw [harrays]
    exact hholds.array_lt
  · exact ((length_store _).trans (length_store _)).trans hholds.length
  · rw [hvalue, inBucket_append]
    by_cases hbi : (s.heap.value e).toNat % (s.map m).mod.toNat = i
    · subst hbi
      rw [if_pos rfl]
      refine hbucket.append hcur hnext (fun hl => hother _ hl fun heq => nomatch heq) ?_
      intro n hn hl
      exact hother _ hl fun heq => he (Place.next.inj heq ▸ (List.mem_filter.mp hn).1)
    · rw [if_neg hbi, List.append_nil]
      refine chain_congr (hholds.chain i hi) (hother _ ?_ fun heq => nomatch heq) ?_
      · intro heq
        rcases endOf_cases with hend | ⟨n, -, hend⟩
        · exact hbi (Place.slot.inj (heq.trans hend)).2.symm
        · exact nomatch heq.trans hend
      · intro n hn
        rw [inBucket, List.mem_filter, decide_eq_true_iff] at hn
        refine hother _ (fun heq => ?_) fun heq => he (Place.next.inj heq ▸ hn.1)
        rcases endOf_cases with hend | ⟨k, hk, hend⟩
        · exact nomatch heq.trans hend
        · rw [inBucket, List.mem_filter, decide_eq_true_iff] at hk
          obtain rfl := Place.next.inj (heq.trans hend)
          exact hbi (hk.2.symm.trans hn.2)
  · rw [hvalue]
    rcases List.mem_append.mp hn with hn | hn
    · exact hholds.nonneg n hn
    · rw [List.mem_singleton.mp hn]
      exact hsign
  · rw [hvalue, List.map_append]
    refine List.nodup_append.mpr ⟨hholds.distinct, List.nodup_singleton _, ?_⟩
    rintro v hv _ hw rfl
    rw [List.map_singleton, List.mem_singleton] at hw
    exact hnew (hw ▸ hv)
  · rw [hholds.count, List.length_append, List.length_singleton, BitVec.ofNat_add]
    rfl

/-! ## A call that does not rehash -/

variable {fuel depth : Nat} {helper : Option MapId}

/-- A value that is present. -/
theorem Holds.hash_of_mem (hholds : Holds s.heap (s.map m) ns) (hfuel : ns.length < fuel)
    (hsign : (s.heap.value e).toNat < 2 ^ 31) (hmem : s.heap.value e ∈ ns.map s.heap.value) :
    hash fuel (depth + 1) m e helper s = some (s, true) := by
  rw [hash, hholds.bucketOf_value hsign]
  simp only [bind, Option.bind, hholds.findEnd hfuel, if_pos hmem]
  rfl

/-- The test that `hash` makes after it has linked a new value. -/
theorem Holds.test_link (hholds : Holds s.heap (s.map m) ns)
    (hsign : (s.heap.value e).toNat < 2 ^ 31) (hnew : s.heap.value e ∉ ns.map s.heap.value)
    (hlen : ns.length ≤ 2 * (s.map m).mod.toNat) :
    (((Gc.link s m e (target s m ns e)).map m).mod <<< 1).slt
        ((Gc.link s m e (target s m ns e)).map m).nbElment ↔
      2 * (s.map m).mod.toNat < ns.length + 1 := by
  have hmod : ((Gc.link s m e (target s m ns e)).map m).mod = (s.map m).mod := by
    rw [link_map_self]
  have htest := (hholds.link hsign hnew).test (by rw [hmod]; exact hlen)
  rwa [hmod] at htest ⊢

/-- A new value, in a map with room. -/
theorem Holds.hash_of_room (hholds : Holds s.heap (s.map m) ns) (hfuel : ns.length < fuel)
    (hsign : (s.heap.value e).toNat < 2 ^ 31) (hnew : s.heap.value e ∉ ns.map s.heap.value)
    (hroom : ns.length + 1 ≤ 2 * (s.map m).mod.toNat) :
    hash fuel (depth + 1) m e helper s = some (Gc.link s m e (target s m ns e), false) := by
  have htest := hholds.test_link hsign hnew (by omega)
  rw [hash, hholds.bucketOf_value hsign]
  simp only [bind, Option.bind, hholds.findEnd hfuel, if_neg hnew]
  exact if_neg fun hslt => absurd (htest.mp hslt) (by omega)

/-- A new value in a full map: the helper takes the chains, and each of their nodes goes
to the new array. -/
theorem Holds.hash_of_full (hholds : Holds s.heap (s.map m) ns) (hfuel : ns.length < fuel)
    (hsign : (s.heap.value e).toNat < 2 ^ 31) (hnew : s.heap.value e ∉ ns.map s.heap.value)
    (hfull : ns.length = 2 * (s.map m).mod.toNat) {other : MapId} (hother : other ≠ m) :
    hash fuel (depth + 1) m e (some other) s =
      (hashmapApply (fun elmt s => (hash fuel depth m elmt none s).map Prod.fst) fuel other
        (grow (Gc.link s m e (target s m ns e)) m other)).map fun s => (s, false) := by
  have htest := hholds.test_link hsign hnew (by omega)
  rw [hash, hholds.bucketOf_value hsign]
  simp only [bind, Option.bind, hholds.findEnd hfuel, if_neg hnew]
  apply (if_pos (htest.mpr (by omega))).trans
  rw [if_neg hother]
  exact Option.map_eq_bind.symm

end Linking

end KernelMemVirt.Gc
