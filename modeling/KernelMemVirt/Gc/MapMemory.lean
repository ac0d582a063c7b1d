import KernelMemVirt.Gc.HashMap
import KernelMemVirt.Gc.Mutator

/-!
# The hash map in memory

The hash map of `main.c` on the heap of `alloc.c`: each field is an access to memory, each object
comes from `gcmalloc`, and each reference is stored with `doWriteRef`.

A `MapLayout` says where the maps, the arrays and the nodes of a `MapState` are.
`Represents L r s` says that the memory of `r` holds the state `s` there: each field is a
`Cell` with its place and its content, and cells do not overlap.

* `Represents.store` is a store to one cell.
* `Represents.grows` and `Represents.add` are the new objects.
* The loads and stores of the program are instances, one for each kind of cell.
-/

namespace KernelMemVirt.Gc

open ByteMem StateLogic

/-! ## The source

The offsets of the fields: `nodes`, `mod` and `nb_elment` of a map are at 0, 8 and 12, `next` and
`value` of a node at 0 and 8. -/

namespace Mutator

/-- `new_hashmap`. -/
def newHashmap (os : LowMmap) : Mutator Nat := do
  let res ← gcmalloc os 16
  store32 (res + 8) 3
  doWriteRef res do
    let mod ← load32 (res + 8)
    gcmalloc os (mod * 8)
  return res

/-- `&nodes[i]`. -/
def elementAddr (nodes : Nat) (i : Int32) : Nat :=
  (BitVec.ofNat 64 nodes + 8 * i.signExtend 64).toNat

/-- `&hm->nodes[value % hm->mod]`. -/
def bucket (hm : Nat) (value : Int32) : Mutator Nat := do
  let nodes ← load64 hm
  let mod ← load32 (hm + 8)
  if mod = 0 then throw .fault else return elementAddr nodes (value.srem mod)

/-- The walk along a chain: `none` if a node with the value is found, or the address of the null
pointer at its end. -/
def findEnd (value : Int32) : Nat → Nat → Mutator (Option Nat)
  | 0, _ => throw .outOfFuel
  | fuel + 1, cur => do
    let elmt ← load64 cur
    if elmt = 0 then return some cur
    else
      let found ← load32 (elmt + 8)
      if found = value then return none else findEnd value fuel elmt

/-- `has_elmt`. -/
def hasElmt (fuel hm : Nat) (value : Int32) : Mutator Int32 := do
  let cur ← bucket hm value
  match ← findEnd value fuel cur with
  | none => return 1
  | some _ => return 0

/-- `recurse_apply`. -/
def recurseApply (func : Nat → Mutator Unit) : Nat → Nat → Mutator Unit
  | 0, _ => throw .outOfFuel
  | fuel + 1, place => do
    let elmt ← load64 place
    if elmt = 0 then return ()
    else
      recurseApply func fuel elmt
      let elmt ← load64 place
      func elmt

/-- The loop of `hashmap_apply`, from `i` on. -/
def applyLoop (func : Nat → Mutator Unit) (fuel hm : Nat) : Nat → Int32 → Mutator Unit
  | 0, _ => throw .outOfFuel
  | turns + 1, i => do
    let mod ← load32 (hm + 8)
    if i.slt mod then
      let nodes ← load64 hm
      recurseApply func fuel (elementAddr nodes i)
      applyLoop func fuel hm turns (i + 1)
    else return ()

/-- `hashmap_apply`. -/
def hashmapApply (func : Nat → Mutator Unit) (fuel hm : Nat) : Mutator Unit :=
  applyLoop func fuel hm (2 ^ 31) 0

/-- The stores of `hash` for a new element: it is linked at the end of its chain. -/
def link (hm elmt cur : Nat) : Mutator Unit := do
  store64 elmt 0
  doWriteRef cur (pure elmt)
  let count ← load32 (hm + 12)
  store32 (hm + 12) (count + 1)

/-- The stores of `hash` before a rehash: the helper takes the array, and the map a new one. -/
def grow (os : LowMmap) (hm helper : Nat) : Mutator Unit := do
  doWriteRef helper (load64 hm)
  let count ← load32 (hm + 12)
  store32 (helper + 12) count
  let mod ← load32 (hm + 8)
  store32 (helper + 8) mod
  store32 (hm + 12) 0
  let mod ← load32 (hm + 8)
  store32 (hm + 8) (mod <<< 1)
  doWriteRef hm do
    let mod ← load32 (hm + 8)
    gcmalloc os (mod * 8)

/-- `hash`; a null helper is 0. -/
def hash (os : LowMmap) (fuel : Nat) : Nat → Nat → Nat → Nat → Mutator Int32
  | 0, _, _, _ => throw .outOfFuel
  | depth + 1, hm, elmt, helper => do
    let value ← load32 (elmt + 8)
    let cur ← bucket hm value
    match ← findEnd value fuel cur with
    | none => return 1
    | some cur =>
      link hm elmt cur
      let mod ← load32 (hm + 8)
      let count ← load32 (hm + 12)
      if (mod <<< 1).slt count then
        if helper = hm then throw .unexpected
        else
          grow os hm helper
          let func elmt := do
            let _ ← hash os fuel depth hm elmt 0
          hashmapApply func fuel helper
          return 0
      else return 0

end Mutator

/-! ## Where the objects are -/

/-- An object of the hash maps.  A node is its address. -/
inductive Item
  | map (m : MapId)
  | array (a : Nat)
  | node (n : Nat)
  deriving DecidableEq

/-- A field of an object. -/
inductive Cell
  | nodes (m : MapId)
  | mod (m : MapId)
  | count (m : MapId)
  | slot (a i : Nat)
  | next (n : Nat)
  | value (n : Nat)
  deriving DecidableEq

namespace Cell

def item : Cell → Item
  | nodes m | mod m | count m => .map m
  | slot a _ => .array a
  | next n | value n => .node n

def offset : Cell → Nat
  | nodes _ | next _ => 0
  | mod _ | value _ => 8
  | count _ => 12
  | slot _ i => 8 * i

def width : Cell → Nat
  | nodes _ | slot _ _ | next _ => 8
  | mod _ | count _ | value _ => 4

theorem width_pos (c : Cell) : 0 < c.width := by
  cases c <;> simp [width]

/-- Two fields of an object. -/
theorem offset_apart {c c' : Cell} (hitem : c.item = c'.item) (hne : c ≠ c') :
    c.offset + c.width ≤ c'.offset ∨ c'.offset + c'.width ≤ c.offset := by
  cases c <;> cases c' <;> simp_all [item, offset, width]
  omega

end Cell

/-- A pointer as a number. -/
def pointer : Option Nat → Nat
  | none => 0
  | some n => n

/-- The maps that are there, the addresses of the maps and the arrays, and the nodes. -/
structure MapLayout where
  maps : List MapId
  map : MapId → Nat
  array : Nat → Nat
  nodes : List Nat

namespace MapLayout

variable (L : MapLayout) (s : MapState Nat)

def base : Item → Nat
  | .map m => L.map m
  | .array a => L.array a
  | .node n => n

def Present : Item → Prop
  | .map m => m ∈ L.maps
  | .array a => a < s.heap.arrays
  | .node n => n ∈ L.nodes

def addr (c : Cell) : Nat := L.base c.item + c.offset

/-- What the program reads from a cell. -/
def content : Cell → Nat
  | .nodes m => L.array (s.map m).nodes
  | .mod m => (s.map m).mod.toNat
  | .count m => (s.map m).nbElment.toNat
  | .slot a i => pointer ((s.heap.array a).getD i none)
  | .next n => pointer (s.heap.next n)
  | .value n => (s.heap.value n).toNat

/-- The address of the place of a pointer. -/
def place : Place Nat → Nat
  | .slot a i => L.array a + 8 * i
  | .next n => n

/-- The place is in an object that is there. -/
def HasPlace : Place Nat → Prop
  | .slot a _ => a < s.heap.arrays
  | .next n => n ∈ L.nodes

end MapLayout

/-- The cell of a pointer. -/
def Place.cell : Place Nat → Cell
  | .slot a i => .slot a i
  | .next n => .next n

/-- The number of bytes of an object. -/
def MapState.size (s : MapState Nat) : Item → Nat
  | .map _ | .node _ => 16
  | .array a => 8 * (s.heap.array a).length

namespace MapLayout

variable (L : MapLayout) (s : MapState Nat)

/-- The cell is a field of an object that is there. -/
def Has (c : Cell) : Prop := L.Present s c.item ∧ c.offset + c.width ≤ s.size c.item

/-- Pointers lead to objects that are there. -/
structure Closed : Prop where
  nodes : ∀ m ∈ L.maps, (s.map m).nodes < s.heap.arrays
  slot : ∀ a < s.heap.arrays, ∀ n, some n ∈ s.heap.array a → n ∈ L.nodes
  next : ∀ n ∈ L.nodes, ∀ n', s.heap.next n = some n' → n' ∈ L.nodes

end MapLayout

/-- The arrays have the lengths that they had. -/
def SameShape (s s' : MapState Nat) : Prop :=
  s'.heap.arrays = s.heap.arrays ∧ ∀ a, (s'.heap.array a).length = (s.heap.array a).length

theorem SameShape.size {s s' : MapState Nat} (h : SameShape s s') (o : Item) :
    s'.size o = s.size o := by
  cases o with
  | map m => rfl
  | array a => exact congrArg (8 * ·) (h.2 a)
  | node n => rfl

theorem SameShape.present {s s' : MapState Nat} (h : SameShape s s') (L : MapLayout) (o : Item) :
    L.Present s' o ↔ L.Present s o := by
  cases o with
  | map m => rfl
  | array a =>
    unfold MapLayout.Present
    rw [h.1]
  | node n => rfl

/-- The memory of `r` holds the state `s`. -/
structure Represents (L : MapLayout) (r : HeapRun) (s : MapState Nat) : Prop where
  inv : MutatorInv r
  object : ∀ o, L.Present s o → r.HasObject (L.base o) (s.size o)
  distinct : ∀ o o', L.Present s o → L.Present s o' → L.base o = L.base o' → o = o'
  read : ∀ c, L.Has s c → (readBytes r.heap.mem (L.addr c) c.width).toNat = L.content s c
  closed : L.Closed s

namespace Represents

variable {os : LowMmap} {L : MapLayout} {r r' : HeapRun} {s s' : MapState Nat} {c c' : Cell}

theorem inObject (h : Represents L r s) (hc : L.Has s c) : r.InObject (L.addr c) c.width :=
  (h.object _ hc.1).inObject (Nat.le_add_right _ _)
    (by unfold MapLayout.addr; have := hc.2; omega)

/-- Two cells do not overlap. -/
theorem apart (h : Represents L r s) (hc : L.Has s c) (hc' : L.Has s c') (hne : c ≠ c') :
    Apart (L.addr c) c.width (L.addr c') c'.width := by
  have hend := hc.2
  have hend' := hc'.2
  unfold Apart MapLayout.addr
  by_cases hitem : c.item = c'.item
  · have hoff := Cell.offset_apart hitem hne
    rw [hitem]
    omega
  · have hbase : L.base c.item ≠ L.base c'.item := fun heq =>
      hitem (h.distinct _ _ hc.1 hc'.1 heq)
    have hsep := h.inv.apart (h.object _ hc.1) (h.object _ hc'.1) hbase
    unfold Apart at hsep
    omega

/-- A store to a cell. -/
theorem store (h : Represents L r s) (hc : L.Has s c) (v : BitVec (8 * c.width))
    (hshape : SameShape s s') (hself : v.toNat = L.content s' c)
    (hother : ∀ c', c' ≠ c → L.content s' c' = L.content s c') (hclosed : L.Closed s') :
    Represents L (r.stored (L.addr c) c.width v) s' := by
  have hlo : L.base c.item ≤ L.addr c := Nat.le_add_right _ _
  have hhi : L.addr c + c.width ≤ L.base c.item + s.size c.item := by
    have := hc.2
    unfold MapLayout.addr
    omega
  refine ⟨h.inv.stored (h.object _ hc.1) hlo hhi v, fun o ho => ?_, fun o o' ho ho' => ?_,
    fun c' hc' => ?_, hclosed⟩
  · rw [hshape.size]
    exact (h.object o ((hshape.present L o).mp ho)).stored v
  · exact h.distinct o o' ((hshape.present L o).mp ho) ((hshape.present L o').mp ho')
  · have hold : L.Has s c' := by
      unfold MapLayout.Has at hc' ⊢
      rwa [hshape.size, hshape.present] at hc'
    by_cases heq : c' = c
    · subst heq
      rw [MutatorInv.read_stored_self, hself]
    · rw [MutatorInv.read_stored_of_apart (h.apart hold hc heq), h.read c' hold, hother c' heq]

/-- A store to an object of none of the maps. -/
theorem stored_other (h : Represents L r s) {p n a k : Nat} (hp : r.HasObject p n)
    (hnot : ∀ o, L.Present s o → L.base o ≠ p) (hlo : p ≤ a) (hhi : a + k ≤ p + n)
    (v : BitVec (8 * k)) : Represents L (r.stored a k v) s := by
  refine ⟨h.inv.stored hp hlo hhi v, fun o ho => (h.object o ho).stored v, h.distinct,
    fun c hc => ?_, h.closed⟩
  have hsep := h.inv.apart (h.object _ hc.1) hp (hnot _ hc.1)
  have hend := hc.2
  rw [MutatorInv.read_stored_of_apart (by unfold Apart MapLayout.addr at *; omega)]
  exact h.read c hc

/-- New objects do not disturb the maps. -/
theorem grows (h : Represents L r s) (hinv : MutatorInv r') (hgrows : Grows r r') :
    Represents L r' s := by
  refine ⟨hinv, fun o ho => (hgrows _ _ (h.object o ho)).1, h.distinct, fun c hc => ?_, h.closed⟩
  have hread : readBytes r'.heap.mem (L.addr c) c.width = readBytes r.heap.mem (L.addr c) c.width :=
    hgrows.readBytes (h.object _ hc.1) (Nat.le_add_right _ _)
      (by unfold MapLayout.addr; have := hc.2; omega)
  rw [hread]
  exact h.read c hc

/-! ### Loads -/

section Loads

open Mutator

variable {m : MapId} {n : Nat}

theorem has_nodes (s : MapState Nat) (hm : m ∈ L.maps) : L.Has s (.nodes m) :=
  ⟨hm, show 0 + 8 ≤ 16 by decide⟩

theorem has_mod (s : MapState Nat) (hm : m ∈ L.maps) : L.Has s (.mod m) :=
  ⟨hm, show 8 + 4 ≤ 16 by decide⟩

theorem has_count (s : MapState Nat) (hm : m ∈ L.maps) : L.Has s (.count m) :=
  ⟨hm, show 12 + 4 ≤ 16 by decide⟩

theorem has_next (s : MapState Nat) (hn : n ∈ L.nodes) : L.Has s (.next n) :=
  ⟨hn, show 0 + 8 ≤ 16 by decide⟩

theorem has_value (s : MapState Nat) (hn : n ∈ L.nodes) : L.Has s (.value n) :=
  ⟨hn, show 8 + 4 ≤ 16 by decide⟩

theorem wp_nodes (h : Represents L r s) (hm : m ∈ L.maps) {Q : Nat → HeapRun → Prop} :
    wp NoMemory (load64 (L.map m)) Q r ↔ Q (L.array (s.map m).nodes) r := by
  have hread : (read64 r.heap.mem (L.map m)).toNat = _ := h.read _ (has_nodes s hm)
  exact (wp_load64 (h.inObject (has_nodes s hm))).trans
    (iff_of_eq (congrArg (fun x => Q x r) hread))

theorem wp_mod (h : Represents L r s) (hm : m ∈ L.maps) {Q : Int32 → HeapRun → Prop} :
    wp NoMemory (load32 (L.map m + 8)) Q r ↔ Q (s.map m).mod r := by
  have hread : read32 r.heap.mem (L.map m + 8) = (s.map m).mod :=
    BitVec.eq_of_toNat_eq (h.read _ (has_mod s hm))
  exact (wp_load32 (h.inObject (has_mod s hm))).trans
    (iff_of_eq (congrArg (fun x => Q x r) hread))

theorem wp_count (h : Represents L r s) (hm : m ∈ L.maps) {Q : Int32 → HeapRun → Prop} :
    wp NoMemory (load32 (L.map m + 12)) Q r ↔ Q (s.map m).nbElment r := by
  have hread : read32 r.heap.mem (L.map m + 12) = (s.map m).nbElment :=
    BitVec.eq_of_toNat_eq (h.read _ (has_count s hm))
  exact (wp_load32 (h.inObject (has_count s hm))).trans
    (iff_of_eq (congrArg (fun x => Q x r) hread))

theorem wp_value (h : Represents L r s) (hn : n ∈ L.nodes) {Q : Int32 → HeapRun → Prop} :
    wp NoMemory (load32 (n + 8)) Q r ↔ Q (s.heap.value n) r := by
  have hread : read32 r.heap.mem (n + 8) = s.heap.value n :=
    BitVec.eq_of_toNat_eq (h.read _ (has_value s hn))
  exact (wp_load32 (h.inObject (has_value s hn))).trans
    (iff_of_eq (congrArg (fun x => Q x r) hread))

theorem node_object (h : Represents L r s) (hn : n ∈ L.nodes) : r.HasObject n 16 :=
  h.object (.node n) hn

theorem array_object (h : Represents L r s) {a : Nat} (ha : a < s.heap.arrays) :
    r.HasObject (L.array a) (8 * (s.heap.array a).length) :=
  h.object (.array a) ha

theorem array_bound (h : Represents L r s) {a : Nat} (ha : a < s.heap.arrays) :
    L.array a + 8 * (s.heap.array a).length ≤ 2 ^ 32 :=
  (h.inv.bound (h.array_object ha)).2

theorem node_ne_zero (h : Represents L r s) (hn : n ∈ L.nodes) : n ≠ 0 := by
  have hbound := (h.inv.bound (h.node_object hn)).1
  omega

variable {l : Place Nat} {p : Option Nat}

theorem place_eq (l : Place Nat) : L.place l = L.addr l.cell := by
  cases l <;> rfl

/-- The cell of a place that the program may load. -/
theorem has_place (hl : L.HasPlace s l) (hload : s.heap.load l = some p) :
    L.Has s l.cell ∧ l.cell.width = 8 ∧ L.content s l.cell = pointer p := by
  cases l with
  | slot a i =>
    have hload' : (s.heap.array a)[i]? = some p := hload
    have hi := (List.getElem?_eq_some_iff.mp hload').1
    refine ⟨⟨hl, ?_⟩, rfl, congrArg pointer ?_⟩
    · show 8 * i + 8 ≤ 8 * (s.heap.array a).length
      omega
    · show (s.heap.array a).getD i none = p
      rw [List.getD_eq_getElem?_getD, hload']
      rfl
  | next n => exact ⟨has_next s hl, rfl, congrArg pointer (Option.some.inj hload)⟩

theorem wp_place (h : Represents L r s) (hl : L.HasPlace s l) (hload : s.heap.load l = some p)
    {Q : Nat → HeapRun → Prop} : wp NoMemory (load64 (L.place l)) Q r ↔ Q (pointer p) r := by
  obtain ⟨hhas, hwidth, hcontent⟩ := has_place hl hload
  have hin := h.inObject hhas
  have hread := h.read _ hhas
  rw [hwidth, ← place_eq] at hin hread
  rw [wp_load64 hin, ← hcontent, ← hread]

/-- A pointer of the maps is null or the address of a node. -/
theorem load_closed (h : Represents L r s) (hl : L.HasPlace s l)
    (hload : s.heap.load l = some (some n)) : n ∈ L.nodes := by
  cases l with
  | slot a i => exact h.closed.slot a hl n (List.mem_of_getElem? hload)
  | next k => exact h.closed.next k hl n (Option.some.inj hload)

theorem elementAddr_eq {nodes : Nat} {i : Int32} (hnodes : nodes ≤ 2 ^ 32)
    (hi : i.toNat < 2 ^ 31) : elementAddr nodes i = nodes + 8 * i.toNat := by
  have hext : (i.signExtend 64).toNat = i.toNat := by
    rw [BitVec.signExtend_eq_setWidth_of_msb_false
      (BitVec.msb_eq_false_iff_two_mul_lt.mpr (by omega)), BitVec.toNat_setWidth]
    omega
  unfold elementAddr
  rw [BitVec.toNat_add, BitVec.toNat_mul, hext, BitVec.toNat_ofNat,
    show (8 : BitVec 64).toNat = 8 from rfl]
  omega

end Loads

/-! ### Stores -/

section Stores

open Mutator

variable {m : MapId} {n : Nat} {l : Place Nat} {p q : Option Nat} {Q : Unit → HeapRun → Prop}

theorem setMap_apply (s : MapState Nat) (m m' : MapId) (hm : HashMap) :
    (s.setMap m hm).map m' = if m' = m then hm else s.map m' :=
  Function.update_apply _ _ _ _

/-- A new value for one field of a map. -/
theorem store_map (h : Represents L r s) (hc : L.Has s c)
    (v : BitVec (8 * c.width)) {hm : HashMap} (hself : v.toNat = L.content (s.setMap m hm) c)
    (hother : ∀ c', c' ≠ c → c'.item = .map m → L.content (s.setMap m hm) c' = L.content s c')
    (hnodes : hm.nodes < s.heap.arrays) :
    Represents L (r.stored (L.addr c) c.width v) (s.setMap m hm) := by
  refine h.store hc v ⟨rfl, fun _ => rfl⟩ hself (fun c' hne => ?_) ⟨fun m' hm' => ?_,
    h.closed.slot, h.closed.next⟩
  · by_cases hitem' : c'.item = .map m
    · exact hother c' hne hitem'
    · cases c' with
      | nodes m' | mod m' | count m' =>
        have hm' : m' ≠ m := fun heq => hitem' (congrArg Item.map heq)
        simp [MapLayout.content, setMap_apply, hm']
      | slot a i | next n | value n => rfl
  · rw [setMap_apply]
    split
    · exact hnodes
    · exact h.closed.nodes m' hm'

theorem wp_set_mod (h : Represents L r s) (hm : m ∈ L.maps) {v : Int32}
    (hQ : ∀ r', Represents L r' (s.setMap m { s.map m with mod := v }) → Q () r') :
    wp NoMemory (store32 (L.map m + 8) v) Q r := by
  have hhas := has_mod s hm
  refine (wp_store32 (h.inObject hhas)).mpr (hQ _ (h.store_map hhas v ?_ ?_
    (h.closed.nodes m hm)))
  · simp only [MapLayout.content, setMap_apply, if_true]
    rfl
  · intro c' hne hitem
    cases c' <;> simp_all [MapLayout.content, setMap_apply, Cell.item]

theorem wp_set_count (h : Represents L r s) (hm : m ∈ L.maps) {v : Int32}
    (hQ : ∀ r', Represents L r' (s.setMap m { s.map m with nbElment := v }) → Q () r') :
    wp NoMemory (store32 (L.map m + 12) v) Q r := by
  have hhas := has_count s hm
  refine (wp_store32 (h.inObject hhas)).mpr (hQ _ (h.store_map hhas v ?_ ?_
    (h.closed.nodes m hm)))
  · simp only [MapLayout.content, setMap_apply, if_true]
    rfl
  · intro c' hne hitem
    cases c' <;> simp_all [MapLayout.content, setMap_apply, Cell.item]

theorem wp_set_nodes (h : Represents L r s) (hm : m ∈ L.maps) {a : Nat}
    (ha : a < s.heap.arrays)
    (hQ : ∀ r', Represents L r' (s.setMap m { s.map m with nodes := a }) → Q () r') :
    wp NoMemory (store64 (L.map m) (L.array a)) Q r := by
  have hhas := has_nodes s hm
  have hbound := h.array_bound ha
  refine (wp_store64 (h.inObject hhas)).mpr (hQ _ (h.store_map hhas _ ?_ ?_ ha))
  · simp only [MapLayout.content, setMap_apply, if_true]
    exact Nat.mod_eq_of_lt (by omega)
  · intro c' hne hitem
    cases c' <;> simp_all [MapLayout.content, setMap_apply, Cell.item]

theorem wp_set_value (h : Represents L r s) (hn : n ∈ L.nodes) {v : Int32}
    (hQ : ∀ r', Represents L r'
      { s with heap := { s.heap with value := Function.update s.heap.value n v } } → Q () r') :
    wp NoMemory (store32 (n + 8) v) Q r := by
  have hhas := has_value s hn
  refine (wp_store32 (h.inObject hhas)).mpr (hQ _ (h.store hhas v ⟨rfl, fun _ => rfl⟩ ?_ ?_
    ⟨h.closed.nodes, h.closed.slot, h.closed.next⟩))
  · exact (congrArg BitVec.toNat (Function.update_self n v s.heap.value)).symm
  · intro c' hne
    cases c' with
    | value k =>
      have hk : k ≠ n := fun heq => hne (congrArg Cell.value heq)
      simp [MapLayout.content, hk]
    | nodes _ | mod _ | count _ | slot _ _ | next _ => rfl

/-- The pointers of the maps after one has been stored. -/
theorem load_store_cases {j : Place Nat} (hload : (s.heap.store l p).load j = some q) :
    q = p ∨ s.heap.load j = some q := by
  by_cases hl : j = l
  · subst hl
    cases j with
    | slot a i =>
      have hslot : (Function.update s.heap.array a ((s.heap.array a).set i p) a)[i]? = some q :=
        hload
      rw [Function.update_self] at hslot
      have hi := (List.getElem?_eq_some_iff.mp hslot).1
      rw [List.getElem?_set_self (by simpa using hi)] at hslot
      exact .inl (Option.some.inj hslot).symm
    | next k =>
      have hnext : some (Function.update s.heap.next k p k) = some q := hload
      rw [Function.update_self] at hnext
      exact .inl (Option.some.inj hnext).symm
  · exact .inr ((load_store_of_ne hl).symm.trans hload)

theorem closed_store (h : L.Closed s) (hp : ∀ n, p = some n → n ∈ L.nodes) :
    L.Closed { s with heap := s.heap.store l p } := by
  refine ⟨fun m hm => ?_, fun a ha n hn => ?_, fun n hn n' hn' => ?_⟩
  · show (s.map m).nodes < (s.heap.store l p).arrays
    rw [store_arrays]
    exact h.nodes m hm
  · obtain ⟨i, hi⟩ := List.mem_iff_getElem?.mp hn
    rcases load_store_cases (j := .slot a i) hi with heq | hold
    · exact hp n heq.symm
    · exact h.slot a (store_arrays (h := s.heap) ▸ ha) n (List.mem_of_getElem? hold)
  · rcases load_store_cases (j := .next n) (congrArg some hn') with heq | hold
    · exact hp n' heq.symm
    · exact h.next n hn n' (Option.some.inj hold)

theorem sameShape_store : SameShape s { s with heap := s.heap.store l p } :=
  ⟨store_arrays, fun a => @length_store _ _ s.heap l p a⟩

theorem cell_injective {l l' : Place Nat} (h : l.cell = l'.cell) : l = l' := by
  cases l <;> cases l' <;> cases h <;> rfl

theorem content_cell (s : MapState Nat) (l : Place Nat) :
    L.content s l.cell = pointer ((s.heap.load l).getD none) := by
  cases l with
  | slot a i => exact congrArg pointer List.getD_eq_getElem?_getD
  | next n => rfl

/-- The content of the cells after a pointer has been stored. -/
theorem content_store (hload : s.heap.load l = some q) (c : Cell) :
    L.content { s with heap := s.heap.store l p } c =
      if c = l.cell then pointer p else L.content s c := by
  have hcell : ∀ l' : Place Nat, L.content { s with heap := s.heap.store l p } l'.cell =
      if l'.cell = l.cell then pointer p else L.content s l'.cell := by
    intro l'
    rw [content_cell, content_cell]
    by_cases hl : l' = l
    · rw [hl, if_pos rfl, show (s.heap.store l p).load l = some p from load_store_self hload]
      rfl
    · rw [if_neg fun heq => hl (cell_injective heq),
        show (s.heap.store l p).load l' = s.heap.load l' from load_store_of_ne hl]
  cases c with
  | slot a i => exact hcell (.slot a i)
  | next n => exact hcell (.next n)
  | value n =>
    rw [if_neg (by cases l <;> exact nofun)]
    exact congrArg (fun value => (value n).toNat) (store_value (h := s.heap))
  | nodes m | mod m | count m =>
    rw [if_neg (by cases l <;> exact nofun)]
    rfl

theorem wp_set_place (h : Represents L r s) (hl : L.HasPlace s l)
    (hload : s.heap.load l = some q) (hp : ∀ n, p = some n → n ∈ L.nodes)
    (hQ : ∀ r', Represents L r' { s with heap := s.heap.store l p } → Q () r') :
    wp NoMemory (store64 (L.place l) (pointer p)) Q r := by
  obtain ⟨hhas, -, -⟩ := has_place hl hload
  have hbound : pointer p < 2 ^ 64 := by
    cases p with
    | none => exact Nat.two_pow_pos 64
    | some n =>
      have hnode := (h.inv.bound (h.node_object (hp n rfl))).2
      show n < 2 ^ 64
      omega
  have hself : (BitVec.ofNat 64 (pointer p)).toNat =
      L.content { s with heap := s.heap.store l p } l.cell := by
    rw [content_store hload, if_pos rfl]
    exact Nat.mod_eq_of_lt hbound
  have hother : ∀ c', c' ≠ l.cell →
      L.content { s with heap := s.heap.store l p } c' = L.content s c' := by
    intro c' hne
    rw [content_store hload, if_neg hne]
  cases l with
  | slot a i =>
    exact (wp_store64 (h.inObject hhas)).mpr (hQ _ (h.store hhas (BitVec.ofNat 64 (pointer p))
      sameShape_store hself hother (closed_store h.closed hp)))
  | next n =>
    exact (wp_store64 (h.inObject hhas)).mpr (hQ _ (h.store hhas (BitVec.ofNat 64 (pointer p))
      sameShape_store hself hother (closed_store h.closed hp)))

end Stores

/-! ### New objects -/

section Objects

variable {L' : MapLayout} {o : Item} {p : Nat}

/-- A new object becomes an object of the maps. -/
theorem add (h : Represents L r s) (hinv : MutatorInv r')
    (hpresent : ∀ o', L'.Present s' o' ↔ L.Present s o' ∨ o' = o)
    (hkeep : ∀ o', L.Present s o' → o' ≠ o ∧ L'.base o' = L.base o' ∧ s'.size o' = s.size o')
    (hgrows : ∀ o', L.Present s o' → r'.HasObject (L.base o') (s.size o') ∧
      ∀ a, L.base o' ≤ a → a < L.base o' + s.size o' → r'.heap.mem a = r.heap.mem a)
    (hobject : r'.HasObject (L'.base o) (s'.size o))
    (hfresh : ∀ o', L.Present s o' → L.base o' ≠ L'.base o)
    (hcontent : ∀ c, L.Has s c → L'.content s' c = L.content s c)
    (hnew : ∀ c, c.item = o → L'.Has s' c →
      (readBytes r'.heap.mem (L'.addr c) c.width).toNat = L'.content s' c)
    (hclosed : L'.Closed s') : Represents L' r' s' := by
  refine ⟨hinv, fun o' ho' => ?_, fun o₁ o₂ ho₁ ho₂ heq => ?_, fun c hc => ?_, hclosed⟩
  · rcases (hpresent o').mp ho' with hold | rfl
    · rw [(hkeep o' hold).2.1, (hkeep o' hold).2.2]
      exact (hgrows o' hold).1
    · exact hobject
  · rcases (hpresent o₁).mp ho₁ with hold₁ | rfl <;> rcases (hpresent o₂).mp ho₂ with hold₂ | rfl
    · rw [(hkeep o₁ hold₁).2.1, (hkeep o₂ hold₂).2.1] at heq
      exact h.distinct o₁ o₂ hold₁ hold₂ heq
    · rw [(hkeep o₁ hold₁).2.1] at heq
      exact absurd heq (hfresh o₁ hold₁)
    · rw [(hkeep o₂ hold₂).2.1] at heq
      exact absurd heq.symm (hfresh o₂ hold₂)
    · rfl
  · rcases (hpresent c.item).mp hc.1 with hold | hitem
    · obtain ⟨-, hbase, hsize⟩ := hkeep c.item hold
      have hhas : L.Has s c := ⟨hold, hsize ▸ hc.2⟩
      have haddr : L'.addr c = L.addr c := congrArg (· + c.offset) hbase
      have hend := hhas.2
      have hbytes : readBytes r'.heap.mem (L.addr c) c.width =
          readBytes r.heap.mem (L.addr c) c.width :=
        readBytes_congr fun x hlo hhi => (hgrows c.item hold).2 x
          (by unfold MapLayout.addr at hlo; omega) (by unfold MapLayout.addr at hhi; omega)
      rw [haddr, hbytes, h.read c hhas, hcontent c hhas]
    · exact hnew c hitem hc

/-- A new object is zeroed, and so are its fields. -/
theorem read_zeroed {n : Nat} (hnew : NewObject r r' (L'.base o) n) (hc : c.item = o)
    (hn : c.offset + c.width ≤ n) : (readBytes r'.heap.mem (L'.addr c) c.width).toNat = 0 := by
  subst hc
  rw [readBytes_eq_zero fun x hlo hhi => hnew.zeroed x
    (by unfold MapLayout.addr at hlo; omega) (by unfold MapLayout.addr at hhi; omega)]
  rfl

theorem base_ne (h : Represents L r s) {n : Nat} (hnew : NewObject r r' p n) {o : Item}
    (ho : L.Present s o) : L.base o ≠ p :=
  hnew.fresh _ _ (h.object o ho)

/-- A node from `gcmalloc`. -/
theorem new_node (h : Represents L r s) (hinv : MutatorInv r')
    (hnew : NewObject r r' p 16) :
    Represents { L with nodes := p :: L.nodes } r'
      { s with heap := { s.heap with
          next := Function.update s.heap.next p none
          value := Function.update s.heap.value p 0 } } := by
  have hne : ∀ n ∈ L.nodes, n ≠ p := fun n hn => h.base_ne hnew (o := .node n) hn
  refine h.add (o := .node p) hinv (fun o' => ?_) (fun o' ho' => ⟨?_, ?_, ?_⟩)
    (fun o' ho' => hnew.grows _ _ (h.object o' ho')) hnew.object (fun o' ho' => h.base_ne hnew ho')
    (fun c hc => ?_) (fun c hitem hc => ?_) ⟨h.closed.nodes, fun a ha n hn => ?_,
    fun n hn n' hn' => ?_⟩
  · cases o' <;> simp [MapLayout.Present, or_comm]
  · rintro rfl
    exact hne p ho' rfl
  · cases o' <;> rfl
  · cases o' <;> rfl
  · cases c with
    | next n => simp [MapLayout.content, hne n hc.1]
    | value n => simp [MapLayout.content, hne n hc.1]
    | nodes _ | mod _ | count _ | slot _ _ => rfl
  · have hend := hc.2
    rw [hitem] at hend
    rw [read_zeroed (o := .node p) hnew hitem hend]
    cases c <;> cases hitem <;> simp [MapLayout.content, pointer]
  · exact List.mem_cons_of_mem _ (h.closed.slot a ha n hn)
  · dsimp only at hn' ⊢
    rcases List.mem_cons.mp hn with rfl | hold
    · rw [Function.update_self] at hn'
      cases hn'
    · rw [Function.update_of_ne (hne n hold)] at hn'
      exact List.mem_cons_of_mem _ (h.closed.next n hold n' hn')

/-- An array from `gcmalloc`. -/
theorem new_array (h : Represents L r s) (hinv : MutatorInv r') {size : Int32}
    (hsize : size.toNat % 8 = 0) (hnew : NewObject r r' p size.toNat) :
    Represents { L with array := Function.update L.array s.heap.arrays p } r'
      { s with heap := (s.heap.gcmalloc size).1 } := by
  have hself : 8 * (Function.update s.heap.array s.heap.arrays
      (List.replicate (size.toNat / 8) (none : Option Nat)) s.heap.arrays).length =
        size.toNat := by
    rw [Function.update_self, List.length_replicate]
    omega
  have hbase : Function.update L.array s.heap.arrays p s.heap.arrays = p :=
    Function.update_self _ _ _
  refine h.add (o := .array s.heap.arrays) hinv (fun o' => ?_) (fun o' ho' => ⟨?_, ?_, ?_⟩)
    (fun o' ho' => hnew.grows _ _ (h.object o' ho')) ?_ (fun o' ho' => ?_)
    (fun c hc => ?_) (fun c hitem hc => ?_) ⟨fun m hm => ?_, fun a ha n hn => ?_, h.closed.next⟩
  · cases o' with
    | map m | node n => simp [MapLayout.Present]
    | array a =>
      refine Nat.lt_succ_iff_lt_or_eq.trans (or_congr_right ?_)
      exact ⟨fun heq => heq ▸ rfl, fun heq => Item.array.inj heq⟩
  · rintro rfl
    exact Nat.lt_irrefl _ ho'
  · cases o' with
    | map m | node n => rfl
    | array a => exact Function.update_of_ne (Nat.ne_of_lt ho') _ _
  · cases o' with
    | map m | node n => rfl
    | array a =>
      exact congrArg (8 * List.length ·) (Function.update_of_ne (Nat.ne_of_lt ho') _ _)
  · have hobject := hnew.object
    rwa [← hself, ← hbase] at hobject
  · exact fun heq => h.base_ne hnew ho' (heq.trans hbase)
  · cases c with
    | nodes m => exact Function.update_of_ne (Nat.ne_of_lt (h.closed.nodes m hc.1)) _ _
    | slot a i =>
      exact congrArg (fun l : List (Option Nat) => pointer (l.getD i none))
        (Function.update_of_ne (Nat.ne_of_lt hc.1) _ _)
    | mod _ | count _ | next _ | value _ => rfl
  · have hend := hc.2
    rw [hitem] at hend
    rw [read_zeroed (o := .array s.heap.arrays) (hbase.symm ▸ hnew) hitem (hself ▸ hend)]
    cases c <;> cases hitem
    simp only [MapLayout.content, NodeHeap.gcmalloc, Function.update_self,
      List.getD_eq_getElem?_getD, List.getElem?_replicate]
    split <;> rfl
  · exact Nat.lt_succ_of_lt (h.closed.nodes m hm)
  · have hin : some n ∈ Function.update s.heap.array s.heap.arrays
        (List.replicate (size.toNat / 8) none) a := hn
    rcases Nat.lt_succ_iff_lt_or_eq.mp ha with hold | rfl
    · rw [Function.update_of_ne (Nat.ne_of_lt hold)] at hin
      exact h.closed.slot a hold n hin
    · rw [Function.update_self] at hin
      cases List.eq_of_mem_replicate hin

/-- An object with the fields of a map becomes a map. -/
theorem new_map (h : Represents L r s) {m : MapId} (hm : m ∉ L.maps) {hm' : HashMap}
    (hobject : r.HasObject p 16) (hne : ∀ o, L.Present s o → L.base o ≠ p)
    (hnodes : (read64 r.heap.mem p).toNat = L.array hm'.nodes) (harray : hm'.nodes < s.heap.arrays)
    (hmod : read32 r.heap.mem (p + 8) = hm'.mod)
    (hcount : read32 r.heap.mem (p + 12) = hm'.nbElment) :
    Represents { L with maps := m :: L.maps, map := Function.update L.map m p } r
      (s.setMap m hm') := by
  have hbase : Function.update L.map m p m = p := Function.update_self _ _ _
  have hmne : ∀ m' ∈ L.maps, m' ≠ m := fun m' hm' heq => hm (heq ▸ hm')
  refine h.add (o := .map m) h.inv (fun o' => ?_) (fun o' ho' => ⟨?_, ?_, ?_⟩)
    (fun o' ho' => ⟨h.object o' ho', fun _ _ _ => rfl⟩)
    (show r.HasObject (Function.update L.map m p m) 16 from hbase.symm ▸ hobject)
    (fun o' ho' heq => hne o' ho' (heq.trans hbase)) (fun c hc => ?_) (fun c hitem hc => ?_)
    ⟨fun m' hm' => ?_, h.closed.slot, h.closed.next⟩
  · cases o' <;> simp [MapLayout.Present, or_comm, MapState.setMap]
  · rintro rfl
    exact hm ho'
  · cases o' with
    | map m' => exact Function.update_of_ne (hmne m' ho') _ _
    | array a | node n => rfl
  · cases o' <;> rfl
  · cases c with
    | nodes m' | mod m' | count m' =>
      simp [MapLayout.content, setMap_apply, hmne m' hc.1]
    | slot _ _ | next _ | value _ => rfl
  · have hfields : ∀ k n, readBytes r.heap.mem (Function.update L.map m p m + k) n =
        readBytes r.heap.mem (p + k) n := fun k n => by rw [hbase]
    cases c <;> cases hitem <;> refine (congrArg BitVec.toNat (hfields _ _)).trans ?_ <;>
      simp only [MapLayout.content, setMap_apply, if_true]
    · exact hnodes
    · exact congrArg BitVec.toNat hmod
    · exact congrArg BitVec.toNat hcount
  · rw [setMap_apply]
    split
    · exact harray
    · next hother =>
      exact h.closed.nodes m' ((List.mem_cons.mp hm').resolve_left hother)

end Objects

end Represents

end KernelMemVirt.Gc
