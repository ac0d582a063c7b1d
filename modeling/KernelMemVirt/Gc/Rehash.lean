import KernelMemVirt.Gc.HashMap
import Mathlib.Data.List.Dedup
import Mathlib.Data.List.Perm.Subperm

/-!
# Rehash, and runs of the hash map

The walk of `hashmap_apply` visits the tail of a chain before its first node, so the
call of `hash` on a node may overwrite the node's `next`.  The nodes moved so far are the
nodes of the new map (`Moves`, `recurseApply_moves`), and what is left of the old chains is
not touched.  The new array has twice as many chains as the old one, which is why a call
during the walk never finds the map full.
-/

namespace KernelMemVirt.Gc

open LinkedChain Transition

section Moving

variable {N : Type} {m : MapId} {s s' s'' : MapState N} {ns ns' : List N}

/-- Nodes have been linked into the map `m`, and nothing else has changed. -/
structure Moves (m : MapId) (s s' : MapState N) (ns : List N) : Prop where
  frame : Frame s.heap s'.heap (s.map m).nodes ns
  nodes : (s'.map m).nodes = (s.map m).nodes
  mod : (s'.map m).mod = (s.map m).mod
  other : ∀ m', m' ≠ m → s'.map m' = s.map m'

theorem Moves.refl (m : MapId) (s : MapState N) (ns : List N) : Moves m s s ns :=
  ⟨⟨rfl, rfl, fun _ _ => rfl, fun _ _ => rfl⟩, rfl, rfl, fun _ _ => rfl⟩

theorem Moves.mono (h : Moves m s s' ns) (hsub : ns ⊆ ns') : Moves m s s' ns' :=
  ⟨⟨h.frame.arrays, h.frame.value, h.frame.array, fun n hn =>
    h.frame.next n fun hmem => hn (hsub hmem)⟩, h.nodes, h.mod, h.other⟩

theorem Moves.trans (h : Moves m s s' ns) (h' : Moves m s' s'' ns) : Moves m s s'' ns where
  frame := {
    arrays := h'.frame.arrays.trans h.frame.arrays
    value := h'.frame.value.trans h.frame.value
    array := fun b hb => (h'.frame.array b (h.nodes.symm ▸ hb)).trans (h.frame.array b hb)
    next := fun n hn => (h'.frame.next n hn).trans (h.frame.next n hn) }
  nodes := h'.nodes.trans h.nodes
  mod := h'.mod.trans h.mod
  other := fun m' hm' => (h'.other m' hm').trans (h.other m' hm')

/-- A place outside the map keeps its pointer. -/
theorem Moves.load (h : Moves m s s' ns) {l : Place N}
    (hslot : ∀ i, l ≠ .slot (s.map m).nodes i) (hnext : ∀ n ∈ ns, l ≠ .next n) :
    s'.heap.load l = s.heap.load l := by
  cases l with
  | slot a i =>
    have ha : a ≠ (s.map m).nodes := fun heq => hslot i (heq ▸ rfl)
    exact congrArg (fun array => array[i]?) (h.frame.array a ha)
  | next n => exact congrArg some (h.frame.next n fun hn => hnext n hn rfl)

theorem moves_link [DecidableEq N] {e : N} :
    Moves m s (link s m e (target s m ns e)) (ns ++ [e]) := by
  refine ⟨frame_link (List.mem_append_right _ List.mem_cons_self) ?_, ?_, ?_, fun m' hm' => ?_⟩
  · rcases target_cases with hend | ⟨n, hn, hend⟩
    · exact Or.inl hend
    · exact Or.inr ⟨n, List.mem_append_left _ hn, hend⟩
  · rw [link_map_self]
  · rw [link_map_self]
  · exact Function.update_of_ne hm' _ _

end Moving

section Grow

variable {N : Type} {ms : List N} {s : MapState N} {m other : MapId}

theorem grow_map_other (hother : other ≠ m) : (grow s m other).map other = s.map m :=
  (Function.update_of_ne hother _ _).trans (Function.update_self _ _ _)

theorem grow_map_self : (grow s m other).map m = ⟨s.heap.arrays, (s.map m).mod <<< 1, 0⟩ :=
  Function.update_self _ _ _

/-- The length of the new array, and its size in bytes. -/
theorem toNat_doubled {mod : Int32} (hmod : 2 * mod.toNat < 2 ^ 29) :
    (mod <<< 1).toNat = 2 * mod.toNat ∧ (mod <<< 1 * 8).toNat / 8 = 2 * mod.toNat := by
  have hshift : (mod <<< 1).toNat = 2 * mod.toNat := by
    rw [BitVec.toNat_shiftLeft, Nat.shiftLeft_eq]
    omega
  refine ⟨hshift, ?_⟩
  rw [BitVec.toNat_mul, hshift, show (8 : Int32).toNat = 8 from rfl]
  omega

/-- The new array is empty. -/
theorem grow_holds (hpos : 0 < (s.map m).mod.toNat) (hmod : 2 * (s.map m).mod.toNat < 2 ^ 29) :
    Holds (grow s m other).heap ((grow s m other).map m) [] := by
  obtain ⟨hshift, hsize⟩ := toNat_doubled hmod
  have harray : (grow s m other).heap.array s.heap.arrays =
      List.replicate ((s.map m).mod <<< 1).toNat none := by
    apply (Function.update_self _ _ _).trans
    rw [hsize, hshift]
  rw [grow_map_self]
  refine ⟨?_, ?_, Nat.lt_succ_self _, ?_, fun i hi => ?_, fun n hn => ?_, List.nodup_nil, rfl⟩
  · dsimp only
    omega
  · dsimp only
    omega
  · dsimp only
    rw [harray, List.length_replicate]
  · show ((grow s m other).heap.array s.heap.arrays)[i]? = some none
    rw [harray, List.getElem?_replicate, if_pos hi]
  · exact absurd hn List.not_mem_nil

/-- The old chains are not touched. -/
theorem grow_chain (hholds : Holds s.heap (s.map m) ms) {i : Nat} (hi : i < (s.map m).mod.toNat) :
    Chain (grow s m other).heap.load .next (.slot (s.map m).nodes i)
      (inBucket s.heap.value (s.map m).mod.toNat i ms) := by
  refine chain_congr (hholds.chain i hi) ?_ fun n _ => rfl
  have hne : (s.map m).nodes ≠ s.heap.arrays := Nat.ne_of_lt hholds.array_lt
  exact congrArg (fun array => array[i]?) (Function.update_of_ne hne _ _)

end Grow

section Rehash

variable {N : Type} [DecidableEq N] {m : MapId} {fuel depth : Nat}

/-- The function that the walk calls. -/
def moveNode (fuel depth : Nat) (m : MapId) (elmt : N) (s : MapState N) : Option (MapState N) :=
  (hash fuel depth m elmt none s).map Prod.fst

/-- A chain outside the map is moved, its last node first. -/
theorem recurseApply_moves {moved ns : List N} {l : Place N} {turns : Nat} {s : MapState N}
    (hholds : Holds s.heap (s.map m) moved) (hchain : Chain s.heap.load .next l ns)
    (hslot : ∀ i, l ≠ .slot (s.map m).nodes i) (hnext : ∀ n ∈ moved ++ ns, l ≠ .next n)
    (hsign : ∀ n ∈ ns, (s.heap.value n).toNat < 2 ^ 31)
    (hdistinct : ((moved ++ ns).map s.heap.value).Nodup)
    (hroom : moved.length + ns.length ≤ 2 * (s.map m).mod.toNat)
    (hfuel : moved.length + ns.length ≤ fuel) (hturns : ns.length < turns) :
    ∃ s', recurseApply (moveNode fuel (depth + 1) m) turns l s = some s' ∧
      Holds s'.heap (s'.map m) (moved ++ ns.reverse) ∧ Moves m s s' (moved ++ ns) := by
  induction ns generalizing l turns with
  | nil =>
    obtain ⟨turns, rfl⟩ := Nat.exists_eq_succ_of_ne_zero (Nat.ne_of_gt hturns)
    refine ⟨s, ?_, ?_, Moves.refl _ _ _⟩
    · rw [recurseApply, show s.heap.load l = some none from hchain]
    · rw [List.reverse_nil, List.append_nil]
      exact hholds
  | cons n ns ih =>
    obtain ⟨turns, rfl⟩ := Nat.exists_eq_succ_of_ne_zero (Nat.ne_of_gt (Nat.zero_lt_of_lt hturns))
    rw [List.length_cons] at hroom hfuel hturns
    have hsub : moved ++ ns ⊆ moved ++ n :: ns := by
      intro k hk
      rcases List.mem_append.mp hk with hk | hk
      · exact List.mem_append_left _ hk
      · exact List.mem_append_right _ (List.mem_cons_of_mem n hk)
    have hperm : (moved ++ n :: ns).Perm (n :: (moved ++ ns)) := List.perm_middle
    have hdistinct' := (hperm.map s.heap.value).nodup_iff.mp hdistinct
    rw [List.map_cons, List.nodup_cons] at hdistinct'
    have hn : n ∉ moved ++ ns := fun hmem => hdistinct'.1 (List.mem_map_of_mem hmem)
    obtain ⟨s₁, htail, hholds₁, hmoves₁⟩ := @ih (.next n) turns hchain.2
      (fun i => (Place.slot_ne_next _ _ n).symm)
      (fun k hk heq => hn (Place.next.inj heq ▸ hk))
      (fun k hk => hsign k (List.mem_cons_of_mem n hk)) hdistinct'.2 (by omega) (by omega)
      (by omega)
    have hload : s₁.heap.load l = some (some n) :=
      (hmoves₁.load hslot fun k hk => hnext k (hsub hk)).trans hchain.1
    have hvalue : s₁.heap.value = s.heap.value := hmoves₁.frame.value
    have hlen : (moved ++ ns.reverse).length = moved.length + ns.length := by
      rw [List.length_append, List.length_reverse]
    have hmem : ∀ {k}, k ∈ moved ++ ns.reverse ↔ k ∈ moved ++ ns := by
      intro k
      rw [List.mem_append, List.mem_append, List.mem_reverse]
    have hnew : s₁.heap.value n ∉ (moved ++ ns.reverse).map s₁.heap.value := by
      rw [hvalue]
      intro hin
      obtain ⟨k, hk, heq⟩ := List.mem_map.mp hin
      exact hdistinct'.1 (List.mem_map.mpr ⟨k, hmem.mp hk, heq⟩)
    have hsign' : (s₁.heap.value n).toNat < 2 ^ 31 := by
      rw [hvalue]
      exact hsign n List.mem_cons_self
    have hcall := @Holds.hash_of_room _ _ s₁ m _ n fuel depth none hholds₁ (by omega) hsign' hnew
      (by rw [hlen, hmoves₁.mod]; omega)
    refine ⟨link s₁ m n (target s₁ m (moved ++ ns.reverse) n), ?_, ?_,
      (hmoves₁.mono hsub).trans ?_⟩
    · rw [recurseApply, hchain.1]
      simp only [bind, Option.bind, htail, hload, moveNode, hcall]
      rfl
    · rw [List.reverse_cons, ← List.append_assoc]
      exact hholds₁.link hsign' hnew
    · refine moves_link.mono fun k hk => ?_
      rcases List.mem_append.mp hk with hk | hk
      · exact hsub (hmem.mp hk)
      · rw [List.mem_singleton.mp hk]
        exact List.mem_append_right _ List.mem_cons_self

/-- The walk moves the chains from the `k`-th on. -/
theorem applyLoop_moves {other : MapId} (hother : other ≠ m) {moved ms : List N}
    {k turns : Nat} {s : MapState N} (hholds : Holds s.heap (s.map m) moved)
    (harray : (s.map other).nodes ≠ (s.map m).nodes)
    (hpos : 0 < (s.map other).mod.toNat) (hmod : (s.map other).mod.toNat < 2 ^ 29)
    (hchain : ∀ i, k ≤ i → i < (s.map other).mod.toNat →
      Chain s.heap.load .next (.slot (s.map other).nodes i)
        (inBucket s.heap.value (s.map other).mod.toNat i ms))
    (hmoved : ∀ n, n ∈ moved ↔
      n ∈ ms ∧ (s.heap.value n).toNat % (s.map other).mod.toNat < k)
    (hsign : ∀ n ∈ ms, (s.heap.value n).toNat < 2 ^ 31)
    (hdistinct : (ms.map s.heap.value).Nodup)
    (hroom : ms.length ≤ 2 * (s.map m).mod.toNat) (hfuel : ms.length < fuel)
    (hk : k ≤ (s.map other).mod.toNat) (hturns : (s.map other).mod.toNat - k < turns) :
    ∃ s' moved', applyLoop (moveNode fuel (depth + 1) m) fuel other turns (BitVec.ofNat 32 k) s =
        some s' ∧
      Holds s'.heap (s'.map m) moved' ∧ (∀ n, n ∈ moved' ↔ n ∈ ms) ∧ Moves m s s' ms := by
  induction turns generalizing k s moved with
  | zero => omega
  | succ turns ih =>
    have hindex : (BitVec.ofNat 32 k).toNat = k := Nat.mod_eq_of_lt (by omega)
    have htest : (BitVec.ofNat 32 k).slt (s.map other).mod ↔ k < (s.map other).mod.toNat := by
      rw [slt_iff_of_lt (by omega) (by omega), hindex]
    rw [applyLoop]
    by_cases hlt : k < (s.map other).mod.toNat
    · rw [if_pos (htest.mpr hlt), hindex]
      have hbucket : ∀ n, n ∈ inBucket s.heap.value (s.map other).mod.toNat k ms ↔
          n ∈ ms ∧ (s.heap.value n).toNat % (s.map other).mod.toNat = k := by
        intro n
        rw [inBucket, List.mem_filter, decide_eq_true_iff]
      generalize hb : inBucket s.heap.value (s.map other).mod.toNat k ms = bucket at hbucket
      have hsub : moved ++ bucket ⊆ ms := by
        intro n hn
        rcases List.mem_append.mp hn with hn | hn
        · exact ((hmoved n).mp hn).1
        · exact ((hbucket n).mp hn).1
      have hms : ms.Nodup := List.Nodup.of_map _ hdistinct
      have hnodup : (moved ++ bucket).Nodup := by
        refine List.nodup_append.mpr ⟨hholds.nodup, hb ▸ hms.filter _, ?_⟩
        rintro n hn _ hn' rfl
        exact Nat.ne_of_lt ((hmoved n).mp hn).2 ((hbucket n).mp hn').2
      have hmap : ((moved ++ bucket).map s.heap.value).Nodup :=
        hnodup.map_on fun n hn n' hn' =>
          List.inj_on_of_nodup_map hdistinct (hsub hn) (hsub hn')
      have hlen : moved.length + bucket.length ≤ ms.length := by
        rw [← List.length_append]
        exact (hnodup.subperm hsub).length_le
      obtain ⟨s₁, hwalk, hholds₁, hmoves₁⟩ := @recurseApply_moves _ _ m fuel depth moved _
        (.slot (s.map other).nodes k) fuel s hholds (hb ▸ hchain k (Nat.le_refl k) hlt)
        (fun i heq => harray (Place.slot.inj heq).1) (fun n _ => Place.slot_ne_next _ _ n)
        (fun n hn => hsign n ((hbucket n).mp hn).1) hmap (by omega) (by omega) (by omega)
      have hold : s₁.map other = s.map other := hmoves₁.other other hother
      have hvalue : s₁.heap.value = s.heap.value := hmoves₁.frame.value
      have hnext : BitVec.ofNat 32 k + 1 = BitVec.ofNat 32 (k + 1) := by
        rw [BitVec.ofNat_add]
        rfl
      have hchain₁ : ∀ i, k + 1 ≤ i → i < (s.map other).mod.toNat →
          Chain s₁.heap.load .next (.slot (s.map other).nodes i)
            (inBucket s.heap.value (s.map other).mod.toNat i ms) := by
        intro i hki hi
        refine chain_congr (hchain i (by omega) hi)
          (hmoves₁.load (fun j heq => harray (Place.slot.inj heq).1) fun n _ =>
            Place.slot_ne_next _ _ n) ?_
        intro n hn
        rw [inBucket, List.mem_filter, decide_eq_true_iff] at hn
        refine hmoves₁.load (fun j => (Place.slot_ne_next _ _ n).symm) fun n' hn' heq => ?_
        obtain rfl := Place.next.inj heq
        rcases List.mem_append.mp hn' with hn' | hn'
        · have hless := ((hmoved n).mp hn').2
          omega
        · have heq' := ((hbucket n).mp hn').2
          omega
      have hmoved₁ : ∀ n, n ∈ moved ++ bucket.reverse ↔
          n ∈ ms ∧ (s.heap.value n).toNat % (s.map other).mod.toNat < k + 1 := by
        intro n
        rw [List.mem_append, List.mem_reverse, hmoved, hbucket, ← and_or_left]
        exact and_congr_right fun _ => Nat.lt_succ_iff_lt_or_eq.symm
      rw [← hold] at harray hpos hmod hchain₁ hmoved₁ hlt hturns
      rw [← hvalue] at hchain₁ hmoved₁ hsign hdistinct
      rw [← hmoves₁.nodes] at harray
      rw [← hmoves₁.mod] at hroom
      obtain ⟨s₂, moved₂, hloop, hholds₂, hmem₂, hmoves₂⟩ := @ih (moved ++ bucket.reverse) (k + 1)
        s₁ hholds₁ harray hpos hmod hchain₁ hmoved₁ hsign hdistinct hroom hlt (by omega)
      refine ⟨s₂, moved₂, ?_, hholds₂, hmem₂, (hmoves₁.mono hsub).trans hmoves₂⟩
      simp only [bind, Option.bind, hwalk, hnext]
      exact hloop
    · rw [if_neg fun h => hlt (htest.mp h)]
      refine ⟨s, moved, rfl, hholds, fun n => ?_, Moves.refl _ _ _⟩
      have hrem := Nat.mod_lt (s.heap.value n).toNat hpos
      rw [hmoved n]
      exact and_iff_left (by omega)

section Call

variable {ns : List N} {s : MapState N} {e : N} {other : MapId}

/-- A call on a new value in a full map: every node goes to an array of twice the
length, and no call in between rehashes. -/
theorem Holds.hash_rehash (hholds : Holds s.heap (s.map m) ns) (hfuel : ns.length + 1 < fuel)
    (hsign : (s.heap.value e).toNat < 2 ^ 31) (hnew : s.heap.value e ∉ ns.map s.heap.value)
    (hfull : ns.length = 2 * (s.map m).mod.toNat) (hmod : 2 * (s.map m).mod.toNat < 2 ^ 29)
    (hother : other ≠ m) :
    ∃ s' ns', hash fuel (depth + 2) m e (some other) s = some (s', false) ∧
      Holds s'.heap (s'.map m) ns' ∧ (∀ n, n ∈ ns' ↔ n ∈ ns ++ [e]) ∧
      s'.heap.value = s.heap.value ∧ (s'.map m).mod.toNat = 2 * (s.map m).mod.toNat := by
  have hlink := hholds.link hsign hnew
  have hpos := hholds.mod_pos
  have hlmod : ((Gc.link s m e (target s m ns e)).map m).mod = (s.map m).mod := by
    rw [link_map_self]
  have hlvalue : (Gc.link s m e (target s m ns e)).heap.value = s.heap.value :=
    moves_link.frame.value
  rw [hholds.hash_of_full (by omega) hsign hnew hfull hother]
  generalize Gc.link s m e (target s m ns e) = s₁ at hlink hlmod hlvalue
  rw [← hlmod] at hpos hmod hfull
  have hlen : (ns ++ [e]).length = ns.length + 1 := List.length_append
  have hold : (grow s₁ m other).map other = s₁.map m := grow_map_other hother
  have hnewmod : ((grow s₁ m other).map m).mod.toNat = 2 * (s₁.map m).mod.toNat := by
    rw [grow_map_self]
    exact (toNat_doubled hmod).1
  obtain ⟨s', ns', hloop, hholds', hmem, hmoves⟩ := @applyLoop_moves _ _ m fuel depth other hother
    [] (ns ++ [e]) 0 (2 ^ 31) (grow s₁ m other) (grow_holds hpos hmod)
    (by rw [hold, grow_map_self]; exact Nat.ne_of_lt hlink.array_lt)
    (by rw [hold]; exact hpos) (by rw [hold]; exact hlink.mod_lt)
    (by rw [hold]; exact fun i _ hi => grow_chain hlink hi)
    (fun n => ⟨fun hn => absurd hn List.not_mem_nil, fun hn => absurd hn.2 (Nat.not_lt_zero _)⟩)
    hlink.nonneg hlink.distinct (by rw [hnewmod]; omega) (by omega) (Nat.zero_le _)
    (by rw [hold]; omega)
  refine ⟨s', ns', ?_, hholds', hmem, hmoves.frame.value.trans hlvalue, ?_⟩
  · exact congrArg (Option.map fun s => (s, false)) hloop
  · rw [hmoves.mod, hnewmod, hlmod]

/-- A call of `hash`: what it returns, and the map after it. -/
theorem Holds.hash_spec (hholds : Holds s.heap (s.map m) ns)
    (hlen : ns.length ≤ 2 * (s.map m).mod.toNat) (hfuel : ns.length + 1 < fuel)
    (hsign : (s.heap.value e).toNat < 2 ^ 31)
    (hgrows : s.heap.value e ∈ ns.map s.heap.value ∨ ns.length + 1 ≤ 2 * (s.map m).mod.toNat ∨
      2 * (s.map m).mod.toNat < 2 ^ 29) (hother : other ≠ m) :
    ∃ s' ns', hash fuel (depth + 2) m e (some other) s =
        some (s', decide (s.heap.value e ∈ ns.map s.heap.value)) ∧
      Holds s'.heap (s'.map m) ns' ∧ ns'.length ≤ 2 * (s'.map m).mod.toNat ∧
      (∀ n, n ∈ ns' ↔ n ∈ ns ∨ n = e ∧ s.heap.value e ∉ ns.map s.heap.value) ∧
      s'.heap.value = s.heap.value := by
  by_cases hmem : s.heap.value e ∈ ns.map s.heap.value
  · refine ⟨s, ns, ?_, hholds, hlen, fun n => ?_, rfl⟩
    · rw [hholds.hash_of_mem (by omega) hsign hmem, decide_eq_true hmem]
    · exact (or_iff_left fun h => h.2 hmem).symm
  have happend : ∀ n, n ∈ ns ++ [e] ↔ n ∈ ns ∨ n = e ∧ s.heap.value e ∉ ns.map s.heap.value := by
    intro n
    rw [List.mem_append, List.mem_singleton, and_iff_left hmem]
  rw [decide_eq_false hmem]
  by_cases hroom : ns.length + 1 ≤ 2 * (s.map m).mod.toNat
  · refine ⟨_, ns ++ [e], hholds.hash_of_room (by omega) hsign hmem hroom, hholds.link hsign hmem,
      ?_, happend, moves_link.frame.value⟩
    rw [link_map_self, List.length_append, List.length_singleton]
    exact hroom
  · have hpos := hholds.mod_pos
    have hmod := (hgrows.resolve_left hmem).resolve_left hroom
    obtain ⟨s', ns', hcall, hholds', hmem', hvalue, hmod'⟩ :=
      @Holds.hash_rehash _ _ m fuel depth ns s e other hholds hfuel hsign hmem (by omega) hmod
        hother
    have hlen' : ns'.length ≤ (ns ++ [e]).length :=
      (hholds'.nodup.subperm fun n hn => (hmem' n).mp hn).length_le
    rw [List.length_append, List.length_singleton] at hlen'
    refine ⟨s', ns', hcall, hholds', by omega, fun n => (hmem' n).trans (happend n), hvalue⟩

end Call

end Rehash

/-! ## Runs -/

/-- A node fresh from `gcmalloc`, with the value that the program gives it. -/
structure HashCall (N : Type) where
  node : N
  value : Int32

/-- The two maps, the nodes allocated so far, and the values given to `hash`. -/
structure HashRun (N : Type) where
  state : MapState N
  used : List N
  inserted : List Int32

namespace HashRun

variable {N : Type} [DecidableEq N]

/-- `compute` makes the helper, and then the map. -/
def init (start : MapState N) : HashRun N :=
  ⟨newHashmap (newHashmap start .helper) .hm, [], []⟩

/-- A node from `gcmalloc`, and the assignment of its value. -/
def newNode (s : HashRun N) (c : HashCall N) : MapState N :=
  { s.state with
    heap := { s.state.heap with
      next := Function.update s.state.heap.next c.node none
      value := Function.update s.state.heap.value c.node c.value } }

/-- The new node, and `hash(hm, elmt, helper)`. -/
def call (fuel : Nat) (s : HashRun N) (c : HashCall N) : Option (MapState N × Bool) :=
  hash fuel 2 .hm c.node (some .helper) (s.newNode c)

def step (fuel : Nat) (s : HashRun N) (c : HashCall N) : Option (HashRun N) :=
  (s.call fuel c).map fun r => ⟨r.1, c.node :: s.used, c.value :: s.inserted⟩

variable (s : HashRun N)

/-- The map of the run. -/
def hm : HashMap := s.state.map .hm

/-- The node is fresh, its value is not negative, and if the map has to grow, `mod` stays
below `2 ^ 29`. -/
def Allowed (c : HashCall N) : Prop :=
  c.node ∉ s.used ∧ c.value.toNat < 2 ^ 31 ∧
    (c.value ∈ s.inserted ∨ s.hm.nbElment.toNat + 1 ≤ 2 * s.hm.mod.toNat ∨
      2 * s.hm.mod.toNat < 2 ^ 29)

instance (c : HashCall N) : Decidable (s.Allowed c) :=
  inferInstanceAs (Decidable (_ ∧ _ ∧ (_ ∨ _ ∨ _)))

/-- The map is the set of the inserted values. -/
structure Sound (fuel : Nat) : Prop where
  hasElmt : ∀ v : Int32, v.toNat < 2 ^ 31 →
    Gc.hasElmt fuel s.state .hm v = some (decide (v ∈ s.inserted))
  /-- A call returns, with 1 if the value was present. -/
  call : ∀ c, s.Allowed c → ∃ state, s.call fuel c = some (state, decide (c.value ∈ s.inserted))
  /-- Every chain is finite and visits a node once, and every value has one node, which is on
  the chain of its remainder. -/
  chains : ∃ chains : Nat → List N,
    (∀ i < s.hm.mod.toNat,
      Chain s.state.heap.load .next (.slot s.hm.nodes i) (chains i) ∧ (chains i).Nodup ∧
        ∀ n ∈ chains i, s.state.heap.value n ∈ s.inserted ∧
          (s.state.heap.value n).toNat % s.hm.mod.toNat = i) ∧
    ∀ v ∈ s.inserted, ∃! n, n ∈ chains (v.toNat % s.hm.mod.toNat) ∧ s.state.heap.value n = v
  count : s.hm.nbElment.toNat = s.inserted.dedup.length
  count_le : s.hm.nbElment.toNat ≤ 2 * s.hm.mod.toNat

/-- The invariant, with the nodes of the map. -/
structure Inv (ns : List N) : Prop where
  holds : Holds s.state.heap s.hm ns
  length_le : ns.length ≤ 2 * s.hm.mod.toNat
  used : ∀ n ∈ ns, n ∈ s.used
  values : ∀ v, v ∈ ns.map s.state.heap.value ↔ v ∈ s.inserted

variable {s} {ns : List N} {fuel : Nat} {c : HashCall N}

omit [DecidableEq N] in
theorem Inv.length_used (h : s.Inv ns) : ns.length ≤ s.used.length :=
  (h.holds.nodup.subperm fun n hn => h.used n hn).length_le

omit [DecidableEq N] in
theorem newHashmap_holds (state : MapState N) (m : MapId) :
    Holds (newHashmap state m).heap ((newHashmap state m).map m) [] := by
  have hmap : (newHashmap state m).map m = ⟨state.heap.arrays, 3, 0⟩ := Function.update_self _ _ _
  have harray : (newHashmap state m).heap.array state.heap.arrays = [none, none, none] :=
    Function.update_self _ _ _
  rw [hmap]
  refine ⟨show 0 < (3 : Int32).toNat by decide, show (3 : Int32).toNat < 2 ^ 29 by decide,
    Nat.lt_succ_self _, ?_, fun i hi => ?_, fun n hn => ?_, List.nodup_nil, rfl⟩
  · rw [harray]
    rfl
  · show ((newHashmap state m).heap.array state.heap.arrays)[i]? = some none
    have hthree : ([none, none, none] : List (Option N)) = List.replicate 3 none := rfl
    rw [harray, hthree, List.getElem?_replicate]
    exact if_pos hi
  · exact absurd hn List.not_mem_nil

omit [DecidableEq N] in
theorem inv_init (start : MapState N) : (init start).Inv [] :=
  ⟨newHashmap_holds _ _, Nat.zero_le _, fun _ hn => absurd hn List.not_mem_nil, fun _ => Iff.rfl⟩

theorem newNode_value_self : (s.newNode c).heap.value c.node = c.value :=
  Function.update_self _ _ _

omit [DecidableEq N] in
theorem Inv.ne_of_fresh (h : s.Inv ns) (hc : c.node ∉ s.used) {n : N} (hn : n ∈ ns) :
    n ≠ c.node := by
  intro heq
  exact hc (heq ▸ h.used n hn)

theorem Inv.newNode_value (h : s.Inv ns) (hc : c.node ∉ s.used) {n : N} (hn : n ∈ ns) :
    (s.newNode c).heap.value n = s.state.heap.value n :=
  Function.update_of_ne (h.ne_of_fresh hc hn) _ _

theorem Inv.map_newNode_value (h : s.Inv ns) (hc : c.node ∉ s.used) :
    ns.map (s.newNode c).heap.value = ns.map s.state.heap.value :=
  List.map_congr_left fun _ hn => h.newNode_value hc hn

/-- A fresh node does not disturb the map. -/
theorem Inv.fresh (h : s.Inv ns) (hc : c.node ∉ s.used) :
    Holds (s.newNode c).heap s.hm ns := by
  have hbucket : ∀ i, inBucket (s.newNode c).heap.value s.hm.mod.toNat i ns =
      inBucket s.state.heap.value s.hm.mod.toNat i ns :=
    fun i => List.filter_congr fun n hn => by rw [h.newNode_value hc hn]
  refine ⟨h.holds.mod_pos, h.holds.mod_lt, h.holds.array_lt, h.holds.length, fun i hi => ?_,
    fun n hn => ?_, ?_, h.holds.count⟩
  · rw [hbucket]
    refine chain_congr (h.holds.chain i hi) rfl fun n hn => ?_
    exact congrArg some (Function.update_of_ne (h.ne_of_fresh hc (List.mem_filter.mp hn).1) _ _)
  · rw [h.newNode_value hc hn]
    exact h.holds.nonneg n hn
  · rw [h.map_newNode_value hc]
    exact h.holds.distinct

omit [DecidableEq N] in
theorem Inv.count (h : s.Inv ns) : s.hm.nbElment.toNat = ns.length := by
  have hmod := h.holds.mod_lt
  have hlen := h.length_le
  rw [h.holds.count]
  exact Nat.mod_eq_of_lt (by omega)

/-- One call. -/
theorem Inv.step (h : s.Inv ns) (hc : s.Allowed c) (hfuel : s.used.length + 1 < fuel) :
    ∃ state ns', s.call fuel c = some (state, decide (c.value ∈ s.inserted)) ∧
      Inv ⟨state, c.node :: s.used, c.value :: s.inserted⟩ ns' := by
  obtain ⟨hfresh, hsign, hgrows⟩ := hc
  have hused := h.length_used
  have hmem : (s.newNode c).heap.value c.node ∈ ns.map (s.newNode c).heap.value ↔
      c.value ∈ s.inserted := by
    rw [newNode_value_self, h.map_newNode_value hfresh]
    exact h.values _
  rw [h.count] at hgrows
  obtain ⟨state, ns', hcall, hholds, hlen, hnodes, hvalue⟩ := @Holds.hash_spec _ _ .hm fuel 0 ns
    (s.newNode c) c.node .helper (h.fresh hfresh) h.length_le (by omega)
    (by rw [newNode_value_self]; exact hsign) (hgrows.imp_left hmem.mpr) (by decide)
  refine ⟨state, ns', ?_, hholds, hlen, fun n hn => ?_, fun v => ?_⟩
  · rw [call, hcall, decide_eq_decide.mpr hmem]
  · rcases (hnodes n).mp hn with hn | hn
    · exact List.mem_cons_of_mem _ (h.used n hn)
    · exact hn.1 ▸ List.mem_cons_self
  · rw [List.mem_cons, ← h.values v, ← h.map_newNode_value hfresh, List.mem_map, List.mem_map]
    dsimp only
    rw [hvalue]
    constructor
    · rintro ⟨n, hn, rfl⟩
      rcases (hnodes n).mp hn with hn | ⟨rfl, -⟩
      · exact Or.inr ⟨n, hn, rfl⟩
      · exact Or.inl newNode_value_self
    · rintro (rfl | ⟨n, hn, rfl⟩)
      · by_cases hin : c.value ∈ s.inserted
        · obtain ⟨n, hn, heq⟩ := List.mem_map.mp (hmem.mpr hin)
          exact ⟨n, (hnodes n).mpr (Or.inl hn), heq.trans newNode_value_self⟩
        · exact ⟨c.node, (hnodes _).mpr (Or.inr ⟨rfl, fun h => hin (hmem.mp h)⟩),
            newNode_value_self⟩
      · exact ⟨n, (hnodes n).mpr (Or.inl hn), rfl⟩

theorem Inv.sound (h : s.Inv ns) (hfuel : s.used.length + 1 < fuel) : s.Sound fuel := by
  have hused := h.length_used
  have hholds : Holds s.state.heap (s.state.map .hm) ns := h.holds
  refine ⟨fun v hv => ?_, fun c hc => ?_, ?_, ?_, ?_⟩
  · rw [hholds.hasElmt (by omega) hv, decide_eq_decide.mpr (h.values v)]
  · obtain ⟨state, -, hcall, -⟩ := h.step hc hfuel
    exact ⟨state, hcall⟩
  · refine ⟨fun i => inBucket s.state.heap.value s.hm.mod.toNat i ns, fun i hi => ?_,
      fun v hv => ?_⟩
    · refine ⟨h.holds.chain i hi, h.holds.nodup.filter _, fun n hn => ?_⟩
      obtain ⟨hn, hrem⟩ := List.mem_filter.mp hn
      exact ⟨(h.values _).mp (List.mem_map_of_mem hn), of_decide_eq_true hrem⟩
    · obtain ⟨n, hn, rfl⟩ := List.mem_map.mp ((h.values v).mpr hv)
      refine ⟨n, ⟨List.mem_filter.mpr ⟨hn, decide_eq_true rfl⟩, rfl⟩, fun n' hn' => ?_⟩
      exact List.inj_on_of_nodup_map h.holds.distinct (List.mem_filter.mp hn'.1).1 hn hn'.2
  · rw [h.count, ← List.length_map s.state.heap.value]
    have hdedup := List.nodup_dedup s.inserted
    refine ((List.perm_ext_iff_of_nodup h.holds.distinct hdedup).mpr fun v => ?_).length_eq
    rw [List.mem_dedup]
    exact h.values v
  · rw [h.count]
    exact h.length_le

/-- A run, with fuel for the nodes allocated so far and for those of its calls. -/
theorem Inv.run (h : s.Inv ns) {calls : List (HashCall N)}
    (hfuel : s.used.length + calls.length + 1 < fuel)
    (hok : RunOk (HashRun.step fuel) Allowed s calls) :
    ∃ t, Transition.run (HashRun.step fuel) s calls = some t ∧ t.Sound fuel := by
  induction calls generalizing s ns with
  | nil => exact ⟨s, rfl, h.sound hfuel⟩
  | cons c calls ih =>
    rw [List.length_cons] at hfuel
    obtain ⟨state, ns', hcall, hinv⟩ := h.step hok.1
      (show s.used.length + 1 < fuel by omega)
    have hstep : HashRun.step fuel s c = some ⟨state, c.node :: s.used, c.value :: s.inserted⟩ := by
      rw [HashRun.step, hcall]
      rfl
    obtain ⟨t, ht, hsound⟩ := @ih ⟨state, c.node :: s.used, c.value :: s.inserted⟩ ns' hinv
      (by rw [List.length_cons]; omega) (hok.2 _ hstep)
    exact ⟨t, by rw [Transition.run, hstep]; exact ht, hsound⟩

end HashRun

/-- For every sequence of calls on fresh nodes, the hash map is the set of the values: no
call fails, and the calls in the middle of a rehash need no helper. -/
theorem hashmap_of_run {N : Type} [DecidableEq N] (start : MapState N) {fuel : Nat}
    {calls : List (HashCall N)} (hfuel : calls.length + 1 < fuel)
    (hok : RunOk (HashRun.step fuel) HashRun.Allowed (HashRun.init start) calls) :
    ∃ s, run (HashRun.step fuel) (HashRun.init start) calls = some s ∧ s.Sound fuel :=
  (HashRun.inv_init start).run (by rw [HashRun.init]; simpa using hfuel) hok

/-- A value is inserted twice, and the seventh one makes the map grow. -/
theorem hashmap_of_run_rehash :
    let start : MapState Nat := ⟨⟨0, fun _ => [], fun _ => none, fun _ => 0⟩, fun _ => ⟨0, 0, 0⟩⟩
    ∃ s, run (HashRun.step 11) (HashRun.init start)
        [⟨0, 7⟩, ⟨1, 7⟩, ⟨2, 4⟩, ⟨3, 0⟩, ⟨4, 1⟩, ⟨5, 2⟩, ⟨6, 3⟩, ⟨7, 5⟩, ⟨8, 6⟩] = some s ∧
      s.Sound 11 :=
  hashmap_of_run _ (by decide) (by decide +kernel)

end KernelMemVirt.Gc
