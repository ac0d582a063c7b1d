import Mathlib.Data.List.Chain
import Mathlib.Data.List.Nodup
import Mathlib.Logic.Function.Basic

/-!
# Circular doubly linked lists

The nodes of a list are linked in both directions, in a circle through a head that is
no element.  A null pointer is `none`.

* `link_congr` is the frame rule: a chain depends on the successors of all nodes but the
  last, and on the predecessors of all but the first.
* `IsRing.insert` puts a node in front of the head, which is the end of the list, and
  `IsRing.remove` takes a node out.  Both say which writes do it.
* `IsRing.succ` and `IsRing.pred` are the neighbours of a node, and `IsRing.visit` is
  the walk along the successors.
-/

namespace Ring

variable {N : Type}

/-- `b` follows `a`. -/
def Link (next prev : N → Option N) (a b : N) : Prop := next a = some b ∧ prev b = some a

/-- The list `l` in a circle through `h`. -/
structure IsRing (next prev : N → Option N) (h : N) (l : List N) : Prop where
  nodup : (h :: l).Nodup
  chain : (h :: (l ++ [h])).IsChain (Link next prev)

/-- The nodes along the successors of `cur`, up to `h`; `none` at a null pointer, or when
`h` is not reached in so many steps. -/
def visit [DecidableEq N] (next : N → Option N) (h : N) : Nat → Option N → Option (List N)
  | 0, _ => none
  | _ + 1, none => none
  | fuel + 1, some cur =>
    if cur = h then some [] else (visit next h fuel (next cur)).map (cur :: ·)

variable {next prev next' prev' : N → Option N} {h : N} {l : List N}

theorem link_congr :
    ∀ {l : List N}, (∀ y ∈ l.dropLast, next' y = next y) → (∀ y ∈ l.tail, prev' y = prev y) →
      l.IsChain (Link next prev) → l.IsChain (Link next' prev') := by
  intro l
  induction l with
  | nil => exact fun _ _ _ => .nil
  | cons a l ih =>
    intro hnext hprev hchain
    cases l with
    | nil => exact .singleton a
    | cons b l =>
      obtain ⟨hab, hrest⟩ := List.isChain_cons_cons.mp hchain
      refine List.isChain_cons_cons.mpr ⟨⟨?_, ?_⟩, ih (fun y hy => ?_) (fun y hy => ?_) hrest⟩
      · rw [hnext a List.mem_cons_self]
        exact hab.1
      · rw [hprev b List.mem_cons_self]
        exact hab.2
      · exact hnext y (List.mem_cons_of_mem a hy)
      · exact hprev y (List.mem_cons_of_mem b hy)

/-- The last node of a list with a head. -/
theorem exists_concat (h : N) (l : List N) : ∃ p a, h :: l = p ++ [a] :=
  ⟨_, _, (List.dropLast_append_getLast (List.cons_ne_nil h l)).symm⟩

theorem IsRing.empty (hnext : next h = some h) (hprev : prev h = some h) :
    IsRing next prev h [] where
  nodup := List.nodup_singleton h
  chain := List.isChain_cons_cons.mpr ⟨⟨hnext, hprev⟩, .singleton h⟩

/-- Every node has a successor in the circle. -/
theorem IsRing.succ (hr : IsRing next prev h l) {d : N} (hd : d ∈ h :: l) :
    ∃ d' ∈ h :: l, Link next prev d d' := by
  obtain ⟨p, q, hpq⟩ := List.append_of_mem hd
  obtain ⟨d', r, hr'⟩ : ∃ d' r, q ++ [h] = d' :: r := List.exists_cons_of_ne_nil (by simp)
  have hchain := hr.chain
  rw [← List.cons_append, hpq, List.append_assoc, List.cons_append, hr'] at hchain
  refine ⟨d', ?_, (List.isChain_append_cons_cons.mp hchain).2.1⟩
  rcases List.mem_append.mp (hr' ▸ List.mem_cons_self : d' ∈ q ++ [h]) with hq | hh
  · exact hpq ▸ List.mem_append_right p (List.mem_cons_of_mem d hq)
  · exact List.mem_singleton.mp hh ▸ List.mem_cons_self

/-- Every node has a predecessor in the circle. -/
theorem IsRing.pred (hr : IsRing next prev h l) {d : N} (hd : d ∈ h :: l) :
    ∃ d' ∈ h :: l, Link next prev d' d := by
  have hd' : d ∈ l ++ [h] := by
    rcases List.mem_cons.mp hd with rfl | hl
    · exact List.mem_append_right l List.mem_cons_self
    · exact List.mem_append_left _ hl
  obtain ⟨p, q, hpq⟩ := List.append_of_mem hd'
  obtain ⟨p', a, hpa⟩ := exists_concat h p
  have ha : a ∈ h :: p := hpa ▸ List.mem_append_right p' List.mem_cons_self
  have hchain := hr.chain
  rw [hpq, ← List.cons_append, hpa, List.append_assoc] at hchain
  refine ⟨a, ?_, (List.isChain_append_cons_cons.mp hchain).2.1⟩
  rcases List.mem_cons.mp ha with rfl | hp
  · exact List.mem_cons_self
  · have hmem : a ∈ l ++ [h] := hpq ▸ List.mem_append_left _ hp
    rcases List.mem_append.mp hmem with hl | hh
    · exact List.mem_cons_of_mem h hl
    · exact List.mem_singleton.mp hh ▸ List.mem_cons_self

variable [DecidableEq N] {x : N}

/-- A new node at the end: it is linked to the last node `a`, and to the head. -/
theorem IsRing.insert (hr : IsRing next prev h l) (hx : x ∉ h :: l) :
    ∃ a ∈ h :: l, prev h = some a ∧
      IsRing (Function.update (Function.update next a (some x)) x (some h))
        (Function.update (Function.update prev x (some a)) h (some x)) h (l ++ [x]) := by
  obtain ⟨p, a, hpa⟩ := exists_concat h l
  have hsplit : ∀ r, h :: (l ++ r) = p ++ a :: r := by
    intro r
    rw [← List.cons_append, hpa, List.append_assoc]
    rfl
  have hchain := hr.chain
  rw [hsplit] at hchain
  obtain ⟨hold, hlast⟩ := List.isChain_append_cons_cons.mp hchain
  have ha : a ∈ h :: l := hpa ▸ List.mem_append_right p List.mem_cons_self
  have hxh : x ≠ h := fun heq => hx (heq ▸ List.mem_cons_self)
  refine ⟨a, ha, hlast.1.2, ?_, ?_⟩
  · rw [← List.cons_append, ← List.concat_eq_append]
    exact hr.nodup.concat hx
  · rw [List.append_assoc, List.singleton_append, hsplit]
    have hax : a ≠ x := fun heq => hx (heq ▸ ha)
    have hnodup := hr.nodup
    rw [hpa] at hnodup hx
    refine List.isChain_append_cons_cons.mpr ⟨?_, ⟨?_, ?_⟩, ?_⟩
    · refine link_congr (fun y hy => ?_) (fun y hy => ?_) hold
      · rw [List.dropLast_concat] at hy
        have hyx : y ≠ x := fun heq => hx (heq ▸ List.mem_append_left _ hy)
        have hya : y ≠ a :=
          fun heq => (List.nodup_append.mp hnodup).2.2 y hy a List.mem_cons_self heq
        rw [Function.update_of_ne hyx, Function.update_of_ne hya]
      · rw [← hpa, List.tail_cons] at hy
        have hyx : y ≠ x := fun heq => hx (hpa ▸ heq ▸ List.mem_cons_of_mem h hy)
        have hyh : y ≠ h := fun heq => (List.nodup_cons.mp hr.nodup).1 (heq ▸ hy)
        rw [Function.update_of_ne hyh, Function.update_of_ne hyx]
    · rw [Function.update_of_ne hax, Function.update_self]
    · rw [Function.update_of_ne hxh, Function.update_self]
    · refine List.isChain_cons_cons.mpr ⟨⟨?_, ?_⟩, .singleton h⟩
      · rw [Function.update_self]
      · rw [Function.update_self]

/-- A node is taken out: its neighbours are linked to each other, and the node to
itself. -/
theorem IsRing.remove (hr : IsRing next prev h l) (hx : x ∈ l) :
    ∃ a ∈ h :: l, ∃ b ∈ h :: l, a ≠ x ∧ b ≠ x ∧ prev x = some a ∧ next x = some b ∧
      IsRing (Function.update (Function.update next a (some b)) x (some x))
        (Function.update (Function.update prev b (some a)) x (some x)) h (l.erase x) := by
  obtain ⟨l₁, l₂, rfl⟩ := List.append_of_mem hx
  obtain ⟨p, a, hpa⟩ := exists_concat h l₁
  obtain ⟨b, q, hbq⟩ : ∃ b q, l₂ ++ [h] = b :: q := List.exists_cons_of_ne_nil (by simp)
  have hsplit : ∀ r, h :: (l₁ ++ r) = p ++ a :: r := by
    intro r
    rw [← List.cons_append, hpa, List.append_assoc]
    rfl
  have hnodup : ((h :: l₁) ++ x :: l₂).Nodup := hr.nodup
  obtain ⟨hleft, hright, hapart⟩ := List.nodup_append.mp hnodup
  obtain ⟨hh, -⟩ := List.nodup_cons.mp hr.nodup
  have hx₁ : ∀ y ∈ h :: l₁, y ≠ x := fun y hy => hapart y hy x List.mem_cons_self
  have hx₂ : ∀ y ∈ l₂ ++ [h], y ≠ x := by
    intro y hy
    rcases List.mem_append.mp hy with hy | hy
    · exact fun heq => (List.nodup_cons.mp hright).1 (heq ▸ hy)
    · exact List.mem_singleton.mp hy ▸ hx₁ h List.mem_cons_self
  have ha : a ∈ h :: l₁ := hpa ▸ List.mem_append_right p List.mem_cons_self
  have hb : b ∈ l₂ ++ [h] := hbq ▸ List.mem_cons_self
  have hbcircle : (l₂ ++ [h]).Nodup := by
    refine List.nodup_append.mpr ⟨(List.nodup_cons.mp hright).2, List.nodup_singleton h, ?_⟩
    intro y hy z hz heq
    rw [List.mem_singleton.mp hz] at heq
    exact hapart h List.mem_cons_self y (List.mem_cons_of_mem x hy) heq.symm
  have hchain := hr.chain
  rw [List.append_assoc, List.cons_append, hbq, hsplit] at hchain
  obtain ⟨hbefore, hax, hrest⟩ := List.isChain_append_cons_cons.mp hchain
  obtain ⟨hxb, hafter⟩ := List.isChain_cons_cons.mp hrest
  have hane := hx₁ a ha
  have hbne := hx₂ b hb
  refine ⟨a, ?_, b, ?_, hane, hbne, hax.2, hxb.1, ?_, ?_⟩
  · rw [← List.cons_append]
    exact List.mem_append_left _ ha
  · rcases List.mem_append.mp hb with hb | hb
    · exact List.mem_cons_of_mem h (List.mem_append_right _ (List.mem_cons_of_mem x hb))
    · exact List.mem_singleton.mp hb ▸ List.mem_cons_self
  · exact hr.nodup.sublist (List.erase_sublist.cons_cons h)
  · have hl₁ : x ∉ l₁ := fun hmem => hx₁ x (List.mem_cons_of_mem h hmem) rfl
    rw [List.erase_append_right _ hl₁, List.erase_cons_head, List.append_assoc, hbq, hsplit]
    refine List.isChain_append_cons_cons.mpr ⟨?_, ⟨?_, ?_⟩, ?_⟩
    · refine link_congr (fun y hy => ?_) (fun y hy => ?_) hbefore
      · rw [List.dropLast_concat] at hy
        have hyx : y ≠ x := hx₁ y (hpa ▸ List.mem_append_left _ hy)
        have hya : y ≠ a := by
          rw [hpa] at hleft
          exact (List.nodup_append.mp hleft).2.2 y hy a List.mem_cons_self
        rw [Function.update_of_ne hyx, Function.update_of_ne hya]
      · rw [← hpa, List.tail_cons] at hy
        have hyx : y ≠ x := hx₁ y (List.mem_cons_of_mem h hy)
        have hyb : y ≠ b := by
          rcases List.mem_append.mp hb with hb | hb
          · exact hapart y (List.mem_cons_of_mem h hy) b (List.mem_cons_of_mem x hb)
          · rw [List.mem_singleton.mp hb]
            exact fun heq => (List.nodup_cons.mp hleft).1 (heq ▸ hy)
        rw [Function.update_of_ne hyx, Function.update_of_ne hyb]
    · rw [Function.update_of_ne hane, Function.update_self]
    · rw [Function.update_of_ne hbne, Function.update_self]
    · refine link_congr (fun y hy => ?_) (fun y hy => ?_) hafter
      · rw [← hbq, List.dropLast_concat] at hy
        have hya : y ≠ a := (hapart a ha y (List.mem_cons_of_mem x hy)).symm
        rw [Function.update_of_ne (hx₂ y (List.mem_append_left _ hy)), Function.update_of_ne hya]
      · rw [List.tail_cons] at hy
        have hyb : y ≠ b := by
          rw [hbq] at hbcircle
          exact fun heq => (List.nodup_cons.mp hbcircle).1 (heq ▸ hy)
        rw [Function.update_of_ne (hx₂ y (hbq ▸ List.mem_cons_of_mem b hy)),
          Function.update_of_ne hyb]

/-- The walk from the successor of the head finds the elements in order. -/
theorem visit_eq :
    ∀ {l : List N} {cur : N} {fuel : Nat}, h ∉ l → l.length < fuel →
      (cur :: (l ++ [h])).IsChain (Link next prev) → visit next h fuel (next cur) = some l := by
  intro l
  induction l with
  | nil =>
    intro cur fuel _ hfuel hchain
    obtain ⟨fuel, rfl⟩ : ∃ k, fuel = k + 1 := ⟨fuel - 1, by simp at hfuel; omega⟩
    rw [(List.isChain_cons_cons.mp hchain).1.1, visit, if_pos rfl]
  | cons a l ih =>
    intro cur fuel hh hfuel hchain
    obtain ⟨fuel, rfl⟩ : ∃ k, fuel = k + 1 := ⟨fuel - 1, by simp at hfuel; omega⟩
    obtain ⟨hlink, hrest⟩ := List.isChain_cons_cons.mp hchain
    rw [List.length_cons] at hfuel
    have hne : a ≠ h := fun heq => hh (heq ▸ List.mem_cons_self)
    have hwalk : visit next h fuel (next a) = some l :=
      ih (fun hmem => hh (List.mem_cons_of_mem a hmem)) (by omega) hrest
    rw [hlink.1, visit, if_neg hne, hwalk]
    rfl

theorem IsRing.visit (hr : IsRing next prev h l) {fuel : Nat} (hfuel : l.length < fuel) :
    Ring.visit next h fuel (next h) = some l :=
  visit_eq (List.nodup_cons.mp hr.nodup).1 hfuel hr.chain

end Ring
