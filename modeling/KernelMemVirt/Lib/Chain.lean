import Mathlib.Tactic.Common

/-!
# Chains behind a pointer to a pointer

A walk over a linked list may hold the place of a pointer instead of the pointer: a
cell outside the list, and later the `next` cell of a node.  Places are of any type `L`,
nodes of any type `N`, `load` gives the pointer at a place, if the place exists, and `next`
is the place of a node's pointer to the next node.

`Chain.append` links a node where a chain ends, and `chain_congr` is the frame rule.
-/

namespace LinkedChain

variable {L N : Type}

/-- The nodes that follow from the place `l` up to a null pointer. -/
def Chain (load : L → Option (Option N)) (next : N → L) : L → List N → Prop
  | l, [] => load l = some none
  | l, n :: ns => load l = some (some n) ∧ Chain load next (next n) ns

/-- The place of the null pointer that ends a chain. -/
def endOf (next : N → L) : L → List N → L
  | l, [] => l
  | _, n :: ns => endOf next (next n) ns

variable {load load' : L → Option (Option N)} {next : N → L} {l : L} {ns : List N} {n : N}

/-- A chain depends on its own places only. -/
theorem chain_congr (h : Chain load next l ns) (hl : load' l = load l)
    (hns : ∀ n ∈ ns, load' (next n) = load (next n)) : Chain load' next l ns := by
  induction ns generalizing l with
  | nil => exact hl.trans h
  | cons n ns ih =>
    exact ⟨hl.trans h.1, ih h.2 (hns n List.mem_cons_self) fun m hm =>
      hns m (List.mem_cons_of_mem n hm)⟩

theorem Chain.load_endOf (h : Chain load next l ns) : load (endOf next l ns) = some none := by
  induction ns generalizing l with
  | nil => exact h
  | cons n ns ih => exact ih h.2

/-- A chain ends at its first place or in one of its nodes. -/
theorem endOf_cases : endOf next l ns = l ∨ ∃ n ∈ ns, endOf next l ns = next n := by
  induction ns generalizing l with
  | nil => exact Or.inl rfl
  | cons n ns ih =>
    rcases @ih (next n) with hend | ⟨m, hm, hend⟩
    · exact Or.inr ⟨n, List.mem_cons_self, hend⟩
    · exact Or.inr ⟨m, List.mem_cons_of_mem n hm, hend⟩

/-- A node whose `next` is null, linked at the end. -/
theorem Chain.append (h : Chain load next l ns) (hend : load' (endOf next l ns) = some (some n))
    (hn : load' (next n) = some none)
    (hl : l ≠ endOf next l ns → load' l = load l)
    (hns : ∀ m ∈ ns, next m ≠ endOf next l ns → load' (next m) = load (next m)) :
    Chain load' next l (ns ++ [n]) := by
  induction ns generalizing l with
  | nil => exact ⟨hend, hn⟩
  | cons m ns ih =>
    have hfirst : l ≠ endOf next l (m :: ns) := fun heq => by
      have hload := h.load_endOf
      rw [← heq, h.1] at hload
      cases hload
    exact ⟨(hl hfirst).trans h.1, ih h.2 hend (hns m List.mem_cons_self) fun k hk =>
      hns k (List.mem_cons_of_mem m hk)⟩

end LinkedChain
