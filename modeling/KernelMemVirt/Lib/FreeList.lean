import KernelMemVirt.Lib.ByteMem

/-!
# A free list threaded through memory

The free blocks of an allocator form a list that lives in the blocks
themselves: at a fixed offset, a block holds the address of the next one, and
the address 0 ends the list.

* `chain_congr` is the frame rule: a list only depends on its links.
* `Chain.eq_cons` is the first block of a list, and `Chain.push` puts a block in
  front.
* `mem_update_cons` is membership in a family of lists, one a class, after a push.
-/

namespace FreeList

open ByteMem

/-- The list that starts at `p`, with the links at offset `off`. -/
def Chain (m : Mem) (off : Nat) : Nat → List Nat → Prop
  | p, [] => p = 0
  | p, a :: l => p = a ∧ a ≠ 0 ∧ Chain m off (read64 m (a + off)).toNat l

variable {m m' : Mem} {off : Nat}

/-- A list that is not empty starts with its first address. -/
theorem Chain.eq_cons {p : Nat} {l : List Nat} (h : Chain m off p l) (hp : p ≠ 0) :
    ∃ l', l = p :: l' ∧ Chain m off (read64 m (p + off)).toNat l' := by
  cases l with
  | nil => exact absurd h hp
  | cons a l =>
    rcases h with ⟨rfl, -, hrest⟩
    exact ⟨l, rfl, hrest⟩

/-- Memories with the same links hold the same list. -/
theorem chain_congr :
    ∀ {l : List Nat} {p : Nat}, (∀ a ∈ l, read64 m' (a + off) = read64 m (a + off)) →
      Chain m off p l → Chain m' off p l := by
  intro l
  induction l with
  | nil => exact fun _ h => h
  | cons a l ih =>
    intro p hlinks h
    refine ⟨h.1, h.2.1, ?_⟩
    rw [hlinks a List.mem_cons_self]
    exact ih (fun b hb => hlinks b (List.mem_cons_of_mem a hb)) h.2.2

/-- A new block in front, whose link is apart from all the others. -/
theorem Chain.push {p a : Nat} {l : List Nat} (h : Chain m off p l) (ha : a ≠ 0) (hp : p < 2 ^ 64)
    (hsep : ∀ b ∈ l, Apart (b + off) 8 (a + off) 8) :
    Chain (write64 m (a + off) (BitVec.ofNat 64 p)) off a (a :: l) := by
  refine ⟨rfl, ha, ?_⟩
  rw [read64_write64_self, BitVec.toNat_ofNat, Nat.mod_eq_of_lt hp]
  exact chain_congr (fun b hb => readBytes_writeBytes_of_apart (hsep b hb)) h

/-- What is on the lists after a block goes on the list of a class. -/
theorem mem_update_cons {lists : Nat → List Nat} {c₀ c a x : Nat}
    (hx : x ∈ Function.update lists c₀ (a :: lists c₀) c) : x ∈ lists c ∨ x = a ∧ c = c₀ := by
  by_cases hc : c = c₀
  · subst hc
    rw [Function.update_self] at hx
    rcases List.mem_cons.mp hx with rfl | hold
    · exact .inr ⟨rfl, rfl⟩
    · exact .inl hold
  · rw [Function.update_of_ne hc] at hx
    exact .inl hx

end FreeList
