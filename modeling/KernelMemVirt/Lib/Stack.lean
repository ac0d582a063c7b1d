import KernelMemVirt.Lib.ByteMem

/-!
# A downward stack of 64-bit words in a byte memory

The stack pointer is a 64-bit word and its arithmetic wraps.  `Holds m sp ws`
says that the words at `sp`, `sp + 8`, ... are `ws`, the top of the stack first.

* `Holds.push` and `Holds.head`/`Holds.tail` are the rules for one push and one
  pop.
* `holds_iff` reads a stack word by word.

A stack of at most `2 ^ 61` words does not meet itself, which is all that the
wrapping costs.
-/

namespace Stack

open ByteMem

abbrev Word := BitVec 64

/-- The number of words that fit in the address space. -/
abbrev maxWords : Nat := 2 ^ 61

/-- The stack at `sp` starts with the words `ws`. -/
def Holds (m : Mem) (sp : Word) : List Word → Prop
  | [] => True
  | w :: ws => read64 m sp.toNat = w ∧ Holds m (sp + 8) ws

/-- Store a word just below `sp`. -/
def push (m : Mem) (sp v : Word) : Mem := write64 m (sp - 8).toNat v

theorem Holds.head {m : Mem} {sp w : Word} {ws : List Word} (h : Holds m sp (w :: ws)) :
    read64 m sp.toNat = w := h.1

theorem Holds.tail {m : Mem} {sp w : Word} {ws : List Word} (h : Holds m sp (w :: ws)) :
    Holds m (sp + 8) ws := h.2

/-- One word further down. -/
theorem sub_words_succ (sp : Word) (k : Nat) :
    sp - BitVec.ofNat 64 (8 * (k + 1)) = sp - BitVec.ofNat 64 (8 * k) - 8 := by
  bv_omega

/-- Two words at a distance of a multiple of 8 do not overlap, even when one
of the two addresses has wrapped. -/
theorem apart_of_offset (a : Word) {j : Nat} (h1 : 1 ≤ j) (h2 : j < maxWords) :
    Apart (a + BitVec.ofNat 64 (8 * j)).toNat 8 a.toNat 8 := by
  have ha := a.isLt
  unfold Apart maxWords at *
  rw [BitVec.toNat_add, BitVec.toNat_ofNat]
  omega

/-- A write below a stack leaves it alone. -/
theorem holds_write_below {m : Mem} {a v : Word} :
    ∀ {ws : List Word} {j : Nat}, 1 ≤ j → j + ws.length ≤ maxWords →
      Holds m (a + BitVec.ofNat 64 (8 * j)) ws →
      Holds (write64 m a.toNat v) (a + BitVec.ofNat 64 (8 * j)) ws := by
  intro ws
  induction ws with
  | nil => intro _ _ _ _; trivial
  | cons w ws ih =>
    intro j hj hlen h
    rw [List.length_cons] at hlen
    have hnext : a + BitVec.ofNat 64 (8 * j) + 8 = a + BitVec.ofNat 64 (8 * (j + 1)) := by
      rw [BitVec.add_assoc, Nat.mul_add, BitVec.ofNat_add]
      rfl
    refine ⟨?_, ?_⟩
    · rw [← h.head]
      exact readBytes_writeBytes_of_apart (apart_of_offset a hj (by omega))
    · have htail := h.tail
      rw [hnext] at htail ⊢
      exact ih (by omega) (by omega) htail

/-- A push puts its word on top. -/
theorem Holds.push {m : Mem} {sp : Word} {ws : List Word} (v : Word)
    (hlen : ws.length < maxWords) (h : Holds m sp ws) :
    Holds (push m sp v) (sp - 8) (v :: ws) := by
  refine ⟨read64_write64_self m _ v, ?_⟩
  have hsp : sp - 8 + BitVec.ofNat 64 (8 * 1) = sp := BitVec.sub_add_cancel sp 8
  have hbelow : Holds m (sp - 8 + BitVec.ofNat 64 (8 * 1)) ws →
      Holds (write64 m (sp - 8).toNat v) (sp - 8 + BitVec.ofNat 64 (8 * 1)) ws :=
    holds_write_below (Nat.le_refl 1) (by omega)
  rw [hsp] at hbelow
  rw [BitVec.sub_add_cancel]
  exact hbelow h

/-- A stack holds its words one by one. -/
theorem holds_iff {m : Mem} :
    ∀ {ws : List Word} {sp : Word}, Holds m sp ws ↔
      ∀ (i : Nat) (hi : i < ws.length), read64 m (sp + BitVec.ofNat 64 (8 * i)).toNat = ws[i] := by
  intro ws
  induction ws with
  | nil => exact fun {_} => ⟨fun _ i hi => absurd hi (Nat.not_lt_zero i), fun _ => trivial⟩
  | cons w ws ih =>
    intro sp
    have hshift : ∀ i, sp + BitVec.ofNat 64 (8 * (i + 1)) = sp + 8 + BitVec.ofNat 64 (8 * i) := by
      intro i
      rw [Nat.mul_add, Nat.add_comm, BitVec.ofNat_add, BitVec.add_assoc]
      rfl
    constructor
    · rintro ⟨hhead, htail⟩ i hi
      cases i with
      | zero => simpa using hhead
      | succ i =>
        rw [hshift]
        exact ih.mp htail i (Nat.lt_of_succ_lt_succ hi)
    · intro h
      refine ⟨by simpa using h 0 (Nat.succ_pos _), ih.mpr fun i hi => ?_⟩
      rw [← hshift]
      exact h (i + 1) (Nat.succ_lt_succ hi)

/-- Two readings of the same stack to the same depth agree. -/
theorem Holds.unique {m : Mem} :
    ∀ {ws vs : List Word} {sp : Word}, ws.length = vs.length →
      Holds m sp ws → Holds m sp vs → ws = vs
  | [], [], _, _, _, _ => rfl
  | _ :: _, _ :: _, _, hlen, hws, hvs => by
    rw [← hws.head, ← hvs.head, hws.tail.unique (Nat.succ.inj hlen) hvs.tail]

end Stack
