import KernelMemVirt.Janus.GuestTree
import KernelMemVirt.Rackdoll.Ownership
import Mathlib.Algebra.BigOperators.Group.List.Basic

/-!
# `duplicate_task` of the guest

`duplicate_level` copies a page, and when the page is a table it goes through the copy and
replaces each address by that of a copy of the page it refers to.  Two kinds of pages are
shared: those of the payload, and whatever entry 0 of a table of level 3 refers to.

* `Copied` relates a page to its copy, and `duplicateLevel_spec` shows that
  `duplicate_level` establishes it; it writes to pages only that were free.
* `duplicateTask_translate` is the translation of an address in the copy.
* `isolated_iff` says when parent and child are isolated.
-/

namespace KernelMemVirt.Janus.Guest

open ByteMem OwnerTree
open Rackdoll

/-! ## The source -/

/-- The fields of `struct task` that `duplicate_task` uses. -/
structure Task where
  pgt : Word
  loadPaddr : Word
  loadEndPaddr : Word

/-- The addresses of the payload. -/
def Task.InPayload (ctx : Task) (paddr : Word) : Prop :=
  ctx.loadPaddr ≤ paddr ∧ paddr < ctx.loadEndPaddr

instance (ctx : Task) (paddr : Word) : Decidable (ctx.InPayload paddr) :=
  inferInstanceAs (Decidable (_ ∧ _))

namespace Machine

variable (pool : Nat) (ctx : Task)

/-- The new page of `duplicate_level`, with the contents of the page at `paddr`. -/
def copyPage (s : Machine) (paddr : Word) : Machine × Word :=
  let (s, new) := s.alloc pool
  ({ s with mem := copy s.mem new.toNat paddr.toNat 4096 }, new)

/-- `(pgd[idx] & ~PTE_ADDR) | (sub & PTE_ADDR)`. -/
def setAddr (e sub : Word) : Word := (e &&& ~~~PTE_ADDR) ||| (sub &&& PTE_ADDR)

/-- The loop of `duplicate_level` at level `lvl`; `level` is the call in it. -/
def duplicateEntries (level : Machine → Word → Machine × Word) (lvl : Nat) (pgd : Word) :
    List Nat → Machine → Machine
  | [], s => s
  | idx :: rest, s =>
    let p := (pgd + 8 * BitVec.ofNat 64 idx).toNat
    let s :=
      if read64 s.mem p &&& 1 = 0 then s
      else if lvl = 3 ∧ idx = 0 then s
      else
        let (s, sub) := level s (read64 s.mem p &&& PTE_ADDR)
        { s with mem := write64 s.mem p (setAddr (read64 s.mem p) sub) }
    duplicateEntries level lvl pgd rest s

/-- `duplicate_level`. -/
def duplicateLevel : Nat → Machine → Word → Machine × Word
  | 0, s, paddr => if ctx.InPayload paddr then (s, paddr) else s.copyPage pool paddr
  | lvl + 1, s, paddr =>
    if ctx.InPayload paddr then (s, paddr)
    else
      let (s, new) := s.copyPage pool paddr
      (duplicateEntries (duplicateLevel lvl) (lvl + 1) new (List.range 512) s, new)

/-- `duplicate_task`. -/
def duplicateTask (s : Machine) : Machine × Task :=
  let (s, pml4) := duplicateLevel pool ctx 4 s ctx.pgt
  (s, { ctx with pgt := pml4 })

end Machine

/-! ## Entries with a new address -/

namespace Machine

/-- The bits apart from the address are kept. -/
theorem getLsbD_setAddr {e sub : Word} {i : Nat} (hi : i < 64) (hflag : i < 12 ∨ 60 ≤ i) :
    (setAddr e sub).getLsbD i = e.getLsbD i := by
  have hmask : PTE_ADDR.getLsbD i = false := by
    rw [getLsbD_pteAddr hi]
    rcases hflag with hlo | hhi
    · rw [decide_eq_false (by omega), Bool.false_and]
    · rw [decide_eq_false (show ¬ i < 60 by omega), Bool.and_false]
  unfold setAddr
  rw [BitVec.getLsbD_or, BitVec.getLsbD_and, BitVec.getLsbD_and, BitVec.getLsbD_not, hmask]
  simp [hi]

theorem setAddr_flags (e sub : Word) : setAddr e sub &&& ~~~PTE_ADDR = e &&& ~~~PTE_ADDR := by
  unfold setAddr
  apply BitVec.eq_of_getLsbD_eq
  intro i _
  simp only [BitVec.getLsbD_and, BitVec.getLsbD_or, BitVec.getLsbD_not]
  cases PTE_ADDR.getLsbD i <;> simp

theorem setAddr_addr (e sub : Word) : setAddr e sub &&& PTE_ADDR = sub &&& PTE_ADDR := by
  unfold setAddr
  apply BitVec.eq_of_getLsbD_eq
  intro i hi
  simp only [BitVec.getLsbD_and, BitVec.getLsbD_or, BitVec.getLsbD_not, hi]
  cases PTE_ADDR.getLsbD i <;> simp

theorem setAddr_self (e : Word) : setAddr e (e &&& PTE_ADDR) = e := by
  unfold setAddr
  apply BitVec.eq_of_getLsbD_eq
  intro i hi
  simp only [BitVec.getLsbD_and, BitVec.getLsbD_or, BitVec.getLsbD_not, hi]
  cases PTE_ADDR.getLsbD i <;> simp

/-- The frame of an entry with a new address. -/
theorem frame_setAddr (e : Word) {q : Nat} (haligned : q % 4096 = 0) (hmax : q < 2 ^ 52) :
    frame (setAddr e (BitVec.ofNat 64 q)) = q := by
  rw [← frame_pteAddr, setAddr_addr, frame_pteAddr]
  unfold frame
  rw [BitVec.toNat_ofNat]
  omega

end Machine

/-! ## Copies -/

/-- The pages that are allocated now, and were free before. -/
def New (P : PoolRegion) (bitset bitset' : List Word) (q : Nat) : Prop :=
  P.IsPage q ∧ P.allocated bitset q = false ∧ P.allocated bitset' q = true

/-- The entries that `duplicate_level` leaves as they are at level `lvl`. -/
def Left (mem : Mem) (lvl p idx : Nat) : Prop :=
  present (entry mem p idx) = false ∨ lvl = 3 ∧ idx = 0

instance (mem : Mem) (lvl p idx : Nat) : Decidable (Left mem lvl p idx) :=
  inferInstanceAs (Decidable (_ ∨ _))

/-- Entry `idx` of the copy `q` of the table `p` at level `lvl`; `sub` relates the pages
below to their copies. -/
def CopiedEntry (mem₀ mem : Mem) (sub : Nat → Nat → Prop) (lvl p q idx : Nat) : Prop :=
  if Left mem₀ lvl p idx then entry mem q idx = entry mem₀ p idx
  else ∃ r, sub (frame (entry mem₀ p idx)) r ∧ r % 4096 = 0 ∧ r < 2 ^ 52 ∧
    entry mem q idx = Machine.setAddr (entry mem₀ p idx) (BitVec.ofNat 64 r)

/-- The page `q` of `mem` is the copy of the page `p` of `mem₀` at level `lvl`. -/
def Copied (ctx : Task) (new : Nat → Prop) (mem₀ mem : Mem) : Nat → Nat → Nat → Prop
  | 0, p, q =>
    if ctx.InPayload (BitVec.ofNat 64 p) then q = p
    else new q ∧ ∀ i, i < 4096 → mem (q + i) = mem₀ (p + i)
  | lvl + 1, p, q =>
    if ctx.InPayload (BitVec.ofNat 64 p) then q = p
    else new q ∧ ∀ idx, idx < 512 →
      CopiedEntry mem₀ mem (Copied ctx new mem₀ mem lvl) (lvl + 1) p q idx

/-- The pages that `duplicate_level` takes for entry `idx`; `sub` is their number for a page
below. -/
def neededEntry (mem : Mem) (sub : Nat → Nat) (lvl p idx : Nat) : Nat :=
  if Left mem lvl p idx then 0 else sub (frame (entry mem p idx))

/-- The number of pages that `duplicate_level` takes. -/
def needed (ctx : Task) (mem : Mem) : Nat → Nat → Nat
  | 0, p => if ctx.InPayload (BitVec.ofNat 64 p) then 0 else 1
  | lvl + 1, p =>
    if ctx.InPayload (BitVec.ofNat 64 p) then 0
    else ((List.range 512).map (neededEntry mem (needed ctx mem lvl) (lvl + 1) p)).sum + 1

section

variable {ctx : Task} {new new' : Nat → Prop} {mem₀ mem mem' : Mem}

theorem CopiedEntry.mono {sub sub' : Nat → Nat → Prop} {lvl p q idx : Nat}
    (h : CopiedEntry mem₀ mem sub lvl p q idx) (hsub : ∀ x r, sub x r → sub' x r)
    (hentry : entry mem' q idx = entry mem q idx) :
    CopiedEntry mem₀ mem' sub' lvl p q idx := by
  unfold CopiedEntry at h ⊢
  rw [hentry]
  split at h
  · next hleft => rw [if_pos hleft]; exact h
  · next hleft =>
    rw [if_neg hleft]
    obtain ⟨r, hr, hrest⟩ := h
    exact ⟨r, hsub _ r hr, hrest⟩

theorem copied_of_payload {p : Nat} (hin : ctx.InPayload (BitVec.ofNat 64 p)) (lvl : Nat) :
    Copied ctx new mem₀ mem lvl p p := by
  cases lvl with
  | zero =>
    unfold Copied
    rw [if_pos hin]
  | succ lvl =>
    unfold Copied
    rw [if_pos hin]

/-- The entries of a page that was copied. -/
theorem entry_of_bytes {p q idx : Nat} (hidx : idx < 512)
    (hbytes : ∀ i, i < 4096 → mem (q + i) = mem₀ (p + i)) :
    entry mem q idx = entry mem₀ p idx := by
  unfold entry
  refine readBytes_ext fun k hk => ?_
  rw [extractLsb'_readBytes mem₀ _ hk, Nat.add_assoc, Nat.add_assoc, hbytes _ (by omega)]

/-- A copy stays one while its pages are left alone. -/
theorem Copied.mono (hnew : ∀ x, new x → new' x)
    (hmem : ∀ x, new x → ∀ a, x ≤ a → a < x + 4096 → mem' a = mem a) :
    ∀ {lvl p q : Nat}, Copied ctx new mem₀ mem lvl p q → Copied ctx new' mem₀ mem' lvl p q := by
  intro lvl
  induction lvl with
  | zero =>
    intro p q h
    unfold Copied at h ⊢
    split at h
    · next hin => rw [if_pos hin]; exact h
    · next hin =>
      rw [if_neg hin]
      obtain ⟨hq, hbytes⟩ := h
      refine ⟨hnew q hq, fun i hi => ?_⟩
      rw [hmem q hq (q + i) (by omega) (by omega), hbytes i hi]
  | succ lvl ih =>
    intro p q h
    unfold Copied at h ⊢
    split at h
    · next hin => rw [if_pos hin]; exact h
    · next hin =>
      rw [if_neg hin]
      obtain ⟨hq, hentries⟩ := h
      exact ⟨hnew q hq, fun idx hidx =>
        (hentries idx hidx).mono (fun x r => ih) (entry_congr (hmem q hq) hidx)⟩

end

/-! ## Calls -/

section

variable {P : PoolRegion} {bitset₀ : List Word} {mem₀ : Mem} {s s₁ s₂ : Machine}

/-- Between two calls: what was not free at the start has its contents. -/
structure Ready (P : PoolRegion) (bitset₀ : List Word) (mem₀ : Mem) (s : Machine) : Prop where
  words : s.bitset.length = BITSET_SIZE
  bits : ∀ x, P.IsPage x → P.allocated bitset₀ x = true → P.allocated s.bitset x = true
  mem : ∀ a, ¬ P.Free bitset₀ a → s.mem a = mem₀ a

/-- What a call does: it takes `need` pages, and changes bytes that were free, and those of
`own`. -/
structure Effect (P : PoolRegion) (s s' : Machine) (need : Nat) (own : Nat → Prop) : Prop where
  words : s'.bitset.length = BITSET_SIZE
  free : Bitset.free s.bitset = Bitset.free s'.bitset + need
  bits : ∀ x, P.IsPage x → P.allocated s.bitset x = true → P.allocated s'.bitset x = true
  mem : ∀ a, ¬ P.Free s.bitset a → ¬ own a → s'.mem a = s.mem a

theorem free_of_free {bitset bitset' : List Word}
    (hbits : ∀ x, P.IsPage x → P.allocated bitset x = true → P.allocated bitset' x = true) {a : Nat}
    (h : P.Free bitset' a) : P.Free bitset a := by
  obtain ⟨q, hq, hclear, hrange⟩ := h
  refine ⟨q, hq, ?_, hrange⟩
  by_contra hset
  rw [Bool.not_eq_false] at hset
  cases (hbits q hq hset).symm.trans hclear

theorem Effect.refl {own : Nat → Prop} (hwords : s.bitset.length = BITSET_SIZE) :
    Effect P s s 0 own :=
  ⟨hwords, rfl, fun _ _ h => h, fun _ _ _ => rfl⟩

theorem Effect.trans {need need' : Nat} {own : Nat → Prop} (h : Effect P s s₁ need own)
    (h' : Effect P s₁ s₂ need' own) : Effect P s s₂ (need + need') own where
  words := h'.words
  free := by
    have hfree := h.free
    have hfree' := h'.free
    omega
  bits := fun x hx hbit => h'.bits x hx (h.bits x hx hbit)
  mem := fun a ha hown =>
    (h'.mem a (fun hfree => ha (free_of_free h.bits hfree)) hown).trans (h.mem a ha hown)

theorem Effect.own {need : Nat} {own own' : Nat → Prop} (h : Effect P s s₁ need own)
    (hsub : ∀ a, own a → own' a) : Effect P s s₁ need own' :=
  ⟨h.words, h.free, h.bits, fun a ha hown => h.mem a ha fun h' => hown (hsub a h')⟩

theorem Ready.effect {need : Nat} {own : Nat → Prop} (h : Ready P bitset₀ mem₀ s)
    (heffect : Effect P s s₁ need own) (hown : ∀ a, own a → P.Free bitset₀ a) :
    Ready P bitset₀ mem₀ s₁ where
  words := heffect.words
  bits := fun x hx hbit => heffect.bits x hx (h.bits x hx hbit)
  mem := fun a ha =>
    (heffect.mem a (fun hfree => ha (free_of_free h.bits hfree)) fun h' => ha (hown a h')).trans
      (h.mem a ha)

/-- What `duplicate_level` does for a page of level `lvl` that `source` holds of. -/
def LevelSpec (P : PoolRegion) (ctx : Task) (bitset₀ : List Word) (mem₀ : Mem) (source : Nat → Prop)
    (lvl : Nat) (level : Machine → Word → Machine × Word) : Prop :=
  ∀ s p, Ready P bitset₀ mem₀ s → source p → needed ctx mem₀ lvl p ≤ Bitset.free s.bitset →
    ∃ s' q, level s (BitVec.ofNat 64 p) = (s', BitVec.ofNat 64 q) ∧
      Effect P s s' (needed ctx mem₀ lvl p) (fun _ => False) ∧ q % 4096 = 0 ∧ q < 2 ^ 52 ∧
        Copied ctx (New P s.bitset s'.bitset) mem₀ s'.mem lvl p q

variable {ctx : Task} {source : Nat → Prop} {lvl p q : Nat}
  {level : Machine → Word → Machine × Word}

/-- One turn of the loop: the entry gets the address of the copy. -/
theorem duplicateEntry_spec (hlevel : LevelSpec P ctx bitset₀ mem₀ source lvl level)
    (hq : P.IsPage q) (hbit : P.allocated s.bitset q = true) (hready : Ready P bitset₀ mem₀ s)
    {idx : Nat} (hidx : idx < 512) (hentry : entry s.mem q idx = entry mem₀ p idx)
    (hsource : source (frame (entry mem₀ p idx)))
    (hneed : needed ctx mem₀ lvl (frame (entry mem₀ p idx)) ≤ Bitset.free s.bitset) :
    ∃ s' r, level s (BitVec.ofNat 64 (frame (entry mem₀ p idx))) = (s', BitVec.ofNat 64 r) ∧
      entry s'.mem q idx = entry mem₀ p idx ∧ r % 4096 = 0 ∧ r < 2 ^ 52 ∧
      ∀ s₁, s₁ = { s' with
          mem := write64 s'.mem (q + 8 * idx)
            (Machine.setAddr (entry mem₀ p idx) (BitVec.ofNat 64 r)) } →
        Effect P s s₁ (needed ctx mem₀ lvl (frame (entry mem₀ p idx))) (InPage q) ∧
        (∀ j, j < 512 → entry s₁.mem q j =
          if j = idx then Machine.setAddr (entry mem₀ p idx) (BitVec.ofNat 64 r)
          else entry s.mem q j) ∧
        Copied ctx (New P s.bitset s₁.bitset) mem₀ s₁.mem lvl (frame (entry mem₀ p idx)) r := by
  have hqmod := hq.aligned
  obtain ⟨s', r, hcall, heffect, hr, hrlt, hcopied⟩ := hlevel s _ hready hsource hneed
  have hkept : ∀ a, InPage q a → s'.mem a = s.mem a := fun a ha =>
    heffect.mem a (PoolRegion.not_free hqmod (fun _ => hbit) ha.1 ha.2) id
  have hsame : ∀ j, j < 512 → entry s'.mem q j = entry s.mem q j := fun j hj =>
    entry_congr (fun a hlo hhi => hkept a ⟨hlo, hhi⟩) hj
  refine ⟨s', r, hcall, (hsame idx hidx).trans hentry, hr, hrlt, fun s₁ hs₁ => ?_⟩
  subst hs₁
  refine ⟨⟨heffect.words, heffect.free, heffect.bits, fun a ha hown => ?_⟩, fun j hj => ?_, ?_⟩
  · unfold InPage at hown
    exact (writeBytes_apply_of_outside (by omega)).trans (heffect.mem a ha id)
  · apply (entry_write64 hqmod hqmod hidx hj).trans
    rw [hsame j hj]
    exact if_congr (and_iff_right rfl) rfl rfl
  · refine hcopied.mono (fun _ hx => hx) fun x hx a hlo hhi => writeBytes_apply_of_outside ?_
    have hne : x ≠ q := by
      intro heq
      rw [heq] at hx
      cases hx.2.1.symm.trans hbit
    have hout := not_inPage hqmod hx.1.aligned hne ⟨hlo, hhi⟩
    unfold InPage at hout
    omega

theorem entryPtr {q idx : Nat} (hq : q < 2 ^ 52) (hidx : idx < 512) :
    (BitVec.ofNat 64 q + 8 * BitVec.ofNat 64 idx).toNat = q + 8 * idx := by
  rw [BitVec.toNat_add, BitVec.toNat_mul, BitVec.toNat_ofNat, BitVec.toNat_ofNat,
    show (8 : Word).toNat = 8 from rfl]
  omega

/-- What the loop does to the copy `q` of the table `p`, for the entries of a list. -/
structure LoopSpec (P : PoolRegion) (ctx : Task) (mem₀ : Mem) (lvl p q : Nat) (l : List Nat)
    (s s' : Machine) : Prop where
  effect : Effect P s s' (l.map (neededEntry mem₀ (needed ctx mem₀ lvl) (lvl + 1) p)).sum (InPage q)
  other : ∀ idx, idx < 512 → idx ∉ l → entry s'.mem q idx = entry s.mem q idx
  done : ∀ idx ∈ l, CopiedEntry mem₀ s'.mem
    (Copied ctx (New P s.bitset s'.bitset) mem₀ s'.mem lvl) (lvl + 1) p q idx

/-- One turn of the loop leaves an entry or replaces its address by that of a copy. -/
theorem duplicateEntries_spec (hlevel : LevelSpec P ctx bitset₀ mem₀ source lvl level)
    (hsource : ∀ idx, idx < 512 → ¬ Left mem₀ (lvl + 1) p idx →
      source (frame (entry mem₀ p idx)) ∧
        entry mem₀ p idx &&& PTE_ADDR = BitVec.ofNat 64 (frame (entry mem₀ p idx)))
    (hq : P.IsPage q) (hqfree : P.allocated bitset₀ q = false) :
    ∀ {l : List Nat} {s : Machine}, l.Nodup → (∀ idx ∈ l, idx < 512) → Ready P bitset₀ mem₀ s →
      P.allocated s.bitset q = true → (∀ idx ∈ l, entry s.mem q idx = entry mem₀ p idx) →
      (l.map (neededEntry mem₀ (needed ctx mem₀ lvl) (lvl + 1) p)).sum ≤ Bitset.free s.bitset →
      LoopSpec P ctx mem₀ lvl p q l s
        (Machine.duplicateEntries level (lvl + 1) (BitVec.ofNat 64 q) l s) := by
  have hqlt := hq.lt
  have hqmod := hq.aligned
  intro l
  induction l with
  | nil =>
    intro s _ _ hready _ _ _
    exact ⟨Effect.refl hready.words, fun _ _ _ => rfl, fun _ h => absurd h List.not_mem_nil⟩
  | cons idx rest ih =>
    intro s hnodup hlt hready hbit hentries hneed
    rw [List.nodup_cons] at hnodup
    have hidx := hlt idx List.mem_cons_self
    have hrest : ∀ j ∈ rest, j < 512 := fun j hj => hlt j (List.mem_cons_of_mem idx hj)
    have hentry := hentries idx List.mem_cons_self
    have hread : read64 s.mem (q + 8 * idx) = entry mem₀ p idx := hentry
    rw [List.map_cons, List.sum_cons] at hneed
    unfold Machine.duplicateEntries
    dsimp only
    rw [entryPtr (by omega) hidx, hread]
    by_cases hleft : Left mem₀ (lvl + 1) p idx
    · have hturn : ∀ t : Machine, (if entry mem₀ p idx &&& 1 = 0 then s
          else if lvl + 1 = 3 ∧ idx = 0 then s else t) = s := by
        intro t
        rcases hleft with habsent | hshared
        · exact if_pos ((and_one_eq_zero _).mpr habsent)
        · rw [if_pos hshared, ite_self]
      have hzero : neededEntry mem₀ (needed ctx mem₀ lvl) (lvl + 1) p idx = 0 := if_pos hleft
      rw [hturn]
      rw [hzero, Nat.zero_add] at hneed
      have hloop := ih hnodup.2 hrest hready hbit
        (fun j hj => hentries j (List.mem_cons_of_mem idx hj)) hneed
      refine ⟨?_, fun j hj hnot => ?_, fun j hj => ?_⟩
      · rw [List.map_cons, List.sum_cons, hzero, Nat.zero_add]
        exact hloop.effect
      · exact hloop.other j hj fun hin => hnot (List.mem_cons_of_mem idx hin)
      · rcases List.mem_cons.mp hj with rfl | hin
        · unfold CopiedEntry
          rw [if_pos hleft, hloop.other j hidx hnodup.1, hentry]
        · exact hloop.done j hin
    · obtain ⟨hpage, haddr⟩ := hsource idx hidx hleft
      have hcount : neededEntry mem₀ (needed ctx mem₀ lvl) (lvl + 1) p idx =
          needed ctx mem₀ lvl (frame (entry mem₀ p idx)) := if_neg hleft
      rw [hcount] at hneed
      obtain ⟨s', r, hcall, hsame, hr, hrlt, hturn⟩ :=
        duplicateEntry_spec hlevel hq hbit hready hidx hentry hpage (by omega)
      have hread' : read64 s'.mem (q + 8 * idx) = entry mem₀ p idx := hsame
      obtain ⟨heffect, hset, hcopied⟩ := hturn _ rfl
      have hpresent : ¬ entry mem₀ p idx &&& 1 = 0 := by
        rw [and_one_eq_zero]
        exact fun h => hleft (.inl h)
      rw [if_neg hpresent, if_neg fun h => hleft (.inr h), haddr, hcall]
      dsimp only
      rw [hread']
      have hfree := heffect.free
      have hloop := ih hnodup.2 hrest
        (hready.effect heffect fun a ha => ⟨q, hq, hqfree, ha⟩) (heffect.bits q hq hbit)
        (fun j hj => by
          have hne : j ≠ idx := fun heq => hnodup.1 (heq ▸ hj)
          rw [hset j (hrest j hj), if_neg hne, hentries j (List.mem_cons_of_mem idx hj)])
        (by omega)
      refine ⟨?_, fun j hj hnot => ?_, fun j hj => ?_⟩
      · rw [List.map_cons, List.sum_cons, hcount]
        exact heffect.trans hloop.effect
      · have hne : j ≠ idx := fun heq => hnot (heq ▸ List.mem_cons_self)
        rw [hloop.other j hj fun hin => hnot (List.mem_cons_of_mem idx hin), hset j hj, if_neg hne]
      · rcases List.mem_cons.mp hj with rfl | hin
        · unfold CopiedEntry
          rw [if_neg hleft]
          refine ⟨r, hcopied.mono (fun x hx => ?_) (fun x hx a hlo hhi => ?_), hr, hrlt, ?_⟩
          · exact ⟨hx.1, hx.2.1, hloop.effect.bits x hx.1 hx.2.2⟩
          · have hne : x ≠ q := by
              intro heq
              rw [heq] at hx
              cases hx.2.1.symm.trans hbit
            exact hloop.effect.mem a
              (PoolRegion.not_free hx.1.aligned (fun _ => hx.2.2) hlo hhi)
              (not_inPage hqmod hx.1.aligned hne ⟨hlo, hhi⟩)
          · rw [hloop.other j hidx hnodup.1, hset j hidx, if_pos rfl]
        · refine (hloop.done j hin).mono (fun x y hxy => ?_) rfl
          refine hxy.mono (fun z hz => ⟨hz.1, ?_, hz.2.2⟩) fun _ _ _ _ _ => rfl
          by_contra hset'
          rw [Bool.not_eq_false] at hset'
          cases (heffect.bits z hz.1 hset').symm.trans hz.2.1

/-- The new page of a call. -/
theorem copyPage_spec (hready : Ready P bitset₀ mem₀ s) {p : Nat} (haligned : p % 4096 = 0)
    (hmax : p < 2 ^ 52) (hused : P.IsPage p → P.allocated bitset₀ p = true)
    (hfree : 0 < Bitset.free s.bitset) :
    ∃ s₁ q, s.copyPage P.base (BitVec.ofNat 64 p) = (s₁, BitVec.ofNat 64 q) ∧
      Effect P s s₁ 1 (fun _ => False) ∧ New P s.bitset s₁.bitset q ∧
        ∀ i, i < 4096 → s₁.mem (q + i) = mem₀ (p + i) := by
  rcases P.alloc_cases hready.words with ⟨bitset, q, hpage, htake⟩ | ⟨hnone, -⟩
  · refine ⟨{ s with bitset, mem := copy s.mem q p 4096 }, q, ?_,
      ⟨htake.words, htake.free, fun x hx hbit => ?_, fun a ha _ => ?_⟩,
      ⟨htake.page, htake.unallocated, ?_⟩, fun i hi => ?_⟩
    · have hp : (BitVec.ofNat 64 p).toNat = p := by
        rw [BitVec.toNat_ofNat]
        omega
      unfold Machine.copyPage Machine.alloc
      rw [hpage]
      dsimp only
      rw [htake.page.toNat_ofNat, hp]
    · exact htake.allocated hx (.inr hbit)
    · apply copy_apply_of_outside
      by_contra hin
      exact ha ⟨q, htake.page, htake.unallocated, by omega, by omega⟩
    · exact htake.allocated htake.page (.inl rfl)
    · refine (copy_apply_of_inside hi).trans (hready.mem _ ?_)
      exact PoolRegion.not_free haligned hused (by omega) (by omega)
  · omega

end

/-! ## The tree of a task -/

/-- The first GiB of the address space, below pml4[0] and pml3[0]. -/
def FirstGiB (v : Nat) : Prop := v % 2 ^ 48 < 2 ^ 30

instance (v : Nat) : Decidable (FirstGiB v) := inferInstanceAs (Decidable (_ < _))

theorem firstGiB_iff (v : Nat) : FirstGiB v ↔ pathIndex v 0 = 0 ∧ pathIndex v 1 = 0 := by
  unfold FirstGiB pathIndex tableIndex
  norm_num
  omega

/-- A tree with the kernel in the first GiB only: huge pages are there, and the other pages
that are mapped are in use, as the tables are. -/
structure TaskTree (P : PoolRegion) (ctx : Task) (s : Machine) : Prop where
  words : s.bitset.length = BITSET_SIZE
  root : ctx.pgt = BitVec.ofNat 64 (frame ctx.pgt)
  inUse : TablesInUse P s.bitset s.mem (frame ctx.pgt)
  physical : ∀ v d p, tableAt s.mem (frame ctx.pgt) v d = some p →
    present (entry s.mem p (pathIndex v d)) = true →
      (entry s.mem p (pathIndex v d) &&& PTE_ADDR).toNat < 2 ^ 52
  kernel : ∀ v d p, 0 < d → d < 3 → tableAt s.mem (frame ctx.pgt) v d = some p →
    present (entry s.mem p (pathIndex v d)) = true → huge (entry s.mem p (pathIndex v d)) = true →
      FirstGiB v
  payload : ∀ v d p, tableAt s.mem (frame ctx.pgt) v d = some p →
    ¬ ctx.InPayload (BitVec.ofNat 64 p)
  data : ∀ v p, ¬ FirstGiB v → tableAt s.mem (frame ctx.pgt) v 3 = some p →
    present (entry s.mem p (pathIndex v 3)) = true →
      P.IsPage (frame (entry s.mem p (pathIndex v 3))) →
        P.allocated s.bitset (frame (entry s.mem p (pathIndex v 3))) = true

/-- The pages of level `lvl` that `duplicate_level` reaches. -/
def Source (P : PoolRegion) (ctx : Task) (s : Machine) : Nat → Nat → Prop
  | 0, p => p % 4096 = 0 ∧ p < 2 ^ 52 ∧ (P.IsPage p → P.allocated s.bitset p = true)
  | n + 1, p => ∃ v, tableAt s.mem (frame ctx.pgt) v (3 - n) = some p ∧
    (n ≤ 1 → pathIndex v 1 ≠ 0)

section

variable {P : PoolRegion} {ctx : Task} {s₀ : Machine}

theorem Source.page (h : TaskTree P ctx s₀) {lvl p : Nat} (hp : Source P ctx s₀ lvl p) :
    p % 4096 = 0 ∧ p < 2 ^ 52 ∧ (P.IsPage p → P.allocated s₀.bitset p = true) := by
  cases lvl with
  | zero => exact hp
  | succ n =>
    obtain ⟨v, hv, -⟩ := hp
    exact ⟨tableAt_aligned (frame_aligned _) hv,
      Rackdoll.tableAt_lt (frame_lt _) hv, h.inUse _ p hv⟩

/-- The page that an entry refers to, when `duplicate_level` goes there. -/
theorem Source.next (h : TaskTree P ctx s₀) {n p idx : Nat} (hn : n ≤ 3)
    (hp : Source P ctx s₀ (n + 1) p) (hidx : idx < 512) (hleft : ¬ Left s₀.mem (n + 1) p idx) :
    Source P ctx s₀ n (frame (entry s₀.mem p idx)) ∧
      entry s₀.mem p idx &&& PTE_ADDR = BitVec.ofNat 64 (frame (entry s₀.mem p idx)) := by
  obtain ⟨v, hv, hsecond⟩ := hp
  have hpresent : present (entry s₀.mem p idx) = true := by
    by_contra habsent
    rw [Bool.not_eq_true] at habsent
    exact hleft (.inl habsent)
  obtain ⟨w, -, hw⟩ := exists_address
    (fun k => if k < 3 - n then pathIndex v k else idx) fun k => by
      split
      · exact pathIndex_lt v k
      · exact hidx
  have hbefore : ∀ k, k < 3 - n → pathIndex w k = pathIndex v k := fun k hk =>
    (hw k (by omega)).trans (if_pos hk)
  have hhere : pathIndex w (3 - n) = idx := (hw _ (by omega)).trans (if_neg (by omega))
  have hsecond' : n ≤ 2 → pathIndex w 1 ≠ 0 := by
    intro hn2
    by_cases hlast : n = 2
    · subst hlast
      rw [hhere]
      exact fun heq => hleft (.inr ⟨rfl, heq⟩)
    · rw [hbefore 1 (by omega)]
      exact hsecond (by omega)
  have htable : tableAt s₀.mem (frame ctx.pgt) w (3 - n) = some p := by
    have hsame : indices w (3 - n) = indices v (3 - n) :=
      indices_eq_iff.mpr hbefore
    unfold tableAt at hv ⊢
    rw [hsame]
    exact hv
  rw [← hhere] at hpresent ⊢
  refine ⟨?_, pteAddr_eq (h.physical w _ p htable hpresent)⟩
  cases n with
  | zero =>
    refine ⟨frame_aligned _, frame_lt _, h.data w p ?_ htable hpresent⟩
    rw [firstGiB_iff]
    exact fun hfirst => hsecond' (by omega) hfirst.2
  | succ n =>
    refine ⟨w, ?_, fun hn1 => hsecond' (by omega)⟩
    have hchild := child_of_present (show 3 - (n + 1) < 3 by omega) hpresent (by
      by_cases hzero : 3 - (n + 1) = 0
      · exact .inl hzero
      · refine .inr ?_
        by_contra hhuge
        rw [Bool.not_eq_false] at hhuge
        have hfirst := h.kernel w _ p (by omega) (by omega) htable hpresent hhuge
        exact hsecond' (by omega) ((firstGiB_iff w).mp hfirst).2)
    rw [show 3 - n = 3 - (n + 1) + 1 by omega, tableAt_succ, htable]
    exact hchild

/-- `duplicate_level` makes a copy, of new pages. -/
theorem duplicateLevel_spec (h : TaskTree P ctx s₀) : ∀ {lvl : Nat}, lvl ≤ 4 →
    LevelSpec P ctx s₀.bitset s₀.mem (Source P ctx s₀ lvl) lvl
      (Machine.duplicateLevel P.base ctx lvl) := by
  intro lvl
  induction lvl with
  | zero =>
    intro _ s p hready hp hneed
    obtain ⟨haligned, hmax, hused⟩ := hp.page h
    unfold Machine.duplicateLevel
    by_cases hin : ctx.InPayload (BitVec.ofNat 64 p)
    · have hzero : needed ctx s₀.mem 0 p = 0 := if_pos hin
      rw [if_pos hin, hzero]
      exact ⟨s, p, rfl, Effect.refl hready.words, haligned, hmax, copied_of_payload hin _⟩
    · have hone : needed ctx s₀.mem 0 p = 1 := if_neg hin
      rw [if_neg hin, hone]
      obtain ⟨s₁, q, hcopy, heffect, hnew, hbytes⟩ :=
        copyPage_spec hready haligned hmax hused (by omega)
      have hqlt := hnew.1.lt
      refine ⟨s₁, q, hcopy, heffect, hnew.1.aligned, by omega, ?_⟩
      unfold Copied
      rw [if_neg hin]
      exact ⟨hnew, hbytes⟩
  | succ lvl ih =>
    intro hlvl s p hready hp hneed
    obtain ⟨haligned, hmax, hused⟩ := hp.page h
    unfold Machine.duplicateLevel
    by_cases hin : ctx.InPayload (BitVec.ofNat 64 p)
    · have hzero : needed ctx s₀.mem (lvl + 1) p = 0 := if_pos hin
      rw [if_pos hin, hzero]
      exact ⟨s, p, rfl, Effect.refl hready.words, haligned, hmax, copied_of_payload hin _⟩
    have hcount : needed ctx s₀.mem (lvl + 1) p = ((List.range 512).map
        (neededEntry s₀.mem (needed ctx s₀.mem lvl) (lvl + 1) p)).sum + 1 := if_neg hin
    rw [if_neg hin]
    rw [hcount] at hneed ⊢
    obtain ⟨s₁, q, hcopy, heffect, hnew, hbytes⟩ :=
      copyPage_spec hready haligned hmax hused (by omega)
    have hqlt := hnew.1.lt
    have hfree := heffect.free
    have hqfree : P.allocated s₀.bitset q = false := by
      by_contra hset
      rw [Bool.not_eq_false] at hset
      cases (hready.bits q hnew.1 hset).symm.trans hnew.2.1
    have hentries : ∀ idx ∈ List.range 512, entry s₁.mem q idx = entry s₀.mem p idx :=
      fun idx hidx => entry_of_bytes (List.mem_range.mp hidx) hbytes
    have hloop := duplicateEntries_spec (ih (by omega))
      (fun idx hidx hleft => hp.next h (by omega) hidx hleft) hnew.1 hqfree List.nodup_range
      (fun idx hidx => List.mem_range.mp hidx) (hready.effect heffect fun _ hno => hno.elim)
      hnew.2.2 hentries (by omega)
    rw [hcopy]
    refine ⟨_, q, rfl, ⟨hloop.effect.words, ?_, fun x hx hbit => ?_, fun a ha _ => ?_⟩,
      hnew.1.aligned, by omega, ?_⟩
    · have hrest := hloop.effect.free
      omega
    · exact hloop.effect.bits x hx (heffect.bits x hx hbit)
    · have hout : ¬ InPage q a := fun hpage => ha ⟨q, hnew.1, hnew.2.1, hpage⟩
      exact (hloop.effect.mem a (fun hclear => ha (free_of_free heffect.bits hclear)) hout).trans
        (heffect.mem a ha id)
    · unfold Copied
      rw [if_neg hin]
      refine ⟨⟨hnew.1, hnew.2.1, hloop.effect.bits q hnew.1 hnew.2.2⟩, fun idx hidx => ?_⟩
      refine (hloop.done idx (List.mem_range.mpr hidx)).mono (fun x y hxy => ?_) rfl
      refine hxy.mono (fun z hz => ⟨hz.1, ?_, hz.2.2⟩) fun _ _ _ _ _ => rfl
      by_contra hset
      rw [Bool.not_eq_false] at hset
      cases (heffect.bits z hz.1 hset).symm.trans hz.2.1

/-! ## Translations of a copy -/

/-- The flag bits of two translations. -/
structure SameFlags (t t' : Translation) : Prop where
  writable : t'.writable = t.writable
  user : t'.user = t.user
  executable : t'.executable = t.executable
  leaf : t'.leaf &&& ~~~PTE_ADDR = t.leaf &&& ~~~PTE_ADDR

/-- The page of a translation. -/
def pageBase (t : Translation) : Nat := t.paddr / 4096 * 4096

/-- The translations of `v` by a tree and by its copy. -/
structure CopiedTranslation (ctx : Task) (new : Nat → Prop) (mem₀ mem : Mem) (v : Nat)
    (t t' : Translation) : Prop where
  flags : SameFlags t t'
  shared : pathIndex v 1 = 0 ∨ ctx.InPayload (BitVec.ofNat 64 (pageBase t)) → t' = t
  copied : pathIndex v 1 ≠ 0 → ¬ ctx.InPayload (BitVec.ofNat 64 (pageBase t)) →
    new (pageBase t') ∧ ∀ i, i < 4096 → mem (pageBase t' + i) = mem₀ (pageBase t + i)

variable {new : Nat → Prop} {mem : Mem}

theorem CopiedTranslation.same {v : Nat} {t : Translation} (h : pathIndex v 1 = 0 ∨
    ctx.InPayload (BitVec.ofNat 64 (pageBase t))) :
    CopiedTranslation ctx new s₀.mem mem v t t where
  flags := ⟨rfl, rfl, rfl, rfl⟩
  shared := fun _ => rfl
  copied := fun hindex hpage => absurd h (not_or.mpr ⟨hindex, hpage⟩)

/-- One more entry above, with the same flags. -/
theorem CopiedTranslation.restrict {v : Nat} {t t' : Translation} {e e' : Word}
    (h : CopiedTranslation ctx new s₀.mem mem v t t')
    (hbits : ∀ i, i < 64 → i < 12 ∨ 60 ≤ i → e'.getLsbD i = e.getLsbD i) :
    CopiedTranslation ctx new s₀.mem mem v (Rackdoll.restrict e t) (Rackdoll.restrict e' t') := by
  have h1 := hbits 1 (by omega) (by omega)
  have h2 := hbits 2 (by omega) (by omega)
  have h63 := hbits 63 (by omega) (by omega)
  unfold Rackdoll.restrict
  refine ⟨⟨?_, ?_, ?_, h.flags.leaf⟩, fun hshared => ?_, h.copied⟩
  · dsimp only
    rw [h1, h.flags.writable]
  · dsimp only
    rw [h2, h.flags.user]
  · dsimp only
    rw [h63, h.flags.executable]
  · rw [h1, h2, h63, h.shared hshared]

theorem optionRel_map {α : Type} {R R' : α → α → Prop} {f g : α → α} {a b : Option α}
    (h : Option.Rel R a b) (hmap : ∀ x y, R x y → R' (f x) (g y)) :
    Option.Rel R' (a.map f) (b.map g) := by
  cases h with
  | some hxy => exact .some (hmap _ _ hxy)
  | none => exact .none

theorem pageBase_ofLeaf (e : Word) (v : Nat) : pageBase (ofLeaf e v) = frame e := by
  have haligned := frame_aligned e
  unfold pageBase ofLeaf
  dsimp only
  omega

/-- The translation of `v` from a table on, and from its copy. -/
theorem walkFrom_copied (h : TaskTree P ctx s₀) (hsame : SameTables s₀.mem mem (frame ctx.pgt))
    {v : Nat} : ∀ {n d p q : Nat}, d + n = 4 → tableAt s₀.mem (frame ctx.pgt) v d = some p →
      (2 ≤ d → pathIndex v 1 ≠ 0) → Copied ctx new s₀.mem mem n p q →
      Option.Rel (CopiedTranslation ctx new s₀.mem mem v) (walkFrom s₀.mem v n p)
        (walkFrom mem v n q) := by
  intro n
  induction n with
  | zero =>
    intro d p q hd hp _ _
    have hle := tableAt_le hp
    omega
  | succ n ih =>
    intro d p q hd hp hsecond hcopied
    have hlt := pathIndex_lt v d
    have htable : 4 - d = n + 1 := by omega
    have hrest : 3 - d = n := by omega
    unfold Copied at hcopied
    rw [if_neg (h.payload v d p hp)] at hcopied
    have hentry := hcopied.2 _ hlt
    unfold CopiedEntry at hentry
    by_cases habsent : present (entry s₀.mem p (pathIndex v d)) = false
    · rw [if_pos (.inl habsent)] at hentry
      rw [← htable, walkFrom_eq_none (by omega) habsent,
        walkFrom_eq_none (by omega) (by rw [hentry]; exact habsent)]
      exact .none
    rw [Bool.not_eq_false] at habsent
    by_cases hshared : n + 1 = 3 ∧ pathIndex v d = 0
    · rw [if_pos (.inr hshared)] at hentry
      obtain rfl : d = 1 := by omega
      have hequal : walkFrom mem v (n + 1) q = walkFrom s₀.mem v (n + 1) p :=
        walkFrom_step_congr hd hp hentry fun x hx =>
          walkFrom_congr_at (hsame.agreeOn v 4) (by omega) hx
      rw [hequal]
      cases walkFrom s₀.mem v (n + 1) p with
      | none => exact .none
      | some t => exact .some (.same (.inl hshared.2))
    have hleft : ¬ Left s₀.mem (n + 1) p (pathIndex v d) :=
      not_or.mpr ⟨by rw [habsent]; decide, hshared⟩
    rw [if_neg hleft] at hentry
    obtain ⟨r, hsub, hr, hrlt, hset⟩ := hentry
    have hphysical := h.physical v d p hp habsent
    have hsecond' : 1 ≤ d → pathIndex v 1 ≠ 0 := by
      intro hd1
      by_cases hd2 : d = 1
      · subst hd2
        exact fun heq => hshared ⟨by omega, heq⟩
      · exact hsecond (by omega)
    have hpresent' : present (entry mem q (pathIndex v d)) = true := by
      rw [hset]
      exact (Machine.getLsbD_setAddr (by omega) (by omega)).trans habsent
    by_cases hlast : d = 3
    · subst hlast
      obtain rfl : n = 0 := by omega
      have hfirst : walkFrom s₀.mem v 1 p = _ := walkFrom_last
      have hfirst' : walkFrom mem v 1 q = _ := walkFrom_last
      rw [if_neg (by rw [habsent]; decide)] at hfirst
      rw [if_neg (by rw [hpresent']; decide)] at hfirst'
      rw [hfirst, hfirst', hset]
      refine .some ⟨⟨?_, ?_, ?_, Machine.setAddr_flags _ _⟩, fun hkept => ?_, fun _ hout => ?_⟩
      · exact Machine.getLsbD_setAddr (by omega) (by omega)
      · exact Machine.getLsbD_setAddr (by omega) (by omega)
      · exact congrArg Bool.not (Machine.getLsbD_setAddr (by omega) (by omega))
      · rw [pageBase_ofLeaf] at hkept
        have hin := hkept.resolve_left (hsecond' (by omega))
        unfold Copied at hsub
        rw [if_pos hin] at hsub
        rw [hsub, ← pteAddr_eq hphysical, Machine.setAddr_self]
      · rw [pageBase_ofLeaf] at hout
        unfold Copied at hsub
        rw [if_neg hout] at hsub
        rw [pageBase_ofLeaf, pageBase_ofLeaf, Machine.frame_setAddr _ hr hrlt]
        exact hsub
    · have hhuge : d = 0 ∨ huge (entry s₀.mem p (pathIndex v d)) = false := by
        by_cases hzero : d = 0
        · exact .inl hzero
        · refine .inr ?_
          by_contra hset'
          rw [Bool.not_eq_false] at hset'
          have hfirst := h.kernel v d p (by omega) (by omega) hp habsent hset'
          exact hsecond' (by omega) ((firstGiB_iff v).mp hfirst).2
      have hhuge' : d = 0 ∨ huge (entry mem q (pathIndex v d)) = false := by
        refine hhuge.imp id fun hclear => ?_
        rw [hset]
        exact (Machine.getLsbD_setAddr (by omega) (by omega)).trans hclear
      have hchild := child_of_present (show d < 3 by omega) habsent hhuge
      have hchild' := child_of_present (show d < 3 by omega) hpresent' hhuge'
      have hnext : tableAt s₀.mem (frame ctx.pgt) v (d + 1) =
          some (frame (entry s₀.mem p (pathIndex v d))) := by
        rw [tableAt_succ, hp]
        exact hchild
      rw [← htable, walkFrom_of_child hchild, walkFrom_of_child hchild', hrest, hset,
        Machine.frame_setAddr _ hr hrlt]
      refine optionRel_map (ih (by omega) hnext (fun _ => hsecond' (by omega)) hsub)
        fun t t' ht => ht.restrict fun i hi hflag => Machine.getLsbD_setAddr hi hflag

end

/-! ## The property -/

/-- Parent and child are isolated: the child has the translations of the parent, with pages
of its own outside the payload and the first GiB, and nothing changes for the parent. -/
structure Isolated (P : PoolRegion) (s s' : Machine) (ctx ctx' : Task) : Prop where
  mapped : ∀ v, (translate s'.mem ctx'.pgt v).isSome = (translate s.mem ctx.pgt v).isSome
  flags : ∀ v t t', translate s.mem ctx.pgt v = some t → translate s'.mem ctx'.pgt v = some t' →
    SameFlags t t'
  copied : ∀ v t t', ¬ FirstGiB v → translate s.mem ctx.pgt v = some t →
    translate s'.mem ctx'.pgt v = some t' → ¬ ctx.InPayload (BitVec.ofNat 64 (pageBase t)) →
      New P s.bitset s'.bitset (pageBase t') ∧ pageBase t' ≠ pageBase t ∧
        ∀ i, i < 4096 → s'.mem (pageBase t' + i) = s.mem (pageBase t + i)
  shared : ∀ v t, FirstGiB v ∨ ctx.InPayload (BitVec.ofNat 64 (pageBase t)) →
    translate s.mem ctx.pgt v = some t → translate s'.mem ctx'.pgt v = some t
  parent : ∀ v, translate s'.mem ctx.pgt v = translate s.mem ctx.pgt v
  data : ∀ v t, ¬ FirstGiB v → translate s.mem ctx.pgt v = some t → s'.mem t.paddr = s.mem t.paddr

section

variable {P : PoolRegion} {ctx : Task} {s : Machine}

/-- The page of an address outside the first GiB. -/
theorem TaskTree.translate_cases (h : TaskTree P ctx s) {v : Nat} {t : Translation}
    (hv : ¬ FirstGiB v) (ht : translate s.mem ctx.pgt v = some t) :
    t.paddr = pageBase t + v % 4096 ∧ pageBase t % 4096 = 0 ∧
      (P.IsPage (pageBase t) → P.allocated s.bitset (pageBase t) = true) := by
  have hsmall : Machine.SmallPath { s with cr3 := ctx.pgt } v := by
    intro d p hpos hd hp hpresent
    by_contra hhuge
    rw [Bool.not_eq_false] at hhuge
    exact hv (h.kernel v d p hpos hd hp hpresent hhuge)
  rcases hsmall.cases with ⟨p, hp⟩ | ⟨d, p, -, hp, hempty⟩
  · by_cases hpresent : present (entry s.mem p (pathIndex v 3)) = true
    · obtain ⟨t', ht', -, hpaddr, -⟩ := translate_eq hp hpresent
      obtain rfl := Option.some.inj (ht'.symm.trans ht)
      have haligned := frame_aligned (entry s.mem p (pathIndex v 3))
      dsimp only at hpaddr
      have hbase : pageBase t' = frame (entry s.mem p (pathIndex v 3)) := by
        unfold pageBase
        omega
      rw [hbase]
      exact ⟨hpaddr, haligned, h.data v p hv hp hpresent⟩
    · rw [Bool.not_eq_true] at hpresent
      cases (translate_eq_none hp hpresent).symm.trans ht
  · cases (translate_eq_none hp hempty).symm.trans ht

/-- The call of `duplicate_task`: a tree of new pages, and no other change. -/
theorem duplicateTask_spec (h : TaskTree P ctx s)
    (hneed : needed ctx s.mem 4 (frame ctx.pgt) ≤ Bitset.free s.bitset) :
    ∃ s' q, Machine.duplicateTask P.base ctx s = (s', { ctx with pgt := BitVec.ofNat 64 q }) ∧
      frame (BitVec.ofNat 64 q) = q ∧ (∀ a, ¬ P.Free s.bitset a → s'.mem a = s.mem a) ∧
        Copied ctx (New P s.bitset s'.bitset) s.mem s'.mem 4 (frame ctx.pgt) q := by
  have hready : Ready P s.bitset s.mem s := ⟨h.words, fun _ _ hbit => hbit, fun _ _ => rfl⟩
  obtain ⟨s', q, hcall, heffect, hq, hqlt, hcopied⟩ := duplicateLevel_spec h (Nat.le_refl 4) s
    (frame ctx.pgt) hready ⟨0, rfl, fun hle => absurd hle (by decide)⟩ hneed
  refine ⟨s', q, ?_, ?_, fun a ha => heffect.mem a ha id, hcopied⟩
  · unfold Machine.duplicateTask
    rw [h.root, hcall]
  · unfold frame
    rw [BitVec.toNat_ofNat]
    omega

/-- The translation of an address by the copy. -/
theorem duplicateTask_translate (h : TaskTree P ctx s)
    (hneed : needed ctx s.mem 4 (frame ctx.pgt) ≤ Bitset.free s.bitset) {s' : Machine} {ctx' : Task}
    (hcall : Machine.duplicateTask P.base ctx s = (s', ctx')) (v : Nat) :
    Option.Rel (CopiedTranslation ctx (New P s.bitset s'.bitset) s.mem s'.mem v)
      (translate s.mem ctx.pgt v) (translate s'.mem ctx'.pgt v) := by
  obtain ⟨s₁, q, hcall', hq, hmem, hcopied⟩ := duplicateTask_spec h hneed
  obtain ⟨rfl, rfl⟩ := Prod.mk.inj (hcall'.symm.trans hcall)
  have hsame := h.inUse.sameTables (frame_aligned _) hmem
  unfold Rackdoll.translate
  rw [hq]
  exact walkFrom_copied h hsame (show 0 + 4 = 4 from rfl) rfl (fun hle => absurd hle (by omega))
    hcopied

/-- An address that the parent has mapped, in both trees. -/
theorem duplicateTask_both (h : TaskTree P ctx s)
    (hneed : needed ctx s.mem 4 (frame ctx.pgt) ≤ Bitset.free s.bitset) {s' : Machine} {ctx' : Task}
    (hcall : Machine.duplicateTask P.base ctx s = (s', ctx')) {v : Nat} {t : Translation}
    (ht : translate s.mem ctx.pgt v = some t) :
    ∃ t', translate s'.mem ctx'.pgt v = some t' ∧
      CopiedTranslation ctx (New P s.bitset s'.bitset) s.mem s'.mem v t t' := by
  have hrel := duplicateTask_translate h hneed hcall v
  rw [ht] at hrel
  cases ht' : translate s'.mem ctx'.pgt v with
  | none => rw [ht'] at hrel; cases hrel
  | some t' =>
    rw [ht'] at hrel
    cases hrel with
    | some hcopy => exact ⟨t', rfl, hcopy⟩

/-- A page below entry 0 of a table of level 3 is the page of the parent. -/
theorem not_isolated_of_shared (h : TaskTree P ctx s)
    (hneed : needed ctx s.mem 4 (frame ctx.pgt) ≤ Bitset.free s.bitset) {v : Nat} {t : Translation}
    (hzero : pathIndex v 0 ≠ 0) (hone : pathIndex v 1 = 0)
    (ht : translate s.mem ctx.pgt v = some t)
    (hout : ¬ ctx.InPayload (BitVec.ofNat 64 (pageBase t))) :
    ¬ Isolated P s (Machine.duplicateTask P.base ctx s).1 ctx
      (Machine.duplicateTask P.base ctx s).2 := by
  intro hisolated
  have hv : ¬ FirstGiB v := fun hfirst => hzero ((firstGiB_iff v).mp hfirst).1
  obtain ⟨t', ht', hcopy⟩ := duplicateTask_both h hneed (Prod.eta _).symm ht
  have hown := (hisolated.copied v t t' hv ht ht' hout).2.1
  rw [hcopy.shared (.inl hone)] at hown
  exact hown rfl

/-- `duplicate_task` isolates parent and child exactly if the pages that are mapped below
entry 0 of a table of level 3, outside the first GiB, are pages of the payload. -/
theorem isolated_iff (h : TaskTree P ctx s)
    (hneed : needed ctx s.mem 4 (frame ctx.pgt) ≤ Bitset.free s.bitset) :
    Isolated P s (Machine.duplicateTask P.base ctx s).1 ctx (Machine.duplicateTask P.base ctx s).2 ↔
      ∀ v t, pathIndex v 0 ≠ 0 → pathIndex v 1 = 0 → translate s.mem ctx.pgt v = some t →
        ctx.InPayload (BitVec.ofNat 64 (pageBase t)) := by
  constructor
  · intro hisolated v t hzero hone ht
    by_contra hout
    exact not_isolated_of_shared h hneed hzero hone ht hout hisolated
  · intro hpayload
    obtain ⟨s', q, hcall, -, hmem, -⟩ := duplicateTask_spec h hneed
    have hrel := duplicateTask_translate h hneed hcall
    have hboth : ∀ {v t}, translate s.mem ctx.pgt v = some t → _ := fun ht =>
      duplicateTask_both h hneed hcall ht
    have hsame := h.inUse.sameTables (frame_aligned _) hmem
    rw [hcall]
    dsimp only at hrel ⊢
    have hindex : ∀ {v t}, ¬ FirstGiB v → translate s.mem ctx.pgt v = some t →
        ¬ ctx.InPayload (BitVec.ofNat 64 (pageBase t)) → pathIndex v 1 ≠ 0 := by
      intro v t hv ht hout hone
      refine hout (hpayload v t (fun hzero => ?_) hone ht)
      exact hv ((firstGiB_iff v).mpr ⟨hzero, hone⟩)
    refine ⟨fun v => ?_, fun v t t' ht ht' => ?_, fun v t t' hv ht ht' hout => ?_,
      fun v t hkept ht => ?_, fun v => walkFrom_congr (hsame.agreeOn v 4), fun v t hv ht => ?_⟩
    · have hv := hrel v
      cases ht : translate s.mem ctx.pgt v with
      | some t =>
        obtain ⟨t', ht', -⟩ := hboth ht
        rw [ht']
        rfl
      | none =>
        rw [ht] at hv
        cases ht' : translate s'.mem (BitVec.ofNat 64 q) v with
        | none => rfl
        | some t' => rw [ht'] at hv; cases hv
    · obtain ⟨t₁, ht₁, hcopy⟩ := hboth ht
      obtain rfl := Option.some.inj (ht₁.symm.trans ht')
      exact hcopy.flags
    · obtain ⟨t₁, ht₁, hcopy⟩ := hboth ht
      obtain rfl := Option.some.inj (ht₁.symm.trans ht')
      obtain ⟨hnew, hbytes⟩ := hcopy.copied (hindex hv ht hout) hout
      refine ⟨hnew, fun heq => ?_, hbytes⟩
      obtain ⟨-, -, hused⟩ := h.translate_cases hv ht
      rw [heq] at hnew
      cases hnew.2.1.symm.trans (hused hnew.1)
    · obtain ⟨t₁, ht₁, hcopy⟩ := hboth ht
      rw [ht₁, hcopy.shared (hkept.imp_left fun hfirst => ((firstGiB_iff v).mp hfirst).2)]
    · obtain ⟨hpaddr, haligned, hused⟩ := h.translate_cases hv ht
      apply hmem _
      exact PoolRegion.not_free haligned hused (by omega) (by omega)

end

/-- A task with one page, at the start of the second entry of pml4, and no payload. -/
def highTask : Task := ⟨0x180000, 0x190000, 0x190000⟩

def highMachine : Machine where
  mem := pathMem 0x180000 0x8000000000 0x184007
  bitset := [0x1f]
  cr3 := 0x180000
  tlb _ := none

theorem highTask_entry {v d p : Nat}
    (hp : tableAt highMachine.mem (frame highTask.pgt) v d = some p)
    (hpresent : present (entry highMachine.mem p (pathIndex v d)) = true) :
    p = 0x180000 + 4096 * d ∧
      entry highMachine.mem p (pathIndex v d) = pathEntry 0x180000 0x184007 d := by
  have hroot : frame highTask.pgt = 0x180000 := by decide
  rw [hroot] at hp
  obtain ⟨-, rfl⟩ := walk_pathMem (by decide) (by decide) hp
  rw [length_indices] at hpresent ⊢
  have hentry : entry (pathMem 0x180000 0x8000000000 0x184007) (0x180000 + 4096 * d)
      (pathIndex v d) =
        if pathIndex v d = pathIndex 0x8000000000 d then pathEntry 0x180000 0x184007 d else 0 :=
    entry_pathMem (by decide) (tableAt_le hp) (pathIndex_lt v d)
  unfold highMachine at hpresent ⊢
  rw [hentry] at hpresent ⊢
  split at hpresent
  · next hindex => exact ⟨rfl, if_pos hindex⟩
  · exact absurd hpresent (by decide)

theorem highTask_noPayload (w : Word) : ¬ highTask.InPayload w := by
  intro hin
  have hlo := BitVec.le_def.mp hin.1
  have hhi := BitVec.lt_def.mp hin.2
  exact absurd (Nat.lt_of_le_of_lt hlo hhi) (Nat.lt_irrefl _)

theorem highTask_tree : TaskTree lowPool highTask highMachine := by
  have hroot : frame highTask.pgt = 0x180000 := by decide
  refine ⟨rfl, by decide, fun path p hp _ => ?_, fun v d p hp hpresent => ?_,
    fun v d p _ hd hp hpresent hhuge => ?_, fun _ _ _ _ => highTask_noPayload _,
    fun v p _ hp hpresent _ => ?_⟩
  · rw [hroot] at hp
    obtain ⟨hpath, rfl⟩ := walk_pathMem (by decide) (by decide) hp
    rw [hpath] at hp
    have hle := tableAt_le hp
    obtain hlen | hlen | hlen | hlen : path.length = 0 ∨ path.length = 1 ∨ path.length = 2 ∨
      path.length = 3 := by omega
    all_goals
      rw [hlen]
      decide
  · have hle := tableAt_le hp
    rw [(highTask_entry hp hpresent).2]
    obtain rfl | rfl | rfl | rfl : d = 0 ∨ d = 1 ∨ d = 2 ∨ d = 3 := by omega
    all_goals decide
  · rw [(highTask_entry hp hpresent).2] at hhuge
    have hlinks : Links (pathEntry 0x180000 0x184007 d) (0x180000 + 4096 * (d + 1)) :=
      links_pathEntry (by decide) (by decide) hd
    cases hlinks.huge.symm.trans hhuge
  · rw [(highTask_entry hp hpresent).2]
    decide

/-- One entry of each table refers to a page. -/
theorem needed_highTask {lvl d : Nat} (hd : lvl + d = 4) :
    needed highTask highMachine.mem lvl (0x180000 + 4096 * d) ≤ lvl + 1 := by
  induction lvl generalizing d with
  | zero =>
    rw [needed]
    split <;> omega
  | succ lvl ih =>
    have hentry : ∀ i < 512, entry highMachine.mem (0x180000 + 4096 * d) i =
        if i = pathIndex 0x8000000000 d then pathEntry 0x180000 0x184007 d else 0 :=
      fun i hi => entry_pathMem (by decide) (by omega) hi
    have hother : ∀ i, i ≠ pathIndex 0x8000000000 d → i ∈ List.range 512 →
        neededEntry highMachine.mem (needed highTask highMachine.mem lvl) (lvl + 1)
          (0x180000 + 4096 * d) i = 0 := by
      intro i hne hi
      refine if_pos (Or.inl ?_)
      rw [hentry i (List.mem_range.mp hi), if_neg hne]
      decide
    have hindex := pathIndex_lt 0x8000000000 d
    have hframe : frame (pathEntry 0x180000 0x184007 d) = 0x180000 + 4096 * (d + 1) := by
      obtain rfl | rfl | rfl | rfl : d = 0 ∨ d = 1 ∨ d = 2 ∨ d = 3 := by omega
      all_goals decide
    rw [needed, if_neg (highTask_noPayload _), List.sum_map_eq_nsmul_single _ _ hother,
      List.count_eq_one_of_mem List.nodup_range (List.mem_range.mpr hindex), one_nsmul, neededEntry,
      hentry _ hindex, if_pos rfl, hframe]
    have hnext := ih (show lvl + (d + 1) = 4 by omega)
    split <;> omega

theorem highTask_needed :
    needed highTask highMachine.mem 4 (frame highTask.pgt) ≤ Bitset.free highMachine.bitset := by
  have hfree : Bitset.free highMachine.bitset = 59 := by decide
  rw [hfree]
  exact (needed_highTask (Nat.add_zero 4)).trans (by decide)

/-- The child has the page of the parent. -/
theorem not_isolated_high :
    ¬ Isolated lowPool highMachine (Machine.duplicateTask lowPool.base highTask highMachine).1
      highTask (Machine.duplicateTask lowPool.base highTask highMachine).2 := by
  obtain ⟨t, ht⟩ : ∃ t, translate highMachine.mem highTask.pgt 0x8000000000 = some t :=
    Option.isSome_iff_exists.mp (by decide +kernel)
  exact not_isolated_of_shared highTask_tree highTask_needed (by decide) (by decide) ht
    (highTask_noPayload _)

theorem isolated_iff_high :
    Isolated lowPool highMachine (Machine.duplicateTask lowPool.base highTask highMachine).1
        highTask (Machine.duplicateTask lowPool.base highTask highMachine).2 ↔
      ∀ v t, pathIndex v 0 ≠ 0 → pathIndex v 1 = 0 →
        translate highMachine.mem highTask.pgt v = some t →
          highTask.InPayload (BitVec.ofNat 64 (pageBase t)) :=
  isolated_iff highTask_tree highTask_needed

end KernelMemVirt.Janus.Guest
