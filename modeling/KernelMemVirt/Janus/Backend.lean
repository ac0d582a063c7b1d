import KernelMemVirt.Janus.State
import KernelMemVirt.Rackdoll.Pool

/-!
# The physical memory of the guest

The page allocator of `monitor/memory.c`: `allocate_physical_memory`, `alloc_page` and
`free_page` for a memory of `ram` bytes.

The bit set has a word for each 64 bytes of `ram`, where one for each 64 pages would do,
so it has bits for pages beyond the end of the memory.

* `allocPage_cases` is what `alloc_page` does: it takes the first page whose bit is
  clear.
* `backend_iff_of_run` says which runs are right: those in which `alloc_page` is only
  called while a page of the memory is left.
-/

namespace KernelMemVirt.Janus

open Transition

/-! ## The source -/

/-- `guest_bitset` and `guest_memory_size`. -/
structure Backend where
  guestBitset : List Word
  guestMemorySize : Word

/-- `allocate_physical_memory`, when the files and the memory of the monitor suffice. -/
def allocatePhysicalMemory (ram : Word) : Backend where
  guestBitset := List.replicate (ram / 64 + 1).toNat 0
  guestMemorySize := ram

namespace Backend

/-- The first loop of `alloc_page`, from word `i` on. -/
def firstWord (bitset : List Word) (i : Nat) : Nat → Option Nat
  | 0 => none
  | turns + 1 => if bitset.getD i 0 ≠ ~~~0 then some i else firstWord bitset (i + 1) turns

variable (s : Backend)

/-- `alloc_page`.  The second loop is that of the kernel of Rackdoll. -/
def allocPage : Backend × Word :=
  match firstWord s.guestBitset 0 (s.guestMemorySize / 64 + 1).toNat with
  | none => (s, -1)
  | some i =>
    let v := s.guestBitset.getD i 0
    match Rackdoll.findBit v 0 64 with
    | some j =>
      ({ s with guestBitset := s.guestBitset.set i (v ||| Bitset.bit j) },
        BitVec.ofNat 64 ((64 * i + j) <<< 12))
    | none => (s, BitVec.ofNat 64 ((64 * i + 64) <<< 12))

/-- `free_page`; `none` is an access outside the bit set. -/
def freePage (addr : Word) : Option Backend :=
  let i := ((addr >>> 12) / 64).toNat
  let j := ((addr >>> 12) % 64).toNat
  if s.guestBitset.length ≤ i then none
  else
    some { s with
      guestBitset := s.guestBitset.set i (s.guestBitset.getD i 0 &&& ~~~Bitset.bit j) }

variable {s}

theorem firstWord_some {bitset : List Word} :
    ∀ {turns i a : Nat}, firstWord bitset i turns = some a →
      i ≤ a ∧ a < i + turns ∧ bitset.getD a 0 ≠ ~~~0 ∧
        ∀ b, i ≤ b → b < a → bitset.getD b 0 = ~~~0 := by
  intro turns
  induction turns with
  | zero => intro i a h; cases h
  | succ turns ih =>
    intro i a h
    unfold firstWord at h
    split at h
    · next hword =>
      obtain rfl : i = a := Option.some.inj h
      exact ⟨Nat.le_refl _, by omega, hword, fun b hlo hhi => by omega⟩
    · next hfull =>
      obtain ⟨hlo, hhi, hword, hbelow⟩ := ih h
      refine ⟨by omega, by omega, hword, fun b hb hba => ?_⟩
      by_cases heq : b = i
      · rw [heq]
        exact not_not.mp hfull
      · exact hbelow b (by omega) hba

theorem firstWord_none {bitset : List Word} :
    ∀ {turns i : Nat}, firstWord bitset i turns = none →
      ∀ b, i ≤ b → b < i + turns → bitset.getD b 0 = ~~~0 := by
  intro turns
  induction turns with
  | zero => intro i _ b hlo hhi; omega
  | succ turns ih =>
    intro i h b hlo hhi
    unfold firstWord at h
    split at h
    · cases h
    · next hfull =>
      by_cases heq : b = i
      · rw [heq]
        exact not_not.mp hfull
      · exact ih h b (by omega) (by omega)

/-- A full word has all its bits. -/
theorem get_of_word {bitset : List Word} {n : Nat} (h : bitset.getD (n / 64) 0 = ~~~0) :
    Bitset.get bitset n = true := by
  have hword : bitset.getD (n / 64) 0 = BitVec.allOnes 64 := h
  unfold Bitset.get
  rw [hword, BitVec.getLsbD_allOnes]
  exact decide_eq_true (Nat.mod_lt n (by omega))

/-- A word that is not full has a clear bit. -/
theorem findBit_isSome {v : Word} (h : v ≠ ~~~0) : ∃ j, Rackdoll.findBit v 0 64 = some j := by
  cases hfind : Rackdoll.findBit v 0 64 with
  | some j => exact ⟨j, rfl⟩
  | none =>
    refine absurd (BitVec.eq_of_getLsbD_eq fun k hk => ?_) h
    rw [Rackdoll.findBit_none (by omega) hfind k (by omega) (by omega)]
    have hones : (~~~0 : Word) = BitVec.allOnes 64 := rfl
    rw [hones, BitVec.getLsbD_allOnes, decide_eq_true hk]

/-- `alloc_page` takes the first page whose bit is clear. -/
theorem allocPage_cases (hlen : s.guestBitset.length = (s.guestMemorySize / 64 + 1).toNat) :
    (∃ n, n < 64 * s.guestBitset.length ∧ Bitset.get s.guestBitset n = false ∧
      (∀ k, k < n → Bitset.get s.guestBitset k = true) ∧
      s.allocPage = ({ s with guestBitset := Bitset.set s.guestBitset n },
        BitVec.ofNat 64 (4096 * n))) ∨
    ((∀ n, n < 64 * s.guestBitset.length → Bitset.get s.guestBitset n = true) ∧
      s.allocPage = (s, -1)) := by
  unfold allocPage
  rw [← hlen]
  cases hfirst : firstWord s.guestBitset 0 s.guestBitset.length with
  | none =>
    refine .inr ⟨fun n hn => get_of_word ?_, rfl⟩
    exact firstWord_none hfirst (n / 64) (Nat.zero_le _) (by omega)
  | some i =>
    obtain ⟨-, hi, hword, hwords⟩ := firstWord_some hfirst
    obtain ⟨j, hj⟩ := findBit_isSome hword
    obtain ⟨-, hj64, hclear⟩ := Rackdoll.findBit_some (by omega) hj
    have hdiv : (64 * i + j) / 64 = i := by omega
    have hmod : (64 * i + j) % 64 = j := by omega
    refine .inl ⟨64 * i + j, by omega, ?_, fun k hk => ?_, ?_⟩
    · unfold Bitset.get
      rw [hdiv, hmod]
      exact hclear
    · by_cases hword' : k / 64 = i
      · unfold Bitset.get
        rw [hword']
        exact Rackdoll.findBit_below (by omega) hj (k % 64) (Nat.zero_le _) (by omega)
      · exact get_of_word (hwords (k / 64) (Nat.zero_le _) (by omega))
    · unfold Bitset.set
      dsimp only
      rw [hj, hdiv, hmod]
      dsimp only
      rw [Nat.shiftLeft_eq, Nat.mul_comm (64 * i + j)]

/-- `free_page` clears the bit of the page. -/
theorem freePage_eq {n : Nat} (hn : n < 64 * s.guestBitset.length) (hend : 4096 * n < 2 ^ 64) :
    s.freePage (BitVec.ofNat 64 (4096 * n)) =
      some { s with guestBitset := Bitset.clear s.guestBitset n } := by
  have hnumber : (BitVec.ofNat 64 (4096 * n) >>> 12).toNat = n := by
    rw [BitVec.toNat_ushiftRight, BitVec.toNat_ofNat, Nat.shiftRight_eq_div_pow]
    omega
  unfold freePage
  dsimp only
  rw [BitVec.toNat_udiv, BitVec.toNat_umod, hnumber, show (64 : Word).toNat = 64 from rfl,
    if_neg (by omega)]
  rfl

end Backend

/-! ## Runs -/

inductive BackendCall
  | alloc
  | free (addr : Word)
  deriving DecidableEq, Repr

/-- The allocator, and the addresses of the pages that are allocated. -/
structure BackendRun where
  backend : Backend
  held : Finset Nat

namespace BackendRun

def init (ram : Word) : BackendRun := ⟨allocatePhysicalMemory ram, ∅⟩

variable (ram : Word) (s : BackendRun)

/-- A call of `alloc_page`. -/
def alloc : BackendRun where
  backend := s.backend.allocPage.1
  held := if s.backend.allocPage.2 = -1 then s.held else insert s.backend.allocPage.2.toNat s.held

def step : BackendCall → Option BackendRun
  | .alloc => some s.alloc
  | .free addr => (s.backend.freePage addr).map fun backend => ⟨backend, s.held.erase addr.toNat⟩

/-- Only allocated pages are released. -/
def Allowed : BackendCall → Prop
  | .alloc => True
  | .free addr => addr.toNat ∈ s.held

/-- The page at `4096 * k` is a page of the memory. -/
def InMemory (k : Nat) : Prop := 4096 * k + 4096 ≤ ram.toNat

instance (k : Nat) : Decidable (InMemory ram k) := inferInstanceAs (Decidable (_ ≤ _))

/-- The call does what its callers expect.  `alloc_page` returns an aligned page of the
memory that is not allocated, or -1 when all of them are; `free_page` makes its page
available again, and no other. -/
def CallSound : BackendCall → Prop
  | .alloc =>
    let a := s.backend.allocPage.2
    (a = -1 ∨ a.toNat % 4096 = 0 ∧ a.toNat + 4096 ≤ ram.toNat ∧ a.toNat ∉ s.held) ∧
      (a = -1 ↔ ∀ k, InMemory ram k → 4096 * k ∈ s.held)
  | .free addr => ∃ backend, s.backend.freePage addr = some backend ∧
      ∀ k, Bitset.get backend.guestBitset k =
        (!decide (4096 * k = addr.toNat) && Bitset.get s.backend.guestBitset k)

/-- `alloc_page` is called while a page of the memory is left. -/
def PageLeft : BackendCall → Prop
  | .alloc => ∃ k, InMemory ram k ∧ 4096 * k ∉ s.held
  | .free _ => True

/-- The set bits are the allocated pages, all of the memory. -/
structure Inv : Prop where
  size : s.backend.guestMemorySize = ram
  length : s.backend.guestBitset.length = (ram / 64 + 1).toNat
  bits : ∀ k, Bitset.get s.backend.guestBitset k = true ↔ 4096 * k ∈ s.held
  held : ∀ a ∈ s.held, a % 4096 = 0 ∧ a + 4096 ≤ ram.toNat

variable {ram s}

theorem inv_init (ram : Word) : (init ram).Inv ram where
  size := rfl
  length := List.length_replicate
  bits := fun k => by
    have hclear : Bitset.get (init ram).backend.guestBitset k = false := Bitset.get_replicate _ k
    rw [hclear]
    exact iff_of_false (by decide) (Finset.notMem_empty _)
  held := fun a ha => absurd ha (Finset.notMem_empty a)

/-- The bit set has a word for each 64 bytes of the memory. -/
theorem Inv.words (h : s.Inv ram) : s.backend.guestBitset.length = ram.toNat / 64 + 1 := by
  have hlt := ram.isLt
  rw [h.length, BitVec.toNat_add, BitVec.toNat_udiv, show (64 : Word).toNat = 64 from rfl,
    show (1 : Word).toNat = 1 from rfl]
  omega

/-- `alloc_page` always finds a clear bit; it is that of a page of the memory when there
is one left. -/
theorem Inv.alloc_spec (h : s.Inv ram) :
    ∃ n, n < 64 * s.backend.guestBitset.length ∧ 4096 * n ∉ s.held ∧
      s.backend.allocPage = ({ s.backend with guestBitset := Bitset.set s.backend.guestBitset n },
        BitVec.ofNat 64 (4096 * n)) ∧
      ∀ k, InMemory ram k → 4096 * k ∉ s.held → n ≤ k := by
  have hwords := h.words
  have hlen : s.backend.guestBitset.length = (s.backend.guestMemorySize / 64 + 1).toNat := by
    rw [h.size, h.length]
  rcases Backend.allocPage_cases hlen with ⟨n, hn, hclear, hbelow, hpage⟩ | ⟨hfull, -⟩
  · refine ⟨n, hn, fun hheld => ?_, hpage, fun k hk hfree => ?_⟩
    · rw [← h.bits n, hclear] at hheld
      cases hheld
    · by_contra hlt
      exact hfree ((h.bits k).mp (hbelow k (by omega)))
  · have hheld := (h.bits (ram.toNat / 4096)).mp (hfull _ (by omega))
    have hbound := (h.held _ hheld).2
    omega

theorem ofNat_page_ne {n : Nat} : BitVec.ofNat 64 (4096 * n) ≠ (-1 : Word) := by
  intro heq
  have hnat := congrArg BitVec.toNat heq
  rw [BitVec.toNat_ofNat, show (-1 : Word).toNat = 2 ^ 64 - 1 from rfl] at hnat
  omega

theorem Inv.free_spec (h : s.Inv ram) {addr : Word} (hc : s.Allowed (.free addr)) :
    ∃ n, n < 64 * s.backend.guestBitset.length ∧ addr.toNat = 4096 * n ∧
      s.backend.freePage addr =
        some { s.backend with guestBitset := Bitset.clear s.backend.guestBitset n } := by
  have hwords := h.words
  have hlt := addr.isLt
  obtain ⟨hpage, hend⟩ := h.held _ hc
  refine ⟨addr.toNat / 4096, by omega, by omega, ?_⟩
  have haddr : addr = BitVec.ofNat 64 (4096 * (addr.toNat / 4096)) := by
    apply BitVec.eq_of_toNat_eq
    rw [BitVec.toNat_ofNat]
    omega
  have hfree := @Backend.freePage_eq s.backend (addr.toNat / 4096) (by omega) (by omega)
  rwa [← haddr] at hfree

/-- A call is right exactly when a page is left. -/
theorem Inv.callSound_iff (h : s.Inv ram) {c : BackendCall} (hc : s.Allowed c) :
    s.CallSound ram c ↔ s.PageLeft ram c := by
  cases c with
  | alloc =>
    obtain ⟨n, -, hfree, hpage, hleast⟩ := h.alloc_spec
    unfold CallSound
    dsimp only
    rw [hpage]
    constructor
    · intro hsound
      by_contra hnone
      refine ofNat_page_ne (hsound.2.mpr fun k hk => ?_)
      by_contra hheld
      exact hnone ⟨k, hk, hheld⟩
    · rintro ⟨k, hk, hheld⟩
      have hle := hleast k hk hheld
      have hlt := ram.isLt
      unfold InMemory at hk
      have hnat : (BitVec.ofNat 64 (4096 * n)).toNat = 4096 * n := by
        rw [BitVec.toNat_ofNat]
        omega
      rw [hnat]
      exact ⟨.inr ⟨by omega, by omega, hfree⟩,
        iff_of_false ofNat_page_ne fun hall => hheld (hall k hk)⟩
  | free addr =>
    obtain ⟨n, hn, haddr, hfree⟩ := h.free_spec hc
    refine iff_of_true ⟨_, hfree, fun k => ?_⟩ trivial
    rw [Bitset.get_clear hn, haddr]
    congr 2
    exact decide_eq_decide.mpr ⟨fun heq => by rw [heq], fun heq => by omega⟩

theorem Inv.alloc (h : s.Inv ram) (hleft : s.PageLeft ram .alloc) : s.alloc.Inv ram := by
  obtain ⟨n, hn, hfree, hpage, hleast⟩ := h.alloc_spec
  rcases hleft with ⟨k, hk, hheld⟩
  have hle := hleast k hk hheld
  have hlt := ram.isLt
  unfold InMemory at hk
  have hnat : (BitVec.ofNat 64 (4096 * n)).toNat = 4096 * n := by
    rw [BitVec.toNat_ofNat]
    omega
  unfold BackendRun.alloc
  rw [hpage]
  dsimp only
  rw [if_neg ofNat_page_ne, hnat]
  refine ⟨h.size, Bitset.length_set.trans h.length, fun j => ?_, fun a ha => ?_⟩
  · rw [Bitset.get_set hn, Bool.or_eq_true, decide_eq_true_iff, h.bits j, Finset.mem_insert]
    exact or_congr_left ⟨fun heq => by rw [heq], fun heq => by omega⟩
  · rcases Finset.mem_insert.mp ha with rfl | hold
    · exact ⟨by omega, by omega⟩
    · exact h.held a hold

theorem Inv.step (h : s.Inv ram) {s' : BackendRun} {c : BackendCall} (hc : s.Allowed c)
    (hleft : s.PageLeft ram c) (hstep : s.step c = some s') : s'.Inv ram := by
  cases c with
  | alloc =>
    obtain rfl := Option.some.inj hstep
    exact h.alloc hleft
  | free addr =>
    obtain ⟨n, hn, haddr, hfree⟩ := h.free_spec hc
    unfold BackendRun.step at hstep
    dsimp only at hstep
    rw [hfree] at hstep
    obtain rfl := Option.some.inj hstep
    refine ⟨h.size, Bitset.length_clear.trans h.length, fun j => ?_, fun a ha => ?_⟩
    · dsimp only
      rw [Bitset.get_clear hn, Finset.mem_erase, Bool.and_eq_true, Bool.not_eq_true',
        decide_eq_false_iff_not, h.bits j, haddr]
      exact and_congr_left' (not_congr ⟨fun heq => by rw [heq], fun heq => by omega⟩)
    · exact h.held a (Finset.mem_of_mem_erase ha)

end BackendRun

/-- In a run that releases only allocated pages, every call is right if and only if every
call of `alloc_page` finds a page of the memory that is not allocated. -/
theorem backend_iff_of_run {ram : Word} {es : List BackendCall}
    (hok : RunOk BackendRun.step BackendRun.Allowed (BackendRun.init ram) es) :
    RunOk BackendRun.step (BackendRun.CallSound ram) (BackendRun.init ram) es ↔
      RunOk BackendRun.step (BackendRun.PageLeft ram) (BackendRun.init ram) es :=
  runOk_iff_of_ok (fun _ _ (hs : BackendRun.Inv ram _) hc => hs.callSound_iff hc)
    (fun _ _ _ hs hc hleft hstep => hs.step hc hleft hstep) es _ (BackendRun.inv_init ram) hok

/-- A memory of one page, which is allocated, released and allocated again. -/
theorem backend_iff_of_run_onePage :
    RunOk BackendRun.step (BackendRun.CallSound 0x1000) (BackendRun.init 0x1000)
      [.alloc, .free 0, .alloc] := by
  have hheld : (0 : Word).toNat ∈ (BackendRun.init 0x1000).alloc.held := by decide
  refine (backend_iff_of_run ?_).mpr ?_
  · refine (runOk_cons_of_some rfl).mpr ⟨trivial, (runOk_cons_of_some rfl).mpr ⟨hheld, ?_⟩⟩
    exact (runOk_cons_of_some rfl).mpr ⟨trivial, trivial⟩
  · refine (runOk_cons_of_some rfl).mpr ⟨⟨0, by decide, by decide⟩, ?_⟩
    refine (runOk_cons_of_some rfl).mpr ⟨trivial, ?_⟩
    exact (runOk_cons_of_some rfl).mpr ⟨⟨0, by decide, by decide⟩, trivial⟩

/-- The second call for a memory of one page returns the page behind its end. -/
theorem backend_not_of_two :
    ¬ RunOk BackendRun.step (BackendRun.CallSound 0x1000) (BackendRun.init 0x1000)
      [.alloc, .alloc] := by
  intro h
  have hpage := (h.2 _ rfl).1.1
  have haddr : (BackendRun.init 0x1000).alloc.backend.allocPage.2 = 0x1000 := by decide
  rw [haddr] at hpage
  exact absurd hpage (by decide)

end KernelMemVirt.Janus
