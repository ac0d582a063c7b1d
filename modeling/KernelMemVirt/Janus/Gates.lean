import KernelMemVirt.Janus.Fault
import KernelMemVirt.Lib.AccessLog

/-!
# The gates of the interrupt descriptor table

`setup_interrupts` of the guest splits the address of each trap routine into the three offset
fields of a packed gate.  `interrupt_entry` of the monitor puts the address together again from
the two words of the gate.

* `GateTable` is the place of `idt64` and `idtr64` in the guest.
* `GateHolds` is a gate in memory, and `gateHolds_setupInterrupts` says that `setup_interrupts`
  fills all of them.
* `interruptEntry_of_gateHolds` is the way back, bit by bit.
* `log_interruptEntryLog` lists the words that `interrupt_entry` reads.
-/

namespace KernelMemVirt.Janus

open ByteMem Logged

/-! ## The guest -/

abbrev INTERRUPT_VECTOR_SIZE : Nat := 256

abbrev KERNEL_CODE_SELECTOR : BitVec 16 := 0x08

abbrev INTERRUPT_GATE_TYPE : BitVec 16 := 0xee00

abbrev TRAP_GATE_TYPE : BitVec 16 := 0xef00

abbrev INT_USER_SYSCALL : Nat := 128

/-- The addresses of the two objects of `idt.c`: an array of packed gates of 16 bytes, and a
packed `idtr64` of 10. -/
structure GateTable where
  idt64 : Word
  idtr64 : Word
  idt64_fits : idt64.toNat + 16 * INTERRUPT_VECTOR_SIZE ≤ 2 ^ 64
  idtr64_fits : idtr64.toNat + 10 ≤ 2 ^ 64
  apart : Apart idt64.toNat (16 * INTERRUPT_VECTOR_SIZE) idtr64.toNat 10

namespace GateTable

variable (g : GateTable)

/-- The address of `idt64[i]`. -/
def gate (i : Vec) : Nat := g.idt64.toNat + 16 * i.val

/-- The body of the loop of `setup_interrupts`. -/
def setupGate (trapVector : Vec → Word) (m : Mem) (i : Vec) : Mem :=
  let off0 : Word := (trapVector i >>> 0) &&& 0xffff
  let off1 : Word := (trapVector i >>> 16) &&& 0xffff
  let off2 : Word := (trapVector i >>> 32) &&& 0xffffffff
  let m := writeBytes m (g.gate i) 2 (off0.setWidth 16)
  let m := writeBytes m (g.gate i + 6) 2 (off1.setWidth 16)
  let m := write32 m (g.gate i + 8) (off2.setWidth 32)
  let m := writeBytes m (g.gate i + 2) 2 KERNEL_CODE_SELECTOR
  if i.val = INT_USER_SYSCALL then writeBytes m (g.gate i + 4) 2 TRAP_GATE_TYPE
  else writeBytes m (g.gate i + 4) 2 INTERRUPT_GATE_TYPE

/-- `setup_interrupts` up to its `lidt`, which traps into the monitor. -/
def setupInterrupts (trapVector : Vec → Word) (m : Mem) : Mem :=
  let m := writeBytes m g.idtr64.toNat 2 (BitVec.ofNat 16 (16 * INTERRUPT_VECTOR_SIZE - 1))
  let m := write64 m (g.idtr64.toNat + 2) g.idt64
  (List.finRange INTERRUPT_VECTOR_SIZE).foldl (g.setupGate trapVector) m

end GateTable

/-! ## The monitor -/

/-- `interrupt_entry` with the indices at which it reads `guest_state.idt`. -/
def interruptEntryLog (m : Mem) (s : GuestState) (vec : Vec) : Logged Nat Word := do
  let idt (i : Nat) : Logged Nat Word := access i (idtWord m s i)
  if s.idtSize ≤ vec.val then
    pure 0
  else do
    let low ← idt (vec.val * 2)
    let middle ← idt (vec.val * 2)
    let high ← idt (vec.val * 2 + 1)
    pure ((low >>> 0 &&& 0x000000000000ffff) ||| (middle >>> 32 &&& 0x00000000ffff0000)
      ||| (high <<< 32 &&& 0xffffffff00000000))

theorem value_interruptEntryLog (m : Mem) (s : GuestState) (vec : Vec) :
    (interruptEntryLog m s vec).value = interruptEntry m s vec := by
  simp [interruptEntryLog, interruptEntry]

theorem log_interruptEntryLog (m : Mem) (s : GuestState) (vec : Vec) :
    (interruptEntryLog m s vec).log =
      if s.idtSize ≤ vec.val then [] else [vec.val * 2, vec.val * 2, vec.val * 2 + 1] := by
  simp [interruptEntryLog]

/-- What `lidt` loads. -/
theorem lidt_loads {m : Mem} {s s' : GuestState} {val : Word} (h : lidt m s val = some s') :
    s'.idtSize = ((limitAt m val).toNat + 1) / 16 ∧ s'.idt = base64At m val ∧
      lidtFaults m s val = (((limitAt m val).toNat + 1) % 16 != 0) := by
  unfold lidt at h
  unfold lidtFaults
  cases hmode : s.mode with
  | bits16 =>
    rw [hmode] at h
    cases h
  | bits32 =>
    rw [hmode] at h
    cases h
  | bits64 =>
    rw [hmode] at h
    cases h
    exact ⟨rfl, rfl, rfl⟩

/-! ## Gates in memory -/

/-- The three offset fields of the gate at `a` hold the parts of `addr`. -/
structure GateHolds (m : Mem) (a : Nat) (addr : Word) : Prop where
  off0 : readBytes m a 2 = addr.extractLsb' 0 16
  off1 : readBytes m (a + 6) 2 = addr.extractLsb' 16 16
  off2 : read32 m (a + 8) = addr.extractLsb' 32 32

/-- A gate depends on its 16 bytes. -/
theorem GateHolds.congr {m m' : Mem} {a : Nat} {addr : Word} (h : GateHolds m a addr)
    (heq : ∀ x, a ≤ x → x < a + 16 → m' x = m x) : GateHolds m' a addr where
  off0 := (readBytes_congr fun x hlo hhi => heq x hlo (by omega)).trans h.off0
  off1 := (readBytes_congr fun x hlo hhi => heq x (by omega) (by omega)).trans h.off1
  off2 := (readBytes_congr fun x hlo hhi => heq x (by omega) (by omega)).trans h.off2

/-- A mask of ones keeps the low bits that a field has. -/
theorem setWidth_shift_and (addr : Word) {k n : Nat} {mask : Word}
    (hmask : ∀ i < n, mask.getLsbD i = true) :
    ((addr >>> k) &&& mask).setWidth n = addr.extractLsb' k n := by
  apply BitVec.eq_of_getLsbD_eq
  intro i hi
  simp [hi, hmask i hi]

namespace GateTable

variable {g : GateTable} {trapVector : Vec → Word}

theorem sameOutside_setupGate (m : Mem) (i : Vec) :
    SameOutside m (g.setupGate trapVector m i) (g.gate i) 16 := by
  have hwrite : ∀ (m : Mem) (k n : Nat) (v : BitVec (8 * n)), k + n ≤ 16 →
      SameOutside m (writeBytes m (g.gate i + k) n v) (g.gate i) 16 :=
    fun m k n v hk => (sameOutside_writeBytes m _ n v).mono (by omega) (by omega)
  unfold setupGate
  split
  · exact ((((hwrite m 0 2 _ (by decide)).trans (hwrite _ 6 2 _ (by decide))).trans
      (hwrite _ 8 4 _ (by decide))).trans (hwrite _ 2 2 _ (by decide))).trans
      (hwrite _ 4 2 _ (by decide))
  · exact ((((hwrite m 0 2 _ (by decide)).trans (hwrite _ 6 2 _ (by decide))).trans
      (hwrite _ 8 4 _ (by decide))).trans (hwrite _ 2 2 _ (by decide))).trans
      (hwrite _ 4 2 _ (by decide))

/-- One turn of the loop fills one gate. -/
theorem gateHolds_setupGate (m : Mem) (i : Vec) :
    GateHolds (g.setupGate trapVector m i) (g.gate i) (trapVector i) := by
  have hflags : ∀ (m : Mem) (sel flags : BitVec 16),
      GateHolds m (g.gate i) (trapVector i) →
        GateHolds (writeBytes (writeBytes m (g.gate i + 2) 2 sel) (g.gate i + 4) 2 flags)
          (g.gate i) (trapVector i) := by
    intro m sel flags h
    constructor
    · rw [readBytes_writeBytes_of_apart (by unfold Apart; omega),
        readBytes_writeBytes_of_apart (by unfold Apart; omega)]
      exact h.off0
    · rw [readBytes_writeBytes_of_apart (by unfold Apart; omega),
        readBytes_writeBytes_of_apart (by unfold Apart; omega)]
      exact h.off1
    · rw [read32, readBytes_writeBytes_of_apart (by unfold Apart; omega),
        readBytes_writeBytes_of_apart (by unfold Apart; omega)]
      exact h.off2
  have hparts : GateHolds
      (write32
        (writeBytes
          (writeBytes m (g.gate i) 2 (((trapVector i >>> 0) &&& 0xffff).setWidth 16))
          (g.gate i + 6) 2 (((trapVector i >>> 16) &&& 0xffff).setWidth 16))
        (g.gate i + 8) (((trapVector i >>> 32) &&& 0xffffffff).setWidth 32))
      (g.gate i) (trapVector i) := by
    constructor
    · rw [readBytes_writeBytes_of_apart (by unfold Apart; omega),
        readBytes_writeBytes_of_apart (by unfold Apart; omega), readBytes_writeBytes_self]
      exact setWidth_shift_and _ (by decide)
    · rw [readBytes_writeBytes_of_apart (by unfold Apart; omega), readBytes_writeBytes_self]
      exact setWidth_shift_and _ (by decide)
    · rw [read32_write32_self]
      exact setWidth_shift_and _ (by decide)
  unfold setupGate
  split
  · exact hflags _ _ _ hparts
  · exact hflags _ _ _ hparts

theorem gateHolds_foldl {l : List Vec} {i : Vec} (hi : i ∈ l) (m : Mem) :
    GateHolds (l.foldl (g.setupGate trapVector) m) (g.gate i) (trapVector i) := by
  refine foldl_store_slot (P := fun i m => GateHolds m (g.gate i) (trapVector i))
    (fun m i => sameOutside_setupGate m i) (fun i j hij => ?_) gateHolds_setupGate
    (fun i m m' heq h => h.congr heq) hi m
  have hne : i.val ≠ j.val := fun h => hij (Fin.ext h)
  unfold Apart gate
  omega

/-- `setup_interrupts` fills all the gates. -/
theorem gateHolds_setupInterrupts (g : GateTable) (trapVector : Vec → Word) (m : Mem) (i : Vec) :
    GateHolds (g.setupInterrupts trapVector m) (g.gate i) (trapVector i) := by
  unfold setupInterrupts
  exact gateHolds_foldl (List.mem_finRange i) _

theorem foldl_setupGate_apply {x : Nat} (hlo : g.idtr64.toNat ≤ x)
    (hhi : x < g.idtr64.toNat + 10) (l : List Vec) (m : Mem) :
    l.foldl (g.setupGate trapVector) m x = m x := by
  refine foldl_store_apply_of_outside (fun m i => sameOutside_setupGate m i) l (fun i _ => ?_) m
  have happart := g.apart
  have hi : i.val < 256 := i.isLt
  simp only [Apart, INTERRUPT_VECTOR_SIZE] at happart
  unfold gate
  omega

/-- The gates are apart from `idtr64`. -/
theorem setupInterrupts_idtr64 (g : GateTable) (trapVector : Vec → Word) (m : Mem) :
    (limitAt (g.setupInterrupts trapVector m) g.idtr64).toNat =
        16 * INTERRUPT_VECTOR_SIZE - 1 ∧
      base64At (g.setupInterrupts trapVector m) g.idtr64 = g.idt64 := by
  have hfits := g.idtr64_fits
  have hbase : (g.idtr64 + 2).toNat = g.idtr64.toNat + 2 := by
    rw [BitVec.toNat_add, show (2 : Word).toNat = 2 from rfl]
    omega
  unfold limitAt base64At setupInterrupts
  constructor
  · rw [readBytes_congr fun x hlo hhi => foldl_setupGate_apply hlo (by omega) _ _,
      readBytes_writeBytes_of_apart (by unfold Apart; omega), readBytes_writeBytes_self]
    rfl
  · rw [hbase, read64,
      readBytes_congr fun x hlo hhi => foldl_setupGate_apply (by omega) (by omega) _ _]
    exact readBytes_writeBytes_self _ _ _ _

end GateTable

/-! ## The way back -/

/-- The three fields put together. -/
theorem assemble_eq {low high addr : Word}
    (h0 : ∀ i < 16, low.getLsbD i = addr.getLsbD i)
    (h1 : ∀ i < 16, low.getLsbD (48 + i) = addr.getLsbD (16 + i))
    (h2 : ∀ i < 32, high.getLsbD i = addr.getLsbD (32 + i)) :
    ((low >>> 0 &&& (0x000000000000ffff : Word)) ||| (low >>> 32 &&& (0x00000000ffff0000 : Word))
      ||| (high <<< 32 &&& (0xffffffff00000000 : Word))) = addr := by
  have hmask0 : ∀ i < 64, (0x000000000000ffff : Word).getLsbD i = decide (i < 16) := by decide
  have hmask1 : ∀ i < 64, (0x00000000ffff0000 : Word).getLsbD i = decide (16 ≤ i ∧ i < 32) := by
    decide
  have hmask2 : ∀ i < 64, (0xffffffff00000000 : Word).getLsbD i = decide (32 ≤ i) := by decide
  apply BitVec.eq_of_getLsbD_eq
  intro i hi
  rw [BitVec.getLsbD_or, BitVec.getLsbD_or, BitVec.getLsbD_and, BitVec.getLsbD_and,
    BitVec.getLsbD_and, hmask0 i hi, hmask1 i hi, hmask2 i hi]
  rcases Nat.lt_or_ge i 16 with hlow | hlow
  · simp [hlow, Nat.not_le.mpr hlow, show ¬ 32 ≤ i by omega, h0 i hlow]
  · rcases Nat.lt_or_ge i 32 with hmid | hmid
    · have hbit := h1 (i - 16) (by omega)
      rw [show 48 + (i - 16) = 32 + i by omega, show 16 + (i - 16) = i by omega] at hbit
      simp [hlow, hmid, Nat.not_lt.mpr hlow, Nat.not_le.mpr hmid, hbit]
    · have hbit := h2 (i - 32) (by omega)
      rw [show 32 + (i - 32) = i by omega] at hbit
      rw [← hbit, BitVec.getLsbD_eq_getElem (show i - 32 < 64 by omega)]
      simp [hi, hmid, Nat.not_lt.mpr hlow, Nat.not_lt.mpr hmid]

/-- The words of a gate that the monitor reads give its address. -/
theorem interruptEntry_of_gateHolds {m : Mem} {s : GuestState} {vec : Vec} {addr : Word}
    (hfits : s.idt.toNat + 16 * vec.val + 16 ≤ 2 ^ 64) (hvec : vec.val < s.idtSize)
    (h : GateHolds m (s.idt.toNat + 16 * vec.val) addr) : interruptEntry m s vec = addr := by
  have hword : ∀ k, k < 2 → idtWord m s (vec.val * 2 + k) =
      read64 m (s.idt.toNat + 16 * vec.val + 8 * k) := by
    intro k hk
    have haddr : (s.idt + BitVec.ofNat 64 (8 * (vec.val * 2 + k))).toNat =
        s.idt.toNat + 16 * vec.val + 8 * k := by
      rw [BitVec.toNat_add, BitVec.toNat_ofNat]
      omega
    rw [idtWord, haddr]
  have hlow := hword 0 (by decide)
  have hhigh := hword 1 (by decide)
  rw [Nat.add_zero, Nat.mul_zero, Nat.add_zero] at hlow
  rw [interruptEntry, if_neg (by omega), hlow, hhigh]
  generalize s.idt.toNat + 16 * vec.val = a at h
  refine assemble_eq (fun i hi => ?_) (fun i hi => ?_) fun i hi => ?_
  · have hbit := getLsbD_readBytes_add m a (k := 0) (n := 2) hi (show 0 + 2 ≤ 8 by decide)
    rw [Nat.mul_zero, Nat.zero_add, Nat.add_zero, h.off0] at hbit
    simpa [hi] using hbit
  · have hbit := getLsbD_readBytes_add m a (k := 6) (n := 2) hi (show 6 + 2 ≤ 8 by decide)
    rw [h.off1] at hbit
    simpa [hi] using hbit
  · have hbit := getLsbD_readBytes_add m (a + 8) (k := 0) (n := 4) hi (show 0 + 4 ≤ 8 by decide)
    have hfield := congrArg (BitVec.getLsbD · i) h.off2
    rw [Nat.mul_zero, Nat.zero_add, Nat.add_zero] at hbit
    refine (hbit.trans hfield).trans ?_
    simp [hi]

/-! ## The round trip -/

/-- The table that `setup_interrupts` has filled and `lidt` has loaded gives the address of each
trap routine back, and a vector behind a table that `lidt` has accepted reads none of it. -/
theorem interruptEntry_roundTrip :
    (∀ (g : GateTable) (trapVector : Vec → Word) (m : Mem) (s s' : GuestState),
      lidt (g.setupInterrupts trapVector m) s g.idtr64 = some s' →
        s'.itpending = s.itpending ∧
          ∀ vec, interruptEntry (g.setupInterrupts trapVector m) s' vec = trapVector vec) ∧
    ∀ (m m' : Mem) (s s' : GuestState) (val : Word) (vec : Vec),
      lidt m s val = some s' → lidtFaults m s val = false →
      (limitAt m val).toNat + 1 ≤ 16 * vec.val → (interruptEntryLog m' s' vec).log = [] := by
  constructor
  · intro g trapVector m s s' h
    have hloads := lidt_loads h
    obtain ⟨hlimit, hbase⟩ := g.setupInterrupts_idtr64 trapVector m
    have hsize : s'.idtSize = INTERRUPT_VECTOR_SIZE := by
      rw [hloads.1, hlimit]
      rfl
    have hidt : s'.idt = g.idt64 := hloads.2.1.trans hbase
    refine ⟨?_, fun vec => ?_⟩
    · rw [lidt_itpending h, hloads.2.2, hlimit]
      rfl
    · have hfits := g.idt64_fits
      have hvec : vec.val < 256 := vec.isLt
      refine interruptEntry_of_gateHolds ?_ ?_ ?_
      · rw [hidt]
        simp only [INTERRUPT_VECTOR_SIZE] at hfits
        omega
      · rw [hsize]
        exact hvec
      · rw [hidt]
        exact g.gateHolds_setupInterrupts trapVector m vec
  · intro m m' s s' val vec h hok hvec
    rw [log_interruptEntryLog, if_pos]
    rw [(lidt_loads h).1]
    omega

/-- The gates at `0x2000`, with `idtr64` behind them. -/
def gateTable : GateTable where
  idt64 := 0x2000
  idtr64 := 0x3000
  idt64_fits := by decide
  idtr64_fits := by decide
  apart := by decide

/-- A guest in 64-bit mode. -/
def longGuest : GuestState := { setupState with mode := .bits64 }

/-- Trap routines of 16 bytes each. -/
def stubAddr (vec : Vec) : Word := 0x100000 + BitVec.ofNat 64 (16 * vec.val)

/-- A table of one gate at `0`. -/
def oneGateMem : Mem := fun a => if a = 0x3000 then 15 else 0

theorem interruptEntry_roundTrip_gateTable :
    (∀ vec, interruptEntry (gateTable.setupInterrupts stubAddr oneGateMem)
      (lidt64 (gateTable.setupInterrupts stubAddr oneGateMem) longGuest 0x3000) vec =
        stubAddr vec) ∧
    (interruptEntryLog oneGateMem (lidt64 oneGateMem longGuest 0x3000) 1).log = [] :=
  ⟨(interruptEntry_roundTrip.1 gateTable stubAddr oneGateMem longGuest _ rfl).2,
    interruptEntry_roundTrip.2 oneGateMem oneGateMem longGuest _ 0x3000 1 rfl (by decide)
      (by decide)⟩

end KernelMemVirt.Janus
