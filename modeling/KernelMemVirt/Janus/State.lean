import KernelMemVirt.Lib.ByteMem
import Mathlib.Algebra.GroupWithZero.Nat
import Mathlib.Logic.Function.Basic

/-!
# The guest state of the Janus monitor

`monitor/state.c` and `monitor/state.h`: the processor state that the monitor
emulates for its guest, and the operations the instruction emulator calls on
it.  Guest memory is the monitor's own address space, so an operation that
dereferences a guest pointer takes a `Mem`.

`exit` and `abort` end the monitor process.  An operation that may reach one
returns an `Option`, and `none` is the end of the process.

`trigger_gpfault` does not return to the guest: it records vector 13 in
`itpending` and lets its caller go on.  The definitions below keep that, so
every store that follows a fault in the source follows it here too.
-/

namespace KernelMemVirt.Janus

open ByteMem

abbrev Word := BitVec 64

/-! ## Constants of `state.h` -/

/-- `guest_state.mode`. -/
inductive Mode
  | bits16
  | bits32
  | bits64
  deriving DecidableEq, Repr

/-- The indices `SELECTOR_CS` to `SELECTOR_SS` of `guest_state.selectors`. -/
inductive Selector
  | cs
  | ds
  | es
  | fs
  | gs
  | ss
  deriving DecidableEq, Repr

abbrev VGA_SIZE : Nat := 25 * 80

abbrev INTERRUPT_COUNT : Nat := 256

/-- An interrupt vector, `uint8_t` in the source. -/
abbrev Vec := Fin INTERRUPT_COUNT

@[instance] theorem neZero_interruptCount : NeZero INTERRUPT_COUNT := Nat.instNeZeroSucc

/-- For the five control registers. -/
@[instance] theorem neZero_five : NeZero 5 := Nat.instNeZeroSucc

@[instance] theorem lawfulBEq_vec : LawfulBEq Vec := inferInstance

/-- The word `1ul << k`. -/
def bit (k : Nat) : Word := 1#64 <<< k

abbrev DESCRIPTOR_P : Word := bit 47
abbrev DESCRIPTOR_L : Word := bit 53

abbrev CR0_PE : Word := bit 0
abbrev CR0_ET : Word := bit 4
abbrev CR0_PG : Word := bit 31
abbrev CR4_PAE : Word := bit 5

def MSR_EFER : BitVec 32 := 0xc0000080
abbrev EFER_LME : Word := bit 8
abbrev EFER_LMA : Word := bit 10

def INTERRUPT_GP : Vec := 13

/-- The C test `x & flag`. -/
def test (x flag : Word) : Bool := x &&& flag != 0

/-! ## The state record -/

/-- `struct state`. -/
structure GuestState where
  mode : Mode
  selectors : Selector → Word
  gdt : Word
  gdtSize : Nat
  idt : Word
  idtSize : Nat
  controls : Fin 5 → Word
  efer : Word
  vga : Fin VGA_SIZE → BitVec 16
  itpending : Vec → Bool
  itcode : Vec → Word

namespace GuestState

variable (s : GuestState)

/-- `guest_state.controls[i]` as an lvalue.  The array has five entries and
the source does not check `i`, so a larger index reaches the words that follow
the array in `struct state`: `efer` for 5, then the cells of `vga`, four to a
word. -/
def storeControl (i : Fin 256) (val : Word) : GuestState :=
  if h : i.val < 5 then { s with controls := Function.update s.controls ⟨i.val, h⟩ val }
  else if i.val = 5 then { s with efer := val }
  else
    { s with
      vga := fun c =>
        if c.val / 4 = i.val - 6 then val.extractLsb' (16 * (c.val % 4)) 16 else s.vga c }

/-- `guest_state.controls[i]` as a value. -/
def loadControl (i : Fin 256) : Word :=
  if h : i.val < 5 then s.controls ⟨i.val, h⟩
  else if i.val = 5 then s.efer
  else
    let cell (k : Nat) : BitVec 16 :=
      if h : 4 * (i.val - 6) + k < VGA_SIZE then s.vga ⟨4 * (i.val - 6) + k, h⟩ else 0
    cell 3 ++ cell 2 ++ cell 1 ++ cell 0

/-- `trigger_interrupt`. -/
def triggerInterrupt (vec : Vec) (code : Word) : GuestState :=
  { s with
    itpending := Function.update s.itpending vec true
    itcode := Function.update s.itcode vec code }

/-- `trigger_gpfault`. -/
def triggerGpfault (code : Word) : GuestState := s.triggerInterrupt INTERRUPT_GP code

/-- `activate_longmode`. -/
def activateLongmode : GuestState := { s with mode := .bits64 }

/-- The statement `if (cond) trigger_gpfault(0);`. -/
def gpfaultIf (cond : Bool) : GuestState := if cond then s.triggerGpfault 0 else s

end GuestState

/-- `setup_state`. -/
def setupState : GuestState where
  mode := .bits32
  selectors := fun _ => 0
  gdt := 0
  gdtSize := 0
  idt := 0
  idtSize := 0
  controls := fun i => if i = 0 then CR0_PE ||| CR0_ET else 0
  efer := 0
  vga := fun _ => 0
  itpending := fun _ => false
  itcode := fun _ => 0

/-! ## Descriptor tables -/

/-- The `limit` field of a packed `gdtr32`, `gdtr64` or `idtr64`. -/
def limitAt (m : Mem) (val : Word) : BitVec 16 := readBytes m val.toNat 2

/-- The `base` field of a packed `gdtr32`. -/
def base32At (m : Mem) (val : Word) : BitVec 32 := read32 m (val + 2).toNat

/-- The `base` field of a packed `gdtr64` or `idtr64`. -/
def base64At (m : Mem) (val : Word) : Word := read64 m (val + 2).toNat

/-- `lgdt32`. -/
def lgdt32 (m : Mem) (s : GuestState) (val : BitVec 32) : GuestState :=
  let gdtr : Word := val.setWidth 64
  let limit := (limitAt m gdtr).toNat
  { s.gpfaultIf ((limit + 1) % 8 != 0) with
    gdtSize := (limit + 1) / 8
    gdt := (base32At m gdtr).setWidth 64 }

/-- `lgdt64`. -/
def lgdt64 (m : Mem) (s : GuestState) (val : Word) : GuestState :=
  let limit := (limitAt m val).toNat
  { s.gpfaultIf ((limit + 1) % 8 != 0) with
    gdtSize := (limit + 1) / 8
    gdt := base64At m val }

/-- `lgdt`. -/
def lgdt (m : Mem) (s : GuestState) (val : Word) : Option GuestState :=
  match s.mode with
  | .bits32 => some (lgdt32 m s (val.setWidth 32))
  | .bits64 => some (lgdt64 m s val)
  | .bits16 => none

/-- `lidt64`. -/
def lidt64 (m : Mem) (s : GuestState) (val : Word) : GuestState :=
  let limit := (limitAt m val).toNat
  { s.gpfaultIf ((limit + 1) % 16 != 0) with
    idtSize := (limit + 1) / 16
    idt := base64At m val }

/-- `lidt`. -/
def lidt (m : Mem) (s : GuestState) (val : Word) : Option GuestState :=
  match s.mode with
  | .bits64 => some (lidt64 m s val)
  | _ => none

/-! ## Selectors -/

/-- `guest_state.gdt[index]`. -/
def descriptor (m : Mem) (s : GuestState) (index : Word) : Word :=
  read64 m (s.gdt + 8 * index).toNat

/-- The two checks of `mov_to_selector` that trigger a fault. -/
def selectorFaults (m : Mem) (s : GuestState) (val : Word) : Bool :=
  decide (s.gdtSize < (val / 8).toNat) || !test (descriptor m s (val / 8)) DESCRIPTOR_P

/-- Paging in long mode, the test that `mov_to_selector` makes on a CS load. -/
def longmodePaging (s : GuestState) : Bool :=
  test (s.controls 0) CR0_PE && test (s.controls 0) CR0_PG && test s.efer EFER_LMA

/-- `mov_to_selector`. -/
def movToSelector (m : Mem) (s : GuestState) (val : Word) (selector : Selector) :
    Option GuestState :=
  let index := val / 8
  let s1 := s.gpfaultIf (decide (s.gdtSize < index.toNat))
  let s2 := s1.gpfaultIf (!test (descriptor m s1 index) DESCRIPTOR_P)
  if selector = .cs ∧ test (descriptor m s2 index) DESCRIPTOR_L = false ∧ s2.mode = .bits64 then
    none
  else
    let s3 := if selector = .cs ∧ longmodePaging s2 = true then s2.activateLongmode else s2
    some { s3 with selectors := Function.update s3.selectors selector val }

/-- `get_selector`. -/
def getSelector (s : GuestState) (selector : Selector) : Word := s.selectors selector

/-! ## Control registers -/

/-- `mov_from_control`. -/
def movFromControl (s : GuestState) (control : Fin 256) : Word := s.loadControl control

/-- `set_page_table` reads CR3 and leaves it at that. -/
def setPageTable (s : GuestState) : GuestState := s

/-- The check of `mov_to_cr0` that triggers a fault. -/
def cr0Faults (s : GuestState) (val : Word) : Bool :=
  test (val &&& ~~~s.controls 0) CR0_PG && test s.efer EFER_LME && !test (s.controls 4) CR4_PAE

/-- `mov_to_cr0`. -/
def movToCr0 (s : GuestState) (val : Word) : Option GuestState :=
  let activate := val &&& ~~~s.controls 0
  let deactivate := s.controls 0 &&& ~~~val
  if test deactivate CR0_PE then
    none
  else
    let s1 := s.gpfaultIf (cr0Faults s val)
    let s2 :=
      if test activate CR0_PG then
        let s' := setPageTable s1
        if test s'.efer EFER_LME then { s' with efer := s'.efer ||| EFER_LMA } else s'
      else s1
    some (s2.storeControl 0 (val ||| CR0_ET))

/-- The check of `mov_to_cr4` that triggers a fault. -/
def cr4Faults (s : GuestState) (val : Word) : Bool :=
  test (s.controls 4 &&& ~~~val) CR4_PAE && test s.efer EFER_LMA

/-- `mov_to_cr4`. -/
def movToCr4 (s : GuestState) (val : Word) : GuestState :=
  (s.gpfaultIf (cr4Faults s val)).storeControl 4 val

/-- `mov_to_control`. -/
def movToControl (s : GuestState) (val : Word) (control : Fin 256) : Option GuestState :=
  if control = 0 then movToCr0 s val
  else if control = 4 then some (movToCr4 s val)
  else some (s.storeControl control val)

/-- `set_control`. -/
def setControl (s : GuestState) (val : Word) (control : Fin 256) : GuestState :=
  s.storeControl control val

/-! ## Model specific registers -/

/-- `rdmsr`. -/
def rdmsr (s : GuestState) (addr : BitVec 32) : Word :=
  if addr = MSR_EFER then s.efer else BitVec.allOnes 64

/-- The three checks of `wrmsr_efer` that trigger a fault. -/
def eferFaults (s : GuestState) (val : Word) : Bool :=
  test (val &&& ~~~s.efer) EFER_LMA
    || test (val &&& ~~~s.efer) EFER_LME && test (s.controls 0) CR0_PG
    || test (s.efer &&& ~~~val) EFER_LME && test (s.controls 0) CR0_PG

/-- `wrmsr_efer`. -/
def wrmsrEfer (s : GuestState) (val : Word) : GuestState :=
  let activate := val &&& ~~~s.efer
  let deactivate := s.efer &&& ~~~val
  let s1 := s.gpfaultIf (test activate EFER_LMA)
  let s2 := s1.gpfaultIf (test activate EFER_LME && test (s.controls 0) CR0_PG)
  let s3 := s2.gpfaultIf (test deactivate EFER_LME && test (s.controls 0) CR0_PG)
  { s3 with efer := val }

/-- `wrmsr`. -/
def wrmsr (s : GuestState) (addr : BitVec 32) (val : Word) : GuestState :=
  if addr = MSR_EFER then wrmsrEfer s val else s

/-! ## Interrupts -/

/-- `guest_state.idt[i]`. -/
def idtWord (m : Mem) (s : GuestState) (i : Nat) : Word :=
  read64 m (s.idt + BitVec.ofNat 64 (8 * i)).toNat

/-- `interrupt_entry`. -/
def interruptEntry (m : Mem) (s : GuestState) (vec : Vec) : Word :=
  if s.idtSize ≤ vec.val then 0
  else
    (idtWord m s (vec.val * 2) >>> 0 &&& 0x000000000000ffff)
      ||| (idtWord m s (vec.val * 2) >>> 32 &&& 0x00000000ffff0000)
      ||| (idtWord m s (vec.val * 2 + 1) <<< 32 &&& 0xffffffff00000000)

/-- `pending_interrupt(1, ..)`: the lowest pending vector with its code, which
is no longer pending afterwards. -/
def pendingInterrupt (s : GuestState) : Option (Vec × Word) × GuestState :=
  match (List.finRange INTERRUPT_COUNT).find? s.itpending with
  | some vec =>
    (some (vec, s.itcode vec), { s with itpending := Function.update s.itpending vec false })
  | none => (none, s)

/-! ## The screen -/

/-- `write_vga`, where `none` is the `abort`. -/
def writeVga (s : GuestState) (off val : BitVec 16) : Option GuestState :=
  if h : off.toNat < VGA_SIZE then
    some { s with vga := Function.update s.vga ⟨off.toNat, h⟩ val }
  else none

/-! ## Single bits -/

theorem getLsbD_bit (k i : Nat) : (bit k).getLsbD i = decide (i < 64 ∧ k = i) := by
  rw [bit, ← BitVec.twoPow_eq, BitVec.getLsbD_twoPow]
  by_cases hi : i < 64 <;> by_cases hk : k = i <;> simp [hi, hk]

/-- A test of a single bit reads that bit. -/
theorem test_bit (x : Word) (k : Nat) : test x (bit k) = x.getLsbD k := by
  have hand : x &&& bit k = if x.getLsbD k then bit k else 0#64 := by
    rw [bit, ← BitVec.twoPow_eq, BitVec.and_twoPow]
  unfold test
  rw [hand]
  cases hx : x.getLsbD k with
  | false => rfl
  | true =>
    have hk : k < 64 := BitVec.lt_of_getLsbD hx
    rw [if_pos rfl]
    refine bne_iff_ne.mpr fun h => ?_
    have hbit := getLsbD_bit k k
    rw [h] at hbit
    simp [hk] at hbit

@[simp] theorem test_and_not (x y : Word) (k : Nat) :
    test (x &&& ~~~y) (bit k) = (test x (bit k) && !test y (bit k)) := by
  simp only [test_bit, BitVec.getLsbD_and, BitVec.getLsbD_not]
  by_cases hk : k < 64
  · simp [hk]
  · simp [BitVec.getLsbD_of_ge x k (by omega)]

@[simp] theorem test_or_bit (x : Word) (j k : Nat) :
    test (x ||| bit j) (bit k) = (test x (bit k) || decide (k < 64 ∧ j = k)) := by
  simp only [test_bit, BitVec.getLsbD_or, getLsbD_bit]

/-! ## What a fault and a store leave alone -/

namespace GuestState

variable (s : GuestState) (c : Bool)

@[simp] theorem gpfaultIf_mode : (s.gpfaultIf c).mode = s.mode := by
  cases c <;> rfl

@[simp] theorem gpfaultIf_controls : (s.gpfaultIf c).controls = s.controls := by
  cases c <;> rfl

@[simp] theorem gpfaultIf_efer : (s.gpfaultIf c).efer = s.efer := by
  cases c <;> rfl

@[simp] theorem gpfaultIf_gdt : (s.gpfaultIf c).gdt = s.gdt := by
  cases c <;> rfl

@[simp] theorem gpfaultIf_selectors : (s.gpfaultIf c).selectors = s.selectors := by
  cases c <;> rfl

@[simp] theorem storeControl_zero (val : Word) :
    s.storeControl 0 val = { s with controls := Function.update s.controls 0 val } := rfl

@[simp] theorem storeControl_four (val : Word) :
    s.storeControl 4 val = { s with controls := Function.update s.controls 4 val } := rfl

end GuestState

@[simp] theorem descriptor_gpfaultIf (m : Mem) (s : GuestState) (c : Bool) (index : Word) :
    descriptor m (s.gpfaultIf c) index = descriptor m s index := by
  simp [descriptor]

@[simp] theorem longmodePaging_gpfaultIf (s : GuestState) (c : Bool) :
    longmodePaging (s.gpfaultIf c) = longmodePaging s := by
  simp [longmodePaging]

end KernelMemVirt.Janus
