import KernelMemVirt.Janus.State
import KernelMemVirt.Lib.Stack

/-!
# The instruction emulator of the Janus monitor

`monitor/intercept.c`: the signal handler that the host kernel calls when the
guest executes a privileged instruction or touches trapped memory, and the
emulation of that instruction.

The decoder is the XED library, of which the repository only holds a binary.
It enters as a record `Xed` of the functions the emulator calls.  The memory
traps of `shadow.c` are the record `Host`, because `shadow.h` documents more
than `shadow.c` implements; `shadowHost` is the implementation.

A `Machine` is what the handler works on: the guest state, the registers of
`uc_mcontext` and the memory.  A result `none` is the end of the process, after
`emulation_failure`, `unsupported`, a `hlt` or an unhandled instruction.
-/

namespace KernelMemVirt.Janus

open ByteMem

/-! ## Registers and instructions -/

/-- The general registers of `uc_mcontext.gregs`. -/
inductive Gpr
  | rax
  | rbx
  | rcx
  | rdx
  | rdi
  | rsi
  | rbp
  | rsp
  | r8
  | r9
  | r10
  | r11
  | r12
  | r13
  | r14
  | r15
  deriving DecidableEq, Repr

/-- The part of a general register that a register name stands for: `AL`, `AH`,
`AX`, `EAX` and `RAX` for `rax`. -/
inductive Part
  | low8
  | high8
  | word16
  | word32
  | word64
  deriving DecidableEq, Repr

/-- `xed_reg_enum_t`, as far as the emulator tells its values apart. -/
inductive Reg
  | gpr (r : Gpr) (part : Part)
  | ds
  | es
  | fs
  | gs
  | ss
  | cr0
  | cr2
  | cr3
  | cr4
  | cr8
  | other (n : Nat)
  deriving DecidableEq, Repr

/-- `xed_reg_class_enum_t`. -/
inductive RegClass
  | cr
  | sr
  | other
  deriving DecidableEq, Repr

/-- `xed_operand_enum_t`. -/
inductive OperandName
  | reg0
  | reg1
  | imm0
  | mem0
  | other
  deriving DecidableEq, Repr

/-- `xed_iclass_enum_t`. -/
inductive Iclass
  | lgdt
  | lidt
  | mov
  | movzx
  | movCr
  | jmpFar
  | rdmsr
  | wrmsr
  | out
  | sti
  | invlpg
  | iretq
  | hlt
  | other
  deriving DecidableEq, Repr

/-- What the emulator reads out of a decoded instruction.  A decoded
instruction takes at least one byte and at most the 15 given to the decoder. -/
structure DecodedInst where
  iclass : Iclass
  length : Nat
  memoryDisplacement : Word
  branchDisplacement : BitVec 32
  unsignedImmediate : Word
  immediateWidth : Nat
  opn0 : OperandName
  opn1 : OperandName
  reg : OperandName → Reg
  length_pos : 0 < length
  length_le : length ≤ 15

/-- `xed_machine_mode_enum_t`. -/
inductive MachineMode
  | invalid
  | legacy32
  | long64
  deriving DecidableEq, Repr

/-- The functions of the XED library.  A decoding error is `none`. -/
structure Xed where
  registerWidthBits : Reg → Nat
  largestEnclosingRegister : Reg → Reg
  regClass : Reg → RegClass
  decode : MachineMode → (Fin 15 → BitVec 8) → Option DecodedInst

/-- `trap_read` and `trap_write`.  The outer `none` ends the process, the inner
one asks the guest to retry. -/
structure Host where
  trapRead : Mem → Word → Nat → Option (Option Word)
  trapWrite : Mem → Word → Nat → Word → Option (Option Mem)

/-- `shadow.c`, where both traps are unimplemented. -/
def shadowHost : Host where
  trapRead := fun _ _ _ => none
  trapWrite := fun _ _ _ _ => none

/-- What the signal handler reads and writes. -/
structure Machine where
  st : GuestState
  gregs : Gpr → Word
  rip : Word
  mem : Mem

namespace Machine

variable (x : Machine)

/-- `uc->uc_mcontext.gregs[r] = val`. -/
def setGreg (r : Gpr) (val : Word) : Machine :=
  { x with gregs := Function.update x.gregs r val }

/-- `uc->uc_mcontext.gregs[REG_RIP] += xed_decoded_inst_get_length(inst)`. -/
def advance (inst : DecodedInst) : Machine :=
  { x with rip := x.rip + BitVec.ofNat 64 inst.length }

end Machine

/-! ## Register access -/

/-- The mask of `read_register` and `write_register`. -/
def registerMask (len : Nat) : Word := (if len < 64 then 1#64 <<< len else 0) - 1

/-- `read_register`. -/
def readRegister (xed : Xed) (reg : Reg) (x : Machine) : Option Word :=
  match xed.largestEnclosingRegister reg with
  | .gpr r .word64 => some (x.gregs r &&& registerMask (xed.registerWidthBits reg))
  | _ => none

/-- `write_register`. -/
def writeRegister (xed : Xed) (reg : Reg) (x : Machine) (val : Word) : Option Machine :=
  match xed.largestEnclosingRegister reg with
  | .gpr r .word64 =>
    let mask := registerMask (xed.registerWidthBits reg)
    some (x.setGreg r (x.gregs r &&& ~~~mask ||| val &&& mask))
  | _ => none

/-! ## One function for each instruction -/

/-- `emulate_lgdt`. -/
def emulateLgdt (inst : DecodedInst) (x : Machine) : Option Machine :=
  (lgdt x.mem x.st inst.memoryDisplacement).map fun st => { x with st }.advance inst

/-- `emulate_lidt`. -/
def emulateLidt (inst : DecodedInst) (x : Machine) : Option Machine :=
  (lidt x.mem x.st inst.memoryDisplacement).map fun st => { x with st }.advance inst

/-- `emulate_rdmsr`.  The constant `~0xffffffff` is a 32-bit zero, so both
registers are cleared before their low half is set. -/
def emulateRdmsr (inst : DecodedInst) (x : Machine) : Machine :=
  let val := rdmsr x.st ((x.gregs .rcx).setWidth 32)
  let keep : Word := (~~~(0xffffffff : BitVec 32)).setWidth 64
  let x := x.setGreg .rax (x.gregs .rax &&& keep ||| val &&& 0xffffffff)
  let x := x.setGreg .rdx (x.gregs .rdx &&& keep ||| val >>> 32 &&& 0xffffffff)
  x.advance inst

/-- The value that `emulate_wrmsr` assembles from `rax` and `rdx`. -/
def wrmsrOperand (x : Machine) : Word :=
  x.gregs .rax &&& 0xffffffff ||| (x.gregs .rdx &&& 0xffffffff) <<< 32

/-- `emulate_wrmsr`. -/
def emulateWrmsr (inst : DecodedInst) (x : Machine) : Machine :=
  { x with st := wrmsr x.st ((x.gregs .rcx).setWidth 32) (wrmsrOperand x) }.advance inst

/-- `is_ignorable`, for the VGA ports and the ports of the two PICs. -/
def isIgnorable (port : BitVec 16) : Bool :=
  port ∈ [0x3d4, 0x3d5, 0x20, 0x21, 0xa0, 0xa1]

/-- `out8`, `out16` and `out32` differ in the width of a value they ignore. -/
def out (port : BitVec 16) : Option Unit := if isIgnorable port then some () else none

/-- The port operand of `emulate_out`. -/
def outPort (xed : Xed) (inst : DecodedInst) (x : Machine) : Option (BitVec 16) :=
  match inst.opn0 with
  | .reg0 => (readRegister xed (inst.reg inst.opn0) x).map (·.setWidth 16)
  | .imm0 => some (inst.unsignedImmediate.setWidth 16)
  | _ => none

/-- `emulate_out`. -/
def emulateOut (xed : Xed) (inst : DecodedInst) (x : Machine) : Option Machine := do
  let port ← outPort xed inst x
  let reg := inst.reg inst.opn1
  let _ ← readRegister xed reg x
  if xed.registerWidthBits reg ∈ [8, 16, 32] then (out port).map fun _ => x.advance inst
  else none

/-- The displacement of a far jump, an `int32_t` widened to 64 bits. -/
def ljmpTarget (inst : DecodedInst) : Word := inst.branchDisplacement.signExtend 64

/-- The `uint16_t cs` of a far jump. -/
def ljmpSelector (inst : DecodedInst) : Word :=
  (inst.unsignedImmediate.setWidth 16).setWidth 64

/-- `emulate_ljmp`. -/
def emulateLjmp (inst : DecodedInst) (x : Machine) : Option Machine :=
  (movToSelector x.mem x.st (ljmpSelector inst) .cs).map fun st =>
    { x with st, rip := ljmpTarget inst }

/-- The selectors that `emulate_mov_to_sel` accepts. -/
def selectorOf : Reg → Option Selector
  | .ds => some .ds
  | .es => some .es
  | .fs => some .fs
  | .gs => some .gs
  | .ss => some .ss
  | _ => none

/-- `emulate_mov_to_sel`. -/
def emulateMovToSel (xed : Xed) (dest src : Reg) (x : Machine) : Option Machine := do
  let val ← readRegister xed src x
  let sel ← selectorOf dest
  let st ← movToSelector x.mem x.st val sel
  return { x with st }

/-- The control registers that `emulate_mov_to_cr` and `emulate_mov_from_cr`
accept. -/
def controlOf : Reg → Option (Fin 256)
  | .cr0 => some 0
  | .cr2 => some 2
  | .cr3 => some 3
  | .cr4 => some 4
  | .cr8 => some 8
  | _ => none

/-- `emulate_mov_to_cr`. -/
def emulateMovToCr (xed : Xed) (dest src : Reg) (x : Machine) : Option Machine := do
  let val ← readRegister xed src x
  let crn ← controlOf dest
  let st ← movToControl x.st val crn
  return { x with st }

/-- `emulate_mov_from_cr`. -/
def emulateMovFromCr (xed : Xed) (dest src : Reg) (x : Machine) : Option Machine := do
  let crn ← controlOf src
  writeRegister xed dest x (movFromControl x.st crn)

/-- `emulate_mov_cr`. -/
def emulateMovCr (xed : Xed) (inst : DecodedInst) (x : Machine) : Option Machine :=
  let reg0 := inst.reg inst.opn0
  let reg1 := inst.reg inst.opn1
  if xed.regClass reg0 = .cr then (emulateMovToCr xed reg0 reg1 x).map (·.advance inst)
  else if xed.regClass reg1 = .cr then (emulateMovFromCr xed reg0 reg1 x).map (·.advance inst)
  else none

/-- `emulate_mov_to_mem`. -/
def emulateMovToMem (host : Host) (inst : DecodedInst) (val : Word) (len : Nat) (siAddr : Word)
    (x : Machine) : Option Machine :=
  (host.trapWrite x.mem siAddr len val).map fun
    | some mem => { x with mem }.advance inst
    | none => x

/-- `emulate_mov_from_mem`. -/
def emulateMovFromMem (xed : Xed) (host : Host) (inst : DecodedInst) (dest : Reg) (siAddr : Word)
    (x : Machine) : Option Machine := do
  match ← host.trapRead x.mem siAddr (xed.registerWidthBits dest / 8) with
  | some val => (writeRegister xed dest x val).map (·.advance inst)
  | none => return x

/-- `emulate_mov`. -/
def emulateMov (xed : Xed) (host : Host) (inst : DecodedInst) (siAddr : Word) (x : Machine) :
    Option Machine :=
  let reg0 := inst.reg inst.opn0
  let reg1 := inst.reg inst.opn1
  if inst.opn0 = .reg0 ∧ inst.opn1 = .reg1 then
    if xed.regClass reg0 = .sr then (emulateMovToSel xed reg0 reg1 x).map (·.advance inst)
    else none
  else if inst.opn0 = .mem0 then
    match inst.opn1 with
    | .reg0 => do
      let val ← readRegister xed reg1 x
      emulateMovToMem host inst val (xed.registerWidthBits reg1 / 8) siAddr x
    | .imm0 => emulateMovToMem host inst inst.unsignedImmediate inst.immediateWidth siAddr x
    | _ => emulateMovToMem host inst 0 0 siAddr x
  else if inst.opn1 = .mem0 then emulateMovFromMem xed host inst reg0 siAddr x
  else none

/-- `emulate_iretq`. -/
def emulateIretq (x : Machine) : Machine :=
  let rsp := x.gregs .rsp
  { x with rip := read64 x.mem rsp.toNat }.setGreg .rsp (rsp + 5 * 8)

/-! ## The trap -/

/-- The vectors for which `branch_interrupt` pushes the error code. -/
def pushesErrorCode (vec : Vec) : Bool := vec ∈ [8, 9, 10, 11, 12, 13, 14, 16, 17]

/-- The store `stack[-k] = val`. -/
def stackStore (m : Mem) (rsp : Word) (k : Nat) (val : Word) : Mem :=
  write64 m (rsp - BitVec.ofNat 64 (8 * k)).toNat val

/-- `branch_interrupt`. -/
def branchInterrupt (vec : Vec) (code : Word) (x : Machine) : Machine :=
  let rsp := x.gregs .rsp
  let m1 := stackStore x.mem rsp 1 (getSelector x.st .ss)
  let m2 := stackStore m1 rsp 2 rsp
  let m3 := stackStore m2 rsp 3 0
  let m4 := stackStore m3 rsp 4 (getSelector x.st .cs)
  let m5 := stackStore m4 rsp 5 x.rip
  let y :=
    if pushesErrorCode vec then
      { x with mem := stackStore m5 rsp 6 code }.setGreg .rsp (rsp - 6 * 8)
    else { x with mem := m5 }.setGreg .rsp (rsp - 5 * 8)
  { y with rip := interruptEntry y.mem y.st vec }

/-- The dispatch of `emulate` on the instruction class. -/
def emulateInst (xed : Xed) (host : Host) (siAddr : Word) (inst : DecodedInst) (x : Machine) :
    Option Machine :=
  match inst.iclass with
  | .lgdt => emulateLgdt inst x
  | .lidt => emulateLidt inst x
  | .movzx | .mov => emulateMov xed host inst siAddr x
  | .movCr => emulateMovCr xed inst x
  | .jmpFar => emulateLjmp inst x
  | .rdmsr => some (emulateRdmsr inst x)
  | .wrmsr => some (emulateWrmsr inst x)
  | .out => emulateOut xed inst x
  | .sti => some (x.advance inst)
  | .invlpg => some (x.advance inst)
  | .iretq => some (emulateIretq x)
  | .hlt => none
  | .other => none

/-- The decoder's mode for a mode of the guest. -/
def machineMode : Mode → MachineMode
  | .bits16 => .invalid
  | .bits32 => .legacy32
  | .bits64 => .long64

/-- The instruction at `RIP`. -/
def fetch (xed : Xed) (x : Machine) : Option DecodedInst :=
  xed.decode (machineMode x.st.mode) fun i => x.mem (x.rip.toNat + i.val)

/-- `emulate`. -/
def emulate (xed : Xed) (host : Host) (siAddr : Word) (x : Machine) : Option Machine :=
  (fetch xed x).bind fun inst => emulateInst xed host siAddr inst x

/-- The delivery part of `handler`. -/
def deliver (x : Machine) : Machine :=
  match pendingInterrupt x.st with
  | (some (vec, code), st) => branchInterrupt vec code { x with st }
  | (none, st) => { x with st }

/-- `handler`.  The protection of the low memory around the emulation does not
change its contents. -/
def handler (xed : Xed) (host : Host) (siAddr : Word) (x : Machine) : Option Machine :=
  (emulate xed host siAddr x).map deliver

/-! ## The frame of an interrupt -/

/-- The words that `branch_interrupt` leaves on the guest's stack, from the top
down. -/
def interruptFrame (vec : Vec) (code : Word) (x : Machine) : List Word :=
  (if pushesErrorCode vec then [code] else [])
    ++ [x.rip, getSelector x.st .cs, 0, x.gregs .rsp, getSelector x.st .ss]

/-- A store one word further down is a push. -/
theorem stackStore_succ (m : Mem) (rsp : Word) (k : Nat) (val : Word) :
    stackStore m rsp (k + 1) val = Stack.push m (rsp - BitVec.ofNat 64 (8 * k)) val := by
  rw [stackStore, Stack.sub_words_succ]
  rfl

/-- A store below a stack pushes onto it. -/
theorem holds_stackStore {m : Mem} {rsp : Word} {k : Nat} {ws : List Word} (val : Word)
    (hlen : ws.length < Stack.maxWords)
    (h : Stack.Holds m (rsp - BitVec.ofNat 64 (8 * k)) ws) :
    Stack.Holds (stackStore m rsp (k + 1) val) (rsp - BitVec.ofNat 64 (8 * (k + 1)))
      (val :: ws) := by
  have hpush := h.push val hlen
  rw [stackStore_succ, Stack.sub_words_succ]
  exact hpush

@[simp] theorem branchInterrupt_rsp (vec : Vec) (code : Word) (x : Machine) :
    (branchInterrupt vec code x).gregs .rsp
      = x.gregs .rsp - BitVec.ofNat 64 (8 * (interruptFrame vec code x).length) := by
  unfold branchInterrupt interruptFrame
  cases pushesErrorCode vec <;> simp [Machine.setGreg]

theorem branchInterrupt_gregs (vec : Vec) (code : Word) (x : Machine) {r : Gpr}
    (hr : r ≠ .rsp) : (branchInterrupt vec code x).gregs r = x.gregs r := by
  unfold branchInterrupt
  cases pushesErrorCode vec <;> simp [Machine.setGreg, hr]

/-- The frame is on the stack when the guest's handler starts. -/
theorem branchInterrupt_holds (vec : Vec) (code : Word) (x : Machine) :
    Stack.Holds (branchInterrupt vec code x).mem ((branchInterrupt vec code x).gregs .rsp)
      (interruptFrame vec code x) := by
  have h0 : Stack.Holds x.mem (x.gregs .rsp - BitVec.ofNat 64 (8 * 0)) [] := trivial
  have h1 := holds_stackStore (getSelector x.st .ss) (by simp [Stack.maxWords]) h0
  have h2 := holds_stackStore (x.gregs .rsp) (by simp [Stack.maxWords]) h1
  have h3 := holds_stackStore 0 (by simp [Stack.maxWords]) h2
  have h4 := holds_stackStore (getSelector x.st .cs) (by simp [Stack.maxWords]) h3
  have h5 := holds_stackStore x.rip (by simp [Stack.maxWords]) h4
  rw [branchInterrupt_rsp]
  unfold branchInterrupt interruptFrame
  cases pushesErrorCode vec with
  | false => exact h5
  | true => exact holds_stackStore code (by simp [Stack.maxWords]) h5

end KernelMemVirt.Janus
