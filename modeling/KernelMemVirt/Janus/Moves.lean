import KernelMemVirt.Janus.Registers

/-!
# Moves between registers and memory

What the x86 instructions `MOV` and `MOVZX` do to a memory operand (`MemMove.exec`), and
what `emulate_mov` does for them through `trap_read` and `trap_write`.

`emulate_mov` takes the length of the access from the register, whichever side it is on, or
from the immediate.  These are not always the length of the memory operand: an immediate of
four bytes may be stored in eight, and `MOVZX` loads less than its register holds.

* `trapCall`: the one trap that `emulate_mov` calls.
* `emulateMovToMem_eq`, `emulateMovFromMem_eq`: what follows from its answer.
* `emulateInst_of_decodes`: the machine that each move leaves, and when it is the right one.
* `trapCall_len_iff`: the moves for which the trap has the size of the operand.
* `emulates_iff_faithful`: the moves for which this is the effect of the instruction.
-/

namespace KernelMemVirt.Janus

open ByteMem BitField

/-! ## The instructions -/

/-- The size of an operand. -/
inductive OpSize
  | byte
  | word
  | dword
  | qword
  deriving DecidableEq, Repr

def OpSize.bytes : OpSize → Nat
  | .byte => 1
  | .word => 2
  | .dword => 4
  | .qword => 8

/-- The immediate of a `MOV` to memory has at most four bytes. -/
def OpSize.immBytes : OpSize → Nat
  | .qword => 4
  | size => size.bytes

/-- The number of bytes of a part. -/
def Part.bytes (part : Part) : Nat := part.width / 8

/-- A `MOV` or `MOVZX` with a memory operand. -/
inductive MemMove
  | store (src : RegName)
  | storeImm (size : OpSize) (imm : BitVec (8 * size.immBytes))
  | load (dest : RegName)
  /-- The memory operand is a byte or a word, and the register is not smaller. -/
  | loadZeroExtended (dest : RegName) (size : OpSize) (narrow : size = .byte ∨ size = .word)
      (wide : dest.part = .word16 ∨ dest.part = .word32 ∨ dest.part = .word64)

/-- The effect of a move on the memory operand at `addr`. -/
def MemMove.transfer (addr : Word) (x : Machine) : MemMove → Machine
  | .store src =>
    { x with
      mem := writeBytes x.mem addr.toNat src.part.bytes
        ((RegFile.read x.gregs src).setWidth (8 * src.part.bytes)) }
  | .storeImm size imm =>
    { x with mem := writeBytes x.mem addr.toNat size.bytes (imm.signExtend (8 * size.bytes)) }
  | .load dest =>
    { x with
      gregs := RegFile.write x.gregs dest
        ((readBytes x.mem addr.toNat dest.part.bytes).setWidth 64) }
  | .loadZeroExtended dest size _ _ =>
    { x with
      gregs := RegFile.write x.gregs dest ((readBytes x.mem addr.toNat size.bytes).setWidth 64) }

/-- The instruction of `len` bytes. -/
def MemMove.exec (move : MemMove) (addr : Word) (len : Nat) (x : Machine) : Machine :=
  { move.transfer addr x with rip := x.rip + BitVec.ofNat 64 len }

/-- The library decodes a move into its operands. -/
def Decodes (inst : DecodedInst) : MemMove → Prop
  | .store src =>
    inst.iclass = .mov ∧ inst.opn0 = .mem0 ∧ inst.opn1 = .reg0 ∧ inst.reg .reg0 = src.reg
  | .storeImm size imm =>
    inst.iclass = .mov ∧ inst.opn0 = .mem0 ∧ inst.opn1 = .imm0 ∧
      inst.immediateWidth = size.immBytes ∧ inst.unsignedImmediate = imm.setWidth 64
  | .load dest =>
    inst.iclass = .mov ∧ inst.opn0 = .reg0 ∧ inst.opn1 = .mem0 ∧ inst.reg .reg0 = dest.reg
  | .loadZeroExtended dest _ _ _ =>
    inst.iclass = .movzx ∧ inst.opn0 = .reg0 ∧ inst.opn1 = .mem0 ∧ inst.reg .reg0 = dest.reg

/-! ## The traps -/

/-- The memory traps, as `shadow.h` documents them: an access that is emulated transfers
exactly its bytes, and any other one is retried. -/
structure Host.Transfers (host : Host) : Prop where
  read_ne_none : ∀ m addr len, host.trapRead m addr len ≠ none
  read_bytes : ∀ {m addr len val}, len ≤ 8 → host.trapRead m addr len = some (some val) →
    val.setWidth (8 * len) = readBytes m addr.toNat len
  write_ne_none : ∀ m addr len val, host.trapWrite m addr len val ≠ none
  write_bytes : ∀ {m addr len val m'}, len ≤ 8 →
    host.trapWrite m addr len val = some (some m') →
    m' = writeBytes m addr.toNat len (val.setWidth (8 * len))

/-- A call of `trap_read` or `trap_write` at the address of the trap. -/
inductive TrapCall
  | read (len : Nat)
  | write (len : Nat) (val : Word)

/-- The trap that `emulate_mov` calls for a memory operand. -/
def trapCall (xed : Xed) (inst : DecodedInst) (x : Machine) : Option TrapCall :=
  let reg0 := inst.reg inst.opn0
  let reg1 := inst.reg inst.opn1
  if inst.opn0 = .mem0 then
    match inst.opn1 with
    | .reg0 => (readRegister xed reg1 x).map (.write (xed.registerWidthBits reg1 / 8))
    | .imm0 => some (.write inst.immediateWidth inst.unsignedImmediate)
    | _ => some (.write 0 0)
  else if inst.opn1 = .mem0 then some (.read (xed.registerWidthBits reg0 / 8))
  else none

/-- The trap returns a value that is not zero. -/
def Host.emulates (host : Host) (m : Mem) (addr : Word) : TrapCall → Bool
  | .read len => (host.trapRead m addr len).join.isSome
  | .write len val => (host.trapWrite m addr len val).join.isSome

theorem Part.bytes_le (part : Part) : part.bytes ≤ 8 := by
  cases part <;> decide

theorem Part.width_eq (part : Part) : part.width = 8 * part.bytes := by
  cases part <;> rfl

/-- At most eight bytes fit in a word. -/
theorem setWidth_word {n : Nat} (hn : n ≤ 8) (v : BitVec (8 * n)) :
    (v.setWidth 64).setWidth (8 * n) = v := by
  rw [BitVec.setWidth_setWidth_of_le _ (by omega), BitVec.setWidth_eq]

theorem OpSize.immBytes_le (size : OpSize) : size.immBytes ≤ 8 := by
  cases size <;> decide

section Traps

variable {xed : Xed} {host : Host} {inst : DecodedInst} {addr : Word} {x : Machine}

/-- A store makes one call of `trap_write`. -/
theorem emulateMovToMem_eq (hhost : host.Transfers) {len : Nat} (hlen : len ≤ 8) (val : Word) :
    emulateMovToMem host inst val len addr x =
      some (if host.emulates x.mem addr (.write len val) then
        { x with mem := writeBytes x.mem addr.toNat len (val.setWidth (8 * len)) }.advance inst
        else x) := by
  have hans : host.emulates x.mem addr (.write len val) =
      (host.trapWrite x.mem addr len val).join.isSome := rfl
  unfold emulateMovToMem
  rcases htrap : host.trapWrite x.mem addr len val with _ | _ | m'
  · exact absurd htrap (hhost.write_ne_none _ _ _ _)
  · rw [htrap] at hans
    rw [if_neg (by rw [hans]; decide)]
    rfl
  · rw [htrap] at hans
    rw [hans, hhost.write_bytes hlen htrap]
    rfl

/-- A load makes one call of `trap_read`, of the size of its register. -/
theorem emulateMovFromMem_eq (hxed : xed.Architectural) (hhost : host.Transfers)
    (dest : RegName) :
    emulateMovFromMem xed host inst dest.reg addr x =
      some (if host.emulates x.mem addr (.read dest.part.bytes) then
        (x.setGreg dest.gpr (set (x.gregs dest.gpr) 0 dest.part.width
          ((readBytes x.mem addr.toNat dest.part.bytes).setWidth 64))).advance inst
        else x) := by
  have hans : host.emulates x.mem addr (.read dest.part.bytes) =
      (host.trapRead x.mem addr dest.part.bytes).join.isSome := rfl
  unfold emulateMovFromMem
  rw [hxed.width, show dest.part.width / 8 = dest.part.bytes from rfl]
  rcases htrap : host.trapRead x.mem addr dest.part.bytes with _ | _ | val
  · exact absurd htrap (hhost.read_ne_none _ _ _)
  · rw [htrap] at hans
    rw [if_neg (by rw [hans]; decide)]
    rfl
  · rw [htrap] at hans
    have hbytes := hhost.read_bytes dest.part.bytes_le htrap
    have hval : get val 0 dest.part.width =
        get ((readBytes x.mem addr.toNat dest.part.bytes).setWidth 64) 0 dest.part.width := by
      rw [dest.part.width_eq, ← setWidth_eq_setWidth_iff, hbytes, setWidth_word dest.part.bytes_le]
    rw [hans, ← set_congr hval]
    simp only [bind, Option.bind, writeRegister_eq hxed, Option.map_some]
    rfl

end Traps

/-! ## The moves that are emulated faithfully -/

/-- The condition under which `emulate_mov` transfers the operand. -/
def MemMove.Faithful (addr : Word) (x : Machine) : MemMove → Prop
  -- the first byte of the register is stored for `AH`
  | .store src =>
    src.part = .high8 → secondByte (x.gregs src.gpr) = firstByte (x.gregs src.gpr)
  -- four bytes are stored, and the other four have to be there
  | .storeImm size imm =>
    size = .qword →
      readBytes x.mem (addr.toNat + 4) 4 = if imm.msb then BitVec.allOnes 32 else 0
  -- every bit of the register is read
  | .load dest =>
    PartsAgree (x.gregs dest.gpr) ((readBytes x.mem addr.toNat dest.part.bytes).setWidth 64)
      dest.part .word64
  -- the whole size of the register is loaded
  | .loadZeroExtended dest size _ _ =>
    readBytes x.mem (addr.toNat + size.bytes) (dest.part.bytes - size.bytes) = 0 ∧
      (dest.part = .word32 → get (x.gregs dest.gpr) 32 32 = 0)

/-- The halves of an immediate of 32 bits that is extended to 64. -/
theorem setWidth_signExtend (imm : BitVec 32) : (imm.signExtend 64).setWidth 32 = imm := by
  apply BitVec.eq_of_getLsbD_eq
  intro i hi
  rw [BitVec.getLsbD_setWidth, BitVec.getLsbD_signExtend, if_pos hi, decide_eq_true hi,
    decide_eq_true (by omega), Bool.true_and, Bool.true_and]

theorem extractLsb'_signExtend (imm : BitVec 32) :
    (imm.signExtend 64).extractLsb' 32 32 = if imm.msb then BitVec.allOnes 32 else 0 := by
  apply BitVec.eq_of_getLsbD_eq
  intro i hi
  rw [BitVec.getLsbD_extractLsb', BitVec.getLsbD_signExtend, if_neg (by omega),
    decide_eq_true hi, decide_eq_true (by omega), Bool.true_and, Bool.true_and]
  cases imm.msb with
  | false => exact BitVec.getLsbD_zero.symm
  | true => exact (BitVec.getLsbD_allOnes.trans (decide_eq_true hi)).symm

/-- Four bytes of an immediate are stored where all eight of the operand should be. -/
theorem write32_eq_write64_iff (m : Mem) (a : Nat) (imm : BitVec 32) :
    write32 m a imm = write64 m a (imm.signExtend 64) ↔
      read32 m (a + 4) = if imm.msb then BitVec.allOnes 32 else 0 := by
  have hsplit : write64 m a (imm.signExtend 64) =
      write32 (write32 m a ((imm.signExtend 64).setWidth 32)) (a + 4)
        ((imm.signExtend 64).extractLsb' 32 32) :=
    writeBytes_add m a 4 4 (imm.signExtend 64)
  rw [hsplit, setWidth_signExtend, extractLsb'_signExtend, eq_comm, writeBytes_eq_self_iff,
    readBytes_writeBytes_of_apart (by unfold Apart; omega)]

/-- An immediate that is stored with its own size is stored with the size of the operand when
the bytes between the two hold its sign already. -/
theorem writeBytes_imm_eq_iff (m : Mem) (a : Nat) (size : OpSize)
    (imm : BitVec (8 * size.immBytes)) :
    writeBytes m a size.immBytes imm =
        writeBytes m a size.bytes (imm.signExtend (8 * size.bytes)) ↔
      (size = .qword → readBytes m (a + 4) 4 = if imm.msb then BitVec.allOnes 32 else 0) := by
  cases size with
  | qword =>
    rw [forall_prop_of_true rfl]
    exact write32_eq_write64_iff m a imm
  | _ =>
    apply iff_of_true
    · exact congrArg _ (BitVec.signExtend_eq imm).symm
    · rintro ⟨⟩

section Faithful

variable (addr : Word) (x : Machine)

theorem store_eq_transfer_iff (src : RegName) :
    { x with
      mem := writeBytes x.mem addr.toNat src.part.bytes
        ((get (x.gregs src.gpr) 0 src.part.width).setWidth (8 * src.part.bytes)) } =
        (MemMove.store src).transfer addr x ↔
      (MemMove.store src).Faithful addr x := by
  rw [MemMove.transfer, MemMove.Faithful, Machine.mk.injEq, writeBytes_inj,
    setWidth_eq_setWidth_iff, ← src.part.width_eq, RegFile.read, get_get _ (by omega),
    get_get _ (by omega), ← get_low_eq_get_iff]
  simp

theorem storeImm_eq_transfer_iff (size : OpSize) (imm : BitVec (8 * size.immBytes)) :
    { x with
      mem := writeBytes x.mem addr.toNat size.immBytes
        ((imm.setWidth 64).setWidth (8 * size.immBytes)) } =
        (MemMove.storeImm size imm).transfer addr x ↔
      (MemMove.storeImm size imm).Faithful addr x := by
  rw [MemMove.transfer, MemMove.Faithful, Machine.mk.injEq, setWidth_word size.immBytes_le,
    writeBytes_imm_eq_iff]
  simp

/-- What a load leaves in its register decides the whole machine. -/
theorem setGreg_eq_iff (dest : RegName) (w val : Word) :
    x.setGreg dest.gpr w = { x with gregs := RegFile.write x.gregs dest val } ↔
      w = set (if dest.part = .word32 then 0 else x.gregs dest.gpr) dest.part.low dest.part.width
        val := by
  rw [Machine.setGreg, Machine.mk.injEq, RegFile.write]
  constructor
  · rintro ⟨-, hgregs, -⟩
    have hdest := congrFun hgregs dest.gpr
    rwa [Function.update_self, Function.update_self] at hdest
  · rintro rfl
    exact ⟨rfl, rfl, rfl, rfl⟩

theorem load_eq_transfer_iff (dest : RegName) :
    x.setGreg dest.gpr (set (x.gregs dest.gpr) 0 dest.part.width
        ((readBytes x.mem addr.toNat dest.part.bytes).setWidth 64)) =
        (MemMove.load dest).transfer addr x ↔
      (MemMove.load dest).Faithful addr x := by
  have hparts := get_eq_get_iff_partsAgree (x.gregs dest.gpr)
    ((readBytes x.mem addr.toNat dest.part.bytes).setWidth 64) dest.part .word64
  rw [show Part.word64.low = 0 from rfl, show Part.word64.width = 64 from rfl, get_all,
    get_all] at hparts
  exact (setGreg_eq_iff x dest _ _).trans hparts

/-- The bytes of a longer load after those of the operand. -/
theorem get_readBytes_eq_iff (m : Mem) (a : Nat) {n k : Nat} (hle : n + k ≤ 8) :
    get ((readBytes m a (n + k)).setWidth 64) 0 (8 * (n + k)) =
        get ((readBytes m a n).setWidth 64) 0 (8 * (n + k)) ↔
      readBytes m (a + n) k = 0 := by
  rw [← setWidth_eq_setWidth_iff, setWidth_word hle,
    BitVec.setWidth_setWidth_of_le _ (by omega)]
  exact readBytes_add_eq_setWidth_iff

/-- The bits above a name: only a write of 32 bits clears them. -/
theorem get_upper_eq_iff (w : Word) (p : Part) :
    get w p.width (64 - p.width) = get (if p = .word32 then 0 else w) p.width (64 - p.width) ↔
      (p = .word32 → get w 32 32 = 0) := by
  by_cases h32 : p = .word32
  · subst h32
    have hzero : get (0 : Word) 32 32 = 0 := by decide
    rw [if_pos rfl, forall_prop_of_true rfl]
    exact iff_of_eq (congrArg (get w 32 32 = ·) hzero)
  · rw [if_neg h32]
    exact iff_of_true rfl fun heq => absurd heq h32

theorem loadZeroExtended_eq_transfer_iff (dest : RegName) (size : OpSize)
    (narrow : size = .byte ∨ size = .word)
    (wide : dest.part = .word16 ∨ dest.part = .word32 ∨ dest.part = .word64) :
    x.setGreg dest.gpr (set (x.gregs dest.gpr) 0 dest.part.width
        ((readBytes x.mem addr.toNat dest.part.bytes).setWidth 64)) =
        (MemMove.loadZeroExtended dest size narrow wide).transfer addr x ↔
      (MemMove.loadZeroExtended dest size narrow wide).Faithful addr x := by
  have hlow : dest.part.low = 0 := by
    rcases wide with hp | hp | hp <;> rw [hp] <;> rfl
  have hle : size.bytes ≤ dest.part.bytes := by
    rcases narrow with rfl | rfl <;> rcases wide with hp | hp | hp <;> rw [hp] <;> decide
  have hbytes := dest.part.bytes_le
  have hwidth := dest.part.width_eq
  have hread := get_readBytes_eq_iff x.mem addr.toNat
    (show size.bytes + (dest.part.bytes - size.bytes) ≤ 8 by omega)
  rw [Nat.add_sub_cancel' hle] at hread
  refine (setGreg_eq_iff x dest _ _).trans ?_
  rw [hlow, set_low_eq_set_low_iff (by omega), get_upper_eq_iff, hwidth]
  exact and_congr_left' hread

end Faithful

/-! ## The emulator -/

section Emulator

variable {xed : Xed} {host : Host} {inst : DecodedInst}

/-- Both instructions are emulated by `emulate_mov`. -/
theorem emulateInst_eq_emulateMov (hclass : inst.iclass = .mov ∨ inst.iclass = .movzx)
    (addr : Word) (x : Machine) :
    emulateInst xed host addr inst x = emulateMov xed host inst addr x := by
  rcases hclass with hclass | hclass <;> rw [emulateInst, hclass]

theorem trapCall_load (hxed : xed.Architectural) {dest : RegName} (h0 : inst.opn0 = .reg0)
    (h1 : inst.opn1 = .mem0) (hreg : inst.reg .reg0 = dest.reg) (x : Machine) :
    trapCall xed inst x = some (.read dest.part.bytes) := by
  rw [trapCall, h0, h1, hreg, hxed.width]
  rfl

/-- A load, with or without the extension, reads as many bytes as its register has. -/
theorem emulateMov_load (hxed : xed.Architectural) (hhost : host.Transfers) {dest : RegName}
    (h0 : inst.opn0 = .reg0) (h1 : inst.opn1 = .mem0) (hreg : inst.reg .reg0 = dest.reg)
    (addr : Word) (x : Machine) :
    emulateMov xed host inst addr x =
      some (if host.emulates x.mem addr (.read dest.part.bytes) then
        (x.setGreg dest.gpr (set (x.gregs dest.gpr) 0 dest.part.width
          ((readBytes x.mem addr.toNat dest.part.bytes).setWidth 64))).advance inst
        else x) := by
  rw [emulateMov, h0, h1, hreg, if_neg (by decide), if_neg (by decide), if_pos rfl]
  exact emulateMovFromMem_eq hxed hhost dest

/-- The emulation of a move: a machine `y`, in which the operand has been transferred, when
the trap has emulated the access, and the machine as it was when it has not. -/
theorem emulateInst_of_decodes (hxed : xed.Architectural) (hhost : host.Transfers)
    {move : MemMove} (hdec : Decodes inst move) (addr : Word) (x : Machine) :
    ∃ call y, trapCall xed inst x = some call ∧
      emulateInst xed host addr inst x =
        some (if host.emulates x.mem addr call then y.advance inst else x) ∧
      y.rip = x.rip ∧ (y = move.transfer addr x ↔ move.Faithful addr x) := by
  cases move with
  | store src =>
    obtain ⟨hclass, h0, h1, hreg⟩ := hdec
    refine ⟨.write src.part.bytes (get (x.gregs src.gpr) 0 src.part.width), _, ?_, ?_, ?_,
      store_eq_transfer_iff addr x src⟩
    · rw [trapCall, h0, h1, hreg, readRegister_eq hxed, hxed.width]
      rfl
    · rw [emulateInst_eq_emulateMov (Or.inl hclass), emulateMov, h0, h1, hreg,
        if_neg (by decide), if_pos rfl, readRegister_eq hxed, hxed.width]
      exact emulateMovToMem_eq hhost src.part.bytes_le _
    · rfl
  | storeImm size imm =>
    obtain ⟨hclass, h0, h1, hwidth, himm⟩ := hdec
    refine ⟨.write size.immBytes (imm.setWidth 64), _, ?_, ?_, ?_,
      storeImm_eq_transfer_iff addr x size imm⟩
    · rw [trapCall, h0, h1, hwidth, himm]
      rfl
    · rw [emulateInst_eq_emulateMov (Or.inl hclass), emulateMov, h0, h1, hwidth, himm,
        if_neg (by decide), if_pos rfl]
      exact emulateMovToMem_eq hhost size.immBytes_le _
    · rfl
  | load dest =>
    obtain ⟨hclass, h0, h1, hreg⟩ := hdec
    refine ⟨_, _, trapCall_load hxed h0 h1 hreg x, ?_, ?_, load_eq_transfer_iff addr x dest⟩
    · rw [emulateInst_eq_emulateMov (Or.inl hclass)]
      exact emulateMov_load hxed hhost h0 h1 hreg addr x
    · rfl
  | loadZeroExtended dest size narrow wide =>
    obtain ⟨hclass, h0, h1, hreg⟩ := hdec
    refine ⟨_, _, trapCall_load hxed h0 h1 hreg x, ?_, ?_,
      loadZeroExtended_eq_transfer_iff addr x dest size narrow wide⟩
    · rw [emulateInst_eq_emulateMov (Or.inr hclass)]
      exact emulateMov_load hxed hhost h0 h1 hreg addr x
    · rfl

/-- The other fields of the two machines are the same. -/
theorem advance_eq_exec_iff {x y : Machine} (hrip : y.rip = x.rip) (move : MemMove)
    (addr : Word) :
    y.advance inst = move.exec addr inst.length x ↔ y = move.transfer addr x := by
  have hkeep : (move.transfer addr x).rip = x.rip := by
    cases move <;> rfl
  rw [Machine.advance, MemMove.exec, ← hrip]
  generalize move.transfer addr x = z at hkeep
  constructor
  · intro heq
    cases y
    cases z
    cases heq
    cases hkeep
    cases hrip
    rfl
  · rintro rfl
    rfl

end Emulator

/-! ## The size of the access -/

/-- The number of bytes of the memory operand. -/
def MemMove.operandBytes : MemMove → Nat
  | .store src => src.part.bytes
  | .storeImm size _ => size.bytes
  | .load dest => dest.part.bytes
  | .loadZeroExtended _ size _ _ => size.bytes

/-- The number of bytes of the register or of the immediate. -/
def MemMove.valueBytes : MemMove → Nat
  | .store src => src.part.bytes
  | .storeImm size _ => size.immBytes
  | .load dest => dest.part.bytes
  | .loadZeroExtended dest _ _ _ => dest.part.bytes

/-- The two are the same: the move has no immediate for 64 bits, and extends nothing. -/
def MemMove.ExactSize : MemMove → Prop
  | .store _ => True
  | .storeImm size _ => size ≠ .qword
  | .load _ => True
  | .loadZeroExtended dest size _ _ => size = .word ∧ dest.part = .word16

/-- The number of bytes of a trap. -/
def TrapCall.len : TrapCall → Nat
  | .read len => len
  | .write len _ => len

/-- `emulate_mov` takes the length from the register or the immediate. -/
theorem trapCall_of_decodes {xed : Xed} (hxed : xed.Architectural) {inst : DecodedInst}
    {move : MemMove} (hdec : Decodes inst move) (x : Machine) :
    (trapCall xed inst x).map TrapCall.len = some move.valueBytes := by
  cases move with
  | store src =>
    obtain ⟨-, h0, h1, hreg⟩ := hdec
    rw [trapCall, h0, h1, hreg, readRegister_eq hxed, hxed.width]
    rfl
  | storeImm size imm =>
    obtain ⟨-, h0, h1, hwidth, -⟩ := hdec
    rw [trapCall, h0, h1, hwidth]
    rfl
  | load dest =>
    obtain ⟨-, h0, h1, hreg⟩ := hdec
    rw [trapCall_load hxed h0 h1 hreg]
    rfl
  | loadZeroExtended dest size narrow wide =>
    obtain ⟨-, h0, h1, hreg⟩ := hdec
    rw [trapCall_load hxed h0 h1 hreg]
    rfl

/-- The trap has the size of the memory operand for these moves only. -/
theorem trapCall_len_iff {xed : Xed} (hxed : xed.Architectural) {inst : DecodedInst}
    {move : MemMove} (hdec : Decodes inst move) (x : Machine) :
    (trapCall xed inst x).map TrapCall.len = some move.operandBytes ↔ move.ExactSize := by
  rw [trapCall_of_decodes hxed hdec, Option.some.injEq]
  cases move with
  | store src => exact iff_of_true rfl trivial
  | storeImm size imm => cases size <;> simp [MemMove.valueBytes, MemMove.operandBytes,
      MemMove.ExactSize, OpSize.immBytes, OpSize.bytes]
  | load dest => exact iff_of_true rfl trivial
  | loadZeroExtended dest size narrow wide =>
    rcases narrow with rfl | rfl <;> rcases wide with hp | hp | hp <;>
      simp [MemMove.valueBytes, MemMove.operandBytes, MemMove.ExactSize, hp, OpSize.bytes,
        Part.bytes, Part.width]

/-- `emulate` has the effect of the move: all of it when the trap has emulated the access,
and none when it asks for a retry. -/
def Emulates (xed : Xed) (host : Host) (inst : DecodedInst) (addr : Word) (move : MemMove)
    (x : Machine) : Prop :=
  ∃ call, trapCall xed inst x = some call ∧
    emulateInst xed host addr inst x =
      some (if host.emulates x.mem addr call then move.exec addr inst.length x else x)

/-- The trap asks the guest to retry. -/
def Retries (xed : Xed) (host : Host) (inst : DecodedInst) (addr : Word) (x : Machine) : Prop :=
  ∃ call, trapCall xed inst x = some call ∧ host.emulates x.mem addr call = false

theorem emulates_iff_faithful (xed : Xed) (hxed : xed.Architectural) (host : Host)
    (hhost : host.Transfers) (inst : DecodedInst) (move : MemMove) (hdec : Decodes inst move)
    (addr : Word) (x : Machine) :
    Emulates xed host inst addr move x ↔ Retries xed host inst addr x ∨ move.Faithful addr x := by
  obtain ⟨call, y, hcall, hemulate, hrip, hfaithful⟩ :=
    emulateInst_of_decodes hxed hhost hdec addr x
  unfold Emulates Retries
  simp only [hcall, hemulate, Option.some.injEq, exists_eq_left']
  cases host.emulates x.mem addr call with
  | false => simp
  | true => simp [advance_eq_exec_iff hrip, hfaithful]

/-- Traps that emulate every access. -/
def plainHost : Host where
  trapRead := fun m addr len => some (some ((readBytes m addr.toNat len).setWidth 64))
  trapWrite := fun m addr len val =>
    some (some (writeBytes m addr.toNat len (val.setWidth (8 * len))))

theorem plainHost_transfers : plainHost.Transfers where
  read_ne_none := fun _ _ _ => Option.some_ne_none _
  read_bytes := by
    intro m addr len val hlen hread
    cases hread
    exact setWidth_word hlen _
  write_ne_none := fun _ _ _ _ => Option.some_ne_none _
  write_bytes := by
    intro m addr len val m' _ hwrite
    cases hwrite
    rfl

/-- A move of three bytes between `reg` and memory. -/
def moveInst (iclass : Iclass) (opn0 opn1 : OperandName) (reg : RegName) : DecodedInst where
  iclass := iclass
  length := 3
  memoryDisplacement := 0
  branchDisplacement := 0
  unsignedImmediate := 0
  immediateWidth := 0
  opn0 := opn0
  opn1 := opn1
  reg := fun _ => reg.reg
  length_pos := by decide
  length_le := by decide

/-- `AH` is stored. -/
theorem emulates_iff_faithful_ah :
    Emulates registerXed plainHost (moveInst .mov .mem0 .reg0 AH) 0xb8000 (.store AH) upperGuest ↔
      Retries registerXed plainHost (moveInst .mov .mem0 .reg0 AH) 0xb8000 upperGuest ∨
        (MemMove.store AH).Faithful 0xb8000 upperGuest :=
  emulates_iff_faithful _ registerXed_architectural _ plainHost_transfers
    (moveInst .mov .mem0 .reg0 AH) (.store AH) ⟨rfl, rfl, rfl, rfl⟩ _ _

/-- A byte is loaded into `EAX` with three more bytes behind it. -/
theorem emulates_not_of_movzx :
    ¬ ∀ (xed : Xed) (host : Host) (inst : DecodedInst) (move : MemMove) (addr : Word)
      (x : Machine), xed.Architectural → host.Transfers → Decodes inst move →
        Emulates xed host inst addr move x := by
  intro hall
  obtain ⟨call, hcall, hemulate⟩ := hall registerXed plainHost
    (moveInst .movzx .reg0 .mem0 EAX)
    (.loadZeroExtended EAX .byte (Or.inl rfl) (Or.inr (Or.inl rfl))) 0xb8000
    { upperGuest with gregs := fun _ => 0, mem := fun _ => 0x41 } registerXed_architectural
    plainHost_transfers ⟨rfl, rfl, rfl, rfl⟩
  cases hcall
  have hrax := congrArg (Option.map fun y => y.gregs .rax) hemulate
  exact absurd hrax (by decide)

end KernelMemVirt.Janus
