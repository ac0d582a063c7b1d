import KernelMemVirt.Janus.Intercept
import KernelMemVirt.Lib.BitField

/-!
# Partial registers

The register file of the architecture, with the names of 8, 16, 32 and 64 bits that its
registers have, and what `read_register` and `write_register` make of these names.

`read_register` and `write_register` have one formula for all of them: the name is the low
bits of its register.  It does not fit `AH`, `BH`, `CH` and `DH`, which are the bits 8 to
15, nor the writes of 32 bits, which clear the upper half.

* `readRegister_eq`, `writeRegister_eq`: the two functions in terms of fields.
* `readsBack_iff`: the pairs of a write and a read that agree with the architecture, and
  `readsBack_all_iff` for the reads of all names.
-/

namespace KernelMemVirt.Janus

open BitField

/-! ## Names -/

/-- The lowest bit of a part. -/
def Part.low : Part → Nat
  | .high8 => 8
  | _ => 0

/-- The number of bits of a part. -/
def Part.width : Part → Nat
  | .low8 | .high8 => 8
  | .word16 => 16
  | .word32 => 32
  | .word64 => 64

/-- A name of a general register.  Four of the registers have a name for their second
byte. -/
structure RegName where
  gpr : Gpr
  part : Part
  named : part = .high8 → gpr ∈ [.rax, .rbx, .rcx, .rdx]

def RegName.reg (name : RegName) : Reg := .gpr name.gpr name.part

/-- The library gives the width and the enclosing register of each name. -/
structure Xed.Architectural (xed : Xed) : Prop where
  width : ∀ name : RegName, xed.registerWidthBits name.reg = name.part.width
  enclosing : ∀ name : RegName, xed.largestEnclosingRegister name.reg = .gpr name.gpr .word64

/-! ## The register file of the architecture -/

abbrev RegFile := Gpr → Word

namespace RegFile

variable (regs : RegFile)

def read (name : RegName) : Word := get (regs name.gpr) name.part.low name.part.width

/-- A write replaces the bits of the name, and one of 32 bits clears the others. -/
def write (name : RegName) (val : Word) : RegFile :=
  let old := if name.part = .word32 then 0 else regs name.gpr
  Function.update regs name.gpr (set old name.part.low name.part.width val)

theorem write_of_ne (name : RegName) (val : Word) {r : Gpr} (hr : r ≠ name.gpr) :
    regs.write name val r = regs r :=
  Function.update_of_ne hr _ _

end RegFile

/-! ## The two functions -/

theorem registerMask_width (part : Part) : registerMask part.width = mask 64 part.width := by
  cases part <;> decide

section Access

variable {xed : Xed}

/-- `read_register` takes every name for the low bits of its register. -/
theorem readRegister_eq (hxed : xed.Architectural) (name : RegName) (x : Machine) :
    readRegister xed name.reg x = some (get (x.gregs name.gpr) 0 name.part.width) := by
  rw [readRegister, hxed.enclosing, hxed.width, registerMask_width]
  simp [BitField.get]

theorem writeRegister_eq (hxed : xed.Architectural) (name : RegName) (x : Machine) (val : Word) :
    writeRegister xed name.reg x val =
      some (x.setGreg name.gpr (set (x.gregs name.gpr) 0 name.part.width val)) := by
  rw [writeRegister, hxed.enclosing, hxed.width, registerMask_width]
  simp [BitField.set]

end Access

/-! ## A write and a read -/

/-- The bytes that `AL` and `AH` name. -/
def firstByte (w : Word) : Word := get w 0 8

def secondByte (w : Word) : Word := get w 8 8

/-- When a write of `val` to a part and a read of a part of the same register, that holds
`w` before, agree with the architecture. -/
def PartsAgree (w val : Word) : Part → Part → Prop
  | .high8, .high8 => True
  | .high8, .low8 => firstByte w = firstByte val
  | .high8, _ => firstByte w = firstByte val ∧ secondByte w = firstByte val
  | .low8, .high8 => secondByte w = firstByte val
  | _, .high8 => secondByte val = firstByte val
  | .word32, .word64 => get w 32 32 = 0
  | _, _ => True

/-- When a write to `r` and a read of `s` agree with the architecture. -/
def NamesAgree (regs : RegFile) (r : RegName) (val : Word) (s : RegName) : Prop :=
  if s.gpr = r.gpr then PartsAgree (regs r.gpr) val r.part s.part
  else s.part = .high8 → secondByte (regs s.gpr) = firstByte (regs s.gpr)

/-- A write of at least two bytes reads back as the first two of its value. -/
theorem get_firstByte_set (w val : Word) {len : Nat} (hlen : 8 ≤ len) (hle : len ≤ 64) :
    get (set w 0 len val) 0 8 = firstByte val :=
  get_set_of_inside w val (Nat.le_refl 0) (by omega) (by omega)

theorem get_secondByte_set (w val : Word) {len : Nat} (hlen : 16 ≤ len) (hle : len ≤ 64) :
    get (set w 0 len val) 8 8 = secondByte val :=
  get_set_of_inside w val (by decide) (by omega) (by omega)

/-- A read of the first byte where the second one should be. -/
theorem get_firstByte_eq_secondByte_iff (w w' val : Word) {len : Nat} (hlen : 16 ≤ len)
    (hle : len ≤ 64) :
    get (set w 0 len val) 0 8 = get (set w' 0 len val) 8 8 ↔ secondByte val = firstByte val := by
  rw [get_firstByte_set w val (by omega) hle, get_secondByte_set w' val hlen hle]
  exact eq_comm

/-- A second byte that is written where the first one should be. -/
theorem get_set_eq_get_set_iff (w val : Word) {len : Nat} (hlen : 16 ≤ len) :
    get (set w 0 8 val) 0 len = get (set w 8 8 val) 0 len ↔
      firstByte w = firstByte val ∧ secondByte w = firstByte val := by
  obtain ⟨rest, rfl⟩ := Nat.exists_eq_add_of_le hlen
  have hupper : get (set w 0 8 val) 16 rest = get (set w 8 8 val) 16 rest := by
    rw [get_set_of_apart w val (by omega), get_set_of_apart w val (by omega)]
  rw [get_add_eq_iff, Nat.zero_add, and_iff_left hupper, show 16 = 8 + 8 from rfl, get_add_eq_iff,
    Nat.zero_add, get_set_self w val (by decide), get_set_self w val (by decide),
    get_set_of_apart w val (by decide), get_set_of_apart w val (by decide)]
  exact and_congr_left' eq_comm

/-- A write of 32 bits without the clearing of the others. -/
theorem set_low_eq_iff (w val : Word) :
    set w 0 32 val = set 0 0 32 val ↔ get w 32 32 = 0 := by
  have hzero : get (0 : Word) 32 32 = 0 := by decide
  rw [set_low_eq_set_low_iff (by decide), and_iff_right rfl]
  exact iff_of_eq (congrArg (get w 32 32 = ·) hzero)

/-- The word that `write_register` leaves, and the one of the architecture. -/
theorem get_eq_get_iff_partsAgree (w val : Word) (p q : Part) :
    get (set w 0 p.width val) 0 q.width =
        get (set (if p = .word32 then 0 else w) p.low p.width val) q.low q.width ↔
      PartsAgree w val p q := by
  cases p with
  | low8 =>
    cases q with
    | high8 =>
      change get (set w 0 8 val) 0 8 = get (set w 0 8 val) 8 8 ↔ _
      rw [get_firstByte_set w val (by decide) (by decide), get_set_of_apart w val (by decide)]
      exact eq_comm
    | _ => exact iff_of_true rfl trivial
  | high8 =>
    cases q with
    | low8 =>
      change get (set w 0 8 val) 0 8 = get (set w 8 8 val) 0 8 ↔ _
      rw [get_firstByte_set w val (by decide) (by decide), get_set_of_apart w val (by decide)]
      exact eq_comm
    | high8 =>
      change get (set w 0 8 val) 0 8 = get (set w 8 8 val) 8 8 ↔ _
      rw [get_set_self w val (by decide), get_set_self w val (by decide)]
      exact iff_of_true rfl trivial
    | word16 => exact get_set_eq_get_set_iff w val (by decide)
    | word32 => exact get_set_eq_get_set_iff w val (by decide)
    | word64 => exact get_set_eq_get_set_iff w val (by decide)
  | word16 =>
    cases q with
    | high8 =>
      exact get_firstByte_eq_secondByte_iff w w val (by decide) (by decide)
    | _ => exact iff_of_true rfl trivial
  | word32 =>
    change get (set w 0 32 val) 0 q.width = get (set 0 0 32 val) q.low q.width ↔ _
    cases q with
    | high8 =>
      exact get_firstByte_eq_secondByte_iff w 0 val (by decide) (by decide)
    | word64 =>
      change get (set w 0 32 val) 0 64 = get (set 0 0 32 val) 0 64 ↔ _
      rw [get_all, get_all]
      exact set_low_eq_iff w val
    | _ =>
      apply iff_of_true _ trivial
      rw [get_set_of_inside w val (by decide) (by decide) (by decide)]
      exact (get_set_of_inside 0 val (by decide) (by decide) (by decide)).symm
  | word64 =>
    cases q with
    | high8 =>
      exact get_firstByte_eq_secondByte_iff w w val (by decide) (by decide)
    | _ => exact iff_of_true rfl trivial

/-- Another register keeps its bits, and `read_register` sees them unless it is asked for
the second byte. -/
theorem get_low_eq_get_iff (w : Word) (q : Part) :
    get w 0 q.width = get w q.low q.width ↔ (q = .high8 → secondByte w = firstByte w) := by
  cases q with
  | high8 =>
    rw [forall_prop_of_true rfl]
    exact eq_comm
  | _ => exact iff_of_true rfl (by rintro ⟨⟩)

/-- After `write_register` on `r`, `read_register` gives for `s` what the register file of
the architecture gives after the same write. -/
def ReadsBack (xed : Xed) (x : Machine) (r : RegName) (val : Word) (s : RegName) : Prop :=
  ∃ y, writeRegister xed r.reg x val = some y ∧
    readRegister xed s.reg y = some ((RegFile.write x.gregs r val).read s)

/-- The two functions on fields. -/
theorem readsBack_iff_get {xed : Xed} (hxed : xed.Architectural) (x : Machine) (r : RegName)
    (val : Word) (s : RegName) :
    ReadsBack xed x r val s ↔
      get ((x.setGreg r.gpr (set (x.gregs r.gpr) 0 r.part.width val)).gregs s.gpr) 0 s.part.width =
        (RegFile.write x.gregs r val).read s := by
  unfold ReadsBack
  simp only [writeRegister_eq hxed, readRegister_eq hxed, Option.some.injEq, exists_eq_left']

theorem readsBack_iff (xed : Xed) (hxed : xed.Architectural) (x : Machine) (r : RegName)
    (val : Word) (s : RegName) : ReadsBack xed x r val s ↔ NamesAgree x.gregs r val s := by
  rw [readsBack_iff_get hxed, RegFile.read, NamesAgree]
  by_cases hsame : s.gpr = r.gpr
  · rw [if_pos hsame, hsame, RegFile.write, Function.update_self]
    simp only [Machine.setGreg, Function.update_self]
    exact get_eq_get_iff_partsAgree _ _ _ _
  · rw [if_neg hsame, RegFile.write_of_ne _ _ _ hsame]
    simp only [Machine.setGreg, Function.update_of_ne hsame]
    exact get_low_eq_get_iff _ _

/-- `write_register` leaves the register file of the architecture exactly if it leaves its
64-bit register. -/
theorem gregs_setGreg_iff (x : Machine) (r : RegName) (val : Word) :
    (x.setGreg r.gpr (set (x.gregs r.gpr) 0 r.part.width val)).gregs =
        RegFile.write x.gregs r val ↔ PartsAgree (x.gregs r.gpr) val r.part .word64 := by
  rw [← get_eq_get_iff_partsAgree]
  change Function.update x.gregs r.gpr _ = Function.update x.gregs r.gpr _ ↔
    get _ 0 64 = get _ 0 64
  rw [get_all, get_all]
  exact (Function.update_injective x.gregs r.gpr).eq_iff

/-- Every name reads back after a write exactly if the register file is that of the architecture,
and in it the two low bytes of the registers with a name for the second one are equal. -/
theorem readsBack_all_iff (xed : Xed) (hxed : xed.Architectural) (x : Machine) (r : RegName)
    (val : Word) :
    (∀ s, ReadsBack xed x r val s) ↔
      PartsAgree (x.gregs r.gpr) val r.part .word64 ∧
        ∀ g ∈ [Gpr.rax, .rbx, .rcx, .rdx], secondByte (RegFile.write x.gregs r val g) =
          firstByte (RegFile.write x.gregs r val g) := by
  simp only [readsBack_iff_get hxed]
  constructor
  · intro hall
    have hwrite : (x.setGreg r.gpr (set (x.gregs r.gpr) 0 r.part.width val)).gregs =
        RegFile.write x.gregs r val := by
      funext g
      have hg := hall ⟨g, .word64, nofun⟩
      change get _ 0 64 = get _ 0 64 at hg
      rwa [get_all, get_all] at hg
    refine ⟨(gregs_setGreg_iff x r val).mp hwrite, fun g hg => ?_⟩
    have hbyte := hall ⟨g, .high8, fun _ => hg⟩
    rw [hwrite] at hbyte
    exact hbyte.symm
  · rintro ⟨hwide, hbytes⟩ s
    rw [(gregs_setGreg_iff x r val).mpr hwide]
    exact (get_low_eq_get_iff _ _).mpr fun hs => hbytes s.gpr (s.named hs)

/-- The library on the registers; it decodes nothing. -/
def registerXed : Xed where
  registerWidthBits
    | .gpr _ part => part.width
    | .ds | .es | .fs | .gs | .ss => 16
    | _ => 64
  largestEnclosingRegister
    | .gpr r _ => .gpr r .word64
    | reg => reg
  regClass
    | .cr0 | .cr2 | .cr3 | .cr4 | .cr8 => .cr
    | .ds | .es | .fs | .gs | .ss => .sr
    | _ => .other
  decode := fun _ _ => none

theorem registerXed_architectural : registerXed.Architectural where
  width := fun _ => rfl
  enclosing := fun _ => rfl

/-- Every register holds `0x100000000`. -/
def upperGuest : Machine where
  st := setupState
  gregs := fun _ => 0x100000000
  rip := 0x100000
  mem := fun _ => 0

def AL : RegName := ⟨.rax, .low8, by decide⟩

def AH : RegName := ⟨.rax, .high8, by decide⟩

def EAX : RegName := ⟨.rax, .word32, by decide⟩

def RAX : RegName := ⟨.rax, .word64, by decide⟩

theorem readsBack_iff_ah :
    ReadsBack registerXed upperGuest AH 5 AL ↔ NamesAgree upperGuest.gregs AH 5 AL :=
  readsBack_iff _ registerXed_architectural _ _ _ _

/-- A write of `EAX` leaves the upper half of `RAX`. -/
theorem readsBack_not_of_eax :
    ¬ ∀ (xed : Xed) (x : Machine) (r : RegName) (val : Word) (s : RegName),
      xed.Architectural → ReadsBack xed x r val s := by
  intro hall
  obtain ⟨y, hwrite, hread⟩ := hall registerXed upperGuest EAX 0 RAX registerXed_architectural
  cases hwrite
  exact absurd (Option.some.inj hread) (by decide)

end KernelMemVirt.Janus
