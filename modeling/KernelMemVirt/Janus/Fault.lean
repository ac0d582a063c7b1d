import KernelMemVirt.Janus.Registers
import KernelMemVirt.Lib.Transition

/-!
# Faults raised by the emulator

An instruction that faults should have no effect, and the frame of its #GP
should hold the address of the instruction itself.  `trigger_gpfault` only
records the vector, so what the emulator does after the check decides.

* `gpfaults` is the fault check of an instruction, in terms of the state before
  it, and `emulateInst_itpending` says that the emulator records a #GP exactly
  when it fires.
* `emulateInst_of_gpfaults` is what an emulation that faults has done by the
  time it ends.
* `noPending_of_run`: between two traps no interrupt is pending.
* `faultAtomic_iff` finds the traps that leave nothing behind.
-/

namespace KernelMemVirt.Janus

open ByteMem Transition

/-! ## The fault checks -/

/-- The check of `lgdt32` or `lgdt64`. -/
def lgdtFaults (m : Mem) (s : GuestState) (val : Word) : Bool :=
  match s.mode with
  | .bits16 => false
  | .bits32 => ((limitAt m ((val.setWidth 32).setWidth 64)).toNat + 1) % 8 != 0
  | .bits64 => ((limitAt m val).toNat + 1) % 8 != 0

/-- The check of `lidt64`. -/
def lidtFaults (m : Mem) (s : GuestState) (val : Word) : Bool :=
  match s.mode with
  | .bits64 => ((limitAt m val).toNat + 1) % 16 != 0
  | _ => false

/-- The code segment load that `mov_to_selector` does not support. -/
def compatLoad (m : Mem) (s : GuestState) (val : Word) : Bool :=
  !test (descriptor m s (val / 8)) DESCRIPTOR_L && s.mode == .bits64

/-- The check of `mov_to_cr0` or `mov_to_cr4`. -/
def controlFaults (s : GuestState) (val : Word) (control : Fin 256) : Bool :=
  if control = 0 then !test (s.controls 0 &&& ~~~val) CR0_PE && cr0Faults s val
  else if control = 4 then cr4Faults s val
  else false

/-- The checks of `emulate_mov_to_sel`. -/
def movToSelFaults (xed : Xed) (dest src : Reg) (x : Machine) : Bool :=
  match readRegister xed src x, selectorOf dest with
  | some val, some _ => selectorFaults x.mem x.st val
  | _, _ => false

/-- The checks of `emulate_mov_to_cr`. -/
def movToCrFaults (xed : Xed) (dest src : Reg) (x : Machine) : Bool :=
  match readRegister xed src x, controlOf dest with
  | some val, some crn => controlFaults x.st val crn
  | _, _ => false

/-- The check that fires when `inst` is emulated on `x`, on a path that does
not end the monitor. -/
def gpfaults (xed : Xed) (inst : DecodedInst) (x : Machine) : Bool :=
  match inst.iclass with
  | .lgdt => lgdtFaults x.mem x.st inst.memoryDisplacement
  | .lidt => lidtFaults x.mem x.st inst.memoryDisplacement
  | .mov | .movzx =>
    inst.opn0 == .reg0 && inst.opn1 == .reg1 && xed.regClass (inst.reg inst.opn0) == .sr
      && movToSelFaults xed (inst.reg inst.opn0) (inst.reg inst.opn1) x
  | .movCr =>
    xed.regClass (inst.reg inst.opn0) == .cr
      && movToCrFaults xed (inst.reg inst.opn0) (inst.reg inst.opn1) x
  | .jmpFar =>
    !compatLoad x.mem x.st (ljmpSelector inst) && selectorFaults x.mem x.st (ljmpSelector inst)
  | .wrmsr =>
    (x.gregs .rcx).setWidth 32 == MSR_EFER && eferFaults x.st (wrmsrOperand x)
  | _ => false

/-! ## What an operation leaves pending -/

namespace GuestState

variable (s : GuestState)

/-- Two checks that trigger the same fault are one check. -/
@[simp] theorem gpfaultIf_gpfaultIf (c d : Bool) :
    (s.gpfaultIf c).gpfaultIf d = s.gpfaultIf (c || d) := by
  cases c <;> cases d <;> simp [gpfaultIf, triggerGpfault, triggerInterrupt]

@[simp] theorem gpfaultIf_false : s.gpfaultIf false = s := rfl

theorem gpfaultIf_itpending (c : Bool) (v : Vec) :
    (s.gpfaultIf c).itpending v = (s.itpending v || c && decide (v = INTERRUPT_GP)) := by
  cases c with
  | false => simp
  | true =>
    by_cases hv : v = INTERRUPT_GP <;>
      simp [gpfaultIf, triggerGpfault, triggerInterrupt, hv]

@[simp] theorem storeControl_itpending (i : Fin 256) (val : Word) :
    (s.storeControl i val).itpending = s.itpending := by
  unfold storeControl
  split
  · rfl
  · split <;> rfl

end GuestState

theorem lgdt_itpending {m : Mem} {s s' : GuestState} {val : Word} (h : lgdt m s val = some s') :
    s'.itpending = (s.gpfaultIf (lgdtFaults m s val)).itpending := by
  unfold lgdt at h
  unfold lgdtFaults
  cases hmode : s.mode <;> rw [hmode] at h <;> cases h <;> rfl

theorem lidt_itpending {m : Mem} {s s' : GuestState} {val : Word} (h : lidt m s val = some s') :
    s'.itpending = (s.gpfaultIf (lidtFaults m s val)).itpending := by
  unfold lidt at h
  unfold lidtFaults
  cases hmode : s.mode <;> rw [hmode] at h <;> cases h
  rfl

/-- The one write that a selector load makes besides the fault. -/
theorem movToSelector_eq (m : Mem) (s : GuestState) (val : Word) (selector : Selector) :
    movToSelector m s val selector =
      if selector = .cs ∧ compatLoad m s val = true then none
      else
        let s' := s.gpfaultIf (selectorFaults m s val)
        some { s' with
          mode := if selector = .cs ∧ longmodePaging s = true then .bits64 else s.mode
          selectors := Function.update s.selectors selector val } := by
  simp only [movToSelector, descriptor_gpfaultIf, GuestState.gpfaultIf_gpfaultIf,
    GuestState.gpfaultIf_mode, longmodePaging_gpfaultIf, compatLoad, Bool.and_eq_true,
    Bool.not_eq_true', beq_iff_eq]
  refine if_congr Iff.rfl rfl (congrArg some ?_)
  by_cases hpaging : selector = .cs ∧ longmodePaging s = true
  · simp [hpaging, GuestState.activateLongmode, selectorFaults]
  · simp only [hpaging, if_false, GuestState.gpfaultIf_selectors, ← GuestState.gpfaultIf_mode s
      (selectorFaults m s val)]
    rfl

theorem movToSelector_itpending {m : Mem} {s s' : GuestState} {val : Word} {selector : Selector}
    (h : movToSelector m s val selector = some s') :
    s'.itpending = (s.gpfaultIf (selectorFaults m s val)).itpending := by
  rw [movToSelector_eq] at h
  split at h
  · cases h
  · cases h
    rfl

theorem movToControl_itpending {s s' : GuestState} {val : Word} {control : Fin 256}
    (h : movToControl s val control = some s') :
    s'.itpending = (s.gpfaultIf (controlFaults s val control)).itpending := by
  unfold movToControl at h
  unfold controlFaults
  split at h
  · next h0 =>
    unfold movToCr0 at h
    simp only [setPageTable] at h
    split at h
    · cases h
    · next hpe =>
      cases h
      have hkept : test (s.controls 0 &&& ~~~val) CR0_PE = false := by simpa using hpe
      rw [if_pos h0, GuestState.storeControl_itpending, hkept, Bool.not_false, Bool.true_and]
      simp only [GuestState.gpfaultIf_efer, apply_ite GuestState.itpending, ite_self]
  · split at h
    · next h0 h4 =>
      cases h
      rw [if_neg h0, if_pos h4]
      exact GuestState.storeControl_itpending _ _ _
    · next h0 h4 =>
      cases h
      rw [if_neg h0, if_neg h4]
      exact GuestState.storeControl_itpending _ _ _

theorem wrmsr_itpending (s : GuestState) (addr : BitVec 32) (val : Word) :
    (wrmsr s addr val).itpending
      = (s.gpfaultIf (addr == MSR_EFER && eferFaults s val)).itpending := by
  unfold wrmsr
  by_cases haddr : addr = MSR_EFER
  · simp only [if_pos haddr, wrmsrEfer, GuestState.gpfaultIf_gpfaultIf]
    rw [beq_iff_eq.mpr haddr]
    rfl
  · rw [if_neg haddr, beq_eq_false_iff_ne.mpr haddr]
    rfl

/-! ## What an instruction leaves pending -/

theorem writeRegister_st {xed : Xed} {reg : Reg} {x y : Machine} {val : Word}
    (h : writeRegister xed reg x val = some y) : y.st = x.st := by
  unfold writeRegister at h
  split at h <;> cases h
  rfl

theorem emulateOut_st {xed : Xed} {inst : DecodedInst} {x y : Machine}
    (h : emulateOut xed inst x = some y) : y.st = x.st := by
  simp only [emulateOut, Option.bind_eq_bind, Option.bind_eq_some_iff] at h
  rcases h with ⟨port, _, val, _, hout⟩
  split at hout
  · obtain ⟨_, _, rfl⟩ := Option.map_eq_some_iff.mp hout
    rfl
  · cases hout

theorem emulateMovToMem_st {host : Host} {inst : DecodedInst} {val siAddr : Word} {len : Nat}
    {x y : Machine} (h : emulateMovToMem host inst val len siAddr x = some y) : y.st = x.st := by
  obtain ⟨done, _, rfl⟩ := Option.map_eq_some_iff.mp h
  cases done <;> rfl

theorem emulateMovFromMem_st {xed : Xed} {host : Host} {inst : DecodedInst} {dest : Reg}
    {siAddr : Word} {x y : Machine}
    (h : emulateMovFromMem xed host inst dest siAddr x = some y) : y.st = x.st := by
  obtain ⟨done, _, hdone⟩ := Option.bind_eq_some_iff.mp h
  cases done with
  | none =>
    cases hdone
    rfl
  | some val =>
    obtain ⟨z, hz, rfl⟩ := Option.map_eq_some_iff.mp hdone
    have hst : z.st = x.st := writeRegister_st hz
    exact hst

theorem emulateMovToSel_itpending {xed : Xed} {dest src : Reg} {x y : Machine}
    (h : emulateMovToSel xed dest src x = some y) :
    y.st.itpending = (x.st.gpfaultIf (movToSelFaults xed dest src x)).itpending := by
  simp only [emulateMovToSel, Option.bind_eq_bind, Option.bind_eq_some_iff] at h
  rcases h with ⟨val, hval, sel, hsel, st, hst, hy⟩
  cases hy
  simp only [movToSelFaults, hval, hsel]
  exact movToSelector_itpending hst

theorem emulateMovToCr_itpending {xed : Xed} {dest src : Reg} {x y : Machine}
    (h : emulateMovToCr xed dest src x = some y) :
    y.st.itpending = (x.st.gpfaultIf (movToCrFaults xed dest src x)).itpending := by
  simp only [emulateMovToCr, Option.bind_eq_bind, Option.bind_eq_some_iff] at h
  rcases h with ⟨val, hval, crn, hcrn, st, hst, hy⟩
  cases hy
  simp only [movToCrFaults, hval, hcrn]
  exact movToControl_itpending hst

theorem emulateMovCr_itpending {xed : Xed} {inst : DecodedInst} {x y : Machine}
    (hclass : inst.iclass = .movCr) (h : emulateMovCr xed inst x = some y) :
    y.st.itpending = (x.st.gpfaultIf (gpfaults xed inst x)).itpending := by
  simp only [gpfaults, hclass]
  unfold emulateMovCr at h
  dsimp only at h
  split at h
  · next hcr =>
    obtain ⟨z, hz, rfl⟩ := Option.map_eq_some_iff.mp h
    have hst := emulateMovToCr_itpending hz
    rw [hcr, beq_self_eq_true, Bool.true_and]
    exact hst
  · next hcr =>
    rw [beq_eq_false_iff_ne.mpr hcr, Bool.false_and, GuestState.gpfaultIf_false]
    split at h
    · obtain ⟨z, hz, rfl⟩ := Option.map_eq_some_iff.mp h
      obtain ⟨crn, _, hwrite⟩ := Option.bind_eq_some_iff.mp hz
      have hst : z.st = x.st := writeRegister_st hwrite
      exact congrArg GuestState.itpending hst
    · cases h

theorem emulateMov_itpending {xed : Xed} {host : Host} {inst : DecodedInst} {siAddr : Word}
    {x y : Machine} (hclass : inst.iclass = .mov ∨ inst.iclass = .movzx)
    (h : emulateMov xed host inst siAddr x = some y) :
    y.st.itpending = (x.st.gpfaultIf (gpfaults xed inst x)).itpending := by
  have hcheck : gpfaults xed inst x =
      (inst.opn0 == .reg0 && inst.opn1 == .reg1 && xed.regClass (inst.reg inst.opn0) == .sr
        && movToSelFaults xed (inst.reg inst.opn0) (inst.reg inst.opn1) x) := by
    rcases hclass with hclass | hclass <;> simp only [gpfaults, hclass]
  rw [hcheck]
  unfold emulateMov at h
  dsimp only at h
  split at h
  · next hopn =>
    split at h
    · next hsr =>
      obtain ⟨z, hz, rfl⟩ := Option.map_eq_some_iff.mp h
      have hst := emulateMovToSel_itpending hz
      rw [beq_iff_eq.mpr hopn.1, beq_iff_eq.mpr hopn.2, beq_iff_eq.mpr hsr]
      exact hst
    · cases h
  · next hopn =>
    have hno : (inst.opn0 == .reg0 && inst.opn1 == .reg1) = false := by
      rw [← Bool.not_eq_true, Bool.and_eq_true, beq_iff_eq, beq_iff_eq]
      exact hopn
    rw [hno, Bool.false_and, Bool.false_and, GuestState.gpfaultIf_false]
    refine congrArg GuestState.itpending ?_
    split at h
    · split at h
      · obtain ⟨val, _, hwrite⟩ := Option.bind_eq_some_iff.mp h
        exact emulateMovToMem_st hwrite
      · exact emulateMovToMem_st h
      · exact emulateMovToMem_st h
    · split at h
      · exact emulateMovFromMem_st h
      · cases h

/-- The emulator records a fault exactly when the check of the instruction
fires, and it records nothing else. -/
theorem emulateInst_itpending {xed : Xed} {host : Host} {siAddr : Word} {inst : DecodedInst}
    {x y : Machine} (h : emulateInst xed host siAddr inst x = some y) :
    y.st.itpending = (x.st.gpfaultIf (gpfaults xed inst x)).itpending := by
  unfold emulateInst at h
  cases hclass : inst.iclass <;> rw [hclass] at h <;> dsimp only at h
  case lgdt =>
    obtain ⟨st, hst, rfl⟩ := Option.map_eq_some_iff.mp h
    simp only [gpfaults, hclass]
    exact lgdt_itpending hst
  case lidt =>
    obtain ⟨st, hst, rfl⟩ := Option.map_eq_some_iff.mp h
    simp only [gpfaults, hclass]
    exact lidt_itpending hst
  case mov => exact emulateMov_itpending (.inl hclass) h
  case movzx => exact emulateMov_itpending (.inr hclass) h
  case movCr => exact emulateMovCr_itpending hclass h
  case jmpFar =>
    obtain ⟨st, hst, rfl⟩ := Option.map_eq_some_iff.mp h
    have hload := hst
    rw [movToSelector_eq] at hload
    split at hload
    · cases hload
    · next hcompat =>
      have hok : compatLoad x.mem x.st (ljmpSelector inst) = false := by simpa using hcompat
      simp only [gpfaults, hclass, hok, Bool.not_false, Bool.true_and]
      exact movToSelector_itpending hst
  case wrmsr =>
    cases h
    simp only [gpfaults, hclass]
    exact wrmsr_itpending _ _ _
  case out =>
    simp only [gpfaults, hclass, GuestState.gpfaultIf_false, emulateOut_st h]
  case hlt => cases h
  case other => cases h
  all_goals
    cases h
    simp only [gpfaults, hclass]
    rfl

/-! ## What an instruction that faults has done -/

theorem movToControl_of_controlFaults {s : GuestState} {val : Word} {control : Fin 256}
    (hf : controlFaults s val control = true) : ∃ s', movToControl s val control = some s' := by
  unfold controlFaults at hf
  unfold movToControl
  split
  · next h0 =>
    rw [if_pos h0, Bool.and_eq_true, Bool.not_eq_true'] at hf
    unfold movToCr0
    exact ⟨_, if_neg (Bool.eq_false_iff.mp hf.1)⟩
  · split <;> exact ⟨_, rfl⟩

theorem emulateMovToCr_of_faults {xed : Xed} {dest src : Reg} {x : Machine}
    (hf : movToCrFaults xed dest src x = true) :
    ∃ st, emulateMovToCr xed dest src x = some { x with st } := by
  unfold movToCrFaults at hf
  split at hf
  · next val crn hval hcrn =>
    obtain ⟨st, hst⟩ := movToControl_of_controlFaults hf
    exact ⟨st, by simp [emulateMovToCr, hval, hcrn, hst]⟩
  · cases hf

theorem movToSelector_of_ne_cs (m : Mem) (s : GuestState) (val : Word) {selector : Selector}
    (h : selector ≠ .cs) : ∃ s', movToSelector m s val selector = some s' := by
  rw [movToSelector_eq]
  exact ⟨_, if_neg fun hcs => h hcs.1⟩

theorem emulateMovToSel_of_faults {xed : Xed} {dest src : Reg} {x : Machine}
    (hf : movToSelFaults xed dest src x = true) :
    ∃ st, emulateMovToSel xed dest src x = some { x with st } := by
  unfold movToSelFaults at hf
  split at hf
  · next val sel hval hsel =>
    have hcs : sel ≠ .cs := by
      intro hcs
      subst hcs
      cases dest <;> cases hsel
    obtain ⟨st, hst⟩ := movToSelector_of_ne_cs x.mem x.st val hcs
    exact ⟨st, by simp [emulateMovToSel, hval, hsel, hst]⟩
  · cases hf

/-- An emulation that faults goes through to its end: the general registers are
as they were, and `RIP` has moved on. -/
theorem emulateInst_of_gpfaults {xed : Xed} {host : Host} {siAddr : Word} {inst : DecodedInst}
    {x : Machine} (hf : gpfaults xed inst x = true) :
    ∃ y, emulateInst xed host siAddr inst x = some y ∧ y.gregs = x.gregs ∧
      y.rip = if inst.iclass = .jmpFar then ljmpTarget inst
        else x.rip + BitVec.ofNat 64 inst.length := by
  have hmov : inst.iclass = .mov ∨ inst.iclass = .movzx →
      ∃ st, emulateMov xed host inst siAddr x = some ({ x with st }.advance inst) := by
    intro hclass
    have hf' := hf
    unfold gpfaults at hf'
    have hcheck : ((inst.opn0 = .reg0 ∧ inst.opn1 = .reg1) ∧
        xed.regClass (inst.reg inst.opn0) = .sr) ∧
        movToSelFaults xed (inst.reg inst.opn0) (inst.reg inst.opn1) x = true := by
      rcases hclass with hclass | hclass <;> rw [hclass] at hf' <;>
        simpa only [Bool.and_eq_true, beq_iff_eq] using hf'
    rcases hcheck with ⟨⟨hopn, hsr⟩, hfault⟩
    obtain ⟨st, hst⟩ := emulateMovToSel_of_faults hfault
    refine ⟨st, ?_⟩
    rw [emulateMov, if_pos hopn, if_pos hsr, hst]
    rfl
  unfold gpfaults at hf
  unfold emulateInst
  cases hclass : inst.iclass <;> rw [hclass] at hf <;> dsimp only at hf ⊢
  case lgdt =>
    unfold lgdtFaults at hf
    unfold emulateLgdt lgdt
    cases hmode : x.st.mode <;> rw [hmode] at hf <;> first | cases hf | exact ⟨_, rfl, rfl, rfl⟩
  case lidt =>
    unfold lidtFaults at hf
    unfold emulateLidt lidt
    cases hmode : x.st.mode <;> rw [hmode] at hf <;> first | cases hf | exact ⟨_, rfl, rfl, rfl⟩
  case jmpFar =>
    rw [Bool.and_eq_true, Bool.not_eq_true'] at hf
    unfold emulateLjmp
    rw [movToSelector_eq, hf.1]
    exact ⟨_, rfl, rfl, rfl⟩
  case wrmsr => exact ⟨_, rfl, rfl, rfl⟩
  case movCr =>
    simp only [Bool.and_eq_true, beq_iff_eq] at hf
    obtain ⟨st, hst⟩ := emulateMovToCr_of_faults hf.2
    exact ⟨{ x with st }.advance inst, by simp [emulateMovCr, hf.1, hst], rfl, rfl⟩
  case mov =>
    obtain ⟨st, hst⟩ := hmov (.inl hclass)
    exact ⟨_, hst, rfl, rfl⟩
  case movzx =>
    obtain ⟨st, hst⟩ := hmov (.inr hclass)
    exact ⟨_, hst, rfl, rfl⟩
  all_goals cases hf

/-! ## Traps -/

/-- What the host kernel hands to the signal handler: the guest's registers and
memory at the trapping instruction, and the address of an access fault. -/
structure Trap where
  gregs : Gpr → Word
  rip : Word
  mem : Mem
  siAddr : Word

/-- The machine that the handler finds. -/
def Trap.machine (t : Trap) (s : GuestState) : Machine where
  st := s
  gregs := t.gregs
  rip := t.rip
  mem := t.mem

/-- The guest state after a trap. -/
def trapStep (xed : Xed) (host : Host) (s : GuestState) (t : Trap) : Option GuestState :=
  (handler xed host t.siAddr (t.machine s)).map Machine.st

/-- No interrupt waits for delivery. -/
def NoPending (s : GuestState) : Prop := ∀ v, s.itpending v = false

theorem pendingInterrupt_of_noPending {s : GuestState} (h : NoPending s) :
    pendingInterrupt s = (none, s) := by
  have hnone : (List.finRange INTERRUPT_COUNT).find? s.itpending = none :=
    List.find?_eq_none.mpr fun v _ => by simp [h v]
  rw [pendingInterrupt, hnone]

theorem pendingInterrupt_of_single {s : GuestState} {w : Vec}
    (h : ∀ v, s.itpending v = decide (v = w)) :
    pendingInterrupt s =
      (some (w, s.itcode w), { s with itpending := Function.update s.itpending w false }) := by
  have hfind : (List.finRange INTERRUPT_COUNT).find? s.itpending = some w := by
    cases hres : (List.finRange INTERRUPT_COUNT).find? s.itpending with
    | none =>
      have hw := List.find?_eq_none.mp hres w (List.mem_finRange w)
      simp [h w] at hw
    | some v =>
      have hv := List.find?_some hres
      rw [h v, decide_eq_true_eq] at hv
      rw [hv]
  rw [pendingInterrupt, hfind]

/-- After the emulation the only vector that may be pending is #GP. -/
theorem emulateInst_itpending_apply {xed : Xed} {host : Host} {siAddr : Word}
    {inst : DecodedInst} {x y : Machine} (hx : NoPending x.st)
    (h : emulateInst xed host siAddr inst x = some y) (v : Vec) :
    y.st.itpending v = (gpfaults xed inst x && decide (v = INTERRUPT_GP)) := by
  rw [emulateInst_itpending h, GuestState.gpfaultIf_itpending, hx v, Bool.false_or]

theorem gpfault_pending {xed : Xed} {host : Host} {siAddr : Word} {inst : DecodedInst}
    {x y : Machine} (hx : NoPending x.st) (hf : gpfaults xed inst x = true)
    (h : emulateInst xed host siAddr inst x = some y) (v : Vec) :
    y.st.itpending v = decide (v = INTERRUPT_GP) := by
  rw [emulateInst_itpending_apply hx h, hf, Bool.true_and]

/-- A machine with no pending vector resumes the guest as it is. -/
theorem deliver_of_noPending {x : Machine} (h : NoPending x.st) : deliver x = x := by
  rw [deliver, pendingInterrupt_of_noPending h]

/-- The guest state with #GP taken off the pending vectors. -/
def gpDelivered (s : GuestState) : GuestState :=
  { s with itpending := Function.update s.itpending INTERRUPT_GP false }

/-- A machine with a pending fault enters the guest's handler for it. -/
theorem deliver_of_gpfault {x : Machine}
    (h : ∀ v, x.st.itpending v = decide (v = INTERRUPT_GP)) :
    deliver x = branchInterrupt INTERRUPT_GP (x.st.itcode INTERRUPT_GP)
      { x with st := gpDelivered x.st } := by
  rw [deliver, pendingInterrupt_of_single h]
  rfl

theorem trapStep_noPending {xed : Xed} {host : Host} {s s' : GuestState} {t : Trap}
    (hs : NoPending s) (h : trapStep xed host s t = some s') : NoPending s' := by
  obtain ⟨z, hz, rfl⟩ := Option.map_eq_some_iff.mp h
  obtain ⟨y, hy, rfl⟩ := Option.map_eq_some_iff.mp hz
  obtain ⟨inst, _, hinst⟩ := Option.bind_eq_some_iff.mp hy
  have hs : NoPending (t.machine s).st := hs
  cases hf : gpfaults xed inst (t.machine s) with
  | false =>
    have hnone : NoPending y.st := fun v => by
      rw [emulateInst_itpending_apply hs hinst, hf, Bool.false_and]
    rw [deliver_of_noPending hnone]
    exact hnone
  | true =>
    have hgp := gpfault_pending hs hf hinst
    rw [deliver_of_gpfault hgp]
    intro v
    have hst : (branchInterrupt INTERRUPT_GP (y.st.itcode INTERRUPT_GP)
        { y with st := gpDelivered y.st }).st = gpDelivered y.st := by
      unfold branchInterrupt
      split <;> rfl
    rw [hst]
    by_cases hv : v = INTERRUPT_GP <;> simp [gpDelivered, hv, hgp v]

/-- Between two traps no interrupt is pending. -/
theorem noPending_of_run {xed : Xed} {host : Host} {ts : List Trap} {s : GuestState}
    (hrun : run (trapStep xed host) setupState ts = some s) : NoPending s :=
  run_invariant (fun _ _ _ hs h => trapStep_noPending hs h) (fun _ => rfl) hrun

/-! ## Fault atomicity -/

/-- The guest state is the same up to the record of a #GP. -/
def SameButGp (s s' : GuestState) : Prop :=
  s' = { s with itpending := s'.itpending, itcode := s'.itcode } ∧
    ∀ v, v ≠ INTERRUPT_GP → s'.itpending v = s.itpending v ∧ s'.itcode v = s.itcode v

/-- The `RIP` in the frame of an interrupt with an error code, when the guest's
handler starts. -/
def frameRip (z : Machine) : Word := read64 z.mem (z.gregs .rsp + 8).toNat

/-- If the emulation of the trapping instruction triggers a #GP, it leaves the
guest state and the general registers alone, and the frame at the end of the
trap holds the address of the instruction. -/
def FaultAtomic (xed : Xed) (host : Host) (s : GuestState) (t : Trap) : Prop :=
  ∀ y, emulate xed host t.siAddr (t.machine s) = some y → y.st.itpending INTERRUPT_GP = true →
    SameButGp s y.st ∧ y.gregs = t.gregs ∧
      ∀ z, handler xed host t.siAddr (t.machine s) = some z → frameRip z = t.rip

/-- No check fires; or one fires in a far jump to its own address, with the
selector that is in `CS` already, and the jump does not switch the mode. -/
def FaultLeavesNothing (xed : Xed) (s : GuestState) (t : Trap) : Prop :=
  ∀ inst, fetch xed (t.machine s) = some inst → gpfaults xed inst (t.machine s) = true →
    inst.iclass = .jmpFar ∧ ljmpTarget inst = t.rip ∧ s.selectors .cs = ljmpSelector inst ∧
      (longmodePaging s = true → s.mode = .bits64)

/-- The frame of a #GP holds the `RIP` that the emulation ended with. -/
theorem frameRip_deliver {y : Machine}
    (h : ∀ v, y.st.itpending v = decide (v = INTERRUPT_GP)) : frameRip (deliver y) = y.rip := by
  rw [deliver_of_gpfault h]
  exact (branchInterrupt_holds INTERRUPT_GP _ { y with st := gpDelivered y.st }).tail.head

/-- A far jump that faults has no effect on the state exactly when it reloads
`CS` with its value and does not switch the mode. -/
theorem sameButGp_ljmp_iff {inst : DecodedInst} {x y : Machine}
    (hf : selectorFaults x.mem x.st (ljmpSelector inst) = true)
    (h : emulateLjmp inst x = some y) :
    SameButGp x.st y.st ↔ x.st.selectors .cs = ljmpSelector inst ∧
      (longmodePaging x.st = true → x.st.mode = .bits64) := by
  obtain ⟨st, hst, rfl⟩ := Option.map_eq_some_iff.mp h
  rw [movToSelector_eq] at hst
  split at hst
  · cases hst
  · cases hst
    rw [hf]
    constructor
    · intro hsame
      have hsel := congrArg (fun s => s.selectors .cs) hsame.1
      have hmode := congrArg GuestState.mode hsame.1
      simp only [Function.update_self] at hsel
      refine ⟨hsel.symm, fun hpaging => ?_⟩
      simp only [hpaging, and_self, if_true] at hmode
      exact hmode.symm
    · intro hex
      rcases hex with ⟨hsel, hmode⟩
      refine ⟨?_, fun v hv => ?_⟩
      · have hupdate : Function.update x.st.selectors .cs (ljmpSelector inst) = x.st.selectors := by
          rw [← hsel, Function.update_eq_self]
        have hkeep : (if Selector.cs = Selector.cs ∧ longmodePaging x.st = true then Mode.bits64
            else x.st.mode) = x.st.mode := by
          split
          · next hpaging => exact (hmode hpaging.2).symm
          · rfl
        rw [hupdate, hkeep]
        rfl
      · simp [GuestState.gpfaultIf, GuestState.triggerGpfault, GuestState.triggerInterrupt, hv]

theorem emulateInst_of_jmpFar {xed : Xed} {host : Host} {siAddr : Word} {inst : DecodedInst}
    {x : Machine} (hjmp : inst.iclass = .jmpFar) :
    emulateInst xed host siAddr inst x = emulateLjmp inst x := by
  unfold emulateInst
  rw [hjmp]

theorem selectorFaults_of_jmpFar {xed : Xed} {inst : DecodedInst} {x : Machine}
    (hjmp : inst.iclass = .jmpFar) (hf : gpfaults xed inst x = true) :
    selectorFaults x.mem x.st (ljmpSelector inst) = true := by
  unfold gpfaults at hf
  rw [hjmp] at hf
  exact (Bool.and_eq_true_iff.mp hf).2

/-- No instruction is long enough for `RIP` to come back to it. -/
theorem advance_ne (inst : DecodedInst) (rip : Word) :
    rip + BitVec.ofNat 64 inst.length ≠ rip := by
  have hpos := inst.length_pos
  have hle := inst.length_le
  intro h
  have hnat := congrArg BitVec.toNat h
  rw [BitVec.toNat_add, BitVec.toNat_ofNat] at hnat
  omega

/-- In every state that a run of traps reaches, a trap is atomic with respect to
faults exactly when no check fires in it, or it leaves nothing to undo. -/
theorem faultAtomic_iff (xed : Xed) (host : Host) (ts : List Trap) (s : GuestState) (t : Trap)
    (hrun : run (trapStep xed host) setupState ts = some s) :
    FaultAtomic xed host s t ↔ FaultLeavesNothing xed s t := by
  have hs : NoPending (t.machine s).st := noPending_of_run hrun
  constructor
  · intro hatomic inst hfetch hf
    obtain ⟨y, hinst, -, hy⟩ := emulateInst_of_gpfaults hf
    have hgp := gpfault_pending hs hf hinst
    have hemulate : emulate xed host t.siAddr (t.machine s) = some y := by
      rw [emulate, hfetch]
      exact hinst
    obtain ⟨hsame, -, hframe⟩ := hatomic y hemulate (by simp [hgp INTERRUPT_GP])
    have hrip := hframe (deliver y) (congrArg (Option.map deliver) hemulate)
    rw [frameRip_deliver hgp, hy] at hrip
    by_cases hjmp : inst.iclass = .jmpFar
    · rw [if_pos hjmp] at hrip
      rw [emulateInst_of_jmpFar hjmp] at hinst
      exact ⟨hjmp, hrip,
        (sameButGp_ljmp_iff (selectorFaults_of_jmpFar hjmp hf) hinst).mp hsame⟩
    · rw [if_neg hjmp] at hrip
      exact absurd hrip (advance_ne inst t.rip)
  · intro hnothing y hy hpending
    obtain ⟨inst, hfetch, hinst⟩ := Option.bind_eq_some_iff.mp hy
    have hf : gpfaults xed inst (t.machine s) = true := by
      rw [emulateInst_itpending_apply hs hinst] at hpending
      exact (Bool.and_eq_true_iff.mp hpending).1
    have hgp := gpfault_pending hs hf hinst
    obtain ⟨hjmp, htarget, hstate⟩ := hnothing inst hfetch hf
    obtain ⟨y', hinst', hgregs, hrip⟩ := emulateInst_of_gpfaults hf
    obtain rfl : y = y' := Option.some.inj (hinst.symm.trans hinst')
    rw [emulateInst_of_jmpFar hjmp] at hinst
    refine ⟨(sameButGp_ljmp_iff (selectorFaults_of_jmpFar hjmp hf) hinst).mpr hstate, hgregs, ?_⟩
    intro z hz
    rw [handler, hy] at hz
    cases hz
    rw [frameRip_deliver hgp, hrip, if_pos hjmp]
    exact htarget

/-- A decoder of one instruction, `lgdt` of an absolute address in 32-bit code:
`0f 01 15` and the address. -/
def lgdtXed : Xed :=
  { registerXed with
    decode := fun mode code =>
      if mode = .legacy32 ∧ code 0 = 0x0f ∧ code 1 = 0x01 ∧ code 2 = 0x15 then
        some
          { iclass := .lgdt
            length := 7
            memoryDisplacement := (code 6 ++ code 5 ++ code 4 ++ code 3 : BitVec 32).signExtend 64
            branchDisplacement := 0
            unsignedImmediate := 0
            immediateWidth := 0
            opn0 := .mem0
            opn1 := .other
            reg := fun _ => .other 0
            length_pos := by decide
            length_le := by decide }
      else none }

/-- The guest executes `lgdt 0x200000` at `0x100000`. -/
def lgdtTrap (limit : BitVec 16) : Trap where
  gregs := fun _ => 0x300000
  rip := 0x100000
  mem :=
    writeBytes (writeBytes (fun _ => 0) 0x100000 7 (0x0020000015010f : BitVec 56)) 0x200000 2 limit
  siAddr := 0

/-- With a limit of a whole number of descriptors the trap is atomic. -/
theorem faultAtomic_lgdt_aligned : FaultAtomic lgdtXed shadowHost setupState (lgdtTrap 15) := by
  apply (faultAtomic_iff lgdtXed shadowHost [] setupState (lgdtTrap 15) rfl).mpr
  intro inst hfetch hf
  cases hfetch
  exact absurd hf (by decide)

/-- `lgdt` with the limit 8 triggers a #GP and loads the table all the same. -/
theorem faultAtomic_not_of_limit_eight :
    run (trapStep lgdtXed shadowHost) setupState [] = some setupState ∧
      ¬ FaultAtomic lgdtXed shadowHost setupState (lgdtTrap 8) := by
  refine ⟨rfl, fun h => ?_⟩
  obtain ⟨hsame, -, -⟩ := h _ rfl rfl
  exact absurd (congrArg GuestState.gdtSize hsame.1) (by decide)

end KernelMemVirt.Janus
