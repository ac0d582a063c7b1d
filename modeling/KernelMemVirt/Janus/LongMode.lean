import KernelMemVirt.Janus.State
import KernelMemVirt.Lib.Transition

/-!
# Long mode across a run of the monitor

`EFER.LMA` and `guest_state.mode` are summaries of a history: the monitor
recomputes neither, and each of `mov_to_cr0`, `mov_to_cr4`, `wrmsr_efer` and
`mov_to_selector` updates its part.  This module states what the two should
summarise and finds out which operations keep them right.

* `StateOp` lists the operations that the emulator calls, with any operand.
* `ControlBits` are the six control bits that decide about long mode.  Each
  operation acts on them alone, so the arguments below are about booleans.
* `LongModeConsistent` relates `EFER.LMA` to `EFER.LME`, `CR0` and `CR4`.
  `longModeConsistent_step_iff` gives, for one operation, the exact condition
  under which it is kept, and `longModeConsistent_of_run` is the run.
* `ModeConsistent` relates `guest_state.mode` to `EFER.LMA` and to the last
  code segment that was loaded.  `modeConsistent_step_iff` and
  `modeConsistent_of_run` are the same two results for it.
-/

namespace KernelMemVirt.Janus

open ByteMem Transition

/-! ## The operations -/

/-- An operation on the guest state, with the guest memory it reads. -/
inductive StateOp
  | movToControl (val : Word) (control : Fin 256)
  | wrmsr (addr : BitVec 32) (val : Word)
  | lgdt (m : Mem) (val : Word)
  | lidt (m : Mem) (val : Word)
  | movToSelector (m : Mem) (val : Word) (selector : Selector)

/-- The state after an operation, or `none` when the monitor exits. -/
def StateOp.exec (s : GuestState) : StateOp → Option GuestState
  | .movToControl val control => Janus.movToControl s val control
  | .wrmsr addr val => some (Janus.wrmsr s addr val)
  | .lgdt m val => Janus.lgdt m s val
  | .lidt m val => Janus.lidt m s val
  | .movToSelector m val selector => Janus.movToSelector m s val selector

/-! ## The control bits -/

/-- The bits of `CR0`, `CR4` and `EFER` that decide about long mode. -/
structure ControlBits where
  pe : Bool
  et : Bool
  pg : Bool
  pae : Bool
  lme : Bool
  lma : Bool
  deriving DecidableEq

def controlBits (s : GuestState) : ControlBits where
  pe := test (s.controls 0) CR0_PE
  et := test (s.controls 0) CR0_ET
  pg := test (s.controls 0) CR0_PG
  pae := test (s.controls 4) CR4_PAE
  lme := test s.efer EFER_LME
  lma := test s.efer EFER_LMA

/-- The bits depend on two control registers and on `EFER`. -/
theorem controlBits_congr {s s' : GuestState} (h0 : s'.controls 0 = s.controls 0)
    (h4 : s'.controls 4 = s.controls 4) (he : s'.efer = s.efer) :
    controlBits s' = controlBits s := by
  simp only [controlBits, h0, h4, he]

theorem lgdt_spec {m : Mem} {s s' : GuestState} {val : Word} (h : lgdt m s val = some s') :
    controlBits s' = controlBits s ∧ s'.mode = s.mode := by
  unfold lgdt at h
  split at h
  all_goals cases h
  · exact ⟨controlBits_congr (by simp [lgdt32]) (by simp [lgdt32]) (by simp [lgdt32]),
      by simp [lgdt32]⟩
  · exact ⟨controlBits_congr (by simp [lgdt64]) (by simp [lgdt64]) (by simp [lgdt64]),
      by simp [lgdt64]⟩

theorem lidt_spec {m : Mem} {s s' : GuestState} {val : Word} (h : lidt m s val = some s') :
    controlBits s' = controlBits s ∧ s'.mode = s.mode := by
  unfold lidt at h
  split at h
  all_goals cases h
  exact ⟨controlBits_congr (by simp [lidt64]) (by simp [lidt64]) (by simp [lidt64]),
    by simp [lidt64]⟩

/-- A selector load only reads the control bits, and it may only raise the
mode. -/
theorem movToSelector_spec {m : Mem} {s s' : GuestState} {val : Word} {selector : Selector}
    (h : movToSelector m s val selector = some s') :
    controlBits s' = controlBits s ∧
      s'.mode = (if selector = .cs ∧ longmodePaging s = true then Mode.bits64 else s.mode) ∧
      ¬ (selector = .cs ∧ test (descriptor m s (val / 8)) DESCRIPTOR_L = false ∧
          s.mode = .bits64) := by
  simp only [movToSelector, descriptor_gpfaultIf, GuestState.gpfaultIf_mode,
    longmodePaging_gpfaultIf] at h
  split at h
  · cases h
  · next hsupported =>
    cases h
    refine ⟨controlBits_congr ?_ ?_ ?_, ?_, hsupported⟩ <;>
      split <;> simp [GuestState.activateLongmode]

/-- A `CR0` write that does not end the monitor.  `ET` is forced, and long mode
becomes active when paging does. -/
theorem movToCr0_spec {s s' : GuestState} {val : Word} (h : movToCr0 s val = some s') :
    ((controlBits s).pe && !test val CR0_PE) = false ∧
      controlBits s' =
        { controlBits s with
          pe := test val CR0_PE
          et := true
          pg := test val CR0_PG
          lma := (controlBits s).lma ||
            test val CR0_PG && !(controlBits s).pg && (controlBits s).lme } ∧
      s'.mode = s.mode := by
  simp only [movToCr0, setPageTable] at h
  split at h
  · cases h
  · next hpe =>
    cases h
    refine ⟨by simpa [controlBits] using hpe, ?_, ?_⟩
    · cases hpg : test val CR0_PG <;> cases hpg0 : test (s.controls 0) CR0_PG <;>
        cases hlme : test s.efer EFER_LME <;>
        simp [controlBits, hpg, hpg0, hlme]
    · simp only [GuestState.storeControl_zero, apply_ite GuestState.mode,
        GuestState.gpfaultIf_mode, ite_self]

theorem movToCr4_spec (s : GuestState) (val : Word) :
    controlBits (movToCr4 s val) = { controlBits s with pae := test val CR4_PAE } ∧
      (movToCr4 s val).mode = s.mode := by
  constructor <;> simp [movToCr4, controlBits]

/-- A write of any other entry of `controls`; entry 5 is `efer`. -/
theorem storeControl_spec (s : GuestState) (val : Word) {i : Fin 256} (h0 : i ≠ 0) (h4 : i ≠ 4) :
    controlBits (s.storeControl i val) =
        (if i = 5 then
          { controlBits s with lme := test val EFER_LME, lma := test val EFER_LMA }
        else controlBits s) ∧
      (s.storeControl i val).mode = s.mode := by
  have v0 : i.val ≠ 0 := fun h => h0 (Fin.ext h)
  have v4 : i.val ≠ 4 := fun h => h4 (Fin.ext h)
  have v5 : i = 5 ↔ i.val = 5 := Fin.ext_iff
  unfold GuestState.storeControl
  split
  · next hlt =>
    have n0 : (0 : Fin 5) ≠ ⟨i.val, hlt⟩ := fun h => v0 (congrArg Fin.val h).symm
    have n4 : (4 : Fin 5) ≠ ⟨i.val, hlt⟩ := fun h => v4 (congrArg Fin.val h).symm
    rw [if_neg (by rw [v5]; omega)]
    exact ⟨controlBits_congr (Function.update_of_ne n0 _ _) (Function.update_of_ne n4 _ _) rfl, rfl⟩
  · split
    · next h5 =>
      rw [if_pos (v5.mpr h5)]
      exact ⟨rfl, rfl⟩
    · next h5 =>
      rw [if_neg (fun h => h5 (v5.mp h))]
      exact ⟨rfl, rfl⟩

theorem wrmsrEfer_spec (s : GuestState) (val : Word) :
    controlBits (wrmsrEfer s val) =
        { controlBits s with lme := test val EFER_LME, lma := test val EFER_LMA } ∧
      (wrmsrEfer s val).mode = s.mode := by
  constructor <;> simp [wrmsrEfer, controlBits]

/-! ## Long mode active -/

/-- `EFER.LMA` is set if and only if `EFER.LME` and `CR0.PG` are, `CR0.PE` and
`CR0.ET` are set, and long mode runs with `CR4.PAE`. -/
def ControlBits.Consistent (b : ControlBits) : Prop :=
  (b.lma = true ↔ b.lme = true ∧ b.pg = true) ∧ b.pe = true ∧ b.et = true ∧
    (b.lma = true → b.pae = true)

instance (b : ControlBits) : Decidable b.Consistent := by
  unfold ControlBits.Consistent; infer_instance

abbrev LongModeConsistent (s : GuestState) : Prop := (controlBits s).Consistent

/-- An `EFER` value that agrees with the control registers. -/
def EferFits (s : GuestState) (val : Word) : Prop :=
  (test val EFER_LMA = true ↔ test val EFER_LME = true ∧ test (s.controls 0) CR0_PG = true) ∧
    (test val EFER_LMA = true → test (s.controls 4) CR4_PAE = true)

/-- The operations that keep long mode consistent: a `CR0` write does not turn
paging off in long mode, neither a `CR0` nor a `CR4` write faults, and a value
written to `EFER` already agrees with `CR0` and `CR4`. -/
def KeepsLongMode (s : GuestState) : StateOp → Prop
  | .movToControl val control =>
    if control = 0 then
      ¬ (test s.efer EFER_LMA = true ∧ test val CR0_PG = false) ∧ cr0Faults s val = false
    else if control = 4 then cr4Faults s val = false
    else if control = 5 then EferFits s val
    else True
  | .wrmsr addr val => addr = MSR_EFER → EferFits s val
  | .lgdt .. => True
  | .lidt .. => True
  | .movToSelector .. => True

instance (s : GuestState) (val : Word) : Decidable (EferFits s val) :=
  inferInstanceAs (Decidable (_ ∧ _))

instance (s : GuestState) (op : StateOp) : Decidable (KeepsLongMode s op) :=
  match op with
  | .movToControl _ _ => inferInstanceAs (Decidable (ite _ _ _))
  | .wrmsr _ _ => inferInstanceAs (Decidable (_ → _))
  | .lgdt .. => isTrue trivial
  | .lidt .. => isTrue trivial
  | .movToSelector .. => isTrue trivial

theorem longModeConsistent_setup : LongModeConsistent setupState := by decide

/-- A `CR0` write keeps long mode consistent in exactly the two cases that the
source leaves right. -/
theorem longModeConsistent_cr0_iff {s s' : GuestState} {val : Word} (hs : LongModeConsistent s)
    (h : movToCr0 s val = some s') :
    LongModeConsistent s' ↔
      ¬ (test s.efer EFER_LMA = true ∧ test val CR0_PG = false) ∧ cr0Faults s val = false := by
  obtain ⟨hpe, hbits, -⟩ := movToCr0_spec h
  have hfault : cr0Faults s val =
      (test val CR0_PG && !(controlBits s).pg && (controlBits s).lme && !(controlBits s).pae) := by
    simp [cr0Faults, controlBits]
  have hlma : test s.efer EFER_LMA = (controlBits s).lma := rfl
  rw [hfault, hlma]
  unfold LongModeConsistent at hs ⊢
  rw [hbits]
  generalize controlBits s = b at hs hpe ⊢
  generalize test val CR0_PE = vpe at hpe ⊢
  generalize test val CR0_PG = vpg
  rcases b with ⟨pe, et, pg, pae, lme, lma⟩
  revert pe et pg pae lme lma vpe vpg
  decide

theorem longModeConsistent_cr4_iff {s : GuestState} {val : Word} (hs : LongModeConsistent s) :
    LongModeConsistent (movToCr4 s val) ↔ cr4Faults s val = false := by
  have hfault : cr4Faults s val =
      ((controlBits s).pae && !test val CR4_PAE && (controlBits s).lma) := by
    simp [cr4Faults, controlBits]
  rw [hfault]
  unfold LongModeConsistent at hs ⊢
  rw [(movToCr4_spec s val).1]
  generalize controlBits s = b at hs ⊢
  generalize test val CR4_PAE = vpae
  rcases b with ⟨pe, et, pg, pae, lme, lma⟩
  revert pe et pg pae lme lma vpae
  decide

/-- A new value of `EFER`, from `wrmsr` or through `controls[5]`. -/
theorem longModeConsistent_efer_iff {s s' : GuestState} {val : Word} (hs : LongModeConsistent s)
    (hbits : controlBits s' =
      { controlBits s with lme := test val EFER_LME, lma := test val EFER_LMA }) :
    LongModeConsistent s' ↔ EferFits s val := by
  rcases hs with ⟨-, hpe, het, -⟩
  unfold LongModeConsistent
  rw [hbits]
  exact ⟨fun h => ⟨h.1, h.2.2.2⟩, fun h => ⟨h.1, hpe, het, h.2⟩⟩

/-- The operations that keep long mode consistent, exactly. -/
theorem longModeConsistent_step_iff {s s' : GuestState} {op : StateOp}
    (hs : LongModeConsistent s) (h : op.exec s = some s') :
    LongModeConsistent s' ↔ KeepsLongMode s op := by
  cases op with
  | movToControl val control =>
    simp only [StateOp.exec, movToControl] at h
    simp only [KeepsLongMode]
    split at h
    · next h0 =>
      rw [if_pos h0]
      exact longModeConsistent_cr0_iff hs h
    · next h0 =>
      rw [if_neg h0]
      split at h
      · next h4 =>
        rw [if_pos h4]
        cases h
        exact longModeConsistent_cr4_iff hs
      · next h4 =>
        rw [if_neg h4]
        cases h
        have hbits := (storeControl_spec s val h0 h4).1
        split
        · next h5 =>
          rw [if_pos h5] at hbits
          exact longModeConsistent_efer_iff hs hbits
        · next h5 =>
          rw [if_neg h5] at hbits
          exact iff_true_intro (by unfold LongModeConsistent; rwa [hbits])
  | wrmsr addr val =>
    simp only [StateOp.exec, wrmsr] at h
    cases h
    simp only [KeepsLongMode]
    split
    · next hmsr =>
      rw [longModeConsistent_efer_iff hs (wrmsrEfer_spec s val).1]
      exact ⟨fun hfit _ => hfit, fun hfit => hfit hmsr⟩
    · next hmsr => exact ⟨fun _ h => absurd h hmsr, fun _ => hs⟩
  | lgdt m val => exact iff_true_intro (by unfold LongModeConsistent; rwa [(lgdt_spec h).1])
  | lidt m val => exact iff_true_intro (by unfold LongModeConsistent; rwa [(lidt_spec h).1])
  | movToSelector m val selector =>
    exact iff_true_intro (by unfold LongModeConsistent; rwa [(movToSelector_spec h).1])

/-- Every state that a run of such operations reaches has a consistent long
mode. -/
theorem longModeConsistent_of_run {ops : List StateOp} {s : GuestState}
    (hok : RunOk StateOp.exec KeepsLongMode setupState ops)
    (hrun : run StateOp.exec setupState ops = some s) : LongModeConsistent s :=
  run_invariant_of_ok (fun _ _ _ hs hop h => (longModeConsistent_step_iff hs h).mpr hop)
    ops setupState s longModeConsistent_setup hok hrun

/-- The entry sequence of the guest's `entry.S`: `EFER.LME`, `CR4.PAE`, then
`CR0.PG`. -/
def entryOps : List StateOp :=
  [.wrmsr MSR_EFER EFER_LME, .movToControl CR4_PAE 4, .movToControl (CR0_PE ||| CR0_PG) 0]

theorem longModeConsistent_entryOps :
    ∃ s, run StateOp.exec setupState entryOps = some s ∧ test s.efer EFER_LMA = true ∧
      LongModeConsistent s := by
  have hok : RunOk StateOp.exec KeepsLongMode setupState entryOps := by decide
  exact ⟨_, rfl, by decide, longModeConsistent_of_run hok rfl⟩

/-- Turning paging off after the entry sequence leaves `EFER.LMA` set. -/
theorem longModeConsistent_not_of_paging_off :
    ¬ ∀ (ops : List StateOp) (s : GuestState),
      run StateOp.exec setupState ops = some s → LongModeConsistent s := by
  intro h
  have hoff := h (entryOps ++ [.movToControl CR0_PE 0]) _ rfl
  exact absurd hoff (by decide)

/-! ## The execution mode -/

/-- A guest state with the L bit of the descriptor that the last successful
load of `CS` selected.  A load is successful when it triggers no fault. -/
structure ModeHistory where
  state : GuestState
  csLong : Bool

/-- Before the first load of `CS` no descriptor is selected. -/
def ModeHistory.setup : ModeHistory := ⟨setupState, false⟩

def ModeHistory.nextLong (t : ModeHistory) : StateOp → Bool
  | .movToSelector m val selector =>
    if selector = .cs ∧ selectorFaults m t.state val = false then
      test (descriptor m t.state (val / 8)) DESCRIPTOR_L
    else t.csLong
  | _ => t.csLong

def ModeHistory.exec (t : ModeHistory) (op : StateOp) : Option ModeHistory :=
  (op.exec t.state).map fun s' => ⟨s', t.nextLong op⟩

/-- The mode is 64 bits when long mode is active and the code segment has its
L bit set, and 32 bits otherwise. -/
def ModeConsistent (t : ModeHistory) : Prop :=
  t.state.mode =
    if test t.state.efer EFER_LMA = true ∧ t.csLong = true then Mode.bits64 else Mode.bits32

instance (t : ModeHistory) : Decidable (ModeConsistent t) :=
  inferInstanceAs (Decidable (_ = _))

/-- The operations that keep the mode right.  While a 64-bit code segment is
loaded, a control write leaves `EFER.LMA` as it is.  A load of `CS` that faults
does not meet paging in long mode, unless the mode is 64 bits already; one that
succeeds under paging in long mode selects an L descriptor; and one that
succeeds with `EFER.LMA` set but without paging does not change the L bit. -/
def KeepsMode (t : ModeHistory) : StateOp → Prop
  | .movToControl val control =>
    if control = 0 then
      t.csLong = true → test t.state.efer EFER_LMA = false →
        ¬ (test val CR0_PG = true ∧ test (t.state.controls 0) CR0_PG = false ∧
          test t.state.efer EFER_LME = true)
    else if control = 5 then
      t.csLong = true → test val EFER_LMA = test t.state.efer EFER_LMA
    else True
  | .wrmsr addr val =>
    addr = MSR_EFER → t.csLong = true → test val EFER_LMA = test t.state.efer EFER_LMA
  | .lgdt .. => True
  | .lidt .. => True
  | .movToSelector m val selector =>
    selector = .cs →
      if selectorFaults m t.state val then
        longmodePaging t.state = true → t.state.mode = .bits64
      else if longmodePaging t.state then
        test (descriptor m t.state (val / 8)) DESCRIPTOR_L = true
      else
        test t.state.efer EFER_LMA = true →
          test (descriptor m t.state (val / 8)) DESCRIPTOR_L = t.csLong

instance (t : ModeHistory) (op : StateOp) : Decidable (KeepsMode t op) :=
  match op with
  | .movToControl _ _ => inferInstanceAs (Decidable (ite _ _ _))
  | .wrmsr _ _ => inferInstanceAs (Decidable (_ → _ → _))
  | .lgdt .. => isTrue trivial
  | .lidt .. => isTrue trivial
  | .movToSelector _ _ _ => inferInstanceAs (Decidable (_ → ite _ _ _))

theorem modeConsistent_setup : ModeConsistent ModeHistory.setup := by decide

theorem ModeHistory.exec_spec {t t' : ModeHistory} {op : StateOp} (h : t.exec op = some t') :
    op.exec t.state = some t'.state ∧ t'.csLong = t.nextLong op := by
  obtain ⟨s', hs', rfl⟩ := Option.map_eq_some_iff.mp h
  exact ⟨hs', rfl⟩

/-- An operation that keeps the mode and the L bit: what matters is whether
`EFER.LMA` moves under a 64-bit code segment. -/
theorem modeConsistent_iff_of_mode {t t' : ModeHistory} (ht : ModeConsistent t)
    (hmode : t'.state.mode = t.state.mode) (hcs : t'.csLong = t.csLong) :
    ModeConsistent t' ↔
      (t.csLong = true → test t'.state.efer EFER_LMA = test t.state.efer EFER_LMA) := by
  unfold ModeConsistent at ht ⊢
  rw [hmode, hcs, ht]
  cases t.csLong <;> cases test t.state.efer EFER_LMA <;> cases test t'.state.efer EFER_LMA <;> simp

theorem modeConsistent_control_iff {t t' : ModeHistory} {val : Word} {control : Fin 256}
    (ht : ModeConsistent t) (h : t.exec (.movToControl val control) = some t') :
    ModeConsistent t' ↔ KeepsMode t (.movToControl val control) := by
  obtain ⟨hexec, hcs⟩ := ModeHistory.exec_spec h
  simp only [StateOp.exec, movToControl] at hexec
  simp only [KeepsMode]
  split at hexec
  · next h0 =>
    obtain ⟨-, hbits, hmode⟩ := movToCr0_spec hexec
    rw [if_pos h0, modeConsistent_iff_of_mode ht hmode hcs]
    have hlma := congrArg ControlBits.lma hbits
    simp only [controlBits] at hlma
    rw [hlma]
    cases test t.state.efer EFER_LMA <;> cases test val CR0_PG <;>
      cases test (t.state.controls 0) CR0_PG <;> cases test t.state.efer EFER_LME <;> simp
  · next h0 =>
    rw [if_neg h0]
    split at hexec
    · next h4 =>
      have hexec' := Option.some.inj hexec
      obtain ⟨hbits, hmode⟩ := movToCr4_spec t.state val
      rw [hexec'] at hbits hmode
      rw [modeConsistent_iff_of_mode ht hmode hcs, h4]
      have hlma := congrArg ControlBits.lma hbits
      exact iff_of_true (fun _ => hlma) trivial
    · next h4 =>
      have hexec' := Option.some.inj hexec
      obtain ⟨hbits, hmode⟩ := storeControl_spec t.state val h0 h4
      rw [hexec'] at hbits hmode
      rw [modeConsistent_iff_of_mode ht hmode hcs]
      have hlma := congrArg ControlBits.lma hbits
      split
      · next h5 =>
        rw [if_pos h5] at hlma
        rw [show test t'.state.efer EFER_LMA = test val EFER_LMA from hlma]
      · next h5 =>
        rw [if_neg h5] at hlma
        exact iff_of_true (fun _ => hlma) trivial

/-- A load of `CS` may raise the mode and replaces the L bit. -/
theorem modeConsistent_cs_iff {t t' : ModeHistory} {m : Mem} {val : Word}
    (ht : ModeConsistent t) (h : t.exec (.movToSelector m val .cs) = some t') :
    ModeConsistent t' ↔ KeepsMode t (.movToSelector m val .cs) := by
  obtain ⟨hexec, hcs⟩ := ModeHistory.exec_spec h
  obtain ⟨hbits, hmode, hsupported⟩ := movToSelector_spec hexec
  have hlma : test t'.state.efer EFER_LMA = test t.state.efer EFER_LMA :=
    congrArg ControlBits.lma hbits
  have hpaging : longmodePaging t.state = true → test t.state.efer EFER_LMA = true := by
    simp only [longmodePaging, Bool.and_eq_true]
    exact fun hp => hp.2
  simp only [KeepsMode, ModeHistory.nextLong, true_and, forall_const] at hcs hmode hsupported ⊢
  unfold ModeConsistent at ht ⊢
  rw [hmode, hlma, hcs]
  revert ht hsupported hpaging
  generalize test (descriptor m t.state (val / 8)) DESCRIPTOR_L = dl
  generalize test t.state.efer EFER_LMA = lma
  generalize longmodePaging t.state = paging
  generalize selectorFaults m t.state val = faults
  generalize t.state.mode = mode
  generalize t.csLong = long
  revert dl lma paging faults long
  cases mode <;> decide

/-- The operations that keep the mode right, exactly. -/
theorem modeConsistent_step_iff {t t' : ModeHistory} {op : StateOp} (ht : ModeConsistent t)
    (h : t.exec op = some t') : ModeConsistent t' ↔ KeepsMode t op := by
  obtain ⟨hexec, hcs⟩ := ModeHistory.exec_spec h
  cases op with
  | movToControl val control => exact modeConsistent_control_iff ht h
  | wrmsr addr val =>
    simp only [StateOp.exec, wrmsr] at hexec
    have hexec' := Option.some.inj hexec
    simp only [KeepsMode]
    split at hexec'
    · next hmsr =>
      obtain ⟨hbits, hmode⟩ := wrmsrEfer_spec t.state val
      rw [hexec'] at hbits hmode
      rw [modeConsistent_iff_of_mode ht hmode hcs,
        show test t'.state.efer EFER_LMA = test val EFER_LMA from congrArg ControlBits.lma hbits]
      exact ⟨fun hk _ => hk, fun hk => hk hmsr⟩
    · next hmsr =>
      refine iff_of_true ?_ (fun h => absurd h hmsr)
      unfold ModeConsistent at ht ⊢
      rw [show t'.csLong = t.csLong from hcs, ← hexec']
      exact ht
  | lgdt m val =>
    obtain ⟨hbits, hmode⟩ := lgdt_spec hexec
    rw [modeConsistent_iff_of_mode ht hmode hcs]
    exact iff_of_true (fun _ => congrArg ControlBits.lma hbits) trivial
  | lidt m val =>
    obtain ⟨hbits, hmode⟩ := lidt_spec hexec
    rw [modeConsistent_iff_of_mode ht hmode hcs]
    exact iff_of_true (fun _ => congrArg ControlBits.lma hbits) trivial
  | movToSelector m val selector =>
    by_cases hsel : selector = .cs
    · subst hsel
      exact modeConsistent_cs_iff ht h
    · obtain ⟨hbits, hmode, -⟩ := movToSelector_spec hexec
      rw [if_neg (fun hk => hsel hk.1)] at hmode
      have hcs' : t'.csLong = t.csLong := by
        rw [hcs, ModeHistory.nextLong, if_neg (fun hk => hsel hk.1)]
      rw [modeConsistent_iff_of_mode ht hmode hcs']
      exact iff_of_true (fun _ => congrArg ControlBits.lma hbits) (fun hk => absurd hk hsel)

/-- Every state that a run of such operations reaches has the right mode. -/
theorem modeConsistent_of_run {ops : List StateOp} {t : ModeHistory}
    (hok : RunOk ModeHistory.exec KeepsMode ModeHistory.setup ops)
    (hrun : run ModeHistory.exec ModeHistory.setup ops = some t) : ModeConsistent t :=
  run_invariant_of_ok (fun _ _ _ ht hop h => (modeConsistent_step_iff ht h).mpr hop)
    ops ModeHistory.setup t modeConsistent_setup hok hrun

/-- A guest memory with a `gdtr32` at `0x1000` and a table of two descriptors
at `0x2000`.  The second one has the access byte `access` and the flags byte
`flags`. -/
def gdtMem (access flags : BitVec 8) : Mem := fun a =>
  if a = 0x1000 then 0x0f
  else if a = 0x1003 then 0x20
  else if a = 0x200d then access
  else if a = 0x200e then flags
  else 0

/-- The entry sequence with the far jump to the 64-bit code segment. -/
def entry64Ops (m : Mem) : List StateOp := entryOps ++ [.lgdt m 0x1000, .movToSelector m 8 .cs]

theorem modeConsistent_entry64Ops :
    ∃ t, run ModeHistory.exec ModeHistory.setup (entry64Ops (gdtMem 0x9a 0x20)) = some t ∧
      t.state.mode = .bits64 ∧ ModeConsistent t := by
  have hok : RunOk ModeHistory.exec KeepsMode ModeHistory.setup
      (entry64Ops (gdtMem 0x9a 0x20)) := by decide
  exact ⟨_, rfl, by decide, modeConsistent_of_run hok rfl⟩

/-- The same far jump to a 32-bit code segment raises the mode as well. -/
theorem modeConsistent_not_of_compat_load :
    ¬ ∀ (ops : List StateOp) (t : ModeHistory),
      run ModeHistory.exec ModeHistory.setup ops = some t → ModeConsistent t := by
  intro h
  have hload := h (entry64Ops (gdtMem 0x9a 0x40)) _ rfl
  exact absurd hload (by decide)

end KernelMemVirt.Janus
