import KernelMemVirt.Janus.Fault
import KernelMemVirt.Janus.LongMode
import KernelMemVirt.Lib.AccessLog

/-!
# Segment loads and the descriptor table

`mov_to_selector` compares the index of a selector with `gdt_size`, and reads `gdt[index]` whatever
comes out.  The table has `gdt_size` descriptors, so an index that is equal passes the comparison
as well.

* `movToSelectorLog` is `mov_to_selector` with the indices that it reads.
* `TableHistory` is a guest state with the size of the table that `lgdt` has loaded last, over runs
  of all the operations of `state.c`.
* `loadsInside_iff_of_run` says which runs read descriptors of that table only.
-/

namespace KernelMemVirt.Janus

open ByteMem Logged Transition

/-! ## The source -/

/-- `guest_state.gdt[index]`, as an access. -/
def gdtEntry (m : Mem) (s : GuestState) (index : Word) : Logged Word Word :=
  access index (descriptor m s index)

/-- `mov_to_selector` with the indices at which it reads `guest_state.gdt`. -/
def movToSelectorLog (m : Mem) (s : GuestState) (val : Word) (selector : Selector) :
    Logged Word (Option GuestState) := do
  let index := val / 8
  let s1 := s.gpfaultIf (decide (s.gdtSize < index.toNat))
  let present ← gdtEntry m s1 index
  let s2 := s1.gpfaultIf (!test present DESCRIPTOR_P)
  -- the operators of the source do not evaluate what follows a false operand
  let compat ←
    if selector = .cs then do
      let desc ← gdtEntry m s2 index
      pure (!test desc DESCRIPTOR_L && s2.mode == .bits64)
    else pure false
  if compat = true then
    pure none
  else do
    let s3 := if selector = .cs ∧ longmodePaging s2 = true then s2.activateLongmode else s2
    pure (some { s3 with selectors := Function.update s3.selectors selector val })

theorem value_movToSelectorLog (m : Mem) (s : GuestState) (val : Word) (selector : Selector) :
    (movToSelectorLog m s val selector).value = movToSelector m s val selector := by
  unfold movToSelectorLog movToSelector gdtEntry
  by_cases hcs : selector = .cs
  · simp [hcs]
  · simp [hcs]

/-- The descriptor is read whether the index is in the table or not. -/
theorem log_movToSelectorLog (m : Mem) (s : GuestState) (val : Word) (selector : Selector) :
    (movToSelectorLog m s val selector).log =
      val / 8 :: if selector = .cs then [val / 8] else [] := by
  unfold movToSelectorLog gdtEntry
  by_cases hcs : selector = .cs
  · simp [hcs]
  · simp [hcs]

/-! ## Histories -/

/-- An operation of `state.c` on the guest state, for its emulator or for a device. -/
inductive GuestOp
  | state (op : StateOp)
  | setControl (val : Word) (control : Fin 256)
  | triggerInterrupt (vec : Vec) (code : Word)
  | pendingInterrupt
  | writeVga (off val : BitVec 16)

/-- The state after an operation, or `none` when the monitor exits. -/
def GuestOp.exec (s : GuestState) : GuestOp → Option GuestState
  | .state op => op.exec s
  | .setControl val control => some (Janus.setControl s val control)
  | .triggerInterrupt vec code => some (s.triggerInterrupt vec code)
  | .pendingInterrupt => some (Janus.pendingInterrupt s).2
  | .writeVga off val => Janus.writeVga s off val

/-- A guest state with the number of descriptors of the table that was loaded last. -/
structure TableHistory where
  state : GuestState
  descriptors : Nat

namespace TableHistory

/-- Before the first `lgdt` there is no descriptor. -/
def setup : TableHistory := ⟨setupState, 0⟩

/-- The address of the `struct gdtr32` or `struct gdtr64` that `lgdt` is given. -/
def gdtrAddr (s : GuestState) (val : Word) : Word :=
  match s.mode with
  | .bits32 => (val.setWidth 32).setWidth 64
  | _ => val

/-- The number of descriptors in a table of `limit + 1` bytes. -/
def tableLength (limit : BitVec 16) : Nat := (limit.toNat + 1) / 8

def nextDescriptors (t : TableHistory) : GuestOp → Nat
  | .state (.lgdt m val) => tableLength (limitAt m (gdtrAddr t.state val))
  | _ => t.descriptors

def exec (t : TableHistory) (op : GuestOp) : Option TableHistory :=
  (op.exec t.state).map fun s' => ⟨s', t.nextDescriptors op⟩

/-- A segment load reads descriptors of the last table only; for a selector outside of it, it
reads none and raises #GP. -/
def LoadInside (t : TableHistory) : GuestOp → Prop
  | .state (.movToSelector m val selector) =>
    Within (fun index => index.toNat < t.descriptors) (movToSelectorLog m t.state val selector) ∧
      (t.descriptors ≤ (val / 8).toNat →
        (movToSelectorLog m t.state val selector).log = [] ∧
          ∀ s', (movToSelectorLog m t.state val selector).value = some s' →
            s'.itpending INTERRUPT_GP = true)
  | _ => True

/-- A segment load selects a descriptor of the last table. -/
def SelectsDescriptor (t : TableHistory) : GuestOp → Prop
  | .state (.movToSelector _ val _) => (val / 8).toNat < t.descriptors
  | _ => True

/-- `gdt_size` is the number of descriptors. -/
def SizeMatches (t : TableHistory) : Prop := t.state.gdtSize = t.descriptors

end TableHistory

/-! ## The size of the table -/

@[simp] theorem GuestState.gpfaultIf_gdtSize (s : GuestState) (c : Bool) :
    (s.gpfaultIf c).gdtSize = s.gdtSize := by
  cases c <;> rfl

@[simp] theorem GuestState.storeControl_gdtSize (s : GuestState) (i : Fin 256) (val : Word) :
    (s.storeControl i val).gdtSize = s.gdtSize := by
  unfold storeControl
  split
  · rfl
  · split <;> rfl

theorem movToControl_gdtSize {s s' : GuestState} {val : Word} {control : Fin 256}
    (h : movToControl s val control = some s') : s'.gdtSize = s.gdtSize := by
  unfold movToControl at h
  split at h
  · unfold movToCr0 at h
    dsimp only at h
    split at h
    · cases h
    · cases h
      simp only [GuestState.storeControl_gdtSize, apply_ite GuestState.gdtSize, setPageTable,
        GuestState.gpfaultIf_gdtSize, ite_self]
  · split at h
    · cases h
      simp [movToCr4]
    · cases h
      simp

theorem pendingInterrupt_gdtSize (s : GuestState) :
    (pendingInterrupt s).2.gdtSize = s.gdtSize := by
  unfold pendingInterrupt
  split <;> rfl

namespace TableHistory

theorem lgdt_gdtSize {m : Mem} {s s' : GuestState} {val : Word} (h : lgdt m s val = some s') :
    s'.gdtSize = tableLength (limitAt m (gdtrAddr s val)) := by
  unfold lgdt at h
  unfold gdtrAddr
  cases hmode : s.mode <;> rw [hmode] at h <;> cases h <;> rfl

/-- Only `lgdt` changes the size. -/
theorem exec_gdtSize {s s' : GuestState} {op : GuestOp} (h : op.exec s = some s')
    (hop : ∀ m val, op ≠ .state (.lgdt m val)) : s'.gdtSize = s.gdtSize := by
  cases op with
  | state op =>
    cases op with
    | movToControl val control => exact movToControl_gdtSize h
    | wrmsr addr val =>
      cases h
      unfold wrmsr
      split
      · simp [wrmsrEfer]
      · rfl
    | lgdt m val => exact absurd rfl (hop m val)
    | lidt m val =>
      simp only [GuestOp.exec, StateOp.exec, lidt] at h
      split at h
      · cases h
        simp [lidt64]
      · cases h
    | movToSelector m val selector =>
      simp only [GuestOp.exec, StateOp.exec, movToSelector_eq] at h
      split at h
      · cases h
      · cases h
        simp
  | setControl val control =>
    cases h
    exact GuestState.storeControl_gdtSize s control val
  | triggerInterrupt vec code =>
    cases h
    rfl
  | pendingInterrupt =>
    cases h
    exact pendingInterrupt_gdtSize s
  | writeVga off val =>
    simp only [GuestOp.exec, writeVga] at h
    split at h
    · cases h
      rfl
    · cases h

theorem sizeMatches_exec {t t' : TableHistory} {op : GuestOp} (ht : t.SizeMatches)
    (h : t.exec op = some t') : t'.SizeMatches := by
  obtain ⟨s', hs', rfl⟩ := Option.map_eq_some_iff.mp h
  unfold SizeMatches nextDescriptors
  split
  · exact lgdt_gdtSize hs'
  · next hop =>
    rw [exec_gdtSize hs' hop]
    exact ht

/-- A load stays inside exactly if it selects a descriptor: it reads one in any case. -/
theorem loadInside_iff (t : TableHistory) (op : GuestOp) :
    t.LoadInside op ↔ t.SelectsDescriptor op := by
  unfold LoadInside SelectsDescriptor
  split
  · next m val selector =>
    constructor
    · intro hinside
      refine hinside.1 (val / 8) ?_
      rw [log_movToSelectorLog]
      exact List.mem_cons_self
    · intro hselects
      refine ⟨fun index hindex => ?_, fun hout => absurd hselects (by omega)⟩
      rw [log_movToSelectorLog] at hindex
      have heq : index = val / 8 := by
        split at hindex
        · simpa using hindex
        · simpa using hindex
      rw [heq]
      exact hselects
  · exact Iff.rfl

/-- In a run from `setup_state` the size of the table is right, and the loads stay inside the
table exactly if each selects one of its descriptors. -/
theorem loadsInside_iff_of_run (ops : List GuestOp) :
    (∀ t ∈ states exec setup ops, t.SizeMatches) ∧
      (RunOk exec LoadInside setup ops ↔ RunOk exec SelectsDescriptor setup ops) := by
  have htrue : RunOk exec (fun _ _ => True) setup ops := runOk_true ops setup
  constructor
  · exact states_invariant_of_ok (fun _ _ _ ht _ h => sizeMatches_exec ht h) ops setup rfl htrue
  · exact runOk_iff_of_ok (fun t op (_ : True) _ => loadInside_iff t op)
      (fun _ _ _ _ _ _ _ => trivial) ops setup trivial htrue

/-- The selector behind the last of two descriptors: it is read, and no fault comes of the
index. -/
theorem loadsInside_not_of_end :
    ¬ ∀ ops : List GuestOp, RunOk exec LoadInside setup ops := by
  intro h
  have hload := h [.state (.lgdt (gdtMem 0x9a 0x20) 0x1000),
    .state (.movToSelector (gdtMem 0x9a 0x20) 16 .ds)]
  have hselects : (16 / 8 : Word).toNat < tableLength (limitAt (gdtMem 0x9a 0x20) 0x1000) :=
    (loadInside_iff _ _).mp (hload.2 _ rfl).1
  exact absurd hselects (by decide)

end TableHistory

end KernelMemVirt.Janus
