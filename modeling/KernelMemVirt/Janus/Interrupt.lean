import KernelMemVirt.Context
import KernelMemVirt.Janus.Intercept

/-!
# Interrupt delivery and return

An interrupt crosses three pieces of code: `branch_interrupt` of the monitor
pushes a frame, the entry stub that `guest/trap.pl` generates completes it to an
`interrupt_context` and calls `trap`, and `emulate_iretq` of the monitor goes
back.  The monitor and the stub each have a list of the vectors with an error
code.

* `runStub_pushes` and the `runStub_pops` lemmas are the two halves of the stub.
* `interruptReturn_rsp` computes the stack pointer after the return, for every
  vector.
* `interruptRoundTrip_iff` finds the vectors for which the composition gives the
  interrupted registers back.
-/

namespace KernelMemVirt.Janus

open ByteMem

/-! ## The entry stub -/

/-- An instruction of the stub.  `call trap` is not among them: the handler runs
between the two halves. -/
inductive StubInst
  | pushq (r : Gpr)
  | pushImm (val : Word)
  | popq (r : Gpr)
  | movRspRdi
  | addRsp (val : Word)

/-- `push` of a word. -/
def Machine.push (x : Machine) (val : Word) : Machine :=
  { x with mem := Stack.push x.mem (x.gregs .rsp) val }.setGreg .rsp (x.gregs .rsp - 8)

/-- `pop` into a register. -/
def Machine.pop (x : Machine) (r : Gpr) : Machine :=
  (x.setGreg .rsp (x.gregs .rsp + 8)).setGreg r (read64 x.mem (x.gregs .rsp).toNat)

def StubInst.exec (x : Machine) : StubInst → Machine
  | .pushq r => x.push (x.gregs r)
  | .pushImm val => x.push val
  | .popq r => x.pop r
  | .movRspRdi => x.setGreg .rdi (x.gregs .rsp)
  | .addRsp val => x.setGreg .rsp (x.gregs .rsp + val)

/-- Straight-line code of the stub. -/
def runStub (x : Machine) (code : List StubInst) : Machine := code.foldl StubInst.exec x

/-- `@errvec`: the vectors for which the stub pushes no dummy error code. -/
def errvec : List Vec := [8, 10, 11, 12, 13, 14, 17]

/-- The code at `__trap_vector_vec`, up to the jump to `_trap`. -/
def trapVector (vec : Vec) : List StubInst :=
  (if vec ∈ errvec then [] else [.pushImm 0]) ++ [.pushImm (BitVec.ofNat 64 vec.val)]

/-- The pushes of `_trap`. -/
def pushOrder : List Gpr :=
  [.rax, .rdi, .rsi, .rdx, .rcx, .r8, .r9, .r10, .r11, .r12, .r13, .r14, .r15, .rbx, .rbp]

/-- The pops of `_trap`. -/
def popOrder : List Gpr :=
  [.rbp, .rbx, .r15, .r14, .r13, .r12, .r11, .r10, .r9, .r8, .rcx, .rdx, .rsi, .rdi, .rax]

/-- The stub of a vector up to `call trap`. -/
def stubEntry (vec : Vec) : List StubInst :=
  trapVector vec ++ pushOrder.map .pushq ++ [.movRspRdi]

/-- The stub from `call trap` up to `iretq`. -/
def stubExit : List StubInst := popOrder.map .popq ++ [.addRsp 16]

/-- A handler that leaves the context in `rdi` unchanged.  It returns, so `rsp`
is what it was; nothing else is asked of it. -/
structure ContextHandler where
  run : Machine → Machine
  keeps_rsp : ∀ x, (run x).gregs .rsp = x.gregs .rsp
  keeps_context : ∀ x,
    InterruptContext.read (run x).mem (x.gregs .rdi) = InterruptContext.read x.mem (x.gregs .rdi)

/-- The guest at `call trap`, after the monitor has delivered the vector. -/
def atTrap (vec : Vec) (code : Word) (x : Machine) : Machine :=
  runStub (branchInterrupt vec code x) (stubEntry vec)

/-- The guest after the monitor has emulated the `iretq` of the stub. -/
def interruptReturn (trap : ContextHandler) (vec : Vec) (code : Word) (x : Machine) : Machine :=
  emulateIretq (runStub (trap.run (atTrap vec code x)) stubExit)

/-- The context that a handler reads. -/
def trapContext (vec : Vec) (code : Word) (x : Machine) : InterruptContext :=
  InterruptContext.read (atTrap vec code x).mem ((atTrap vec code x).gregs .rdi)

/-- The handler sees the vector and its error code, and the interrupted code
goes on with its own registers. -/
structure InterruptRoundTrip (trap : ContextHandler) (vec : Vec) (code : Word) (x : Machine) :
    Prop where
  rip : (interruptReturn trap vec code x).rip = x.rip
  gregs : (interruptReturn trap vec code x).gregs = x.gregs
  itnum : (trapContext vec code x).itnum = BitVec.ofNat 64 vec.val
  errcode : (trapContext vec code x).errcode = if vec ∈ errvec then code else 0

/-! ## Runs of pushes and pops -/

/-- The stack of a machine starts with the words `ws`. -/
def OnStack (x : Machine) (ws : List Word) : Prop := Stack.Holds x.mem (x.gregs .rsp) ws

@[simp] theorem setGreg_mem (x : Machine) (r : Gpr) (val : Word) :
    (x.setGreg r val).mem = x.mem := rfl

@[simp] theorem setGreg_rip (x : Machine) (r : Gpr) (val : Word) :
    (x.setGreg r val).rip = x.rip := rfl

@[simp] theorem setGreg_gregs_self (x : Machine) (r : Gpr) (val : Word) :
    (x.setGreg r val).gregs r = val := Function.update_self _ _ _

theorem setGreg_gregs_of_ne (x : Machine) {r r' : Gpr} (val : Word) (h : r' ≠ r) :
    (x.setGreg r val).gregs r' = x.gregs r' := Function.update_of_ne h _ _

/-- `movq %rsp, %rdi` leaves the stack alone. -/
theorem OnStack.movRspRdi {x : Machine} {ws : List Word} (h : OnStack x ws) :
    OnStack (runStub x [.movRspRdi]) ws := by
  have hrsp : (runStub x [.movRspRdi]).gregs .rsp = x.gregs .rsp :=
    setGreg_gregs_of_ne _ _ (by decide)
  unfold OnStack
  rw [hrsp]
  exact h

theorem runStub_append (x : Machine) (a b : List StubInst) :
    runStub x (a ++ b) = runStub (runStub x a) b := List.foldl_append

theorem OnStack.push {x : Machine} {ws : List Word} (val : Word) (hlen : ws.length < Stack.maxWords)
    (h : OnStack x ws) : OnStack (x.push val) (val :: ws) := by
  have hpush := Stack.Holds.push val hlen h
  simpa only [OnStack, Machine.push, setGreg_gregs_self, setGreg_mem] using hpush

theorem push_gregs (x : Machine) (val : Word) {r : Gpr} (hr : r ≠ .rsp) :
    (x.push val).gregs r = x.gregs r := setGreg_gregs_of_ne _ _ hr

theorem push_rsp (x : Machine) (val : Word) : (x.push val).gregs .rsp = x.gregs .rsp - 8 :=
  setGreg_gregs_self _ _ _

/-- The pushes leave the registers on the stack, the last one on top. -/
theorem runStub_pushes :
    ∀ (rs : List Gpr) (x : Machine) (ws : List Word), Gpr.rsp ∉ rs →
      ws.length + rs.length ≤ Stack.maxWords → OnStack x ws →
      OnStack (runStub x (rs.map .pushq)) ((rs.map x.gregs).reverse ++ ws) := by
  intro rs
  induction rs with
  | nil => exact fun x ws _ _ h => h
  | cons r rs ih =>
    intro x ws hrsp hlen h
    rw [List.mem_cons, not_or] at hrsp
    rw [List.length_cons] at hlen
    have hpush := h.push (x.gregs r) (by omega)
    have hrest := ih (x.push (x.gregs r)) (x.gregs r :: ws) hrsp.2
      (by rw [List.length_cons]; omega) hpush
    have hkeep : rs.map (x.push (x.gregs r)).gregs = rs.map x.gregs :=
      List.map_congr_left fun r' hr' =>
        push_gregs x _ fun heq => hrsp.2 (heq ▸ hr')
    rw [hkeep] at hrest
    rw [List.map_cons, List.map_cons, List.reverse_cons, List.append_assoc]
    exact hrest

theorem runStub_pushes_rsp (rs : List Gpr) (x : Machine) :
    (runStub x (rs.map .pushq)).gregs .rsp
      = x.gregs .rsp - BitVec.ofNat 64 (8 * rs.length) := by
  induction rs generalizing x with
  | nil => simp [runStub]
  | cons r rs ih =>
    apply (ih (x.push (x.gregs r))).trans
    rw [push_rsp, List.length_cons]
    bv_omega

theorem runStub_pops_mem (rs : List Gpr) (x : Machine) :
    (runStub x (rs.map .popq)).mem = x.mem := by
  induction rs generalizing x with
  | nil => rfl
  | cons r rs ih => exact ih (x.pop r)

theorem runStub_pops_rsp (rs : List Gpr) (x : Machine) (hrsp : Gpr.rsp ∉ rs) :
    (runStub x (rs.map .popq)).gregs .rsp
      = x.gregs .rsp + BitVec.ofNat 64 (8 * rs.length) := by
  induction rs generalizing x with
  | nil => simp [runStub]
  | cons r rs ih =>
    rw [List.mem_cons, not_or] at hrsp
    apply (ih (x.pop r) hrsp.2).trans
    have hpop : (x.pop r).gregs .rsp = x.gregs .rsp + 8 :=
      (setGreg_gregs_of_ne _ _ hrsp.1).trans (setGreg_gregs_self _ _ _)
    rw [hpop, List.length_cons]
    bv_omega

theorem runStub_pops_of_notMem (rs : List Gpr) (x : Machine) {r : Gpr} (hr : r ∉ rs)
    (hrsp : r ≠ .rsp) : (runStub x (rs.map .popq)).gregs r = x.gregs r := by
  induction rs generalizing x with
  | nil => rfl
  | cons r' rs ih =>
    rw [List.mem_cons, not_or] at hr
    apply (ih (x.pop r') hr.2).trans
    exact (setGreg_gregs_of_ne _ _ hr.1).trans (setGreg_gregs_of_ne _ _ hrsp)

/-- The pops load the registers from the stack. -/
theorem runStub_pops_of_mem (g : Gpr → Word) (ws : List Word) :
    ∀ (rs : List Gpr) (x : Machine), Gpr.rsp ∉ rs → OnStack x (rs.map g ++ ws) →
      ∀ r ∈ rs, (runStub x (rs.map .popq)).gregs r = g r := by
  intro rs
  induction rs with
  | nil => exact fun _ _ _ r hr => absurd hr List.not_mem_nil
  | cons r' rs ih =>
    intro x hrsp h r hr
    rw [List.mem_cons, not_or] at hrsp
    have hpop : (x.pop r').gregs r' = g r' :=
      (setGreg_gregs_self _ _ _).trans h.head
    have htop : (x.pop r').gregs .rsp = x.gregs .rsp + 8 :=
      (setGreg_gregs_of_ne _ _ hrsp.1).trans (setGreg_gregs_self _ _ _)
    have hrest : OnStack (x.pop r') (rs.map g ++ ws) := by
      unfold OnStack
      rw [htop]
      exact h.tail
    by_cases hmem : r ∈ rs
    · exact ih (x.pop r') hrsp.2 hrest r hmem
    · obtain rfl : r = r' := (List.mem_cons.mp hr).resolve_right hmem
      exact (runStub_pops_of_notMem rs (x.pop r) hmem (Ne.symm hrsp.1)).trans hpop

/-! ## The stack pointer -/

/-- The number of words that the stub pushes before the registers. -/
def dummyWords (vec : Vec) : Nat := if vec ∈ errvec then 1 else 2

theorem runStub_trapVector_rsp (vec : Vec) (x : Machine) :
    (runStub x (trapVector vec)).gregs .rsp
      = x.gregs .rsp - BitVec.ofNat 64 (8 * dummyWords vec) := by
  unfold trapVector dummyWords
  by_cases hvec : vec ∈ errvec
  · simp only [hvec, if_true, List.nil_append]
    exact push_rsp x _
  · simp only [hvec, if_false]
    apply (push_rsp (x.push 0) _).trans
    rw [push_rsp]
    bv_omega

theorem runStub_trapVector_gregs (vec : Vec) (x : Machine) {r : Gpr} (hr : r ≠ .rsp) :
    (runStub x (trapVector vec)).gregs r = x.gregs r := by
  unfold trapVector
  by_cases hvec : vec ∈ errvec
  · simp only [hvec, if_true, List.nil_append]
    exact push_gregs x _ hr
  · simp only [hvec, if_false]
    exact (push_gregs (x.push 0) _ hr).trans (push_gregs x _ hr)

/-- The stack pointer that the handler is called with. -/
theorem atTrap_rsp (vec : Vec) (code : Word) (x : Machine) :
    (atTrap vec code x).gregs .rsp
      = x.gregs .rsp - BitVec.ofNat 64 (8 * (interruptFrame vec code x).length)
        - BitVec.ofNat 64 (8 * dummyWords vec) - BitVec.ofNat 64 (8 * 15) := by
  unfold atTrap stubEntry
  rw [runStub_append, runStub_append]
  apply (setGreg_gregs_of_ne _ _ (by decide)).trans
  rw [runStub_pushes_rsp, runStub_trapVector_rsp, branchInterrupt_rsp]
  rfl

/-- The stack pointer after the return: seven words of frame are undone,
whatever the two sides have pushed. -/
theorem interruptReturn_rsp (trap : ContextHandler) (vec : Vec) (code : Word) (x : Machine) :
    (interruptReturn trap vec code x).gregs .rsp
      = x.gregs .rsp - BitVec.ofNat 64 (8 * (interruptFrame vec code x).length)
        - BitVec.ofNat 64 (8 * dummyWords vec) + 56 := by
  unfold interruptReturn emulateIretq stubExit
  rw [runStub_append, setGreg_gregs_self]
  have hadd : ∀ y : Machine, (runStub y [.addRsp 16]).gregs .rsp = y.gregs .rsp + 16 :=
    fun y => setGreg_gregs_self _ _ _
  rw [hadd, runStub_pops_rsp _ _ (by decide), trap.keeps_rsp, atTrap_rsp]
  simp only [popOrder, List.length_cons, List.length_nil]
  bv_omega

/-! ## The round trip -/

/-- The two lists differ in two vectors. -/
theorem pushesErrorCode_eq_errvec :
    ∀ vec : Vec, vec ≠ 9 → vec ≠ 16 → pushesErrorCode vec = decide (vec ∈ errvec) := by
  intro vec h9 h16
  unfold pushesErrorCode errvec
  rw [decide_eq_decide]
  simp [h9, h16]

/-- The context that the handler should see. -/
def savedContext (vec : Vec) (code : Word) (x : Machine) : InterruptContext where
  rbp := x.gregs .rbp
  rbx := x.gregs .rbx
  r15 := x.gregs .r15
  r14 := x.gregs .r14
  r13 := x.gregs .r13
  r12 := x.gregs .r12
  r11 := x.gregs .r11
  r10 := x.gregs .r10
  r9 := x.gregs .r9
  r8 := x.gregs .r8
  rcx := x.gregs .rcx
  rdx := x.gregs .rdx
  rsi := x.gregs .rsi
  rdi := x.gregs .rdi
  rax := x.gregs .rax
  itnum := BitVec.ofNat 64 vec.val
  errcode := if vec ∈ errvec then code else 0
  rip := x.rip
  cs := getSelector x.st .cs
  rflags := 0
  rsp := x.gregs .rsp
  ss := getSelector x.st .ss

/-- Where the two lists agree, the monitor and the stub complete the frame of
the context between them. -/
theorem trapVector_onStack {vec : Vec} (hagree : pushesErrorCode vec = decide (vec ∈ errvec))
    (code : Word) (x : Machine) :
    OnStack (runStub (branchInterrupt vec code x) (trapVector vec))
      (BitVec.ofNat 64 vec.val :: (if vec ∈ errvec then code else 0) ::
        [x.rip, getSelector x.st .cs, 0, x.gregs .rsp, getSelector x.st .ss]) := by
  have hframe : OnStack (branchInterrupt vec code x) (interruptFrame vec code x) :=
    branchInterrupt_holds vec code x
  unfold interruptFrame at hframe
  unfold trapVector
  by_cases hvec : vec ∈ errvec
  · rw [hagree, decide_eq_true hvec] at hframe
    simp only [hvec, if_true, List.nil_append]
    exact hframe.push _ (by simp [Stack.maxWords])
  · rw [hagree, decide_eq_false hvec] at hframe
    simp only [hvec, if_false]
    have hcode := hframe.push 0 (by simp [Stack.maxWords])
    exact hcode.push _ (by simp [Stack.maxWords])

theorem atTrap_holds {vec : Vec} (hagree : pushesErrorCode vec = decide (vec ∈ errvec))
    (code : Word) (x : Machine) :
    OnStack (atTrap vec code x) (savedContext vec code x).words := by
  have hwords : (savedContext vec code x).words = (pushOrder.map x.gregs).reverse ++
      (BitVec.ofNat 64 vec.val :: (if vec ∈ errvec then code else 0) ::
        [x.rip, getSelector x.st .cs, 0, x.gregs .rsp, getSelector x.st .ss]) := rfl
  have hregs : ∀ r ∈ pushOrder,
      (runStub (branchInterrupt vec code x) (trapVector vec)).gregs r = x.gregs r := by
    intro r hr
    have hne : r ≠ .rsp := by
      intro heq
      subst heq
      revert hr
      decide
    rw [runStub_trapVector_gregs vec _ hne, branchInterrupt_gregs vec code x hne]
  rw [hwords, ← List.map_congr_left hregs, atTrap, stubEntry, runStub_append, runStub_append]
  have hpushed := runStub_pushes pushOrder _ _ (by decide) (by simp [pushOrder, Stack.maxWords])
    (trapVector_onStack hagree code x)
  exact hpushed.movRspRdi

/-- `rdi` is the address of the context. -/
theorem atTrap_rdi (vec : Vec) (code : Word) (x : Machine) :
    (atTrap vec code x).gregs .rdi = (atTrap vec code x).gregs .rsp := by
  unfold atTrap stubEntry
  rw [runStub_append]
  exact (setGreg_gregs_self _ _ _).trans (setGreg_gregs_of_ne _ _ (by decide)).symm

theorem trapContext_eq {vec : Vec} (hagree : pushesErrorCode vec = decide (vec ∈ errvec))
    (code : Word) (x : Machine) : trapContext vec code x = savedContext vec code x := by
  unfold trapContext
  rw [atTrap_rdi]
  exact InterruptContext.read_eq_of_holds (atTrap_holds hagree code x)

/-- The context is still on the stack when the handler returns. -/
theorem handler_holds (trap : ContextHandler) {vec : Vec}
    (hagree : pushesErrorCode vec = decide (vec ∈ errvec)) (code : Word) (x : Machine) :
    OnStack (trap.run (atTrap vec code x)) (savedContext vec code x).words := by
  unfold OnStack
  rw [trap.keeps_rsp, ← atTrap_rdi, ← trapContext_eq hagree, trapContext, ← trap.keeps_context]
  exact InterruptContext.holds_words_read _ _

/-- The stub ends with the stack pointer on the `rip` field. -/
theorem interruptReturn_rip (trap : ContextHandler) {vec : Vec}
    (hagree : pushesErrorCode vec = decide (vec ∈ errvec)) (code : Word) (x : Machine) :
    (interruptReturn trap vec code x).rip = x.rip := by
  have hword := Stack.holds_iff.mp (handler_holds trap hagree code x) 17
    (by simp [InterruptContext.words])
  unfold interruptReturn emulateIretq stubExit
  rw [runStub_append, setGreg_rip]
  have hmem : ∀ y : Machine, (runStub y [.addRsp 16]).mem = y.mem := fun _ => rfl
  have hadd : ∀ y : Machine, (runStub y [.addRsp 16]).gregs .rsp = y.gregs .rsp + 16 :=
    fun _ => setGreg_gregs_self _ _ _
  simp only [hmem, hadd, runStub_pops_mem]
  rw [runStub_pops_rsp _ _ (by decide), BitVec.add_assoc]
  exact hword

/-- The stub pops the registers that it pushed. -/
theorem interruptReturn_gregs_of_ne_rsp (trap : ContextHandler) {vec : Vec}
    (hagree : pushesErrorCode vec = decide (vec ∈ errvec)) (code : Word) (x : Machine) {r : Gpr}
    (hr : r ≠ .rsp) : (interruptReturn trap vec code x).gregs r = x.gregs r := by
  have hpopped : r ∈ popOrder := by
    revert hr
    cases r <;> decide
  have hstack : OnStack (trap.run (atTrap vec code x))
      (popOrder.map x.gregs ++ (savedContext vec code x).words.drop 15) :=
    handler_holds trap hagree code x
  unfold interruptReturn emulateIretq stubExit
  rw [runStub_append, setGreg_gregs_of_ne _ _ hr]
  apply (setGreg_gregs_of_ne _ _ hr).trans
  exact runStub_pops_of_mem x.gregs _ popOrder _ (by decide) hstack r hpopped

/-- Seven words of frame have been pushed where the lists agree. -/
theorem frame_words {vec : Vec} (hagree : pushesErrorCode vec = decide (vec ∈ errvec))
    (code : Word) (x : Machine) : (interruptFrame vec code x).length + dummyWords vec = 7 := by
  unfold interruptFrame dummyWords
  rw [hagree]
  by_cases hvec : vec ∈ errvec <;> simp [hvec]

theorem interruptReturn_rsp_eq_iff (trap : ContextHandler) (vec : Vec) (code : Word)
    (x : Machine) : (interruptReturn trap vec code x).gregs .rsp = x.gregs .rsp ↔
      (interruptFrame vec code x).length + dummyWords vec = 7 := by
  have hframe : (interruptFrame vec code x).length ≤ 6 := by
    unfold interruptFrame
    cases pushesErrorCode vec <;> simp
  have hdummy : dummyWords vec ≤ 2 := by
    unfold dummyWords
    split <;> decide
  rw [interruptReturn_rsp]
  constructor
  · intro h
    bv_omega
  · intro h
    bv_omega

/-- The composition of `branch_interrupt`, the entry stub and `emulate_iretq`
is a round trip for every vector that the two lists of error codes agree on. -/
theorem interruptRoundTrip_iff (trap : ContextHandler) (vec : Vec) (code : Word) (x : Machine) :
    InterruptRoundTrip trap vec code x ↔ vec ≠ 9 ∧ vec ≠ 16 := by
  constructor
  · intro h
    have hwords := (interruptReturn_rsp_eq_iff trap vec code x).mp (congrFun h.gregs .rsp)
    constructor
    · intro heq
      subst heq
      have hframe : (interruptFrame 9 code x).length = 6 := rfl
      rw [hframe] at hwords
      exact absurd hwords (by decide)
    · intro heq
      subst heq
      have hframe : (interruptFrame 16 code x).length = 6 := rfl
      rw [hframe] at hwords
      exact absurd hwords (by decide)
  · intro hex
    rcases hex with ⟨h9, h16⟩
    have hagree := pushesErrorCode_eq_errvec vec h9 h16
    have hcontext := trapContext_eq hagree code x
    refine ⟨interruptReturn_rip trap hagree code x, funext fun r => ?_, ?_, ?_⟩
    · by_cases hr : r = .rsp
      · rw [hr]
        exact (interruptReturn_rsp_eq_iff trap vec code x).mpr (frame_words hagree code x)
      · exact interruptReturn_gregs_of_ne_rsp trap hagree code x hr
    · rw [hcontext]
      rfl
    · rw [hcontext]
      rfl

/-- A handler that returns at once. -/
def idleHandler : ContextHandler where
  run := id
  keeps_rsp := fun _ => rfl
  keeps_context := fun _ => rfl

/-- A guest in 64-bit mode with a full interrupt descriptor table. -/
def longModeGuest : Machine where
  st := { setupState with mode := .bits64, idt := 0x200000, idtSize := 256 }
  gregs := fun _ => 0x300000
  rip := 0x100000
  mem := fun _ => 0

/-- The monitor pushes an error code for vector 16 and the stub pushes a dummy
one on top of it, so the guest comes back with `rsp` eight bytes too low. -/
theorem interruptRoundTrip_not_of_mf :
    (16 : Vec).val < longModeGuest.st.idtSize ∧
      ¬ InterruptRoundTrip idleHandler 16 0 longModeGuest := by
  refine ⟨by decide, fun h => ?_⟩
  have hwords := (interruptReturn_rsp_eq_iff _ _ _ _).mp (congrFun h.gregs .rsp)
  exact absurd hwords (by decide)

end KernelMemVirt.Janus
