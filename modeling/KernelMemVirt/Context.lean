import KernelMemVirt.Lib.Stack
import Mathlib.Tactic.IntervalCases

/-!
# The interrupt context

`struct interrupt_context` of `idt.h`, which the Rackdoll kernel and the Janus
guest share: the registers that the entry stub pushes, the vector and the error
code, and the frame that the processor pushes.
-/

namespace KernelMemVirt

open ByteMem

/-- `struct interrupt_context`, in the order of the addresses of its fields. -/
structure InterruptContext where
  rbp : BitVec 64
  rbx : BitVec 64
  r15 : BitVec 64
  r14 : BitVec 64
  r13 : BitVec 64
  r12 : BitVec 64
  r11 : BitVec 64
  r10 : BitVec 64
  r9 : BitVec 64
  r8 : BitVec 64
  rcx : BitVec 64
  rdx : BitVec 64
  rsi : BitVec 64
  rdi : BitVec 64
  rax : BitVec 64
  itnum : BitVec 64
  errcode : BitVec 64
  rip : BitVec 64
  cs : BitVec 64
  rflags : BitVec 64
  rsp : BitVec 64
  ss : BitVec 64
  deriving DecidableEq

namespace InterruptContext

/-- A context filled with zeros. -/
def zero : InterruptContext where
  rbp := 0
  rbx := 0
  r15 := 0
  r14 := 0
  r13 := 0
  r12 := 0
  r11 := 0
  r10 := 0
  r9 := 0
  r8 := 0
  rcx := 0
  rdx := 0
  rsi := 0
  rdi := 0
  rax := 0
  itnum := 0
  errcode := 0
  rip := 0
  cs := 0
  rflags := 0
  rsp := 0
  ss := 0

/-- The packed words of a context. -/
def words (c : InterruptContext) : List (BitVec 64) :=
  [c.rbp, c.rbx, c.r15, c.r14, c.r13, c.r12, c.r11, c.r10, c.r9, c.r8, c.rcx, c.rdx, c.rsi, c.rdi,
    c.rax, c.itnum, c.errcode, c.rip, c.cs, c.rflags, c.rsp, c.ss]

/-- The context at address `p`. -/
def read (m : Mem) (p : BitVec 64) : InterruptContext :=
  let word (k : Nat) := read64 m (p + BitVec.ofNat 64 (8 * k)).toNat
  { rbp := word 0, rbx := word 1, r15 := word 2, r14 := word 3, r13 := word 4, r12 := word 5
    r11 := word 6, r10 := word 7, r9 := word 8, r8 := word 9, rcx := word 10, rdx := word 11
    rsi := word 12, rdi := word 13, rax := word 14, itnum := word 15, errcode := word 16
    rip := word 17, cs := word 18, rflags := word 19, rsp := word 20, ss := word 21 }

/-- A context read from memory is the stack of its words. -/
theorem holds_words_read (m : Mem) (p : BitVec 64) : Stack.Holds m p (read m p).words := by
  rw [Stack.holds_iff]
  intro i hi
  have hlen : i < 22 := hi
  interval_cases i <;> rfl

theorem words_injective {c c' : InterruptContext} (h : c.words = c'.words) : c = c' := by
  cases c
  cases c'
  simpa [words] using h

/-- The words of a context determine it. -/
theorem read_eq_of_holds {m : Mem} {p : BitVec 64} {c : InterruptContext}
    (h : Stack.Holds m p c.words) : read m p = c :=
  words_injective ((holds_words_read m p).unique rfl h)

end InterruptContext

end KernelMemVirt
