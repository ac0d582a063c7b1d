import KernelMemVirt.Janus.State
import KernelMemVirt.Lib.CoalescingQueue

/-!
# Pending interrupts

`trigger_interrupt` marks a vector and keeps its code, and `pending_interrupt` looks for the first
vector that is marked.  The two arrays are a priority queue that coalesces, `interruptQueue`: a
vector that is triggered twice before it is delivered is delivered once, with the later code.

* `pendingInterrupt_none`, `pendingInterrupt_some`: what the scan finds.
* `deliversInOrder_run` is what holds after every sequence of calls from `setup_state`.
-/

namespace KernelMemVirt.Janus

open CoalescingQueue

/-! ## The scan -/

theorem pendingInterrupt_none {s : GuestState} (h : (pendingInterrupt s).1 = none) :
    (∀ vec, s.itpending vec = false) ∧ (pendingInterrupt s).2 = s := by
  unfold pendingInterrupt at h ⊢
  cases hfind : (List.finRange INTERRUPT_COUNT).find? s.itpending with
  | none =>
    refine ⟨fun vec => ?_, rfl⟩
    have hnot := List.find?_eq_none.mp hfind vec (List.mem_finRange vec)
    simpa using hnot
  | some vec =>
    rw [hfind] at h
    cases h

/-- The first vector that is marked, with its code; its mark is all that changes. -/
theorem pendingInterrupt_some {s : GuestState} {vec : Vec} {code : Word}
    (h : (pendingInterrupt s).1 = some (vec, code)) :
    s.itpending vec = true ∧ s.itcode vec = code ∧ (∀ v < vec, s.itpending v = false) ∧
      (pendingInterrupt s).2 = { s with itpending := Function.update s.itpending vec false } := by
  unfold pendingInterrupt at h ⊢
  cases hfind : (List.finRange INTERRUPT_COUNT).find? s.itpending with
  | none =>
    rw [hfind] at h
    cases h
  | some v =>
    rw [hfind] at h
    cases h
    obtain ⟨hmarked, before, after, hsplit, hbefore⟩ := List.find?_eq_some_iff_append.mp hfind
    refine ⟨hmarked, rfl, fun w hw => ?_, rfl⟩
    have hsorted := List.pairwise_lt_finRange INTERRUPT_COUNT
    have hmem := List.mem_finRange w
    rw [hsplit] at hsorted hmem
    rcases List.mem_append.mp hmem with hmem | hmem
    · simpa using hbefore w hmem
    · rcases List.mem_cons.mp hmem with rfl | hmem
      · exact absurd hw (Nat.lt_irrefl _)
      · have hlt := List.rel_of_pairwise_cons (List.pairwise_append.mp hsorted).2.1 hmem
        exact absurd hw (Nat.not_lt.mpr (Nat.le_of_lt hlt))

/-! ## The queue -/

/-- `itpending` and `itcode` as the content of a queue. -/
def pendingCode (s : GuestState) (vec : Vec) : Option Word :=
  if s.itpending vec then some (s.itcode vec) else none

/-- The two functions are the operations of a priority queue. -/
def interruptQueue : Queue GuestState Vec Word where
  content := pendingCode
  push := GuestState.triggerInterrupt
  pop := pendingInterrupt
  content_push := by
    intro s vec code
    funext v
    by_cases hv : v = vec
    · subst hv
      simp [pendingCode, GuestState.triggerInterrupt]
    · simp [pendingCode, GuestState.triggerInterrupt, hv]
  pop_none := by
    intro s h
    obtain ⟨hnone, hstate⟩ := pendingInterrupt_none h
    exact ⟨fun vec => by simp [pendingCode, hnone], by rw [hstate]⟩
  pop_some := by
    intro s vec code h
    obtain ⟨hmarked, hcode, hleast, hstate⟩ := pendingInterrupt_some h
    refine ⟨by simp [pendingCode, hmarked, hcode], fun v hv => by simp [pendingCode, hleast v hv],
      ?_⟩
    rw [hstate]
    funext v
    by_cases hv : v = vec
    · subst hv
      simp [pendingCode]
    · simp [pendingCode, hv]

/-! ## Histories -/

/-- The history of a sequence of calls from `setup_state`, the newest event first, and the state
after it. -/
def interruptRun (calls : List (Call Vec Word)) : List (Event Vec Word) × GuestState :=
  interruptQueue.run calls ([], setupState)

/-- The number of vectors that are pending. -/
def pendingCount (s : GuestState) : Nat := (Finset.univ.filter (s.itpending · = true)).card

/-- What `pending_interrupt` does in the state `t.2`, in terms of the calls that led to it. -/
structure DeliversInOrder (t : List (Event Vec Word) × GuestState) : Prop where
  /-- it returns 1 exactly if a vector has been triggered since it was last delivered -/
  returns : (pendingInterrupt t.2).1.isSome ↔ ∃ vec code, Waiting t.1 vec code
  /-- it delivers the lowest of them, with the code of its last trigger -/
  delivers : ∀ vec code, (pendingInterrupt t.2).1 = some (vec, code) ↔
    Waiting t.1 vec code ∧ ∀ v < vec, ∀ c, ¬ Waiting t.1 v c
  /-- it clears that vector and changes nothing else -/
  clears : ∀ vec code, (pendingInterrupt t.2).1 = some (vec, code) →
    (pendingInterrupt t.2).2 =
      { t.2 with itpending := Function.update t.2.itpending vec false }
  /-- no vector has been delivered more often than triggered -/
  counted : ∀ vec, t.1.countP (Event.isPop vec) ≤ t.1.countP (Event.isPush vec)
  /-- as many calls as there are pending vectors deliver all of them -/
  drains : ∀ n, pendingCount t.2 ≤ n → ∀ vec code, Waiting t.1 vec code →
    .popped vec code ∈ (interruptQueue.run (List.replicate n .pop) ([], t.2)).1

theorem content_setupState (vec : Vec) : interruptQueue.content setupState vec = none := rfl

theorem agrees_interruptRun (calls : List (Call Vec Word)) :
    interruptQueue.Agrees (interruptRun calls) := by
  refine Queue.agrees_run calls fun vec code => ?_
  rw [content_setupState]
  exact iff_of_false (by simp) (waiting_nil vec code)

theorem card_keys (s : GuestState) : (interruptQueue.keys s).card = pendingCount s := by
  unfold pendingCount
  congr 1
  ext vec
  rw [Queue.mem_keys, Finset.mem_filter]
  change (pendingCode s vec).isSome ↔ _
  cases hmarked : s.itpending vec <;> simp [pendingCode, hmarked]

/-- After every sequence of calls, `pending_interrupt` delivers in order. -/
theorem deliversInOrder_run (calls : List (Call Vec Word)) :
    DeliversInOrder (interruptRun calls) where
  returns := Queue.pop_isSome_iff (agrees_interruptRun calls)
  delivers := Queue.pop_eq_some_iff (agrees_interruptRun calls)
  clears := fun _ _ h => (pendingInterrupt_some h).2.2.2
  counted := Queue.pops_le_pushes calls content_setupState
  drains := by
    intro n hn vec code hwait
    rw [← card_keys] at hn
    exact Queue.popped_of_waiting (agrees_interruptRun calls) hn hwait

/-- Two triggers of a vector are delivered once, behind a lower vector. -/
example : (interruptRun [.push 14 1, .push 13 2, .push 14 3, .pop, .pop, .pop]).1 =
    [.empty, .popped 14 3, .popped 13 2, .pushed 14 3, .pushed 13 2, .pushed 14 1] := by
  rfl

end KernelMemVirt.Janus
