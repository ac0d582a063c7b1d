import KernelMemVirt.Gc.Alloc
import KernelMemVirt.Lib.Ring
import KernelMemVirt.Lib.Transition

/-!
# The list of attached threads

`attach_thread`, `detach_thread` and the list part of `initialise_gc` in `gc.c`.  Every
thread has a descriptor `tls`, and the descriptors of the attached threads are in a
circle through `all_threads`.

The two calls run under `thread_mutex`, so an interleaving is a sequence of calls, each
by some thread.  A `ThreadRun` carries the attached threads in the order in which they
were attached, and all those that ever were.
-/

namespace KernelMemVirt.Gc

open Transition

/-! ## The source -/

/-- A thread descriptor: the static `all_threads`, or the variable `tls` of a thread. -/
inductive Descriptor (T : Type)
  | allThreads
  | tls (thread : T)
  deriving DecidableEq

/-- The fields of the descriptors; `none` is a null pointer. -/
structure ThreadList (T : Type) where
  next : Descriptor T → Option (Descriptor T)
  prev : Descriptor T → Option (Descriptor T)
  topStack : T → Word

namespace ThreadList

variable {T : Type} [DecidableEq T] (s : ThreadList T)

/-- `d->next = p`. -/
def setNext (d : Descriptor T) (p : Option (Descriptor T)) : ThreadList T :=
  { s with next := Function.update s.next d p }

/-- `d->prev = p`. -/
def setPrev (d : Descriptor T) (p : Option (Descriptor T)) : ThreadList T :=
  { s with prev := Function.update s.prev d p }

/-- Static storage, and then the assignment of `initialise_gc` to `all_threads`. -/
def initialise : ThreadList T :=
  let s : ThreadList T := ⟨fun _ => none, fun _ => none, fun _ => 0⟩
  (s.setNext .allThreads (some .allThreads)).setPrev .allThreads (some .allThreads)

/-- `attach_thread`; `none` is a write through a null pointer. -/
def attachThread (t : T) (top : Word) : Option (ThreadList T) :=
  let s := { s with topStack := Function.update s.topStack t top }
  let last := s.prev .allThreads
  let s := s.setPrev (.tls t) last
  last.map fun last =>
    let s := s.setNext last (some (.tls t))
    let s := s.setNext (.tls t) (some .allThreads)
    s.setPrev .allThreads (some (.tls t))

/-- `detach_thread`; `none` is a write through a null pointer. -/
def detachThread (t : T) : Option (ThreadList T) :=
  (s.next (.tls t)).bind fun next =>
    let s := s.setPrev next (s.prev (.tls t))
    (s.prev (.tls t)).map fun prev =>
      let s := s.setNext prev (s.next (.tls t))
      (s.setPrev (.tls t) (some (.tls t))).setNext (.tls t) (some (.tls t))

/-- The descriptors from `all_threads.next` on, as `print_threads` visits them. -/
def visit (fuel : Nat) : Option (List (Descriptor T)) :=
  Ring.visit s.next .allThreads fuel (s.next .allThreads)

end ThreadList

/-! ## Runs -/

/-- A critical section of a thread. -/
inductive ThreadCall (T : Type)
  | attach (thread : T) (top : Word)
  | detach (thread : T)

structure ThreadRun (T : Type) where
  list : ThreadList T
  attached : List T
  known : List T

namespace ThreadRun

variable {T : Type} [DecidableEq T] (s : ThreadRun T)

def init : ThreadRun T := ⟨.initialise, [], []⟩

def step : ThreadCall T → Option (ThreadRun T)
  | .attach t top =>
    (s.list.attachThread t top).map fun list => ⟨list, s.attached ++ [t], t :: s.known⟩
  | .detach t => (s.list.detachThread t).map fun list => ⟨list, s.attached.erase t, s.known⟩

/-- A thread attaches when it is not attached, and detaches when it has attached
before. -/
def Allowed : ThreadCall T → Prop
  | .attach t _ => t ∉ s.attached
  | .detach t => t ∈ s.known

instance (c : ThreadCall T) : Decidable (s.Allowed c) :=
  match c with
  | .attach _ _ => inferInstanceAs (Decidable (_ ∉ _))
  | .detach _ => inferInstanceAs (Decidable (_ ∈ _))

/-- The descriptors of the attached threads. -/
def descriptors : List (Descriptor T) := s.attached.map .tls

/-- The list is the circle of the attached threads, and the other descriptors point to
themselves. -/
structure Sound : Prop where
  once : s.attached.Nodup
  visit : ∀ fuel, s.attached.length < fuel → s.list.visit fuel = some s.descriptors
  /-- On the list, `prev` is the inverse of `next`. -/
  next_prev : ∀ d ∈ .allThreads :: s.descriptors, ∃ d' ∈ .allThreads :: s.descriptors,
    s.list.next d = some d' ∧ s.list.prev d' = some d
  prev_next : ∀ d ∈ .allThreads :: s.descriptors, ∃ d' ∈ .allThreads :: s.descriptors,
    s.list.next d' = some d ∧ s.list.prev d = some d'
  detached : ∀ t ∈ s.known, t ∉ s.attached →
    s.list.next (.tls t) = some (.tls t) ∧ s.list.prev (.tls t) = some (.tls t)
  again : ∀ t ∈ s.known, t ∉ s.attached → s.list.detachThread t = some s.list

/-- The invariant. -/
structure Inv : Prop where
  ring : Ring.IsRing s.list.next s.list.prev .allThreads s.descriptors
  detached : ∀ t ∈ s.known, t ∉ s.attached →
    s.list.next (.tls t) = some (.tls t) ∧ s.list.prev (.tls t) = some (.tls t)

variable {s} {t : T} {top : Word}

omit [DecidableEq T] in
theorem tls_mem_descriptors : .tls t ∈ s.descriptors ↔ t ∈ s.attached :=
  List.mem_map_of_injective fun _ _ heq => Descriptor.tls.inj heq

omit [DecidableEq T] in
/-- A thread that is not attached is not in the circle. -/
theorem tls_notMem (ht : t ∉ s.attached) :
    Descriptor.tls t ∉ Descriptor.allThreads :: s.descriptors := by
  intro hmem
  rcases List.mem_cons.mp hmem with heq | hmem
  · cases heq
  · exact ht (tls_mem_descriptors.mp hmem)

theorem inv_init : (init : ThreadRun T).Inv where
  ring := Ring.IsRing.empty rfl rfl
  detached := fun _ ht => absurd ht List.not_mem_nil

theorem detachThread_self {l : ThreadList T} (hnext : l.next (.tls t) = some (.tls t))
    (hprev : l.prev (.tls t) = some (.tls t)) : l.detachThread t = some l := by
  have hset : l.setPrev (.tls t) (some (.tls t)) = l := by
    unfold ThreadList.setPrev
    rw [← hprev, Function.update_eq_self]
  have hset' : l.setNext (.tls t) (some (.tls t)) = l := by
    unfold ThreadList.setNext
    rw [← hnext, Function.update_eq_self]
  unfold ThreadList.detachThread
  rw [hnext, Option.bind_some, hprev]
  dsimp only
  rw [hset, hprev, Option.map_some, hnext, hset', hset, hset']

theorem Inv.sound (h : s.Inv) : s.Sound where
  once := List.Nodup.of_map Descriptor.tls
    (show (s.attached.map Descriptor.tls).Nodup from (List.nodup_cons.mp h.ring.nodup).2)
  visit := fun fuel hfuel => h.ring.visit (by rw [descriptors, List.length_map]; exact hfuel)
  next_prev := fun _ hd => h.ring.succ hd
  prev_next := fun _ hd => h.ring.pred hd
  detached := h.detached
  again := fun t ht hnot => detachThread_self (h.detached t ht hnot).1 (h.detached t ht hnot).2

/-- The insertion writes to the circle and to the new descriptor, and to no other one outside it. -/
theorem Inv.attach (h : s.Inv) (ht : t ∉ s.attached) :
    ∃ s', s.step (.attach t top) = some s' ∧ s'.Inv := by
  obtain ⟨last, hlast, hprev, hring⟩ := h.ring.insert (tls_notMem ht)
  have hcall : s.list.attachThread t top = some
      { next := Function.update (Function.update s.list.next last (some (.tls t))) (.tls t)
          (some .allThreads)
        prev := Function.update (Function.update s.list.prev (.tls t) (some last)) .allThreads
          (some (.tls t))
        topStack := Function.update s.list.topStack t top } := by
    unfold ThreadList.attachThread
    dsimp only
    rw [hprev]
    rfl
  refine ⟨_, congrArg (Option.map _) hcall, ?_, fun u hu hnot => ?_⟩
  · show Ring.IsRing _ _ _ ((s.attached ++ [t]).map Descriptor.tls)
    rw [List.map_append]
    exact hring
  · have hut : u ≠ t := fun heq => hnot (heq ▸ List.mem_append_right _ List.mem_cons_self)
    have hout : u ∉ s.attached := fun hmem => hnot (List.mem_append_left _ hmem)
    have hne : Descriptor.tls u ≠ .tls t := fun heq => hut (Descriptor.tls.inj heq)
    have hlast' : Descriptor.tls u ≠ last := fun heq => tls_notMem hout (heq ▸ hlast)
    have hhead : Descriptor.tls u ≠ .allThreads := fun heq => nomatch heq
    obtain ⟨hself, hself'⟩ := h.detached u (List.mem_of_ne_of_mem hut hu) hout
    dsimp only
    rw [Function.update_of_ne hne, Function.update_of_ne hlast',
      Function.update_of_ne hhead, Function.update_of_ne hne]
    exact ⟨hself, hself'⟩

theorem Inv.detach (h : s.Inv) (hknown : t ∈ s.known) :
    ∃ s', s.step (.detach t) = some s' ∧ s'.Inv := by
  by_cases ht : t ∈ s.attached
  · obtain ⟨a, ha, b, hb, hat, hbt, hprev, hnext, hring⟩ :=
      h.ring.remove (tls_mem_descriptors.mpr ht)
    have hcall : s.list.detachThread t = some
        { next := Function.update (Function.update s.list.next a (some b)) (.tls t)
            (some (.tls t))
          prev := Function.update (Function.update s.list.prev b (some a)) (.tls t)
            (some (.tls t))
          topStack := s.list.topStack } := by
      unfold ThreadList.detachThread ThreadList.setPrev ThreadList.setNext
      dsimp only
      rw [hnext, Option.bind_some, hprev, Function.update_of_ne hbt.symm, hprev]
      rfl
    refine ⟨_, congrArg (Option.map _) hcall, ?_, fun u hu hnot => ?_⟩
    · show Ring.IsRing _ _ _ ((s.attached.erase t).map Descriptor.tls)
      rw [List.map_erase fun _ _ heq => Descriptor.tls.inj heq]
      exact hring
    · dsimp only
      by_cases hut : u = t
      · rw [hut, Function.update_self, Function.update_self]
        exact ⟨rfl, rfl⟩
      · have hout : u ∉ s.attached := fun hmem => hnot ((List.mem_erase_of_ne hut).mpr hmem)
        have hne : Descriptor.tls u ≠ .tls t := fun heq => hut (Descriptor.tls.inj heq)
        have hua : Descriptor.tls u ≠ a := fun heq => tls_notMem hout (heq ▸ ha)
        have hub : Descriptor.tls u ≠ b := fun heq => tls_notMem hout (heq ▸ hb)
        rw [Function.update_of_ne hne, Function.update_of_ne hua, Function.update_of_ne hne,
          Function.update_of_ne hub]
        exact h.detached u hu hout
  · obtain ⟨hnext, hprev⟩ := h.detached t hknown ht
    refine ⟨_, congrArg (Option.map _) (detachThread_self hnext hprev), ?_⟩
    rw [List.erase_of_not_mem ht]
    exact h

end ThreadRun

/-- For every interleaving of `attach_thread` and `detach_thread` by any threads, the list
holds the attached threads in the order in which they were attached. -/
theorem threads_of_run {T : Type} [DecidableEq T] {es : List (ThreadCall T)}
    (hok : RunOk ThreadRun.step ThreadRun.Allowed ThreadRun.init es) :
    ∃ s, run ThreadRun.step (ThreadRun.init : ThreadRun T) es = some s ∧ s.Sound := by
  have hstep : ∀ (s : ThreadRun T) c, s.Inv → s.Allowed c → ∃ s', s.step c = some s' ∧ s'.Inv := by
    intro s c hs hc
    cases c with
    | attach t top => exact hs.attach hc
    | detach t => exact hs.detach hc
  obtain ⟨s, hs, hinv⟩ := run_progress_of_ok hstep es _ ThreadRun.inv_init hok
  exact ⟨s, hs, hinv.sound⟩

/-- Three threads attach, and the second one detaches twice. -/
theorem threads_of_run_three :
    ∃ s, run ThreadRun.step (ThreadRun.init : ThreadRun Nat)
        [.attach 0 0, .attach 1 0, .attach 2 0, .detach 1, .detach 1] = some s ∧ s.Sound :=
  threads_of_run (by decide)

end KernelMemVirt.Gc
