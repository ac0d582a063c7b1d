import Mathlib.Data.Fintype.Card
import Mathlib.Data.Finset.Card
import Mathlib.Order.Basic
import Mathlib.Tactic.Common

/-!
# Priority queues that coalesce

A queue holds at most one item for each key.  A push of a key that waits already replaces its
item, and a pop gives the least key that waits.

`Queue` is an implementation with the laws of its two operations, in terms of its content.  What
it does is compared with its history: the list of what each call has done, the newest first.

* `Waiting` says, of a history alone, which item waits for a key.
* `agrees_run`: the content is what waits according to the history.
* `pops_le_pushes`: a key is popped as often as it has been pushed, or less.
* `popped_of_waiting`: as many pops as there are keys pop every item that waits.
-/

namespace CoalescingQueue

variable {σ κ γ : Type}

/-- A call of one of the two operations. -/
inductive Call (κ γ : Type)
  | push (k : κ) (c : γ)
  | pop

/-- What a call has done. -/
inductive Event (κ γ : Type)
  | pushed (k : κ) (c : γ)
  | popped (k : κ) (c : γ)
  | empty

namespace Event

/-- The key that an event is about. -/
def key : Event κ γ → Option κ
  | .pushed k _ => some k
  | .popped k _ => some k
  | .empty => none

variable [DecidableEq κ]

def isPush (k : κ) : Event κ γ → Bool
  | .pushed j _ => j = k
  | _ => false

def isPop (k : κ) : Event κ γ → Bool
  | .popped j _ => j = k
  | _ => false

end Event

/-- `c` is the item of the last push of `k`, and `k` has not been popped since. -/
def Waiting (h : List (Event κ γ)) (k : κ) (c : γ) : Prop :=
  ∃ newer older, h = newer ++ .pushed k c :: older ∧ ∀ e ∈ newer, e.key ≠ some k

theorem waiting_nil (k : κ) (c : γ) : ¬ Waiting ([] : List (Event κ γ)) k c := by
  rintro ⟨newer, older, h, -⟩
  cases newer <;> cases h

/-- The newest event decides about its own key only. -/
theorem waiting_cons {e : Event κ γ} {h : List (Event κ γ)} {k : κ} {c : γ} :
    Waiting (e :: h) k c ↔ e = .pushed k c ∨ e.key ≠ some k ∧ Waiting h k c := by
  constructor
  · rintro ⟨newer, older, heq, hnewer⟩
    cases newer with
    | nil =>
      cases heq
      exact .inl rfl
    | cons e' newer =>
      cases heq
      refine .inr ⟨hnewer e List.mem_cons_self, newer, older, rfl, fun e' he' => ?_⟩
      exact hnewer e' (List.mem_cons_of_mem _ he')
  · rintro (rfl | ⟨hkey, newer, older, rfl, hnewer⟩)
    · exact ⟨[], h, rfl, by simp⟩
    · refine ⟨e :: newer, older, rfl, fun e' he' => ?_⟩
      rcases List.mem_cons.mp he' with rfl | he'
      · exact hkey
      · exact hnewer e' he'

/-- An implementation in the states `σ`. -/
structure Queue (σ κ γ : Type) [LinearOrder κ] where
  content : σ → κ → Option γ
  push : σ → κ → γ → σ
  pop : σ → Option (κ × γ) × σ
  content_push : ∀ s k c, content (push s k c) = Function.update (content s) k (some c)
  pop_none : ∀ s, (pop s).1 = none → (∀ k, content s k = none) ∧ content (pop s).2 = content s
  pop_some : ∀ s k c, (pop s).1 = some (k, c) → content s k = some c ∧
    (∀ j < k, content s j = none) ∧ content (pop s).2 = Function.update (content s) k none

namespace Queue

variable [LinearOrder κ] (q : Queue σ κ γ)

/-- The event of a call, put before a history, and the state after it. -/
def exec (t : List (Event κ γ) × σ) : Call κ γ → List (Event κ γ) × σ
  | .push k c => (.pushed k c :: t.1, q.push t.2 k c)
  | .pop =>
    match (q.pop t.2).1 with
    | some (k, c) => (.popped k c :: t.1, (q.pop t.2).2)
    | none => (.empty :: t.1, (q.pop t.2).2)

/-- The history and the state after a list of calls. -/
def run (calls : List (Call κ γ)) (t : List (Event κ γ) × σ) : List (Event κ γ) × σ :=
  calls.foldl q.exec t

/-- The content is what waits. -/
def Agrees (t : List (Event κ γ) × σ) : Prop :=
  ∀ k c, q.content t.2 k = some c ↔ Waiting t.1 k c

variable {q}

theorem run_invariant {Inv : List (Event κ γ) × σ → Prop}
    (hstep : ∀ t call, Inv t → Inv (q.exec t call)) (calls : List (Call κ γ))
    {t : List (Event κ γ) × σ} (ht : Inv t) : Inv (q.run calls t) := by
  induction calls generalizing t with
  | nil => exact ht
  | cons call calls ih => exact ih (hstep t call ht)

theorem exec_pop_of_some {t : List (Event κ γ) × σ} {k : κ} {c : γ}
    (h : (q.pop t.2).1 = some (k, c)) :
    q.exec t .pop = (.popped k c :: t.1, (q.pop t.2).2) := by
  simp only [exec, h]

theorem exec_pop_of_none {t : List (Event κ γ) × σ} (h : (q.pop t.2).1 = none) :
    q.exec t .pop = (.empty :: t.1, (q.pop t.2).2) := by
  simp only [exec, h]

/-! ## The content and the history -/

theorem agrees_exec {t : List (Event κ γ) × σ} (ht : q.Agrees t) (call : Call κ γ) :
    q.Agrees (q.exec t call) := by
  intro k c
  cases call with
  | push j d =>
    simp only [exec, q.content_push, waiting_cons, Event.pushed.injEq, Event.key]
    by_cases hk : k = j
    · subst hk
      simp [eq_comm]
    · simp [Function.update_of_ne hk, ht k c, Ne.symm hk]
  | pop =>
    cases hpop : (q.pop t.2).1 with
    | none =>
      rw [exec_pop_of_none hpop, (q.pop_none _ hpop).2, ht k c, waiting_cons]
      simp [Event.key]
    | some item =>
      obtain ⟨j, d⟩ := item
      rw [exec_pop_of_some hpop, (q.pop_some _ j d hpop).2.2, waiting_cons]
      by_cases hk : k = j
      · subst hk
        simp [Event.key]
      · simp [Event.key, Function.update_of_ne hk, ht k c, Ne.symm hk]

theorem agrees_run (calls : List (Call κ γ)) {t : List (Event κ γ) × σ} (ht : q.Agrees t) :
    q.Agrees (q.run calls t) := by
  apply run_invariant _ calls ht
  exact fun _ call h => agrees_exec h call

section Agrees

variable {t : List (Event κ γ) × σ} (ht : q.Agrees t)
include ht

/-- A pop gives something exactly if something waits. -/
theorem pop_isSome_iff : (q.pop t.2).1.isSome ↔ ∃ k c, Waiting t.1 k c := by
  cases hpop : (q.pop t.2).1 with
  | none =>
    refine iff_of_false (by simp) ?_
    rintro ⟨k, c, hwait⟩
    have hk := (q.pop_none _ hpop).1 k
    rw [(ht k c).mpr hwait] at hk
    cases hk
  | some item => exact iff_of_true rfl ⟨item.1, item.2, (ht _ _).mp (q.pop_some _ _ _ hpop).1⟩

/-- It gives the least key that waits, with its item. -/
theorem pop_eq_some_iff (k : κ) (c : γ) :
    (q.pop t.2).1 = some (k, c) ↔ Waiting t.1 k c ∧ ∀ j < k, ∀ d, ¬ Waiting t.1 j d := by
  have hsound : ∀ j d, (q.pop t.2).1 = some (j, d) →
      Waiting t.1 j d ∧ ∀ i < j, ∀ e, ¬ Waiting t.1 i e := by
    intro j d hpop
    obtain ⟨hcontent, hleast, -⟩ := q.pop_some _ j d hpop
    refine ⟨(ht j d).mp hcontent, fun i hi e hwait => ?_⟩
    have hnone := hleast i hi
    rw [(ht i e).mpr hwait] at hnone
    cases hnone
  refine ⟨hsound k c, ?_⟩
  rintro ⟨hwait, hleast⟩
  obtain ⟨⟨j, d⟩, hpop⟩ := Option.isSome_iff_exists.mp ((pop_isSome_iff ht).mpr ⟨k, c, hwait⟩)
  obtain ⟨hj, hjleast⟩ := hsound j d hpop
  have hjk : j = k := by
    rcases lt_trichotomy j k with hlt | heq | hgt
    · exact absurd hj (hleast j hlt d)
    · exact heq
    · exact absurd hwait (hjleast k hgt c)
  subst hjk
  have hcd : some c = some d := ((ht j c).mpr hwait).symm.trans ((ht j d).mpr hj)
  rw [hpop, Option.some.inj hcd]

end Agrees

/-! ## Counts -/

/-- A key that waits has been pushed once more. -/
def Balanced (q : Queue σ κ γ) (k : κ) (t : List (Event κ γ) × σ) : Prop :=
  t.1.countP (Event.isPop k) + (if (q.content t.2 k).isSome then 1 else 0) ≤
    t.1.countP (Event.isPush k)

theorem balanced_exec {k : κ} {t : List (Event κ γ) × σ} (ht : q.Balanced k t)
    (call : Call κ γ) : q.Balanced k (q.exec t call) := by
  unfold Balanced at ht ⊢
  cases call with
  | push j d =>
    simp only [exec, q.content_push, List.countP_cons, Event.isPop, Event.isPush,
      decide_eq_true_eq]
    by_cases hk : j = k
    · subst hk
      split at ht <;> simp <;> omega
    · simpa [hk, Function.update_of_ne (Ne.symm hk)] using ht
  | pop =>
    cases hpop : (q.pop t.2).1 with
    | none =>
      rw [exec_pop_of_none hpop, (q.pop_none _ hpop).2]
      simpa [List.countP_cons, Event.isPop, Event.isPush] using ht
    | some item =>
      obtain ⟨j, d⟩ := item
      obtain ⟨hcontent, -, hrest⟩ := q.pop_some _ j d hpop
      rw [exec_pop_of_some hpop, hrest]
      simp only [List.countP_cons, Event.isPop, Event.isPush, decide_eq_true_eq]
      by_cases hk : j = k
      · subst hk
        simpa [hcontent] using ht
      · simpa [hk, Function.update_of_ne (Ne.symm hk)] using ht

/-- No key is popped more often than it has been pushed. -/
theorem pops_le_pushes (calls : List (Call κ γ)) {s : σ} (hs : ∀ k, q.content s k = none)
    (k : κ) : (q.run calls ([], s)).1.countP (Event.isPop k) ≤
      (q.run calls ([], s)).1.countP (Event.isPush k) := by
  have hinit : q.Balanced k ([], s) := by simp [Balanced, hs]
  have hrun : q.Balanced k (q.run calls ([], s)) := by
    apply run_invariant _ calls hinit
    exact fun _ call h => balanced_exec h call
  unfold Balanced at hrun
  omega

/-! ## Pops alone -/

/-- A history only grows. -/
theorem mem_run {calls : List (Call κ γ)} {t : List (Event κ γ) × σ} {e : Event κ γ}
    (he : e ∈ t.1) : e ∈ (q.run calls t).1 := by
  refine run_invariant (fun t call (h : e ∈ t.1) => ?_) calls he
  cases call with
  | push k c => exact List.mem_cons_of_mem _ h
  | pop =>
    cases hpop : (q.pop t.2).1 with
    | none =>
      rw [exec_pop_of_none hpop]
      exact List.mem_cons_of_mem _ h
    | some item =>
      rw [exec_pop_of_some hpop]
      exact List.mem_cons_of_mem _ h

variable [Fintype κ]

/-- The keys that wait. -/
def keys (q : Queue σ κ γ) (s : σ) : Finset κ := {k | (q.content s k).isSome}

theorem mem_keys {s : σ} {k : κ} : k ∈ q.keys s ↔ (q.content s k).isSome := by
  simp [keys]

/-- A pop takes one key away. -/
theorem keys_pop {s : σ} {k : κ} {c : γ} (h : (q.pop s).1 = some (k, c)) :
    q.keys (q.pop s).2 = (q.keys s).erase k := by
  ext j
  rw [Finset.mem_erase, mem_keys, mem_keys, (q.pop_some _ _ _ h).2.2]
  by_cases hj : j = k
  · subst hj
    simp
  · simp [hj]

/-- As many pops as there are keys pop every item. -/
theorem popped_of_content : ∀ (n : Nat) (t : List (Event κ γ) × σ), (q.keys t.2).card ≤ n →
    ∀ k c, q.content t.2 k = some c →
      .popped k c ∈ (q.run (List.replicate n .pop) t).1 := by
  intro n
  induction n with
  | zero =>
    intro t hcard k c hcontent
    have hmem : k ∈ q.keys t.2 := mem_keys.mpr (by rw [hcontent]; rfl)
    rw [Finset.card_eq_zero.mp (Nat.le_zero.mp hcard)] at hmem
    exact absurd hmem (Finset.notMem_empty k)
  | succ n ih =>
    intro t hcard k c hcontent
    rw [List.replicate_succ]
    change _ ∈ (q.run (List.replicate n .pop) (q.exec t .pop)).1
    cases hpop : (q.pop t.2).1 with
    | none =>
      rw [(q.pop_none _ hpop).1 k] at hcontent
      cases hcontent
    | some item =>
      obtain ⟨j, d⟩ := item
      obtain ⟨hj, -, hrest⟩ := q.pop_some _ j d hpop
      rw [exec_pop_of_some hpop]
      by_cases hk : k = j
      · subst hk
        rw [hcontent] at hj
        cases hj
        exact mem_run List.mem_cons_self
      · refine ih _ ?_ k c ?_
        · have hmem : j ∈ q.keys t.2 := mem_keys.mpr (by rw [hj]; rfl)
          rw [keys_pop hpop, Finset.card_erase_of_mem hmem]
          omega
        · rw [hrest, Function.update_of_ne hk]
          exact hcontent

/-- The same for what waits according to the history. -/
theorem popped_of_waiting {t : List (Event κ γ) × σ} (ht : q.Agrees t) {n : Nat}
    (hn : (q.keys t.2).card ≤ n) {k : κ} {c : γ} (hwait : Waiting t.1 k c) :
    .popped k c ∈ (q.run (List.replicate n .pop) ([], t.2)).1 :=
  popped_of_content n ([], t.2) hn k c ((ht k c).mpr hwait)

end Queue

end CoalescingQueue
