import Mathlib.Tactic.Common

/-!
# Runs of a deterministic machine that may stop

A machine is a partial step function: `step s e` is the state after the event
`e`, or `none` when the machine stops.  `run` folds a list of events.

These rules carry a property of one step to a whole run.

* `run_invariant` is the plain induction: what every step keeps, a run keeps.
* `run_invariant_of_ok` is the same for the runs whose every step meets a
  condition on the event and on the state before it (`RunOk`), and
  `run_progress_of_ok` says that such a run does not stop.
* `runOk_iff_of_ok` compares two such conditions.
* `run_project_of_ok` is for a machine that shows more than another one.
* `run_simulates` carries a simulation relation along a run, towards a machine
  given by a relation (`Trace`).
-/

namespace Transition

variable {σ ε α : Type}

/-- The state after a list of events, or `none` once the machine has stopped. -/
def run (step : σ → ε → Option σ) : σ → List ε → Option σ
  | s, [] => some s
  | s, e :: es => (step s e).bind fun s' => run step s' es

/-- The states after each event of a list, up to the one the machine stops at. -/
def states (step : σ → ε → Option σ) : σ → List ε → List σ
  | _, [] => []
  | s, e :: es =>
    match step s e with
    | some s' => s' :: states step s' es
    | none => []

/-- Every step of the run from `s` meets `ok` in the state it starts from. -/
def RunOk (step : σ → ε → Option σ) (ok : σ → ε → Prop) : σ → List ε → Prop
  | _, [] => True
  | s, e :: es => ok s e ∧ ∀ s', step s e = some s' → RunOk step ok s' es

/-- A run of a machine given by a relation. -/
inductive Trace (next : α → ε → α → Prop) : α → List ε → α → Prop
  | nil (a : α) : Trace next a [] a
  | cons {a a' a'' : α} {e : ε} {es : List ε} (head : next a e a') (tail : Trace next a' es a'') :
      Trace next a (e :: es) a''

variable {step : σ → ε → Option σ} {ok : σ → ε → Prop} {Inv : σ → Prop}

/-- The first step of a run that did not stop. -/
theorem run_cons_eq_some {s t : σ} {e : ε} {es : List ε} (h : run step s (e :: es) = some t) :
    ∃ s', step s e = some s' ∧ run step s' es = some t :=
  Option.bind_eq_some_iff.mp h

theorem run_cons_of_some {s s' : σ} {e : ε} {es : List ε} (h : step s e = some s') :
    run step s (e :: es) = run step s' es := by
  rw [run, h, Option.bind_some]

theorem runOk_cons_of_some {s s' : σ} {e : ε} {es : List ε} (h : step s e = some s') :
    RunOk step ok s (e :: es) ↔ ok s e ∧ RunOk step ok s' es := by
  refine and_congr_right fun _ => ⟨fun hall => hall s' h, fun hrest t ht => ?_⟩
  obtain rfl : s' = t := Option.some.inj (h.symm.trans ht)
  exact hrest

theorem runOk_cons_of_none {s : σ} {e : ε} {es : List ε} (h : step s e = none) :
    RunOk step ok s (e :: es) ↔ ok s e :=
  and_iff_left fun s' hs' => absurd (h.symm.trans hs') (Option.some_ne_none s').symm

instance runOkDecidable [∀ s e, Decidable (ok s e)] :
    ∀ (es : List ε) (s : σ), Decidable (RunOk step ok s es)
  | [], _ => isTrue trivial
  | e :: es, s =>
    match h : step s e with
    | none => decidable_of_iff (ok s e) (runOk_cons_of_none h).symm
    | some s' =>
      have := runOkDecidable es s'
      decidable_of_iff (ok s e ∧ RunOk step ok s' es) (runOk_cons_of_some h).symm

/-- What every allowed step keeps, an allowed run keeps. -/
theorem run_invariant_of_ok
    (hstep : ∀ s e s', Inv s → ok s e → step s e = some s' → Inv s') :
    ∀ (es : List ε) (s t : σ), Inv s → RunOk step ok s es → run step s es = some t → Inv t := by
  intro es
  induction es with
  | nil =>
    intro s t hs _ hrun
    cases hrun
    exact hs
  | cons e es ih =>
    intro s t hs hok hrun
    obtain ⟨s', hs', hrest⟩ := run_cons_eq_some hrun
    exact ih s' t (hstep s e s' hs hok.1 hs') (hok.2 s' hs') hrest

/-- It holds in every state of an allowed run. -/
theorem states_invariant_of_ok
    (hstep : ∀ s e s', Inv s → ok s e → step s e = some s' → Inv s') :
    ∀ (es : List ε) (s : σ), Inv s → RunOk step ok s es → ∀ t ∈ states step s es, Inv t := by
  intro es
  induction es with
  | nil =>
    intro s _ _ t ht
    cases ht
  | cons e es ih =>
    intro s hs hok t ht
    cases hnext : step s e with
    | none => simp [states, hnext] at ht
    | some s' =>
      have hs' := hstep s e s' hs hok.1 hnext
      simp only [states, hnext, List.mem_cons] at ht
      rcases ht with rfl | ht
      · exact hs'
      · exact ih s' hs' (hok.2 s' hnext) t ht

/-- Where a condition is what a step needs to keep a property that was there, it holds at every
step exactly if the property is never lost.  Only the steps from a state with the property
have to keep the invariant. -/
theorem states_iff_of_holds {P : σ → Prop} {Q : σ → ε → Prop}
    (hinv : ∀ s e s', Inv s → P s → ok s e → step s e = some s' → Inv s')
    (hstep : ∀ s e s', Inv s → P s → ok s e → step s e = some s' → (P s' ↔ Q s e)) :
    ∀ (es : List ε) (s t : σ), Inv s → P s → RunOk step ok s es → run step s es = some t →
      ((∀ u ∈ states step s es, P u) ↔ RunOk step Q s es) := by
  intro es
  induction es with
  | nil =>
    intro s t _ _ _ _
    simp [states, RunOk]
  | cons e es ih =>
    intro s t hs hP hok hrun
    obtain ⟨s', hnext, hrest⟩ := run_cons_eq_some hrun
    have hone := hstep s e s' hs hP hok.1 hnext
    have hs' := hinv s e s' hs hP hok.1 hnext
    simp only [states, hnext, List.forall_mem_cons, runOk_cons_of_some hnext]
    constructor
    · rintro ⟨hP', hall⟩
      exact ⟨hone.mp hP', (ih s' t hs' hP' (hok.2 s' hnext) hrest).mp hall⟩
    · rintro ⟨hQ, hall⟩
      have hP' := hone.mpr hQ
      exact ⟨hP', (ih s' t hs' hP' (hok.2 s' hnext) hrest).mpr hall⟩

/-- The same for an invariant that every allowed step keeps. -/
theorem states_iff_of_ok {P : σ → Prop} {Q : σ → ε → Prop}
    (hinv : ∀ s e s', Inv s → ok s e → step s e = some s' → Inv s')
    (hstep : ∀ s e s', Inv s → P s → ok s e → step s e = some s' → (P s' ↔ Q s e)) :
    ∀ (es : List ε) (s t : σ), Inv s → P s → RunOk step ok s es → run step s es = some t →
      ((∀ u ∈ states step s es, P u) ↔ RunOk step Q s es) :=
  states_iff_of_holds (fun s e s' hs _ => hinv s e s' hs) hstep

/-- Where every allowed step can be taken, an allowed run does not stop. -/
theorem run_progress_of_ok
    (hstep : ∀ s e, Inv s → ok s e → ∃ s', step s e = some s' ∧ Inv s') :
    ∀ (es : List ε) (s : σ), Inv s → RunOk step ok s es → ∃ t, run step s es = some t ∧ Inv t := by
  intro es
  induction es with
  | nil => exact fun s hs _ => ⟨s, rfl, hs⟩
  | cons e es ih =>
    intro s hs hok
    obtain ⟨s', hs', hinv⟩ := hstep s e hs hok.1
    obtain ⟨t, ht, hfinal⟩ := ih s' hinv (hok.2 s' hs')
    exact ⟨t, (congrArg (Option.bind · _) hs').trans ht, hfinal⟩

/-- Two conditions that say the same of each allowed step say the same of a run, when
an invariant relates them that the steps that meet them keep. -/
theorem runOk_iff_of_ok {P Q : σ → ε → Prop} (hiff : ∀ s e, Inv s → ok s e → (P s e ↔ Q s e))
    (hkeep : ∀ s e s', Inv s → ok s e → Q s e → step s e = some s' → Inv s') :
    ∀ (es : List ε) (s : σ), Inv s → RunOk step ok s es →
      (RunOk step P s es ↔ RunOk step Q s es) := by
  intro es
  induction es with
  | nil => exact fun _ _ _ => Iff.rfl
  | cons e es ih =>
    intro s hs hok
    refine (and_congr_left' (hiff s e hs hok.1)).trans (and_congr_right fun hQ => ?_)
    refine forall_congr' fun s' => forall_congr' fun hs' => ?_
    exact ih s' (hkeep s e s' hs hok.1 hQ hs') (hok.2 s' hs')

theorem runOk_true (es : List ε) (s : σ) : RunOk step (fun _ _ => True) s es := by
  induction es generalizing s with
  | nil => trivial
  | cons e es ih => exact ⟨trivial, fun s' _ => ih s'⟩

/-- What every step keeps, a run keeps. -/
theorem run_invariant (hstep : ∀ s e s', Inv s → step s e = some s' → Inv s')
    {es : List ε} {s t : σ} (hs : Inv s) (hrun : run step s es = some t) : Inv t :=
  run_invariant_of_ok (fun s e s' hi _ h => hstep s e s' hi h) es s t hs (runOk_true es s) hrun

/-- A simulation of the allowed steps is a simulation of the allowed runs. -/
theorem run_simulates_of_ok {next : α → ε → α → Prop} {R : σ → α → Prop}
    (hstep : ∀ s a e s', R s a → ok s e → step s e = some s' → ∃ a', next a e a' ∧ R s' a') :
    ∀ (es : List ε) (s t : σ) (a : α), R s a → RunOk step ok s es → run step s es = some t →
      ∃ b, Trace next a es b ∧ R t b := by
  intro es
  induction es with
  | nil =>
    intro s t a hR _ hrun
    cases hrun
    exact ⟨a, .nil a, hR⟩
  | cons e es ih =>
    intro s t a hR hok hrun
    obtain ⟨s', hs', hrest⟩ := run_cons_eq_some hrun
    obtain ⟨a', hnext, hR'⟩ := hstep s a e s' hR hok.1 hs'
    obtain ⟨b, htrace, hRb⟩ := ih s' t a' hR' (hok.2 s' hs') hrest
    exact ⟨b, .cons hnext htrace, hRb⟩

/-- Each allowed step is one of another machine, or is not seen there: so is a run. -/
theorem run_project_of_ok {τ δ : Type} {step' : τ → δ → Option τ} {f : σ → τ}
    {proj : ε → Option δ}
    (hkeep : ∀ s e s', Inv s → ok s e → step s e = some s' → Inv s')
    (hseen : ∀ s e s' d, Inv s → ok s e → step s e = some s' → proj e = some d →
      step' (f s) d = some (f s'))
    (hunseen : ∀ s e s', Inv s → ok s e → step s e = some s' → proj e = none → f s' = f s) :
    ∀ (es : List ε) (s t : σ), Inv s → RunOk step ok s es → run step s es = some t →
      run step' (f s) (es.filterMap proj) = some (f t) := by
  intro es
  induction es with
  | nil =>
    intro s t _ _ hrun
    cases hrun
    rfl
  | cons e es ih =>
    intro s t hs hok hrun
    obtain ⟨s', hs', hrest⟩ := run_cons_eq_some hrun
    have htail := ih s' t (hkeep s e s' hs hok.1 hs') (hok.2 s' hs') hrest
    cases hproj : proj e with
    | none =>
      rw [List.filterMap_cons_none hproj, ← hunseen s e s' hs hok.1 hs' hproj]
      exact htail
    | some d =>
      rw [List.filterMap_cons_some hproj, run, hseen s e s' d hs hok.1 hs' hproj]
      exact htail

/-- A simulation of single steps is a simulation of runs. -/
theorem run_simulates {next : α → ε → α → Prop} {R : σ → α → Prop}
    (hstep : ∀ s a e s', R s a → step s e = some s' → ∃ a', next a e a' ∧ R s' a') :
    ∀ (es : List ε) (s t : σ) (a : α), R s a → run step s es = some t →
      ∃ b, Trace next a es b ∧ R t b := by
  intro es
  induction es with
  | nil =>
    intro s t a hR hrun
    cases hrun
    exact ⟨a, .nil a, hR⟩
  | cons e es ih =>
    intro s t a hR hrun
    obtain ⟨s', hs', hrest⟩ := run_cons_eq_some hrun
    obtain ⟨a', hnext, hR'⟩ := hstep s a e s' hR hs'
    obtain ⟨b, htrace, hRb⟩ := ih s' t a' hR' hrest
    exact ⟨b, .cons hnext htrace, hRb⟩

end Transition
