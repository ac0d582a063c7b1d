import Mathlib.Tactic.Common

/-!
# Preconditions of programs that may stop

A program changes a state, gives a value, or stops for a reason.  `wp allowed m Q s` says that
the program `m`, started in the state `s`, gives a value in a state with `Q`, or stops for a
reason that is allowed: what is not allowed is shown not to happen.

The rules take a program apart along its text (`wp_bind`, `wp_pure`, `wp_throw`, `wp_get`,
`wp_set`), `wp_mono` puts in what is known of a part, and `wp_forLoop` is the rule of a counting
loop with its invariant.  `of_wp_ok` and `of_wp_error` say what a run of the program does.
-/

namespace StateLogic

variable {σ ε α β : Type} {allowed : ε → Prop}

/-- From `s`, the program gives a value and a state with `Q`, or stops for an allowed reason.
Nothing runs the program: what is known of it comes from the rules. -/
@[irreducible] def wp (allowed : ε → Prop) (m : StateT σ (Except ε) α) (Q : α → σ → Prop)
    (s : σ) : Prop :=
  match m s with
  | .ok (a, s') => Q a s'
  | .error e => allowed e

variable {m : StateT σ (Except ε) α} {f : α → StateT σ (Except ε) β} {Q Q' : α → σ → Prop}
  {R : β → σ → Prop} {s : σ}

@[simp] theorem wp_pure {a : α} : wp allowed (pure a : StateT σ (Except ε) α) Q s ↔ Q a s := by
  rw [wp]
  rfl

@[simp] theorem wp_bind :
    wp allowed (m >>= f) R s ↔ wp allowed m (fun a s' => wp allowed (f a) R s') s := by
  unfold wp
  show (match (m s).bind fun p => f p.1 p.2 with
    | .ok (b, s') => R b s'
    | .error e => allowed e) ↔ _
  cases m s with
  | ok p => rfl
  | error e => rfl

@[simp] theorem wp_throw {e : ε} :
    wp allowed (throw e : StateT σ (Except ε) α) Q s ↔ allowed e := by
  rw [wp]
  rfl

@[simp] theorem wp_get {Q : σ → σ → Prop} :
    wp allowed (get : StateT σ (Except ε) σ) Q s ↔ Q s s := by
  rw [wp]
  rfl

@[simp] theorem wp_set {s' : σ} {Q : PUnit → σ → Prop} :
    wp allowed (set s' : StateT σ (Except ε) PUnit) Q s ↔ Q ⟨⟩ s' := by
  rw [wp]
  rfl

theorem wp_ite {c : Prop} [Decidable c] {m' : StateT σ (Except ε) α} :
    wp allowed (if c then m else m') Q s ↔ if c then wp allowed m Q s else wp allowed m' Q s := by
  split <;> rfl

theorem wp_mono (h : wp allowed m Q s) (hQ : ∀ a s', Q a s' → Q' a s') : wp allowed m Q' s := by
  unfold wp at h ⊢
  split
  · next a s' heq =>
    rw [heq] at h
    exact hQ a s' h
  · next e heq =>
    rw [heq] at h
    exact h

/-- What is known of a run that gives a value. -/
theorem of_wp_ok {a : α} {s' : σ} (h : wp allowed m Q s) (hrun : m s = .ok (a, s')) : Q a s' := by
  rw [wp, hrun] at h
  exact h

/-- What is known of a run that stops. -/
theorem of_wp_error {e : ε} (h : wp allowed m Q s) (hrun : m s = .error e) : allowed e := by
  rw [wp, hrun] at h
  exact h

/-- The body, for `i`, `i + 1` and so on, `turns` times. -/
def forLoop (body : Nat → StateT σ (Except ε) PUnit) : Nat → Nat → StateT σ (Except ε) PUnit
  | 0, _ => pure ⟨⟩
  | turns + 1, i => do
    body i
    forLoop body turns (i + 1)

/-- A loop keeps an invariant that each turn keeps. -/
theorem wp_forLoop {body : Nat → StateT σ (Except ε) PUnit} {turns i : Nat}
    (I : Nat → σ → Prop) (h : I i s)
    (hbody : ∀ j s, i ≤ j → j < i + turns → I j s →
      wp allowed (body j) (fun _ s' => I (j + 1) s') s) :
    wp allowed (forLoop body turns i) (fun _ s' => I (i + turns) s') s := by
  induction turns generalizing i s with
  | zero => exact wp_pure.mpr h
  | succ turns ih =>
    rw [forLoop, wp_bind]
    refine wp_mono (hbody i s (Nat.le_refl i) (by omega) h) fun _ s' hs' => ?_
    have hrest := ih hs' fun j s hlo hhi => hbody j s (by omega) (by omega)
    rwa [show i + 1 + turns = i + (turns + 1) by omega] at hrest

end StateLogic
