import Mathlib.Tactic.Common

/-!
# Walks over records of given lengths

A block holds records one behind the other, and the length of each leads to the next.  `next o` is
the offset behind the record at `o`, and a walk visits the records that start below `stop`.

* `Visits` is the list of the offsets of a walk that ends, and `Reached` an offset of any walk.
* `walk` is the loop; `walk_of_visits` and `visits_of_walk` relate it to the list.
* `Visits.mem_iff` says which offsets are in the list.
* `exists_visits_iff` is the termination: a walk ends exactly if every record has a length.
* `Padded` is the case of records whose sizes are rounded up to multiples of `a`.
-/

namespace RecordWalk

variable {σ : Type} (next : Nat → Nat) (stop : Nat)

/-- The offsets that are visited from `o` on. -/
inductive Visits : Nat → List Nat → Prop
  | done {o : Nat} (h : stop ≤ o) : Visits o []
  | record {o : Nat} {os : List Nat} (h : o < stop) (rest : Visits (next o) os) : Visits o (o :: os)

/-- The offsets that a walk from `first` comes to. -/
inductive Reached (first : Nat) : Nat → Prop
  | first : Reached first first
  | next {o : Nat} (h : Reached first o) (hlt : o < stop) : Reached first (next o)

/-- The loop, for a number of turns. -/
def walk (visit : σ → Nat → σ) : Nat → Nat → σ → Option σ
  | 0, _, _ => none
  | turns + 1, o, s => if o < stop then walk visit turns (next o) (visit s o) else some s

variable {next stop}

theorem walk_of_visits {visit : σ → Nat → σ} {o : Nat} {os : List Nat}
    (h : Visits next stop o os) :
    ∀ {turns : Nat} (s : σ), os.length < turns →
      walk next stop visit turns o s = some (os.foldl visit s) := by
  induction h with
  | done h =>
    intro turns s hturns
    cases turns with
    | zero => cases hturns
    | succ turns => simp [walk, Nat.not_lt.mpr h]
  | record h rest ih =>
    intro turns s hturns
    cases turns with
    | zero => cases hturns
    | succ turns =>
      simp only [List.length_cons] at hturns
      simp only [walk, if_pos h, List.foldl_cons]
      apply ih
      omega

/-- A loop that returns has visited the records. -/
theorem visits_of_walk {visit : σ → Nat → σ} :
    ∀ {turns o : Nat} {s t : σ}, walk next stop visit turns o s = some t →
      ∃ os, Visits next stop o os ∧ t = os.foldl visit s := by
  intro turns
  induction turns with
  | zero =>
    intro o s t h
    cases h
  | succ turns ih =>
    intro o s t h
    unfold walk at h
    split at h
    · next hlt =>
      obtain ⟨os, hvisits, rfl⟩ := ih h
      exact ⟨o :: os, .record hlt hvisits, rfl⟩
    · next hge =>
      cases h
      exact ⟨[], .done (Nat.le_of_not_lt hge), rfl⟩

/-- A walk that ends also ends from every offset it comes to, with the rest of its visits. -/
theorem Visits.suffix_of_reached {first o : Nat} {os : List Nat} (h : Visits next stop first os)
    (hreached : Reached next stop first o) :
    ∃ os', Visits next stop o os' ∧ os' <:+ os := by
  induction hreached with
  | first => exact ⟨os, h, List.suffix_refl os⟩
  | next _ hlt ih =>
    obtain ⟨os', hvisits, hsuffix⟩ := ih
    cases hvisits with
    | done hge => omega
    | record _ rest => exact ⟨_, rest, (List.suffix_cons _ _).trans hsuffix⟩

theorem Visits.of_reached {first o : Nat} {os : List Nat} (h : Visits next stop first os)
    (hreached : Reached next stop first o) : ∃ os', Visits next stop o os' := by
  obtain ⟨os', hvisits, -⟩ := h.suffix_of_reached hreached
  exact ⟨os', hvisits⟩

theorem Visits.reached_of_mem {first start : Nat} {os : List Nat} (h : Visits next stop start os)
    (hstart : Reached next stop first start) :
    ∀ o ∈ os, Reached next stop first o ∧ o < stop := by
  induction h with
  | done _ => simp
  | record hlt _ ih =>
    intro o ho
    rcases List.mem_cons.mp ho with rfl | ho
    · exact ⟨hstart, hlt⟩
    · exact ih (hstart.next hlt) o ho

/-- The visits of a walk that ends are the offsets it comes to, but for the last. -/
theorem Visits.mem_iff {first o : Nat} {os : List Nat} (h : Visits next stop first os) :
    o ∈ os ↔ Reached next stop first o ∧ o < stop := by
  constructor
  · exact h.reached_of_mem .first o
  · rintro ⟨hreached, hlt⟩
    obtain ⟨os', hvisits, hsuffix⟩ := h.suffix_of_reached hreached
    cases hvisits with
    | done hge => omega
    | record _ _ => exact hsuffix.subset List.mem_cons_self

/-- A record of length zero is never left. -/
theorem not_visits_of_fixed {o : Nat} (hlt : o < stop) (hfixed : next o = o) (os : List Nat) :
    ¬ Visits next stop o os := by
  induction os with
  | nil =>
    intro h
    cases h
    omega
  | cons o' os ih =>
    intro h
    cases h with
    | record _ rest => exact ih (hfixed ▸ rest)

/-- A walk ends exactly if every record it comes to has a length. -/
theorem exists_visits_iff (hle : ∀ o, o ≤ next o) (first : Nat) :
    (∃ os, Visits next stop first os) ↔
      ∀ o, Reached next stop first o → o < stop → next o ≠ o := by
  constructor
  · rintro ⟨os, hvisits⟩ o hreached hlt hfixed
    obtain ⟨os', hvisits'⟩ := hvisits.of_reached hreached
    exact not_visits_of_fixed hlt hfixed os' hvisits'
  · intro hprogress
    have hend : ∀ n o, stop - o ≤ n → Reached next stop first o →
        ∃ os, Visits next stop o os := by
      intro n
      induction n with
      | zero =>
        intro o hn _
        exact ⟨[], .done (by omega)⟩
      | succ n ih =>
        intro o hn hreached
        by_cases hlt : o < stop
        · have hne := hprogress o hreached hlt
          have hnext := hle o
          obtain ⟨os, hvisits⟩ := ih (next o) (by omega) (hreached.next hlt)
          exact ⟨o :: os, .record hlt hvisits⟩
        · exact ⟨[], .done (Nat.le_of_not_lt hlt)⟩
    exact hend (stop - first) first (Nat.le_refl _) .first

/-! ## Padding -/

/-- Behind a record of `size o` bytes there is padding, up to a multiple of `a`. -/
def Padded (a : Nat) (size next : Nat → Nat) : Prop :=
  ∀ o, next o = (o + size o + (a - 1)) / a * a

namespace Padded

variable {a : Nat} {size : Nat → Nat}

theorem dvd_next (h : Padded a size next) (o : Nat) : a ∣ next o := by
  rw [h o]
  exact Nat.dvd_mul_left a _

theorem le_next (h : Padded a size next) (ha : 0 < a) (o : Nat) : o + size o ≤ next o := by
  have hround := Nat.lt_div_mul_add (a := o + size o + (a - 1)) ha
  rw [h o]
  omega

/-- A record at a multiple of `a` is left exactly if its size is not 0. -/
theorem lt_next_iff (h : Padded a size next) (ha : 0 < a) {o : Nat} (ho : a ∣ o) :
    o < next o ↔ 0 < size o := by
  constructor
  · intro hlt
    by_contra hsize
    obtain ⟨q, rfl⟩ := ho
    have hfloor : (a * q + (a - 1)) / a = q := by
      rw [Nat.mul_add_div ha, Nat.div_eq_of_lt (by omega), Nat.add_zero]
    rw [h, Nat.eq_zero_of_not_pos hsize, Nat.add_zero, hfloor, Nat.mul_comm] at hlt
    exact Nat.lt_irrefl _ hlt
  · intro hsize
    have hle := h.le_next ha o
    omega

theorem dvd_of_reached (h : Padded a size next) {first o : Nat} (hfirst : a ∣ first)
    (hreached : Reached next stop first o) : a ∣ o := by
  cases hreached with
  | first => exact hfirst
  | next _ _ => exact h.dvd_next _

/-- A walk over such records ends exactly if none of them has size 0. -/
theorem exists_visits_iff (h : Padded a size next) (ha : 0 < a) {first : Nat}
    (hfirst : a ∣ first) :
    (∃ os, Visits next stop first os) ↔
      ∀ o, Reached next stop first o → o < stop → 0 < size o := by
  rw [RecordWalk.exists_visits_iff fun o => Nat.le_trans (Nat.le_add_right _ _) (h.le_next ha o)]
  refine forall_congr' fun o => forall_congr' fun hreached => forall_congr' fun _ => ?_
  rw [← h.lt_next_iff ha (h.dvd_of_reached hfirst hreached)]
  have hle := h.le_next ha o
  omega

end Padded

end RecordWalk
