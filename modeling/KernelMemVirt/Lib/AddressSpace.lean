import Mathlib.Logic.Function.Basic
import Mathlib.Tactic.Common

/-!
# Address spaces over one memory

Several spaces have their addresses at places of one memory.  A `View` is the place of
each address that has one, and `contents view mem` is what the spaces hold then: a memory
of its own for each space.

* `Unaliased` says that no place is at two addresses.  Then a store at a place is a store to
  one address of one space: `Unaliased.contents_update`.
* `Remaps` moves the addresses of a set, in one space, to new places.
  `Remaps.unaliased` keeps the places apart, and `Remaps.contents` is what the spaces hold
  after it.
* `contents_congr` is the frame rule: the contents depend on the places in the view.
-/

namespace AddressSpace

variable {Space Addr Place Byte : Type}

/-- The place of each address. -/
abbrev View (Space Addr Place : Type) := Space → Addr → Option Place

/-- What each space holds. -/
abbrev Contents (Space Addr Byte : Type) := Space → Addr → Option Byte

/-- The contents of the spaces, when the memory is `mem`. -/
def contents (view : View Space Addr Place) (mem : Place → Byte) : Contents Space Addr Byte :=
  fun t a => (view t a).map mem

open Classical in
/-- The addresses of the set `A` in the space `t` get new contents. -/
noncomputable def Contents.assign (c : Contents Space Addr Byte) (t : Space) (A : Addr → Prop)
    (value : Addr → Byte) : Contents Space Addr Byte :=
  fun t' a => if t' = t ∧ A a then some (value a) else c t' a

/-- No place is at two addresses. -/
def Unaliased (view : View Space Addr Place) : Prop :=
  ∀ t t' a a' p, view t a = some p → view t' a' = some p → t = t' ∧ a = a'

/-- The addresses of the set `A` in the space `t` are at new places now. -/
structure Remaps (view view' : View Space Addr Place) (t : Space) (A : Addr → Prop)
    (place : Addr → Place) : Prop where
  moved : ∀ a, A a → view' t a = some (place a)
  other : ∀ t' a, ¬ (t' = t ∧ A a) → view' t' a = view t' a
  inj : ∀ a a', A a → A a' → place a = place a' → a = a'
  fresh : ∀ a, A a → ∀ t' a', view t' a' ≠ some (place a)

variable {view view' : View Space Addr Place} {mem mem' : Place → Byte} {t : Space} {a : Addr}
  {p : Place}

theorem contents_of_view (h : view t a = some p) : contents view mem t a = some (mem p) := by
  unfold contents
  rw [h]
  rfl

theorem contents_eq_none_iff : contents view mem t a = none ↔ view t a = none :=
  Option.map_eq_none_iff

/-- The contents depend on the places in the view. -/
theorem contents_congr (hmem : ∀ t a p, view t a = some p → mem' p = mem p) :
    contents view mem' = contents view mem := by
  funext t a
  exact Option.map_congr fun p hp => hmem t a p hp

namespace Contents

variable {c : Contents Space Addr Byte} {A B : Addr → Prop} {value value' : Addr → Byte}

theorem assign_of_mem (h : A a) : c.assign t A value t a = some (value a) := if_pos ⟨rfl, h⟩

theorem assign_of_not_mem (h : ¬ A a) : c.assign t A value t a = c t a := if_neg fun hin => h hin.2

theorem assign_of_ne {t' : Space} (h : t' ≠ t) : c.assign t A value t' = c t' :=
  funext fun _ => if_neg fun hin => h hin.1

theorem assign_of_empty (h : ∀ a, ¬ A a) : c.assign t A value = c :=
  funext fun _ => funext fun a => if_neg fun hin => h a hin.2

theorem assign_congr (hset : ∀ a, A a ↔ B a) (hvalue : ∀ a, A a → value a = value' a) :
    c.assign t A value = c.assign t B value' := by
  funext t' a
  by_cases hin : t' = t ∧ A a
  · rcases hin with ⟨rfl, ha⟩
    rw [assign_of_mem ha, assign_of_mem ((hset a).mp ha), hvalue a ha]
  · exact (if_neg hin).trans (if_neg fun hin' => hin ⟨hin'.1, (hset a).mpr hin'.2⟩).symm

/-- Two assignments of the same values. -/
theorem assign_assign : (c.assign t A value).assign t B value =
    c.assign t (fun a => A a ∨ B a) value := by
  funext t' a
  by_cases ht : t' = t
  · subst ht
    by_cases hB : B a
    · rw [assign_of_mem hB, assign_of_mem (.inr hB)]
    · rw [assign_of_not_mem hB]
      by_cases hA : A a
      · rw [assign_of_mem hA, assign_of_mem (.inl hA)]
      · rw [assign_of_not_mem hA, assign_of_not_mem (by simp [hA, hB])]
  · rw [assign_of_ne ht, assign_of_ne ht, assign_of_ne ht]

end Contents

/-- A store at the place of an address is a store to this address. -/
theorem Unaliased.contents_update [DecidableEq Place] (h : Unaliased view)
    (hp : view t a = some p) (b : Byte) :
    contents view (Function.update mem p b) =
      (contents view mem).assign t (· = a) fun _ => b := by
  funext t' a'
  unfold contents Contents.assign
  split
  · next heq =>
    rcases heq with ⟨rfl, rfl⟩
    rw [hp, Option.map_some, Function.update_self]
  · next hne =>
    refine Option.map_congr fun p' hp' => Function.update_of_ne (fun heq => ?_) _ _
    subst heq
    exact hne (h t' t a' a p' hp' hp)

namespace Remaps

variable {A : Addr → Prop} {place : Addr → Place}

/-- The new places are apart from each other and from the old ones. -/
theorem unaliased (h : Remaps view view' t A place) (hold : Unaliased view) : Unaliased view' := by
  have hcases : ∀ {s a p}, view' s a = some p →
      s = t ∧ A a ∧ place a = p ∨ view s a = some p := by
    intro s a p hp
    by_cases hin : s = t ∧ A a
    · rcases hin with ⟨rfl, hA⟩
      exact .inl ⟨rfl, hA, Option.some.inj ((h.moved a hA).symm.trans hp)⟩
    · exact .inr ((h.other s a hin).symm.trans hp)
  intro s s' a a' p hp hp'
  rcases hcases hp with ⟨rfl, hA, rfl⟩ | hview
  · rcases hcases hp' with ⟨rfl, hA', heq⟩ | hview'
    · exact ⟨rfl, h.inj a a' hA hA' heq.symm⟩
    · exact absurd hview' (h.fresh a hA s' a')
  · rcases hcases hp' with ⟨rfl, hA', rfl⟩ | hview'
    · exact absurd hview (h.fresh a' hA' s a)
    · exact hold s s' a a' p hview hview'

/-- The contents after it, when the old places keep theirs. -/
theorem contents (h : Remaps view view' t A place)
    (hmem : ∀ t a p, view t a = some p → mem' p = mem p) :
    contents view' mem' = (contents view mem).assign t A fun a => mem' (place a) := by
  funext t' a
  unfold AddressSpace.contents Contents.assign
  split
  · next hin =>
    rcases hin with ⟨rfl, hA⟩
    rw [h.moved a hA, Option.map_some]
  · next hout =>
    rw [h.other t' a hout]
    exact Option.map_congr fun p hp => hmem t' a p hp

end Remaps

end AddressSpace
