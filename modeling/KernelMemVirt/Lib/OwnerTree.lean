import Mathlib.Logic.Function.Basic
import Mathlib.Tactic.Common

/-!
# Trees of nodes with one owner each

A forest of nodes that refer to each other through indexed entries, such as page
tables.  `ref d p i` is the node that entry `i` of node `p` refers to when `p` is
at depth `d` of its tree.

A `Role` says what a node is used for: nothing, the root of a tree, or the target
of one entry of one node.  It is a function of the node, so a node that has its
role has one use only.  `Owned` says that every reference agrees with the roles;
it is a condition on single entries, and no path occurs in it.

* `Owned.walk_injective` is what it is for: two paths that reach the same node
  are equal, and start at the same root.
* `Owned.attach`, `Owned.addRoot` and `Owned.mono` are the changes of a forest.
* `Unshared` is the condition on one tree without roles: no node is the target of two
  entries.  `Unshared.walk_injective` says the same of the paths, and `Owned.unshared`
  gives it to each tree of a forest.
* `walk_congr` compares two forests along one path.

A path lists its indices from the last one back to the first.
-/

namespace OwnerTree

variable {P I T : Type}

/-- What a node is used for. -/
inductive Role (P I T : Type)
  | free
  | root (t : T)
  | entry (d : Nat) (p : P) (i : I)

/-- The depth of a node in its tree. -/
def Role.depth : Role P I T → Option Nat
  | .free => none
  | .root _ => some 0
  | .entry d _ _ => some (d + 1)

@[simp] theorem Role.depth_root (t : T) : (Role.root t : Role P I T).depth = some 0 := rfl

@[simp] theorem Role.depth_entry (d : Nat) (p : P) (i : I) :
    (Role.entry d p i : Role P I T).depth = some (d + 1) := rfl

/-- The node at the end of a path. -/
def walk (ref : Nat → P → I → Option P) (r : P) : List I → Option P
  | [] => some r
  | i :: path => (walk ref r path).bind fun p => ref path.length p i

variable {ref ref' : Nat → P → I → Option P} {root : T → Option P} {role : P → Role P I T}

theorem walk_cons_eq_some {r q : P} {i : I} {path : List I} :
    walk ref r (i :: path) = some q ↔
      ∃ p, walk ref r path = some p ∧ ref path.length p i = some q :=
  Option.bind_eq_some_iff

/-- Forests that agree on the entries of a path have the same node at its end. -/
theorem walk_congr {r : P} {path : List I}
    (hsame : ∀ pre i post p, path = post ++ i :: pre → walk ref r pre = some p →
      ref' pre.length p i = ref pre.length p i) :
    walk ref' r path = walk ref r path := by
  induction path with
  | nil => rfl
  | cons i path ih =>
    have hpath : walk ref' r path = walk ref r path := by
      apply ih
      intro pre j post p heq hp
      exact hsame pre j (i :: post) p (by rw [heq, List.cons_append]) hp
    unfold walk
    rw [hpath]
    cases hp : walk ref r path with
    | none => rfl
    | some p => exact hsame path i [] p rfl hp

/-- No node of the tree at `r` is the target of two entries, and none of them leads
back to `r`. -/
structure Unshared (ref : Nat → P → I → Option P) (r : P) : Prop where
  root : ∀ i path, walk ref r (i :: path) ≠ some r
  entry : ∀ i i' path path' q, walk ref r (i :: path) = some q →
    walk ref r (i' :: path') = some q → i = i' ∧ walk ref r path = walk ref r path'

/-- Two paths that reach the same node are equal. -/
theorem Unshared.walk_injective {r : P} (h : Unshared ref r) :
    ∀ {path path' : List I} {q : P}, walk ref r path = some q → walk ref r path' = some q →
      path = path' := by
  intro path
  induction path with
  | nil =>
    intro path' q hq hq'
    obtain rfl : r = q := Option.some.inj hq
    cases path' with
    | nil => rfl
    | cons i' path' => exact absurd hq' (h.root i' path')
  | cons i path ih =>
    intro path' q hq hq'
    cases path' with
    | nil =>
      obtain rfl : r = q := Option.some.inj hq'
      exact absurd hq (h.root i path)
    | cons i' path' =>
      obtain ⟨rfl, hsame⟩ := h.entry i i' path path' q hq hq'
      obtain ⟨p, hp, -⟩ := walk_cons_eq_some.mp hq
      rw [ih hp (hsame.symm.trans hp)]

/-- Every root and every entry agrees with the role of its target. -/
structure Owned (ref : Nat → P → I → Option P) (root : T → Option P) (role : P → Role P I T) :
    Prop where
  root : ∀ t p, root t = some p → role p = .root t
  entry : ∀ d p i q, (role p).depth = some d → ref d p i = some q → role q = .entry d p i

namespace Owned

/-- The role of the node at the end of a path. -/
theorem walk_role (h : Owned ref root role) {t : T} {r : P} (hr : root t = some r) :
    ∀ {path : List I} {q : P}, walk ref r path = some q →
      (role q).depth = some path.length ∧
        match path with
        | [] => role q = .root t
        | i :: pre => ∃ p, walk ref r pre = some p ∧ role q = .entry pre.length p i := by
  intro path
  induction path with
  | nil =>
    intro q hq
    obtain rfl : r = q := Option.some.inj hq
    have hrole := h.root t r hr
    exact ⟨by rw [hrole]; rfl, hrole⟩
  | cons i path ih =>
    intro q hq
    obtain ⟨p, hp, href⟩ := walk_cons_eq_some.mp hq
    have hrole := h.entry path.length p i q (ih hp).1 href
    exact ⟨by rw [hrole]; rfl, p, hp, hrole⟩

/-- A node is reached by one path of one tree at most. -/
theorem walk_injective (h : Owned ref root role) {t t' : T} {r r' : P} (hr : root t = some r)
    (hr' : root t' = some r') :
    ∀ {path path' : List I} {q : P}, walk ref r path = some q → walk ref r' path' = some q →
      t = t' ∧ path = path' := by
  intro path
  induction path with
  | nil =>
    intro path' q hq hq'
    have hrole : role q = .root t := (h.walk_role hr hq).2
    cases path' with
    | nil =>
      have hrole' : role q = .root t' := (h.walk_role hr' hq').2
      exact ⟨Role.root.inj (hrole.symm.trans hrole'), rfl⟩
    | cons i' path' =>
      obtain ⟨p', -, hrole'⟩ := (h.walk_role hr' hq').2
      exact absurd (hrole.symm.trans hrole') (by simp)
  | cons i path ih =>
    intro path' q hq hq'
    obtain ⟨p, hp, hrole⟩ := (h.walk_role hr hq).2
    cases path' with
    | nil =>
      have hrole' : role q = .root t' := (h.walk_role hr' hq').2
      exact absurd (hrole.symm.trans hrole') (by simp)
    | cons i' path' =>
      obtain ⟨p', hp', hrole'⟩ := (h.walk_role hr' hq').2
      obtain ⟨-, rfl, rfl⟩ := Role.entry.inj (hrole.symm.trans hrole')
      obtain ⟨rfl, rfl⟩ := ih hp hp'
      exact ⟨rfl, rfl⟩

/-- No node of a tree is shared. -/
theorem unshared (h : Owned ref root role) {t : T} {r : P} (hr : root t = some r) :
    Unshared ref r where
  root := by
    intro i path hwalk
    have hnil : walk ref r [] = some r := rfl
    exact absurd (h.walk_injective hr hr hwalk hnil).2 (by simp)
  entry := by
    intro i i' path path' q hq hq'
    obtain ⟨rfl, rfl⟩ := List.cons.inj (h.walk_injective hr hr hq hq').2
    exact ⟨rfl, rfl⟩

/-- A forest with fewer references. -/
theorem mono (h : Owned ref root role)
    (hsub : ∀ d p i q, (role p).depth = some d → ref' d p i = some q → ref d p i = some q) :
    Owned ref' root role :=
  ⟨h.root, fun d p i q hd hq => h.entry d p i q hd (hsub d p i q hd hq)⟩

/-- Entry `i` of `p` now refers to `q`, a node that had no use and refers to
nothing. -/
theorem attach [DecidableEq P] (h : Owned ref root role) {d : Nat} {p q : P} {i : I}
    (hp : (role p).depth = some d) (hq : role q = .free)
    (hself : ∀ x, ref' d p i = some x → x = q) (hnew : ∀ j, ref' (d + 1) q j = none)
    (hother : ∀ d' p' i' x, (role p').depth = some d' → p' ≠ p ∨ i' ≠ i →
      ref' d' p' i' = some x → ref d' p' i' = some x) :
    Owned ref' root (Function.update role q (.entry d p i)) := by
  refine ⟨fun t r hr => ?_, fun d' p' i' x hd' hx => ?_⟩
  · have hrole := h.root t r hr
    have hne : r ≠ q := by
      intro heq
      subst heq
      simp [hq] at hrole
    rw [Function.update_of_ne hne, hrole]
  · by_cases hp' : p' = q
    · subst hp'
      rw [Function.update_self, Role.depth_entry, Option.some.injEq] at hd'
      subst hd'
      rw [hnew] at hx
      cases hx
    · rw [Function.update_of_ne hp'] at hd'
      by_cases hentry : p' = p ∧ i' = i
      · rcases hentry with ⟨rfl, rfl⟩
        obtain rfl : d = d' := Option.some.inj (hp.symm.trans hd')
        rw [hself x hx, Function.update_self]
      · have hrole := h.entry d' p' i' x hd'
          (hother d' p' i' x hd' (not_and_or.mp hentry) hx)
        have hne : x ≠ q := by
          intro heq
          subst heq
          simp [hq] at hrole
        rw [Function.update_of_ne hne, hrole]

/-- A new root, which had no use and refers to nothing. -/
theorem addRoot [DecidableEq P] [DecidableEq T] (h : Owned ref root role) {t : T} {q : P}
    (ht : root t = none) (hq : role q = .free) (hnew : ∀ j, ref 0 q j = none) :
    Owned ref (Function.update root t (some q)) (Function.update role q (.root t)) := by
  refine ⟨fun t' r hr => ?_, fun d' p' i' x hd' hx => ?_⟩
  · by_cases heq : t' = t
    · subst heq
      rw [Function.update_self, Option.some.injEq] at hr
      subst hr
      rw [Function.update_self]
    · rw [Function.update_of_ne heq] at hr
      have hrole := h.root t' r hr
      have hne : r ≠ q := by
        intro heq
        subst heq
        simp [hq] at hrole
      rw [Function.update_of_ne hne, hrole]
  · by_cases hp' : p' = q
    · subst hp'
      rw [Function.update_self, Role.depth_root, Option.some.injEq] at hd'
      subst hd'
      rw [hnew] at hx
      cases hx
    · rw [Function.update_of_ne hp'] at hd'
      have hrole := h.entry d' p' i' x hd' hx
      have hne : x ≠ q := by
        intro heq
        subst heq
        simp [hq] at hrole
      rw [Function.update_of_ne hne, hrole]

end Owned

end OwnerTree
