import Mathlib.Logic.Function.Basic
import Mathlib.Logic.Equiv.Basic
import Mathlib.Tactic.Common

/-!
# Pages at frames

A program holds frames and maps pages to them.  Several pages may be at one frame, and what
is stored through one of them is there for the others.

* `PagedSpace` is the state, in which no page is at a frame that is not held.
* `load_store` says which addresses see a store.
* `exchange` is what it is good for to map a page anew: two pages change their contents, and
  no byte is copied (`load_exchange`).
-/

/-- Pages at frames, and what the frames hold that the program has. -/
@[ext]
structure PagedSpace (Page Frame Offset Byte : Type) where
  frame : Page → Option Frame
  data : Frame → Option (Offset → Byte)
  held : ∀ k f, frame k = some f → (data f).isSome

namespace PagedSpace

variable {Page Frame Offset Byte : Type}

/-- What an address holds. -/
def load (a : PagedSpace Page Frame Offset Byte) (k : Page) (o : Offset) : Option Byte :=
  (a.frame k).bind fun f => (a.data f).map fun d => d o

/-- No page and no frame. -/
def empty : PagedSpace Page Frame Offset Byte where
  frame _ := none
  data _ := none
  held _ _ h := nomatch h

section

variable [DecidableEq Frame]

/-- The frame `f` holds `d` now. -/
def hold (a : PagedSpace Page Frame Offset Byte) (f : Frame) (d : Offset → Byte) :
    PagedSpace Page Frame Offset Byte where
  frame := a.frame
  data := Function.update a.data f (some d)
  held k g hg := by
    by_cases heq : g = f
    · rw [heq, Function.update_self]
      rfl
    · rw [Function.update_of_ne heq]
      exact a.held k g hg

theorem isSome_hold (a : PagedSpace Page Frame Offset Byte) (f : Frame) (d : Offset → Byte) :
    ((a.hold f d).data f).isSome = true := by
  unfold hold
  dsimp only
  rw [Function.update_self]
  rfl

/-- The frame `f`, where no page is, is given back. -/
def drop (a : PagedSpace Page Frame Offset Byte) (f : Frame) (h : ∀ k, a.frame k ≠ some f) :
    PagedSpace Page Frame Offset Byte where
  frame := a.frame
  data := Function.update a.data f none
  held k g hg := by
    have hne : g ≠ f := fun heq => h k (heq ▸ hg)
    rw [Function.update_of_ne hne]
    exact a.held k g hg

variable [DecidableEq Offset]

/-- A store. -/
def store (a : PagedSpace Page Frame Offset Byte) (f : Frame) (d : Offset → Byte) (o : Offset)
    (b : Byte) : PagedSpace Page Frame Offset Byte :=
  a.hold f (Function.update d o b)

end

section

variable [DecidableEq Page]

/-- The page `k` is at the frame `f` now. -/
def map (a : PagedSpace Page Frame Offset Byte) (k : Page) (f : Frame) (h : (a.data f).isSome) :
    PagedSpace Page Frame Offset Byte where
  frame := Function.update a.frame k (some f)
  data := a.data
  held k' g hg := by
    by_cases heq : k' = k
    · rw [heq, Function.update_self] at hg
      exact Option.some.inj hg ▸ h
    · rw [Function.update_of_ne heq] at hg
      exact a.held k' g hg

/-- The page `k` is at a frame that the program gets for it. -/
def place [DecidableEq Frame] (a : PagedSpace Page Frame Offset Byte) (k : Page) (f : Frame)
    (d : Offset → Byte) : PagedSpace Page Frame Offset Byte :=
  (a.hold f d).map k f (isSome_hold a f d)

/-- The page `k` is at no frame now. -/
def unmap (a : PagedSpace Page Frame Offset Byte) (k : Page) :
    PagedSpace Page Frame Offset Byte where
  frame := Function.update a.frame k none
  data := a.data
  held k' g hg := by
    by_cases heq : k' = k
    · rw [heq, Function.update_self] at hg
      cases hg
    · rw [Function.update_of_ne heq] at hg
      exact a.held k' g hg

theorem unmap_of_none {a : PagedSpace Page Frame Offset Byte} {k : Page}
    (h : a.frame k = none) : a.unmap k = a :=
  PagedSpace.ext (Function.update_eq_self_iff.mpr h.symm) rfl

end

variable {a : PagedSpace Page Frame Offset Byte} {k k' l : Page} {f g : Frame}
  {d : Offset → Byte} {o o' : Offset} {b : Byte}

theorem load_eq (hf : a.frame k = some f) (hd : a.data f = some d) : a.load k o = some (d o) := by
  unfold load
  rw [hf, Option.bind_some, hd]
  rfl

/-- What an address holds depends on the frame of its page. -/
theorem load_congr {a' : PagedSpace Page Frame Offset Byte} (hframe : a'.frame k' = a.frame k)
    (hdata : a'.data = a.data) : a'.load k' o = a.load k o := by
  unfold load
  rw [hframe, hdata]

/-- A store is seen at the pages of its frame. -/
theorem load_store [DecidableEq Frame] [DecidableEq Offset] (hf : a.frame k = some f)
    (hd : a.data f = some d) :
    (a.store f d o b).load k' o' =
      if a.frame k' = a.frame k ∧ o' = o then some b else a.load k' o' := by
  unfold load store hold
  dsimp only
  cases hg : a.frame k' with
  | none =>
    rw [if_neg]
    · rfl
    · rw [hf]
      exact fun h => nomatch h.1
  | some g =>
    rw [hf, Option.bind_some, Option.bind_some]
    by_cases hfg : g = f
    · subst hfg
      rw [Function.update_self, hd, Option.map_some, Option.map_some]
      by_cases ho : o' = o
      · rw [ho, Function.update_self, if_pos ⟨rfl, rfl⟩]
      · rw [Function.update_of_ne ho, if_neg fun h => ho h.2]
    · rw [Function.update_of_ne hfg, if_neg fun h => hfg (Option.some.inj h.1)]

section

variable [DecidableEq Page]

/-- Two pages change their frames: both are taken away, and come back the other way
round. -/
def exchange (a : PagedSpace Page Frame Offset Byte) (k l : Page) (f g : Frame)
    (hf : (a.data f).isSome) (hg : (a.data g).isSome) : PagedSpace Page Frame Offset Byte :=
  (((a.unmap k).unmap l).map k g hg).map l f hf

/-- The contents of the two pages, and of no other, have changed. -/
theorem load_exchange (hk : a.frame k = some f) (hl : a.frame l = some g)
    (hf : (a.data f).isSome) (hg : (a.data g).isSome) (j : Page) :
    (a.exchange k l f g hf hg).load j o = a.load (Equiv.swap k l j) o := by
  refine load_congr ?_ rfl
  unfold exchange map unmap
  dsimp only
  by_cases hjl : j = l
  · rw [hjl, Function.update_self, Equiv.swap_apply_right, hk]
  · rw [Function.update_of_ne hjl]
    by_cases hjk : j = k
    · rw [hjk, Function.update_self, Equiv.swap_apply_left, hl]
    · rw [Function.update_of_ne hjk, Function.update_of_ne hjl, Function.update_of_ne hjk,
        Equiv.swap_apply_of_ne_of_ne hjk hjl]

end

end PagedSpace
