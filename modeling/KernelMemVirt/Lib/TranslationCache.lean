import Mathlib.Logic.Function.Basic
import Mathlib.Tactic.Common

/-!
# Caches of a translation

A cache holds the translations of some pages, and an access takes the one of the cache when
there is one.  That a page has no translation is not cached.

* `Agrees` says that no translation of the cache is stale.  `Agrees.lookup`: such a cache
  cannot be seen.
* `Agrees.fill` and `Agrees.evict` are what the cache may do by itself, and `Agrees.move` is a
  change of the translation of a page that is not cached.
* `agrees_iff_of_moved` is the exact condition for a change of the translation of one page.
-/

namespace TranslationCache

variable {Page Entry : Type}

/-- The translations of some pages. -/
abbrev Cache (Page Entry : Type) := Page → Option Entry

/-- No translation of the cache is stale. -/
def Agrees (cache : Cache Page Entry) (walk : Page → Option Entry) : Prop :=
  ∀ k e, cache k = some e → walk k = some e

/-- The translation that an access takes. -/
def lookup (cache : Cache Page Entry) (walk : Page → Option Entry) (k : Page) : Option Entry :=
  (cache k).or (walk k)

variable {cache : Cache Page Entry} {walk walk' : Page → Option Entry} {k : Page} {e : Entry}

/-- A cache that agrees cannot be seen. -/
theorem Agrees.lookup (h : Agrees cache walk) : lookup cache walk = walk := by
  funext k
  unfold TranslationCache.lookup
  cases hk : cache k with
  | none => rfl
  | some e => exact (h k e hk).symm

theorem agrees_empty : Agrees (fun _ => none) walk := fun _ _ h => nomatch h

variable [DecidableEq Page]

/-- The cache takes in a translation. -/
theorem Agrees.fill (h : Agrees cache walk) (hk : walk k = some e) :
    Agrees (Function.update cache k (some e)) walk := by
  intro k' e' hcache
  by_cases heq : k' = k
  · subst heq
    rw [Function.update_self] at hcache
    exact hk.trans hcache
  · rw [Function.update_of_ne heq] at hcache
    exact h k' e' hcache

/-- The cache drops a translation. -/
theorem Agrees.evict (h : Agrees cache walk) (k : Page) :
    Agrees (Function.update cache k none) walk := by
  intro k' e' hcache
  by_cases heq : k' = k
  · subst heq
    rw [Function.update_self] at hcache
    cases hcache
  · rw [Function.update_of_ne heq] at hcache
    exact h k' e' hcache

/-- A page that is not cached may get any translation. -/
theorem Agrees.move (h : Agrees cache walk) (hk : cache k = none) (e : Option Entry) :
    Agrees cache (Function.update walk k e) := by
  intro k' e' hcache
  have hne : k' ≠ k := by
    rintro rfl
    cases hk.symm.trans hcache
  rw [Function.update_of_ne hne]
  exact h k' e' hcache

omit [DecidableEq Page] in
/-- A part of a cache that agrees. -/
theorem Agrees.sub (h : Agrees cache walk) {cache' : Cache Page Entry}
    (hsub : ∀ k e, cache' k = some e → cache k = some e) : Agrees cache' walk :=
  fun k e hcache => h k e (hsub k e hcache)

omit [DecidableEq Page] in
/-- One page has another translation now: the cache agrees as long as it does not hold the
old one. -/
theorem agrees_iff_of_moved (h : Agrees cache walk) (hother : ∀ k', k' ≠ k → walk' k' = walk k')
    (hmoved : walk' k ≠ walk k) : Agrees cache walk' ↔ cache k = none := by
  constructor
  · intro hagrees
    by_contra hcached
    obtain ⟨e, he⟩ := Option.ne_none_iff_exists'.mp hcached
    exact hmoved ((hagrees k e he).trans (h k e he).symm)
  · intro hnone k' e' hcache
    by_cases heq : k' = k
    · subst heq
      cases hnone.symm.trans hcache
    · exact (hother k' heq).trans (h k' e' hcache)

end TranslationCache
