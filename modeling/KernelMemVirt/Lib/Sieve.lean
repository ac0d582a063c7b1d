import Mathlib.Data.List.Sort
import Mathlib.Data.Nat.Prime.Basic

/-!
# Sieves

A sieve over a list: each pass keeps the first `k` entries, and of the others those that none of the
first `k` strikes out.  Then `k` grows by one, until it reaches the end of the list that is left.
The first `skip` entries strike out nothing.

* `pairwise_sift` says that no entry that is left strikes out a later one.
* `mem_sift` says that an entry is left if only itself strikes it out.
* `sift_range` is the sieve of the numbers below a bound by divisibility: the primes are left.
-/

namespace Sieve

section Passes

variable {α : Type} (r : α → α → Prop) [DecidableRel r] (skip : Nat)

/-- The entries that a pass strikes out with. -/
def strikers (k : Nat) (l : List α) : List α := (l.take k).drop skip

/-- One pass. -/
def pass (k : Nat) (l : List α) : List α :=
  l.take k ++ (l.drop k).filter fun x => ∀ d ∈ strikers skip k l, ¬ r d x

/-- The passes from `k` on, at most as many as the first argument says. -/
def sift : Nat → Nat → List α → List α
  | 0, _, l => l
  | turns + 1, k, l => if k < l.length then sift turns (k + 1) (pass r skip k l) else l

variable {r skip} {k : Nat} {l : List α} {x : α}

theorem pass_sublist : (pass r skip k l).Sublist l := by
  have hrest : (pass r skip k l).Sublist (l.take k ++ l.drop k) :=
    (List.Sublist.refl _).append List.filter_sublist
  rwa [List.take_append_drop] at hrest

theorem sift_sublist (turns k : Nat) (l : List α) : (sift r skip turns k l).Sublist l := by
  induction turns generalizing k l with
  | zero => exact List.Sublist.refl l
  | succ turns ih =>
    rw [sift]
    split
    · exact (ih _ _).trans pass_sublist
    · exact List.Sublist.refl l

/-- The first passes do nothing. -/
theorem pass_of_le (hk : k ≤ skip) : pass r skip k l = l := by
  have hnone : strikers skip k l = [] :=
    List.drop_eq_nil_of_le ((List.length_take_le k l).trans hk)
  simp [pass, hnone]

theorem take_pass (hk : k < l.length) : (pass r skip k l).take skip = l.take skip := by
  by_cases hskip : k ≤ skip
  · rw [pass_of_le hskip]
  · have hlen : skip ≤ (l.take k).length := by
      rw [List.length_take]
      omega
    rw [pass, List.take_append_of_le_length hlen, List.take_take, Nat.min_eq_left (by omega)]

/-- The entries that are skipped stay. -/
theorem take_sift (turns k : Nat) (l : List α) :
    (sift r skip turns k l).take skip = l.take skip := by
  induction turns generalizing k l with
  | zero => rfl
  | succ turns ih =>
    rw [sift]
    split
    · rename_i hk
      rw [ih, take_pass hk]
    · rfl

/-! ## Nothing that is left strikes out a later entry -/

/-- The entry that comes next has not been struck out. -/
theorem pairwise_pass (hk : k < l.length)
    (h : (strikers skip k l).Pairwise fun a b => ¬ r a b) :
    (strikers skip (k + 1) (pass r skip k l)).Pairwise fun a b => ¬ r a b := by
  by_cases hskip : k < skip
  · have hnone : strikers skip (k + 1) (pass r skip k l) = [] :=
      List.drop_eq_nil_of_le ((List.length_take_le _ _).trans hskip)
    rw [hnone]
    exact List.Pairwise.nil
  · have hlen : (l.take k).length = k := List.length_take_of_le hk.le
    rw [strikers, pass, List.take_append, hlen, Nat.add_sub_cancel_left,
      List.take_of_length_le (by omega), List.drop_append_of_le_length (by omega)]
    refine List.pairwise_append.mpr ⟨h, ?_, fun d hd y hy => ?_⟩
    · cases (l.drop k).filter fun x => ∀ d ∈ strikers skip k l, ¬ r d x <;> simp
    · have hleft := (List.mem_filter.mp (List.mem_of_mem_take hy)).2
      exact of_decide_eq_true hleft d hd

theorem pairwise_sift (turns : Nat) (h : (strikers skip k l).Pairwise fun a b => ¬ r a b)
    (hturns : l.length ≤ k + turns) :
    ((sift r skip turns k l).drop skip).Pairwise fun a b => ¬ r a b := by
  induction turns generalizing k l with
  | zero =>
    rwa [strikers, List.take_of_length_le (show l.length ≤ k from hturns)] at h
  | succ turns ih =>
    rw [sift]
    split
    · rename_i hk
      have hlen : (pass r skip k l).length ≤ l.length := pass_sublist.length_le
      exact ih (pairwise_pass hk h) (by omega)
    · rename_i hk
      rwa [strikers, List.take_of_length_le (by omega)] at h

/-! ## What is struck out by nothing is left -/

/-- The striking elements are in front of the pass, and so none of them strikes itself out. -/
theorem mem_pass (hnodup : l.Nodup) (hx : x ∈ l)
    (halone : ∀ d ∈ l.drop skip, r d x → d = x) : x ∈ pass r skip k l := by
  rw [← List.take_append_drop k l] at hx hnodup
  rw [pass, List.mem_append]
  refine (List.mem_append.mp hx).imp_right fun hdrop => List.mem_filter.mpr ⟨hdrop, ?_⟩
  refine decide_eq_true fun d hd hstrikes => ?_
  have hbefore : d ∈ l.take k := List.mem_of_mem_drop hd
  obtain rfl := halone d (((List.take_sublist k l).drop skip).subset hd) hstrikes
  exact List.disjoint_of_nodup_append hnodup hbefore hdrop

theorem mem_sift (turns k : Nat) (hnodup : l.Nodup) (hx : x ∈ l)
    (halone : ∀ d ∈ l.drop skip, r d x → d = x) : x ∈ sift r skip turns k l := by
  induction turns generalizing k l with
  | zero => exact hx
  | succ turns ih =>
    rw [sift]
    split
    · have hsub : (pass r skip k l).Sublist l := pass_sublist
      exact ih (k + 1) (hsub.nodup hnodup) (mem_pass hnodup hx halone) fun d hd =>
        halone d ((hsub.drop skip).subset hd)
    · exact hx

end Passes

/-! ## The sieve of the numbers -/

/-- The primes below a bound. -/
def primes (max : Nat) : List Nat := (List.range max).filter Nat.Prime

section Primes

variable {max p d : Nat}

theorem mem_primes : p ∈ primes max ↔ p < max ∧ p.Prime := by
  simp [primes]

theorem mem_drop_range : d ∈ (List.range max).drop 2 ↔ 2 ≤ d ∧ d < max := by
  rw [List.range_eq_range', List.drop_range', List.mem_range'_1]
  omega

theorem take_range (hmax : 2 ≤ max) : (List.range max).take 2 = [0, 1] := by
  obtain ⟨n, rfl⟩ := Nat.exists_eq_add_of_le' hmax
  simp [List.range_eq_range', List.range'_succ]

/-- Of the numbers from 2 on, only itself strikes out a prime. -/
theorem alone_of_prime (hp : p.Prime) : ∀ d ∈ (List.range max).drop 2, d ∣ p → d = p := by
  intro d hd hdvd
  have hd : 2 ≤ d := (mem_drop_range.mp hd).1
  exact (hp.eq_one_or_self_of_dvd d hdvd).resolve_left (by omega)

/-- In a list of increasing numbers, none of which divides a later one, a number is prime if the
primes below it are there. -/
theorem prime_of_pairwise {l : List Nat} (hlt : l.Pairwise (· < ·))
    (hdvd : l.Pairwise fun a b => ¬ a ∣ b) {n : Nat} (hn : n ∈ l) (hn2 : 2 ≤ n)
    (hprimes : ∀ p < n, p.Prime → p ∈ l) : n.Prime := by
  by_contra hnot
  have hmin : n.minFac.Prime := Nat.minFac_prime (by omega)
  have hless : n.minFac < n := (Nat.not_prime_iff_minFac_lt hn2).mp hnot
  obtain ⟨i, hi, hival⟩ := List.getElem_of_mem (hprimes _ hless hmin)
  obtain ⟨j, hj, hjval⟩ := List.getElem_of_mem hn
  have hij : i < j := by
    by_contra hle
    rcases Nat.lt_or_eq_of_le (Nat.le_of_not_lt hle) with hji | rfl
    · have := List.pairwise_iff_getElem.mp hlt j i hj hi hji
      omega
    · omega
  have hstrikes := List.pairwise_iff_getElem.mp hdvd i j hi hj hij
  rw [hival, hjval] at hstrikes
  exact hstrikes n.minFac_dvd

/-- The sieve leaves 0, 1 and the primes. -/
theorem sift_range {turns : Nat} (hmax : 2 ≤ max) (hturns : max ≤ turns) :
    sift (· ∣ ·) 2 turns 0 (List.range max) = 0 :: 1 :: primes max := by
  have hhead : (sift (· ∣ ·) 2 turns 0 (List.range max)).take 2 = [0, 1] :=
    (take_sift turns 0 _).trans (take_range hmax)
  have hpairwise : ((sift (· ∣ ·) 2 turns 0 (List.range max)).drop 2).Pairwise fun a b => ¬ a ∣ b :=
    pairwise_sift turns List.Pairwise.nil (by simpa using hturns)
  have hmem : ∀ p : Nat, p.Prime → p < max → p ∈ sift (· ∣ ·) 2 turns 0 (List.range max) :=
    fun p hp hlt => mem_sift turns 0 List.nodup_range (List.mem_range.mpr hlt) (alone_of_prime hp)
  have hsub : (sift (· ∣ ·) 2 turns 0 (List.range max)).Sublist (List.range max) :=
    sift_sublist turns 0 _
  generalize sift (· ∣ ·) 2 turns 0 (List.range max) = left at *
  rw [← List.take_append_drop 2 left, hhead]
  refine congrArg (0 :: 1 :: ·) ?_
  have hrange : ∀ n ∈ left.drop 2, 2 ≤ n ∧ n < max := fun n hn =>
    mem_drop_range.mp ((hsub.drop 2).subset hn)
  have hprime : ∀ p < max, p.Prime → p ∈ left.drop 2 := by
    intro p hlt hp
    have hleft := hmem p hp hlt
    rw [← List.take_append_drop 2 left, hhead, List.mem_append] at hleft
    refine hleft.resolve_left fun hsmall => ?_
    have := hp.two_le
    simp at hsmall
    omega
  have hlt : (left.drop 2).Pairwise (· < ·) :=
    List.pairwise_lt_range.sublist ((List.drop_sublist 2 left).trans hsub)
  refine hlt.eq_of_mem_iff (List.pairwise_lt_range.filter _) fun n => ?_
  refine ⟨fun hn => mem_primes.mpr ⟨(hrange n hn).2, ?_⟩, fun hn => ?_⟩
  · exact prime_of_pairwise hlt hpairwise hn (hrange n hn).1 fun p hp =>
      hprime p (hp.trans (hrange n hn).2)
  · exact hprime n (mem_primes.mp hn).1 (mem_primes.mp hn).2

end Primes

end Sieve
