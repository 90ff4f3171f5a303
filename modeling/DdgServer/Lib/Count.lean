import Mathlib.Algebra.BigOperators.Group.Finset.Piecewise
import Mathlib.Algebra.BigOperators.Group.List.Basic
import Mathlib.Algebra.GroupWithZero.Nat
import Mathlib.Algebra.Order.BigOperators.Group.Finset
import Mathlib.Data.Fintype.BigOperators
import Mathlib.Logic.Function.Basic

/-!
# Counting over families whose members change one at a time

An interleaving changes one thread (one entry of a function on a finite type) or one object (one
entry of a list) at a step. A counter that follows a sum over the family then changes by the
difference of that one summand.

* `sum_update`: the sum over the threads after thread `w` moved to `x`.
* `sum_set`: the sum over a list after its entry `i` changed to `x`.
* `sum_pos_iff`, `eq_of_sum_le_one`, `sum_le_card`: what a sum of indicators says about the
  members.
-/

namespace Interleave

open Finset

/-! ## Sums over threads -/

section Threads

variable {ω β : Type} [Fintype ω]

/-- How a sum changes when thread `w` moves from `f w` to `x`. -/
theorem sum_update [DecidableEq ω] (g : β → ℕ) (f : ω → β) (w : ω) (x : β) :
    ∑ u, g (Function.update f w x u) + g (f w) = ∑ u, g (f u) + g x := by
  have hl : ∑ u ∈ univ.erase w, g (Function.update f w x u) = ∑ u ∈ univ.erase w, g (f u) :=
    sum_congr rfl fun u hu => by rw [Function.update_of_ne (ne_of_mem_erase hu)]
  rw [← add_sum_erase univ (fun u => g (Function.update f w x u)) (mem_univ w),
    ← add_sum_erase univ (fun u => g (f u)) (mem_univ w), hl, Function.update_self]
  omega

/-- A sum whose members but one rise by at most `k` each. -/
theorem sum_rise {f g : ω → ℕ} (w : ω) (k : ℕ) (h : ∀ u, u ≠ w → g u ≤ f u + k) :
    ∑ u, g u + f w ≤ ∑ u, f u + g w + k * Fintype.card ω := by
  classical
  have hle : ∑ u ∈ univ.erase w, g u ≤ ∑ u ∈ univ.erase w, (f u + k) :=
    sum_le_sum fun u hu => h u (ne_of_mem_erase hu)
  have hcard : (univ.erase w).card * k ≤ k * Fintype.card ω := by
    rw [Nat.mul_comm]
    exact Nat.mul_le_mul_left k (card_le_univ _)
  rw [sum_add_distrib, sum_const_nat fun _ _ => rfl] at hle
  rw [← add_sum_erase univ g (mem_univ w), ← add_sum_erase univ f (mem_univ w)]
  omega

theorem le_sum (g : ω → ℕ) (w : ω) : g w ≤ ∑ u, g u :=
  single_le_sum (fun _ _ => Nat.zero_le _) (mem_univ w)

theorem sum_pos_iff {g : ω → ℕ} : 0 < ∑ u, g u ↔ ∃ u, 0 < g u := by
  rw [Finset.sum_pos_iff]
  simp

/-- Two members of a sum that is at most one are the same member. -/
theorem eq_of_sum_le_one {g : ω → ℕ} (h : ∑ u, g u ≤ 1) {v w : ω} (hv : 0 < g v) (hw : 0 < g w) :
    v = w := by
  classical
  by_contra hne
  have h2 := sum_le_sum_of_subset (f := g) (subset_univ {v, w})
  rw [sum_pair hne] at h2
  omega

/-- A sum of indicators is at most the number of threads. -/
theorem sum_le_card {g : ω → ℕ} (h : ∀ u, g u ≤ 1) : ∑ u, g u ≤ Fintype.card ω := by
  have := sum_le_sum fun u (_ : u ∈ univ) => h u
  simpa using this

end Threads

/-! ## Sums over a list -/

/-- How a sum over a list changes when its entry `i` changes to `x`. -/
theorem sum_set {β : Type} (g : β → ℕ) {l : List β} {i : ℕ} (hi : i < l.length) (x : β) :
    ((l.set i x).map g).sum + g l[i] = (l.map g).sum + g x := by
  induction l generalizing i with
  | nil => simp at hi
  | cons a l ih =>
    cases i with
    | zero => simp; omega
    | succ i =>
      have := ih (i := i) (by simpa using hi)
      simp only [List.set_cons_succ, List.map_cons, List.sum_cons, List.getElem_cons_succ]
      omega

/-- A sum over a list of summands at most `k`. -/
theorem sum_map_le {β : Type} (g : β → ℕ) (k : ℕ) (h : ∀ b, g b ≤ k) (l : List β) :
    (l.map g).sum ≤ k * l.length := by
  induction l with
  | nil => simp
  | cons a l ih =>
    have := h a
    simp only [List.map_cons, List.sum_cons, List.length_cons, Nat.mul_add]
    omega

end Interleave
