import DdgServer.Lib.Count
import Mathlib.Data.List.Count
import Mathlib.Data.List.Perm.Basic

/-!
# Pools of work

What a work queue with workers is for, with nothing about how it is run: a pool has queued items,
at most one item with each worker, and finished items, and its moves pass items on.

* `Pool.places p t`: how often the item `t` is in the pool.
* `Move.places`: only adding an item changes that.
* `Move.eq_one`: what was added once is always in one place.
-/

namespace Interleave

/-- Items queued, in the hands of workers, and done. -/
structure Pool (ω τ : Type) where
  queue : List τ
  held : ω → Option τ
  done : List τ

namespace Pool

variable {ω τ : Type} [DecidableEq ω]

/-- A step of a pool that adds the items `new`. -/
inductive Move (p : Pool ω τ) : List τ → Pool ω τ → Prop
  | stay : Move p [] p
  | add (new : List τ) : Move p new { p with queue := p.queue ++ new }
  /-- Items are finished out of the queue. -/
  | sweep {swept rest : List τ} (h : (swept ++ rest).Perm p.queue) :
    Move p [] { p with queue := rest, done := p.done ++ swept }
  /-- Worker `w` takes `t`, after items are finished out of the queue. -/
  | take {w : ω} {t : τ} {swept rest : List τ} (hw : p.held w = none)
    (h : (t :: swept ++ rest).Perm p.queue) :
    Move p [] { queue := rest, held := Function.update p.held w (some t), done := p.done ++ swept }
  | putBack {w : ω} {t : τ} (hw : p.held w = some t) :
    Move p [] { p with queue := p.queue ++ [t], held := Function.update p.held w none }
  | finish {w : ω} {t : τ} (hw : p.held w = some t) :
    Move p [] { p with held := Function.update p.held w none, done := p.done ++ [t] }

variable [Fintype ω] [DecidableEq τ]

/-- How often `t` is in the hands of a worker. -/
def holders (p : Pool ω τ) (t : τ) : ℕ := ∑ w, (p.held w).toList.count t

/-- How often `t` is in the pool. -/
def places (p : Pool ω τ) (t : τ) : ℕ := p.queue.count t + p.holders t + p.done.count t

theorem holders_update (p : Pool ω τ) (w : ω) (x : Option τ) (t : τ) :
    ∑ u, (Function.update p.held w x u).toList.count t + (p.held w).toList.count t =
      p.holders t + x.toList.count t :=
  sum_update (fun x : Option τ => x.toList.count t) p.held w x

theorem Move.places {p p' : Pool ω τ} {new : List τ} (h : Move p new p') (t : τ) :
    p'.places t = p.places t + new.count t := by
  cases h with
  | stay => rfl
  | add =>
    simp only [Pool.places, holders, List.count_append]
    omega
  | sweep h =>
    have hq := h.count_eq t
    simp only [List.count_append] at hq
    simp only [Pool.places, holders, List.count_append, List.count_nil]
    omega
  | @take w x swept rest hw h =>
    have hq := h.count_eq t
    have hh := p.holders_update w (some x) t
    rw [hw] at hh
    simp only [List.cons_append, List.count_cons, List.count_append] at hq
    simp only [Option.toList_none, Option.toList_some, List.count_cons, List.count_nil,
      Nat.zero_add, Nat.add_zero] at hh
    simp only [Pool.places, holders, List.count_append, List.count_nil] at hh ⊢
    omega
  | @putBack w x hw =>
    have hh := p.holders_update w none t
    rw [hw] at hh
    simp only [Option.toList_none, Option.toList_some, List.count_nil, Nat.add_zero] at hh
    simp only [Pool.places, holders, List.count_append, List.count_nil] at hh ⊢
    omega
  | @finish w x hw =>
    have hh := p.holders_update w none t
    rw [hw] at hh
    simp only [Option.toList_none, Option.toList_some, List.count_nil, Nat.add_zero] at hh
    simp only [Pool.places, holders, List.count_append, List.count_nil] at hh ⊢
    omega

omit [DecidableEq ω] in
/-- An item that is in one place: queued once, with exactly one worker, or done once. -/
theorem eq_one {p : Pool ω τ} {t : τ} (h : p.places t = 1) :
    (p.queue.count t = 1 ∧ (∀ w, p.held w ≠ some t) ∧ p.done.count t = 0) ∨
    (p.queue.count t = 0 ∧ (∃! w, p.held w = some t) ∧ p.done.count t = 0) ∨
    (p.queue.count t = 0 ∧ (∀ w, p.held w ≠ some t) ∧ p.done.count t = 1) := by
  have hpos : ∀ w, p.held w = some t → 0 < (p.held w).toList.count t := by
    intro w hw
    rw [hw]
    simp
  have hle : ∀ w, (p.held w).toList.count t ≤ p.holders t :=
    le_sum fun w => (p.held w).toList.count t
  unfold places at h
  by_cases h₀ : p.holders t = 0
  · have hnone : ∀ w, p.held w ≠ some t := by
      intro w hw
      have := hpos w hw
      have := hle w
      omega
    have : p.queue.count t = 1 ∨ p.done.count t = 1 := by omega
    rcases this with hq | hd
    · exact .inl ⟨hq, hnone, by omega⟩
    · exact .inr (.inr ⟨by omega, hnone, hd⟩)
  · refine .inr (.inl ⟨by omega, ?_, by omega⟩)
    obtain ⟨w, hw⟩ := sum_pos_iff.mp (Nat.pos_of_ne_zero h₀)
    have hheld : p.held w = some t := by
      cases hx : p.held w with
      | none => rw [hx] at hw; simp at hw
      | some x =>
        rw [hx, Option.toList_some, List.count_pos_iff, List.mem_singleton] at hw
        rw [hw]
    refine ⟨w, hheld, fun v hv => ?_⟩
    exact eq_of_sum_le_one (g := fun w => (p.held w).toList.count t) (by
      show p.holders t ≤ 1
      omega) (hpos v hv) hw

end Pool
end Interleave
