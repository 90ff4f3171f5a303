import Mathlib.Data.Nat.Notation
import Mathlib.Logic.Function.Basic
import Mathlib.Order.RelClasses

/-!
# Systems of atomic steps

A system is a type of states, its initial states and one partial step function: `step s a` is the
state after the atomic step `a`, `none` if `a` is not possible in `s`. A proof over all
interleavings is an inductive invariant. Each notion takes a condition `C` on the steps (on the
state before the step and on its label), so that a result can be about the runs whose steps all
meet `C`; `Sys.free` is the condition that every step meets.

* `Sys.Steps C s t`: a run from `s` to `t`; `Sys.Reach C s`: a run from an initial state to `s`.
* `Sys.Inductive C I`: `I` holds initially and each step that meets `C` keeps it.
* `Sys.exists_goal`: a measure that can always be lowered.
* `Sys.runBy C s as`: the state after the labels `as`, computed; `none` if a label is not possible
  or does not meet `C`.
* `update_cases`: a map of the threads after one of them moved.
-/

namespace Interleave

/-- A system: its initial states and its atomic steps (module doc). -/
structure Sys (σ α : Type) where
  init : σ → Prop
  step : σ → α → Option σ

namespace Sys

variable {σ α : Type} (S : Sys σ α)

/-- The condition that every step meets. -/
def free : σ → α → Prop := fun _ _ => True

instance : ∀ (s : σ) (a : α), Decidable (free s a) := fun _ _ => .isTrue trivial

/-- A run from `s` to `t` whose steps all meet `C`. -/
inductive Steps (C : σ → α → Prop) (s : σ) : σ → Prop
  | refl : Steps C s s
  | tail {t u : σ} (a : α) : Steps C s t → C t a → S.step t a = some u → Steps C s u

/-- The states that a run whose steps all meet `C` reaches. -/
def Reach (C : σ → α → Prop) (s : σ) : Prop := ∃ s₀, S.init s₀ ∧ S.Steps C s₀ s

/-- An inductive invariant of the runs whose steps all meet `C`. -/
structure Inductive (C : σ → α → Prop) (I : σ → Prop) : Prop where
  init : ∀ s, S.init s → I s
  step : ∀ s a s', I s → C s a → S.step s a = some s' → I s'

/-- The state after the labels `as`, if each is possible and meets `C`. -/
def runBy (C : σ → α → Prop) [∀ s a, Decidable (C s a)] (s : σ) : List α → Option σ
  | [] => some s
  | a :: as => if C s a then (S.step s a).bind fun s' => runBy C s' as else none

variable {S} {C D : σ → α → Prop} {I J : σ → Prop} {s t u : σ}

theorem Steps.head {a : α} (hc : C s a) (hs : S.step s a = some t) (h : S.Steps C t u) :
    S.Steps C s u := by
  induction h with
  | refl => exact .tail a .refl hc hs
  | tail b _ hc' hs' ih => exact .tail b ih hc' hs'

theorem Steps.trans (h : S.Steps C s t) (h' : S.Steps C t u) : S.Steps C s u := by
  induction h' with
  | refl => exact h
  | tail a _ hc hs ih => exact .tail a ih hc hs

/-- What each step keeps, a run keeps. -/
theorem Steps.keeps (hI : ∀ s a s', I s → C s a → S.step s a = some s' → I s')
    (h : S.Steps C s t) (hs : I s) : I t := by
  induction h with
  | refl => exact hs
  | tail a _ hc hst ih => exact hI _ a _ ih hc hst

theorem Steps.mono (hCD : ∀ s a, C s a → D s a) (h : S.Steps C s t) : S.Steps D s t := by
  induction h with
  | refl => exact .refl
  | tail a _ hc hst ih => exact .tail a ih (hCD _ a hc) hst

theorem Reach.mono (hCD : ∀ s a, C s a → D s a) (h : S.Reach C s) : S.Reach D s :=
  let ⟨s₀, h₀, hs⟩ := h
  ⟨s₀, h₀, hs.mono hCD⟩

/-- A run whose steps meet a condition is a run. -/
theorem Reach.toFree (h : S.Reach C s) : S.Reach free s := h.mono fun _ _ _ => trivial

theorem Reach.next {a : α} (h : S.Reach C s) (hc : C s a) (hs : S.step s a = some t) :
    S.Reach C t :=
  let ⟨s₀, h₀, hr⟩ := h
  ⟨s₀, h₀, .tail a hr hc hs⟩

theorem Inductive.reach (h : S.Inductive C I) (hr : S.Reach C s) : I s :=
  let ⟨_, h₀, hs⟩ := hr
  hs.keeps h.step (h.init _ h₀)

/-- A run whose steps meet `D` in the states of an invariant is a run that meets `D`. -/
theorem Inductive.reach_mono (h : S.Inductive C I) (hCD : ∀ s a, I s → C s a → D s a)
    (hr : S.Reach C s) : S.Reach D s := by
  obtain ⟨s₀, h₀, hr⟩ := hr
  refine ⟨s₀, h₀, ?_⟩
  induction hr with
  | refl => exact .refl
  | tail a hr hc hst ih => exact .tail a ih (hCD _ a (h.reach ⟨s₀, h₀, hr⟩) hc) hst

/-- An invariant whose steps are proved with the help of an invariant `I`. -/
theorem Inductive.and (h : S.Inductive C I) (hinit : ∀ s, S.init s → J s)
    (hstep : ∀ s a s', I s → J s → C s a → S.step s a = some s' → J s') :
    S.Inductive C fun s => I s ∧ J s :=
  ⟨fun s hs => ⟨h.init s hs, hinit s hs⟩,
    fun s a s' hij hc hst => ⟨h.step s a s' hij.1 hc hst, hstep s a s' hij.1 hij.2 hc hst⟩⟩

theorem Inductive.both (h : S.Inductive C I) (h' : S.Inductive C J) :
    S.Inductive C fun s => I s ∧ J s :=
  h.and h'.init fun s a s' _ hj hc hst => h'.step s a s' hj hc hst

theorem Inductive.mono (hCD : ∀ s a, C s a → D s a) (h : S.Inductive D I) : S.Inductive C I :=
  ⟨h.init, fun s a s' hi hc => h.step s a s' hi (hCD s a hc)⟩

/-- If a run that lowers a measure is possible wherever the goal is not reached, a run reaches
it. -/
theorem exists_goal {β : Type} [LT β] [WellFoundedLT β] {G : σ → Prop} (m : σ → β)
    (hI : ∀ s a s', I s → C s a → S.step s a = some s' → I s')
    (hm : ∀ s, I s → ¬ G s → ∃ s', S.Steps C s s' ∧ m s' < m s) (hs : I s) :
    ∃ t, S.Steps C s t ∧ G t := by
  induction hn : m s using WellFoundedLT.induction generalizing s with
  | _ n ih =>
    by_cases hg : G s
    · exact ⟨s, .refl, hg⟩
    · obtain ⟨s', hst, hlt⟩ := hm s hs hg
      obtain ⟨t, ht, hgt⟩ := ih (m s') (hn ▸ hlt) (hst.keeps hI hs) rfl
      exact ⟨t, hst.trans ht, hgt⟩

section Run

variable [∀ s a, Decidable (C s a)]

/-- A computed run is a run. -/
theorem steps_of_runBy {as : List α} (h : S.runBy C s as = some t) : S.Steps C s t := by
  induction as generalizing s with
  | nil => cases h; exact .refl
  | cons a as ih =>
    unfold runBy at h
    split at h
    · rename_i hc
      obtain ⟨s', hs', ht⟩ := Option.bind_eq_some_iff.mp h
      exact (ih ht).head hc hs'
    · cases h

/-- A computed run to a state that passes the test `p`. -/
theorem exists_of_runBy (as : List α) {p : σ → Bool} (h : (S.runBy C s as).any p = true) :
    ∃ t, S.Steps C s t ∧ p t = true := by
  cases ht : S.runBy C s as with
  | none => rw [ht] at h; cases h
  | some t => exact ⟨t, steps_of_runBy ht, by simpa [ht] using h⟩

end Run

end Sys

/-- Where thread `u` is after thread `t` moved to `x`. -/
theorem update_cases {ω β : Type} [DecidableEq ω] {f : ω → β} {t u : ω} {x y : β}
    (h : Function.update f t x u = y) : (u = t ∧ x = y) ∨ (u ≠ t ∧ f u = y) := by
  by_cases hut : u = t
  · subst hut
    rw [Function.update_self] at h
    exact .inl ⟨rfl, h⟩
  · rw [Function.update_of_ne hut] at h
    exact .inr ⟨hut, h⟩

end Interleave
