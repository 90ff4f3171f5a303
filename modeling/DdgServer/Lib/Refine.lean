import DdgServer.Lib.Sys
import Mathlib.Data.Nat.Notation

/-!
# Runs that show what they do

A step of a system may show labels of another system: what it did there, if anything. A run has then
a history, and a map of the states along which each step is what it shows makes a run of one system
a run of the other.

* `Sys.Shows C o s h t`: a run from `s` to `t` with its history `h`.
* `Shows.keeps`: an invariant of the histories and the states.
* `Shows.refines`: the run of the other system; `Shows.maps`: one with the same history.
* `Steps.simulates`: the same for a relation between the states.
* `Shows.length_le`: how much a run shows, if each time a bound sinks.
* `Matches R`: two fallible computations with the same error, or with related results.
-/

namespace Interleave

/-! ## Fallible steps -/

/-- The two fail with the same error, or their results are related. -/
inductive Matches {ε α β : Type} (R : α → β → Prop) : Except ε α → Except ε β → Prop
  | ok {x : α} {y : β} : R x y → Matches R (.ok x) (.ok y)
  | error (e : ε) : Matches R (.error e) (.error e)

namespace Matches

variable {ε α β : Type} {R : α → β → Prop} {x : Except ε α} {y : Except ε β}

theorem elim (h : Matches R x y) :
    (∃ e, x = .error e ∧ y = .error e) ∨ ∃ a b, x = .ok a ∧ y = .ok b ∧ R a b := by
  cases h with
  | ok h => exact .inr ⟨_, _, rfl, rfl, h⟩
  | error e => exact .inl ⟨e, rfl, rfl⟩

end Matches

/-! ## Runs -/

namespace Sys

variable {σ α τ β : Type} (S : Sys σ α)

/-- A run from `s` to `t` whose steps all meet `C`, and what they have shown. -/
inductive Shows (C : σ → α → Prop) (o : σ → α → List β) (s : σ) : List β → σ → Prop
  | refl : Shows C o s [] s
  | tail {h : List β} {t u : σ} (a : α) : Shows C o s h t → C t a → S.step t a = some u →
    Shows C o s (h ++ o t a) u

variable {S} {T : Sys τ β} {C : σ → α → Prop} {D : τ → β → Prop} {I : σ → Prop}
  {o : σ → α → List β} {s t u : σ} {his : List β}

theorem Shows.steps (hr : S.Shows C o s his t) : S.Steps C s t := by
  induction hr with
  | refl => exact .refl
  | tail a _ hc hs ih => exact .tail a ih hc hs

theorem Shows.one {a : α} (hc : C s a) (hs : S.step s a = some t) : S.Shows C o s (o s a) t :=
  .tail a .refl hc hs

theorem Shows.head {a : α} (hc : C s a) (hs : S.step s a = some t) (h : S.Shows C o t his u) :
    S.Shows C o s (o s a ++ his) u := by
  induction h with
  | refl =>
    rw [List.append_nil]
    exact .tail a .refl hc hs
  | tail b _ hc' hs' ih =>
    rw [← List.append_assoc]
    exact .tail b ih hc' hs'

theorem runBy_append [∀ s a, Decidable (D s a)] (x : τ) (as bs : List β) :
    T.runBy D x (as ++ bs) = (T.runBy D x as).bind fun y => T.runBy D y bs := by
  induction as generalizing x with
  | nil => rfl
  | cons a as ih =>
    rw [List.cons_append, runBy, runBy]
    split
    · rw [Option.bind_assoc]
      exact Option.bind_congr fun y _ => ih y
    · rfl

theorem runBy_free_one (x : τ) (a : β) : T.runBy free x [a] = T.step x a := by
  rw [runBy, if_pos (show free x a from trivial)]
  exact Option.bind_fun_some _

theorem Shows.trans {his' : List β} (h : S.Shows C o s his t) (h' : S.Shows C o t his' u) :
    S.Shows C o s (his ++ his') u := by
  induction h' with
  | refl =>
    rw [List.append_nil]
    exact h
  | tail a _ hc hs ih =>
    rw [← List.append_assoc]
    exact .tail a ih hc hs

/-- What each step keeps of a history and the state after it, a run keeps. -/
theorem Shows.keeps {P : List β → σ → Prop}
    (hP : ∀ his s a s', P his s → C s a → S.step s a = some s' → P (his ++ o s a) s')
    (h : S.Shows C o s his t) (hs : P [] s) : P his t := by
  induction h with
  | refl => exact hs
  | tail a _ hc hst ih => exact hP _ _ a _ ih hc hst

/-- If each step shows what a run of the other system between the mapped states shows, so does a
run. -/
theorem Shows.maps {γ : Type} {o : σ → α → List γ} {p : τ → β → List γ} {his : List γ}
    {r : σ → τ}
    (hI : ∀ s a s', I s → C s a → S.step s a = some s' → I s')
    (hr : ∀ s a s', I s → C s a → S.step s a = some s' → T.Shows D p (r s) (o s a) (r s'))
    (h : S.Shows C o s his t) (hs : I s) : T.Shows D p (r s) his (r t) := by
  induction h with
  | refl => exact .refl
  | tail a hrun hc hst ih => exact ih.trans (hr _ a _ (hrun.steps.keeps hI hs) hc hst)

/-- **Refinement.** If each step does to `r s` what it shows, a run does what its history says. -/
theorem Shows.refines [∀ s a, Decidable (D s a)] {r : σ → τ}
    (hI : ∀ s a s', I s → C s a → S.step s a = some s' → I s')
    (hr : ∀ s a s', I s → C s a → S.step s a = some s' →
      T.runBy D (r s) (o s a) = some (r s'))
    (h : S.Shows C o s his t) (hs : I s) : T.runBy D (r s) his = some (r t) := by
  induction h with
  | refl => rfl
  | tail a hrun hc hst ih =>
    rw [runBy_append, ih]
    exact hr _ a _ (hrun.steps.keeps hI hs) hc hst

/-- **Forward simulation.** If each step from related states is matched by a run to a related state,
every run is. -/
theorem Steps.simulates {R : σ → τ → Prop} {x : τ}
    (hR : ∀ s a s' x, R s x → C s a → S.step s a = some s' → ∃ x', T.Steps D x x' ∧ R s' x')
    (h : S.Steps C s t) (hs : R s x) : ∃ y, T.Steps D x y ∧ R t y := by
  induction h with
  | refl => exact ⟨x, .refl, hs⟩
  | tail a _ hc hst ih =>
    obtain ⟨y, hy, hr⟩ := ih
    obtain ⟨z, hz, hr'⟩ := hR _ a _ y hr hc hst
    exact ⟨z, hy.trans hz, hr'⟩

/-- If a bound sinks by what each step shows, a run shows no more than the bound allows. -/
theorem Shows.length_le {m : σ → ℕ → Prop} {n : ℕ}
    (hm : ∀ s a s' n, m s n → C s a → S.step s a = some s' →
      ∃ n', m s' n' ∧ n' + (o s a).length ≤ n)
    (h : S.Shows C o s his t) (hs : m s n) : ∃ n', m t n' ∧ n' + his.length ≤ n := by
  induction h with
  | refl => exact ⟨n, hs, Nat.le_refl _⟩
  | tail a _ hc hst ih =>
    obtain ⟨n₁, hn₁, hle₁⟩ := ih
    obtain ⟨n₂, hn₂, hle₂⟩ := hm _ a _ n₁ hn₁ hc hst
    refine ⟨n₂, hn₂, ?_⟩
    rw [List.length_append]
    omega

section Run

variable [∀ s a, Decidable (C s a)]

variable (S C o) in
/-- What the run with the labels `as` shows, and the state after it. -/
def showBy (s : σ) : List α → Option (List β × σ)
  | [] => some ([], s)
  | a :: as =>
    if C s a then
      (S.step s a).bind fun s' => (showBy s' as).map fun x => (o s a ++ x.1, x.2)
    else none

theorem shows_of_showBy {as : List α} {x : List β × σ} (h : S.showBy C o s as = some x) :
    S.Shows C o s x.1 x.2 := by
  induction as generalizing s x with
  | nil =>
    cases h
    exact .refl
  | cons a as ih =>
    unfold showBy at h
    split at h
    · rename_i hc
      obtain ⟨s', hs', hx⟩ := Option.bind_eq_some_iff.mp h
      obtain ⟨y, hy, rfl⟩ := Option.map_eq_some_iff.mp hx
      exact (ih hy).head hc hs'
    · cases h

/-- A computed run whose history and last state pass the test `p`. -/
theorem exists_of_showBy (as : List α) {p : List β × σ → Bool}
    (h : (S.showBy C o s as).any p = true) :
    ∃ his t, S.Shows C o s his t ∧ p (his, t) = true := by
  cases hx : S.showBy C o s as with
  | none =>
    rw [hx] at h
    cases h
  | some x =>
    rw [hx] at h
    exact ⟨x.1, x.2, shows_of_showBy hx, h⟩

end Run

end Sys

end Interleave
