import DdgServer.Sched.Stages

/-!
# The state that `stop()` leaves the root fiber in

`stop()` writes `EXEC` into the root fiber before its last `isStoped()`, and enters the fiber only
if that is false. If it is true, the fiber has `EXEC` for good, although it never ran.

* `State.Enters`: the condition that the last `isStoped()` is false.
* `stop_root_exact`: in the runs that meet it, the root fiber may be destroyed when `stop()` has
  returned, and a step that does not meet it leaves a root fiber that may never be destroyed.
-/

namespace Ddg

/-- The states of the root fiber at each stage of `stop()`. -/
def CallerPc.rootOk : CallerPc → FiberState → Bool
  | .stopRoot, x | .rootRun, x => x == .exec
  | .join, x | .stopped, x => x.destructible
  | _, x => x == .init

namespace Sched

variable {ω κ : Type} [Fintype ω] {cfg : Config ω} {s s' : State ω κ} {l : Label ω κ}

/-- At its last `isStoped()`, `stop()` goes on into the root fiber. -/
def State.Enters (cfg : Config ω) (s : State ω κ) : Label ω κ → Prop
  | .caller quiet => s.caller = .stopRoot → s.virtualIsStoped cfg quiet = false
  | _ => True

instance : ∀ (s : State ω κ) (l : Label ω κ), Decidable (s.Enters cfg l)
  | s, .caller quiet =>
    inferInstanceAs (Decidable (s.caller = .stopRoot → s.virtualIsStoped cfg quiet = false))
  | _, .schedule _ | _, .tickle | _, .create | _, .reset _ | _, .run _ | _, .task .. | _, .idle ..
  | _, .wake .. | _, .start | _, .stop => .isTrue trivial

variable [DecidableEq ω]

/-- Only `stop()` writes the state of the root fiber. -/
theorem rootState_unchanged (hs : step cfg s l = some s') (hl : ∀ quiet, l ≠ .caller quiet) :
    s'.rootState = s.rootState ∧ (s'.caller = s.caller ∨
      (s.caller = .fresh ∧ s'.caller = .started) ∨
      ((s.caller = .fresh ∨ s.caller = .started) ∧ s'.caller = .stopCheck)) := by
  cases step_case hs with
  | worker hw hws => exact ⟨hws.frame.rootState, .inl hws.frame.caller⟩
  | tickle =>
    rw [tickle_eq]
    exact ⟨rfl, .inl rfl⟩
  | start hc => exact ⟨rfl, .inr (.inl ⟨hc, rfl⟩)⟩
  | stop hc => exact ⟨rfl, .inr (.inr ⟨hc, rfl⟩)⟩
  | @caller quiet s' hm => exact absurd rfl (hl quiet)
  | schedule | create | reset => exact ⟨rfl, .inl rfl⟩

/-- A step of `stop()` that enters the root fiber if it comes to that. -/
theorem rootOk_caller {quiet : Bool} (h : s.caller.rootOk s.rootState = true)
    (hc : s.Enters cfg (.caller quiet)) (hs : callerStep cfg s quiet = some s') :
    s'.caller.rootOk s'.rootState = true := by
  -- a root fiber that is not needed is still in INIT
  have hinit : s.rootState = .init → s.rootState.destructible = true := fun hx => by
    rw [hx]
    rfl
  cases callerMove_of_step hs with
  | stoped hcaller hq =>
    rw [hcaller] at h
    exact hinit (beq_iff_eq.mp h)
  | rootEnded hcaller =>
    rw [hcaller] at h
    exact h
  | goOn hcaller =>
    rw [hcaller] at h
    exact h
  | checked hcaller =>
    rw [hcaller] at h
    show CallerPc.rootOk (if _ then _ else _) s.rootState = true
    split
    · exact hinit (beq_iff_eq.mp h)
    · exact h
  | set hcaller =>
    rw [hcaller] at h
    exact h
  | tickle hcaller =>
    rw [hcaller] at h
    rw [tickle_eq]
    exact h
  | root => rfl
  | noRoot hcaller =>
    rw [hcaller] at h
    exact hinit (beq_iff_eq.mp h)
  | skip hcaller hr hq => cases hq.symm.trans (hc hcaller)
  | enter hcaller =>
    rw [hcaller] at h
    exact h
  | left => rfl
  | joined hcaller =>
    rw [hcaller] at h
    exact h

theorem rootOk_inductive : (sys (κ := κ) cfg).Inductive (State.Enters cfg)
    fun s => s.caller.rootOk s.rootState = true where
  init s hs := by
    cases hs
    rfl
  step s l s' h hc hs := by
    by_cases hl : ∃ quiet, l = .caller quiet
    · obtain ⟨quiet, rfl⟩ := hl
      exact rootOk_caller h hc hs
    · obtain ⟨hroot, hcaller⟩ := rootState_unchanged hs fun quiet he => hl ⟨quiet, he⟩
      rw [hroot]
      rcases hcaller with hcaller | ⟨hfrom, hto⟩ | ⟨hfrom | hfrom, hto⟩
      · rwa [hcaller]
      all_goals
        rw [hfrom] at h
        rw [hto]
        exact h

/-- `stop()` is past the root fiber, and has left it in `EXEC`. -/
def State.Skipped (s : State ω κ) : Prop :=
  (s.caller = .join ∨ s.caller = .stopped) ∧ s.rootState = .exec

/-- A root fiber that was skipped stays in `EXEC`. -/
theorem State.Skipped.step (h : s.Skipped) (hs : step cfg s l = some s') : s'.Skipped := by
  obtain ⟨hc, hx⟩ := h
  by_cases hl : ∃ quiet, l = .caller quiet
  · obtain ⟨quiet, rfl⟩ := hl
    -- from `join` it goes to `stopped`, and from there nowhere
    cases callerMove_of_step hs with
    | joined => exact ⟨.inr rfl, hx⟩
    | stoped hc' | rootEnded hc' | goOn hc' | checked hc' | set hc' | tickle hc' | root hc'
    | noRoot hc' | skip hc' | enter hc' | left hc' =>
      rw [hc'] at hc
      rcases hc with hc | hc <;> cases hc
  · obtain ⟨hroot, hcaller⟩ := rootState_unchanged hs fun quiet he => hl ⟨quiet, he⟩
    refine ⟨?_, hroot.trans hx⟩
    rcases hcaller with hcaller | ⟨hfrom, -⟩ | ⟨hfrom | hfrom, -⟩
    · rwa [hcaller]
    all_goals
      rw [hfrom] at hc
      rcases hc with hc | hc <;> cases hc

/-- A step at which `stop()` skips the root fiber. -/
theorem skipped_of_step (h : s.caller.rootOk s.rootState = true) (hc : ¬ s.Enters cfg l)
    (hs : step cfg s l = some s') : s'.Skipped := by
  cases l with
  | caller quiet =>
    obtain ⟨hcaller, hstoped⟩ := Classical.not_imp.mp hc
    rw [hcaller] at h
    cases callerMove_of_step hs with
    | skip => exact ⟨.inl rfl, beq_iff_eq.mp h⟩
    | enter hc' hr hq => exact absurd hq hstoped
    | stoped hc' | rootEnded hc' | goOn hc' | checked hc' | set hc' | tickle hc' | root hc'
    | noRoot hc' | left hc' | joined hc' => cases hcaller.symm.trans hc'
  | _ => exact absurd trivial hc

/-- In every run the root fiber is as it should be, or it was skipped. -/
theorem rootOk_or_skipped_inductive : (sys (κ := κ) cfg).Inductive Interleave.Sys.free
    fun s => s.caller.rootOk s.rootState = true ∨ s.Skipped where
  init s hs := .inl (rootOk_inductive.init s hs)
  step s l s' h _ hs := by
    rcases h with h | h
    · by_cases hc : s.Enters cfg l
      · exact .inl (rootOk_inductive.step s l s' h hc hs)
      · exact .inr (skipped_of_step h hc hs)
    · exact .inr (h.step hs)

/-- **When `stop()` has returned, the root fiber may be destroyed**, if `stop()` entered it when it
came to that; if it did not, the root fiber may not be destroyed in any state from then on. -/
theorem stop_root_exact (cfg : Config ω) :
    (∀ s : State ω κ, (sys cfg).Reach (State.Enters cfg) s → s.caller = .stopped →
      s.rootState.destructible = true) ∧
    ∀ s l s' t, (sys (κ := κ) cfg).Reach Interleave.Sys.free s → ¬ s.Enters cfg l →
      step cfg s l = some s' → (sys cfg).Steps Interleave.Sys.free s' t →
      t.rootState.destructible = false := by
  refine ⟨fun s h hs => ?_, fun s l s' t h hc hs ht => ?_⟩
  · have := rootOk_inductive.reach h
    rwa [hs] at this
  · have hok : s.caller.rootOk s.rootState = true := by
      rcases rootOk_or_skipped_inductive.reach h with h | ⟨hcaller, -⟩
      · exact h
      · cases l with
        | caller quiet =>
          obtain ⟨hroot, -⟩ := Classical.not_imp.mp hc
          rcases hcaller with he | he <;> rw [hroot] at he <;> cases he
        | _ => exact absurd trivial hc
    have hskip : t.Skipped :=
      ht.keeps (fun _ _ _ h _ hs => State.Skipped.step h hs) (skipped_of_step hok hc hs)
    rw [hskip.2]
    rfl

/-- A callback is queued when `stop()` comes to the root fiber, which runs it. -/
theorem stop_root_entered : ∃ s : State (Fin 1) Unit,
    s.caller = .stopped ∧ s.entries = 1 ∧ s.rootState.destructible = true := by
  obtain ⟨s, hs, hp⟩ := Interleave.Sys.exists_of_runBy (S := sys (κ := Unit) rootWorker)
    (C := State.Enters rootWorker) (s := {})
    (List.flatten [[.start, .schedule [{ cb := some () }], .stop], .replicate 5 (.caller true),
      .replicate 7 (.run 0), [.task 0 .term], .replicate 9 (.run 0), .replicate 2 (.caller true)])
    (p := fun s => s.caller == .stopped && s.entries == 1) (by decide +kernel)
  simp only [Bool.and_eq_true, beq_iff_eq] at hp
  exact ⟨s, hp.1, hp.2, (stop_root_exact rootWorker).1 s ⟨_, rfl, hs⟩ hp.1⟩

/-- `start()` and `stop()` without a task: the root fiber is in `EXEC` when `stop()` has returned. -/
theorem stop_root_skipped : ∃ s : State (Fin 1) Unit,
    (sys rootWorker).Reach Interleave.Sys.free s ∧ s.caller = .stopped ∧
      s.rootState.destructible = false := by
  obtain ⟨s, hs, hp⟩ := Interleave.Sys.exists_of_runBy (S := sys (κ := Unit) rootWorker)
    (C := Interleave.Sys.free) (s := {})
    (List.flatten [[.start, .stop], .replicate 6 (.caller true)])
    (p := fun s => s.caller == .stopped && s.rootState == .exec) (by decide)
  simp only [Bool.and_eq_true, beq_iff_eq] at hp
  exact ⟨s, ⟨_, rfl, hs⟩, hp.1, by rw [hp.2]; rfl⟩

end Sched
end Ddg
