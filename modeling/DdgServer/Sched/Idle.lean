import DdgServer.Sched.Exclusive
import DdgServer.Sched.Stages

/-!
# The idle fibers

A worker that finds nothing counts itself in `m_idleThreadCount`, switches to its idle fiber and
counts itself out again when the idle fiber has switched back; when the idle fiber has ended, the
worker leaves `run`.

* `Pc.IdleFt`: the state of the idle fiber, by the place of its worker.
* `State.Resting`: the invariant. `run_rests`: a step of a worker, `resting_step`: any step.
* `idle_sound`: the counter is exact, and no switch to an idle fiber fails its assertion.
-/

namespace Ddg

open Interleave

variable {ω κ : Type}

/-- One for a worker between `m_idleThreadCount++` and `m_idleThreadCount--`. -/
def Pc.idling : Pc κ → ℕ
  | .idle | .wait | .woken _ | .idleDec => 1
  | _ => 0

/-- The state of the idle fiber of a worker at this place; `none` after `idle_ft.reset()`. -/
def Pc.IdleFt : Pc κ → Option FiberState → Prop
  | .off, x => x = some .init
  | .scan, x | .turn .., x | .putTickle, x | .tickled, x =>
    x = some .init ∨ x = some .hold ∨ x = none
  | .idleInc, x => x = some .init ∨ x = some .hold
  | .idle, x | .wait, x | .woken _, x => x = some .exec
  | .idleDec, x => x = some .exec ∨ x = some .term
  | .left, x => x = none

theorem Pc.idling_add_counted (pc : Pc κ) : pc.idling + pc.counted ≤ 1 := by
  cases pc with
  | turn ft ph => exact (Nat.zero_add _).trans_le (Bool.toNat_le _)
  | _ => simp [idling, counted]

namespace Sched

/-- The counter counts the idle workers, and each idle fiber is where its worker left it. -/
structure State.Resting [Fintype ω] (s : State ω κ) : Prop where
  count : s.idleThreadCount = ((∑ w, (s.pc w).idling : ℕ) : BitVec 64)
  idleFt : ∀ w, (s.pc w).IdleFt (s.idleFt w)

/-- Worker `w` went to `pc`, with its idle fiber in `x`. -/
structure Rests [DecidableEq ω] (s : State ω κ) (w : ω) (s' : State ω κ) (pc : Pc κ)
    (x : Option FiberState) : Prop where
  moved : s'.pc = Function.update s.pc w pc
  idleFt : s'.idleFt = Function.update s.idleFt w x
  count : s'.idleThreadCount + ((s.pc w).idling : BitVec 64) =
    s.idleThreadCount + (pc.idling : BitVec 64)
  ok : (s.pc w).IdleFt (s.idleFt w) → pc.IdleFt x

/-- What a step of worker `w` makes of its idle fiber. -/
inductive IdleMove [Fintype ω] (cfg : Config ω) (s : State ω κ) (w : ω) : Option FiberState → Prop
  | same : IdleMove cfg s w (s.idleFt w)
  | enter : IdleMove cfg s w (some .exec)
  /-- `IOManager::idle` returns at its `isStoped()`. -/
  | ended (h : cfg.io = true → s.isStoped = true) : IdleMove cfg s w (some .term)
  | hold (h : s.idleFt w = some .exec) : IdleMove cfg s w (some .hold)
  | gone {st : FiberState} (h : s.idleFt w = some st) (he : st.ended = true) : IdleMove cfg s w none

variable [Fintype ω] [DecidableEq ω] {cfg : Config ω} {s s' : State ω κ} {w : ω}

omit [Fintype ω] in
/-- A step between two places where the worker is not idle. -/
theorem rests_busy {pc : Pc κ} (hpc : s'.pc = Function.update s.pc w pc)
    (hft : s'.idleFt = s.idleFt) (hn : s'.idleThreadCount = s.idleThreadCount)
    (hi : (s.pc w).idling = pc.idling)
    (hok : (s.pc w).IdleFt (s.idleFt w) → pc.IdleFt (s.idleFt w)) :
    Rests s w s' pc (s.idleFt w) where
  moved := hpc
  idleFt := hft.trans (Function.update_eq_self w s.idleFt).symm
  count := by rw [hn, hi]
  ok := hok

omit [Fintype ω] in
theorem turn_rests {ft : Entry κ} {f : ℕ} {ph : Phase} (hpc : s.pc w = .turn ft ph)
    (h : turnStep s w ft f ph = some s') : ∃ pc, Rests s w s' pc (s.idleFt w) := by
  have hbusy : ∀ {pc : Pc κ}, s'.pc = Function.update s.pc w pc → s'.idleFt = s.idleFt →
      s'.idleThreadCount = s.idleThreadCount → pc.idling = 0 →
      (Pc.IdleFt (.turn ft ph) (s.idleFt w) → pc.IdleFt (s.idleFt w)) →
      ∃ pc, Rests s w s' pc (s.idleFt w) := by
    intro pc h₁ h₂ h₃ h₄ h₅
    exact ⟨pc, rests_busy h₁ h₂ h₃ (by rw [hpc, h₄]; rfl) (by rw [hpc]; exact h₅)⟩
  cases ph with
  | tickle | take | task => cases h
  | check =>
    simp only [turnStep] at h
    split at h
    · cases h
    · cases h
      exact hbusy rfl rfl rfl rfl id
  | look out =>
    simp only [turnStep] at h
    split at h
    · cases h
      exact hbusy rfl rfl rfl rfl id
    · split at h
      all_goals
        cases h
        exact hbusy rfl rfl rfl rfl id
  | _ =>
    cases h
    exact hbusy rfl rfl rfl rfl id

omit [Fintype ω] [DecidableEq ω] in
theorem rest_idling : (s.rest w).idling = 0 := by
  rcases rest_eq (s := s) w with h | h <;> rw [h] <;> rfl

omit [Fintype ω] [DecidableEq ω] in
/-- A worker that goes to rest has its idle fiber; one without leaves. -/
theorem rest_idleFt (h : s.idleFt w = some .init ∨ s.idleFt w = some .hold ∨ s.idleFt w = none) :
    (s.rest w).IdleFt (s.idleFt w) := by
  unfold State.rest
  rcases h with h | h | h <;> rw [h]
  · exact .inl rfl
  · exact .inr rfl
  · rfl

theorem run_rests (h : runStep cfg s w = some s') :
    ∃ pc x, Rests s w s' pc x ∧ IdleMove cfg s w x := by
  -- the worker goes on to scan, or to its next turn
  have hbusy : ∀ {pc : Pc κ}, s'.pc = Function.update s.pc w pc → s'.idleFt = s.idleFt →
      s'.idleThreadCount = s.idleThreadCount → (s.pc w).idling = 0 → pc.idling = 0 →
      ((s.pc w).IdleFt (s.idleFt w) → pc.IdleFt (s.idleFt w)) →
      ∃ pc x, Rests s w s' pc x ∧ IdleMove cfg s w x :=
    fun h₁ h₂ h₃ h₄ h₅ h₆ => ⟨_, _, rests_busy h₁ h₂ h₃ (h₄.trans h₅.symm) h₆, .same⟩
  have hrest : s'.pc = Function.update s.pc w (s.rest w) → s'.idleFt = s.idleFt →
      s'.idleThreadCount = s.idleThreadCount → (s.pc w).idling = 0 →
      ((s.pc w).IdleFt (s.idleFt w) →
        s.idleFt w = some .init ∨ s.idleFt w = some .hold ∨ s.idleFt w = none) →
      ∃ pc x, Rests s w s' pc x ∧ IdleMove cfg s w x := by
    intro h₁ h₂ h₃ h₄ h₅
    exact hbusy h₁ h₂ h₃ h₄ rest_idling fun hi => rest_idleFt (h₅ hi)
  unfold runStep at h
  cases hpc : s.pc w with
  | off | wait | left =>
    simp only [hpc] at h
    cases h
  | scan =>
    simp only [hpc, scanStep] at h
    obtain ⟨r, hr, hs⟩ := Option.map_eq_some_iff.mp h
    cases ht : r.taken with
    | some ft =>
      simp only [ht] at hs
      cases hs
      exact hbusy rfl rfl rfl (by rw [hpc]; rfl) rfl (by rw [hpc]; exact id)
    | none =>
      simp only [ht] at hs
      cases hs
      refine ⟨_, _, rests_busy rfl rfl rfl ?_ fun hi => ?_, .same⟩
      · rw [hpc]
        split
        · rfl
        · exact rest_idling.symm
      · rw [hpc] at hi
        split
        · exact hi
        · exact rest_idleFt hi
  | turn ft ph =>
    have hzero : (s.pc w).idling = 0 := by rw [hpc]; rfl
    cases ph with
    | tickle =>
      simp only [hpc, tickle_eq] at h
      cases h
      exact hbusy rfl rfl rfl hzero rfl (by rw [hpc]; exact id)
    | take =>
      simp only [hpc] at h
      split at h
      all_goals
        cases h
        exact hbusy rfl rfl rfl hzero rfl (by rw [hpc]; exact id)
    | _ =>
      simp only [hpc] at h
      split at h
      · obtain ⟨pc, hr⟩ := turn_rests hpc h
        exact ⟨pc, _, hr, .same⟩
      · cases h
  | putTickle =>
    simp only [hpc, tickle_eq] at h
    cases h
    exact hbusy rfl rfl rfl (by rw [hpc]; rfl) rfl (by rw [hpc]; exact id)
  | tickled =>
    simp only [hpc, tickle_eq] at h
    cases h
    exact hrest rfl rfl rfl (by rw [hpc]; rfl) (by rw [hpc]; exact id)
  | idleInc =>
    simp only [hpc] at h
    split at h
    · cases h
    · cases h
      exact ⟨.idle, some .exec, ⟨rfl, rfl, by rw [hpc]; exact add_zero _, fun _ => rfl⟩, .enter⟩
  | idle =>
    simp only [hpc] at h
    split at h
    · cases h
    · rename_i hio
      cases h
      exact ⟨.idleDec, some .term, ⟨rfl, rfl, by rw [hpc]; rfl, fun _ => .inr rfl⟩,
        .ended fun h => absurd h hio⟩
  | woken pipe =>
    simp only [hpc] at h
    cases h
    refine ⟨.idleDec, s.idleFt w, ?_, .same⟩
    split <;> exact rests_busy rfl rfl rfl (by rw [hpc]; rfl) (by rw [hpc]; exact .inl)
  | idleDec =>
    simp only [hpc] at h
    cases h
    refine ⟨.scan, _, ⟨rfl, rfl, ?_, fun hi => ?_⟩, ?_⟩
    · rw [hpc]
      exact (sub_add_cancel _ _).trans (add_zero _).symm
    · -- `HOLD` after a switch back, and none after the end
      rw [hpc] at hi
      rcases hi with hi | hi <;> rw [hi]
      · exact .inr (.inl rfl)
      · exact .inr (.inr rfl)
    · split
      · rename_i hft
        exact .hold hft
      · rename_i hft
        split
        · rename_i he
          exact .gone hft he
        · rw [← hft]
          exact .same
      · rename_i hft
        rw [← hft]
        exact .same

/-- Every step of a worker is one of these. -/
theorem worker_rests {l : Label ω κ} (hl : l.worker = some w) (h : step cfg s l = some s') :
    ∃ pc x, Rests s w s' pc x ∧ IdleMove cfg s w x := by
  cases l with
  | run u =>
    cases hl
    exact run_rests h
  | task u out =>
    cases hl
    simp only [step, taskStep] at h
    split at h
    · rename_i ft hpc
      split at h
      · split at h
        · cases h
          exact ⟨.turn ft (.yield out), _, rests_busy rfl rfl rfl (by rw [hpc]; rfl)
            (by rw [hpc]; exact id), .same⟩
        · cases h
      · cases h
    · cases h
  | idle u quiet =>
    cases hl
    simp only [step, idleStep] at h
    split at h
    · rename_i hpc hio
      split at h
      · rename_i hq
        cases h
        exact ⟨.idleDec, some .term, ⟨rfl, rfl, by rw [hpc]; rfl, fun _ => .inr rfl⟩,
          .ended fun _ => (Bool.and_eq_true_iff.mp hq).2⟩
      · cases h
        exact ⟨.wait, _, rests_busy rfl rfl rfl (by rw [hpc]; rfl) (by rw [hpc]; exact id), .same⟩
    · cases h
  | wake u pipe =>
    cases hl
    simp only [step, wakeStep] at h
    split at h
    · rename_i hpc
      split at h
      · cases h
      · cases h
        exact ⟨.woken pipe, _, rests_busy rfl rfl rfl (by rw [hpc]; rfl) (by rw [hpc]; exact id),
          .same⟩
    · cases h
  | _ => cases hl

theorem Rests.resting {pc : Pc κ} {x : Option FiberState} (hr : Rests s w s' pc x)
    (h : s.Resting) : s'.Resting where
  count := by
    have hs := congrArg (Nat.cast (R := BitVec 64)) (sum_update Pc.idling s.pc w pc)
    rw [Nat.cast_add, Nat.cast_add] at hs
    rw [hr.moved]
    linear_combination hr.count - hs + h.count
  idleFt u := by
    rw [hr.moved, hr.idleFt]
    by_cases hu : u = w
    · subst hu
      rw [Function.update_self, Function.update_self]
      exact hr.ok (h.idleFt u)
    · rw [Function.update_of_ne hu, Function.update_of_ne hu]
      exact h.idleFt u

omit [DecidableEq ω] in
/-- A step of the client: workers that were not in `run` may be there now. -/
theorem State.Resting.enter (h : s.Resting) (hft : s'.idleFt = s.idleFt)
    (hn : s'.idleThreadCount = s.idleThreadCount)
    (hpc : ∀ w, s'.pc w = s.pc w ∨ (s.pc w = .off ∧ s'.pc w = .scan)) : s'.Resting where
  count := by
    rw [hn, h.count]
    refine congrArg Nat.cast (Finset.sum_congr rfl fun w _ => ?_)
    rcases hpc w with hw | ⟨hw, hw'⟩
    · rw [hw]
    · rw [hw, hw']
      rfl
  idleFt w := by
    have := h.idleFt w
    rw [hft]
    rcases hpc w with hw | ⟨hw, hw'⟩
    · rwa [hw]
    · rw [hw] at this
      rw [hw']
      exact .inl this

theorem resting_step {l : Label ω κ} (h : s.Resting) (hst : step cfg s l = some s') :
    s'.Resting := by
  have hkeep : ∀ {t : State ω κ}, t.idleFt = s.idleFt → t.idleThreadCount = s.idleThreadCount →
      t.pc = s.pc → t.Resting := fun h₁ h₂ h₃ => h.enter h₁ h₂ fun w => .inl (congrFun h₃ w)
  cases step_case hst with
  | worker hl =>
    obtain ⟨pc, x, hr, -⟩ := worker_rests hl hst
    exact hr.resting h
  | tickle =>
    rw [tickle_eq]
    exact hkeep rfl rfl rfl
  | schedule | create | reset | stop => exact hkeep rfl rfl rfl
  | @start pc hc hoff hpc =>
    refine h.enter rfl rfl fun w => ?_
    by_cases hw : s.pc w = .off
    · have hpc' := hoff w hw
      split at hpc'
      · exact .inl (hpc'.trans hw.symm)
      · exact .inr ⟨hw, hpc'⟩
    · exact .inl (hpc w hw)
  | caller hm =>
    cases hm with
    | tickle =>
      rw [tickle_eq]
      exact hkeep rfl rfl rfl
    | @enter r hc hr hq hpc =>
      refine h.enter rfl rfl fun w => ?_
      by_cases hw : w = r
      · subst hw
        exact .inr ⟨hpc, Function.update_self ..⟩
      · exact .inl (Function.update_of_ne hw ..)
    | _ => exact hkeep rfl rfl rfl

theorem resting_inductive {C : State ω κ → Label ω κ → Prop} :
    (sys (κ := κ) cfg).Inductive C State.Resting where
  init s hs := by
    rw [show s = {} from hs]
    refine ⟨?_, fun _ => rfl⟩
    show (0 : BitVec 64) = ((∑ _w : ω, 0 : ℕ) : BitVec 64)
    rw [Finset.sum_const_zero]
    rfl
  step _ _ _ h _ hst := resting_step h hst

omit [DecidableEq ω] in
/-- The counter does not wrap: there are fewer workers than a `size_t` can count. -/
theorem State.Resting.toNat (cfg : Config ω) (h : s.Resting) :
    s.idleThreadCount.toNat = ∑ w, (s.pc w).idling := by
  have hle : ∑ w, (s.pc w).idling ≤ Fintype.card ω :=
    sum_le_card fun w => (Nat.le_add_right _ _).trans (s.pc w).idling_add_counted
  have := cfg.threads.2
  rw [h.count, BitVec.natCast_eq_ofNat, BitVec.toNat_ofNat]
  exact Nat.mod_eq_of_lt (by omega)

/-- **The idle workers are counted, and their fibers are sound.** In every reachable state
`m_idleThreadCount` is the number of the workers that are idle and, with `m_activeThreadCount`, at
most the number of workers; each idle fiber is in the state that its worker expects; and a worker
about to switch to its idle fiber can do so: the fiber is not in `EXEC`. -/
theorem idle_sound (h : (sys cfg).Reach Sys.free s) :
    s.idleThreadCount.toNat = ∑ w, (s.pc w).idling ∧
    s.activeThreadCount.toNat + s.idleThreadCount.toNat ≤ Fintype.card ω ∧
    (∀ w, (s.pc w).IdleFt (s.idleFt w)) ∧
    ∀ w, s.pc w = .idleInc → ∃ s', step cfg s (.run w) = some s' ∧
      s'.idleThreadCount = s.idleThreadCount + 1 := by
  have hr := resting_inductive.reach h
  have hact := (tracked_inductive.reach h).counted.toNat cfg
  have hidle := hr.toNat cfg
  refine ⟨hidle, ?_, hr.idleFt, fun w hw => ?_⟩
  · rw [hact, hidle, ← Finset.sum_add_distrib]
    refine sum_le_card fun w => ?_
    rw [Nat.add_comm]
    exact (s.pc w).idling_add_counted
  · have hft := hr.idleFt w
    rw [hw] at hft
    have hne : s.idleFt w ≠ some .exec := by
      intro hx
      rcases hft with hft | hft <;> rw [hft] at hx <;> cases hx
    show ∃ s', runStep cfg s w = some s' ∧ _
    simp only [runStep, hw]
    rw [if_neg hne]
    exact ⟨_, rfl, rfl⟩

/-- One worker runs a task while the other is in `epoll_wait`. -/
theorem idle_sound_wait : ∃ s : State (Fin 2) Unit,
    s.pc 0 = .wait ∧ s.activeThreadCount = 1 ∧
      s.idleThreadCount.toNat = ∑ w, (s.pc w).idling := by
  obtain ⟨s, hs, hp⟩ := Sys.exists_of_runBy (S := sys (κ := Unit) { twoWorkers with io := true })
    (C := Sys.free) (s := {})
    (List.flatten [[.start, .run 0, .run 0, .idle 0 false, .schedule [{ cb := some () }]],
      .replicate 7 (.run 1)])
    (p := fun s => s.pc 0 == .wait && s.activeThreadCount == 1) (by decide +kernel)
  simp only [Bool.and_eq_true, beq_iff_eq] at hp
  exact ⟨s, hp.1, hp.2, (idle_sound ⟨_, rfl, hs⟩).1⟩

end Sched
end Ddg
