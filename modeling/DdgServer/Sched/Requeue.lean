import DdgServer.Sched.Exclusive

/-!
# What becomes of a task

Where the entries are and what the counter says holds in every run (`tracked_inductive`). That a
task which yielded `READY` is put back depends on the state that its worker reads after the switch:
another worker that has taken the fiber meanwhile has set it to `EXEC`, and the first one parks it.

* `Core.Requeued`: the yields with `READY` are the entries put back and those that workers still
  have to put back.
* `tasks_conserved`: no task is lost or duplicated, and the counter does not underflow.
* `run_losesTask`: a task that yielded `READY` and is not put back.
-/

namespace Ddg

variable {ω κ : Type}

/-- What stays of an entry when its callback becomes a fiber and when it is put back. -/
def Entry.key (e : Entry κ) : ℕ × Option ℕ × ThreadId := (e.id, e.fiber, e.thread)

/-- The entry that a worker has to put back because its task yielded `READY`. -/
def Pc.owed : Pc κ → List (ℕ × Option ℕ × ThreadId)
  | .turn ft (.leave .ready) | .turn ft (.back .ready) | .turn ft (.look .ready)
  | .turn ft (.putBack .ready) => [ft.key]
  | _ => []

theorem Pc.owed_of_held {pc : Pc κ} (h : pc.held = none) : pc.owed = [] := by
  cases pc with
  | turn => cases h
  | _ => rfl

namespace Sched

variable [Fintype ω]

/-- Each yield with `READY` is matched by one entry that was put back, with the same number, fiber
and thread id, or by one that a worker still has to put back. -/
def Core.Requeued (c : Core ω κ) : Prop :=
  ∀ x, (c.yielded.map Entry.key).count x =
    (c.requeued.map Entry.key).count x + ∑ w, (c.pc w).owed.count x

/-- Each accepted entry is in one place, it is retired only when its fiber is `TERM` or `EXCEPT` or
parked in `HOLD`, the tasks that yielded `READY` are put back, and `m_activeThreadCount` counts the
workers that have an entry and have not returned from its `swapIn`. -/
structure Core.Conserved (c : Core ω κ) : Prop where
  place : ∀ n, n < c.entries →
    ((c.fibers.map Entry.id).count n = 1 ∧ (∀ w, heldId (c.pc w) ≠ some n) ∧
        (c.retired.map fun x => x.1.id).count n = 0) ∨
      ((c.fibers.map Entry.id).count n = 0 ∧ (∃! w, heldId (c.pc w) = some n) ∧
        (c.retired.map fun x => x.1.id).count n = 0) ∨
      ((c.fibers.map Entry.id).count n = 0 ∧ (∀ w, heldId (c.pc w) ≠ some n) ∧
        (c.retired.map fun x => x.1.id).count n = 1)
  retired : ∀ x ∈ c.retired, x.2.ended = true ∨ x.2 = .hold
  requeued : c.Requeued
  active : c.activeThreadCount.toNat = ∑ w, (c.pc w).counted
  noUnderflow : ∀ w, (c.pc w).counted = 1 → c.activeThreadCount ≠ 0

variable [DecidableEq ω] {cfg : Config ω} {l : Label ω κ} {c c' : Core ω κ}

/-- Worker `w` goes to `pc`: what it has to put back changes with the two lists. -/
theorem Core.Requeued.goto (h : c.Requeued) {w : ω} (pc : Pc κ)
    (hpc : c'.pc = Function.update c.pc w pc)
    (hx : ∀ x, (c'.yielded.map Entry.key).count x + (c.requeued.map Entry.key).count x +
        (c.pc w).owed.count x =
      (c.yielded.map Entry.key).count x + (c'.requeued.map Entry.key).count x +
        pc.owed.count x) : c'.Requeued := by
  intro x
  have hs := Interleave.sum_update (fun pc : Pc κ => pc.owed.count x) c.pc w pc
  have := h x
  have := hx x
  rw [hpc]
  omega

/-- A step that yields and puts back nothing. -/
theorem Core.Requeued.keep (h : c.Requeued) {w : ω} (pc : Pc κ)
    (hpc : c'.pc = Function.update c.pc w pc) (hy : c'.yielded = c.yielded)
    (hr : c'.requeued = c.requeued) (ho : pc.owed = (c.pc w).owed) : c'.Requeued :=
  h.goto pc hpc fun x => by rw [hy, hr, ho]

/-- Each step keeps the account, in a state where workers find their fibers as they expect. -/
theorem Move.requeued (hm : Move cfg c l c') (hs : c.Sole) (h : c.Requeued) : c'.Requeued := by
  have hready : ∀ {w ft f}, c.pc w = .turn ft (.look .ready) → ft.fiber = some f →
      c.state f = .ready := by
    intro w ft f hpc hf
    have := hs.expects w
    rw [hpc] at this
    exact this f hf
  cases hm with
  | schedule => exact h
  | create => exact h
  | reset => exact h
  | take hpc hr ht => exact h.keep _ rfl rfl rfl (by rw [hpc]; rfl)
  | pass hpc hr ht hq => exact h.keep _ rfl rfl rfl (by rw [hpc, Pc.owed_of_held hq]; rfl)
  | tickle hpc => exact h.keep _ rfl rfl rfl (by rw [hpc]; rfl)
  | newFiber hpc hf => exact h.keep _ rfl rfl rfl (by rw [hpc]; rfl)
  | drop hpc hne => exact h.keep _ rfl rfl rfl (by rw [hpc]; rfl)
  | @quiet l w ft f ph ph' hl hpc hf hq =>
    refine h.keep _ rfl rfl rfl ?_
    rw [hpc]
    cases hq with
    | take => rfl
    | check => rfl
    | enter => rfl
    | task => rfl
    | @leave out => cases out <;> rfl
    | @look out => cases out <;> rfl
    | @park out hr he =>
      -- the fiber of a task that yielded READY is still READY
      cases out with
      | ready => exact absurd (hready hpc hf) hr
      | _ => rfl
  | write hpc hf hw => exact h.keep _ rfl rfl rfl (by rw [hpc]; cases hw <;> rfl)
  | @yield w ft f out hpc hf =>
    refine h.goto (w := w) (.turn ft (.leave out)) rfl fun x => ?_
    rw [hpc]
    cases out with
    | ready =>
      show ((c.yielded ++ [ft]).map Entry.key).count x + _ + 0 =
        _ + (c.requeued.map Entry.key).count x + [ft.key].count x
      rw [List.map_append, List.count_append, List.map_singleton]
      omega
    | _ => rfl
  | @back w ft f out hpc hf =>
    refine h.keep (w := w) (.turn ft (.look out)) rfl rfl rfl ?_
    rw [hpc]
    cases out <;> rfl
  | @retire w ft f out hpc hf he =>
    refine h.keep (w := w) .scan rfl rfl rfl ?_
    rw [hpc]
    cases out with
    | ready =>
      rw [hready hpc hf] at he
      cases he
    | _ => rfl
  | @putBack w ft f out hpc hf =>
    refine h.goto (w := w) .putTickle rfl fun x => ?_
    rw [hpc]
    cases out with
    | ready =>
      show (c.yielded.map Entry.key).count x + _ + [ft.key].count x =
        (c.yielded.map Entry.key).count x + ((c.requeued ++ [ft]).map Entry.key).count x + 0
      rw [List.map_append, List.count_append, List.map_singleton]
      omega
    | _ => rfl
  | park hpc hf => exact h.keep _ rfl rfl rfl (by rw [hpc]; rfl)
  | @other l pc stopping autoStop hpc =>
    intro x
    have : ∀ w, (pc w).owed = (c.pc w).owed := by
      intro w
      rcases hpc w with hs | ⟨hs, hs'⟩
      · rw [hs]
      · rw [Pc.owed_of_held hs, Pc.owed_of_held hs']
    show _ = _ + ∑ w, (pc w).owed.count x
    rw [Finset.sum_congr rfl fun w _ => by rw [this w]]
    exact h x

theorem requeued_inductive : (sys (κ := κ) cfg).Inductive (fun s l => s.Apart cfg l)
    fun s => (s.toCore.Tracked ∧ s.toCore.Sole) ∧ s.toCore.Requeued := by
  refine sole_inductive.and (fun s hs => ?_) fun s l s' ht h _ hst =>
    (move_of_step hst).requeued ht.2 h
  rw [show s = {} from hs]
  intro x
  show 0 = 0 + ∑ _w : ω, 0
  simp

/-- In every run in which no scan dispatches a fiber that another worker has exposed, no task is
lost or duplicated, and the counter is exact. -/
theorem tasks_conserved {s : State ω κ}
    (h : (sys cfg).Reach (fun s l => s.toCore.Apart cfg l) s) : s.Conserved := by
  obtain ⟨⟨ht, -⟩, hr⟩ := requeued_inductive.reach h
  have hact := ht.counted.toNat cfg
  refine ⟨fun n hn => ht.one_place hn, ht.wf.retired, hr, hact, fun w hw h₀ => ?_⟩
  have := Interleave.le_sum (fun u => (s.pc u).counted) w
  have h₁ : s.activeThreadCount.toNat = 0 := by rw [h₀]; rfl
  omega

/-- A task that yields `READY` and is put back. -/
theorem tasks_conserved_yield : ∃ s : State (Fin 2) Unit,
    s.yielded.length = 1 ∧ s.requeued = s.fibers ∧ s.Conserved := by
  obtain ⟨s, hs, hp⟩ := Interleave.Sys.exists_of_runBy (S := sys (κ := Unit) twoWorkers)
    (C := fun s l => s.toCore.Apart twoWorkers l) (s := {})
    (List.flatten [[.start, .schedule [{ cb := some () }]], .replicate 7 (.run 0),
      [.task 0 .ready], .replicate 5 (.run 0)])
    (p := fun s => s.yielded.length == 1 && s.requeued == s.fibers) (by decide +kernel)
  simp only [Bool.and_eq_true, beq_iff_eq] at hp
  exact ⟨s, hp.1, hp.2, tasks_conserved ⟨_, rfl, hs⟩⟩

/-- No entry of a fiber in `TERM` or `EXCEPT` is queued. -/
def Core.NoneEnded (c : Core ω κ) : Prop :=
  ∀ e ∈ c.fibers, ∀ f ∈ e.fiber, (c.state f).ended = false

instance (c : Core ω κ) : Decidable c.NoneEnded :=
  inferInstanceAs (Decidable (∀ e ∈ c.fibers, ∀ f ∈ e.fiber, (c.state f).ended = false))

/-- The task was scheduled again while it ran, and yields `READY`. Before its worker reads the
state, the other worker has set it to `EXEC`: the entry is parked and not put back. -/
theorem run_losesTask : ∃ s : State (Fin 2) Unit,
    (sys twoWorkers).Reach (fun s _ => s.toCore.NoneEnded) s ∧
      s.yielded.map Entry.id = [0] ∧ s.requeued = [] ∧
      s.retired.map (fun x => (x.1.id, x.2)) = [(0, .hold)] ∧ ¬ s.Conserved := by
  obtain ⟨s, hs, hp⟩ := Interleave.Sys.exists_of_runBy (S := sys (κ := Unit) twoWorkers)
    (C := fun s _ => s.toCore.NoneEnded) (s := {})
    (List.flatten [[.start, .schedule [{ cb := some () }]], .replicate 7 (.run 0),
      [.schedule [{ fiber := some 0 }], .task 0 .ready, .run 0, .run 0, .run 0],
      .replicate 6 (.run 1), [.run 0, .run 0]])
    (p := fun s => s.yielded.map Entry.id == [0] && s.requeued == [] &&
      s.retired.map (fun x => (x.1.id, x.2)) == [(0, .hold)] &&
      s.yielded.map Entry.key == [(0, some 0, 0)] &&
      decide (∀ w, (s.pc w).owed = [])) (by decide +kernel)
  simp only [Bool.and_eq_true, beq_iff_eq, decide_eq_true_eq] at hp
  obtain ⟨⟨⟨⟨hy, hr⟩, hd⟩, hk⟩, ho⟩ := hp
  refine ⟨s, ⟨_, rfl, hs⟩, hy, hr, hd, fun h => ?_⟩
  have := h.requeued (0, some 0, 0)
  simp [hk, hr, ho] at this

end Sched
end Ddg
