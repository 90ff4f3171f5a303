import DdgServer.Sched.Stages

/-!
# What `stop()` leaves behind

A worker of the base `Scheduler` leaves `run` after its second scan that took nothing, whether
`stop()` was called or not: `Scheduler::idle` returns at once, and a worker whose idle fiber has
ended takes the `break`. (`IOManager::idle` goes on until `isStoped()`.) Without `use_caller` nobody
scans `m_fibers` after the last worker has left.

* `State.Alive`: somebody will still scan.
* `State.Attended`: the condition that entries are not left to nobody.
* `stop_drains`: in the runs that meet it, `stop()` returns with an empty queue and all entries
  retired.
* `stop_leavesTask`: a callback that is scheduled before `stop()` and never run.
-/

namespace Ddg.Sched

variable {ω κ : Type}

/-- Worker `w` will scan again: it is in `run`, and not on the way to the `break`. -/
def State.scansAgain (s : State ω κ) (w : ω) : Bool :=
  match s.pc w with
  | .off | .left => false
  | .tickled => (s.idleFt w).isSome
  | _ => true

theorem scansAgain_of_due {s : State ω κ} {w : ω} (h : (s.pc w).due = true) :
    s.scansAgain w = true := by
  unfold State.scansAgain
  cases hpc : s.pc w with
  | off | left | tickled => rw [hpc] at h; cases h
  | _ => rfl

theorem scansAgain_eq {s s' : State ω κ} {w : ω} (hpc : s'.pc w = s.pc w)
    (hft : s'.idleFt w = s.idleFt w) : s'.scansAgain w = s.scansAgain w := by
  unfold State.scansAgain
  rw [hpc, hft]

variable [Fintype ω]

/-- The root fiber is still to be entered by `stop()`. -/
def State.rootPending (cfg : Config ω) (s : State ω κ) : Bool :=
  cfg.root.isSome && s.caller.beforeRoot

/-- Somebody will scan: `start()` is still to come, or the root fiber, or a worker scans again. -/
def State.Alive (cfg : Config ω) (s : State ω κ) : Prop :=
  s.caller = .fresh ∨ s.rootPending cfg = true ∨ ∃ w, s.scansAgain w = true

instance (cfg : Config ω) (s : State ω κ) : Decidable (s.Alive cfg) :=
  inferInstanceAs (Decidable (_ ∨ _ ∨ _))

variable [DecidableEq ω]

/-- `schedule` is called while somebody will scan, `stop()` is called before `start()` only if there
is a root fiber or nothing to run, and a worker that takes the `break` after its scan leaves nothing
queued if it is the last one. -/
def State.Attended (cfg : Config ω) (s : State ω κ) : Label ω κ → Prop
  | .schedule _ => s.Alive cfg
  | .stop => s.caller = .fresh → cfg.root.isSome = true ∨ s.fibers = []
  | .run w => ∀ r ∈ s.scanOf cfg w, r.taken = none → s.idleFt w = none →
      r.rest = [] ∨ s.rootPending cfg = true ∨ ∃ u, u ≠ w ∧ s.scansAgain u = true
  | _ => True

instance (cfg : Config ω) (s : State ω κ) : ∀ l, Decidable (s.Attended cfg l)
  | .schedule _ => inferInstanceAs (Decidable (s.Alive cfg))
  | .stop => inferInstanceAs (Decidable (s.caller = .fresh → cfg.root.isSome = true ∨ s.fibers = []))
  | .run w => inferInstanceAs (Decidable (∀ r ∈ s.scanOf cfg w, r.taken = none →
      s.idleFt w = none → r.rest = [] ∨ s.rootPending cfg = true ∨
        ∃ u, u ≠ w ∧ s.scansAgain u = true))
  | .tickle | .create | .reset _ | .task .. | .idle .. | .wake .. | .start | .caller _ =>
    .isTrue trivial

variable {cfg : Config ω} {s s' : State ω κ}

omit [DecidableEq ω] in
/-- A step that moves neither a worker nor the client. -/
theorem State.Alive.keep (h : s.Alive cfg) (hcaller : s'.caller = s.caller) (hpc : s'.pc = s.pc)
    (hft : s'.idleFt = s.idleFt) : s'.Alive cfg := by
  rcases h with h | h | ⟨w, h⟩
  · exact .inl (hcaller.trans h)
  · refine .inr (.inl ?_)
    unfold State.rootPending at h ⊢
    rw [hcaller]
    exact h
  · refine .inr (.inr ⟨w, ?_⟩)
    rw [scansAgain_eq (congrFun hpc w) (congrFun hft w)]
    exact h

/-- After a step of a worker that leaves entries queued, somebody will scan. -/
theorem alive_of_worker {w : ω} (hw : WorkerStep cfg s w s') (hc : s.Attended cfg (.run w))
    (h : s.fibers ≠ [] → s.Alive cfg) (hne : s'.fibers ≠ []) : s'.Alive cfg := by
  have hframe := hw.frame
  have hroot : s.rootPending cfg = true → s'.rootPending cfg = true := fun hr => by
    unfold State.rootPending at hr ⊢
    rw [hframe.caller]
    exact hr
  obtain ⟨-, pc', -, hupd⟩ := hw.pc
  have hother : ∀ u, u ≠ w → s.scansAgain u = true → s'.scansAgain u = true := fun u hu hs => by
    rw [scansAgain_eq ((congrFun hupd u).trans (Function.update_of_ne hu ..)) (hframe.idleFt u hu)]
    exact hs
  cases hw with
  | due pc hin hpc hdue _ =>
    refine .inr (.inr ⟨w, scansAgain_of_due ?_⟩)
    rw [hpc, Function.update_self]
    exact hdue
  | @pass r hr ht =>
    by_cases hft : s.idleFt w = none
    · rcases hc r hr ht hft with hc | hc | ⟨u, hu, hc⟩
      · exact absurd hc hne
      · exact .inr (.inl (hroot hc))
      · exact .inr (.inr ⟨u, hother u hu hc⟩)
    · -- the worker goes to its idle fiber and comes back
      have hsome : (s.idleFt w).isSome = true := Option.isSome_iff_ne_none.mpr hft
      refine .inr (.inr ⟨w, ?_⟩)
      unfold State.scansAgain State.goto Core.goto
      simp only [Function.update_self]
      unfold State.rest
      rw [if_pos hsome]
      cases r.tickleMe with
      | true => exact hsome
      | false => rfl
  | tickled hpc =>
    rw [tickle_eq] at hne hroot hother ⊢
    rcases h hne with h | h | ⟨u, h⟩
    · exact .inl h
    · exact .inr (.inl (hroot h))
    · by_cases hu : u = w
      · subst hu
        have hsome : (s.idleFt u).isSome = true := by
          unfold State.scansAgain at h
          rw [hpc] at h
          exact h
        refine .inr (.inr ⟨u, ?_⟩)
        unfold State.scansAgain State.goto Core.goto State.rest
        simp only [Function.update_self, if_pos hsome]
      · exact .inr (.inr ⟨u, hother u hu h⟩)
  | idle hpc =>
    refine .inr (.inr ⟨w, ?_⟩)
    unfold State.scansAgain State.goto Core.goto
    simp only [Function.update_self]
  | wait hpc hio =>
    refine .inr (.inr ⟨w, ?_⟩)
    unfold State.scansAgain State.goto Core.goto
    simp only [Function.update_self]

/-- After a step of `stop()` that leaves entries queued, somebody will scan. -/
theorem alive_of_caller {quiet : Bool} (hm : CallerMove cfg s quiet s')
    (hstaged : s.Staged cfg) (h : s.fibers ≠ [] → s.Alive cfg) (hne : s'.fibers ≠ []) :
    s'.Alive cfg := by
  -- where no root fiber is left to run, a worker scans again
  have hworker : s.fibers ≠ [] → s.caller ≠ .fresh → s.rootPending cfg = false →
      ∃ w, s.scansAgain w = true := fun hf hc hr => by
    rcases h hf with h | h | h
    · exact absurd h hc
    · rw [hr] at h
      cases h
    · exact h
  have hgo : ∀ {c : CallerPc}, s.caller ≠ .fresh → c.beforeRoot = true → s.fibers ≠ [] →
      (cfg.root.isSome && c.beforeRoot) = true ∨ ∃ w, s.scansAgain w = true := fun hc hb hf => by
    cases hr : cfg.root with
    | some r => exact .inl (by rw [hb]; rfl)
    | none => exact .inr (hworker hf hc (by unfold State.rootPending; rw [hr]; rfl))
  -- the root worker is past its run, or there is none
  have hover : cfg.root = none ∨ s.caller.beforeRoot = false → s.rootPending cfg = false := by
    unfold State.rootPending
    rintro (hr | hb)
    · rw [hr]
      rfl
    · rw [hb]
      exact Bool.and_false _
  unfold State.Staged at hstaged
  cases hm with
  | stoped hc hq => exact absurd (isStoped_stopping hq).2 hne
  | rootEnded hc hr he =>
    rw [hc] at hstaged
    cases hstaged.2.1.symm.trans he
  | goOn hc hq => exact .inr (hgo (c := .stopSet) (by rw [hc]; nofun) rfl hne)
  | checked hc =>
    rw [hc] at hstaged
    exact hstaged.elim
  | set hc => exact .inr (hgo (c := .stopTickle _) (by rw [hc]; nofun) rfl hne)
  | @tickle n hc =>
    rw [tickle_eq] at hne ⊢
    exact .inr (hgo (c := .stopTickle n) (by rw [hc]; nofun) rfl hne)
  | root hc hr => exact .inr (hgo (c := .stopRoot) (by rw [hc]; nofun) rfl hne)
  | noRoot hc hr => exact .inr (.inr (hworker hne (by rw [hc]; nofun) (hover (.inl hr))))
  | skip hc hr hq => exact absurd (isStoped_stopping hq).2 hne
  | @enter r hc hr hq hpc =>
    refine .inr (.inr ⟨r, ?_⟩)
    unfold State.scansAgain State.goto Core.goto
    simp only [Function.update_self]
  | left hc hr hpc =>
    exact .inr (.inr (hworker hne (by rw [hc]; nofun) (hover (.inr (by rw [hc]; rfl)))))
  | joined hc hall =>
    exact .inr (.inr (hworker hne (by rw [hc]; nofun) (hover (.inr (by rw [hc]; rfl)))))

/-- A queue that is not empty is left to somebody who will scan it. -/
theorem alive_step {l : Label ω κ} (hst : step cfg s l = some s') (hstaged : s.Staged cfg)
    (hc : s.Attended cfg l) (h : s.fibers ≠ [] → s.Alive cfg) (hne : s'.fibers ≠ []) :
    s'.Alive cfg := by
  cases step_case hst with
  | worker hl hw =>
    refine alive_of_worker hw (fun r hr => ?_) h hne
    have hrun := run_of_scanOf hl hst hr
    subst hrun
    exact hc r hr
  | schedule => exact State.Alive.keep hc rfl rfl rfl
  | tickle =>
    rw [tickle_eq] at hne ⊢
    exact (h hne).keep rfl rfl rfl
  | create => exact (h hne).keep rfl rfl rfl
  | reset => exact (h hne).keep rfl rfl rfl
  | start hcaller hoff hpc =>
    unfold State.Staged at hstaged
    rw [hcaller] at hstaged
    cases hr : cfg.root with
    | some r => exact .inr (.inl (by unfold State.rootPending; rw [hr]; rfl))
    | none =>
      -- the constructor asserts that there is a worker
      obtain ⟨w⟩ := Fintype.card_pos_iff.mp cfg.threads.1
      refine .inr (.inr ⟨w, ?_⟩)
      unfold State.scansAgain
      simp only [hoff w (hstaged.1 w), hr, reduceCtorEq, if_false]
  | stop hcaller =>
    rcases hcaller with hcaller | hcaller
    · rcases hc hcaller with hr | hf
      · exact .inr (.inl (by unfold State.rootPending; rw [hr]; rfl))
      · exact absurd hf hne
    · rcases h hne with h | h | h
      · rw [hcaller] at h
        cases h
      · unfold State.rootPending at h
        rw [hcaller] at h
        exact .inr (.inl h)
      · exact .inr (.inr h)
  | caller hm => exact alive_of_caller hm hstaged h hne

theorem alive_inductive : (sys (κ := κ) cfg).Inductive (State.Attended cfg) fun s =>
    (s.toCore.Tracked ∧ s.Staged cfg) ∧ (s.fibers ≠ [] → s.Alive cfg) := by
  refine (tracked_inductive.both staged_inductive).and (fun s hs hne => ?_)
    fun s l s' hi h hc hst => alive_step hst hi.2 hc h
  rw [show s = {} from hs] at hne
  exact absurd rfl hne

/-- What `stop()` has to leave: nothing queued, and each entry retired with its fiber in `TERM` or
`EXCEPT`, or parked in `HOLD`. -/
structure Core.Drained (c : Core ω κ) : Prop where
  fibers : c.fibers = []
  retired : ∀ n, n < c.entries →
    ∃ x ∈ c.retired, x.1.id = n ∧ (x.2.ended = true ∨ x.2 = .hold)

/-- In every run that leaves no entries to nobody, `stop()` returns with `m_fibers` empty and every
accepted entry run to its end or parked. -/
theorem stop_drains {s : State ω κ} (h : (sys cfg).Reach (State.Attended cfg) s)
    (hs : s.caller = .stopped) : s.Drained := by
  obtain ⟨⟨ht, hstaged⟩, halive⟩ := alive_inductive.reach h
  unfold State.Staged at hstaged
  rw [hs] at hstaged
  have hpc : ∀ w, s.pc w = .off ∨ s.pc w = .left := by
    intro w
    have := hstaged w
    cases hw : s.pc w with
    | off => exact .inl rfl
    | left => exact .inr rfl
    | _ => rw [hw] at this; cases this
  have hfibers : s.fibers = [] := by
    by_contra hne
    rcases halive hne with h | h | ⟨w, h⟩
    · rw [hs] at h
      cases h
    · unfold State.rootPending at h
      rw [hs, show CallerPc.stopped.beforeRoot = false from rfl, Bool.and_false] at h
      cases h
    · unfold State.scansAgain at h
      rcases hpc w with hw | hw <;> rw [hw] at h <;> cases h
  refine ⟨hfibers, fun n hn => ?_⟩
  rcases ht.one_place hn with ⟨hq, -⟩ | ⟨-, ⟨w, hw, -⟩, -⟩ | ⟨-, -, hr⟩
  · rw [hfibers] at hq
    cases hq
  · rcases hpc w with hp | hp <;> rw [hp] at hw <;> cases hw
  · have hmem : n ∈ s.retired.map fun x => x.1.id := List.count_pos_iff.mp (by omega)
    obtain ⟨x, hx, hid⟩ := List.mem_map.mp hmem
    exact ⟨x, hx, hid, ht.wf.retired x hx⟩

/-- A callback that is scheduled while the worker will scan, and then `stop()`. -/
theorem stop_drains_task : ∃ s : State (Fin 1) Unit,
    s.caller = .stopped ∧ s.entries = 1 ∧ s.Drained := by
  obtain ⟨s, hs, hp⟩ := Interleave.Sys.exists_of_runBy (S := sys (κ := Unit) oneWorker)
    (C := State.Attended oneWorker) (s := {})
    (List.flatten [[.start, .schedule [{ cb := some () }]], .replicate 7 (.run 0),
      [.task 0 .term], .replicate 9 (.run 0), [.stop], .replicate 5 (.caller true)])
    (p := fun s => s.caller == .stopped && s.entries == 1) (by decide)
  simp only [Bool.and_eq_true, beq_iff_eq] at hp
  exact ⟨s, hp.1, hp.2, stop_drains ⟨_, rfl, hs⟩ hp.1⟩

/-- The worker has left `run` before the callback is scheduled. `stop()` comes after that, and
returns with the callback queued. -/
theorem stop_leavesTask : ∃ s : State (Fin 1) Unit,
    (sys oneWorker).Reach Interleave.Sys.free s ∧ s.caller = .stopped ∧ s.entries = 1 ∧
      s.retired = [] ∧ ¬ s.Drained := by
  obtain ⟨s, hs, hp⟩ := Interleave.Sys.exists_of_runBy (S := sys (κ := Unit) oneWorker)
    (C := Interleave.Sys.free) (s := {})
    (List.flatten [[.start], .replicate 5 (.run 0), [.schedule [{ cb := some () }], .stop],
      .replicate 5 (.caller true)])
    (p := fun s => s.caller == .stopped && s.entries == 1 && s.retired == [] &&
      s.fibers.length == 1) (by decide)
  simp only [Bool.and_eq_true, beq_iff_eq] at hp
  refine ⟨s, ⟨_, rfl, hs⟩, hp.1.1.1, hp.1.1.2, hp.1.2, fun h => ?_⟩
  have := hp.2
  rw [h.fibers] at this
  cases this

end Ddg.Sched
