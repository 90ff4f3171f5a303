import DdgServer.Sched.Idle

/-!
# Wakeups

A worker of an `IOManager` that finds nothing blocks in `epoll_wait`, and `tickle()` wakes one with a
byte in the pipe, if a worker is counted as idle at that moment. A worker is counted only some time
after its scan, and that scan makes the fibers in `INIT` and `HOLD` `READY` without taking one.

* `State.Heard`: a wakeup is on its way, or a worker will scan before it blocks.
* `State.Attentive`: the condition that a `tickle()` is not lost, and that a worker does not block
  after a scan that left a runnable entry, unless somebody else has heard of the entry.
* `no_lostWakeup`: in the runs that meet it, a runnable entry is not left while all workers block,
  unless a `tickle()` is still to come, and that one wakes a worker.
* `schedule_unheard`: a callback that is left.
-/

namespace Ddg

variable {ω κ : Type}

/-- An entry for any thread that is a callback, or whose fiber can be dispatched. -/
def Entry.runnable (e : Entry κ) (state : FiberStates) : Bool :=
  e.thread == 0 &&
    match e.fiber with
    | none => true
    | some f => (state f).runnable

/-- One of the entries is such. -/
def AnyRunnable (es : List (Entry κ)) (state : FiberStates) : Prop :=
  ∃ e ∈ es, e.runnable state = true

instance (es : List (Entry κ)) (state : FiberStates) : Decidable (AnyRunnable es state) :=
  inferInstanceAs (Decidable (∃ e ∈ es, e.runnable state = true))

/-- The state of a fiber that no entry has does not matter. -/
theorem AnyRunnable.of_update {es : List (Entry κ)} {state : FiberStates} {f : ℕ} {x : FiberState}
    (h : AnyRunnable es (Function.update state f x)) (hf : ∀ e ∈ es, e.fiber ≠ some f) :
    AnyRunnable es state := by
  obtain ⟨e, he, hr⟩ := h
  refine ⟨e, he, ?_⟩
  unfold Entry.runnable at hr ⊢
  cases hef : e.fiber with
  | none =>
    rw [hef] at hr
    exact hr
  | some g =>
    have hgf : g ≠ f := fun hgf => hf e he (by rw [hef, hgf])
    simp only [hef, Function.update_of_ne hgf] at hr
    exact hr

/-- At the `tickle()` after a scan that took nothing. -/
def Pc.tickling : Pc κ → Bool
  | .tickled => true
  | _ => false

theorem Pc.eq_of_tickling {pc : Pc κ} (h : pc.tickling = true) : pc = .tickled := by
  cases pc <;> first | rfl | cases h

namespace Sched

/-- A byte is in the pipe, a `tickle()` is to come, or a worker other than `but` will scan before it
blocks, or is about to call `tickle()`. -/
def State.Heard (s : State ω κ) (but : Option ω) : Prop :=
  0 < s.pipe ∨ 0 < s.tickles ∨
    ∃ u, some u ≠ but ∧ ((s.pc u).due = true ∨ (s.pc u).tickling = true)

/-- No worker is in `run`, or somebody has heard of the runnable entries. -/
def State.NoneMissed (s : State ω κ) : Prop :=
  AnyRunnable s.fibers s.state → (∀ u, (s.pc u).inRun = false) ∨ s.Heard none

/-- All workers in `run` block in `epoll_wait`. -/
structure State.AllBlocked (s : State ω κ) : Prop where
  nonempty : ∃ w, (s.pc w).inRun = true
  wait : ∀ w, (s.pc w).inRun = true → s.pc w = .wait

/-- While all workers in `run` block in `epoll_wait` with no byte in the pipe, no entry can be
run. -/
def State.NoLostWakeup (s : State ω κ) : Prop :=
  s.AllBlocked → s.pipe = 0 → ∀ e ∈ s.fibers, e.runnable s.state = false

theorem State.NoneMissed.noLostWakeup {s : State ω κ} (h : s.NoneMissed) (htickles : s.tickles = 0) :
    s.NoLostWakeup := by
  rintro ⟨⟨w, hw⟩, hwait⟩ hpipe e he
  cases hr : e.runnable s.state with
  | false => rfl
  | true =>
    rcases h ⟨e, he, hr⟩ with hnone | hp | ht | ⟨u, -, hu⟩
    · rw [hnone w] at hw
      cases hw
    · omega
    · omega
    · -- a worker that blocks does neither
      have hin : (s.pc u).inRun = true := by
        rcases hu with hu | hu
        · exact Pc.inRun_of_due hu
        · rw [Pc.eq_of_tickling hu]
          rfl
      rw [hwait u hin] at hu
      rcases hu with hu | hu <;> cases hu

/-- Somebody else has heard of the runnable entries, or no worker is in `run` after worker `w` has
gone to rest. -/
def State.MayRest (s : State ω κ) (w : ω) : Prop :=
  s.Heard (some w) ∨ ((s.idleFt w).isSome = false ∧ ∀ u, u ≠ w → (s.pc u).inRun = false)

variable {s s' : State ω κ}

/-- A step that moves no worker and takes no wakeup away. -/
theorem State.NoneMissed.keep (h : s.NoneMissed)
    (hrun : AnyRunnable s'.fibers s'.state → AnyRunnable s.fibers s.state) (hpc : s'.pc = s.pc)
    (hpipe : s.pipe ≤ s'.pipe) (htickles : s.tickles ≤ s'.tickles) : s'.NoneMissed := by
  intro hr
  rw [hpc]
  rcases h (hrun hr) with h | h | h | ⟨u, hu, h⟩
  · exact .inl h
  · exact .inr (.inl (h.trans_le hpipe))
  · exact .inr (.inr (.inl (h.trans_le htickles)))
  · exact .inr (.inr (.inr ⟨u, hu, by rw [hpc]; exact h⟩))

theorem Heard.of_none {w : ω} (h : s.Heard none) (hdue : (s.pc w).due = false)
    (ht : (s.pc w).tickling = false) : s.Heard (some w) := by
  rcases h with h | h | ⟨u, -, h⟩
  · exact .inl h
  · exact .inr (.inl h)
  · refine .inr (.inr ⟨u, fun huw => ?_, h⟩)
    cases huw
    rw [hdue, ht] at h
    rcases h with h | h <;> cases h

variable [DecidableEq ω]

/-- The others that have heard, after a step of worker `w`. -/
theorem State.Heard.move {w : ω} {pc : Pc κ} (h : s.Heard (some w))
    (hpc : s'.pc = Function.update s.pc w pc) (hpipe : s.pipe ≤ s'.pipe)
    (htickles : s'.tickles = s.tickles) : s'.Heard none := by
  rcases h with h | h | ⟨u, hu, h⟩
  · exact .inl (h.trans_le hpipe)
  · exact .inr (.inl (htickles ▸ h))
  · refine .inr (.inr ⟨u, nofun, ?_⟩)
    rw [hpc, Function.update_of_ne fun huw => hu (by rw [huw])]
    exact h

/-- Worker `w` goes to rest after a step that left the wakeups of the others. -/
theorem noneMissed_of_rest {w : ω} (hpc : s'.pc = Function.update s.pc w (s.rest w))
    (hpipe : s.pipe ≤ s'.pipe) (htickles : s'.tickles = s.tickles)
    (h : s.MayRest w) : (∀ u, (s'.pc u).inRun = false) ∨ s'.Heard none := by
  rcases h with h | ⟨hft, h⟩
  · exact .inr (h.move hpc hpipe htickles)
  · -- the last worker has left
    refine .inl fun u => ?_
    rw [hpc]
    by_cases hu : u = w
    · rw [hu, Function.update_self]
      unfold State.rest
      rw [hft]
      rfl
    · rw [Function.update_of_ne hu]
      exact h u hu

variable [Fintype ω]

/-- A `tickle()` that finds no worker counted as idle, and a scan that takes nothing and does not
tickle, leave no runnable entry of which nobody else has heard; and no fiber is reset that is
queued. -/
def State.Attentive (cfg : Config ω) (s : State ω κ) : Label ω κ → Prop
  | .tickle => s.idleThreadCount = 0 → AnyRunnable s.fibers s.state →
      (∀ u, (s.pc u).inRun = false) ∨ State.Heard { s with tickles := s.tickles - 1 } none
  | .run w =>
    ((s.pc w).tickling = true → s.idleThreadCount = 0 → AnyRunnable s.fibers s.state →
      s.MayRest w) ∧
    ∀ r ∈ s.scanOf cfg w, r.taken = none → r.tickleMe = false → AnyRunnable r.rest r.state →
      s.MayRest w
  | .reset f => ∀ e ∈ s.fibers, e.fiber ≠ some f
  | _ => True

instance (s : State ω κ) (but : Option ω) : Decidable (s.Heard but) :=
  inferInstanceAs (Decidable (_ ∨ _ ∨ _))

instance (s : State ω κ) (w : ω) : Decidable (s.MayRest w) := inferInstanceAs (Decidable (_ ∨ _))

instance (cfg : Config ω) (s : State ω κ) : ∀ l, Decidable (s.Attentive cfg l)
  | .tickle => inferInstanceAs (Decidable (s.idleThreadCount = 0 →
      AnyRunnable s.fibers s.state →
      (∀ u, (s.pc u).inRun = false) ∨ State.Heard { s with tickles := s.tickles - 1 } none))
  | .run w => inferInstanceAs (Decidable (((s.pc w).tickling = true → s.idleThreadCount = 0 →
      AnyRunnable s.fibers s.state → s.MayRest w) ∧
      ∀ r ∈ s.scanOf cfg w, r.taken = none → r.tickleMe = false → AnyRunnable r.rest r.state →
        s.MayRest w))
  | .reset f => inferInstanceAs (Decidable (∀ e ∈ s.fibers, e.fiber ≠ some f))
  | .schedule _ | .create | .task .. | .idle .. | .wake .. | .start | .stop | .caller _ =>
    .isTrue trivial

variable {cfg : Config ω}

/-- After a step of a worker somebody has heard of the runnable entries. -/
theorem noneMissed_of_worker {w : ω} (hio : cfg.io = true) (hw : WorkerStep cfg s w s')
    (hc : s.Attentive cfg (.run w)) (h : s.NoneMissed) : s'.NoneMissed := by
  intro hr
  have hin := hw.pc.1
  have hheard : AnyRunnable s.fibers s.state → s.Heard none := fun hr => by
    rcases h hr with h | h
    · rw [h w] at hin
      cases hin
    · exact h
  cases hw with
  | due pc hin hpc hdue hframe =>
    refine .inr (.inr (.inr ⟨w, nofun, .inl ?_⟩))
    rw [hpc, Function.update_self]
    exact hdue
  | @pass r hsc ht =>
    cases htm : r.tickleMe with
    | true =>
      refine .inr (.inr (.inr ⟨w, nofun, .inr ?_⟩))
      show (Function.update s.pc w _ w).tickling = true
      rw [Function.update_self]
      rfl
    | false =>
      exact noneMissed_of_rest (s := s) rfl (le_refl _) rfl (hc.2 r hsc ht htm hr)
  | tickled hpc =>
    by_cases hidle : s.idleThreadCount = 0
    · refine noneMissed_of_rest (s := s) (w := w) ?_ le_tickle_pipe ?_ ?_
      · rw [tickle_eq]
        rfl
      · rw [tickle_eq]
        rfl
      · refine hc.1 (by rw [hpc]; rfl) hidle ?_
        rw [tickle_eq] at hr
        exact hr
    · exact .inr (.inl (tickle_wakes hio hidle))
  | idle hpc =>
    exact .inr ((Heard.of_none (hheard hr) (by rw [hpc]; rfl) (by rw [hpc]; rfl)).move rfl
      (le_refl _) rfl)
  | wait hpc =>
    exact .inr ((Heard.of_none (hheard hr) (by rw [hpc]; rfl) (by rw [hpc]; rfl)).move rfl
      (le_refl _) rfl)

/-- After a step of `stop()`. -/
theorem noneMissed_of_caller {quiet : Bool} (hm : CallerMove cfg s quiet s')
    (hstaged : s.Staged cfg) (h : s.NoneMissed) : s'.NoneMissed := by
  have hkeep : ∀ {b x c}, State.NoneMissed { s with stopping := b, rootState := x, caller := c } :=
    fun {_ _ _} => h.keep id rfl (le_refl _) (le_refl _)
  unfold State.Staged at hstaged
  cases hm with
  | rootEnded hc hr he =>
    rw [hc] at hstaged
    cases hstaged.2.1.symm.trans he
  | checked hc =>
    rw [hc] at hstaged
    exact hstaged.elim
  | tickle hc =>
    refine h.keep (fun hr => ?_) ?_ le_tickle_pipe ?_
    · rw [tickle_eq] at hr
      exact hr
    · rw [tickle_eq]
    · rw [tickle_eq]
  | @enter r hc hr hq hpc =>
    -- the root fiber scans
    refine fun _ => .inr (.inr (.inr ⟨r, nofun, .inl ?_⟩))
    show (Function.update s.pc r .scan r).due = true
    rw [Function.update_self]
    rfl
  | _ => exact hkeep

/-- Each step that meets the condition leaves no runnable entry that nobody has heard of. -/
theorem noneMissed_step {l : Label ω κ} (hio : cfg.io = true) (hst : step cfg s l = some s')
    (hwf : s.Wf) (hstaged : s.Staged cfg) (hc : s.Attentive cfg l) (h : s.NoneMissed) :
    s'.NoneMissed := by
  cases step_case hst with
  | @worker l w s' hl hw =>
    by_cases hrun : l = .run w
    · subst hrun
      exact noneMissed_of_worker hio hw hc h
    · -- no scan and no `tickle()`
      refine noneMissed_of_worker hio hw ⟨fun ht => ?_, fun r hr => ?_⟩ h
      · have hpc := Pc.eq_of_tickling ht
        cases l with
        | run u => cases hl; exact absurd rfl hrun
        | task u out => cases hl; simp [step, taskStep, hpc] at hst
        | idle u quiet => cases hl; simp [step, idleStep, hpc] at hst
        | wake u pipe => cases hl; simp [step, wakeStep, hpc] at hst
        | _ => cases hl
      · exact absurd (run_of_scanOf hl hst hr) hrun
  | @schedule items new n hn hnew =>
    by_cases hne : new = []
    · subst hne
      refine h.keep (fun hr => ?_) rfl (le_refl _) hn
      rwa [show s.fibers ++ [] = s.fibers from List.append_nil _] at hr
    · exact fun _ => .inr (.inr (.inl (hnew hne)))
  | tickle =>
    intro hr
    by_cases hidle : s.idleThreadCount = 0
    · rw [tickle_eq] at hr
      rcases hc hidle hr with hnone | hp | ht | hu
      · rw [tickle_eq]
        exact .inl hnone
      · exact .inr (.inl (Nat.lt_of_lt_of_le (show 0 < s.pipe from hp) le_tickle_pipe))
      · exact .inr (.inr (.inl ht))
      · rw [tickle_eq]
        exact .inr (.inr (.inr hu))
    · exact .inr (.inl (tickle_wakes hio hidle))
  | create =>
    refine h.keep (fun hr => AnyRunnable.of_update hr fun e he hf => ?_) rfl (le_refl _)
      (le_refl _)
    exact absurd ((hwf.accepted e (.inl he)).made _ hf) (lt_irrefl _)
  | reset => exact h.keep (fun hr => AnyRunnable.of_update hr hc) rfl (le_refl _) (le_refl _)
  | @start pc hcaller hoff hpc =>
    unfold State.Staged at hstaged
    rw [hcaller] at hstaged
    intro _
    by_cases hroot : ∃ w, some w ≠ cfg.root
    · obtain ⟨w, hw⟩ := hroot
      refine .inr (.inr (.inr ⟨w, (fun he => by cases he), .inl ?_⟩))
      show (pc w).due = true
      rw [hoff w (hstaged.1 w), if_neg hw]
      rfl
    · push Not at hroot
      refine .inl fun w => ?_
      show (pc w).inRun = false
      rw [hoff w (hstaged.1 w), if_pos (hroot w)]
      rfl
  | stop => exact h.keep id rfl (le_refl _) (le_refl _)
  | caller hm => exact noneMissed_of_caller hm hstaged h

theorem noneMissed_inductive (hio : cfg.io = true) :
    (sys (κ := κ) cfg).Inductive (State.Attentive cfg) fun s =>
      (s.toCore.Tracked ∧ s.Staged cfg) ∧ s.NoneMissed := by
  refine (tracked_inductive.both staged_inductive).and (fun s hs hr => ?_)
    fun s l s' hi h hc hst => noneMissed_step hio hst hi.1.wf hi.2 hc h
  rw [show s = {} from hs] at hr
  obtain ⟨e, he, -⟩ := hr
  cases he

omit [DecidableEq ω] in
/-- While all workers block, a worker is counted as idle. -/
theorem State.AllBlocked.idle (cfg : Config ω) (h : s.AllBlocked) (hr : s.Resting) :
    s.idleThreadCount ≠ 0 := by
  obtain ⟨⟨w, hw⟩, hwait⟩ := h
  intro hzero
  have hsum := hr.toNat cfg
  rw [hzero] at hsum
  have := Finset.sum_eq_zero_iff.mp hsum.symm w (Finset.mem_univ w)
  rw [hwait w hw] at this
  cases this

/-- In every run of an `IOManager` that meets the condition no wakeup is lost: with no `tickle()`
to come, no runnable entry is left while all workers block; and one that is to come then puts a byte
in the pipe. -/
theorem no_lostWakeup {s : State ω κ} (hio : cfg.io = true)
    (h : (sys cfg).Reach (State.Attentive cfg) s) :
    (s.tickles = 0 → s.NoLostWakeup) ∧
    (0 < s.tickles → s.AllBlocked → ∃ s', step cfg s .tickle = some s' ∧ 0 < s'.pipe) := by
  refine ⟨((noneMissed_inductive hio).reach h).2.noLostWakeup, fun ht hb => ?_⟩
  have hidle := hb.idle cfg (resting_inductive.reach h)
  exact ⟨_, if_pos ht, tickle_wakes hio hidle⟩

/-- The worker blocks, a callback is scheduled and wakes it, and it blocks again. -/
theorem no_lostWakeup_callback : ∃ s : State (Fin 1) Unit,
    s.pc 0 = .wait ∧ s.pipe = 0 ∧ s.retired.length = 1 ∧ s.NoLostWakeup := by
  obtain ⟨s, hs, hp⟩ := Interleave.Sys.exists_of_runBy (S := sys (κ := Unit) ioWorker)
    (C := State.Attentive ioWorker) (s := {})
    (List.flatten [[.start, .run 0, .run 0, .idle 0 false, .schedule [{ cb := some () }], .tickle,
        .wake 0 true], .replicate 9 (.run 0), [.task 0 .term], .replicate 6 (.run 0),
      [.idle 0 false]])
    (p := fun s => s.pc 0 == .wait && s.pipe == 0 && s.retired.length == 1 && s.tickles == 0)
    (by decide +kernel)
  simp only [Bool.and_eq_true, beq_iff_eq] at hp
  obtain ⟨⟨⟨hpc, hpipe⟩, hlen⟩, ht⟩ := hp
  exact ⟨s, hpc, hpipe, hlen, (no_lostWakeup rfl ⟨_, rfl, hs⟩).1 ht⟩

/-- The callback is scheduled between the worker's scan and `m_idleThreadCount++`: `tickle()` finds
no idle worker, and the worker blocks. -/
theorem schedule_unheard : ∃ s : State (Fin 1) Unit,
    (sys ioWorker).Reach Interleave.Sys.free s ∧ s.pc 0 = .wait ∧ s.pipe = 0 ∧ s.tickles = 0 ∧
      s.fibers.map (fun e => (e.cb, e.thread)) = [(some (), 0)] ∧ ¬ s.NoLostWakeup := by
  obtain ⟨s, hs, hp⟩ := Interleave.Sys.exists_of_runBy (S := sys (κ := Unit) ioWorker)
    (C := Interleave.Sys.free) (s := {})
    [.start, .run 0, .schedule [{ cb := some () }], .tickle, .run 0, .idle 0 false]
    (p := fun s => s.pc 0 == .wait && s.pipe == 0 && s.tickles == 0 &&
      s.fibers.map (fun e => (e.cb, e.thread)) == [(some (), 0)] &&
      decide (AnyRunnable s.fibers s.state)) (by decide +kernel)
  simp only [Bool.and_eq_true, beq_iff_eq, decide_eq_true_eq] at hp
  obtain ⟨⟨⟨⟨hw, hpipe⟩, ht⟩, hf⟩, e, he, hr⟩ := hp
  refine ⟨s, ⟨_, rfl, hs⟩, hw, hpipe, ht, hf, fun h => ?_⟩
  have hall : ∀ w, s.pc w = .wait := fun w => by rw [Subsingleton.elim w 0]; exact hw
  have := h ⟨⟨0, by rw [hw]; rfl⟩, fun w _ => hall w⟩ hpipe e he
  rw [hr] at this
  cases this

end Sched
end Ddg
