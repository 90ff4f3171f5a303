import DdgServer.Sched.Progress
import Mathlib.Data.Prod.Lex

/-!
# A `stop()` that returns

Once the calls of `schedule` have made their `tickle()`, there is a way for `stop()` to return from
wherever it is: tasks that end, event loops that find nothing pending, and nothing new to run. A
`tickle()` that waits for room in the pipe holds it up only until an idle worker has read the pipe.

* `Piped.work`: what is left to do, and then the unread bytes.
* `work_worker`, `caller_work`: somebody can lower the work, if no `tickle()` waits.
* `idle_round`, `full_work`: while the pipe is full, an idle worker can read it.
* `stop_returns`: `stop()` can return.
-/

namespace Ddg.Sched

open Interleave

variable {ω κ : Type} [Fintype ω] {s s' : State ω κ} {w u : ω} {ft : Entry κ} {f : ℕ} {ph : Phase}

/-- A step on the way out: tasks end, no event and no timer is pending, `epoll_wait` times out or
reports the pipe, and nothing new is to be run. -/
def Label.Finishing : Label ω κ → Prop
  | .run _ | .task _ .term | .idle _ true | .wake _ _ | .caller true => True
  | _ => False

omit [Fintype ω] in
theorem Label.Finishing.callbacks {l : Label ω κ} (hl : l.Finishing) : l.Callbacks := by
  cases l with
  | schedule => exact hl.elim
  | _ => trivial

variable [DecidableEq ω] {cfg : Config ω} {l : Label ω κ}

/-! ## The steps of the workers -/

/-- The idle fiber ends. -/
theorem ends_work (hpc : s.pc w = .idle)
    (hpc' : s'.pc = Function.update s.pc w .idleDec)
    (hft : s'.idleFt = Function.update s.idleFt w (some .term)) (hcaller : s'.caller = s.caller)
    (hfib : s'.fibers = s.fibers) (hst : s'.state = s.state) : s'.work < s.work := by
  refine step_work hpc' hft hcaller hfib (fun _ _ => by rw [hst]) ?_ fun h => by cases h
  rw [hpc]
  show 3 < if (!s.fibers.isEmpty) = true then 11 else 5
  split <;> decide

variable (cfg) in
/-- `epoll_wait` times out. -/
theorem timeout_work (hpc : s.pc w = .wait) :
    ∃ s', step cfg s (.wake w false) = some s' ∧ s'.work < s.work := by
  refine ⟨s.goto w (.woken false), by simp [step, wakeStep, hpc],
    goto_work rfl rfl rfl rfl rfl ?_ rfl⟩
  rw [hpc]
  exact Nat.lt_succ_self 9

/-- An idle worker ends or, if an entry is queued, goes on to scan again. -/
theorem idle_work (hio : cfg.io = true) (hpc : s.pc w = .idle)
    (h : s.isStoped = true ∨ s.fibers ≠ []) :
    ∃ s', step cfg s (.idle w true) = some s' ∧ s'.work < s.work := by
  cases hstoped : s.isStoped with
  | true =>
    refine ⟨{ s.goto w .idleDec with idleFt := Function.update s.idleFt w (some .term) }, ?_,
      ends_work hpc rfl rfl rfl rfl rfl⟩
    simp only [step, idleStep, hpc, hio, hstoped]
    rfl
  | false =>
    refine ⟨s.goto w .wait, ?_, goto_work rfl rfl rfl rfl rfl ?_ rfl⟩
    · simp only [step, idleStep, hpc, hio, hstoped]
      rfl
    · have hne : s.fibers.isEmpty = false := by
        rcases h with h | h
        · cases hstoped.symm.trans h
        · exact List.isEmpty_eq_false_iff.mpr h
      rw [hpc, hne]
      exact Nat.lt_succ_self 10

/-- All workers in `run` are idle: they scan again if an entry is queued, and they end if none
is. -/
theorem allIdle_work (h : s.Sound cfg) (hauto : s.autoStop = true) (hstop : s.stopping = true)
    (hall : ∀ u, (s.pc u).inRun = true → s.pc u = .idle) (hpc : s.pc w = .idle) :
    ∃ l s', l.Finishing ∧ (∀ u, l ≠ .wake u true) ∧ step cfg s l = some s' ∧ s'.work < s.work := by
  cases hio : cfg.io with
  | false =>
    have hst : step cfg s (.run w) = some { s.goto w .idleDec with
        idleFt := Function.update s.idleFt w (some .term) } := by
      simp only [step, runStep, hpc, hio]
      rfl
    exact ⟨.run w, _, trivial, by rintro u ⟨⟩, hst, ends_work hpc rfl rfl rfl rfl rfl⟩
  | true =>
    have hscan : s.isStoped = true ∨ s.fibers ≠ [] := by
      by_cases hfs : s.fibers = []
      · have hzero : ∑ u, (s.pc u).counted = 0 := Finset.sum_eq_zero fun u _ => by
          cases hu : s.pc u with
          | turn =>
            have := hall u (by rw [hu]; rfl)
            rw [hu] at this
            cases this
          | _ => rfl
        have hactive : s.activeThreadCount = 0 := by
          have := h.tracked.counted.toNat cfg
          rw [hzero] at this
          exact BitVec.eq_of_toNat_eq this
        exact .inl (by simp [Core.isStoped, hauto, hstop, hfs, hactive])
      · exact .inr hfs
    obtain ⟨s', hst, hlt⟩ := idle_work hio hpc hscan
    exact ⟨.idle w true, s', trivial, by rintro u ⟨⟩, hst, hlt⟩

/-- Some worker is in `run`: one of them has a step that lowers the work. -/
theorem work_worker (h : s.Sound cfg) (hauto : s.autoStop = true) (hstop : s.stopping = true)
    (hin : ∃ w, (s.pc w).inRun = true) :
    ∃ l s', l.Finishing ∧ (∀ u, l ≠ .wake u true) ∧ step cfg s l = some s' ∧ s'.work < s.work := by
  have hrun : ∀ w, (∃ s', step cfg s (.run w) = some s' ∧ s'.work < s.work) →
      ∃ l s', l.Finishing ∧ (∀ u, l ≠ .wake u true) ∧ step cfg s l = some s' ∧
        s'.work < s.work := by
    rintro w ⟨s', hst, hlt⟩
    exact ⟨.run w, s', trivial, by rintro u ⟨⟩, hst, hlt⟩
  by_cases hall : ∀ w, (s.pc w).inRun = true → s.pc w = .idle
  · obtain ⟨w, hw⟩ := hin
    exact allIdle_work h hauto hstop hall (hall w hw)
  · obtain ⟨w, hnot⟩ := not_forall.mp hall
    obtain ⟨hw, hidle⟩ := Classical.not_imp.mp hnot
    by_cases hwait : s.pc w = .wait
    · obtain ⟨s', hst, hlt⟩ := timeout_work cfg hwait
      exact ⟨.wake w false, s', trivial, by rintro u ⟨⟩, hst, hlt⟩
    · cases hheld : (s.pc w).held with
      | none => exact hrun w (between_work h hw hheld hidle hwait)
      | some x =>
        obtain ⟨ft, ph⟩ := x
        rw [Pc.held_eq_some] at hheld
        by_cases hph : ph = .task
        · subst hph
          obtain ⟨f, hf⟩ : ∃ f, ft.fiber = some f := by
            have := h.fibered w
            rw [hheld] at this
            exact this rfl
          have hst : step cfg s (.task w .term) =
              some (s.goto w (.turn ft (.yield .term))) := by
            simp [step, taskStep, hheld, hf, Outcome.state, FiberState.ended]
          exact ⟨.task w .term, _, trivial, by rintro u ⟨⟩, hst,
            phase_work hheld rfl rfl rfl rfl rfl (by decide) rfl⟩
        · exact hrun w (turn_work h hheld hph)

/-! ## The steps of `stop()` -/

omit [DecidableEq ω] in
/-- A step of `stop()` that leaves the workers and the queue alone. -/
theorem caller_lt {c : CallerPc} (hcaller : s'.caller = c) (hpc : s'.pc = s.pc)
    (hft : s'.idleFt = s.idleFt) (hfib : s'.fibers = s.fibers) (hst : s'.state = s.state)
    (hlt : c.toGo (Fintype.card ω) < s.caller.toGo (Fintype.card ω)) : s'.work < s.work := by
  have hof : ∑ w, s'.workOf w = ∑ w, s.workOf w := Finset.sum_congr rfl fun w _ => by
    unfold State.workOf
    rw [hpc, hft, hfib, hst]
  unfold State.work
  rw [hfib, hcaller, hof]
  omega

/-- The root worker goes into `run`. -/
theorem enter_work {r : ω} (hc : s.caller = .stopRoot) :
    ({ s.goto r .scan with caller := .rootRun } : State ω κ).work < s.work := by
  have hothers : ∀ u, u ≠ r →
      ({ s.goto r .scan with caller := .rootRun } : State ω κ).workOf u ≤ s.workOf u + 0 :=
    fun u hu => workOf_le (Function.update_of_ne hu ..) rfl rfl id
  have hsum := sum_rise r 0 hothers
  have hnew : ({ s.goto r .scan with caller := .rootRun } : State ω κ).workOf r ≤ 7 := by
    unfold State.workOf
    rw [show ({ s.goto r .scan with caller := .rootRun } : State ω κ).pc r = .scan from
      Function.update_self ..]
    show (if (s.idleFt r).isSome then 7 else 2) + 0 ≤ 7
    split <;> decide
  unfold State.work
  rw [hc]
  show 2 + _ + 20 * s.fibers.length < 10 + _ + 20 * s.fibers.length
  omega

/-- Each step of `stop()` lowers the work. -/
theorem caller_work {quiet : Bool} (hm : CallerMove cfg s quiet s') : s'.work < s.work := by
  cases hm with
  | stoped hc | rootEnded hc | goOn hc | set hc | root hc | noRoot hc | skip hc | joined hc =>
    refine caller_lt rfl rfl rfl rfl rfl ?_
    rw [hc]
    simp only [CallerPc.toGo]
    omega
  | checked hc =>
    refine caller_lt rfl rfl rfl rfl rfl ?_
    rw [hc]
    split <;> simp only [CallerPc.toGo] <;> omega
  | tickle hc =>
    rw [tickle_eq]
    refine caller_lt rfl rfl rfl rfl rfl ?_
    rw [hc]
    exact Nat.lt_succ_self _
  | enter hc => exact enter_work hc
  | left hc =>
    refine caller_lt rfl rfl rfl rfl rfl ?_
    rw [hc]
    exact Nat.lt_succ_self 1

/-- `stop()` goes on, or it waits for a worker that is in `run`. -/
theorem caller_goesOn (h : s.Sound cfg) (hcalled : s.caller.called = true)
    (hnot : s.caller ≠ .stopped) :
    (∃ s', step cfg s (.caller true) = some s') ∨
      s.stopping = true ∧ s.autoStop = true ∧ ∃ w, (s.pc w).inRun = true := by
  have hauto : s.autoStop = true := by
    by_contra hf
    rw [h.flagged.autoStop (Bool.eq_false_of_not_eq_true hf)] at hcalled
    cases hcalled
  have hstopping : CallerPc.early s.caller = false → s.stopping = true := by
    intro he
    by_contra hf
    rw [h.flagged.stopping (Bool.eq_false_of_not_eq_true hf)] at he
    cases he
  have hroot := h.rooted
  have hstaged := h.staged
  unfold State.Rooted at hroot
  unfold State.Staged at hstaged
  show (∃ s', callerStep cfg s true = some s') ∨ _
  cases hc : s.caller with
  | fresh | started =>
    rw [hc] at hcalled
    cases hcalled
  | stopped => exact absurd hc hnot
  | stopCheck =>
    simp only [callerStep, hc]
    refine .inl ?_
    split
    · exact ⟨_, rfl⟩
    · split <;> exact ⟨_, rfl⟩
  | stopCheckRoot | stopSet =>
    simp only [callerStep, hc]
    exact .inl ⟨_, rfl⟩
  | stopTickle n =>
    simp only [callerStep, hc]
    refine .inl ?_
    cases n with
    | zero => cases hr : cfg.root.isSome <;> exact ⟨_, rfl⟩
    | succ n => exact ⟨_, rfl⟩
  | stopRoot =>
    rw [hc] at hroot hstaged
    obtain ⟨r, hr⟩ := hroot
    have hoff := hstaged.2 r hr
    simp only [callerStep, hc, hr, hoff]
    refine .inl ?_
    split <;> exact ⟨_, rfl⟩
  | rootRun =>
    rw [hc] at hroot hstopping
    obtain ⟨r, hr, hne⟩ := hroot
    cases hpc : s.pc r with
    | off => exact absurd hpc hne
    | left =>
      simp only [callerStep, hc, hr, hpc]
      exact .inl ⟨_, rfl⟩
    | _ => exact .inr ⟨hstopping rfl, hauto, r, by rw [hpc]; rfl⟩
  | join =>
    rw [hc] at hstopping
    by_cases hall : ∀ w, some w ≠ cfg.root → (s.pc w).inRun = false
    · simp only [callerStep, hc]
      exact .inl ⟨_, if_pos hall⟩
    · obtain ⟨w, hw⟩ := not_forall.mp hall
      obtain ⟨-, hin⟩ := Classical.not_imp.mp hw
      exact .inr ⟨hstopping rfl, hauto, w, Bool.eq_true_of_not_eq_false hin⟩

/-- `stop()` stays called. -/
theorem called_step (hst : step cfg s l = some s') (h : s.caller.called = true) :
    s'.caller.called = true := by
  cases step_case hst with
  | worker _ hw => rwa [hw.frame.caller]
  | tickle => rwa [tickle_eq]
  | schedule | create | reset => exact h
  | start hc =>
    rw [hc] at h
    cases h
  | stop => rfl
  | caller hm =>
    cases hm with
    | checked =>
      show (if s.virtualIsStoped cfg _ then CallerPc.stopped else .stopSet).called = true
      split <;> rfl
    | _ => rfl

/-! ## The pipe -/

variable {cap : ℕ} {x y : Piped ω κ}

/-- What is left to do before `stop()` returns, and then the unread bytes. -/
def Piped.work (x : Piped ω κ) : ℕ ×ₗ ℕ := toLex (x.sched.work, x.sched.pipe)

omit [DecidableEq ω] in
theorem Piped.work_lt (h : y.sched.work < x.sched.work) : y.work < x.work :=
  Prod.Lex.toLex_lt_toLex.mpr (.inl h)

omit [DecidableEq ω] in
/-- Only the pipe has changed. -/
theorem Piped.work_lt_of_pipe {n : ℕ} (hy : y.sched = x.sched.withPipe n)
    (hn : n < x.sched.pipe) : y.work < x.work := by
  unfold work
  rw [hy]
  exact Prod.Lex.toLex_lt_toLex.mpr (.inr ⟨rfl, hn⟩)

/-- A `read` that finds bytes. -/
theorem read_work (hpc : x.sched.pc w = .woken true) (hp : x.sched.pipe ≠ 0) :
    ∃ y, (pipedSys cfg cap).Steps (fun _ l => l.Finishing) x y ∧ y.work < x.work := by
  refine ⟨_, .tail (.run w) .refl trivial (read_eq hpc hp), Piped.work_lt_of_pipe rfl ?_⟩
  omega

/-- A step of the scheduler that lowers the work, with the pipe of the kernel: where it reads the
pipe, one `read` comes first. -/
theorem lower_of_step (hl : l.Finishing) (hwake : ∀ u, l ≠ .wake u true)
    (hst : step cfg x.sched l = some s) (hlt : s.work < x.sched.work)
    (hroom : l.tickles x.sched → x.Room cfg cap) :
    ∃ y, (pipedSys cfg cap).Steps (fun _ l => l.Finishing) x y ∧ y.work < x.work := by
  by_cases hreads : l.reads x.sched
  · obtain ⟨w, rfl, hpc⟩ : ∃ w, l = .run w ∧ x.sched.pc w = .woken true := by
      cases l with
      | run w => exact ⟨w, rfl, hreads⟩
      | wake w pipe =>
        cases show pipe = true from hreads
        exact absurd rfl (hwake w)
      | _ => exact hreads.elim
    by_cases hp : x.sched.pipe = 0
    · rw [woken_eq hpc] at hst
      cases hst
      exact ⟨_, .tail (.run w) .refl trivial (drained_eq hpc hp), Piped.work_lt hlt⟩
    · exact read_work hpc hp
  · obtain ⟨y, hy, rfl⟩ := pipedStep_of_step hst hreads hroom
    exact ⟨y, .tail l .refl hl hy, Piped.work_lt hlt⟩

variable (cfg cap) in
/-- A worker reads until the pipe is empty. -/
theorem reads_steps (hpc : x.sched.pc w = .woken true) :
    (pipedSys cfg cap).Steps (fun _ l => l.Finishing) x
      { x with sched := x.sched.withPipe 0 } := by
  induction hn : x.sched.pipe using Nat.strongRecOn generalizing x with
  | _ n ih =>
    by_cases hp : x.sched.pipe = 0
    · rw [show x.sched.withPipe 0 = x.sched by rw [← hp]; rfl]
      exact .refl
    · have hread := (read_eq hpc hp : pipedStep cfg cap x (.run w) = _)
      have hlt : x.sched.pipe - 256 < n := by omega
      generalize x.sched.pipe - 256 = m at hread hlt
      have hrest := ih m hlt (x := { x with sched := x.sched.withPipe m }) hpc rfl
      exact hrest.head (a := .run w) (show (Label.run w).Finishing from trivial) hread

/-- A step that neither reads nor writes. -/
theorem quiet_eq (hst : step cfg x.sched l = some s) (hl : ¬l.reads x.sched)
    (hp : s.pipe = x.sched.pipe) : pipedStep cfg cap x l = some ⟨s, x.ready⟩ := by
  have hnot : ¬(x.sched.pipe < s.pipe) := by omega
  rw [pipedStep_eq_write hl, Piped.write, hst, Option.bind_some, if_neg fun h => hnot h.1,
    decide_eq_false hnot, Bool.or_false]

/-- Worker `w` is back from its idle fiber, at `pc`. -/
def State.rested (s : State ω κ) (w : ω) (pc : Pc κ) : State ω κ :=
  { s.goto w pc with
    idleThreadCount := s.idleThreadCount - 1, idleFt := Function.update s.idleFt w (some .hold) }

variable (cfg cap) in
/-- An idle worker that finds no entry goes from its `m_idleThreadCount--` back to its idle
fiber. -/
theorem rest_steps (hpc : x.sched.pc w = .idle) (hft : x.sched.idleFt w = some .exec)
    (hnil : x.sched.fibers = []) :
    (pipedSys cfg cap).Steps (fun _ l => l.Finishing)
      { x with sched := x.sched.goto w .idleDec } x := by
  obtain ⟨s, ready⟩ := x
  change s.pc w = .idle at hpc
  change s.idleFt w = some .exec at hft
  change s.fibers = [] at hnil
  have hdec : step cfg (s.goto w .idleDec) (.run w) = some (s.rested w .scan) := by
    simp only [step, runStep, State.rested, State.goto, Core.goto, Function.update_self,
      Function.update_idem]
    rw [hft]
  have hscan : step cfg (s.rested w .scan) (.run w) = some (s.rested w .idleInc) := by
    have hnone : Scan.scan (cfg.tid w) ([] : List (Entry κ)) s.state =
        some { rest := [], state := s.state } := rfl
    simp [step, runStep, State.rested, State.goto, Core.goto, scanStep, State.rest, Core.scanned,
      hnil, hnone]
  have hinc : step cfg (s.rested w .idleInc) (.run w) = some s := by
    simp only [step, runStep, State.rested, State.goto, Core.goto, Function.update_self,
      Function.update_idem, sub_add_cancel]
    rw [if_neg (by rintro ⟨⟩), ← hpc, ← hft, Function.update_eq_self, Function.update_eq_self]
  have hreads : ∀ {t : State ω κ} {pc : Pc κ}, t.pc = Function.update s.pc w pc →
      pc ≠ .woken true → ¬(Label.run w).reads t := by
    intro t pc ht hpc hread
    rw [Label.reads, ht, Function.update_self] at hread
    exact hpc hread
  have hback : (pipedSys cfg cap).Steps (fun _ l => l.Finishing) ⟨s.goto w .idleDec, ready⟩
      ⟨s.rested w .scan, ready⟩ :=
    .tail (.run w) .refl trivial (quiet_eq hdec (hreads rfl (by rintro ⟨⟩)) rfl)
  have hrest : (pipedSys cfg cap).Steps (fun _ l => l.Finishing) ⟨s.goto w .idleDec, ready⟩
      ⟨s.rested w .idleInc, ready⟩ :=
    .tail (.run w) hback trivial (quiet_eq hscan (hreads rfl (by rintro ⟨⟩)) rfl)
  exact .tail (.run w) hrest trivial (quiet_eq hinc (hreads rfl (by rintro ⟨⟩)) rfl)

/-- While nothing is queued, an idle worker to which the pipe is reported reads it and is idle
again. -/
theorem idle_round (hio : cfg.io = true) (hpc : x.sched.pc w = .idle)
    (hft : x.sched.idleFt w = some .exec) (hnil : x.sched.fibers = [])
    (hns : x.sched.isStoped = false) (hr : x.ready = true) (hp : x.sched.pipe ≠ 0) :
    (pipedSys cfg cap).Steps (fun _ l => l.Finishing) x ⟨x.sched.withPipe 0, false⟩ := by
  have hgoto : ∀ pc : Pc κ, (x.sched.goto w .wait).goto w pc = x.sched.goto w pc := fun pc => by
    simp [State.goto, Core.goto]
  have hwait : pipedStep cfg cap x (.idle w true) = some ⟨x.sched.goto w .wait, true⟩ := by
    rw [quiet_eq (s := x.sched.goto w .wait) ?_ id rfl, hr]
    simp only [step, idleStep, hpc, hio, hns]
    rfl
  have hreport : pipedStep cfg cap ⟨x.sched.goto w .wait, true⟩ (.wake w true) =
      some ⟨x.sched.goto w (.woken true), false⟩ := by
    refine (report_eq (x := ⟨x.sched.goto w .wait, true⟩) rfl (Function.update_self ..) hp).trans ?_
    rw [hgoto]
  have hreads := reads_steps cfg cap (w := w)
    (x := ⟨x.sched.goto w (.woken true), false⟩) (Function.update_self ..)
  have hdrained : pipedStep cfg cap ⟨(x.sched.goto w (.woken true)).withPipe 0, false⟩ (.run w) =
      some ⟨(x.sched.withPipe 0).goto w .idleDec, false⟩ := by
    rw [drained_eq (Function.update_self ..) rfl]
    simp [State.goto, Core.goto, State.withPipe]
  have hrest := rest_steps cfg cap (w := w) (x := ⟨x.sched.withPipe 0, false⟩) hpc hft hnil
  have hbegin : (pipedSys cfg cap).Steps (fun _ l => l.Finishing) x
      ⟨x.sched.goto w (.woken true), false⟩ :=
    .tail (.wake w true) (.tail (.idle w true) .refl trivial hwait) trivial hreport
  exact (hbegin.trans (.tail (.run w) hreads trivial hdrained)).trans hrest

/-- While a `tickle()` waits for room in the pipe, an idle worker can lower the work, or read. -/
theorem full_work (h : x.sched.Sound cfg) (ht : x.Told cap) (hcap : 0 < cap)
    (hfull : ¬x.Room cfg cap) :
    ∃ y, (pipedSys cfg cap).Steps (fun _ l => l.Finishing) x y ∧ y.work < x.work := by
  obtain ⟨⟨hio, hcount⟩, hle⟩ := Classical.not_imp.mp hfull
  have hp : 0 < x.sched.pipe := hcap.trans_le (Nat.le_of_not_lt hle)
  rcases ht.ready hp with hr | ⟨w, hw⟩
  · obtain ⟨w, hidling⟩ := h.resting.exists_idling hcount
    have hrun : (x.sched.pc w).atTickle = false → (x.sched.pc w).held = none →
        x.sched.pc w ≠ .idle → x.sched.pc w ≠ .wait → (x.sched.pc w).inRun = true →
        ∃ y, (pipedSys cfg cap).Steps (fun _ l => l.Finishing) x y ∧ y.work < x.work := by
      intro hno hheld hidle hwait hin
      obtain ⟨s, hst, hlt⟩ := between_work h hin hheld hidle hwait
      refine lower_of_step (l := .run w) trivial (by rintro u ⟨⟩) hst hlt fun htick => ?_
      cases hno.symm.trans htick
    cases hpc : x.sched.pc w with
    | idle =>
      by_cases hscan : x.sched.isStoped = true ∨ x.sched.fibers ≠ []
      · obtain ⟨s, hst, hlt⟩ := idle_work hio hpc hscan
        exact lower_of_step (l := .idle w true) trivial (by rintro u ⟨⟩) hst hlt False.elim
      · obtain ⟨hns, hnil⟩ := not_or.mp hscan
        have hft := h.resting.idleFt w
        rw [hpc] at hft
        exact ⟨_, idle_round hio hpc hft (not_not.mp hnil) (Bool.eq_false_of_not_eq_true hns) hr
          hp.ne', Piped.work_lt_of_pipe rfl hp⟩
    | wait =>
      obtain ⟨s, hst, hlt⟩ := timeout_work cfg hpc
      exact lower_of_step (l := .wake w false) trivial (by rintro u ⟨⟩) hst hlt False.elim
    | woken | idleDec =>
      rw [hpc] at hrun
      exact hrun rfl rfl (by rintro ⟨⟩) (by rintro ⟨⟩) rfl
    | _ =>
      rw [hpc] at hidling
      exact absurd rfl hidling
  · exact read_work hw hp.ne'

theorem sound_piped (hs : (pipedSys cfg cap).Reach (fun _ l => l.Callbacks) x) :
    x.sched.Sound cfg ∧ x.Told cap := by
  obtain ⟨a, ha, hc, ht⟩ := covers_reach (D := fun _ l => l.Callbacks) (fun _ _ _ _ h => h) hs
  exact ⟨(sound_inductive.reach ha).covers hc, ht⟩

/-- Until `stop()` has returned, there are steps that lower the work, or the unread bytes. -/
theorem finishing_work (hcap : 0 < cap)
    (hs : (pipedSys cfg cap).Reach (fun _ l => l.Callbacks) x)
    (hcalled : x.sched.caller.called = true) (hnot : x.sched.caller ≠ .stopped) :
    ∃ y, (pipedSys cfg cap).Steps (fun _ l => l.Finishing) x y ∧ y.work < x.work := by
  obtain ⟨h, ht⟩ := sound_piped hs
  by_cases hroom : x.Room cfg cap
  · rcases caller_goesOn h hcalled hnot with ⟨s, hst⟩ | ⟨hstop, hauto, hin⟩
    · exact lower_of_step (l := .caller true) trivial (by rintro u ⟨⟩) hst
        (caller_work (callerMove_of_step hst)) fun _ => hroom
    · obtain ⟨l, s, hl, hwake, hst, hlt⟩ := work_worker h hauto hstop hin
      exact lower_of_step hl hwake hst hlt fun _ => hroom
  · exact full_work h ht hcap hroom

/-! ## The way out of `stop()` -/

variable (cfg) in
/-- The calls of `schedule` make their `tickle()`, if the pipe has room for their bytes. -/
theorem tickles_made (h : x.sched.pipe + x.sched.tickles ≤ cap) :
    ∃ y, (pipedSys cfg cap).Steps (fun _ l => l = .tickle) x y ∧ y.sched.tickles = 0 := by
  induction hn : x.sched.tickles generalizing x with
  | zero => exact ⟨x, .refl, hn⟩
  | succ n ih =>
    have hst : step cfg x.sched .tickle =
        some { x.sched.tickle cfg with tickles := x.sched.tickles - 1 } :=
      if_pos (by omega)
    have hpipe : x.sched.pipe < cap := by omega
    obtain ⟨y, hy, hsched⟩ := pipedStep_of_step hst id fun _ _ => hpipe
    have hle := (grows_tickle trivial rfl : x.sched.Grows cfg True (x.sched.tickle cfg)).le.2
    have hroom : y.sched.pipe + y.sched.tickles ≤ cap := by
      rw [hsched]
      show (x.sched.tickle cfg).pipe + (x.sched.tickles - 1) ≤ cap
      omega
    have hy' : y.sched.tickles = n := by
      rw [hsched]
      exact Nat.sub_eq_of_eq_add hn
    obtain ⟨z, hz, hzero⟩ := ih hroom hy'
    exact ⟨z, hz.head rfl hy, hzero⟩

theorem called_piped (hst : pipedStep cfg cap x l = some y)
    (h : x.sched.caller.called = true) : y.sched.caller.called = true := by
  cases pipedStep_cases hst with
  | report | drained => exact h
  | read =>
    generalize x.sched.pipe - 256 = n
    exact h
  | other _ hy => exact called_step (write_eq hy).1 h

end Ddg.Sched
