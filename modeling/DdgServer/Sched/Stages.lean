import DdgServer.Sched.Entries

/-!
# Workers between their turns, and the stages of `stop()`

What a step does to the part of the state that is not in the `Core`.

* `worker_step`: a worker's step ends where it will scan again before it blocks (`Pc.due`), or it is
  one of the five steps with which a worker finds nothing, goes idle and blocks, or leaves.
* `StepCase`, `step_case`: every step is one of a worker, of the client or of `stop()`.
* `State.Staged`, `staged_inductive`: where the workers are at each stage of `stop()`.
-/

namespace Ddg

variable {ω κ : Type}

/-- The worker scans `m_fibers` before it blocks. -/
def Pc.due : Pc κ → Bool
  | .scan | .turn .. | .putTickle | .woken _ | .idleDec => true
  | _ => false

theorem Pc.inRun_of_due {pc : Pc κ} (h : pc.due = true) : pc.inRun = true := by
  cases pc <;> first | rfl | cases h

/-- `stop()` has not yet come to the root fiber. -/
def CallerPc.beforeRoot : CallerPc → Bool
  | .rootRun | .join | .stopped => false
  | _ => true

namespace Sched

/-- What a step of worker `w` leaves alone. -/
structure State.Frame (w : ω) (s s' : State ω κ) : Prop where
  caller : s'.caller = s.caller
  rootState : s'.rootState = s.rootState
  stopping : s'.stopping = s.stopping
  autoStop : s'.autoStop = s.autoStop
  tickles : s'.tickles = s.tickles
  idleFt : ∀ u, u ≠ w → s'.idleFt u = s.idleFt u

variable [Fintype ω] [DecidableEq ω] {cfg : Config ω} {s s' : State ω κ}

omit [DecidableEq ω] in
theorem tickle_eq : s.tickle cfg =
    { s with pipe := if cfg.io && s.idleThreadCount != 0 then s.pipe + 1 else s.pipe } := by
  unfold State.tickle
  split <;> rfl

omit [DecidableEq ω] in
theorem le_tickle_pipe : s.pipe ≤ (s.tickle cfg).pipe := by
  unfold State.tickle
  split
  · exact Nat.le_succ _
  · exact le_refl _

omit [DecidableEq ω] in
/-- A `tickle()` of an `IOManager` that finds a worker counted as idle. -/
theorem tickle_wakes (hio : cfg.io = true) (hidle : s.idleThreadCount ≠ 0) :
    0 < (s.tickle cfg).pipe := by
  unfold State.tickle
  rw [if_pos (by rw [hio, Bool.true_and, bne_iff_ne]; exact hidle)]
  exact Nat.succ_pos _

/-- What a step of worker `w` does. -/
inductive WorkerStep (cfg : Config ω) (s : State ω κ) (w : ω) : State ω κ → Prop
  /-- It will scan again. -/
  | due {s' : State ω κ} (pc : Pc κ) (hin : (s.pc w).inRun = true) (hpc : s'.pc = Function.update s.pc w pc)
    (hdue : pc.due = true) (hframe : s.Frame w s') : WorkerStep cfg s w s'
  /-- A scan that took nothing. -/
  | pass {r} (hr : s.scanOf cfg w = some r) (ht : r.taken = none) :
    WorkerStep cfg s w ({ s with toCore := s.toCore.scanned r : State ω κ }.goto w
      (if r.tickleMe then .tickled else s.rest w))
  /-- The `tickle()` after it. -/
  | tickled (hpc : s.pc w = .tickled) : WorkerStep cfg s w ((s.tickle cfg).goto w (s.rest w))
  /-- Into the idle fiber. -/
  | idle (hpc : s.pc w = .idleInc) :
    WorkerStep cfg s w { s.goto w .idle with
      idleThreadCount := s.idleThreadCount + 1
      idleFt := Function.update s.idleFt w (some .exec) }
  /-- Into `epoll_wait`. -/
  | wait (hpc : s.pc w = .idle) (hio : cfg.io = true) : WorkerStep cfg s w (s.goto w .wait)

theorem scan_worker {w : ω} (hpc : s.pc w = .scan) (h : scanStep cfg s w = some s') :
    WorkerStep cfg s w s' := by
  obtain ⟨r, hr, rfl⟩ := Option.map_eq_some_iff.mp h
  have hof : s.scanOf cfg w = some r := scanOf_eq_some.mpr ⟨hpc, hr⟩
  cases ht : r.taken with
  | some ft =>
    exact .due (.turn ft .tickle) (by rw [hpc]; rfl) rfl rfl
      ⟨rfl, rfl, rfl, rfl, rfl, fun _ _ => rfl⟩
  | none => exact .pass hof ht

theorem turn_worker {w : ω} {ft : Entry κ} {f : ℕ} {ph : Phase} (hpc : s.pc w = .turn ft ph)
    (h : turnStep s w ft f ph = some s') : WorkerStep cfg s w s' := by
  have hin : (s.pc w).inRun = true := by rw [hpc]; rfl
  cases ph with
  | tickle => cases h
  | take => cases h
  | task => cases h
  | check =>
    unfold turnStep at h
    simp only at h
    split at h
    · cases h
    · cases h
      exact .due (.turn ft .exec) hin rfl rfl ⟨rfl, rfl, rfl, rfl, rfl, fun _ _ => rfl⟩
  | look out =>
    unfold turnStep at h
    simp only at h
    split at h
    · cases h
      exact .due (.turn ft (.putBack out)) hin rfl rfl
        ⟨rfl, rfl, rfl, rfl, rfl, fun _ _ => rfl⟩
    · split at h
      · cases h
        exact .due .scan hin rfl rfl ⟨rfl, rfl, rfl, rfl, rfl, fun _ _ => rfl⟩
      · cases h
        exact .due (.turn ft .park) hin rfl rfl ⟨rfl, rfl, rfl, rfl, rfl, fun _ _ => rfl⟩
  | _ =>
    cases h
    exact .due _ hin rfl rfl ⟨rfl, rfl, rfl, rfl, rfl, fun _ _ => rfl⟩

theorem run_worker {w : ω} (h : runStep cfg s w = some s') : WorkerStep cfg s w s' := by
  unfold runStep at h
  cases hpc : s.pc w with
  | off => simp only [hpc] at h; cases h
  | wait => simp only [hpc] at h; cases h
  | left => simp only [hpc] at h; cases h
  | scan =>
    simp only [hpc] at h
    exact scan_worker hpc h
  | turn ft ph =>
    have hin : (s.pc w).inRun = true := by rw [hpc]; rfl
    cases ph with
    | tickle =>
      simp only [hpc] at h
      cases h
      rw [tickle_eq]
      exact .due (.turn ft .take) hin rfl rfl ⟨rfl, rfl, rfl, rfl, rfl, fun _ _ => rfl⟩
    | take =>
      simp only [hpc] at h
      split at h
      · cases h
        exact .due (.turn ft .ready) hin rfl rfl ⟨rfl, rfl, rfl, rfl, rfl, fun _ _ => rfl⟩
      · cases h
        exact .due (.turn { ft with fiber := some s.made, cb := none } .ready) hin rfl rfl
          ⟨rfl, rfl, rfl, rfl, rfl, fun _ _ => rfl⟩
      · cases h
        exact .due .scan hin rfl rfl ⟨rfl, rfl, rfl, rfl, rfl, fun _ _ => rfl⟩
    | _ =>
      simp only [hpc] at h
      split at h
      · exact turn_worker hpc h
      · cases h
  | putTickle =>
    simp only [hpc] at h
    cases h
    rw [tickle_eq]
    exact .due .scan (by rw [hpc]; rfl) rfl rfl ⟨rfl, rfl, rfl, rfl, rfl, fun _ _ => rfl⟩
  | tickled =>
    simp only [hpc] at h
    cases h
    exact .tickled hpc
  | idleInc =>
    simp only [hpc] at h
    split at h
    · cases h
    · cases h
      exact .idle hpc
  | idle =>
    simp only [hpc] at h
    split at h
    · cases h
    · cases h
      exact .due .idleDec (by rw [hpc]; rfl) rfl rfl
        ⟨rfl, rfl, rfl, rfl, rfl, fun u hu => Function.update_of_ne hu ..⟩
  | woken pipe =>
    simp only [hpc] at h
    cases h
    split <;> exact .due .idleDec (by rw [hpc]; rfl) rfl rfl
      ⟨rfl, rfl, rfl, rfl, rfl, fun _ _ => rfl⟩
  | idleDec =>
    simp only [hpc] at h
    cases h
    exact .due .scan (by rw [hpc]; rfl) rfl rfl
      ⟨rfl, rfl, rfl, rfl, rfl, fun u hu => Function.update_of_ne hu ..⟩

/-- Every step of a worker is one of these. -/
theorem worker_step {l : Label ω κ} {w : ω} (hl : l.worker = some w)
    (h : step cfg s l = some s') : WorkerStep cfg s w s' := by
  cases l with
  | run u => cases hl; exact run_worker h
  | task u out =>
    cases hl
    simp only [step, taskStep] at h
    split at h
    · rename_i ft hpc
      split at h
      · split at h
        · cases h
          exact .due (.turn ft (.yield out)) (by rw [hpc]; rfl) rfl rfl
            ⟨rfl, rfl, rfl, rfl, rfl, fun _ _ => rfl⟩
        · cases h
      · cases h
    · cases h
  | idle u quiet =>
    cases hl
    simp only [step, idleStep] at h
    split at h
    · rename_i hpc hio
      split at h
      · cases h
        exact .due .idleDec (by rw [hpc]; rfl) rfl rfl
          ⟨rfl, rfl, rfl, rfl, rfl, fun u hu => Function.update_of_ne hu ..⟩
      · cases h
        exact .wait hpc hio
    · cases h
  | wake u pipe =>
    cases hl
    simp only [step, wakeStep] at h
    split at h
    · rename_i hpc
      split at h
      · cases h
      · cases h
        exact .due (.woken pipe) (by rw [hpc]; rfl) rfl rfl
          ⟨rfl, rfl, rfl, rfl, rfl, fun _ _ => rfl⟩
    · cases h
  | schedule => cases hl
  | tickle => cases hl
  | create => cases hl
  | reset => cases hl
  | start => cases hl
  | stop => cases hl
  | caller => cases hl

/-- Only `run w` is a step of a worker that scans. -/
theorem run_of_scanOf {l : Label ω κ} {w : ω} {r : Scan κ} (hl : l.worker = some w)
    (h : step cfg s l = some s') (hr : s.scanOf cfg w = some r) : l = .run w := by
  have hpc := (scanOf_eq_some.mp hr).1
  cases l with
  | run u => cases hl; rfl
  | task u out => cases hl; simp [step, taskStep, hpc] at h
  | idle u quiet => cases hl; simp [step, idleStep, hpc] at h
  | wake u pipe => cases hl; simp [step, wakeStep, hpc] at h
  | _ => cases hl

omit [Fintype ω] [DecidableEq ω] in
theorem rest_eq (w : ω) : s.rest w = .idleInc ∨ s.rest w = .left := by
  unfold State.rest
  split
  · exact .inl rfl
  · exact .inr rfl

theorem WorkerStep.frame {w : ω} (h : WorkerStep cfg s w s') : s.Frame w s' := by
  cases h with
  | due pc hin hpc hdue hframe => exact hframe
  | pass => exact ⟨rfl, rfl, rfl, rfl, rfl, fun _ _ => rfl⟩
  | tickled =>
    rw [tickle_eq]
    exact ⟨rfl, rfl, rfl, rfl, rfl, fun _ _ => rfl⟩
  | idle => exact ⟨rfl, rfl, rfl, rfl, rfl, fun u hu => Function.update_of_ne hu ..⟩
  | wait => exact ⟨rfl, rfl, rfl, rfl, rfl, fun _ _ => rfl⟩

/-- A worker that steps is in `run`, and it is the only one that moves. -/
theorem WorkerStep.pc {w : ω} (h : WorkerStep cfg s w s') :
    (s.pc w).inRun = true ∧ ∃ pc, pc ≠ .off ∧ s'.pc = Function.update s.pc w pc := by
  cases h with
  | due pc hin hpc hdue hframe =>
    refine ⟨hin, _, fun hoff => ?_, hpc⟩
    rw [hoff] at hdue
    cases hdue
  | pass hr ht =>
    refine ⟨by rw [(scanOf_eq_some.mp hr).1]; rfl, _, ?_, rfl⟩
    split
    · nofun
    · rcases rest_eq (s := s) w with hr | hr <;> rw [hr] <;> nofun
  | tickled hpc =>
    rw [tickle_eq]
    refine ⟨by rw [hpc]; rfl, _, ?_, rfl⟩
    rcases rest_eq (s := s) w with hr | hr <;> rw [hr] <;> nofun
  | idle hpc => exact ⟨by rw [hpc]; rfl, .idle, nofun, rfl⟩
  | wait hpc => exact ⟨by rw [hpc]; rfl, .wait, nofun, rfl⟩

/-- `schedule` queues entries, and a `tickle()` is to come if it queued any. -/
theorem schedule_eq {items : List (Item κ)} (h : step cfg s (.schedule items) = some s') :
    ∃ new n, s' = { s with
        fibers := s.fibers ++ new, entries := s.entries + new.length, tickles := n } ∧
      s.tickles ≤ n ∧ (new ≠ [] → 0 < n) := by
  simp only [step] at h
  split at h
  · rename_i hm
    obtain ⟨new, hs, -, -, -, -, ht⟩ := scheduleAll_spec items s hm
    cases h
    by_cases h₂ : (s.scheduleAll items).2 = true
    · rw [if_pos h₂, hs]
      exact ⟨new, s.tickles + 1, rfl, Nat.le_succ _, fun _ => Nat.succ_pos _⟩
    · rw [if_neg h₂, hs]
      exact ⟨new, s.tickles, rfl, le_refl _, fun hn => absurd (ht hn) h₂⟩
  · cases h

/-- What a step does, by whom: a worker, the client, or `stop()`. -/
inductive StepCase (cfg : Config ω) (s : State ω κ) : Label ω κ → State ω κ → Prop
  | worker {l w s'} (hl : l.worker = some w) (hw : WorkerStep cfg s w s') : StepCase cfg s l s'
  | schedule {items new n} (hn : s.tickles ≤ n) (hnew : new ≠ [] → 0 < n) :
    StepCase cfg s (.schedule items)
      { s with fibers := s.fibers ++ new, entries := s.entries + new.length, tickles := n }
  | tickle (ht : 0 < s.tickles) :
    StepCase cfg s .tickle { s.tickle cfg with tickles := s.tickles - 1 }
  | create : StepCase cfg s .create { s.setState s.made .init with made := s.made + 1 }
  | reset {f} (hf : f < s.made ∧ ((s.state f).ended = true ∨ s.state f = .init)) :
    StepCase cfg s (.reset f)
      { s.setState f .init with finished := Function.update s.finished f false }
  | start {pc} (hc : s.caller = .fresh)
    (hoff : ∀ w, s.pc w = .off → pc w = if some w = cfg.root then .off else .scan)
    (hpc : ∀ w, s.pc w ≠ .off → pc w = s.pc w) :
    StepCase cfg s .start { s with caller := .started, stopping := false, pc }
  | stop (hc : s.caller = .fresh ∨ s.caller = .started) :
    StepCase cfg s .stop { s with caller := .stopCheck, autoStop := true }
  | caller {quiet s'} (hm : CallerMove cfg s quiet s') : StepCase cfg s (.caller quiet) s'

theorem step_case {l : Label ω κ} (h : step cfg s l = some s') : StepCase cfg s l s' := by
  cases l with
  | run w => exact .worker rfl (worker_step rfl h)
  | task w out => exact .worker rfl (worker_step rfl h)
  | idle w quiet => exact .worker rfl (worker_step rfl h)
  | wake w pipe => exact .worker rfl (worker_step rfl h)
  | schedule items =>
    obtain ⟨new, n, rfl, hn, hnew⟩ := schedule_eq h
    exact .schedule hn hnew
  | tickle =>
    simp only [step] at h
    split at h
    · rename_i ht
      cases h
      exact .tickle ht
    · cases h
  | create =>
    cases h
    exact .create
  | reset f =>
    simp only [step] at h
    split at h
    · rename_i hf
      cases h
      exact .reset hf
    · cases h
  | start =>
    simp only [step] at h
    split at h
    · rename_i hc
      cases h
      refine .start hc (fun w hw => by simp only [hw]) fun w hw => ?_
      cases hpc : s.pc w with
      | off => exact absurd hpc hw
      | _ => rfl
    · cases h
  | stop =>
    simp only [step] at h
    split at h
    · rename_i hc
      cases h
      exact .stop hc
    · cases h
  | caller quiet => exact .caller (callerMove_of_step h)

/-! ## `stop()` -/

/-- The root fiber has not run. -/
def State.RootWaits (cfg : Config ω) (s : State ω κ) : Prop :=
  s.rootState.ended = false ∧ ∀ r, cfg.root = some r → s.pc r = .off

/-- Where the workers are at each stage of the client. -/
def State.Staged (cfg : Config ω) (s : State ω κ) : Prop :=
  match s.caller with
  | .fresh => (∀ w, s.pc w = .off) ∧ s.RootWaits cfg
  | .started => s.stopping = false ∧ s.RootWaits cfg
  | .stopCheck => (s.stopping = true → ∀ w, s.pc w = .off) ∧ s.RootWaits cfg
  | .stopCheckRoot => False
  | .stopSet | .stopTickle _ | .stopRoot => s.RootWaits cfg
  | .rootRun => True
  | .join => ∀ r, cfg.root = some r → (s.pc r).inRun = false
  | .stopped => ∀ w, (s.pc w).inRun = false

omit [DecidableEq ω] in
/-- A step that leaves the client and the workers that are not in `run` where they are. -/
theorem State.Staged.keep (h : s.Staged cfg) (hcaller : s'.caller = s.caller)
    (hroot : s'.rootState = s.rootState) (hstop : s'.stopping = s.stopping)
    (hpc : ∀ w, (s.pc w).inRun = false → s'.pc w = s.pc w) : s'.Staged cfg := by
  have hoff : ∀ w, s.pc w = .off → s'.pc w = .off := fun w hw =>
    (hpc w (by rw [hw]; rfl)).trans hw
  have hout : ∀ w, (s.pc w).inRun = false → (s'.pc w).inRun = false := fun w hw => by
    rw [hpc w hw]
    exact hw
  have hwaits : s.RootWaits cfg → s'.RootWaits cfg := fun hr =>
    ⟨by rw [hroot]; exact hr.1, fun r hr' => hoff r (hr.2 r hr')⟩
  unfold State.Staged at h ⊢
  rw [hcaller]
  cases hc : s.caller with
  | fresh =>
    rw [hc] at h
    exact ⟨fun w => hoff w (h.1 w), hwaits h.2⟩
  | started =>
    rw [hc] at h
    exact ⟨hstop.trans h.1, hwaits h.2⟩
  | stopCheck =>
    rw [hc] at h
    exact ⟨fun hs w => hoff w (h.1 (hstop ▸ hs) w), hwaits h.2⟩
  | stopCheckRoot => rw [hc] at h; exact h
  | stopSet => rw [hc] at h; exact hwaits h
  | stopTickle => rw [hc] at h; exact hwaits h
  | stopRoot => rw [hc] at h; exact hwaits h
  | rootRun => trivial
  | join =>
    rw [hc] at h
    exact fun r hr => hout r (h r hr)
  | stopped =>
    rw [hc] at h
    exact fun w => hout w (h w)

omit [DecidableEq ω] in
theorem isStoped_stopping {c : Core ω κ} {quiet : Bool}
    (h : c.virtualIsStoped cfg quiet = true) : c.stopping = true ∧ c.fibers = [] := by
  simp only [Core.virtualIsStoped, Core.isStoped, Bool.and_eq_true, List.isEmpty_iff] at h
  exact ⟨h.2.1.1.2, h.2.1.2⟩

theorem staged_caller {quiet : Bool} (h : s.Staged cfg) (hm : CallerMove cfg s quiet s') :
    s'.Staged cfg := by
  unfold State.Staged at h
  cases hm with
  | stoped hc hq =>
    rw [hc] at h
    intro w
    show (s.pc w).inRun = false
    rw [h.1 (isStoped_stopping hq).1 w]
    rfl
  | rootEnded hc hr he =>
    rw [hc] at h
    cases h.2.1.symm.trans he
  | goOn hc hq =>
    rw [hc] at h
    exact h.2
  | checked hc =>
    rw [hc] at h
    exact h.elim
  | set hc =>
    rw [hc] at h
    exact h
  | tickle hc =>
    rw [hc] at h
    rw [tickle_eq]
    exact h
  | root hc hr =>
    rw [hc] at h
    exact ⟨rfl, h.2⟩
  | noRoot hc hr =>
    intro r hr'
    cases hr.symm.trans hr'
  | skip hc hr hq =>
    rw [hc] at h
    intro r hr'
    show (s.pc r).inRun = false
    rw [h.2 r hr']
    rfl
  | enter => trivial
  | @left r hc hr hpc =>
    intro r' hr'
    cases hr.symm.trans hr'
    show (s.pc r).inRun = false
    rw [hpc]
    rfl
  | joined hc hall =>
    rw [hc] at h
    intro w
    show (s.pc w).inRun = false
    by_cases hw : some w = cfg.root
    · exact h w hw.symm
    · exact hall w hw

theorem staged_step {l : Label ω κ} (h : s.Staged cfg) (hst : step cfg s l = some s') :
    s'.Staged cfg := by
  cases step_case hst with
  | worker hl hw =>
    obtain ⟨hin, pc, -, hpc⟩ := hw.pc
    refine h.keep hw.frame.caller hw.frame.rootState hw.frame.stopping fun u hu => ?_
    rw [hpc]
    refine Function.update_of_ne (fun huw => ?_) ..
    rw [huw, hin] at hu
    cases hu
  | schedule => exact h.keep rfl rfl rfl fun _ _ => rfl
  | tickle =>
    rw [tickle_eq]
    exact h.keep rfl rfl rfl fun _ _ => rfl
  | create => exact h.keep rfl rfl rfl fun _ _ => rfl
  | reset => exact h.keep rfl rfl rfl fun _ _ => rfl
  | start hc hoff hpc =>
    unfold State.Staged at h
    rw [hc] at h
    refine ⟨rfl, h.2.1, fun r hr => ?_⟩
    exact (hoff r (h.1 r)).trans (if_pos hr.symm)
  | stop hc =>
    unfold State.Staged at h
    rcases hc with hc | hc
    · rw [hc] at h
      exact ⟨fun _ => h.1, h.2⟩
    · rw [hc] at h
      exact ⟨fun hs => (nomatch h.1.symm.trans hs), h.2⟩
  | caller hm => exact staged_caller h hm

theorem staged_inductive {C : State ω κ → Label ω κ → Prop} :
    (sys (κ := κ) cfg).Inductive C (State.Staged cfg) where
  init s hs := by
    rw [show s = {} from hs]
    exact ⟨fun _ => rfl, rfl, fun _ _ => rfl⟩
  step _ _ _ h _ hst := staged_step h hst

end Sched
end Ddg
