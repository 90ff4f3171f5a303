import DdgServer.Sched.InOrder
import DdgServer.Sched.Tickle

/-!
# Workers that go on

With callbacks for any thread the next step of a worker fails no assertion and scans past no end.
Only a `tickle()` waits, while the pipe is full, and then some worker is in its idle fiber.

* `Pc.toGo`, `State.work`: how much is left to do before `stop()` returns.
* `State.Sound`: what the runs keep. `turn_work`, `between_work`: the next step of a worker lowers
  the work.
* `Piped.GoesOn`, `workers_goOn`: the next step of a worker, wherever it is.
-/

namespace Ddg

open Interleave

variable {ω κ : Type}

/-- The phases in which the entry has its fiber. -/
def Phase.fibered : Phase → Bool
  | .tickle | .take => false
  | _ => true

/-- An entry in such a phase has its fiber. -/
def Pc.Fibered : Pc κ → Prop
  | .turn ft ph => ph.fibered = true → ∃ f, ft.fiber = some f
  | _ => True

theorem Pc.Fibered.of_held {pc : Pc κ} (h : pc.held = none) : pc.Fibered := by
  cases pc with
  | turn => cases h
  | _ => trivial

/-- `stop()` has been called. -/
def CallerPc.called : CallerPc → Bool
  | .fresh | .started => false
  | _ => true

/-- `stop()` has not yet set `m_stopping`. -/
def CallerPc.early : CallerPc → Bool
  | .fresh | .started | .stopCheck | .stopSet => true
  | _ => false

/-! ## The work that is left -/

/-- The steps of a turn that are left. -/
def Phase.toGo : Phase → ℕ
  | .tickle => 12
  | .take => 11
  | .ready => 10
  | .check => 9
  | .exec => 8
  | .enter => 7
  | .task => 6
  | .yield _ => 5
  | .leave _ => 4
  | .back _ => 3
  | .look _ => 2
  | .putBack _ | .park => 1

/-- The worker will put its entry back. -/
def Pc.putsBack (st : FiberStates) : Pc κ → Bool
  | .turn _ (.yield out) => out == .ready
  | .turn ft (.leave _) | .turn ft (.back _) | .turn ft (.look _) =>
    ft.fiber.any fun f => st f == .ready
  | .turn _ (.putBack _) => true
  | _ => false

/-- The steps of a worker that are left until it leaves `run`, or takes an entry. With `busy`, an
entry is queued, and an idle worker goes through `epoll_wait` to scan again; without, it ends. -/
def Pc.toGo (busy : Bool) (idleFt : Option FiberState) : Pc κ → ℕ
  | .off | .left => 0
  | .scan => if idleFt.isSome then 7 else 2
  | .turn _ ph => 8 + ph.toGo
  | .putTickle => 8
  | .tickled => if idleFt.isSome then 13 else 1
  | .idleInc => if busy then 12 else 6
  | .idle => if busy then 11 else 5
  | .wait => 10
  | .woken _ => 9
  | .idleDec => if idleFt = some .term then 3 else 8

theorem Pc.toGo_mono {busy busy' : Bool} {ft : Option FiberState} {pc : Pc κ}
    (h : busy' = true → busy = true) : pc.toGo busy' ft ≤ pc.toGo busy ft := by
  cases pc with
  | idleInc | idle =>
    cases busy' with
    | true => rw [h rfl]
    | false => cases busy <;> simp [toGo]
  | _ => exact le_rfl

theorem Pc.toGo_le (busy busy' : Bool) (ft : Option FiberState) (pc : Pc κ) :
    pc.toGo busy' ft ≤ pc.toGo busy ft + 6 := by
  cases pc with
  | idleInc | idle => cases busy' <;> cases busy <;> simp [toGo]
  | _ => exact Nat.le_add_right _ _

/-- The steps of `stop()` that are left, with those of the root worker. -/
def CallerPc.toGo (workers : ℕ) : CallerPc → ℕ
  | .fresh | .started | .stopped => 0
  | .stopCheck => 14 + workers
  | .stopCheckRoot => 13 + workers
  | .stopSet => 12 + workers
  | .stopTickle n => 11 + n
  | .stopRoot => 10
  | .rootRun => 2
  | .join => 1

namespace Sched

variable [Fintype ω]

/-- The work of worker `w`; to put an entry back makes work for all. -/
def State.workOf (s : State ω κ) (w : ω) : ℕ :=
  (s.pc w).toGo (!s.fibers.isEmpty) (s.idleFt w) +
    if (s.pc w).putsBack s.state then 20 + 6 * Fintype.card ω else 0

/-- The work that is left before `stop()` returns. -/
def State.work (s : State ω κ) : ℕ :=
  s.caller.toGo (Fintype.card ω) + ∑ w, s.workOf w + 20 * s.fibers.length

variable {s s' : State ω κ} {w u : ω} {k : ℕ}

/-- A step of worker `w` that lowers its work by more than it makes for others. -/
theorem work_lt (hcaller : s'.caller = s.caller)
    (hothers : ∀ u, u ≠ w → s'.workOf u ≤ s.workOf u + k)
    (hlt : s'.workOf w + k * Fintype.card ω + 20 * s'.fibers.length <
      s.workOf w + 20 * s.fibers.length) : s'.work < s.work := by
  have := sum_rise w k hothers
  unfold State.work
  rw [hcaller]
  omega

theorem workOf_le (hpc : s'.pc u = s.pc u) (hft : s'.idleFt u = s.idleFt u)
    (hputs : (s.pc u).putsBack s'.state = (s.pc u).putsBack s.state)
    (hfib : s.fibers = [] → s'.fibers = []) : s'.workOf u ≤ s.workOf u := by
  unfold State.workOf
  rw [hpc, hft, hputs]
  refine Nat.add_le_add_right (Pc.toGo_mono fun hb => ?_) _
  by_contra hne
  rw [Bool.not_eq_true, Bool.not_eq_false', List.isEmpty_iff] at hne
  rw [hfib hne] at hb
  cases hb

theorem workOf_rise (hpc : s'.pc u = s.pc u) (hft : s'.idleFt u = s.idleFt u)
    (hputs : (s.pc u).putsBack s'.state = (s.pc u).putsBack s.state) :
    s'.workOf u ≤ s.workOf u + 6 := by
  unfold State.workOf
  rw [hpc, hft, hputs]
  have := (s.pc u).toGo_le (!s.fibers.isEmpty) (!s'.fibers.isEmpty) (s.idleFt u)
  omega

/-- A step of worker `w` that leaves the queue alone. -/
theorem step_work [DecidableEq ω] {pc : Pc κ} {x : Option FiberState}
    (hpc : s'.pc = Function.update s.pc w pc) (hft : s'.idleFt = Function.update s.idleFt w x)
    (hcaller : s'.caller = s.caller) (hfib : s'.fibers = s.fibers)
    (hst : ∀ u, u ≠ w → (s.pc u).putsBack s'.state = (s.pc u).putsBack s.state)
    (hgo : pc.toGo (!s.fibers.isEmpty) x < (s.pc w).toGo (!s.fibers.isEmpty) (s.idleFt w))
    (hputs : pc.putsBack s'.state = true → (s.pc w).putsBack s.state = true) :
    s'.work < s.work := by
  refine work_lt (w := w) (k := 0) hcaller (fun u hu => ?_) ?_
  · refine workOf_le ?_ ?_ (hst u hu) fun h => hfib.trans h
    · rw [hpc, Function.update_of_ne hu]
    · rw [hft, Function.update_of_ne hu]
  · unfold State.workOf
    rw [hpc, hft, hfib, Function.update_self, Function.update_self]
    cases hp : pc.putsBack s'.state with
    | false =>
      rw [if_neg Bool.false_ne_true]
      omega
    | true =>
      rw [hputs hp]
      omega

omit [Fintype ω] in
theorem putsBack_congr {pc : Pc κ} {st st' : FiberStates}
    (h : ∀ f, pc.turnFiber = some f → st' f = st f) : pc.putsBack st' = pc.putsBack st := by
  cases pc with
  | turn ft ph =>
    have hany : (ft.fiber.any fun f => st' f == .ready) = ft.fiber.any fun f => st f == .ready := by
      cases hf : ft.fiber with
      | none => rfl
      | some f =>
        have := h f hf
        simp [this]
    cases ph with
    | leave | back | look => exact hany
    | _ => rfl
  | _ => rfl

/-! ## The invariant -/

variable [DecidableEq ω] {cfg : Config ω} {l : Label ω κ}

/-- Each entry behind the phase `take` has its fiber. -/
theorem Move.fibered {c c' : Core ω κ} (hm : Move cfg c l c') (h : ∀ w, (c.pc w).Fibered) :
    ∀ w, (c'.pc w).Fibered := by
  have hgo : ∀ {w : ω} {pc : Pc κ}, pc.Fibered → ∀ u, (Function.update c.pc w pc u).Fibered := by
    intro w pc hpc u
    by_cases hu : u = w
    · subst hu
      rwa [Function.update_self]
    · rw [Function.update_of_ne hu]
      exact h u
  cases hm with
  | schedule | create | reset => exact h
  | take | tickle => exact hgo fun h => by cases h
  | pass _ _ _ hq => exact hgo (.of_held hq)
  | newFiber => exact hgo fun _ => ⟨_, rfl⟩
  | drop | retire | putBack | park => exact hgo trivial
  | quiet _ _ hf | write _ hf | yield _ hf | back _ hf => exact hgo fun _ => ⟨_, hf⟩
  | @other l pc stopping autoStop hpc =>
    intro u
    rcases hpc u with hs | ⟨-, hs⟩
    · show (pc u).Fibered
      rw [hs]
      exact h u
    · exact .of_held hs

/-- The flags of `stop()`. -/
structure State.Flagged (s : State ω κ) : Prop where
  stopping : s.stopping = false → s.caller.early = true
  autoStop : s.autoStop = false → s.caller.called = false

theorem flagged_caller {quiet : Bool} (hm : CallerMove cfg s quiet s') (h : s.Flagged) :
    s'.Flagged := by
  -- the flag stays unset only behind a stage that is early
  have hstage : ∀ {c}, s.caller = c → CallerPc.early c = false →
      ∀ {p : Prop}, s.stopping = false → p := by
    intro c hc he p hf
    have := h.stopping hf
    rw [hc, he] at this
    cases this
  have hauto : ∀ {c}, s.caller = c → CallerPc.called c = true →
      ∀ {p : Prop}, s.autoStop = false → p := by
    intro c hc he p hf
    have := h.autoStop hf
    rw [hc, he] at this
    cases this
  cases hm with
  | stoped hc hq =>
    refine ⟨fun hf => ?_, hauto hc rfl⟩
    rw [(isStoped_stopping hq).1] at hf
    cases hf
  | goOn hc => exact ⟨fun _ => rfl, hauto hc rfl⟩
  | rootEnded hc | set hc => exact ⟨(fun hf => by cases hf), hauto hc rfl⟩
  | tickle hc =>
    rw [tickle_eq]
    exact ⟨hstage hc rfl, hauto hc rfl⟩
  | checked hc | root hc | noRoot hc | skip hc | enter hc | left hc | joined hc =>
    exact ⟨hstage hc rfl, hauto hc rfl⟩

theorem flagged_step (hst : step cfg s l = some s') (h : s.Flagged) : s'.Flagged := by
  cases step_case hst with
  | worker _ hw =>
    have hf := hw.frame
    constructor
    · rw [hf.stopping, hf.caller]
      exact h.stopping
    · rw [hf.autoStop, hf.caller]
      exact h.autoStop
  | tickle =>
    rw [tickle_eq]
    exact ⟨h.stopping, h.autoStop⟩
  | schedule | create | reset => exact ⟨h.stopping, h.autoStop⟩
  | start => exact ⟨fun _ => rfl, fun _ => rfl⟩
  | stop => exact ⟨fun _ => rfl, fun h => by cases h⟩
  | caller hm => exact flagged_caller hm h

/-- `stop()` comes to the root fiber if there is one, and then its worker is in `run`. -/
def State.Rooted (cfg : Config ω) (s : State ω κ) : Prop :=
  match s.caller with
  | .stopRoot => ∃ r, cfg.root = some r
  | .rootRun => ∃ r, cfg.root = some r ∧ s.pc r ≠ .off
  | _ => True

theorem rooted_step (hst : step cfg s l = some s') (h : s.Rooted cfg) : s'.Rooted cfg := by
  cases step_case hst with
  | worker _ hw =>
    obtain ⟨-, pc, hoff, hpc⟩ := hw.pc
    unfold State.Rooted at h ⊢
    rw [hw.frame.caller]
    cases hc : s.caller with
    | rootRun =>
      rw [hc] at h
      obtain ⟨r, hr, hne⟩ := h
      refine ⟨r, hr, fun hoff' => ?_⟩
      rw [hpc] at hoff'
      rcases update_cases hoff' with ⟨-, h⟩ | ⟨-, h⟩
      · exact hoff h
      · exact hne h
    | stopRoot =>
      rw [hc] at h
      exact h
    | _ => trivial
  | tickle =>
    rw [tickle_eq]
    exact h
  | schedule | create | reset => exact h
  | start | stop => trivial
  | caller hm =>
    cases hm with
    | checked =>
      unfold State.Rooted
      split <;> first | trivial | (rename_i hc; split at hc <;> cases hc)
    | tickle =>
      rw [tickle_eq]
      trivial
    | root _ hr => exact Option.isSome_iff_exists.mp hr
    | @enter r _ hr =>
      refine ⟨r, hr, ?_⟩
      show Function.update s.pc r .scan r ≠ .off
      rw [Function.update_self]
      rintro ⟨⟩
    | _ => trivial

/-- What the runs with callbacks for any thread keep. -/
structure State.Sound (cfg : Config ω) (s : State ω κ) : Prop where
  tracked : s.toCore.Tracked
  plain : s.toCore.Plain
  staged : s.Staged cfg
  resting : s.Resting
  fibered : ∀ w, (s.pc w).Fibered
  flagged : s.Flagged
  rooted : s.Rooted cfg

theorem sound_inductive : (sys (κ := κ) cfg).Inductive (fun _ l => l.Callbacks)
    (State.Sound cfg) where
  init s hs := by
    have hp := plain_inductive.init s hs
    refine ⟨hp.1, hp.2, (staged_inductive (C := Sys.free)).init s hs,
      (resting_inductive (C := Sys.free)).init s hs, ?_, ?_, ?_⟩
    all_goals rw [show s = {} from hs]
    · exact fun _ => trivial
    · exact ⟨(fun hf => by cases hf), fun _ => rfl⟩
    · trivial
  step s l s' h hc hst := by
    have hp := plain_inductive.step s l s' ⟨h.tracked, h.plain⟩ hc hst
    exact ⟨hp.1, hp.2, (staged_inductive (C := Sys.free)).step s l s' h.staged trivial hst,
      resting_step h.resting hst, (move_of_step hst).fibered h.fibered, flagged_step hst h.flagged,
      rooted_step hst h.rooted⟩

/-! ## Steps that lower the work -/

variable {ft : Entry κ} {f : ℕ} {ph : Phase}

omit [DecidableEq ω] in
/-- The fiber of a worker is no other's, and neither is a new one. -/
theorem State.Sound.puts_other (h : s.Sound cfg) {x : FiberState}
    (hf : (s.pc w).turnFiber = some f ∨ f = s.made) (u : ω) (hu : u ≠ w) :
    (s.pc u).putsBack (Function.update s.state f x) = (s.pc u).putsBack s.state := by
  refine putsBack_congr fun g hg => Function.update_of_ne ?_ ..
  rintro rfl
  obtain ⟨⟨ft', ph'⟩, hheld, hg'⟩ := Option.bind_eq_some_iff.mp hg
  rw [Pc.held_eq_some] at hheld
  rcases hf with hf | hf
  · exact hu ((h.plain.alone hheld hg').2 w hf).symm
  · exact (h.tracked.wf.fiber_lt hheld hg').ne hf

/-- The worker goes on to a place where it has nothing to put back. -/
theorem goto_work {pc : Pc κ} (hpc : s'.pc = Function.update s.pc w pc)
    (hft : s'.idleFt = s.idleFt) (hcaller : s'.caller = s.caller) (hfib : s'.fibers = s.fibers)
    (hst : s'.state = s.state)
    (hgo : pc.toGo (!s.fibers.isEmpty) (s.idleFt w) <
      (s.pc w).toGo (!s.fibers.isEmpty) (s.idleFt w))
    (hputs : pc.putsBack s'.state = false) : s'.work < s.work := by
  refine step_work hpc (hft.trans (Function.update_eq_self w s.idleFt).symm) hcaller hfib
    (fun _ _ => by rw [hst]) hgo fun h => ?_
  cases hputs.symm.trans h

/-- The next phase of a turn. -/
theorem next_work {ft' : Entry κ} {ph' : Phase} (hpc : s.pc w = .turn ft ph)
    (hpc' : s'.pc = Function.update s.pc w (.turn ft' ph')) (hft : s'.idleFt = s.idleFt)
    (hcaller : s'.caller = s.caller) (hfib : s'.fibers = s.fibers)
    (hst : ∀ u, u ≠ w → (s.pc u).putsBack s'.state = (s.pc u).putsBack s.state)
    (hgo : ph'.toGo < ph.toGo)
    (hputs : (Pc.turn ft' ph').putsBack s'.state = true →
      (Pc.turn ft ph).putsBack s.state = true) : s'.work < s.work := by
  refine step_work hpc' (hft.trans (Function.update_eq_self w s.idleFt).symm) hcaller hfib hst ?_ ?_
  · rw [hpc]
    exact Nat.add_lt_add_left hgo 8
  · rw [hpc]
    exact hputs

/-- The next phase of a turn, where the fibers stay as they are and nothing is put back. -/
theorem phase_work {ft' : Entry κ} {ph' : Phase} (hpc : s.pc w = .turn ft ph)
    (hpc' : s'.pc = Function.update s.pc w (.turn ft' ph')) (hft : s'.idleFt = s.idleFt)
    (hcaller : s'.caller = s.caller) (hfib : s'.fibers = s.fibers) (hst : s'.state = s.state)
    (hgo : ph'.toGo < ph.toGo) (hputs : (Pc.turn ft' ph').putsBack s'.state = false) :
    s'.work < s.work := by
  refine next_work hpc hpc' hft hcaller hfib (fun _ _ => by rw [hst]) hgo fun h => ?_
  cases hputs.symm.trans h

/-- The end of a turn. -/
theorem end_work (hpc : s.pc w = .turn ft ph) (hpc' : s'.pc = Function.update s.pc w .scan)
    (hft : s'.idleFt = s.idleFt) (hcaller : s'.caller = s.caller) (hfib : s'.fibers = s.fibers)
    (hst : ∀ u, u ≠ w → (s.pc u).putsBack s'.state = (s.pc u).putsBack s.state) :
    s'.work < s.work := by
  refine step_work hpc' (hft.trans (Function.update_eq_self w s.idleFt).symm) hcaller hfib hst ?_
    fun h => by cases h
  rw [hpc]
  show (if (s.idleFt w).isSome then 7 else 2) < 8 + ph.toGo
  split <;> omega

omit [DecidableEq ω] in
/-- An entry that is put back is work for all, and the worker had that to do. -/
theorem putBack_work [DecidableEq ω] {out : Outcome} (hpc : s.pc w = .turn ft (.putBack out))
    (hpc' : s'.pc = Function.update s.pc w .putTickle) (hft : s'.idleFt = s.idleFt)
    (hcaller : s'.caller = s.caller) (hfib : s'.fibers = s.fibers ++ [ft])
    (hst : s'.state = s.state) : s'.work < s.work := by
  refine work_lt (w := w) (k := 6) hcaller (fun u hu => ?_) ?_
  · refine workOf_rise ?_ (congrFun hft u) (by rw [hst])
    rw [hpc', Function.update_of_ne hu]
  · unfold State.workOf
    rw [hpc', hpc, hfib, Function.update_self, List.length_append, List.length_singleton,
      if_neg (show ¬ (Pc.putTickle : Pc κ).putsBack s'.state = true from Bool.false_ne_true),
      if_pos (show (Pc.turn ft (.putBack out)).putsBack s.state = true from rfl)]
    show 8 + 0 + 6 * Fintype.card ω + 20 * (s.fibers.length + 1) <
      8 + 1 + (20 + 6 * Fintype.card ω) + 20 * s.fibers.length
    omega

/-- A worker whose entry has its fiber goes on. -/
theorem fiber_work (h : s.Sound cfg) (hpc : s.pc w = .turn ft ph) (hf : ft.fiber = some f)
    (hph : ph.fibered = true) (htask : ph ≠ .task) :
    ∃ s', step cfg s (.run w) = some s' ∧ s'.work < s.work := by
  have hrun : step cfg s (.run w) = turnStep s w ft f ph := by
    cases ph with
    | tickle | take => cases hph
    | _ => simp only [step, runStep, hpc, hf]
  rw [hrun]
  have hother : ∀ {x : FiberState} u, u ≠ w →
      (s.pc u).putsBack (Function.update s.state f x) = (s.pc u).putsBack s.state :=
    fun u hu => h.puts_other (.inl (by rw [hpc, turnFiber_turn, hf])) u hu
  cases ph with
  | tickle | take => cases hph
  | task => exact absurd rfl htask
  | ready | exec =>
    exact ⟨_, rfl, next_work hpc rfl rfl rfl rfl hother (by decide) fun h => by cases h⟩
  | enter => exact ⟨_, rfl, phase_work hpc rfl rfl rfl rfl rfl (by decide) rfl⟩
  | check =>
    -- the fiber is `READY` since the last step
    have hready : s.state f ≠ .exec := by
      rw [h.plain.readied w ft _ f hpc rfl hf]
      rintro ⟨⟩
    exact ⟨_, if_neg hready, phase_work hpc rfl rfl rfl rfl rfl (by decide) rfl⟩
  | yield out =>
    refine ⟨_, rfl, next_work hpc rfl rfl rfl rfl hother (Nat.lt_succ_self 4) fun hp => ?_⟩
    have hp : (ft.fiber.any fun g => Function.update s.state f out.state g == .ready) = true := hp
    rw [hf, Option.any_some, Function.update_self] at hp
    show (out == .ready) = true
    cases out with
    | ready => rfl
    | _ => cases hp
  | leave out | back out =>
    exact ⟨_, rfl, next_work hpc rfl rfl rfl rfl (fun _ _ => rfl) (Nat.lt_succ_self _) id⟩
  | look out =>
    simp only [turnStep]
    by_cases hready : s.state f = .ready
    · rw [if_pos hready]
      refine ⟨_, rfl,
        next_work hpc rfl rfl rfl rfl (fun _ _ => rfl) (Nat.lt_succ_self 1) fun _ => ?_⟩
      simp [Pc.putsBack, hf, hready]
    · rw [if_neg hready]
      split
      · exact ⟨_, rfl, end_work hpc rfl rfl rfl rfl fun _ _ => rfl⟩
      · exact ⟨_, rfl, phase_work hpc rfl rfl rfl rfl rfl (Nat.lt_succ_self 1) rfl⟩
  | putBack out => exact ⟨_, rfl, putBack_work hpc rfl rfl rfl rfl rfl⟩
  | park => exact ⟨_, rfl, end_work hpc rfl rfl rfl rfl hother⟩

/-- A worker with an entry goes on. -/
theorem turn_work (h : s.Sound cfg) (hpc : s.pc w = .turn ft ph) (hph : ph ≠ .task) :
    ∃ s', step cfg s (.run w) = some s' ∧ s'.work < s.work := by
  have hfib : ph.fibered = true → ∃ f, ft.fiber = some f := by
    have := h.fibered w
    rwa [hpc] at this
  cases ph with
  | tickle =>
    have hst : step cfg s (.run w) = some ((s.tickle cfg).goto w (.turn ft .take)) := by
      simp only [step, runStep, hpc]
    rw [tickle_eq] at hst
    exact ⟨_, hst, phase_work hpc rfl rfl rfl rfl rfl (by decide) rfl⟩
  | take =>
    cases hf : ft.fiber with
    | some f =>
      have hst : step cfg s (.run w) = some (s.goto w (.turn ft .ready)) := by
        simp only [step, runStep, hpc, hf]
      exact ⟨_, hst, phase_work hpc rfl rfl rfl rfl rfl (by decide) rfl⟩
    | none =>
      cases hcb : ft.cb with
      | some cb =>
        have hst : step cfg s (.run w) = some { (s.setState s.made .init).goto w
            (.turn { ft with fiber := some s.made, cb := none } .ready) with
              made := s.made + 1 } := by
          simp only [step, runStep, hpc, hf, hcb]
        exact ⟨_, hst,
          next_work hpc rfl rfl rfl rfl (h.puts_other (.inr rfl)) (by decide) fun h => by cases h⟩
      | none =>
        refine absurd ?_ (h.tracked.wf.nonempty_ne hpc)
        simp [FiberAndThread.nonempty, hf, hcb]
  | _ =>
    obtain ⟨f, hf⟩ := hfib rfl
    exact fiber_work h hpc hf rfl hph

omit [Fintype ω] [DecidableEq ω] in
theorem rest_putsBack (st : FiberStates) : (s.rest w).putsBack st = false := by
  rcases rest_eq (s := s) w with hr | hr <;> rw [hr] <;> rfl

omit [Fintype ω] [DecidableEq ω] in
/-- A worker that goes to rest has the way to its idle fiber and back, or leaves. -/
theorem rest_toGo {busy : Bool} : (s.rest w).toGo busy (s.idleFt w) =
    if (s.idleFt w).isSome then if busy then 12 else 6 else 0 := by
  unfold State.rest
  split <;> rfl

/-- A worker takes the first entry, or it has nothing to do. -/
theorem scan_work (h : s.Sound cfg) (hpc : s.pc w = .scan) :
    ∃ s', step cfg s (.run w) = some s' ∧ s'.work < s.work := by
  cases hfs : s.fibers with
  | nil =>
    have hst : step cfg s (.run w) = some (State.goto
        { s with toCore := s.toCore.scanned { rest := [], state := s.state } } w (s.rest w)) := by
      simp only [step, runStep, hpc, scanStep, hfs]
      rfl
    refine ⟨_, hst, goto_work rfl rfl rfl hfs.symm rfl ?_ (rest_putsBack _)⟩
    rw [hpc, hfs, rest_toGo]
    show (if (s.idleFt w).isSome then 6 else 0) < if (s.idleFt w).isSome then 7 else 2
    split <;> decide
  | cons e es =>
    have hmem : e ∈ s.fibers := by rw [hfs]; exact List.mem_cons_self
    have hscan : Scan.scan (cfg.tid w) s.fibers s.state = some (Scan.take e es s.state) := by
      rw [hfs]
      exact scan_first (h.plain.thread e (.inl hmem)) fun f hf => h.plain.queued e hmem f hf
    have hst : ∃ s', step cfg s (.run w) = some s' ∧
        s'.pc = Function.update s.pc w (.turn e .tickle) ∧ s'.idleFt = s.idleFt ∧
        s'.caller = s.caller ∧ s'.fibers = es ∧ s'.state = s.state := by
      simp only [step, runStep, hpc, scanStep, hscan]
      exact ⟨_, rfl, rfl, rfl, rfl, rfl, rfl⟩
    obtain ⟨s', hst, hpc', hft, hcaller, hfib, hstate⟩ := hst
    refine ⟨s', hst, work_lt (w := w) (k := 0) hcaller (fun u hu => ?_) ?_⟩
    · refine workOf_le ?_ (congrFun hft u) (by rw [hstate]) fun hn => ?_
      · rw [hpc', Function.update_of_ne hu]
      · rw [hfs] at hn
        cases hn
    · unfold State.workOf
      rw [hpc', hpc, hfib, hfs, Function.update_self, List.length_cons,
        if_neg (show ¬ (Pc.turn e .tickle).putsBack s'.state = true from Bool.false_ne_true),
        if_neg (show ¬ (Pc.scan : Pc κ).putsBack s.state = true from Bool.false_ne_true)]
      show 20 + 0 + 0 * Fintype.card ω + 20 * es.length <
        (if (s.idleFt w).isSome then 7 else 2) + 0 + 20 * (es.length + 1)
      split <;> omega

/-- A worker between its turns goes on. -/
theorem between_work (h : s.Sound cfg) (hin : (s.pc w).inRun = true)
    (hheld : (s.pc w).held = none) (hidle : s.pc w ≠ .idle) (hwait : s.pc w ≠ .wait) :
    ∃ s', step cfg s (.run w) = some s' ∧ s'.work < s.work := by
  have hft := h.resting.idleFt w
  cases hpc : s.pc w with
  | off | left =>
    rw [hpc] at hin
    cases hin
  | turn =>
    rw [hpc] at hheld
    cases hheld
  | idle => exact absurd hpc hidle
  | wait => exact absurd hpc hwait
  | scan => exact scan_work h hpc
  | putTickle =>
    have hst : step cfg s (.run w) = some ((s.tickle cfg).goto w .scan) := by
      simp only [step, runStep, hpc]
    rw [tickle_eq] at hst
    refine ⟨_, hst, goto_work rfl rfl rfl rfl rfl ?_ rfl⟩
    rw [hpc]
    show (if (s.idleFt w).isSome then 7 else 2) < 8
    split <;> decide
  | tickled =>
    have hst : step cfg s (.run w) = some ((s.tickle cfg).goto w (s.rest w)) := by
      simp only [step, runStep, hpc]
    rw [tickle_eq] at hst
    refine ⟨_, hst, goto_work rfl rfl rfl rfl rfl ?_ (rest_putsBack _)⟩
    rw [hpc, rest_toGo]
    show (if (s.idleFt w).isSome then if (!s.fibers.isEmpty) = true then 12 else 6 else 0) <
      if (s.idleFt w).isSome then 13 else 1
    split
    · split <;> decide
    · decide
  | idleInc =>
    rw [hpc] at hft
    have hne : s.idleFt w ≠ some .exec := by
      intro hx
      rcases hft with hft | hft <;> rw [hft] at hx <;> cases hx
    have hst : step cfg s (.run w) = some { s.goto w .idle with
        idleThreadCount := s.idleThreadCount + 1
        idleFt := Function.update s.idleFt w (some .exec) } := by
      simp only [step, runStep, hpc]
      exact if_neg hne
    refine ⟨_, hst, step_work rfl rfl rfl rfl (fun _ _ => rfl) ?_ fun h => by cases h⟩
    rw [hpc]
    show (if (!s.fibers.isEmpty) = true then 11 else 5) <
      if (!s.fibers.isEmpty) = true then 12 else 6
    split <;> decide
  | woken pipe =>
    rw [hpc] at hft
    have hgo : (Pc.idleDec : Pc κ).toGo (!s.fibers.isEmpty) (s.idleFt w) <
        (Pc.woken pipe : Pc κ).toGo (!s.fibers.isEmpty) (s.idleFt w) := by
      rw [show s.idleFt w = some .exec from hft]
      exact Nat.lt_succ_self 8
    cases pipe with
    | true =>
      have hst : step cfg s (.run w) = some { s.goto w .idleDec with pipe := 0 } := by
        simp only [step, runStep, hpc]
        rfl
      exact ⟨_, hst, goto_work rfl rfl rfl rfl rfl (by rw [hpc]; exact hgo) rfl⟩
    | false =>
      have hst : step cfg s (.run w) = some (s.goto w .idleDec) := by
        simp only [step, runStep, hpc]
        rfl
      exact ⟨_, hst, goto_work rfl rfl rfl rfl rfl (by rw [hpc]; exact hgo) rfl⟩
  | idleDec =>
    rw [hpc] at hft
    simp only [step, runStep, hpc]
    refine ⟨_, rfl, step_work rfl rfl rfl rfl (fun _ _ => rfl) ?_ fun h => by cases h⟩
    rw [hpc]
    rcases hft with hft | hft <;> rw [hft]
    · exact Nat.lt_succ_self 7
    · exact Nat.lt_succ_self 2

/-! ## The next step of a worker -/

variable {cap : ℕ} {x : Piped ω κ}

omit [DecidableEq ω] in
/-- The pipe does not matter. -/
theorem State.Sound.covers {a : State ω κ} (h : a.Sound cfg) (hc : Covers x a) :
    x.sched.Sound cfg := by
  rw [hc.sched] at h
  exact ⟨h.tracked, h.plain, h.staged, ⟨h.resting.count, h.resting.idleFt⟩, h.fibered,
    ⟨h.flagged.stopping, h.flagged.autoStop⟩, h.rooted⟩

omit [DecidableEq ω] in
theorem State.Resting.exists_idling (h : s.Resting) (hne : s.idleThreadCount ≠ 0) :
    ∃ w, (s.pc w).idling ≠ 0 := by
  have hsum : ∑ w, (s.pc w).idling ≠ 0 := by
    intro hzero
    rw [h.count, hzero] at hne
    exact hne rfl
  obtain ⟨w, -, hw⟩ := Finset.exists_ne_zero_of_sum_ne_zero hsum
  exact ⟨w, hw⟩

/-- The step that worker `w` is at is possible: no assertion in it fails, and no iterator in it
passes the end. A `tickle()` is possible just if it need not wait for room in the pipe. A task may
yield or end, an event loop may find something pending or not, and `epoll_wait` may time out. -/
def Piped.GoesOn (cfg : Config ω) (cap : ℕ) (x : Piped ω κ) (w : ω) : Prop :=
  match x.sched.pc w with
  | .off | .left => True
  | .turn _ .tickle | .putTickle | .tickled =>
    (pipedStep cfg cap x (.run w)).isSome = true ↔ x.Room cfg cap
  | .turn _ .task => ∀ out, (pipedStep cfg cap x (.task w out)).isSome = true
  | .idle =>
    ∀ quiet, (pipedStep cfg cap x (if cfg.io then .idle w quiet else .run w)).isSome = true
  | .wait => (pipedStep cfg cap x (.wake w false)).isSome = true
  | _ => (pipedStep cfg cap x (.run w)).isSome = true

/-- A step of the scheduler that is no `tickle()`. -/
theorem pipedStep_isSome (h : (step cfg x.sched l).isSome = true) (hl : ¬l.reads x.sched)
    (ht : ¬l.tickles x.sched) : (pipedStep cfg cap x l).isSome = true := by
  obtain ⟨s, hs⟩ := Option.isSome_iff_exists.mp h
  obtain ⟨x', hx, -⟩ := pipedStep_of_step hs hl fun h => absurd h ht
  rw [hx]
  rfl

variable (cap) in
/-- A worker goes on by a step that lowers the work, and that waits if it is a `tickle()`. -/
theorem run_goesOn (hst : ∃ s', step cfg x.sched (.run w) = some s' ∧ s'.work < x.sched.work)
    (hread : x.sched.pc w ≠ .woken true) :
    if (x.sched.pc w).atTickle then (pipedStep cfg cap x (.run w)).isSome = true ↔ x.Room cfg cap
    else (pipedStep cfg cap x (.run w)).isSome = true := by
  obtain ⟨s', hst, -⟩ := hst
  split
  · rename_i ht
    exact pipedStep_tickle_iff hst hread ht
  · rename_i ht
    refine pipedStep_isSome ?_ hread ht
    rw [hst]
    rfl

theorem turn_goesOn (h : x.sched.Sound cfg) (hpc : x.sched.pc w = .turn ft ph) (htask : ph ≠ .task) :
    x.GoesOn cfg cap w := by
  have hrun := run_goesOn cap (turn_work h hpc htask) (by rw [hpc]; rintro ⟨⟩)
  unfold Piped.GoesOn
  rw [hpc] at hrun ⊢
  cases ph with
  | task => exact absurd rfl htask
  | _ => exact hrun

/-- The fiber of a task that runs is in `EXEC`. -/
theorem task_goesOn (hpc : x.sched.pc w = .turn ft .task) (hf : ft.fiber = some f)
    (hexec : x.sched.state f = .exec) : x.GoesOn cfg cap w := by
  unfold Piped.GoesOn
  rw [hpc]
  intro out
  refine pipedStep_isSome ?_ id id
  simp [step, taskStep, hpc, hf, hexec]

theorem between_goesOn (h : x.sched.Sound cfg) (hheld : (x.sched.pc w).held = none) :
    x.GoesOn cfg cap w := by
  have hrun := fun h₁ h₂ h₃ => run_goesOn cap (between_work (w := w) h h₁ hheld h₂ h₃)
  unfold Piped.GoesOn
  cases hpc : x.sched.pc w with
  | off | left => trivial
  | turn =>
    rw [hpc] at hheld
    cases hheld
  | idle =>
    intro quiet
    cases hio : cfg.io with
    | true =>
      refine pipedStep_isSome ?_ id id
      simp only [if_true, step, idleStep, hpc, hio]
      split <;> rfl
    | false =>
      refine pipedStep_isSome ?_ (by simp [Label.reads, hpc])
        (by simp [Label.tickles, Pc.atTickle, hpc])
      simp only [Bool.false_eq_true, if_false, step, runStep, hpc, hio]
      rfl
  | wait =>
    refine pipedStep_isSome ?_ Bool.false_ne_true id
    simp [step, wakeStep, hpc]
  | woken pipe =>
    cases pipe with
    | false =>
      rw [hpc] at hrun
      exact hrun rfl (by rintro ⟨⟩) (by rintro ⟨⟩) (by rintro ⟨⟩)
    | true =>
      -- a `read` does not wait
      by_cases hp : x.sched.pipe = 0
      · rw [drained_eq hpc hp]
        rfl
      · rw [read_eq hpc hp]
        rfl
  | _ =>
    rw [hpc] at hrun
    exact hrun rfl (by rintro ⟨⟩) (by rintro ⟨⟩) (by rintro ⟨⟩)

end Sched

end Ddg
