import DdgServer.Io.Epoll
import DdgServer.Io.Manager
import DdgServer.Sched.Drain
import DdgServer.Sched.Suspended
import DdgServer.Sched.Wakeup

/-!
# Who refers to a fiber

The workers, the I/O manager and the clients together, with every `Fiber::ptr` that they hold. A
fiber is destroyed with the last of them, and `Fiber::~Fiber` asserts that its state is `INIT`,
`TERM` or `EXCEPT`.

- **References** (`Owners.Refers`): entries of `m_fibers`, the `ft` of a worker, the contexts of
  events, the clients, and `cur` in `MainFunc` and in the Yield functions, on the stack of the fiber
  itself while it has not ended.
- **Steps** (`Owners.step`): those of the scheduler, whole calls of the manager, and the destructor.
  What a call of the manager triggers is scheduled with it.
- **The condition** (`Owners.Clean`): a worker does not enter a context that is in use, nor write
  `HOLD` into a fiber that has ended; no fiber is reset that a worker has; the destructor finds no
  fiber queued that a scan has made `READY` and that nobody has entered.
- `unreferenced_destructible`: in the runs that meet it, a fiber that nothing refers to may be
  destroyed.
- `queued_ready_destroyed`: a fiber that may not, in a run that does not meet it.
-/

namespace Ddg

variable {ω κ K : Type}

/-- The manager's own scheduler. -/
def self : SchedulerId := 0

/-- The context of an event refers to the fiber. -/
def IOManager.waits (m : IOManager ℕ κ K) (f : ℕ) : Bool :=
  m.ctxs.any fun c => c.read.fiber == some f || c.write.fiber == some f

/-- The workers, the manager and the clients; `handle` are the fibers that a client refers to, and
`gone` is set by the destructor. The ghost `entered` are the fibers that were entered since they
were constructed or reset. -/
structure Owners (ω κ K : Type) where
  sched : Sched.State ω κ := {}
  io : IOManager ℕ κ K
  handle : ℕ → Bool := fun _ => false
  entered : ℕ → Bool := fun _ => false
  gone : Bool := false

theorem FiberState.destructible_of_ended {x : FiberState} (h : x.ended = true) :
    x.destructible = true := by
  cases x <;> first | rfl | cases h

namespace Owners

/-- A `Fiber::ptr` to the fiber exists. -/
def Refers (s : Owners ω κ K) (f : ℕ) : Prop :=
  s.sched.queues f = true ∨ (∃ w, (s.sched.pc w).turnFiber = some f) ∨ s.io.waits f = true ∨
    s.handle f = true ∨ (s.entered f = true ∧ s.sched.finished f = false)

instance [Fintype ω] (s : Owners ω κ K) (f : ℕ) : Decidable (s.Refers f) :=
  inferInstanceAs (Decidable (_ ∨ _))

inductive Act (ω κ : Type) where
  /-- A step of the scheduler. -/
  | sched (l : Sched.Label ω κ)
  /-- A call of the manager. -/
  | io (op : Op ℕ κ)
  /-- A client copies a reference. -/
  | share (f : ℕ)
  /-- The clients drop theirs. -/
  | drop (f : ℕ)
  /-- The destructor: the contexts and the queue. -/
  | destroy

variable [Fintype ω] [DecidableEq ω] (cfg : Config ω) (ctl : Ctl K)

/-- Who schedules or resets a fiber refers to it. Behind the last `swapOut` of a fiber that has
ended is `DDG_ASSERT_MSG(false, ..)`. -/
def Possible (s : Owners ω κ K) : Sched.Label ω κ → Prop
  | .schedule items => ∀ item ∈ items, ∀ f ∈ item.fiber, s.Refers f
  | .reset f => s.Refers f
  | l => ∀ f ∈ s.sched.entering l, s.sched.finished f = false

instance (s : Owners ω κ K) : ∀ l, Decidable (s.Possible l)
  | .schedule items => inferInstanceAs (Decidable (∀ item ∈ items, ∀ f ∈ item.fiber, s.Refers f))
  | .reset f => inferInstanceAs (Decidable (s.Refers f))
  | .tickle | .create | .run _ | .task .. | .idle .. | .wake .. | .start | .stop | .caller _ =>
    inferInstanceAs (Decidable (∀ f ∈ s.sched.entering _, s.sched.finished f = false))

/-- The fibers entered after a step of the scheduler. -/
def enteredBy (s : Owners ω κ K) : Sched.Label ω κ → ℕ → Bool
  | .reset f => Function.update s.entered f false
  | l =>
    match s.sched.entering l with
    | some f => Function.update s.entered f true
    | none => s.entered

/-- After a step of the scheduler; a client has the fiber that it made. -/
def after (s : Owners ω κ K) (l : Sched.Label ω κ) (t : Sched.State ω κ) : Owners ω κ K :=
  { s with
    sched := t, entered := s.enteredBy l
    handle :=
      match l with
      | .create => Function.update s.handle s.sched.made true
      | _ => s.handle }

/-- The calls of `schedule` that a call of the manager made on its own scheduler. -/
def scheduleCalls : List (Call ℕ κ) → Sched.State ω κ → Option (Sched.State ω κ)
  | [], t => some t
  | (i, ft) :: calls, t =>
    if i = self then
      (Sched.step cfg t (.schedule [{ fiber := ft.fiber, cb := ft.cb, thread := ft.thread }])).bind
        (scheduleCalls calls)
    else scheduleCalls calls t

/-- `addEvent` without a callback registers the fiber that runs. -/
def Registers (s : Owners ω κ K) : Op ℕ κ → Prop
  | .addEvent _ _ none me => me.scheduler = some self ∧ me.state = s.sched.state me.fiber ∧
      ∃ w, (s.sched.pc w).fiberIn (· == .task) = some me.fiber
  | _ => True

instance (s : Owners ω κ K) : ∀ op, Decidable (s.Registers op)
  | .addEvent _ _ none me => inferInstanceAs (Decidable (me.scheduler = some self ∧
      me.state = s.sched.state me.fiber ∧
        ∃ w, (s.sched.pc w).fiberIn (· == .task) = some me.fiber))
  | .addEvent _ _ (some _) _ | .delEvent .. | .cancelEvent .. | .cancelAll _ | .deliver .. =>
    .isTrue trivial

/-- Nobody is in `run`, and `stop()` is not under way. -/
def Quiet (s : Owners ω κ K) : Prop :=
  (s.sched.caller = .fresh ∨ s.sched.caller = .stopped) ∧ ∀ w, (s.sched.pc w).inRun = false

instance (s : Owners ω κ K) : Decidable s.Quiet := inferInstanceAs (Decidable (_ ∧ _))

def step (s : Owners ω κ K) : Act ω κ → Option (Owners ω κ K)
  | .sched l =>
    if s.gone = false ∧ s.Possible l then (Sched.step cfg s.sched l).map (s.after l) else none
  | .io op =>
    if s.gone = false ∧ s.Registers op then
      match s.io.exec ctl op with
      | .error _ => none
      | .ok (_, io) =>
        (scheduleCalls cfg (io.scheduled.drop s.io.scheduled.length) s.sched).map fun t =>
          { s with io, sched := t }
    else none
  | .share f =>
    if s.Refers f then some { s with handle := Function.update s.handle f true } else none
  | .drop f => some { s with handle := Function.update s.handle f false }
  | .destroy =>
    if s.gone = false ∧ s.Quiet then
      some { s with
        sched := { s.sched with fibers := [] }
        io := { s.io with ctxs := [], fdContext := [] }
        gone := true }
    else none

def sys (k : K) : Interleave.Sys (Owners ω κ K) (Act ω κ) where
  init s := s = { io := IOManager.initial k }
  step := step cfg ctl

/-- The condition on the steps (module doc). -/
def Clean (s : Owners ω κ K) : Act ω κ → Prop
  | .sched (.reset f) => ∀ u, (s.sched.pc u).turnFiber ≠ some f
  | .sched l =>
    (∀ f ∈ s.sched.entering l, ∀ u, (s.sched.pc u).fiberIn Phase.inside ≠ some f) ∧
      ∀ f ∈ s.sched.parking l, s.sched.finished f = false
  | .destroy => ∀ e ∈ s.sched.fibers, ∀ f ∈ e.fiber, s.entered f = false → s.sched.state f = .init
  | _ => True

instance (s : Owners ω κ K) : ∀ a, Decidable (s.Clean a)
  | .sched (.reset f) => inferInstanceAs (Decidable (∀ u, (s.sched.pc u).turnFiber ≠ some f))
  | .sched (.schedule _) | .sched .tickle | .sched .create | .sched (.run _) | .sched (.task ..)
  | .sched (.idle ..) | .sched (.wake ..) | .sched .start | .sched .stop | .sched (.caller _) =>
    inferInstanceAs (Decidable
      ((∀ f ∈ s.sched.entering _, ∀ u, (s.sched.pc u).fiberIn Phase.inside ≠ some f) ∧
        ∀ f ∈ s.sched.parking _, s.sched.finished f = false))
  | .destroy => inferInstanceAs (Decidable
      (∀ e ∈ s.sched.fibers, ∀ f ∈ e.fiber, s.entered f = false → s.sched.state f = .init))
  | .io _ | .share _ | .drop _ => .isTrue trivial

/-! ## Runs -/

variable {cfg ctl} {s s' : Owners ω κ K} {k : K}

/-- The states of the fibers go with their stacks. -/
structure Inv (s : Owners ω κ K) : Prop where
  tracked : s.gone = false → s.sched.Tracked
  kept : s.sched.Kept s.entered

theorem tracked_step {t t' : Sched.State ω κ} {l : Sched.Label ω κ} (ht : t.Tracked)
    (hs : Sched.step cfg t l = some t') : t'.Tracked := by
  have hind : (Sched.sys cfg).Inductive Interleave.Sys.free fun s : Sched.State ω κ => s.Tracked :=
    Sched.tracked_inductive
  exact hind.step t l t' ht trivial hs

/-- A step of the scheduler, on whichever fibers it works. -/
theorem Inv.sched (h : s.Inv) (hg : s.gone = false) {l : Sched.Label ω κ} (hp : s.Possible l)
    (hc : s.Clean (.sched l)) {t : Sched.State ω κ} (hs : Sched.step cfg s.sched l = some t) :
    (s.after l t).Inv := by
  have ht := h.tracked hg
  refine ⟨fun _ => tracked_step ht hs, ?_⟩
  by_cases hl : ∃ f, l = .reset f
  · obtain ⟨f, rfl⟩ := hl
    show t.toCore.Kept (Function.update s.entered f false)
    rw [Sched.reset_of_step hs]
    exact h.kept.reset hc
  · have hnr : ∀ f, l ≠ .reset f := fun f hf => hl ⟨f, hf⟩
    have hent : s.enteredBy l = match s.sched.entering l with
        | some f => Function.update s.entered f true
        | none => s.entered := by
      cases l with
      | reset f => exact absurd rfl (hnr f)
      | _ => rfl
    have hclean : (∀ f ∈ s.sched.entering l, ∀ u, (s.sched.pc u).fiberIn Phase.inside ≠ some f) ∧
        ∀ f ∈ s.sched.parking l, s.sched.finished f = false := by
      cases l with
      | reset f => exact absurd rfl (hnr f)
      | _ => exact hc
    show t.toCore.Kept (s.enteredBy l)
    rw [hent]
    cases he : s.sched.entering l with
    | none => exact (Sched.move_of_step hs).kept ht.wf h.kept hnr he hclean.2
    | some f =>
      obtain ⟨w, ft, hpc, hf, hcore⟩ := Sched.enters_of_step he hs
      have hfin : s.sched.finished f = false := by
        cases l with
        | reset f => exact absurd rfl (hnr f)
        | schedule items => cases he
        | _ => exact hp f he
      rw [hcore]
      exact h.kept.enters ht.wf hpc hf hfin (hclean.1 f he)

/-- What the manager triggered is scheduled. -/
theorem Inv.scheduleCalls {calls : List (Call ℕ κ)} {t t' : Sched.State ω κ} {entered : ℕ → Bool}
    (htr : t.Tracked) (hk : t.Kept entered) (hs : scheduleCalls cfg calls t = some t') :
    t'.Tracked ∧ t'.Kept entered := by
  induction calls generalizing t with
  | nil =>
    cases hs
    exact ⟨htr, hk⟩
  | cons call calls ih =>
    obtain ⟨i, ft⟩ := call
    unfold Owners.scheduleCalls at hs
    split at hs
    · obtain ⟨t₁, h₁, hs⟩ := Option.bind_eq_some_iff.mp hs
      exact ih (tracked_step htr h₁)
        ((Sched.move_of_step h₁).kept htr.wf hk nofun rfl nofun) hs
    · exact ih htr hk hs

theorem inv_inductive : (sys cfg ctl k).Inductive Clean (Inv (κ := κ)) where
  init := by
    rintro s rfl
    have hind : (Sched.sys cfg).Inductive Interleave.Sys.free
        fun s : Sched.State ω κ => s.Tracked := Sched.tracked_inductive
    exact ⟨fun _ => hind.init _ rfl, nofun, nofun, nofun, nofun, nofun, nofun, nofun, nofun, nofun⟩
  step s a s' h hc hs := by
    cases a with
    | sched l =>
      simp only [sys, step] at hs
      split at hs
      · rename_i hp
        obtain ⟨t, ht, rfl⟩ := Option.map_eq_some_iff.mp hs
        exact h.sched hp.1 hp.2 hc ht
      · cases hs
    | io op =>
      simp only [sys, step] at hs
      split at hs
      · rename_i hp
        split at hs
        · cases hs
        · obtain ⟨t, ht, rfl⟩ := Option.map_eq_some_iff.mp hs
          obtain ⟨htr, hk⟩ := Inv.scheduleCalls (h.tracked hp.1) h.kept ht
          exact ⟨fun _ => htr, hk⟩
      · cases hs
    | share f =>
      simp only [sys, step] at hs
      split at hs
      · cases hs
        exact ⟨h.tracked, h.kept⟩
      · cases hs
    | drop f =>
      cases hs
      exact ⟨h.tracked, h.kept⟩
    | destroy =>
      simp only [sys, step] at hs
      split at hs
      · rename_i hp
        cases hs
        refine ⟨nofun, ?_⟩
        -- no worker has an entry, and the queued fibers that were not entered are in `INIT`
        have hnone : ∀ f, ¬ s.sched.Held f := by
          rintro f ⟨w, hw⟩
          obtain ⟨ft, ph, hpc, -⟩ := Pc.fiberIn_eq_some.mp hw
          have := hp.2.2 w
          rw [hpc] at this
          cases this
        have hk := h.kept
        refine { hk with fresh := fun f hf hn => ?_ }
        rcases hk.fresh f hf hn with hx | ⟨-, hq | hh⟩
        · exact .inl hx
        · obtain ⟨e, he, hfe⟩ := Sched.Core.queues_eq_true.mp hq
          exact .inl (hc e he f hfe hn)
        · exact absurd hh (hnone f)
      · cases hs

/-- **No suspended fiber is destroyed** in a run that meets the condition: a fiber that nothing
refers to is in a state that `~Fiber` accepts. -/
theorem unreferenced_destructible (h : (sys cfg ctl k).Reach Clean s) {f : ℕ}
    (hf : f < s.sched.made) (hr : ¬ s.Refers f) : (s.sched.state f).destructible = true := by
  obtain ⟨-, hk⟩ := inv_inductive.reach h
  have hheld : ¬ s.sched.Held f := fun ⟨w, hw⟩ =>
    hr (.inr (.inl ⟨w, Pc.turnFiber_of_fiberIn hw⟩))
  cases hent : s.entered f with
  | false =>
    rcases hk.fresh f hf hent with hx | ⟨-, hq | hh⟩
    · rw [hx]
      rfl
    · exact absurd (.inl hq) hr
    · exact absurd hh hheld
  | true =>
    cases hfin : s.sched.finished f with
    | false => exact absurd (.inr (.inr (.inr (.inr ⟨hent, hfin⟩)))) hr
    | true =>
      rcases hk.ended f hfin with hx | hh
      · exact FiberState.destructible_of_ended hx
      · exact absurd hh hheld

/-- A task that waits for `READ`, with nobody but the event and the queue to refer to it, is woken
and returns. -/
theorem unreferenced_destructible_woken : ∃ s : Owners (Fin 1) Unit EpollMap,
    s.sched.finished 0 = true ∧ ¬ s.Refers 0 ∧ (s.sched.state 0).destructible = true := by
  obtain ⟨s, hs, hp⟩ := Interleave.Sys.exists_of_runBy
    (S := sys (κ := Unit) Sched.ioWorker EpollMap.ctl fun _ => none) (C := Clean)
    (s := { io := IOManager.initial fun _ => none })
    (List.flatten [
      [.sched .start, .sched .create, .sched (.schedule [{ fiber := some 0 }]), .drop 0],
      -- the scan makes it `READY`; the worker comes back from its idle fiber and enters it
      .replicate 2 (.sched (.run 0)), [.sched (.idle 0 false), .sched (.wake 0 false)],
      .replicate 9 (.sched (.run 0)),
      [.io (.addEvent 5 .read none { scheduler := some self, fiber := 0, state := .exec }),
        .sched (.task 0 .hold)],
      .replicate 5 (.sched (.run 0)), [.io (.deliver 5 EPOLLIN)],
      .replicate 2 (.sched (.run 0)), [.sched (.idle 0 false), .sched (.wake 0 false)],
      .replicate 9 (.sched (.run 0)), [.sched (.task 0 .term)], .replicate 4 (.sched (.run 0))])
    (p := fun s => decide (0 < s.sched.made ∧ s.sched.finished 0 = true ∧ ¬ s.Refers 0))
    (by decide +kernel)
  obtain ⟨hlt, hfin, hr⟩ := of_decide_eq_true hp
  exact ⟨s, hfin, hr, unreferenced_destructible ⟨_, rfl, hs⟩ hlt hr⟩

/-- The only worker scans when its idle fiber has ended: it makes the queued fiber `READY`, skips it
and leaves. The fiber is destroyed with the queue. -/
theorem queued_ready_destroyed : ∃ s : Owners (Fin 1) Unit EpollMap,
    (sys Sched.oneWorker EpollMap.ctl fun _ => none).Reach Interleave.Sys.free s ∧
      0 < s.sched.made ∧ ¬ s.Refers 0 ∧ (s.sched.state 0).destructible = false := by
  obtain ⟨s, hs, hp⟩ := Interleave.Sys.exists_of_runBy
    (S := sys (κ := Unit) Sched.oneWorker EpollMap.ctl fun _ => none) (C := Interleave.Sys.free)
    (s := { io := IOManager.initial fun _ => none })
    (List.flatten [[.sched .start], .replicate 4 (.sched (.run 0)),
      [.sched .create, .sched (.schedule [{ fiber := some 0 }]), .drop 0, .sched (.run 0),
        .sched .stop],
      .replicate 5 (.sched (.caller true)), [.destroy]])
    (p := fun s => decide
      (0 < s.sched.made ∧ ¬ s.Refers 0 ∧ (s.sched.state 0).destructible = false))
    (by decide +kernel)
  exact ⟨s, ⟨_, rfl, hs⟩, of_decide_eq_true hp⟩

end Owners
end Ddg
