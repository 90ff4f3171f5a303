import DdgServer.Lib.Sys
import DdgServer.Sched.Scan
import Mathlib.Data.Fintype.Card

/-!
# The scheduler

`ddg/scheduler.cc` with the parts of `ddg/fiber.cc` and `ddg/iomanager.cc` that its workers run.
Each worker is a thread in `Scheduler::run`; the clients, the tasks and the event loops create
fibers and call `schedule`, and one client calls `start()` and then `stop()`. An atomic step is a
section under `m_mutex`, a read or write of `Fiber::m_state`, an update of a counter, a context
switch, a `tickle()` or a step of `epoll_wait`.

- **Workers** (`Pc`, `Phase`): where a worker is in its loop, and in its turn with an entry.
- **Steps** (`Label`, `step`): `run w` is the next step of worker `w` where its code decides it.
- **State** (`Core`, `State`): `Core` is the part that entries, fibers and turns are about; the rest
  is the idle fibers, the pipe and the client.
- **Ghosts**: `entries`, `retired`, `finished`, `yielded` and `requeued` record what happened; no
  step reads them.

A failed assertion ends the process, and an iterator past the end is undefined: there is no state
after them.
-/

namespace Ddg

/-- A scheduler: the thread ids of its workers, the worker that runs in the thread that constructed
the scheduler (`use_caller`), and whether it is an `IOManager`. The constructor asserts that the
number of the workers, a `size_t`, is not zero. -/
structure Config (ω : Type) [Fintype ω] where
  tid : ω → ThreadId
  root : Option ω := none
  io : Bool := false
  threads : 0 < Fintype.card ω ∧ Fintype.card ω < 2 ^ 64 := by decide

/-- How a task gives up its worker: `YieldToReady`, `YieldToHold`, a return or an exception. -/
inductive Outcome where
  | ready | hold | term | except
  deriving DecidableEq, Repr

/-- The state that the fiber gets. -/
def Outcome.state : Outcome → FiberState
  | .ready => .ready
  | .hold => .hold
  | .term => .term
  | .except => .except

/-- What a worker that has taken an entry does next. The outcome is a ghost. -/
inductive Phase where
  /-- `tickle()` after the scan. -/
  | tickle
  /-- `fiber = ft->fiber`, or a new fiber for the callback. -/
  | take
  /-- `fiber->setState(READY)`. -/
  | ready
  /-- `swapIn`: `DDG_ASSERT(m_state != EXEC)`. -/
  | check
  /-- `swapIn`: `m_state = EXEC`. -/
  | exec
  /-- `swapIn`: the context switch. -/
  | enter
  /-- The task runs. -/
  | task
  /-- The fiber writes its new state. -/
  | yield (out : Outcome)
  /-- `swapOut`: the context switch. -/
  | leave (out : Outcome)
  /-- `m_activeThreadCount--`. -/
  | back (out : Outcome)
  /-- `auto state = fiber->getState()`. -/
  | look (out : Outcome)
  /-- `schedule(ft)`: the section. -/
  | putBack (out : Outcome)
  /-- `ft->fiber->setState(HOLD)`. -/
  | park
  deriving DecidableEq

/-- Where a worker is in `Scheduler::run`. -/
inductive Pc (κ : Type) where
  /-- Not in `run` yet. -/
  | off
  /-- At the section that scans `m_fibers`. -/
  | scan
  /-- With the entry `ft`. -/
  | turn (ft : Entry κ) (phase : Phase)
  /-- `schedule(ft)`: the `tickle()` after the section. -/
  | putTickle
  /-- `tickle()` after a scan that took nothing. -/
  | tickled
  /-- `m_idleThreadCount++` and the switch to the idle fiber. -/
  | idleInc
  /-- In `idle()`. -/
  | idle
  /-- In `epoll_wait`. -/
  | wait
  /-- `epoll_wait` has returned, with the pipe among its events iff `pipe`. -/
  | woken (pipe : Bool)
  /-- The idle fiber has switched out: `m_idleThreadCount--`. -/
  | idleDec
  /-- `run` has returned. -/
  | left
  deriving DecidableEq

/-- The worker is in `run`. -/
def Pc.inRun {κ : Type} : Pc κ → Bool
  | .off | .left => false
  | _ => true

/-- Where the client is that calls `start()` and `stop()`. -/
inductive CallerPc where
  | fresh
  | started
  /-- `stop()` has set `m_autoStop`: its first `isStoped()`. -/
  | stopCheck
  /-- Its second one, if the root fiber has ended. -/
  | stopCheckRoot
  /-- `m_stopping = true`. -/
  | stopSet
  /-- The calls of `tickle()`. -/
  | stopTickle (n : ℕ)
  /-- The last `isStoped()`, before the root fiber is entered. -/
  | stopRoot
  /-- In the root fiber. -/
  | rootRun
  | join
  /-- `stop()` has returned. -/
  | stopped
  deriving DecidableEq

/-- A call of `schedule`: the fiber or callback (both absent: an empty one), and the thread id. -/
structure Item (κ : Type) where
  fiber : Option ℕ := none
  cb : Option κ := none
  thread : ThreadId := 0

namespace Sched

/-- The part of the state that entries, fibers and turns are about. -/
structure Core (ω κ : Type) where
  fibers : List (Entry κ) := []
  state : FiberStates := fun _ => .uninit
  /-- The fibers made so far are those below it. -/
  made : ℕ := 0
  activeThreadCount : BitVec 64 := 0
  stopping : Bool := true
  autoStop : Bool := false
  pc : ω → Pc κ := fun _ => .off
  /-- The number of entries accepted. -/
  entries : ℕ := 0
  /-- The entries that are done, with the state of their fiber then. -/
  retired : List (Entry κ × FiberState) := []
  /-- The fiber's function has returned or thrown, and the fiber was not reset since. -/
  finished : ℕ → Bool := fun _ => false
  /-- The entries whose task yielded by `YieldToReady`, and those that were put back after it. -/
  yielded : List (Entry κ) := []
  requeued : List (Entry κ) := []

structure State (ω κ : Type) extends Core ω κ where
  idleThreadCount : BitVec 64 := 0
  /-- The state of the worker's idle fiber; `none` after `idle_ft.reset()`. -/
  idleFt : ω → Option FiberState := fun _ => some .init
  rootState : FiberState := .init
  caller : CallerPc := .fresh
  /-- The calls of `schedule` that have left their section and not yet called `tickle()`. -/
  tickles : ℕ := 0
  /-- The unread bytes in the pipe. -/
  pipe : ℕ := 0

inductive Label (ω κ : Type) where
  /-- `schedule(fc, thread)` or, for several items, `schedule(begin, end)`. -/
  | schedule (items : List (Item κ))
  /-- A `tickle()` of such a call. -/
  | tickle
  /-- `new Fiber(cb)`. -/
  | create
  /-- `Fiber::reset`. -/
  | reset (fiber : ℕ)
  /-- The next step of a worker. -/
  | run (w : ω)
  /-- The task of a worker yields or ends. -/
  | task (w : ω) (out : Outcome)
  /-- `IOManager::idle` checks `isStoped(timeout)`: no timer and no pending event iff `quiet`. -/
  | idle (w : ω) (quiet : Bool)
  /-- `epoll_wait` returns. -/
  | wake (w : ω) (pipe : Bool)
  | start
  | stop
  /-- The next step of `stop()`; if it checks `isStoped()` of an `IOManager`: no pending event iff
  `quiet`. -/
  | caller (quiet : Bool)

variable {ω κ : Type} [Fintype ω]

/-- `Scheduler::isStoped`. -/
def Core.isStoped (c : Core ω κ) : Bool :=
  c.autoStop && c.stopping && c.fibers.isEmpty && c.activeThreadCount == 0

/-- `isStoped()`, which `IOManager` overrides. -/
def Core.virtualIsStoped (c : Core ω κ) (cfg : Config ω) (quiet : Bool) : Bool :=
  (quiet || !cfg.io) && c.isStoped

/-- `fiber->setState(x)`. -/
def Core.setState (c : Core ω κ) (f : ℕ) (x : FiberState) : Core ω κ :=
  { c with state := Function.update c.state f x }

/-- Worker `w` goes to `pc`. -/
def Core.goto [DecidableEq ω] (c : Core ω κ) (w : ω) (pc : Pc κ) : Core ω κ :=
  { c with pc := Function.update c.pc w pc }

/-- After a scan: what it left queued, the states, and the erased entries. -/
def Core.scanned (c : Core ω κ) (r : Scan κ) : Core ω κ :=
  { c with
    fibers := r.rest, state := r.state
    retired := c.retired ++ r.erased.map fun e => (e, (e.fiber.map r.state).getD .uninit) }

namespace State

/-- `tickle()`: that of `IOManager` writes a byte if a worker is counted as idle. -/
def tickle (cfg : Config ω) (s : State ω κ) : State ω κ :=
  if cfg.io && s.idleThreadCount != 0 then { s with pipe := s.pipe + 1 } else s

/-- `scheduleNoLock(fc, thread)`: an entry that is not empty is queued. -/
def scheduleNoLock (s : State ω κ) (item : Item κ) : State ω κ × Bool :=
  let e : Entry κ :=
    { fiber := item.fiber, cb := item.cb, thread := narrowThread item.thread, id := s.entries
      asked := item.thread }
  let s := if e.nonempty then { s with fibers := s.fibers ++ [e], entries := s.entries + 1 } else s
  (s, !s.fibers.isEmpty)

/-- The section of `schedule`: `need_tickle` is the second component. -/
def scheduleAll (s : State ω κ) : List (Item κ) → State ω κ × Bool
  | [] => (s, false)
  | item :: items =>
    let r := s.scheduleNoLock item
    let r' := r.1.scheduleAll items
    (r'.1, r.2 || r'.2)

end State

section Step

variable [DecidableEq ω] (cfg : Config ω) (s : State ω κ)

def State.goto (w : ω) (pc : Pc κ) : State ω κ := { s with toCore := s.toCore.goto w pc }

def State.setState (f : ℕ) (x : FiberState) : State ω κ :=
  { s with toCore := s.toCore.setState f x }

/-- Where a worker goes that found nothing: to its idle fiber, or out of the loop. -/
def State.rest (w : ω) : Pc κ := if (s.idleFt w).isSome then .idleInc else .left

/-- The section that scans `m_fibers`. -/
def scanStep (w : ω) : Option (State ω κ) :=
  (Scan.scan (cfg.tid w) s.fibers s.state).map fun r =>
    let s' : State ω κ := { s with toCore := s.toCore.scanned r }
    match r.taken with
    | some ft => { s'.goto w (.turn ft .tickle) with activeThreadCount := s.activeThreadCount + 1 }
    | none => s'.goto w (if r.tickleMe then .tickled else s.rest w)

/-- The steps of a worker that has taken `ft` and has its fiber `f`. -/
def turnStep (w : ω) (ft : Entry κ) (f : ℕ) : Phase → Option (State ω κ)
  | .ready => some ((s.setState f .ready).goto w (.turn ft .check))
  | .check => if s.state f = .exec then none else some (s.goto w (.turn ft .exec))
  | .exec => some ((s.setState f .exec).goto w (.turn ft .enter))
  | .enter => some (s.goto w (.turn ft .task))
  | .yield out =>
    some { (s.setState f out.state).goto w (.turn ft (.leave out)) with
      finished := if out.state.ended then Function.update s.finished f true else s.finished
      yielded := if out = .ready then s.yielded ++ [ft] else s.yielded }
  | .leave out => some (s.goto w (.turn ft (.back out)))
  | .back out =>
    some { s.goto w (.turn ft (.look out)) with activeThreadCount := s.activeThreadCount - 1 }
  | .look out =>
    if s.state f = .ready then some (s.goto w (.turn ft (.putBack out)))
    else if (s.state f).ended then
      some { s.goto w .scan with retired := s.retired ++ [(ft, s.state f)] }
    else some (s.goto w (.turn ft .park))
  | .putBack out =>
    some { s.goto w .putTickle with
      fibers := s.fibers ++ [ft]
      requeued := if out = .ready then s.requeued ++ [ft] else s.requeued }
  | .park =>
    some { (s.setState f .hold).goto w .scan with retired := s.retired ++ [(ft, .hold)] }
  | .tickle | .take | .task => none

/-- `run w`: the next step of worker `w`. -/
def runStep (w : ω) : Option (State ω κ) :=
  match s.pc w with
  | .scan => scanStep cfg s w
  | .turn ft .tickle => some ((s.tickle cfg).goto w (.turn ft .take))
  | .turn ft .take =>
    match ft.fiber, ft.cb with
    | some _, _ => some (s.goto w (.turn ft .ready))
    | none, some _ =>
      some { (s.setState s.made .init).goto w
          (.turn { ft with fiber := some s.made, cb := none } .ready) with made := s.made + 1 }
    | none, none => some { s.goto w .scan with activeThreadCount := s.activeThreadCount - 1 }
  | .turn ft phase =>
    match ft.fiber with
    | some f => turnStep s w ft f phase
    | none => none
  | .putTickle => some ((s.tickle cfg).goto w .scan)
  | .tickled => some ((s.tickle cfg).goto w (s.rest w))
  | .idleInc =>
    -- `swapIn` asserts that the idle fiber is not in `EXEC`
    if s.idleFt w = some .exec then none
    else some { s.goto w .idle with
      idleThreadCount := s.idleThreadCount + 1, idleFt := Function.update s.idleFt w (some .exec) }
  | .idle =>
    -- `Scheduler::idle` returns at once
    if cfg.io then none
    else some { s.goto w .idleDec with idleFt := Function.update s.idleFt w (some .term) }
  | .woken pipe => some (if pipe then { s.goto w .idleDec with pipe := 0 } else s.goto w .idleDec)
  | .idleDec =>
    let ft := match s.idleFt w with
      | some .exec => some .hold
      | some x => if x.ended then none else some x
      | none => none
    some { s.goto w .scan with
      idleThreadCount := s.idleThreadCount - 1, idleFt := Function.update s.idleFt w ft }
  | .off | .wait | .left => none

/-- The task of worker `w` yields, if the assertion of `YieldToReady` and `YieldToHold` holds, or
ends. -/
def taskStep (w : ω) (out : Outcome) : Option (State ω κ) :=
  match s.pc w with
  | .turn ft .task =>
    match ft.fiber with
    | some f =>
      if out.state.ended ∨ s.state f = .exec then some (s.goto w (.turn ft (.yield out))) else none
    | none => none
  | _ => none

/-- `IOManager::idle`: the check at the top of its loop. -/
def idleStep (w : ω) (quiet : Bool) : Option (State ω κ) :=
  match s.pc w, cfg.io with
  | .idle, true =>
    if quiet && s.isStoped then
      some { s.goto w .idleDec with idleFt := Function.update s.idleFt w (some .term) }
    else some (s.goto w .wait)
  | _, _ => none

/-- `epoll_wait` returns; it reports the pipe only if a byte is unread. -/
def wakeStep (w : ω) (pipe : Bool) : Option (State ω κ) :=
  match s.pc w with
  | .wait => if pipe = true ∧ s.pipe = 0 then none else some (s.goto w (.woken pipe))
  | _ => none

/-- The steps of `stop()`. -/
def callerStep (quiet : Bool) : Option (State ω κ) :=
  match s.caller with
  | .stopCheck =>
    if s.virtualIsStoped cfg quiet then some { s with caller := .stopped }
    else if cfg.root.isSome && s.rootState.ended then
      some { s with stopping := true, caller := .stopCheckRoot }
    else some { s with caller := .stopSet }
  | .stopCheckRoot =>
    some { s with caller := if s.virtualIsStoped cfg quiet then .stopped else .stopSet }
  | .stopSet => some { s with stopping := true, caller := .stopTickle (Fintype.card ω) }
  | .stopTickle (n + 1) => some { s.tickle cfg with caller := .stopTickle n }
  | .stopTickle 0 =>
    if cfg.root.isSome then some { s with rootState := .exec, caller := .stopRoot }
    else some { s with caller := .join }
  | .stopRoot =>
    match cfg.root with
    | some r =>
      if s.virtualIsStoped cfg quiet then some { s with caller := .join }
      else
        match s.pc r with
        | .off => some { s.goto r .scan with caller := .rootRun }
        | _ => none
    | none => none
  | .rootRun =>
    match cfg.root with
    | some r =>
      match s.pc r with
      | .left => some { s with rootState := .term, caller := .join }
      | _ => none
    | none => none
  | .join =>
    if ∀ w, some w ≠ cfg.root → (s.pc w).inRun = false then
      some { s with caller := .stopped }
    else none
  | .fresh | .started | .stopped => none

def step : Label ω κ → Option (State ω κ)
  | .schedule items =>
    if ∀ item ∈ items, ∀ f ∈ item.fiber, f < s.made then
      let r := s.scheduleAll items
      some (if r.2 then { r.1 with tickles := r.1.tickles + 1 } else r.1)
    else none
  | .tickle =>
    if 0 < s.tickles then some { s.tickle cfg with tickles := s.tickles - 1 } else none
  | .create => some { s.setState s.made .init with made := s.made + 1 }
  | .reset f =>
    if f < s.made ∧ ((s.state f).ended ∨ s.state f = .init) then
      some { s.setState f .init with finished := Function.update s.finished f false }
    else none
  | .run w => runStep cfg s w
  | .task w out => taskStep s w out
  | .idle w quiet => idleStep cfg s w quiet
  | .wake w pipe => wakeStep s w pipe
  | .start =>
    if s.caller = .fresh then
      some { s with
        caller := .started, stopping := false
        pc := fun w =>
          match s.pc w with
          | .off => if some w = cfg.root then .off else .scan
          | pc => pc }
    else none
  | .stop =>
    if s.caller = .fresh ∨ s.caller = .started then
      some { s with caller := .stopCheck, autoStop := true }
    else none
  | .caller quiet => callerStep cfg s quiet

def sys : Interleave.Sys (State ω κ) (Label ω κ) where
  init s := s = {}
  step s a := step cfg s a

end Step

/-! ## Schedulers with one worker -/

/-- One worker in a thread of its own. -/
def oneWorker : Config (Fin 1) where
  tid _ := 1

/-- An `IOManager` with one worker in a thread of its own. -/
def ioWorker : Config (Fin 1) where
  tid _ := 1
  io := true

/-- A worker in the thread that constructed the scheduler. -/
def rootWorker : Config (Fin 1) where
  tid _ := 1
  root := some 0

end Sched
end Ddg
