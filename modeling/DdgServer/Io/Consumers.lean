import DdgServer.Io.CallLemmas

/-!
# Several consumers of one fd

Any number of threads run `delEvent`, `cancelEvent`, `cancelAll` and the event loop of `idle` on the
same fd. An atomic step is a section under `fd_ctx->mutex`, a read of `fd_ctx->events` outside it,
an `epoll_ctl` call or a write outside a lock: `cancelEvent` and `cancelAll` check the mask before
they take the mutex, and `delEvent` never takes it. `epoll_ctl` is a parameter, as in
`DdgServer/Io/Manager.lean`.

- **Steps** (`step`): a thread starts a call with its first read, and then does its next step;
  `delEvent_alone` puts the steps of `delEvent` together again.
- **Clean steps** (`Clean`): a call whose `epoll_ctl` succeeds finds what it goes on to consume
  armed, and no `delEvent` between its own `epoll_ctl` and its write of `events`.
- **Counted steps** (`Counted`): clean ones but the `m_pendingEventCount--` of `delEvent`, which
  comes before its write of `events`.
- `consumed_once`: in a run of clean steps each armed event is consumed once, and in a run of counted
  steps the counter follows the armed events.
- `cancelEvent_races`: a `cancelEvent` whose event is delivered between its check and its section.
-/

namespace Ddg.Consumers

variable {φ κ K τ : Type}

/-! ## Steps -/

/-- What a thread calls. For `idle` the reported word. -/
inductive Consumer where
  | delEvent (event : Event)
  | cancelEvent (event : Event)
  | cancelAll
  | deliver (word : Word)
  deriving DecidableEq

/-- The writes of `resetContext`, in order. -/
inductive Reset where
  | cb | fiber | scheduler
  deriving DecidableEq

/-- What a thread does next. -/
inductive Pc where
  /-- In no call. -/
  | out
  /-- `delEvent`: `new_events = fd_ctx->events & ~event`. -/
  | delRead (event : Event)
  /-- `delEvent`: `epoll_ctl` for `new_events`. -/
  | delCtl (event : Event) (newEvents : Word)
  /-- `delEvent`: `m_pendingEventCount--`. -/
  | delCount (event : Event) (newEvents : Word)
  /-- `delEvent`: `fd_ctx->events = new_events`. -/
  | delWrite (event : Event) (newEvents : Word)
  /-- `delEvent`: a write of `resetContext`. -/
  | delReset (event : Event) (part : Reset)
  /-- `cancelEvent`, `cancelAll` and `idle`: the section under the mutex. -/
  | cancelLocked (event : Event)
  | cancelAllLocked
  | deliverLocked (word : Word)
  deriving DecidableEq

/-- The threads and what they share. `consumed` lists the events triggered or removed, with the
thread; `decremented` the events for which the counter was decreased. -/
structure State (φ κ K τ : Type) where
  view : View φ κ K
  pc : τ → Pc
  fault : Option Fault := none
  consumed : List (τ × Event) := []
  decremented : List Event := []

inductive Label (τ : Type) where
  /-- Thread `t` starts a call and reads `fd_ctx->events`. -/
  | start (t : τ) (call : Consumer)
  /-- Thread `t` does its next step. -/
  | next (t : τ)

/-- One write of `resetContext(getContext(event))`. -/
def resetPart (event : Event) (part : Reset) (c : FdContext φ κ) : Except Fault (FdContext φ κ) :=
  match c.getContext event with
  | .error e => .error e
  | .ok x =>
    match part with
    | .cb => .ok (c.setContext { x with cb := none } event)
    | .fiber => .ok (c.setContext { x with fiber := none } event)
    | .scheduler => .ok (c.setContext { x with scheduler := none } event)

/-- The events of `old` that are not in `new`. -/
def gone (old new : Word) : List Event :=
  [Event.read, Event.write].filter fun e => old.test e.bits && !new.test e.bits

section Step

variable [DecidableEq τ] (ctl : Ctl K) (fd : ℤ) (s : State φ κ K τ)

/-- Thread `t` goes to `pc`. -/
def State.goto (t : τ) (pc : Pc) : State φ κ K τ := { s with pc := Function.update s.pc t pc }

/-- A section under the mutex that ends the call of thread `t`: what it consumed is what it cleared
in `events`. -/
def State.section {ρ : Type} (t : τ) (r : Except Fault (ρ × View φ κ K)) : State φ κ K τ :=
  match r with
  | .error e => { s with fault := some e }
  | .ok (_, view) =>
    let es := gone s.view.ctx.events view.ctx.events
    { s.goto t .out with
      view, consumed := s.consumed ++ es.map (t, ·), decremented := s.decremented ++ es }

/-- The first step of a call: the read of `fd_ctx->events`. For `idle` it is the report, of events
that are armed. -/
def start (t : τ) : Consumer → Option (State φ κ K τ)
  | .delEvent e =>
    if s.view.ctx.events.test e.bits then some (s.goto t (.delRead e)) else some s
  | .cancelEvent e =>
    if s.view.ctx.events.test e.bits then some (s.goto t (.cancelLocked e)) else some s
  | .cancelAll =>
    if s.view.ctx.events != 0 then some (s.goto t .cancelAllLocked) else some s
  | .deliver word =>
    if (realEvents word).mask &&& ~~~s.view.ctx.events = 0 then some (s.goto t (.deliverLocked word))
    else none

/-- The next step of thread `t`. -/
def next (t : τ) : Option (State φ κ K τ) :=
  match s.pc t with
  | .out => none
  | .delRead e => some (s.goto t (.delCtl e (s.view.ctx.events &&& ~~~e.bits)))
  | .delCtl e w =>
    let r := s.view.delCtl ctl fd w
    some { s.goto t (if r.1 then .delCount e w else .out) with view := r.2 }
  | .delCount e w =>
    some { s.goto t (.delWrite e w) with
      view := s.view.decrement, decremented := s.decremented ++ [e] }
  | .delWrite e w =>
    some { s.goto t (.delReset e .cb) with
      view := s.view.setEvents w, consumed := s.consumed ++ [(t, e)] }
  | .delReset e part =>
    match resetPart e part s.view.ctx with
    | .error f => some { s with fault := some f }
    | .ok ctx =>
      let pc := match part with
        | .cb => .delReset e .fiber
        | .fiber => .delReset e .scheduler
        | .scheduler => .out
      some { s.goto t pc with view := { s.view with ctx } }
  | .cancelLocked e => some (s.section t (s.view.cancelLocked ctl fd e))
  | .cancelAllLocked => some (s.section t (s.view.cancelAllLocked ctl fd))
  | .deliverLocked word =>
    some (s.section t ((s.view.deliver ctl word).map fun v => ((), v)))

/-- One atomic step; none after a fault. -/
def step : Label τ → Option (State φ κ K τ)
  | .start t call => if s.fault = none ∧ s.pc t = .out then start s t call else none
  | .next t => if s.fault = none then next ctl fd s t else none

/-- All threads outside the calls, the events `a` armed with their schedulers, and `k` events of
other fds pending. -/
def initial (a : Armed) (k : ℕ) : Prop :=
  s.fault = none ∧ s.consumed = [] ∧ s.decremented = [] ∧ (∀ t, s.pc t = .out) ∧ s.view.ctx.Ok a ∧
    (∀ e x, a.get e = true → s.view.ctx.getContext e = .ok x → x.scheduler.isSome = true) ∧
    s.view.pendingEventCount.toNat = k + a.card

def sys (a : Armed) (k : ℕ) : Interleave.Sys (State φ κ K τ) (Label τ) where
  init s := initial s a k
  step := step ctl fd

/-! ## Clean steps -/

/-- The thread is between the `epoll_ctl` of its `delEvent` and its write of `events`. -/
def Pc.removes : Pc → Bool
  | .delCount .. | .delWrite .. => true
  | _ => false

/-- The step makes an `epoll_ctl` call that succeeds. -/
def Pc.ctlOk (v : View φ κ K) : Pc → Bool
  | .delCtl _ w => (v.delCtl ctl fd w).1
  | .cancelLocked e =>
    let op := if v.ctx.events &&& ~~~e.bits != 0 then CtlOp.mod else CtlOp.del
    (ctl v.epoll op fd op.code).1
  | .cancelAllLocked => (ctl v.epoll .del fd CtlOp.del.code).1
  | .deliverLocked word =>
    let word := readyWord v.ctx.events word
    let real := (realEvents word).mask
    v.ctx.events &&& real != 0 &&
      (ctl v.epoll (if v.ctx.events &&& ~~~real != 0 then .mod else .del) v.ctx.fd word).1
  | _ => false

/-- What the call goes on to consume is armed, and `new_events` is up to date. -/
def Pc.fits (events : Word) : Pc → Bool
  | .delCtl e w => events.test e.bits && w == events &&& ~~~e.bits
  | .cancelLocked e => events.test e.bits
  | .deliverLocked word => (realEvents (readyWord events word)).mask &&& ~~~events == 0
  | _ => true

/-- If the step makes an `epoll_ctl` call that succeeds, what the call consumes is armed and no
`delEvent` is between its `epoll_ctl` and its write of `events`. -/
def Clean (s : State φ κ K τ) : Label τ → Prop
  | .start _ _ => True
  | .next t => (s.pc t).ctlOk ctl fd s.view = true →
    (s.pc t).fits s.view.ctx.events = true ∧ ∀ u, (s.pc u).removes = false

instance [Fintype τ] (s : State φ κ K τ) : ∀ a, Decidable (Clean ctl fd s a)
  | .start _ _ => .isTrue trivial
  | .next t => inferInstanceAs (Decidable ((s.pc t).ctlOk ctl fd s.view = true →
      (s.pc t).fits s.view.ctx.events = true ∧ ∀ u, (s.pc u).removes = false))

/-- The next step is the `m_pendingEventCount--` of `delEvent`. -/
def Pc.decrements : Pc → Bool
  | .delCount .. => true
  | _ => false

/-- The step is clean, and it does not decrease the counter before `events` is written. -/
def Counted (s : State φ κ K τ) : Label τ → Prop
  | .start _ _ => True
  | .next t => Clean ctl fd s (.next t) ∧ (s.pc t).decrements = false

instance [Fintype τ] (s : State φ κ K τ) : ∀ a, Decidable (Counted ctl fd s a)
  | .start _ _ => .isTrue trivial
  | .next t => inferInstanceAs (Decidable (Clean ctl fd s (.next t) ∧ (s.pc t).decrements = false))

omit [DecidableEq τ] in
variable {ctl fd} in
theorem Counted.clean {s : State φ κ K τ} {l : Label τ} (h : Counted ctl fd s l) :
    Clean ctl fd s l := by
  cases l with
  | start => trivial
  | next => exact h.1

end Step

section Alone

variable [DecidableEq τ] {ctl : Ctl K} {fd : ℤ} {a : Armed} {k : ℕ} {s : State φ κ K τ} {t : τ}

theorem getContext_of_ne {e : Event} (h : e ≠ .none) (c : FdContext φ κ) :
    ∃ x, c.getContext e = .ok x := by
  cases e
  · exact absurd rfl h
  · exact ⟨_, rfl⟩
  · exact ⟨_, rfl⟩

theorem getContext_setContext {e : Event} (h : e ≠ .none) (c : FdContext φ κ)
    (x : EventContext φ κ) : (c.setContext x e).getContext e = .ok x := by
  cases e
  · exact absurd rfl h
  · rfl
  · rfl

theorem setContext_setContext (e : Event) (c : FdContext φ κ) (x y : EventContext φ κ) :
    (c.setContext x e).setContext y e = c.setContext y e := by
  cases e <;> rfl

variable (ctl fd) in
/-- The three writes of `resetContext`, with no step of another thread among them. -/
theorem reset_alone (hf : s.fault = none) {e : Event} (he : e ≠ .none)
    (hpc : s.pc t = .delReset e .cb) {r : Bool} {v : View φ κ K}
    (h : (match s.view.reset e with
      | .error e => .error e
      | .ok v => .ok (true, v)) = (.ok (r, v) : Except Fault (Bool × View φ κ K))) :
    ∃ s', (sys ctl fd a k).Steps Interleave.Sys.free s s' ∧ s'.view = v ∧
      s'.pc = Function.update s.pc t .out ∧ s'.fault = none := by
  obtain ⟨x, hx⟩ := getContext_of_ne he s.view.ctx
  let c₁ := s.view.ctx.setContext { x with cb := none } e
  let c₂ := s.view.ctx.setContext { scheduler := x.scheduler } e
  let c₃ := s.view.ctx.setContext {} e
  let s₁ : State φ κ K τ := { s.goto t (.delReset e .fiber) with view := { s.view with ctx := c₁ } }
  let s₂ : State φ κ K τ := { s₁.goto t (.delReset e .scheduler) with
    view := { s.view with ctx := c₂ } }
  let s₃ : State φ κ K τ := { s₂.goto t .out with view := { s.view with ctx := c₃ } }
  have h₁ : (sys ctl fd a k).step s (.next t) = some s₁ := by
    simp [sys, step, next, hpc, resetPart, hx, hf, s₁, c₁]
  have h₂ : (sys ctl fd a k).step s₁ (.next t) = some s₂ := by
    simp [sys, step, next, resetPart, hf, s₁, s₂, c₁, c₂, State.goto, getContext_setContext he,
      setContext_setContext]
  have h₃ : (sys ctl fd a k).step s₂ (.next t) = some s₃ := by
    simp [sys, step, next, resetPart, hf, s₁, s₂, s₃, c₁, c₂, c₃, State.goto,
      getContext_setContext he, setContext_setContext]
  have hv : v = s₃.view := by
    simp only [View.reset, FdContext.resetContext, hx] at h
    cases h
    rfl
  refine ⟨s₃, .tail _ (.tail _ (.tail _ .refl trivial h₁) trivial h₂) trivial h₃, hv.symm, ?_, hf⟩
  simp [s₃, s₂, s₁, State.goto]

/-- The steps of one `delEvent`, with no step of another thread among them, are
`View.delEvent`. -/
theorem delEvent_alone (hf : s.fault = none) (hpc : s.pc t = .out) {e : Event} {r : Bool}
    {v : View φ κ K} (h : s.view.delEvent ctl fd e = .ok (r, v)) :
    ∃ s', (sys ctl fd a k).Steps Interleave.Sys.free s s' ∧ s'.view = v ∧ s'.pc = s.pc ∧
      s'.fault = none := by
  have hstart : (sys ctl fd a k).step s (.start t (.delEvent e)) = start s t (.delEvent e) :=
    if_pos ⟨hf, hpc⟩
  by_cases ht : s.view.ctx.events.test e.bits = true
  · rw [View.delEvent, if_pos ht] at h
    -- the two reads and the `epoll_ctl` call
    let s₁ := s.goto t (.delRead e)
    let w := s.view.ctx.events &&& ~~~e.bits
    let s₂ := s₁.goto t (.delCtl e w)
    let k' := s.view.delCtl ctl fd w
    let s₃ : State φ κ K τ := { s₂.goto t (if k'.1 then .delCount e w else .out) with view := k'.2 }
    have h₁ : (sys ctl fd a k).step s (.start t (.delEvent e)) = some s₁ := by
      rw [hstart, start, if_pos ht]
    have h₂ : (sys ctl fd a k).step s₁ (.next t) = some s₂ := by
      simp [sys, step, next, s₁, s₂, w, State.goto, hf]
    have h₃ : (sys ctl fd a k).step s₂ (.next t) = some s₃ := by
      simp [sys, step, next, s₁, s₂, s₃, k', State.goto, hf]
    have hs₃ : (sys ctl fd a k).Steps Interleave.Sys.free s s₃ :=
      .tail _ (.tail _ (.tail _ .refl trivial h₁) trivial h₂) trivial h₃
    have hback : ∀ s' : State φ κ K τ, (∀ u, u ≠ t → s'.pc u = s.pc u) → s'.pc t = .out →
        s'.pc = s.pc := by
      intro s' hne ht
      funext u
      by_cases hu : u = t
      · rw [hu, ht, hpc]
      · exact hne u hu
    change (if k'.1 then _ else _) = _ at h
    cases hk : k'.1 with
    | false =>
      rw [hk] at h
      cases h
      refine ⟨s₃, hs₃, rfl, hback s₃ (fun u hu => ?_) ?_, hf⟩
      · simp [s₃, s₂, s₁, State.goto, hu]
      · simp [s₃, hk, State.goto]
    | true =>
      rw [hk, if_pos rfl] at h
      have he : e ≠ .none := by
        rintro rfl
        simp [Word.test, Event.bits] at ht
      -- the decrement, the write of `events` and the three writes of `resetContext`
      let s₄ : State φ κ K τ := { s₃.goto t (.delWrite e w) with
        view := s₃.view.decrement, decremented := s₃.decremented ++ [e] }
      let s₅ : State φ κ K τ := { s₄.goto t (.delReset e .cb) with
        view := s₄.view.setEvents w, consumed := s₄.consumed ++ [(t, e)] }
      have h₄ : (sys ctl fd a k).step s₃ (.next t) = some s₄ := by
        simp [sys, step, next, s₁, s₂, s₃, s₄, hk, State.goto, hf]
      have h₅ : (sys ctl fd a k).step s₄ (.next t) = some s₅ := by
        simp [sys, step, next, s₁, s₂, s₃, s₄, s₅, State.goto, hf]
      obtain ⟨s₆, hs₆, hv, hpc₆, hf₆⟩ := reset_alone ctl fd (a := a) (k := k) (s := s₅)
        hf he (Function.update_self ..) h
      refine ⟨s₆, (Interleave.Sys.Steps.tail _ (.tail _ hs₃ trivial h₄) trivial h₅).trans hs₆, hv,
        hback s₆ (fun u hu => ?_) (hpc₆ ▸ Function.update_self ..), hf₆⟩
      simp [hpc₆, s₅, s₄, s₃, s₂, s₁, State.goto, hu]
  · rw [View.delEvent, if_neg ht] at h
    cases h
    exact ⟨s, .tail _ .refl trivial (hstart.trans (if_neg ht)), rfl, rfl, hf⟩

end Alone

/-! ## Sections -/

/-- The events `b` are armed, each with a scheduler. -/
structure Live (c : FdContext φ κ) (b : Armed) : Prop where
  events : c.events = b.mask
  scheduler : ∀ e x, b.get e = true → c.getContext e = .ok x → x.scheduler.isSome = true

theorem getContext_setContext_ne {e e' : Event} (h : e' ≠ e) (c : FdContext φ κ)
    (x : EventContext φ κ) : (c.setContext x e).getContext e' = c.getContext e' := by
  cases e <;> cases e' <;> first | rfl | exact absurd rfl h

theorem resetPart_ok {e : Event} (h : e ≠ .none) (part : Reset) (c : FdContext φ κ) :
    ∃ y, resetPart e part c = .ok (c.setContext y e) := by
  obtain ⟨x, hx⟩ := getContext_of_ne h c
  unfold resetPart
  rw [hx]
  cases part <;> exact ⟨_, rfl⟩

theorem ne_none_of_get {b : Armed} {e : Event} (h : b.get e = true) : e ≠ .none := by
  rintro rfl
  cases h

variable {c : FdContext φ κ} {b : Armed} {e : Event} {v v' : View φ κ K}

/-- A write to the context of an event that is not armed. -/
theorem Live.setContext (h : Live c b) (he : b.get e = false) (x : EventContext φ κ) :
    Live (c.setContext x e) b where
  events := (FdContext.setContext_events x).trans h.events
  scheduler e' y hb hy := by
    have hne : e' ≠ e := fun heq => by rw [heq, he] at hb; cases hb
    rw [getContext_setContext_ne hne] at hy
    exact h.scheduler e' y hb hy

/-- Clearing the bit of `e`, with whatever its context is then. -/
theorem Live.clear (h : Live c b) (x : EventContext φ κ) :
    Live { c.setContext x e with events := (b.set false e).mask } (b.set false e) where
  events := rfl
  scheduler e' y hb hy := by
    rw [Armed.get_set] at hb
    split at hb
    · cases hb
    · rename_i hne
      rw [FdContext.getContext_with] at hy
      by_cases hee : e' = e
      · -- the event `none` has no context
        subst hee
        have : e' = .none := by_contra fun hn => hne ⟨rfl, hn⟩
        subst this
        cases hy
      · rw [getContext_setContext_ne hee] at hy
        exact h.scheduler e' y hb hy

theorem Live.consume (h : Live v.ctx b) (he : b.get e = true) :
    ∃ v', v.consume e = .ok v' ∧ Live v'.ctx (b.set false e) ∧ v'.epoll = v.epoll ∧
      v'.pendingEventCount = v.pendingEventCount - 1 := by
  obtain ⟨x, hx⟩ := getContext_of_ne (ne_none_of_get he) v.ctx
  obtain ⟨i, hi⟩ := Option.isSome_iff_exists.mp (h.scheduler e x he hx)
  have ht : v.ctx.triggerEvent e = .ok
      ({ v.ctx.setContext { x.handOver.2 with scheduler := none } e with
          events := (b.set false e).mask },
        if x.handOver.1.nonempty then [(i, x.handOver.1)] else []) := by
    unfold FdContext.triggerEvent
    rw [h.events, Armed.mask_test, if_pos he]
    simp only [Armed.mask_clear, FdContext.getContext_with, hx, hi, FdContext.setContext_with]
  simp only [View.consume, ht]
  exact ⟨_, rfl, h.clear _, rfl, rfl⟩

theorem Live.consumeIf (h : Live v.ctx b) {i : Bool} (he : i = true → b.get e = true) :
    ∃ v', v.consumeIf i e = .ok v' ∧ Live v'.ctx (if i then b.set false e else b) ∧
      v'.pendingEventCount + (b.card : BitVec 64) =
        v.pendingEventCount + ((if i then b.set false e else b).card : BitVec 64) := by
  cases i with
  | false => exact ⟨v, rfl, h, rfl⟩
  | true =>
    obtain ⟨v', hv, hl, -, hc⟩ := h.consume (he rfl)
    refine ⟨v', hv, hl, ?_⟩
    have hn := congrArg (Nat.cast (R := BitVec 64)) (Armed.card_clear (he rfl))
    rw [Nat.cast_add, Nat.cast_one] at hn
    rw [hc, if_pos rfl]
    linear_combination -hn

/-- `READ` and then `WRITE`, each if it is in `d`. -/
theorem Live.consumeBoth (h : Live v.ctx b) {d : Armed} (hr : d.read = true → b.read = true)
    (hw : d.write = true → b.write = true) :
    ∃ v₁ v', v.consumeIf d.read .read = .ok v₁ ∧ v₁.consumeIf d.write .write = .ok v' ∧
      v₁.ctx.events.test Event.write.bits = b.write ∧ Live v'.ctx (b.diff d) ∧
      v'.pendingEventCount + (b.card : BitVec 64) =
        v.pendingEventCount + ((b.diff d).card : BitVec 64) := by
  obtain ⟨v₁, h₁, hl₁, hc₁⟩ := h.consumeIf (e := .read) (i := d.read) hr
  have hb : (if d.read then b.set false .read else b).write = b.write := by cases d.read <;> rfl
  obtain ⟨v', h', hl', hc'⟩ := hl₁.consumeIf (e := .write) (i := d.write) fun hd => hb.trans (hw hd)
  rw [Armed.set_false_both] at hl' hc'
  refine ⟨v₁, v', h₁, h', ?_, hl', by linear_combination hc₁ + hc'⟩
  rw [hl₁.events, Armed.mask_test]
  exact hb

/-- What a section leaves: nothing changed if its `epoll_ctl` did not succeed, else the events `d`
were consumed. -/
structure Left (b : Armed) (v v' : View φ κ K) (ok : Bool) : Prop where
  same : ok = false → v'.ctx = v.ctx ∧ v'.pendingEventCount = v.pendingEventCount
  live : ∃ d, Live v'.ctx (b.diff d) ∧ v'.pendingEventCount + (b.card : BitVec 64) =
    v.pendingEventCount + ((b.diff d).card : BitVec 64)

theorem diff_none (b : Armed) : b.diff ⟨false, false⟩ = b := by
  obtain ⟨r, w⟩ := b
  revert r w
  decide

/-- A section that only spoke to the kernel. -/
theorem Left.ofKernel (h : Live v.ctx b) (k : K) (ok : Bool) : Left b v { v with epoll := k } ok :=
  ⟨fun _ => ⟨rfl, rfl⟩, ⟨false, false⟩, by rw [diff_none]; exact ⟨h, rfl⟩⟩

section Locked

variable {ctl : Ctl K} {fd : ℤ}

/-- A section whose `epoll_ctl` succeeded and which consumed the events `d`. -/
theorem Left.ofConsumed {d : Armed} {k : K} (hl : Live v'.ctx (b.diff d))
    (hc : v'.pendingEventCount + (b.card : BitVec 64) =
      ({ v with epoll := k } : View φ κ K).pendingEventCount + ((b.diff d).card : BitVec 64)) :
    Left b v v' true :=
  ⟨nofun, d, hl, hc⟩

theorem cancelLocked_left (h : Live v.ctx b)
    (hok : (Pc.cancelLocked e).ctlOk ctl fd v = true → (Pc.cancelLocked e).fits v.ctx.events = true) :
    ∃ r v', v.cancelLocked ctl fd e = .ok (r, v') ∧
      Left b v v' ((Pc.cancelLocked e).ctlOk ctl fd v) := by
  unfold View.cancelLocked
  cases hk : (Pc.cancelLocked e).ctlOk ctl fd v with
  | true =>
    have he : b.get e = true := by
      have := hok hk
      rwa [Pc.fits, h.events, Armed.mask_test] at this
    obtain ⟨v', hv, hl, hc⟩ := Live.consumeIf (i := true)
      (v := { v with epoll := (ctl v.epoll (if v.ctx.events &&& ~~~e.bits != 0 then .mod else .del) fd
        (if v.ctx.events &&& ~~~e.bits != 0 then CtlOp.mod else .del).code).2 }) h fun _ => he
    simp only [Pc.ctlOk] at hk
    simp only [View.consumeIf, if_true] at hv
    simp only [hk, if_true, hv]
    rw [if_pos rfl, Armed.set_false] at hl hc
    exact ⟨_, _, rfl, .ofConsumed hl hc⟩
  | false =>
    simp only [Pc.ctlOk] at hk
    simp only [hk, Bool.false_eq_true, if_false]
    exact ⟨_, _, rfl, .ofKernel h _ _⟩

variable (ctl fd) in
theorem cancelAllLocked_left (h : Live v.ctx b) :
    ∃ r v', v.cancelAllLocked ctl fd = .ok (r, v') ∧
      Left b v v' (Pc.cancelAllLocked.ctlOk ctl fd v) := by
  unfold View.cancelAllLocked
  cases hk : Pc.cancelAllLocked.ctlOk ctl fd v with
  | true =>
    simp only [Pc.ctlOk] at hk
    obtain ⟨v₁, v', h₁, h', hw, hl, hc⟩ := Live.consumeBoth (d := b)
      (v := { v with epoll := (ctl v.epoll .del fd CtlOp.del.code).2 }) h id id
    have hz : v'.ctx.events = 0 := by
      rw [hl.events, Armed.mask_eq_zero]
      simp [Armed.diff]
    simp only [hk, if_true, h.events, Armed.mask_test, Armed.get, h₁, hw, h', hz]
    exact ⟨_, _, rfl, .ofConsumed hl hc⟩
  | false =>
    simp only [Pc.ctlOk] at hk
    simp only [hk, Bool.false_eq_true, if_false]
    exact ⟨_, _, rfl, .ofKernel h _ _⟩

theorem of_diff_mask {b d : Armed} (h : d.mask &&& ~~~b.mask = 0) :
    (d.read = true → b.read = true) ∧ (d.write = true → b.write = true) := by
  obtain ⟨r, w⟩ := b
  obtain ⟨r', w'⟩ := d
  revert r w r' w'
  decide

variable (fd) in
theorem deliver_left {word : Word} (h : Live v.ctx b)
    (hok : (Pc.deliverLocked word).ctlOk ctl fd v = true →
      (Pc.deliverLocked word).fits v.ctx.events = true) :
    ∃ v', v.deliver ctl word = .ok v' ∧
      Left b v v' ((Pc.deliverLocked word).ctlOk ctl fd v) := by
  unfold View.deliver
  cases hk : (Pc.deliverLocked word).ctlOk ctl fd v with
  | true =>
    have hfit := hok hk
    simp only [Pc.fits, beq_iff_eq, h.events] at hfit
    obtain ⟨hr, hw⟩ := of_diff_mask hfit
    simp only [Pc.ctlOk, Bool.and_eq_true] at hk
    obtain ⟨hne, hk⟩ := hk
    rw [bne_iff_ne] at hne
    simp only [h.events] at hne hk
    let op : CtlOp :=
      if b.mask &&& ~~~(realEvents (readyWord b.mask word)).mask != 0 then .mod else .del
    obtain ⟨v₁, v', h₁, h', -, hl, hc⟩ := Live.consumeBoth
      (v := { v with epoll := (ctl v.epoll op v.ctx.fd (readyWord b.mask word)).2 }) h hr hw
    simp only [op] at h₁
    simp only [h.events, if_neg hne, hk, if_true, h₁, h']
    exact ⟨_, rfl, .ofConsumed hl hc⟩
  | false =>
    simp only
    split
    · exact ⟨_, rfl, .ofKernel h v.epoll false⟩
    · rename_i hne
      simp only [Pc.ctlOk, Bool.and_eq_false_iff, bne_eq_false_iff_eq] at hk
      simp only [hk.resolve_left hne, Bool.false_eq_true, if_false]
      exact ⟨_, rfl, .ofKernel h _ _⟩

end Locked

/-- The events that a section consumed are those that it cleared. -/
theorem count_gone (b d : Armed) (e : Event) :
    (gone b.mask (b.diff d).mask).count e + ((b.diff d).get e).toNat = (b.get e).toNat := by
  obtain ⟨r, w⟩ := b
  obtain ⟨r', w'⟩ := d
  revert r w r' w'
  cases e <;> decide

theorem length_gone (b d : Armed) :
    (gone b.mask (b.diff d).mask).length + (b.diff d).card = b.card := by
  obtain ⟨r, w⟩ := b
  obtain ⟨r', w'⟩ := d
  revert r w r' w'
  decide

theorem gone_self (w : Word) : gone w w = [] := by
  simp [gone]

/-! ## The invariant -/

section Invariant

variable [DecidableEq τ] {ctl : Ctl K} {fd : ℤ} {a : Armed} {k : ℕ} {s s' : State φ κ K τ} {t : τ}

/-- No thread removes an event, or one does: it is `e`, which is still armed, and `new_events` is
what will be left. Its decrement precedes its write. -/
def Phase (s : State φ κ K τ) (b : Armed) : Prop :=
  ((∀ t, (s.pc t).removes = false) ∧ s.decremented = s.consumed.map Prod.snd) ∨
  ∃ t e, b.get e = true ∧ (∀ u, u ≠ t → (s.pc u).removes = false) ∧
    ((s.pc t = .delCount e (b.set false e).mask ∧ s.decremented = s.consumed.map Prod.snd) ∨
      (s.pc t = .delWrite e (b.set false e).mask ∧
        s.decremented = s.consumed.map Prod.snd ++ [e]))

/-- The invariant of the runs of clean steps: `b` are the events still armed of those in `a`. -/
structure Inv (a : Armed) (k : ℕ) (s : State φ κ K τ) (b : Armed) : Prop where
  fault : s.fault = none
  live : Live s.view.ctx b
  consumed : ∀ e, (s.consumed.map Prod.snd).count e + (b.get e).toNat = (a.get e).toNat
  length : s.consumed.length + b.card = a.card
  count : s.view.pendingEventCount + (s.decremented.length : BitVec 64) = ((k + a.card : ℕ) : BitVec 64)
  phase : Phase s b
  reset : ∀ t e p, s.pc t = .delReset e p → e ≠ .none ∧ b.get e = false

/-- A thread that removes nothing goes on to a step that removes nothing, and the shared state stays
as it is but for the kernel. -/
theorem Inv.move (h : Inv a k s b) (ht : (s.pc t).removes = false) (pc : Pc)
    (hpc : pc.removes = false) (hr : ∀ e p, pc = .delReset e p → e ≠ .none ∧ b.get e = false)
    {v : View φ κ K} (hv : Live v.ctx b) (hc : v.pendingEventCount = s.view.pendingEventCount) :
    Inv a k { s.goto t pc with view := v } b where
  fault := h.fault
  live := hv
  consumed := h.consumed
  length := h.length
  count := by rw [← h.count, ← hc]; rfl
  phase := by
    rcases h.phase with ⟨hq, hd⟩ | ⟨u, e, he, hq, hd⟩
    · refine .inl ⟨fun w => ?_, hd⟩
      by_cases hw : w = t
      · subst hw
        simpa [State.goto] using hpc
      · simpa [State.goto, hw] using hq w
    · have hut : u ≠ t := by
        rintro rfl
        rcases hd with ⟨hd, -⟩ | ⟨hd, -⟩ <;> · rw [hd] at ht; cases ht
      refine .inr ⟨u, e, he, fun w hwu => ?_, ?_⟩
      · by_cases hw : w = t
        · subst hw
          simpa [State.goto] using hpc
        · simpa [State.goto, hw] using hq w hwu
      · simpa [State.goto, hut] using hd
  reset u e p hu := by
    rcases Interleave.update_cases hu with ⟨-, hp⟩ | ⟨-, hu⟩
    · exact hr e p hp
    · exact h.reset u e p hu

theorem Inv.goto (h : Inv a k s b) (ht : (s.pc t).removes = false) {pc : Pc}
    (hpc : pc.removes = false) (hr : ∀ e p, pc ≠ .delReset e p) : Inv a k (s.goto t pc) b :=
  h.move ht _ hpc (fun e p hp => absurd hp (hr e p)) h.live rfl

theorem Inv.start (h : Inv a k s b) (ht : s.pc t = .out) {call : Consumer}
    (hs : start s t call = some s') : Inv a k s' b := by
  have hout : (s.pc t).removes = false := by rw [ht]; rfl
  cases call with
  | delEvent e =>
    simp only [Consumers.start] at hs
    split at hs <;> cases hs
    · exact h.goto hout rfl nofun
    · exact h
  | cancelEvent e =>
    simp only [Consumers.start] at hs
    split at hs <;> cases hs
    · exact h.goto hout rfl nofun
    · exact h
  | cancelAll =>
    simp only [Consumers.start] at hs
    split at hs <;> cases hs
    · exact h.goto hout rfl nofun
    · exact h
  | deliver word =>
    simp only [Consumers.start] at hs
    split at hs <;> cases hs
    exact h.goto hout rfl nofun

/-- A section, by a thread that removes nothing. -/
theorem Inv.section (h : Inv a k s b) (ht : (s.pc t).removes = false) {ρ : Type} {r : ρ}
    {v : View φ κ K} {ok : Bool} (hl : Left b s.view v ok)
    (hq : ok = true → ∀ u, (s.pc u).removes = false) :
    ∃ b', Inv a k (s.section t (.ok (r, v))) b' := by
  cases ok with
  | false =>
    obtain ⟨hctx, hc⟩ := hl.same rfl
    refine ⟨b, ?_⟩
    have := h.move ht .out rfl nofun (v := v) (hctx ▸ h.live) hc
    simpa [State.section, State.goto, hctx, gone_self] using this
  | true =>
    obtain ⟨d, hlive, hc⟩ := hl.live
    have hdec : s.decremented = s.consumed.map Prod.snd := by
      rcases h.phase with ⟨-, hd⟩ | ⟨u, e, -, -, ⟨hd, -⟩ | ⟨hd, -⟩⟩
      · exact hd
      · have := hq rfl u
        rw [hd] at this
        cases this
      · have := hq rfl u
        rw [hd] at this
        cases this
    have hg : gone s.view.ctx.events v.ctx.events = gone b.mask (b.diff d).mask := by
      rw [h.live.events, hlive.events]
    refine ⟨b.diff d, h.fault, hlive, fun e => ?_, ?_, ?_, .inl ⟨fun u => ?_, ?_⟩, fun u e p hu => ?_⟩
    · have h₁ := h.consumed e
      have h₂ := count_gone b d e
      simp only [State.section, State.goto, hg, List.map_append, List.map_map, List.count_append]
      rw [show (Prod.snd ∘ fun e : Event => (t, e)) = id from rfl, List.map_id]
      omega
    · have h₁ := h.length
      have h₂ := length_gone b d
      simp only [State.section, State.goto, hg, List.length_append, List.length_map]
      omega
    · have h₁ := h.count
      have h₂ := congrArg (Nat.cast (R := BitVec 64)) (length_gone b d)
      rw [Nat.cast_add] at h₂
      simp only [State.section, State.goto, hg, List.length_append]
      rw [Nat.cast_add]
      linear_combination h₁ + hc + h₂
    · by_cases hu : u = t
      · subst hu
        simp [State.section, State.goto, Pc.removes]
      · simpa [State.section, State.goto, hu] using hq rfl u
    · simp only [State.section, State.goto, hg, hdec, List.map_append, List.map_map]
      rw [show (Prod.snd ∘ fun e : Event => (t, e)) = id from rfl, List.map_id]
    · rcases Interleave.update_cases hu with ⟨-, hp⟩ | ⟨-, hu⟩
      · cases hp
      · obtain ⟨hne, hb⟩ := h.reset u e p hu
        refine ⟨hne, ?_⟩
        have := count_gone b d e
        rw [hb] at this
        cases hd : (b.diff d).get e with
        | false => rfl
        | true => rw [hd] at this; simp at this

/-- The write of a thread that removes `e`. -/
theorem Inv.write (h : Inv a k s b) {e : Event} (he : b.get e = true)
    (hq : ∀ u, u ≠ t → (s.pc u).removes = false)
    (hd : s.decremented = s.consumed.map Prod.snd ++ [e]) :
    Inv a k { s.goto t (.delReset e .cb) with
      view := s.view.setEvents (b.set false e).mask, consumed := s.consumed ++ [(t, e)] }
      (b.set false e) where
  fault := h.fault
  live := by
    obtain ⟨x, hx⟩ := getContext_of_ne (ne_none_of_get he) s.view.ctx
    have := h.live.clear (e := e) x
    rwa [show s.view.ctx.setContext x e = s.view.ctx by cases e <;> cases hx <;> rfl] at this
  consumed e' := by
    have := h.consumed e'
    rw [List.map_append, List.count_append, Armed.get_set]
    show _ + [e].count e' + _ = _
    by_cases hee : e' = e
    · subst hee
      rw [he] at this
      rw [if_pos ⟨rfl, ne_none_of_get he⟩, List.count_singleton_self]
      simpa using this
    · rw [if_neg fun hc => hee hc.1, List.count_singleton, if_neg (by simpa using Ne.symm hee)]
      exact this
  length := by
    have h₁ := h.length
    have h₂ := Armed.card_clear he
    rw [List.length_append, List.length_singleton]
    omega
  count := h.count
  phase := by
    refine .inl ⟨fun u => ?_, ?_⟩
    · by_cases hu : u = t
      · subst hu
        simp [State.goto, Pc.removes]
      · simpa [State.goto, hu] using hq u hu
    · show s.decremented = (s.consumed ++ [(t, e)]).map Prod.snd
      rw [hd, List.map_append]
      rfl
  reset u e' p hu := by
    rcases Interleave.update_cases hu with ⟨-, hp⟩ | ⟨-, hu⟩
    · cases hp
      exact ⟨ne_none_of_get he, by rw [Armed.get_set, if_pos ⟨rfl, ne_none_of_get he⟩]⟩
    · obtain ⟨hne, hb⟩ := h.reset u e' p hu
      refine ⟨hne, ?_⟩
      rw [Armed.get_set, hb]
      split <;> rfl

/-- The decrement of a thread that removes `e`. -/
theorem Inv.decrement (h : Inv a k s b) {e : Event} (he : b.get e = true)
    (hq : ∀ u, u ≠ t → (s.pc u).removes = false)
    (hd : s.decremented = s.consumed.map Prod.snd) :
    Inv a k { s.goto t (.delWrite e (b.set false e).mask) with
      view := s.view.decrement, decremented := s.decremented ++ [e] } b where
  fault := h.fault
  live := h.live
  consumed := h.consumed
  length := h.length
  count := by
    have := h.count
    rw [List.length_append, List.length_singleton, Nat.cast_add, Nat.cast_one]
    show s.view.pendingEventCount - 1 + _ = _
    linear_combination this
  phase := by
    refine .inr ⟨t, e, he, fun u hu => ?_, .inr ⟨?_, ?_⟩⟩
    · simpa [State.goto, hu] using hq u hu
    · simp [State.goto]
    · show s.decremented ++ [e] = _
      rw [hd]
      rfl
  reset u e' p hu := by
    rcases Interleave.update_cases hu with ⟨-, hp⟩ | ⟨-, hu⟩
    · cases hp
    · exact h.reset u e' p hu

/-- The `epoll_ctl` of a `delEvent` that succeeds, while no other `delEvent` removes an event. -/
theorem Inv.remove (h : Inv a k s b) {e : Event} (he : b.get e = true)
    (hq : ∀ u, (s.pc u).removes = false) {v : View φ κ K} (hv : v.ctx = s.view.ctx)
    (hc : v.pendingEventCount = s.view.pendingEventCount) :
    Inv a k { s.goto t (.delCount e (b.set false e).mask) with view := v } b where
  fault := h.fault
  live := hv ▸ h.live
  consumed := h.consumed
  length := h.length
  count := by rw [← h.count, ← hc]; rfl
  phase := by
    have hd : s.decremented = s.consumed.map Prod.snd := by
      rcases h.phase with ⟨-, hd⟩ | ⟨u, e', -, -, ⟨hd, -⟩ | ⟨hd, -⟩⟩
      · exact hd
      · have := hq u
        rw [hd] at this
        cases this
      · have := hq u
        rw [hd] at this
        cases this
    refine .inr ⟨t, e, he, fun u hu => ?_, .inl ⟨?_, hd⟩⟩
    · simpa [State.goto, hu] using hq u
    · simp [State.goto]
  reset u e' p hu := by
    rcases Interleave.update_cases hu with ⟨-, hp⟩ | ⟨-, hu⟩
    · cases hp
    · exact h.reset u e' p hu

/-- The thread that removes is the one that the phase names. -/
theorem Phase.of_removes (h : Phase s b) (ht : (s.pc t).removes = true) :
    ∃ e, b.get e = true ∧ (∀ u, u ≠ t → (s.pc u).removes = false) ∧
      ((s.pc t = .delCount e (b.set false e).mask ∧ s.decremented = s.consumed.map Prod.snd) ∨
        (s.pc t = .delWrite e (b.set false e).mask ∧
          s.decremented = s.consumed.map Prod.snd ++ [e])) := by
  rcases h with ⟨hq, -⟩ | ⟨u, e, he, hq, hd⟩
  · rw [hq t] at ht
    cases ht
  · have hut : t = u := by
      by_contra hne
      rw [hq t hne] at ht
      cases ht
    subst hut
    exact ⟨e, he, hq, hd⟩

/-- A clean next step keeps the invariant. -/
theorem Inv.next (h : Inv a k s b) (hc : Clean ctl fd s (.next t))
    (hs : next ctl fd s t = some s') : ∃ b', Inv a k s' b' := by
  unfold Consumers.next at hs
  change (s.pc t).ctlOk ctl fd s.view = true → (s.pc t).fits s.view.ctx.events = true ∧
    ∀ u, (s.pc u).removes = false at hc
  cases hpc : s.pc t with
  | out => rw [hpc] at hs; cases hs
  | delRead e =>
    rw [hpc] at hs
    cases hs
    exact ⟨b, h.goto (by rw [hpc]; rfl) rfl nofun⟩
  | delCtl e w =>
    rw [hpc] at hs hc
    cases hs
    by_cases hk : (s.view.delCtl ctl fd w).1 = true
    · obtain ⟨hfit, hq⟩ := hc hk
      rw [Pc.fits, h.live.events, Armed.mask_test, Armed.mask_clear, Bool.and_eq_true,
        beq_iff_eq] at hfit
      obtain ⟨he, rfl⟩ := hfit
      rw [if_pos hk]
      exact ⟨b, h.remove he hq rfl rfl⟩
    · rw [if_neg hk]
      exact ⟨b, h.move (v := (s.view.delCtl ctl fd w).2) (by rw [hpc]; rfl) .out rfl nofun
        h.live rfl⟩
  | delCount e w =>
    rw [hpc] at hs
    cases hs
    obtain ⟨e', he, hq, ⟨hpc', hd⟩ | ⟨hpc', -⟩⟩ := h.phase.of_removes (t := t) (by rw [hpc]; rfl)
    · rw [hpc] at hpc'
      cases hpc'
      exact ⟨b, h.decrement he hq hd⟩
    · rw [hpc] at hpc'
      cases hpc'
  | delWrite e w =>
    rw [hpc] at hs
    cases hs
    obtain ⟨e', he, hq, ⟨hpc', -⟩ | ⟨hpc', hd⟩⟩ := h.phase.of_removes (t := t) (by rw [hpc]; rfl)
    · rw [hpc] at hpc'
      cases hpc'
    · rw [hpc] at hpc'
      cases hpc'
      exact ⟨_, h.write he hq hd⟩
  | delReset e part =>
    rw [hpc] at hs
    obtain ⟨hne, hb⟩ := h.reset t e part hpc
    obtain ⟨y, hy⟩ := resetPart_ok hne part s.view.ctx
    have hout : (s.pc t).removes = false := by rw [hpc]; rfl
    simp only [hy] at hs
    cases hs
    refine ⟨b, h.move hout _ ?_ (fun e' p hp => ?_) (h.live.setContext hb y) rfl⟩
    · cases part <;> rfl
    · cases part <;> cases hp <;> exact ⟨hne, hb⟩
  | cancelLocked e =>
    rw [hpc] at hs hc
    cases hs
    obtain ⟨r, v, hv, hl⟩ := cancelLocked_left h.live fun hk => (hc hk).1
    rw [hv]
    exact h.section (by rw [hpc]; rfl) hl fun hk => (hc hk).2
  | cancelAllLocked =>
    rw [hpc] at hs hc
    cases hs
    obtain ⟨r, v, hv, hl⟩ := cancelAllLocked_left ctl fd h.live
    rw [hv]
    exact h.section (by rw [hpc]; rfl) hl fun hk => (hc hk).2
  | deliverLocked word =>
    rw [hpc] at hs hc
    cases hs
    obtain ⟨v, hv, hl⟩ := deliver_left fd h.live fun hk => (hc hk).1
    rw [hv]
    exact h.section (by rw [hpc]; rfl) hl fun hk => (hc hk).2

theorem inv_inductive (ctl : Ctl K) (fd : ℤ) (a : Armed) (k : ℕ) :
    (sys (φ := φ) (κ := κ) (τ := τ) ctl fd a k).Inductive (Clean ctl fd)
      fun s => ∃ b, Inv a k s b where
  init := by
    rintro s ⟨hf, hcs, hd, hpc, hok, hsch, hcount⟩
    have hn : s.view.pendingEventCount = ((k + a.card : ℕ) : BitVec 64) := by
      rw [← hcount, BitVec.natCast_eq_ofNat, BitVec.ofNat_toNat, BitVec.setWidth_eq]
    refine ⟨a, hf, ⟨hok.events, hsch⟩, ?_, ?_, ?_, .inl ⟨fun t => by rw [hpc t]; rfl, ?_⟩, ?_⟩
    · simp [hcs]
    · simp [hcs]
    · simp [hd, hn]
    · rw [hcs, hd]
      rfl
    · intro t e p h
      rw [hpc t] at h
      cases h
  step := by
    rintro s l s' ⟨b, hi⟩ hc hs
    cases l with
    | start t call =>
      simp only [sys, step] at hs
      split at hs
      · rename_i ht
        exact ⟨b, hi.start ht.2 hs⟩
      · cases hs
    | next t =>
      simp only [sys, step] at hs
      split at hs
      · exact hi.next hc hs
      · cases hs

theorem toNat_of_add {x : BitVec 64} {m n : ℕ} (h : x + (m : BitVec 64) = ((n + m : ℕ) : BitVec 64))
    (hn : n < 2 ^ 64) : x.toNat = n := by
  rw [Nat.cast_add] at h
  rw [add_right_cancel h, BitVec.natCast_eq_ofNat, BitVec.toNat_ofNat, Nat.mod_eq_of_lt hn]

/-- In every run of clean steps: no call faults, so each event that is triggered is armed; each
event armed at first is either still armed or was consumed by one thread, once; and the counter is
decreased once for each consumed event. It is `k` more than the number of armed events, and one
less than that while a `delEvent` has decreased it for an event whose bit it is about to clear. -/
theorem clean_accounted (h : (sys ctl fd a k).Reach (Clean ctl fd) s) :
    s.fault = none ∧
    (∀ e : Event, (s.consumed.map Prod.snd).count e + (s.view.ctx.events.test e.bits).toNat =
      (a.get e).toNat) ∧
    ((∀ t e w, s.pc t ≠ .delWrite e w) → s.decremented = s.consumed.map Prod.snd ∧
      s.view.pendingEventCount.toNat = k + s.view.ctx.events.armed) ∧
    ∀ t e w, s.pc t = .delWrite e w → s.view.ctx.events.test e.bits = true ∧
      s.decremented = s.consumed.map Prod.snd ++ [e] ∧
      s.view.pendingEventCount.toNat + 1 = k + s.view.ctx.events.armed := by
  obtain ⟨b, hi⟩ := (inv_inductive ctl fd a k).reach h
  have hbound : k + a.card < 2 ^ 64 := by
    obtain ⟨s₀, ⟨-, -, -, -, -, -, hn⟩, -⟩ := h
    rw [← hn]
    exact s₀.view.pendingEventCount.isLt
  have hlen := hi.length
  have hcount := hi.count
  refine ⟨hi.fault, fun e => ?_, fun hq => ?_, fun t e w ht => ?_⟩
  · rw [hi.live.events, Armed.mask_test]
    exact hi.consumed e
  · have hd : s.decremented = s.consumed.map Prod.snd := by
      rcases hi.phase with ⟨-, hd⟩ | ⟨u, e, -, -, ⟨-, hd⟩ | ⟨hpc, -⟩⟩
      · exact hd
      · exact hd
      · exact absurd hpc (hq u e _)
    refine ⟨hd, ?_⟩
    rw [hi.live.events, Armed.mask_armed]
    rw [hd, List.length_map, ← hlen, Nat.add_comm s.consumed.length, ← Nat.add_assoc] at hcount
    exact toNat_of_add hcount (by omega)
  · obtain ⟨e', he, -, ⟨hpc, -⟩ | ⟨hpc, hd⟩⟩ := hi.phase.of_removes (t := t) (by rw [ht]; rfl)
    · rw [ht] at hpc
      cases hpc
    · rw [ht] at hpc
      cases hpc
      have hcard := Armed.card_clear he
      rw [hi.live.events, Armed.mask_test, Armed.mask_armed]
      refine ⟨he, hd, ?_⟩
      have hsum : k + a.card = (k + (b.set false e).card) + s.decremented.length := by
        rw [hd, List.length_append, List.length_map, List.length_singleton]
        omega
      rw [hsum] at hcount
      rw [toNat_of_add hcount (by omega)]
      omega

/-- In a run of clean steps the counter is below the armed events exactly while a `delEvent` is
before its write of `events`. -/
theorem counter_ge_iff (h : (sys ctl fd a k).Reach (Clean ctl fd) s) :
    k + s.view.ctx.events.armed ≤ s.view.pendingEventCount.toNat ↔
      ∀ t e w, s.pc t ≠ .delWrite e w := by
  obtain ⟨-, -, hq, hw⟩ := clean_accounted h
  constructor
  · intro hle t e w ht
    have := (hw t e w ht).2.2
    omega
  · intro hne
    exact (hq hne).2.ge

/-- Only the decrement of `delEvent` leads to its write of `events`. -/
theorem next_ne_delWrite (hd : (s.pc t).decrements = false) (hs : next ctl fd s t = some s')
    (h : ∀ u e w, s.pc u ≠ .delWrite e w) : ∀ u e w, s'.pc u ≠ .delWrite e w := by
  have hgoto : ∀ pc, (∀ e w, pc ≠ .delWrite e w) →
      ∀ u e w, Function.update s.pc t pc u ≠ .delWrite e w := by
    intro pc hpc u e w hu
    obtain ⟨-, hp⟩ | ⟨-, hu⟩ := Interleave.update_cases hu
    · exact hpc e w hp
    · exact h u e w hu
  have hsec : ∀ {ρ : Type} (r : Except Fault (ρ × View φ κ K)) u e w,
      (s.section t r).pc u ≠ .delWrite e w := by
    intro ρ r
    cases r with
    | error => exact h
    | ok => exact hgoto .out (fun e w hp => by cases hp)
  unfold Consumers.next at hs
  cases hpc : s.pc t with
  | out => rw [hpc] at hs; cases hs
  | delRead e => rw [hpc] at hs; cases hs; exact hgoto _ (fun e w hp => by cases hp)
  | delCtl e w =>
    rw [hpc] at hs
    cases hs
    refine hgoto _ (fun e w hp => ?_)
    split at hp <;> cases hp
  | delCount e w => rw [hpc] at hd; cases hd
  | delWrite e w => rw [hpc] at hs; cases hs; exact hgoto _ (fun e w hp => by cases hp)
  | delReset e part =>
    rw [hpc] at hs
    simp only at hs
    split at hs
    · cases hs
      exact h
    · cases hs
      refine hgoto _ (fun e w hp => ?_)
      cases part <;> cases hp
  | cancelLocked e => rw [hpc] at hs; cases hs; exact hsec _
  | cancelAllLocked => rw [hpc] at hs; cases hs; exact hsec _
  | deliverLocked word => rw [hpc] at hs; cases hs; exact hsec _

theorem counted_inductive (ctl : Ctl K) (fd : ℤ) (a : Armed) (k : ℕ) :
    (sys (φ := φ) (κ := κ) (τ := τ) ctl fd a k).Inductive (Counted ctl fd)
      fun s => ∀ t e w, s.pc t ≠ .delWrite e w where
  init := by
    rintro s ⟨-, -, -, hpc, -⟩ t e w ht
    rw [hpc t] at ht
    cases ht
  step := by
    rintro s l s' hi hc hs
    cases l with
    | start t call =>
      simp only [sys, step] at hs
      split at hs
      · intro u e w hu
        have hpc : s'.pc = s.pc ∨ ∃ pc, s'.pc = Function.update s.pc t pc ∧
            pc.removes = false := by
          cases call <;> simp only [Consumers.start] at hs <;> split at hs <;> cases hs <;>
            first | exact .inl rfl | exact .inr ⟨_, rfl, rfl⟩
        obtain hpc | ⟨pc, hpc, hr⟩ := hpc <;> rw [hpc] at hu
        · exact hi u e w hu
        · obtain ⟨-, hp⟩ | ⟨-, hu⟩ := Interleave.update_cases hu
          · rw [hp] at hr
            cases hr
          · exact hi u e w hu
      · cases hs
    | next t =>
      simp only [sys, step] at hs
      split at hs
      · exact next_ne_delWrite hc.2 hs hi
      · cases hs

/-- In every run of counted steps: no call faults, so each event that is triggered is armed; each
event armed at first is either still armed or was consumed by one thread, once; the counter is
decreased once for each consumed event and is `k` more than the number of armed events. In a run of
clean steps the events are consumed in the same way, and the counter is one too low while a
`delEvent` has decreased it for an event whose bit it is about to clear, and at no other time. -/
theorem consumed_once :
    ((sys ctl fd a k).Reach (Counted ctl fd) s →
      s.fault = none ∧
      (∀ e : Event, (s.consumed.map Prod.snd).count e + (s.view.ctx.events.test e.bits).toNat =
        (a.get e).toNat) ∧
      s.decremented = s.consumed.map Prod.snd ∧
      s.view.pendingEventCount.toNat = k + s.view.ctx.events.armed) ∧
    ((sys ctl fd a k).Reach (Clean ctl fd) s →
      s.fault = none ∧
      (∀ e : Event, (s.consumed.map Prod.snd).count e + (s.view.ctx.events.test e.bits).toNat =
        (a.get e).toNat) ∧
      (k + s.view.ctx.events.armed ≤ s.view.pendingEventCount.toNat ↔
        ∀ t e w, s.pc t ≠ .delWrite e w) ∧
      ((∀ t e w, s.pc t ≠ .delWrite e w) → s.decremented = s.consumed.map Prod.snd ∧
        s.view.pendingEventCount.toNat = k + s.view.ctx.events.armed) ∧
      ∀ t e w, s.pc t = .delWrite e w → s.view.ctx.events.test e.bits = true ∧
        s.decremented = s.consumed.map Prod.snd ++ [e] ∧
        s.view.pendingEventCount.toNat + 1 = k + s.view.ctx.events.armed) := by
  constructor
  · intro h
    obtain ⟨hf, hcs, hq, -⟩ := clean_accounted (h.mono fun _ _ => Counted.clean)
    exact ⟨hf, hcs, hq ((counted_inductive ctl fd a k).reach h)⟩
  · intro h
    obtain ⟨hf, hcs, hq⟩ := clean_accounted h
    exact ⟨hf, hcs, counter_ge_iff h, hq⟩

end Invariant

/-! ## Runs -/

/-- `READ` and `WRITE` are armed on fd 5, and no other event is pending. -/
def bothArmed : State Unit Unit EpollMap Bool where
  view :=
    { ctx :=
        { read := { scheduler := some 0, cb := some () }
          write := { scheduler := some 0, cb := some () }
          fd := 5
          events := (⟨true, true⟩ : Armed).mask }
      epoll := Function.update (fun _ => none) 5 (some (EPOLLET ||| (⟨true, true⟩ : Armed).mask))
      pendingEventCount := 2
      scheduled := [] }
  pc := fun _ => .out

theorem bothArmed_initial : initial bothArmed ⟨true, true⟩ 0 := by
  refine ⟨rfl, rfl, rfl, fun _ => rfl, ⟨rfl, ?_, ?_⟩, fun e x _ hx => ?_, rfl⟩
  · exact EventContext.holds_true.mpr (by simp [bothArmed])
  · exact EventContext.holds_true.mpr (by simp [bothArmed])
  · cases e <;> cases hx <;> rfl

/-- `READ` is cancelled by one thread, and `WRITE` delivered by the other one; or the other one is in
a `delEvent` of `WRITE` that is about to clear its bit, and the counter is one too low. -/
theorem consumed_once_both :
    (∃ s : State Unit Unit EpollMap Bool,
      s.consumed = [(true, .read), (false, .write)] ∧ s.fault = none ∧
      (∀ e : Event, (s.consumed.map Prod.snd).count e + (s.view.ctx.events.test e.bits).toNat =
        ((⟨true, true⟩ : Armed).get e).toNat) ∧
      s.decremented = s.consumed.map Prod.snd ∧
      s.view.pendingEventCount.toNat = 0 + s.view.ctx.events.armed) ∧
    ∃ s : State Unit Unit EpollMap Bool,
      s.pc false = .delWrite .write 0 ∧ s.consumed = [(true, .read)] ∧ s.fault = none ∧
      s.view.pendingEventCount.toNat + 1 = 0 + s.view.ctx.events.armed := by
  constructor
  · obtain ⟨s, hs, hp⟩ := Interleave.Sys.exists_of_runBy
      (S := sys (φ := Unit) (κ := Unit) (τ := Bool) EpollMap.ctl 5 ⟨true, true⟩ 0)
      (C := Counted EpollMap.ctl 5) (s := bothArmed)
      [.start true (.cancelEvent .read), .start false (.deliver EPOLLOUT), .next true, .next false]
      (p := fun s => s.consumed == [(true, .read), (false, .write)])
      (by decide)
    simp only [beq_iff_eq] at hp
    exact ⟨s, hp, consumed_once.1 ⟨_, bothArmed_initial, hs⟩⟩
  · obtain ⟨s, hs, hp⟩ := Interleave.Sys.exists_of_runBy
      (S := sys (φ := Unit) (κ := Unit) (τ := Bool) EpollMap.ctl 5 ⟨true, true⟩ 0)
      (C := Clean EpollMap.ctl 5) (s := bothArmed)
      [.start true (.cancelEvent .read), .start false (.delEvent .write), .next true, .next false,
        .next false, .next false]
      (p := fun s => s.pc false == .delWrite .write 0 && s.consumed == [(true, .read)])
      (by decide)
    simp only [Bool.and_eq_true, beq_iff_eq] at hp
    obtain ⟨hf, -, -, -, hw⟩ := consumed_once.2 ⟨_, bothArmed_initial, hs⟩
    exact ⟨s, hp.1, hp.2, hf, (hw false .write 0 hp.1).2.2⟩

/-- `cancelEvent` of `READ` passes its check, `idle` delivers `READ` in another thread, and under the
mutex `cancelEvent` finds `WRITE` armed, so its `epoll_ctl` succeeds and `triggerEvent` fails its
assertion. -/
theorem cancelEvent_races : ∃ s : State Unit Unit EpollMap Bool,
    (sys EpollMap.ctl 5 ⟨true, true⟩ 0).Reach Interleave.Sys.free s ∧
    s.fault = some .assertion ∧ s.consumed = [(false, .read)] := by
  obtain ⟨s, hs, hp⟩ := Interleave.Sys.exists_of_runBy
    (S := sys (φ := Unit) (κ := Unit) (τ := Bool) EpollMap.ctl 5 ⟨true, true⟩ 0)
    (C := Interleave.Sys.free) (s := bothArmed)
    [.start true (.cancelEvent .read), .start false (.deliver EPOLLIN), .next false, .next true]
    (p := fun s => s.fault == some .assertion && s.consumed == [(false, .read)])
    (by decide)
  simp only [Bool.and_eq_true, beq_iff_eq] at hp
  exact ⟨s, ⟨_, bothArmed_initial, hs⟩, hp⟩

end Ddg.Consumers
