import DdgServer.Io.Epoll
import DdgServer.Sched.Entry

/-!
# The context of an fd

`IOManager::FdContext` (`ddg/iomanager.h`): the armed events of one fd as a word, and for each
event who waits for it (`EventContext`: a fiber or a callback, and the scheduler that gets it).
`triggerEvent` hands the waiter to that scheduler by `schedule(&ctx.cb)` or `schedule(&ctx.fiber)`,
whose pointer constructors swap the context's field into the new entry.

* `Armed`: the set of armed events of an fd; `Armed.mask` is its word in `FdContext::events`.
* `FdContext.Ok c a`: `c` is well formed and its armed events are `a`.
* `triggerEvent_ok`, `resetContext_ok`: what the two operations do to a well-formed context.
* `weight g`: the sum of `g` over the waiters that a context or an entry holds.
-/

namespace Ddg

/-- `IOManager::Event`. -/
inductive Event where
  | none | read | write
  deriving DecidableEq, Repr

/-- The value of an `IOManager::Event`. -/
def Event.bits : Event → Word
  | .none => 0x0
  | .read => EPOLLIN
  | .write => EPOLLOUT

/-- How a call ends the process. -/
inductive Fault where
  /-- A failed `DDG_ASSERT`. -/
  | assertion
  /-- A null pointer is dereferenced. -/
  | nullDeref
  /-- `m_fdContext[fd]` past the end of the vector. -/
  | outOfRange
  deriving DecidableEq, Repr

/-- `FdContext::EventContext`. -/
structure EventContext (φ κ : Type) where
  scheduler : Option SchedulerId := none
  fiber : Option φ := none
  cb : Option κ := none
  deriving DecidableEq

/-- `IOManager::FdContext`. Its `fd` is a C `int`. -/
structure FdContext (φ κ : Type) where
  read : EventContext φ κ := {}
  write : EventContext φ κ := {}
  fd : ℤ := 0
  events : Word := 0

variable {φ κ : Type}

/-- A call of `Scheduler::schedule` that queued an entry: the scheduler and the entry. -/
abbrev Call (φ κ : Type) := SchedulerId × FiberAndThread φ κ

namespace EventContext

/-- The context is in use: what `addEvent` asserts against. -/
def busy (x : EventContext φ κ) : Bool := x.scheduler.isSome || x.fiber.isSome || x.cb.isSome

/-- `schedule(&ctx.cb)` if there is a callback, else `schedule(&ctx.fiber)`: the entry, and what
its constructor leaves in the context. -/
def handOver (x : EventContext φ κ) : FiberAndThread φ κ × EventContext φ κ :=
  if x.cb.isSome then
    let (ft, cb) := FiberAndThread.ofCallbackPtr x.cb 0
    (ft, { x with cb })
  else
    let (ft, fiber) := FiberAndThread.ofFiberPtr x.fiber 0
    (ft, { x with fiber })

end EventContext

namespace FdContext

/-- `getContext`; it asserts on an event other than `READ` and `WRITE`. -/
def getContext (c : FdContext φ κ) : Event → Except Fault (EventContext φ κ)
  | .read => .ok c.read
  | .write => .ok c.write
  | .none => .error .assertion

/-- A write through the reference that `getContext` returns. -/
def setContext (c : FdContext φ κ) (x : EventContext φ κ) : Event → FdContext φ κ
  | .read => { c with read := x }
  | .write => { c with write := x }
  | .none => c

/-- `resetContext(getContext(event))`. -/
def resetContext (c : FdContext φ κ) (event : Event) : Except Fault (FdContext φ κ) :=
  match c.getContext event with
  | .error e => .error e
  | .ok _ => .ok (c.setContext {} event)

/-- `triggerEvent`: the context after it, and the call of `schedule` it makes. A call with an
empty entry queues nothing. -/
def triggerEvent (c : FdContext φ κ) (event : Event) :
    Except Fault (FdContext φ κ × List (Call φ κ)) :=
  if c.events.test event.bits then
    let c := { c with events := c.events &&& ~~~event.bits }
    match c.getContext event with
    | .error e => .error e
    | .ok ctx =>
      match ctx.scheduler with
      | none => .error .nullDeref
      | some scheduler =>
        let (ft, ctx) := ctx.handOver
        .ok (c.setContext { ctx with scheduler := none } event,
          if ft.nonempty then [(scheduler, ft)] else [])
  else .error .assertion

end FdContext

/-! ## Armed events -/

/-- The armed events of an fd. -/
structure Armed where
  read : Bool
  write : Bool
  deriving DecidableEq, Repr

namespace Armed

def get (a : Armed) : Event → Bool
  | .none => false
  | .read => a.read
  | .write => a.write

def set (a : Armed) (b : Bool) : Event → Armed
  | .none => a
  | .read => { a with read := b }
  | .write => { a with write := b }

/-- The word of a set of armed events. -/
def mask (a : Armed) : Word :=
  (if a.read then EPOLLIN else 0) ||| (if a.write then EPOLLOUT else 0)

/-- The events of `a` that are not in `b`. -/
def diff (a b : Armed) : Armed := ⟨a.read && !b.read, a.write && !b.write⟩

/-- The number of armed events. -/
def card (a : Armed) : ℕ := a.read.toNat + a.write.toNat

theorem mask_eq_zero {a : Armed} : a.mask = 0 ↔ a = ⟨false, false⟩ := by
  obtain ⟨r, w⟩ := a; revert r w; decide

theorem mask_inj {a b : Armed} : a.mask = b.mask ↔ a = b := by
  obtain ⟨r, w⟩ := a; obtain ⟨r', w'⟩ := b; revert r w r' w'; decide

@[simp] theorem mask_test (a : Armed) (e : Event) : a.mask.test e.bits = a.get e := by
  obtain ⟨r, w⟩ := a; revert r w; cases e <;> decide

@[simp] theorem mask_or (a : Armed) (e : Event) : a.mask ||| e.bits = (a.set true e).mask := by
  obtain ⟨r, w⟩ := a; revert r w; cases e <;> decide

@[simp] theorem mask_clear (a : Armed) (e : Event) :
    a.mask &&& ~~~e.bits = (a.set false e).mask := by
  obtain ⟨r, w⟩ := a; revert r w; cases e <;> decide

@[simp] theorem mask_diff (a b : Armed) : a.mask &&& ~~~b.mask = (a.diff b).mask := by
  obtain ⟨r, w⟩ := a; obtain ⟨r', w'⟩ := b; revert r w r' w'; decide

@[simp] theorem mask_armed (a : Armed) : a.mask.armed = a.card := by
  obtain ⟨r, w⟩ := a; revert r w; decide

/-- Arming an event that is not armed. -/
theorem card_arm {a : Armed} {e : Event} (hne : e ≠ .none) (h : a.get e = false) :
    (a.set true e).card = a.card + 1 := by
  obtain ⟨r, w⟩ := a
  cases e <;> grind [card, set, get]

/-- Clearing an event that is armed. -/
theorem card_clear {a : Armed} {e : Event} (h : a.get e = true) :
    (a.set false e).card + 1 = a.card := by
  obtain ⟨r, w⟩ := a
  cases e <;> grind [card, set, get]

/-- Clearing one event. -/
theorem set_false (a : Armed) (e : Event) : a.set false e = a.diff ⟨e == .read, e == .write⟩ := by
  obtain ⟨r, w⟩ := a
  revert r w
  cases e <;> decide

/-- Clearing `READ` and then `WRITE`, each if it is in `d`. -/
theorem set_false_both (a d : Armed) :
    (if d.write then (if d.read then a.set false .read else a).set false .write
      else if d.read then a.set false .read else a) = a.diff d := by
  obtain ⟨r, w⟩ := a
  obtain ⟨r', w'⟩ := d
  revert r w r' w'
  decide

theorem get_set (a : Armed) (b : Bool) (e e' : Event) :
    (a.set b e).get e' = if e' = e ∧ e ≠ .none then b else a.get e' := by
  cases e <;> cases e' <;> rfl

end Armed

/-! ## Well-formed contexts -/

namespace EventContext

/-- The context of an armed event holds exactly one of a fiber and a callback; that of an event
that is not armed is empty. -/
def Holds (b : Bool) (x : EventContext φ κ) : Prop :=
  if b then x.fiber.isSome ≠ x.cb.isSome else x = {}

@[simp] theorem holds_false {x : EventContext φ κ} : x.Holds false ↔ x = {} := by simp [Holds]

theorem holds_true {x : EventContext φ κ} :
    x.Holds true ↔ x.fiber.isSome ≠ x.cb.isSome := by simp [Holds]

/-- The scheduler gets the waiter of an armed event, and the context keeps neither a fiber nor a
callback. -/
theorem handOver_eq {x : EventContext φ κ} (h : x.Holds true) :
    x.handOver = ({ fiber := x.fiber, cb := x.cb }, { scheduler := x.scheduler }) ∧
      x.handOver.1.nonempty = true := by
  obtain ⟨s, f, c⟩ := x
  cases f <;> cases c <;>
    simp_all [Holds, handOver, FiberAndThread.ofCallbackPtr, FiberAndThread.ofFiberPtr,
      FiberAndThread.nonempty]

/-- A context that is not in use is empty. -/
theorem eq_of_not_busy {x : EventContext φ κ} (h : x.busy = false) : x = {} := by
  obtain ⟨s, f, c⟩ := x
  simp_all [busy]

end EventContext

namespace FdContext

variable {c c' : FdContext φ κ} {a : Armed} {e : Event}

/-- A well-formed context whose armed events are `a`. -/
structure Ok (c : FdContext φ κ) (a : Armed) : Prop where
  events : c.events = a.mask
  read : c.read.Holds a.read
  write : c.write.Holds a.write

@[simp] theorem setContext_fd (x : EventContext φ κ) : (c.setContext x e).fd = c.fd := by
  cases e <;> rfl

@[simp] theorem setContext_events (x : EventContext φ κ) :
    (c.setContext x e).events = c.events := by
  cases e <;> rfl

/-- A new context `x` for the event `e`, armed iff `b`. -/
theorem Ok.set (h : c.Ok a) {x : EventContext φ κ} {b : Bool} (hx : x.Holds b) :
    ({ c.setContext x e with events := (a.set b e).mask } : FdContext φ κ).Ok (a.set b e) := by
  cases e
  · exact ⟨rfl, h.read, h.write⟩
  · exact ⟨rfl, hx, h.write⟩
  · exact ⟨rfl, h.read, hx⟩

theorem Ok.get (h : c.Ok a) {x : EventContext φ κ} (hx : c.getContext e = .ok x) :
    x.Holds (a.get e) := by
  cases e
  · cases hx
  · cases hx; exact h.read
  · cases hx; exact h.write

theorem getContext_with (w : Word) :
    ({ c with events := w } : FdContext φ κ).getContext e = c.getContext e := by
  cases e <;> rfl

theorem setContext_with (w : Word) (x : EventContext φ κ) :
    ({ c with events := w } : FdContext φ κ).setContext x e =
      { c.setContext x e with events := w } := by
  cases e <;> rfl

/-- A context of an fd after that of the event `e` was written. -/
theorem setContext_cases {x y : EventContext φ κ} {e' : Event} {w : Word}
    (hy : ({ c.setContext x e with events := w } : FdContext φ κ).getContext e' = .ok y) :
    y = x ∨ c.getContext e' = .ok y := by
  cases e <;> cases e' <;> cases hy <;> first | exact .inl rfl | exact .inr rfl

/-- What `triggerEvent` does to a well-formed context: the event was armed, its waiter goes to its
scheduler, and the event's bit and context are cleared. -/
theorem triggerEvent_ok (h : c.Ok a) {calls : List (Call φ κ)}
    (ht : c.triggerEvent e = .ok (c', calls)) :
    a.get e = true ∧ ∃ x s, c.getContext e = .ok x ∧ x.scheduler = some s ∧
      calls = [(s, { fiber := x.fiber, cb := x.cb })] ∧
      c' = { c.setContext {} e with events := (a.set false e).mask } := by
  unfold triggerEvent at ht
  rw [h.events, Armed.mask_test] at ht
  split at ht
  · rename_i ha
    simp only [getContext_with, Armed.mask_clear] at ht
    cases hx : c.getContext e with
    | error => rw [hx] at ht; cases ht
    | ok x =>
      obtain ⟨hho, hne⟩ := EventContext.handOver_eq (ha ▸ h.get hx)
      cases hs : x.scheduler with
      | none => simp only [hx, hs] at ht; cases ht
      | some s =>
        simp only [hx, hs, hho, hho ▸ hne, ↓reduceIte, setContext_with] at ht
        cases ht
        exact ⟨ha, x, s, rfl, hs, rfl, rfl⟩
  · cases ht

theorem triggerEvent_keeps (h : c.Ok a) {calls : List (Call φ κ)}
    (ht : c.triggerEvent e = .ok (c', calls)) : c'.Ok (a.set false e) := by
  obtain ⟨-, x, s, -, -, -, rfl⟩ := triggerEvent_ok h ht
  exact h.set (EventContext.holds_false.mpr rfl)

end FdContext

/-! ## The waiters that a context holds -/

/-- The sum of `g` over the fiber and the callback given. -/
def weigh (g : φ ⊕ κ → ℕ) (fiber : Option φ) (cb : Option κ) : ℕ :=
  fiber.elim 0 (g ∘ .inl) + cb.elim 0 (g ∘ .inr)

def FiberAndThread.weight (g : φ ⊕ κ → ℕ) (ft : FiberAndThread φ κ) : ℕ := weigh g ft.fiber ft.cb

def EventContext.weight (g : φ ⊕ κ → ℕ) (x : EventContext φ κ) : ℕ := weigh g x.fiber x.cb

def FdContext.weight (g : φ ⊕ κ → ℕ) (c : FdContext φ κ) : ℕ := c.read.weight g + c.write.weight g

@[simp] theorem EventContext.weight_empty (g : φ ⊕ κ → ℕ) :
    ({} : EventContext φ κ).weight g = 0 := rfl

/-- How the weight of a context changes when the context of one event changes. -/
theorem FdContext.weight_set (g : φ ⊕ κ → ℕ) {c : FdContext φ κ} {e : Event}
    {x : EventContext φ κ} (hx : c.getContext e = .ok x) (y : EventContext φ κ) (w : Word) :
    ({ c.setContext y e with events := w } : FdContext φ κ).weight g + x.weight g =
      c.weight g + y.weight g := by
  cases e <;> cases hx <;> simp only [FdContext.weight, FdContext.setContext] <;> omega

end Ddg
