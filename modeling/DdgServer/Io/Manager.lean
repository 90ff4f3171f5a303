import DdgServer.Lib.Sys
import DdgServer.Io.FdContext

/-!
# The I/O manager

`ddg/iomanager.cc`. A call of the manager looks up the fd's context in the table `m_fdContext`
(`Table`) and then works on that context, the kernel, the counter of pending events and the
schedulers' queues (`View`). The functions on a `View` are the parts of the source between two
accesses that another thread can see, so that a call can also be taken apart into its atomic steps
(`DdgServer/Io/Consumers.lean`); `IOManager.exec` runs whole calls one after the other.

A pointer to a context is its position in `Table.ctxs`, the contexts allocated so far (the source
frees them only in the destructor). The pipe that wakes the workers is registered in the same epoll
instance, but no caller has its fd: it is left out of the kernel's map here.
-/

namespace Ddg

variable {φ κ K : Type}

/-- A C `int` that is not negative: an fd. -/
abbrev Fd := Fin (2 ^ 31)

/-! ## The table of contexts -/

/-- The contexts allocated so far, and the vector `m_fdContext` (`none`: a null pointer). -/
structure Table (φ κ : Type) where
  ctxs : List (FdContext φ κ) := []
  fdContext : List (Option ℕ) := []

namespace Table

/-- `m_fdContext.resize(size)`: new slots are null. -/
def resize (slots : List (Option ℕ)) (size : ℕ) : List (Option ℕ) :=
  slots.take size ++ List.replicate (size - slots.length) none

/-- `new FdContext` for slot `i`; `fd = i` converts a `size_t` to an `int`. -/
def newContext (i : ℕ) : FdContext φ κ := { fd := (i : ℤ).bmod (2 ^ 32) }

/-- The loop of `contextResize` from slot `i` on: a null slot gets a new context. -/
def fillNull (ctxs : List (FdContext φ κ)) (i : ℕ) :
    List (Option ℕ) → List (FdContext φ κ) × List (Option ℕ)
  | [] => (ctxs, [])
  | some p :: slots =>
    let r := fillNull ctxs (i + 1) slots
    (r.1, some p :: r.2)
  | none :: slots =>
    let r := fillNull (ctxs ++ [newContext i]) (i + 1) slots
    (r.1, some ctxs.length :: r.2)

/-- `IOManager::contextResize`. -/
def contextResize (size : ℕ) (t : Table φ κ) : Table φ κ :=
  let r := fillNull t.ctxs 0 (resize t.fdContext size)
  { ctxs := r.1, fdContext := r.2 }

/-- `1.5 * fd` as the `size_t` argument of `contextResize`. -/
def grownSize (fd : ℕ) : ℕ := 3 * fd / 2

/-- `m_fdContext[fd]`, as the pointer that the caller goes on to use. -/
def get (t : Table φ κ) (fd : ℕ) : Except Fault ℕ :=
  match t.fdContext[fd]? with
  | none => .error .outOfRange
  | some none => .error .nullDeref
  | some (some p) => .ok p

/-- The table after the constructor: `contextResize(32)`. -/
def initial : Table φ κ := contextResize 32 {}

end Table

/-! ## The calls, once they have their context -/

/-- What a call reads and writes once it has its context. -/
structure View (φ κ K : Type) where
  ctx : FdContext φ κ
  epoll : K
  pendingEventCount : BitVec 64
  scheduled : List (Call φ κ)

/-- The thread that calls `addEvent`: `Scheduler::GetThis()`, `Fiber::GetThis()` and the state of
that fiber. -/
structure Caller (φ : Type) where
  scheduler : Option SchedulerId
  fiber : φ
  state : FiberState

/-- The word that `idle` works with: on `IN` or `HUP` the armed ones of these two are added. -/
def readyWord (events word : Word) : Word :=
  if word.test (EPOLLIN ||| EPOLLHUP) then word ||| ((EPOLLIN ||| EPOLLHUP) &&& events) else word

/-- `real_events` of such a word. -/
def realEvents (word : Word) : Armed := ⟨word.test (EPOLLIN ||| EPOLLHUP), word.test EPOLLOUT⟩

namespace View

variable (ctl : Ctl K)

/-- `addEvent` from the check of `fd_ctx->events` on; the result is its return value. -/
def addEvent (fd : ℤ) (event : Event) (cb : Option κ) (me : Caller φ) (v : View φ κ K) :
    Except Fault (ℤ × View φ κ K) :=
  let op := if v.ctx.events != 0 then CtlOp.mod else CtlOp.add
  let r := ctl v.epoll op fd (EPOLLET ||| v.ctx.events ||| event.bits)
  if r.1 then
    let c := { v.ctx with events := v.ctx.events ||| event.bits }
    match c.getContext event with
    | .error e => .error e
    | .ok ctx =>
      if ctx.busy then .error .assertion
      else
        let ctx := { ctx with scheduler := me.scheduler }
        let v := { v with epoll := r.2, pendingEventCount := v.pendingEventCount + 1 }
        match cb with
        | some cb => .ok (0, { v with ctx := c.setContext { ctx with cb := some cb } event })
        | none =>
          if me.state = .exec then
            .ok (0, { v with ctx := c.setContext { ctx with fiber := some me.fiber } event })
          else .error .assertion
  else .ok (-1, { v with epoll := r.2 })

/-- `triggerEvent(event); m_pendingEventCount--;`. -/
def consume (event : Event) (v : View φ κ K) : Except Fault (View φ κ K) :=
  match v.ctx.triggerEvent event with
  | .error e => .error e
  | .ok (ctx, calls) =>
    .ok { v with
      ctx, pendingEventCount := v.pendingEventCount - 1, scheduled := v.scheduled ++ calls }

/-- `consume` under an `if`. -/
def consumeIf (b : Bool) (event : Event) (v : View φ κ K) : Except Fault (View φ κ K) :=
  if b then v.consume event else .ok v

/-- The `epoll_ctl` call of `delEvent`, for the mask `new_events` computed before it. -/
def delCtl (fd : ℤ) (newEvents : Word) (v : View φ κ K) : Bool × View φ κ K :=
  let op := if newEvents != 0 then CtlOp.mod else CtlOp.del
  let r := ctl v.epoll op fd (EPOLLET ||| newEvents)
  (r.1, { v with epoll := r.2 })

/-- `m_pendingEventCount--`. -/
def decrement (v : View φ κ K) : View φ κ K :=
  { v with pendingEventCount := v.pendingEventCount - 1 }

/-- `fd_ctx->events = new_events`. -/
def setEvents (newEvents : Word) (v : View φ κ K) : View φ κ K :=
  { v with ctx := { v.ctx with events := newEvents } }

/-- `fd_ctx->resetContext(fd_ctx->getContext(event))`. -/
def reset (event : Event) (v : View φ κ K) : Except Fault (View φ κ K) :=
  match v.ctx.resetContext event with
  | .error e => .error e
  | .ok ctx => .ok { v with ctx }

/-- `delEvent` from the check of `fd_ctx->events` on. -/
def delEvent (fd : ℤ) (event : Event) (v : View φ κ K) : Except Fault (Bool × View φ κ K) :=
  if v.ctx.events.test event.bits then
    let newEvents := v.ctx.events &&& ~~~event.bits
    let r := v.delCtl ctl fd newEvents
    if r.1 then
      match (r.2.decrement.setEvents newEvents).reset event with
      | .error e => .error e
      | .ok v => .ok (true, v)
    else .ok (false, r.2)
  else .ok (false, v)

/-- `cancelEvent` under `fd_ctx->mutex`; the word it passes on is the number of the operation. -/
def cancelLocked (fd : ℤ) (event : Event) (v : View φ κ K) : Except Fault (Bool × View φ κ K) :=
  let newEvents := v.ctx.events &&& ~~~event.bits
  let op := if newEvents != 0 then CtlOp.mod else CtlOp.del
  let r := ctl v.epoll op fd op.code
  let v := { v with epoll := r.2 }
  if r.1 then
    match v.consume event with
    | .error e => .error e
    | .ok v => .ok (true, v)
  else .ok (false, v)

/-- `cancelEvent` from the check of `fd_ctx->events` on. -/
def cancelEvent (fd : ℤ) (event : Event) (v : View φ κ K) : Except Fault (Bool × View φ κ K) :=
  if v.ctx.events.test event.bits then v.cancelLocked ctl fd event else .ok (false, v)

/-- `cancelAll` under `fd_ctx->mutex`. -/
def cancelAllLocked (fd : ℤ) (v : View φ κ K) : Except Fault (Bool × View φ κ K) :=
  let r := ctl v.epoll .del fd CtlOp.del.code
  let v := { v with epoll := r.2 }
  if r.1 then
    match v.consumeIf (v.ctx.events.test Event.read.bits) .read with
    | .error e => .error e
    | .ok v =>
      match v.consumeIf (v.ctx.events.test Event.write.bits) .write with
      | .error e => .error e
      | .ok v => if v.ctx.events = 0 then .ok (true, v) else .error .assertion
  else .ok (false, v)

/-- `cancelAll` from the check of `fd_ctx->events` on. -/
def cancelAll (fd : ℤ) (v : View φ κ K) : Except Fault (Bool × View φ κ K) :=
  if v.ctx.events != 0 then v.cancelAllLocked ctl fd else .ok (false, v)

/-- One pass of the loop of `idle` over the reported events, under `fd_ctx->mutex`. -/
def deliver (word : Word) (v : View φ κ K) : Except Fault (View φ κ K) :=
  let word := readyWord v.ctx.events word
  let real := realEvents word
  if v.ctx.events &&& real.mask = 0 then .ok v
  else
    let left := v.ctx.events &&& ~~~real.mask
    let op := if left != 0 then CtlOp.mod else CtlOp.del
    let r := ctl v.epoll op v.ctx.fd word
    let v := { v with epoll := r.2 }
    if r.1 then
      match v.consumeIf real.read .read with
      | .error e => .error e
      | .ok v => v.consumeIf real.write .write
    else .ok v

end View

/-! ## Whole calls -/

/-- The state of an `IOManager`; `scheduled` are the calls of `schedule` that it made, oldest
first. -/
structure IOManager (φ κ K : Type) extends Table φ κ where
  epoll : K
  pendingEventCount : BitVec 64 := 0
  scheduled : List (Call φ κ) := []

/-- A call of the manager, or the handling of one event that `epoll_wait` reported. -/
inductive Op (φ κ : Type) where
  | addEvent (fd : Fd) (event : Event) (cb : Option κ) (me : Caller φ)
  | delEvent (fd : Fd) (event : Event)
  | cancelEvent (fd : Fd) (event : Event)
  | cancelAll (fd : Fd)
  | deliver (fd : Fd) (word : Word)

/-- What a call returns. -/
inductive Ret where
  | int (r : ℤ)
  | bool (b : Bool)
  | void
  deriving DecidableEq, Repr

namespace IOManager

def view (m : IOManager φ κ K) (ctx : FdContext φ κ) : View φ κ K :=
  { ctx, epoll := m.epoll, pendingEventCount := m.pendingEventCount, scheduled := m.scheduled }

/-- The manager after the context at `p`, the kernel, the counter and the queues changed. -/
def put (m : IOManager φ κ K) (p : ℕ) (v : View φ κ K) : IOManager φ κ K :=
  { m with
    ctxs := m.ctxs.set p v.ctx, epoll := v.epoll,
    pendingEventCount := v.pendingEventCount, scheduled := v.scheduled }

/-- Runs `f` on the context of `fd`. -/
def on {ρ : Type} (m : IOManager φ κ K) (fd : Fd)
    (f : View φ κ K → Except Fault (ρ × View φ κ K)) : Except Fault (ρ × IOManager φ κ K) :=
  match m.get fd with
  | .error e => .error e
  | .ok p =>
    match m.ctxs[p]? with
    | none => .error .nullDeref
    | some c =>
      match f (m.view c) with
      | .error e => .error e
      | .ok (r, v) => .ok (r, m.put p v)

/-- The table part of `addEvent`: the table grows when it has no slot `fd`. -/
def grow (m : IOManager φ κ K) (fd : Fd) : IOManager φ κ K :=
  if m.fdContext.length > fd then m
  else { m with toTable := m.toTable.contextResize (Table.grownSize fd) }

variable (ctl : Ctl K)

def addEvent (m : IOManager φ κ K) (fd : Fd) (event : Event) (cb : Option κ) (me : Caller φ) :
    Except Fault (ℤ × IOManager φ κ K) :=
  (m.grow fd).on fd (View.addEvent ctl fd event cb me)

/-- `delEvent`, `cancelEvent` and `cancelAll` return false for an fd past the table. -/
def inTable (m : IOManager φ κ K) (fd : Fd)
    (f : View φ κ K → Except Fault (Bool × View φ κ K)) : Except Fault (Bool × IOManager φ κ K) :=
  if fd ≥ m.fdContext.length then .ok (false, m) else m.on fd f

def delEvent (m : IOManager φ κ K) (fd : Fd) (event : Event) :
    Except Fault (Bool × IOManager φ κ K) :=
  m.inTable fd (View.delEvent ctl fd event)

def cancelEvent (m : IOManager φ κ K) (fd : Fd) (event : Event) :
    Except Fault (Bool × IOManager φ κ K) :=
  m.inTable fd (View.cancelEvent ctl fd event)

def cancelAll (m : IOManager φ κ K) (fd : Fd) : Except Fault (Bool × IOManager φ κ K) :=
  m.inTable fd (View.cancelAll ctl fd)

/-- `idle` on one reported event: `ev.data.ptr` is the context that `addEvent` registered for the
fd. -/
def deliver (m : IOManager φ κ K) (fd : Fd) (word : Word) :
    Except Fault (Unit × IOManager φ κ K) :=
  m.on fd fun v => (v.deliver ctl word).map fun v => ((), v)

/-- One whole call. -/
def exec (m : IOManager φ κ K) : Op φ κ → Except Fault (Ret × IOManager φ κ K)
  | .addEvent fd event cb me => (m.addEvent ctl fd event cb me).map fun r => (.int r.1, r.2)
  | .delEvent fd event => (m.delEvent ctl fd event).map fun r => (.bool r.1, r.2)
  | .cancelEvent fd event => (m.cancelEvent ctl fd event).map fun r => (.bool r.1, r.2)
  | .cancelAll fd => (m.cancelAll ctl fd).map fun r => (.bool r.1, r.2)
  | .deliver fd word => (m.deliver ctl fd word).map fun r => (.void, r.2)

/-- The manager after its constructor. -/
def initial (k : K) : IOManager φ κ K := { toTable := Table.initial, epoll := k }

/-- Whole calls, one after the other; a call that ends the process has no state after it. -/
def sys (k : K) : Interleave.Sys (IOManager φ κ K) (Op φ κ) where
  init m := m = initial k
  step m op := (m.exec ctl op).toOption.map Prod.snd

end IOManager
end Ddg
