import Mathlib.Data.BitVec

/-!
# Fibers' states and the scheduler's entries

`Fiber::State` (`ddg/fiber.h`) and `Scheduler::FiberAndThread` (`ddg/scheduler.h`). An entry holds
a fiber or a callback and the id of the thread it is for (`0`: any thread). The types of fiber
pointers `φ` and of callbacks `κ` are parameters: the scheduler only moves these values.
-/

namespace Ddg

/-- `Fiber::State::Type`. -/
inductive FiberState where
  | unknow | uninit | init | hold | exec | term | ready | except
  deriving DecidableEq, Repr

/-- The fiber's function has returned or thrown. -/
def FiberState.ended : FiberState → Bool
  | .term | .except => true
  | _ => false

/-- What `Fiber::~Fiber` asserts of the state of a fiber that has a stack. -/
def FiberState.destructible : FiberState → Bool
  | .term | .except | .init => true
  | _ => false

/-- A `Scheduler*`. -/
abbrev SchedulerId := ℕ

/-- A kernel thread id as the code keeps it (`uint64_t`). -/
abbrev ThreadId := BitVec 64

/-- `Scheduler::FiberAndThread`. -/
structure FiberAndThread (φ κ : Type) where
  fiber : Option φ := none
  cb : Option κ := none
  thread : ThreadId := 0
  deriving DecidableEq

/-- `scheduleNoLock(fc, int thread)`: the `uint64_t` of the caller passes through an `int` before
the entry's constructor widens it again. -/
def narrowThread (thread : ThreadId) : ThreadId := (thread.setWidth 32).signExtend 64

namespace FiberAndThread

variable {φ κ : Type}

/-- `ft->fiber || ft->cb`: what `scheduleNoLock` tests before it queues an entry. -/
def nonempty (ft : FiberAndThread φ κ) : Bool := ft.fiber.isSome || ft.cb.isSome

/-- `FiberAndThread(Fiber::ptr* f, thr)`: the entry swaps with `*f`. The second component is what
is left in `*f`. -/
def ofFiberPtr (f : Option φ) (thr : ThreadId) : FiberAndThread φ κ × Option φ :=
  ({ fiber := f, thread := thr }, none)

/-- `FiberAndThread(Callback* f, thr)`: the entry swaps with `*f`. -/
def ofCallbackPtr (f : Option κ) (thr : ThreadId) : FiberAndThread φ κ × Option κ :=
  ({ cb := f, thread := thr }, none)

end FiberAndThread

end Ddg
