import Mathlib.Data.List.Basic
import DdgServer.Log.Pattern

/-!
# Configuration variables

`ConfigVar<T>` of `ddg/config.h`. A callback is a value of a type `κ`; what a call of it does to the
rest of the program (a state of type `σ`) is a parameter of `setValue`. A call may throw, and the
state is then what the callback has made of it (`CallResult.thrown`), or it may be undefined
(`CallResult.crashed`).

The locks are left out: the calls on one variable follow each other.
-/

namespace Ddg

universe u v

/-- How a call ends: it returns, it throws a `std::exception`, or its behaviour is undefined. -/
inductive CallResult (σ : Type u)
  | done (s : σ)
  | thrown (s : σ)
  | crashed

namespace CallResult

variable {σ : Type u} {τ : Type v}

def bind (x : CallResult σ) (f : σ → CallResult σ) : CallResult σ :=
  match x with
  | done s => f s
  | thrown s => thrown s
  | crashed => crashed

def map (f : σ → τ) : CallResult σ → CallResult τ
  | done s => done (f s)
  | thrown s => thrown (f s)
  | crashed => crashed

/-- The state after the call, if there is one. -/
def state : CallResult σ → Option σ
  | done s => some s
  | thrown s => some s
  | crashed => none

@[simp] theorem bind_done (s : σ) (f : σ → CallResult σ) : (done s).bind f = f s := rfl
@[simp] theorem bind_thrown (s : σ) (f : σ → CallResult σ) : (thrown s).bind f = thrown s := rfl
@[simp] theorem bind_crashed (f : σ → CallResult σ) : (crashed : CallResult σ).bind f = crashed := rfl
@[simp] theorem map_done (f : σ → τ) (s : σ) : (done s).map f = done (f s) := rfl
@[simp] theorem map_thrown (f : σ → τ) (s : σ) : (thrown s).map f = thrown (f s) := rfl
@[simp] theorem map_crashed (f : σ → τ) : (crashed : CallResult σ).map f = crashed := rfl

theorem map_map {υ : Type*} (f : σ → τ) (g : τ → υ) (x : CallResult σ) :
    (x.map f).map g = x.map fun s => g (f s) := by
  cases x <;> rfl

@[simp] theorem state_done (s : σ) : (done s).state = some s := rfl
@[simp] theorem state_thrown (s : σ) : (thrown s).state = some s := rfl
@[simp] theorem state_crashed : (crashed : CallResult σ).state = none := rfl

end CallResult

/-- `m_val`, `s_func_id` and `m_cbs` in the order of its iteration. -/
structure ConfigVar (T κ : Type) where
  val : T
  funcId : UInt64 := 0
  cbs : List (UInt64 × κ) := []

namespace ConfigVar

variable {T κ σ : Type} (x : ConfigVar T κ)

/-- `m_cbs.find(key) != m_cbs.end()`. -/
def inUse (key : UInt64) : Bool := x.cbs.any fun e => e.1 == key

/-- `m_cbs.insert(std::make_pair(key, cb))`, which does nothing where the key is in use. -/
def insert (key : UInt64) (cb : κ) : ConfigVar T κ :=
  if x.inUse key then x else { x with cbs := x.cbs ++ [(key, cb)] }

/-- The loop over `m_cbs`. -/
def callAll (call : κ → T → T → σ → CallResult σ) (old new : T) :
    List (UInt64 × κ) → σ → CallResult σ
  | [], s => .done s
  | e :: es, s => (call e.2 old new s).bind (callAll call old new es)

/-- `ConfigVar::setValue`. -/
def setValue [BEq T] (call : κ → T → T → σ → CallResult σ) (v : T) (s : σ) :
    CallResult (ConfigVar T κ × σ) :=
  if x.val == v then .done (x, s)
  else
    match callAll call x.val v x.cbs s with
    | .done s => .done ({ x with val := v }, s)
    | .thrown s => .thrown (x, s)
    | .crashed => .crashed

/-- `ConfigVar::fromString`, with whether it returns true; `fromStr` is `FromStr()`, `none` where it
throws, and `report` is the message about an exception. -/
def fromString [BEq T] (fromStr : Text → Option T) (call : κ → T → T → σ → CallResult σ)
    (report : σ → CallResult σ) (val : Text) (s : σ) : CallResult (Bool × ConfigVar T κ × σ) :=
  match fromStr val with
  | none => (report s).map fun s => (false, x, s)
  | some v =>
    match x.setValue call v s with
    | .done r => .done (true, r)
    | .thrown r => (report r.2).map fun s => (false, r.1, s)
    | .crashed => .crashed

/-- The first key from 0 to `s_func_id` that is free. -/
def freeKey : Option UInt64 :=
  ((List.range (x.funcId.toNat + 1)).map UInt64.ofNat).find? fun i => !x.inUse i

/-- `ConfigVar::addListener(cb)`: the key it returns. `none`: it does not return, because
`i <= s_func_id` is always true for the greatest `s_func_id` and every key is in use. -/
def addListener (cb : κ) : Option (UInt64 × ConfigVar T κ) :=
  match x.freeKey with
  | some i => some (i, x.insert i cb)
  | none =>
    if x.funcId = -1 then none
    else
      let id := x.funcId + 1
      some (id, { x with funcId := id }.insert id cb)

/-- `ConfigVar::funcIdGrowthValid`. -/
def funcIdGrowthValid (id : UInt64) : Bool :=
  if x.funcId < 256 then id < x.funcId * 2
  else id < (x.funcId + 3 * 256) / 4 + x.funcId

/-- `ConfigVar::addListener(key, cb)`. -/
def addListenerAt (key : UInt64) (cb : κ) : CallResult (ConfigVar T κ) :=
  if !x.funcIdGrowthValid key then .thrown x
  else
    let x := if key > x.funcId then { x with funcId := key } else x
    .done (x.insert key cb)

/-- `ConfigVar::clearListener`. -/
def clearListener : ConfigVar T κ := { x with cbs := [] }

/-- `ConfigVar::getListener`. -/
def getListener (key : UInt64) : Option κ := x.cbs.lookup key

end ConfigVar

end Ddg
