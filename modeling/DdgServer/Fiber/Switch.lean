import DdgServer.Lib.Sys
import DdgServer.Sched.Entry

/-!
# The fibers of one thread

`ddg/fiber.cc` on one thread: `swapIn`, `swapOut`, `call`, `back` and the Yield functions, each of
which sets `t_fiber` and then calls `swapcontext`. It saves into `m_ctx` of one fiber and goes on at
`m_ctx` of another; which fibers these are depends on `t_threadFiber` and `t_scheduler_fiber`.

- **Contexts** (`Context`): a stack and a point in the code. `Point.after n` is the point behind the
  `n`-th `swapcontext` of the thread, so it tells all switches apart.
- **Ghost values**: `lastOut` is where the code on a stack last switched out, `resumed` where the
  thread went on last. No function reads them.
- **Callers** (`Allowed`): `swapIn` by the scheduler's main fiber, `call` by the thread's, and
  `swapOut` and `back` by the running fiber on itself.
- `Fibers.Inv`: every fiber but the running one has saved the context in which it last switched out.
- `Fibers.switch_exact`: `t_fiber` is the running fiber, a switch goes on where its target last
  switched out, and it changes no context but that of the running fiber.
-/

namespace Ddg

/-- The memory that code runs on. -/
inductive Stack where
  /-- The stack of the kernel thread. -/
  | thread
  /-- `m_stack` of a fiber. -/
  | own (f : ℕ)
  deriving DecidableEq, Repr

/-- Where a context goes on. -/
inductive Point where
  /-- Behind `getcontext` in `Fiber::Fiber()`. -/
  | getcontext
  /-- At the start of `MainFunc` or, for a `caller`, of `CallerMainFunc`. -/
  | entry (caller : Bool)
  /-- Behind the `n`-th `swapcontext`. -/
  | after (n : ℕ)
  deriving DecidableEq, Repr

/-- A `ucontext_t`. -/
structure Context where
  stack : Stack
  point : Point
  deriving DecidableEq, Repr

/-- The frame of `MainFunc` or `CallerMainFunc` on the stack of a fiber. -/
structure Frame where
  caller : Bool := false
  /-- The local `cur`. -/
  cur : Option ℕ := none
  /-- It has called `swapOut` or `back` after its callback, and is never to go on. -/
  ended : Bool := false

/-- The fibers constructed so far (those below `next`) and the thread-local variables of one thread.
`stack` is where its code runs. -/
structure Fibers where
  next : ℕ := 0
  state : ℕ → FiberState := fun _ => .uninit
  /-- `m_stack` is not null. -/
  hasStack : ℕ → Bool := fun _ => false
  ctx : ℕ → Context := fun _ => ⟨.thread, .getcontext⟩
  frame : ℕ → Frame := fun _ => {}
  tFiber : Option ℕ := none
  tThreadFiber : Option ℕ := none
  tSchedulerFiber : Option ℕ := none
  stack : Stack := .thread
  /-- The number of calls of `swapcontext`. -/
  clock : ℕ := 0
  /-- Where the code on a stack last switched out. -/
  lastOut : Stack → Point := fun _ => .getcontext
  resumed : Option Point := none

namespace Fibers

/-- `Fiber::GetThis`; without `t_fiber` it constructs the thread's main fiber. -/
def getThis (s : Fibers) : ℕ × Fibers :=
  match s.tFiber with
  | some f => (f, s)
  | none =>
    (s.next, { s with
      next := s.next + 1, state := Function.update s.state s.next .exec
      hasStack := Function.update s.hasStack s.next false
      ctx := Function.update s.ctx s.next ⟨s.stack, .getcontext⟩
      tFiber := some s.next, tThreadFiber := some s.next })

/-- `Fiber(cb, stacksize, use_caller)`. -/
def construct (caller : Bool) (s : Fibers) : ℕ × Fibers :=
  (s.next, { s with
    next := s.next + 1, state := Function.update s.state s.next .init
    hasStack := Function.update s.hasStack s.next true
    ctx := Function.update s.ctx s.next ⟨.own s.next, .entry caller⟩
    lastOut := Function.update s.lastOut (.own s.next) (.entry caller) })

/-- `reset(cb)`; its context starts `MainFunc`, whatever the fiber was constructed with. -/
def reset (f : ℕ) (s : Fibers) : Option Fibers :=
  if s.hasStack f = true ∧ (s.state f).destructible = true then
    some { s with
      state := Function.update s.state f .init
      ctx := Function.update s.ctx f ⟨.own f, .entry false⟩
      lastOut := Function.update s.lastOut (.own f) (.entry false) }
  else none

def setState (f : ℕ) (st : FiberState) (s : Fibers) : Fibers :=
  { s with state := Function.update s.state f st }

def setThis (f : Option ℕ) (s : Fibers) : Fibers := { s with tFiber := f }

/-- The start of `MainFunc` and `CallerMainFunc`: `Fiber::ptr cur = GetThis()`. -/
def enter (g : ℕ) (caller : Bool) (s : Fibers) : Fibers :=
  let (f, s) := s.getThis
  { s with frame := Function.update s.frame g { caller, cur := some f } }

/-- The thread goes on at a context. Behind the last switch of a frame is
`DDG_ASSERT_MSG(false, ..)`. -/
def resume (c : Context) (s : Fibers) : Option Fibers :=
  let s := { s with stack := c.stack, resumed := some c.point }
  match c.stack, c.point with
  | .own g, .entry caller => some (s.enter g caller)
  | .own g, _ => if (s.frame g).ended then none else some s
  | .thread, _ => some s

/-- `swapcontext(&o->m_ctx, &n->m_ctx)`. -/
def swapcontext (o n : ℕ) (s : Fibers) : Option Fibers :=
  let s := { s with
    ctx := Function.update s.ctx o ⟨s.stack, .after s.clock⟩, clock := s.clock + 1
    lastOut := Function.update s.lastOut s.stack (.after s.clock) }
  s.resume (s.ctx n)

def swapIn (f : ℕ) (s : Fibers) : Option Fibers :=
  let s := s.setThis (some f)
  if s.state f = .exec then none
  else
    match s.tSchedulerFiber with
    | none => none
    | some main => (s.setState f .exec).swapcontext main f

def swapOut (f : ℕ) (s : Fibers) : Option Fibers :=
  let s := s.setThis s.tSchedulerFiber
  match s.tSchedulerFiber with
  | none => none
  | some main => s.swapcontext f main

def call (f : ℕ) (s : Fibers) : Option Fibers :=
  let s := (s.setThis (some f)).setState f .exec
  match s.tThreadFiber with
  | none => none
  | some main => s.swapcontext main f

def back (f : ℕ) (s : Fibers) : Option Fibers :=
  let s := s.setThis s.tThreadFiber
  match s.tThreadFiber with
  | none => none
  | some main => s.swapcontext f main

/-- `YieldToReady` and `YieldToHold`, which differ in the state that they set. -/
def yieldTo (st : FiberState) (s : Fibers) : Option Fibers :=
  let (cur, s) := s.getThis
  if s.state cur = .exec then (s.setState cur st).swapOut cur else none

def yieldToReady : Fibers → Option Fibers := yieldTo .ready

def yieldToHold : Fibers → Option Fibers := yieldTo .hold

/-- The end of `MainFunc` or `CallerMainFunc`, after the callback returned or threw. -/
def finish (threw : Bool) (s : Fibers) : Option Fibers :=
  match s.stack with
  | .thread => none
  | .own g =>
    match (s.frame g).cur with
    | none => none
    | some cur =>
      let s := s.setState cur (if threw then .except else .term)
      let s := { s with frame := Function.update s.frame g { s.frame g with ended := true } }
      if (s.frame g).caller then s.back cur else s.swapOut cur

/-- The part of `Scheduler::Scheduler` with `use_caller`. -/
def useCaller (s : Fibers) : Fibers :=
  let (root, s) := s.getThis.2.construct true
  { s with tSchedulerFiber := some root }

/-- The first lines of `Scheduler::run` on a thread that is not the root thread. -/
def run (s : Fibers) : Fibers :=
  let (f, s) := s.getThis
  { s with tSchedulerFiber := some f }

/-- The fiber whose code runs; none before the thread's main fiber is constructed. -/
def executing (s : Fibers) : Option ℕ :=
  match s.stack with
  | .thread => s.tThreadFiber
  | .own f => some f

/-- What the running code calls. -/
inductive Op where
  | getThis
  | construct (caller : Bool)
  | reset (f : ℕ)
  | setState (f : ℕ) (st : FiberState)
  | useCaller
  | run
  | swapIn (f : ℕ)
  | swapOut (f : ℕ)
  | call (f : ℕ)
  | back (f : ℕ)
  | yieldToReady
  | yieldToHold
  | finish (threw : Bool)
  deriving DecidableEq, Repr

/-- One call, up to where the thread goes on with code of a fiber. `none`: the call ends the
process, or names no fiber. -/
def step (s : Fibers) : Op → Option Fibers
  | .getThis => some s.getThis.2
  | .construct caller => some (s.construct caller).2
  | .reset f => if f < s.next then s.reset f else none
  | .setState f st => if f < s.next then some (s.setState f st) else none
  | .useCaller => some s.useCaller
  | .run => some s.run
  | .swapIn f => if f < s.next then s.swapIn f else none
  | .swapOut f => if f < s.next then s.swapOut f else none
  | .call f => if f < s.next then s.call f else none
  | .back f => if f < s.next then s.back f else none
  | .yieldToReady => s.yieldToReady
  | .yieldToHold => s.yieldToHold
  | .finish threw => s.finish threw

def sys : Interleave.Sys Fibers Op where
  init s := s = {}
  step := step

/-- Who may call the switch functions. -/
def Allowed (s : Fibers) : Op → Prop
  | .swapIn _ => s.executing = s.tSchedulerFiber
  | .call _ => s.executing = s.tThreadFiber
  | .swapOut f | .back f => s.executing = some f
  | _ => True

instance : ∀ (s : Fibers) (op : Op), Decidable (s.Allowed op)
  | s, .swapIn _ => inferInstanceAs (Decidable (s.executing = s.tSchedulerFiber))
  | s, .call _ => inferInstanceAs (Decidable (s.executing = s.tThreadFiber))
  | s, .swapOut f | s, .back f => inferInstanceAs (Decidable (s.executing = some f))
  | _, .getThis | _, .construct _ | _, .reset _ | _, .setState .. | _, .useCaller | _, .run
  | _, .yieldToReady | _, .yieldToHold | _, .finish _ => .isTrue trivial

/-- The fiber that a call switches to. -/
def target (s : Fibers) : Op → Option ℕ
  | .swapIn f | .call f => some f
  | .swapOut _ | .yieldToReady | .yieldToHold => s.tSchedulerFiber
  | .back _ => s.tThreadFiber
  | .finish _ =>
    match s.stack with
    | .thread => none
    | .own g => if (s.frame g).caller then s.tThreadFiber else s.tSchedulerFiber
  | _ => none

/-- The stack of a fiber. -/
def stackOf (s : Fibers) (f : ℕ) : Stack := if s.hasStack f then .own f else .thread

/-- Where a fiber last switched out, if the running code switches to it now. Before it runs the
first time, that is its entry function. -/
def due (s : Fibers) (g : ℕ) : Point :=
  if s.executing = some g then .after s.clock else s.lastOut (s.stackOf g)

/-! ## The saved contexts -/

variable {s s' : Fibers} {f g o n : ℕ}

/-- Every fiber but the running one can go on where it last switched out, and a frame's `cur` is its
fiber. -/
structure Saved (s : Fibers) : Prop where
  threadFiber : ∀ f, f < s.next → (s.hasStack f = false ↔ s.tThreadFiber = some f)
  bound : ∀ f, s.tThreadFiber = some f → f < s.next
  sched : ∀ f, s.tSchedulerFiber = some f → f < s.next
  running : ∀ f, s.stack = .own f → f < s.next ∧ s.hasStack f = true
  saved : ∀ f, f < s.next → s.executing ≠ some f → s.ctx f = ⟨s.stackOf f, s.lastOut (s.stackOf f)⟩
  left : ∀ f, f < s.next → s.executing ≠ some f → s.lastOut (s.stackOf f) ≠ .getcontext
  frame : ∀ f, f < s.next → s.hasStack f = true →
    (s.stack = .own f ∨ ∃ n, s.lastOut (.own f) = .after n) → (s.frame f).cur = some f

theorem stackOf_inj (h : s.Saved) (hf : f < s.next) (hg : g < s.next)
    (he : s.stackOf f = s.stackOf g) : f = g := by
  unfold stackOf at he
  cases hsf : s.hasStack f <;> cases hsg : s.hasStack g <;> simp only [hsf, hsg] at he
  · have h₁ := (h.threadFiber f hf).mp hsf
    have h₂ := (h.threadFiber g hg).mp hsg
    exact Option.some.inj (h₁.symm.trans h₂)
  · cases he
  · cases he
  · cases he
    rfl

theorem Saved.executing_lt (h : s.Saved) (he : s.executing = some f) : f < s.next := by
  unfold executing at he
  split at he
  · exact h.bound f he
  · rename_i g hg
    cases he
    exact (h.running _ hg).1

theorem Saved.stackOf_executing (h : s.Saved) (he : s.executing = some f) :
    s.stackOf f = s.stack := by
  have hf := h.executing_lt he
  unfold executing at he
  unfold stackOf
  split at he
  · rename_i hs
    rw [(h.threadFiber f hf).mpr he, hs]
    rfl
  · rename_i g hg
    cases he
    rw [(h.running _ hg).2, hg]
    rfl

theorem Saved.executing_of_stack (h : s.Saved) (hf : f < s.next) (he : s.stackOf f = s.stack) :
    s.executing = some f := by
  unfold stackOf at he
  unfold executing
  rw [← he]
  cases hs : s.hasStack f with
  | true => rfl
  | false => exact (h.threadFiber f hf).mp hs

/-- The thread goes on at a context, and a function that starts there notes its fiber. -/
theorem resume_spec {c : Context} (ht : s.tFiber = some n) (hs : s.resume c = some s') :
    ∃ fr, s' = { s with stack := c.stack, resumed := some c.point, frame := fr } ∧
      ∀ g, (c.stack = .own g ∧ (∃ caller, c.point = .entry caller) ∧ (fr g).cur = some n) ∨
        (¬ (c.stack = .own g ∧ ∃ caller, c.point = .entry caller) ∧ fr g = s.frame g) := by
  obtain ⟨stack, point⟩ := c
  unfold resume at hs
  cases stack with
  | thread =>
    cases hs
    exact ⟨s.frame, rfl, fun g => .inr ⟨fun h => (nomatch h.1), rfl⟩⟩
  | own f =>
    cases point with
    | entry caller =>
      refine ⟨Function.update s.frame f { caller, cur := some n }, ?_, fun g => ?_⟩
      · simpa only [enter, getThis, ht, Option.some.injEq, eq_comm] using hs
      by_cases hg : g = f
      · subst hg
        exact .inl ⟨rfl, ⟨caller, rfl⟩, by rw [Function.update_self]⟩
      · refine .inr ⟨fun h => ?_, Function.update_of_ne hg _ _⟩
        cases h.1
        exact hg rfl
    | getcontext =>
      simp only at hs
      split at hs
      · cases hs
      · cases hs
        exact ⟨s.frame, rfl, fun g => .inr ⟨fun h => (nomatch h.2), rfl⟩⟩
    | after k =>
      simp only at hs
      split at hs
      · cases hs
      · cases hs
        exact ⟨s.frame, rfl, fun g => .inr ⟨fun h => (nomatch h.2), rfl⟩⟩

/-- What a switch from `o`, which runs, to `n` does. -/
structure Switched (s : Fibers) (o n : ℕ) (s' : Fibers) : Prop where
  saved : s'.Saved
  current : s'.tFiber = some n
  executing : s'.executing = some n
  resumed : s'.resumed = some (s.due n)
  proper : s.due n ≠ .getcontext
  kept : ∀ f, f ≠ o → s'.ctx f = s.ctx f
  next : s'.next = s.next

section Save

variable (h : s.Saved) (ho : s.executing = some o)
include h ho

theorem Saved.stackOf_ne (hf : f < s.next) (hfo : f ≠ o) : s.stackOf f ≠ s.stack := fun he =>
  hfo (Option.some.inj ((h.executing_of_stack hf he).symm.trans ho))

/-- What `swapcontext` saves is read back if the fiber switches to itself. -/
theorem Saved.saved_ctx (hf : f < s.next) :
    Function.update s.ctx o ⟨s.stack, .after s.clock⟩ f =
      ⟨s.stackOf f, Function.update s.lastOut s.stack (.after s.clock) (s.stackOf f)⟩ := by
  by_cases hfo : f = o
  · subst hfo
    rw [Function.update_self, h.stackOf_executing ho, Function.update_self]
  · rw [Function.update_of_ne hfo, Function.update_of_ne (h.stackOf_ne ho hf hfo)]
    exact h.saved f hf fun he => hfo (Option.some.inj (he.symm.trans ho))

theorem Saved.saved_due (hn : n < s.next) :
    Function.update s.lastOut s.stack (.after s.clock) (s.stackOf n) = s.due n := by
  unfold due
  by_cases hno : n = o
  · subst hno
    rw [h.stackOf_executing ho, Function.update_self, if_pos ho]
  · rw [Function.update_of_ne (h.stackOf_ne ho hn hno),
      if_neg fun he => hno (Option.some.inj (he.symm.trans ho))]

/-- No stack is left at `getcontext`. -/
theorem Saved.saved_left (hf : f < s.next) :
    Function.update s.lastOut s.stack (.after s.clock) (s.stackOf f) ≠ .getcontext := by
  by_cases hfo : f = o
  · subst hfo
    rw [h.stackOf_executing ho, Function.update_self]
    nofun
  · rw [Function.update_of_ne (h.stackOf_ne ho hf hfo)]
    exact h.left f hf fun he => hfo (Option.some.inj (he.symm.trans ho))

/-- A fiber with a stack whose function does not start with this switch: if it is switched to, or
was switched out before, it had started. -/
theorem Saved.started_before (hn : n < s.next) (hf : f < s.next) (hst : s.hasStack f = true)
    (hno : ¬ (s.stackOf n = .own f ∧ ∃ caller, s.due n = .entry caller))
    (hf' : s.stackOf n = .own f ∨
      ∃ k, Function.update s.lastOut s.stack (.after s.clock) (.own f) = .after k) :
    s.stack = .own f ∨ ∃ k, s.lastOut (.own f) = .after k := by
  have hsf : s.stackOf f = .own f := if_pos hst
  by_cases hfo : f = o
  · subst hfo
    exact .inl ((h.stackOf_executing ho).symm.trans hsf)
  · have hne := h.stackOf_ne ho hf hfo
    rw [hsf] at hne
    rcases hf' with hf' | ⟨k, hk⟩
    · -- the target goes on behind a switch: it is no entry, and not `getcontext`
      have hfn : f = n := stackOf_inj h hf hn (hsf.trans hf'.symm)
      subst hfn
      have hl := h.saved_left ho hf
      rw [h.saved_due ho hf] at hl
      have hd : s.due f = s.lastOut (.own f) := by
        rw [due, if_neg fun he => hfo (Option.some.inj (he.symm.trans ho)), hsf]
      cases hp : s.due f with
      | getcontext => exact absurd hp hl
      | entry caller => exact absurd ⟨hf', caller, hp⟩ hno
      | after k => exact .inr ⟨k, hd.symm.trans hp⟩
    · rw [Function.update_of_ne hne] at hk
      exact .inr ⟨k, hk⟩

end Save

theorem Saved.swapcontext (h : s.Saved) (ho : s.executing = some o) (hn : n < s.next)
    (ht : s.tFiber = some n) (hs : s.swapcontext o n = some s') : Switched s o n s' := by
  obtain ⟨fr, rfl, hfr⟩ := resume_spec (by exact ht) hs
  dsimp only at hfr ⊢
  rw [h.saved_ctx ho hn, h.saved_due ho hn] at hfr ⊢
  have hexec : (match s.stackOf n with
      | .thread => s.tThreadFiber
      | .own f => some f) = some n := by
    unfold stackOf
    cases hsn : s.hasStack n with
    | true => rfl
    | false => exact (h.threadFiber n hn).mp hsn
  have hproper : s.due n ≠ .getcontext := h.saved_due ho hn ▸ h.saved_left ho hn
  refine ⟨⟨h.threadFiber, h.bound, h.sched, fun f hf => ?_, fun f hf _ => h.saved_ctx ho hf,
    fun f hf _ => h.saved_left ho hf, fun f hf hst hf' => ?_⟩, ht, hexec, rfl, hproper,
    fun f hfo => Function.update_of_ne hfo _ _, rfl⟩
  · dsimp only at hf
    unfold stackOf at hf
    split at hf
    · rename_i hsn
      cases hf
      exact ⟨hn, hsn⟩
    · cases hf
  · dsimp only at hf' ⊢
    rcases hfr f with ⟨hnf, -, hcur⟩ | ⟨hno, heq⟩
    · have hsf : s.stackOf f = .own f := if_pos hst
      rw [hcur, stackOf_inj h hf hn (hsf.trans hnf.symm)]
    · rw [heq]
      exact h.frame f hf hst (h.started_before ho hn hf hst hno hf')

/-! ## Runs -/

/-- The saved contexts are right, and `t_fiber` is the running fiber. -/
structure Inv (s : Fibers) : Prop extends Saved s where
  current : s.tFiber = s.executing

theorem Switched.inv (h : Switched s o n s') : s'.Inv :=
  { h.saved with current := h.current.trans h.executing.symm }

/-- Fibers were constructed, and those there before are as they were. -/
structure Grown (s s' : Fibers) : Prop where
  inv : s'.Inv
  ctx : ∀ f, f < s.next → s'.ctx f = s.ctx f
  lt : ∀ f, f < s.next → f < s'.next

theorem Grown.trans {s₁ : Fibers} (h : Grown s s₁) (h' : Grown s₁ s') : Grown s s' :=
  ⟨h'.inv, fun f hf => (h'.ctx f (h.lt f hf)).trans (h.ctx f hf), fun f hf => h'.lt f (h.lt f hf)⟩

theorem getThis_of_some (ht : s.tFiber = some f) : s.getThis = (f, s) := by
  rw [getThis, ht]

/-- Without `t_fiber`, the thread has not left its own stack. -/
theorem Inv.stack_of_none (h : s.Inv) (ht : s.tFiber = none) :
    s.stack = .thread ∧ s.tThreadFiber = none := by
  have he := h.current.symm.trans ht
  unfold executing at he
  split at he
  · rename_i hs
    exact ⟨hs, he⟩
  · cases he

/-- A new fiber does not change the stacks of the others. -/
theorem stackOf_new (b : Bool) (hf : f < s.next) :
    (if Function.update s.hasStack s.next b f then Stack.own f else .thread) = s.stackOf f := by
  rw [Function.update_of_ne (Nat.ne_of_lt hf)]
  rfl

theorem Inv.getThis (h : s.Inv) :
    Grown s s.getThis.2 ∧ s.getThis.2.executing = some s.getThis.1 := by
  cases ht : s.tFiber with
  | some f =>
    rw [getThis_of_some ht]
    exact ⟨⟨h, fun _ _ => rfl, fun _ hf => hf⟩, h.current.symm.trans ht⟩
  | none =>
    obtain ⟨hstack, hnone⟩ := h.stack_of_none ht
    have hne : ∀ f, f < s.next → f ≠ s.next := fun f hf => Nat.ne_of_lt hf
    simp only [Fibers.getThis, ht]
    have hexec : ∀ s₁ : Fibers, s₁.stack = s.stack → s₁.tThreadFiber = some s.next →
        s₁.executing = some s.next := by
      intro s₁ h₁ h₂
      rw [executing, h₁, hstack]
      exact h₂
    have hold : ∀ f, f < s.next → s.executing ≠ some f := by
      intro f hf he
      rw [← h.current, ht] at he
      cases he
    refine ⟨⟨⟨⟨fun f hf => ?_, fun f hf => ?_, fun f hf => ?_, fun f hf => ?_,
      fun f hf he => ?_, fun f hf he => ?_, fun f hf hst hf' => ?_⟩, ?_⟩,
      fun f hf => Function.update_of_ne (hne f hf) _ _, fun f hf => Nat.lt_succ_of_lt hf⟩,
      hexec _ rfl rfl⟩
    · rcases Nat.lt_succ_iff_lt_or_eq.mp hf with hf | rfl
      · show Function.update s.hasStack s.next false f = false ↔ some s.next = some f
        rw [Function.update_of_ne (hne f hf), h.threadFiber f hf, hnone]
        exact iff_of_false nofun fun he => hne f hf (Option.some.inj he).symm
      · show Function.update s.hasStack s.next false s.next = false ↔ some s.next = some s.next
        rw [Function.update_self]
        exact iff_of_true rfl rfl
    · cases hf
      exact Nat.lt_succ_self _
    · exact Nat.lt_succ_of_lt (h.sched f hf)
    · rw [show s.stack = .thread from hstack] at hf
      cases hf
    · rcases Nat.lt_succ_iff_lt_or_eq.mp hf with hf | rfl
      · show Function.update s.ctx s.next _ f = ⟨if Function.update s.hasStack s.next false f then
          .own f else .thread, s.lastOut (if Function.update s.hasStack s.next false f then
            .own f else .thread)⟩
        rw [stackOf_new _ hf, Function.update_of_ne (hne f hf)]
        exact h.saved f hf (hold f hf)
      · exact (he (hexec _ rfl rfl)).elim
    · rcases Nat.lt_succ_iff_lt_or_eq.mp hf with hf | rfl
      · show s.lastOut (if Function.update s.hasStack s.next false f then .own f else .thread) ≠ _
        rw [stackOf_new _ hf]
        exact h.left f hf (hold f hf)
      · exact (he (hexec _ rfl rfl)).elim
    · dsimp only at hst
      rcases Nat.lt_succ_iff_lt_or_eq.mp hf with hf | rfl
      · rw [Function.update_of_ne (hne f hf)] at hst
        exact h.frame f hf hst hf'
      · rw [Function.update_self] at hst
        cases hst
    · refine Eq.symm (hexec _ ?_ ?_)
      · rfl
      · rfl

theorem Inv.construct (h : s.Inv) (caller : Bool) : Grown s (s.construct caller).2 := by
  have hne : ∀ f, f < s.next → f ≠ s.next := fun f hf => Nat.ne_of_lt hf
  have hstackne : ∀ f, f < s.next → s.stackOf f ≠ .own s.next := by
    intro f hf he
    unfold stackOf at he
    split at he
    · cases he
      exact hne _ hf rfl
    · cases he
  have hrun : s.stack ≠ .own s.next := fun he => hne _ (h.running _ he).1 rfl
  have hnew : (if Function.update s.hasStack s.next true s.next then Stack.own s.next
      else .thread) = .own s.next := by
    rw [Function.update_self]
    rfl
  refine ⟨⟨⟨fun f hf => ?_, fun f hf => Nat.lt_succ_of_lt (h.bound f hf),
    fun f hf => Nat.lt_succ_of_lt (h.sched f hf), fun f hf => ?_, fun f hf he => ?_,
    fun f hf he => ?_, fun f hf hst hf' => ?_⟩, h.current⟩,
    fun f hf => Function.update_of_ne (hne f hf) _ _, fun f hf => Nat.lt_succ_of_lt hf⟩
  · show Function.update s.hasStack s.next true f = false ↔ s.tThreadFiber = some f
    rcases Nat.lt_succ_iff_lt_or_eq.mp hf with hf | rfl
    · rw [Function.update_of_ne (hne f hf)]
      exact h.threadFiber f hf
    · rw [Function.update_self]
      exact iff_of_false nofun fun he => hne _ (h.bound _ he) rfl
  · obtain ⟨hlt, hst⟩ := h.running f hf
    refine ⟨Nat.lt_succ_of_lt hlt, ?_⟩
    show Function.update s.hasStack s.next true f = true
    rw [Function.update_of_ne (hne f hlt)]
    exact hst
  · show Function.update s.ctx s.next _ f = ⟨if Function.update s.hasStack s.next true f then
      .own f else .thread, Function.update s.lastOut (.own s.next) _
        (if Function.update s.hasStack s.next true f then .own f else .thread)⟩
    rcases Nat.lt_succ_iff_lt_or_eq.mp hf with hf | rfl
    · rw [stackOf_new _ hf, Function.update_of_ne (hne f hf), Function.update_of_ne (hstackne f hf)]
      exact h.saved f hf he
    · rw [hnew, Function.update_self, Function.update_self]
  · show Function.update s.lastOut (.own s.next) _
      (if Function.update s.hasStack s.next true f then .own f else .thread) ≠ _
    rcases Nat.lt_succ_iff_lt_or_eq.mp hf with hf | rfl
    · rw [stackOf_new _ hf, Function.update_of_ne (hstackne f hf)]
      exact h.left f hf he
    · rw [hnew, Function.update_self]
      nofun
  · rcases Nat.lt_succ_iff_lt_or_eq.mp hf with hf | rfl
    · have hown : Stack.own f ≠ .own s.next := fun he => hne f hf (Stack.own.inj he)
      dsimp only [Fibers.construct] at hst hf' ⊢
      rw [Function.update_of_ne (hne f hf)] at hst
      rw [Function.update_of_ne hown] at hf'
      exact h.frame f hf hst hf'
    · dsimp only [Fibers.construct] at hf'
      rw [Function.update_self] at hf'
      rcases hf' with hf' | ⟨k, hk⟩
      · exact absurd hf' hrun
      · cases hk

theorem Inv.reset (h : s.Inv) (hf : f < s.next) (hs : s.reset f = some s') :
    s'.Inv ∧ ∀ g, g ≠ f → s'.ctx g = s.ctx g := by
  unfold Fibers.reset at hs
  split at hs
  · rename_i hst
    cases hs
    have hown : s.stackOf f = .own f := if_pos hst.1
    have hne : ∀ g, g < s.next → g ≠ f → s.stackOf g ≠ .own f := fun g hg hgf he =>
      hgf (stackOf_inj h.toSaved hg hf (he.trans hown.symm))
    refine ⟨⟨⟨h.threadFiber, h.bound, h.sched, h.running, fun g hg he => ?_, fun g hg he => ?_,
      fun g hg hsg hg' => ?_⟩, h.current⟩, fun g hgf => Function.update_of_ne hgf _ _⟩
    · show Function.update s.ctx f _ g = ⟨s.stackOf g, Function.update s.lastOut (.own f) _
        (s.stackOf g)⟩
      by_cases hgf : g = f
      · subst hgf
        rw [hown, Function.update_self, Function.update_self]
      · rw [Function.update_of_ne hgf, Function.update_of_ne (hne g hg hgf)]
        exact h.saved g hg he
    · show Function.update s.lastOut (.own f) _ (s.stackOf g) ≠ _
      by_cases hgf : g = f
      · subst hgf
        rw [hown, Function.update_self]
        nofun
      · rw [Function.update_of_ne (hne g hg hgf)]
        exact h.left g hg he
    · refine h.frame g hg hsg (hg'.imp_right ?_)
      rintro ⟨k, hk⟩
      dsimp only at hk
      by_cases hgf : g = f
      · subst hgf
        rw [Function.update_self] at hk
        cases hk
      · rw [Function.update_of_ne fun he => hgf (Stack.own.inj he)] at hk
        exact ⟨k, hk⟩
  · cases hs

/-- A call keeps the invariant, changes no saved context but that of the running fiber and of a
fiber that it resets, and goes on where its target last switched out. -/
structure Exact (s : Fibers) (op : Op) (s' : Fibers) : Prop where
  inv : s'.Inv
  kept : ∀ f, f < s.next → s'.ctx f ≠ s.ctx f → s.executing = some f ∨ op = .reset f
  switch : ∀ g, s.target op = some g →
    s'.executing = some g ∧ s'.resumed = some (s.due g) ∧ s.due g ≠ .getcontext

theorem Grown.exact {op : Op} (h : Grown s s') (ht : s.target op = none) : Exact s op s' :=
  ⟨h.inv, fun f hf hne => absurd (h.ctx f hf) hne, fun g hg => by rw [ht] at hg; cases hg⟩

theorem Switched.exact {op : Op} (h : Switched s o n s') (ho : s.executing = some o)
    (ht : s.target op = some n) : Exact s op s' := by
  refine ⟨h.inv, fun f _ hne => .inl ?_, fun g hg => ?_⟩
  · rw [ho]
    by_contra hfo
    exact hne (h.kept f fun he => hfo (congrArg some he.symm))
  · cases ht.symm.trans hg
    exact ⟨h.executing, h.resumed, h.proper⟩

theorem Saved.setThis (h : s.Saved) (t : Option ℕ) : (s.setThis t).Saved :=
  ⟨h.threadFiber, h.bound, h.sched, h.running, h.saved, h.left, h.frame⟩

theorem Saved.setState (h : s.Saved) (f : ℕ) (st : FiberState) : (s.setState f st).Saved :=
  ⟨h.threadFiber, h.bound, h.sched, h.running, h.saved, h.left, h.frame⟩

/-- A switch does not read the states of the fibers and `t_fiber`. -/
theorem Switched.of_eq {s₀ : Fibers} (h : Switched s₀ o n s') (hd : s₀.due n = s.due n)
    (hc : s₀.ctx = s.ctx) (hn : s₀.next = s.next) : Switched s o n s' :=
  ⟨h.saved, h.current, h.executing, hd ▸ h.resumed, hd ▸ h.proper, hc ▸ h.kept, hn ▸ h.next⟩

theorem Saved.swapOut (h : s.Saved) (ho : s.executing = some f) (hs : s.swapOut f = some s') :
    ∃ main, s.tSchedulerFiber = some main ∧ Switched s f main s' := by
  unfold Fibers.swapOut at hs
  dsimp only at hs
  split at hs
  · cases hs
  · rename_i main hm
    have hsw := (h.setThis s.tSchedulerFiber).swapcontext ho (h.sched main hm) hm hs
    exact ⟨main, hm, hsw.of_eq rfl rfl rfl⟩

theorem Saved.back (h : s.Saved) (ho : s.executing = some f) (hs : s.back f = some s') :
    ∃ main, s.tThreadFiber = some main ∧ Switched s f main s' := by
  unfold Fibers.back at hs
  dsimp only at hs
  split at hs
  · cases hs
  · rename_i main hm
    have hsw := (h.setThis s.tThreadFiber).swapcontext ho (h.bound main hm) hm hs
    exact ⟨main, hm, hsw.of_eq rfl rfl rfl⟩

theorem Saved.swapIn (h : s.Saved) (hf : f < s.next) (ho : s.executing = s.tSchedulerFiber)
    (hs : s.swapIn f = some s') : ∃ main, s.executing = some main ∧ Switched s main f s' := by
  unfold Fibers.swapIn at hs
  dsimp only at hs
  split at hs
  · cases hs
  · split at hs
    · cases hs
    · rename_i main hm
      have hsw := ((h.setThis (some f)).setState f .exec).swapcontext (ho.trans hm) hf rfl hs
      exact ⟨main, ho.trans hm, hsw.of_eq rfl rfl rfl⟩

theorem Saved.call (h : s.Saved) (hf : f < s.next) (ho : s.executing = s.tThreadFiber)
    (hs : s.call f = some s') : ∃ main, s.executing = some main ∧ Switched s main f s' := by
  unfold Fibers.call at hs
  dsimp only at hs
  split at hs
  · cases hs
  · rename_i main hm
    have hsw := ((h.setThis (some f)).setState f .exec).swapcontext (ho.trans hm) hf rfl hs
    exact ⟨main, ho.trans hm, hsw.of_eq rfl rfl rfl⟩

/-- The Yield functions: the thread's main fiber may first have to be constructed. -/
theorem Inv.yieldTo (h : s.Inv) {st : FiberState} (hs : s.yieldTo st = some s') :
    s'.Inv ∧ (∀ f, f < s.next → s'.ctx f ≠ s.ctx f → s.executing = some f) ∧
      ∀ g, s.tSchedulerFiber = some g →
        s'.executing = some g ∧ s'.resumed = some (s.due g) ∧ s.due g ≠ .getcontext := by
  obtain ⟨hg, he⟩ := h.getThis
  unfold Fibers.yieldTo at hs
  dsimp only at hs
  split at hs
  · obtain ⟨main, hm, hsw⟩ := (hg.inv.toSaved.setState s.getThis.1 st).swapOut he hs
    change s.getThis.2.tSchedulerFiber = some main at hm
    cases ht : s.tFiber with
    | some f =>
      rw [getThis_of_some ht] at hsw hm
      refine ⟨hsw.inv, fun f' hf' hne => ?_, fun g hgs => ?_⟩
      · rw [← h.current, ht]
        by_contra hff
        exact hne (hsw.kept f' fun he => hff (congrArg some he.symm))
      · cases hm.symm.trans hgs
        exact ⟨hsw.executing, hsw.resumed, hsw.proper⟩
    | none =>
      -- the new main fiber runs, and its context is saved
      have hctx := hg.ctx
      simp only [Fibers.getThis, ht] at hsw hm hctx he
      refine ⟨hsw.inv, fun f' hf' hne => ?_, fun g hgs => ?_⟩
      · refine absurd ?_ hne
        rw [hsw.kept f' (Nat.ne_of_lt hf')]
        exact hctx f' hf'
      · cases hm.symm.trans hgs
        have hlt := h.sched _ hgs
        have hrun : s.executing ≠ some main := by
          rw [← h.current, ht]
          nofun
        have hd : s.due main = s.lastOut (s.stackOf main) := by rw [due, if_neg hrun]
        have hd' := hsw.proper
        have hr := hsw.resumed
        rw [due, if_neg fun hx => Nat.ne_of_lt hlt (Option.some.inj (hx.symm.trans he))] at hr hd'
        have hst := congrArg s.lastOut (stackOf_new (s := s) false hlt)
        rw [hd, ← hst]
        exact ⟨hsw.executing, hr, hd'⟩
  · cases hs

/-- The end of a frame switches out of its fiber, which is the running one. -/
theorem Inv.finish (h : s.Inv) {threw : Bool} (hs : s.finish threw = some s') :
    ∃ f n, s.executing = some f ∧ s.target (.finish threw) = some n ∧ Switched s f n s' := by
  unfold Fibers.finish at hs
  split at hs
  · cases hs
  · rename_i g hg
    obtain ⟨hlt, hst⟩ := h.running g hg
    have hcur := h.frame g hlt hst (.inl hg)
    have he : s.executing = some g := by rw [executing, hg]
    simp only [hcur] at hs
    -- the frame is marked, and the state of its fiber set
    have hsv : ({ s.setState g (if threw = true then .except else .term) with
        frame := Function.update s.frame g { s.frame g with ended := true } } : Fibers).Saved := by
      refine ⟨h.threadFiber, h.bound, h.sched, h.running, h.saved, h.left, fun f hf hsf hf' => ?_⟩
      show (Function.update s.frame g _ f).cur = some f
      by_cases hfg : f = g
      · subst hfg
        rw [Function.update_self]
        exact hcur
      · rw [Function.update_of_ne hfg]
        exact h.frame f hf hsf hf'
    have hcaller : (Function.update s.frame g { s.frame g with ended := true } g).caller =
        (s.frame g).caller := by rw [Function.update_self]
    refine ⟨g, ?_⟩
    simp only [target, hg]
    rw [setState] at hs
    dsimp only at hs
    rw [hcaller] at hs
    split at hs
    · rename_i hc
      obtain ⟨main, hm, hsw⟩ := hsv.back he hs
      exact ⟨main, he, by rw [if_pos hc]; exact hm, hsw.of_eq rfl rfl rfl⟩
    · rename_i hc
      obtain ⟨main, hm, hsw⟩ := hsv.swapOut he hs
      exact ⟨main, he, by rw [if_neg hc]; exact hm, hsw.of_eq rfl rfl rfl⟩

theorem Inv.setMain (h : s.Inv) (hf : f < s.next) :
    ({ s with tSchedulerFiber := some f } : Fibers).Inv :=
  { threadFiber := h.threadFiber, bound := h.bound, running := h.running, saved := h.saved
    left := h.left, frame := h.frame, current := h.current
    sched := fun g hg => by cases hg; exact hf }

theorem Inv.run (h : s.Inv) : Grown s s.run := by
  obtain ⟨hg, he⟩ := h.getThis
  exact ⟨hg.inv.setMain (hg.inv.executing_lt he), hg.ctx, hg.lt⟩

theorem Inv.useCaller (h : s.Inv) : Grown s s.useCaller := by
  obtain ⟨hg, -⟩ := h.getThis
  have hc := hg.trans (hg.inv.construct true)
  exact ⟨hc.inv.setMain (Nat.lt_succ_self _), hc.ctx, hc.lt⟩

/-- A call names a fiber that was constructed. -/
theorem of_constructed {x : Option Fibers} (h : (if f < n then x else none) = some s') :
    f < n ∧ x = some s' := by
  split at h
  · rename_i hf
    exact ⟨hf, h⟩
  · cases h

theorem Inv.step (h : s.Inv) {op : Op} (hc : s.Allowed op) (hs : s.step op = some s') :
    Exact s op s' := by
  cases op with
  | getThis =>
    cases hs
    exact h.getThis.1.exact rfl
  | construct caller =>
    cases hs
    exact (h.construct caller).exact rfl
  | reset f =>
    obtain ⟨hf, hs⟩ := of_constructed hs
    obtain ⟨hi, hk⟩ := h.reset hf hs
    refine ⟨hi, fun g _ hne => .inr ?_, nofun⟩
    by_contra hgf
    exact hne (hk g fun he => hgf (congrArg Op.reset he.symm))
  | setState f st =>
    obtain ⟨-, hs⟩ := of_constructed hs
    cases hs
    exact ⟨{ h.toSaved.setState f st with current := h.current },
      fun _ _ hne => absurd rfl hne, nofun⟩
  | useCaller =>
    cases hs
    exact h.useCaller.exact rfl
  | run =>
    cases hs
    exact h.run.exact rfl
  | swapIn f =>
    obtain ⟨hf, hs⟩ := of_constructed hs
    obtain ⟨main, ho, hsw⟩ := h.swapIn hf hc hs
    exact hsw.exact ho rfl
  | swapOut f =>
    obtain ⟨-, hs⟩ := of_constructed hs
    obtain ⟨main, hm, hsw⟩ := h.swapOut hc hs
    exact hsw.exact hc hm
  | call f =>
    obtain ⟨hf, hs⟩ := of_constructed hs
    obtain ⟨main, ho, hsw⟩ := h.call hf hc hs
    exact hsw.exact ho rfl
  | back f =>
    obtain ⟨-, hs⟩ := of_constructed hs
    obtain ⟨main, hm, hsw⟩ := h.back hc hs
    exact hsw.exact hc hm
  | yieldToReady =>
    obtain ⟨hi, hk, ht⟩ := h.yieldTo hs
    exact ⟨hi, fun f hf hne => .inl (hk f hf hne), ht⟩
  | yieldToHold =>
    obtain ⟨hi, hk, ht⟩ := h.yieldTo hs
    exact ⟨hi, fun f hf hne => .inl (hk f hf hne), ht⟩
  | finish threw =>
    obtain ⟨f, n, ho, ht, hsw⟩ := h.finish hs
    exact hsw.exact ho ht

theorem inv_inductive : sys.Inductive Allowed Inv where
  init := by
    rintro s rfl
    exact ⟨⟨nofun, nofun, nofun, nofun, nofun, nofun, nofun⟩, rfl⟩
  step s op s' hi hc hs := (hi.step hc hs).inv

/-- **Current fiber and resumption**: in every state, `t_fiber` is the fiber whose code runs. A call
that switches leads to its target, at the point where the target last switched out or at its entry
function, and a call changes the context of no fiber but the running one, and one that it resets. -/
theorem switch_exact (h : sys.Reach Allowed s) : s.tFiber = s.executing ∧
    ∀ op s', s.Allowed op → s.step op = some s' →
      (∀ g, s.target op = some g →
        s'.executing = some g ∧ s'.resumed = some (s.due g) ∧ s.due g ≠ .getcontext) ∧
      ∀ f, f < s.next → s'.ctx f ≠ s.ctx f → s.executing = some f ∨ op = .reset f := by
  have hi := inv_inductive.reach h
  refine ⟨hi.current, fun op s' hc hs => ?_⟩
  have he := hi.step hc hs
  exact ⟨he.switch, he.kept⟩

/-- With `use_caller`: the thread's main fiber `0` calls the root fiber `1`, which runs a task `2`
that has yielded once. The task returns, and the root fiber goes on behind its `swapIn`. -/
theorem switch_exact_root : ∃ s s' : Fibers, s.tThreadFiber = some 0 ∧ s.executing = some 2 ∧
    s.resumed = some (.after 2) ∧ s.step (.finish false) = some s' ∧ s'.executing = some 1 ∧
    s'.resumed = some (s.due 1) ∧ s'.ctx 0 = s.ctx 0 := by
  obtain ⟨s, hs, hp⟩ := Interleave.Sys.exists_of_runBy (S := sys) (C := Allowed) (s := {})
    [.useCaller, .construct false, .call 1, .swapIn 2, .yieldToHold, .swapIn 2]
    (p := fun s => s.tThreadFiber == some 0 && s.executing == some 2 &&
      s.resumed == some (.after 2) && (s.step (.finish false)).isSome &&
      s.target (.finish false) == some 1 && decide (0 < s.next)) (by decide)
  simp only [Bool.and_eq_true, beq_iff_eq, decide_eq_true_eq] at hp
  obtain ⟨⟨⟨⟨⟨hmain, hexec⟩, hres⟩, hstep⟩, htarget⟩, hnext⟩ := hp
  obtain ⟨s', hs'⟩ := Option.isSome_iff_exists.mp hstep
  obtain ⟨hswitch, hkept⟩ := (switch_exact ⟨_, rfl, hs⟩).2 (.finish false) s' trivial hs'
  obtain ⟨he, hr, -⟩ := hswitch 1 htarget
  refine ⟨s, s', hmain, hexec, hres, hs', he, hr, ?_⟩
  by_contra hne
  rcases hkept 0 hnext hne with h | h
  · rw [hexec] at h
    cases h
  · cases h

end Fibers
end Ddg
