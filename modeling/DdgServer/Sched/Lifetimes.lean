import DdgServer.Sched.RootFiber

/-!
# Schedulers one after the other on one thread

A thread constructs a scheduler with `use_caller`, starts and stops it, destroys it, and constructs
the next one. The constructor asserts that `t_scheduler` of the thread is null and sets it, and
`run` sets it again when the root fiber comes to it; nothing ever clears it, nor
`t_scheduler_fiber`.

* `Thread`, `Thread.sys`: the two thread-locals, and the steps of the scheduler that is alive. The
  schedulers are numbered in the order of their construction.
* `Thread.Meets n`: `n` lifetimes go well. `lifetimes_exact`: they do exactly for `n ≤ 1`.
-/

namespace Ddg.Sched

open Interleave

/-- A scheduler with `n` workers. -/
structure Live (κ : Type) where
  n : ℕ
  cfg : Config (Fin n)
  state : State (Fin n) κ

/-- The thread that constructs the schedulers. -/
structure Thread (κ : Type) where
  scheduler : Option ℕ := none
  schedulerFiber : Option ℕ := none
  live : Option (Live κ) := none
  built : ℕ := 0

namespace Thread

variable {κ : Type}

inductive Label (κ : Type)
  /-- `Scheduler(threads, true)`. -/
  | construct (n : ℕ) (cfg : Config (Fin n))
  /-- A step of the scheduler. -/
  | sched (n : ℕ) (l : Sched.Label (Fin n) κ)
  /-- `~Scheduler()`, and the destruction of `m_rootFiber`. -/
  | destroy

/-- The root worker is in `run`. -/
def Live.rootRuns (l : Live κ) : Bool :=
  match l.cfg.root with
  | some r => (l.state.pc r).inRun
  | none => false

/-- A step of the scheduler that is alive. If it brings the root worker into `run`, that does
`SetThis()` on this thread. -/
def sched (t : Thread κ) (n : ℕ) (a : Sched.Label (Fin n) κ) : Option (Thread κ) :=
  match t.live with
  | some l =>
    if h : n = l.n then
      (Sched.step l.cfg l.state (h ▸ a)).map fun state =>
        let l' : Live κ := { l with state }
        { t with
          live := some l'
          scheduler :=
            if !Live.rootRuns l && Live.rootRuns l' then some (t.built - 1) else t.scheduler }
    else none
  | none => none

def step (t : Thread κ) : Label κ → Option (Thread κ)
  | .construct n cfg =>
    -- `DDG_ASSERT(GetThis() == nullptr)`
    if t.live.isNone ∧ cfg.root.isSome ∧ t.scheduler = none then
      some { scheduler := some t.built, schedulerFiber := some t.built
             live := some ⟨n, cfg, {}⟩, built := t.built + 1 }
    else none
  | .sched n a => t.sched n a
  | .destroy =>
    match t.live with
    | some l =>
      -- the assertion in `Fiber::~Fiber`
      if l.state.caller = .stopped ∧ l.state.rootState.destructible = true then
        some { t with live := none }
      else none
    | none => none

/-- A thread that runs no scheduler, and its steps. -/
def sys (κ : Type) : Sys (Thread κ) (Label κ) where
  init t := t = {}
  step t a := t.step a

/-- The scheduler of that number is alive. -/
def Alive (t : Thread κ) (id : ℕ) : Prop := t.live.isSome = true ∧ id + 1 = t.built

/-- Neither `Scheduler::GetThis()` nor `Scheduler::GetMainFiber()` refers to a destroyed scheduler
or its root fiber. -/
def Clean (t : Thread κ) : Prop :=
  (∀ id ∈ t.scheduler, t.Alive id) ∧ ∀ id ∈ t.schedulerFiber, t.Alive id

/-- For `n` lifetimes: at each of the constructions the assertion holds, and between two lifetimes
the thread is clean. -/
def Meets (κ : Type) (n : ℕ) : Prop :=
  ∀ t : Thread κ, (sys κ).Reach Sys.free t → t.live = none → t.built < n →
    t.scheduler = none ∧ (0 < t.built → t.Clean)

/-- Before the first construction both are null; from it on they refer to that scheduler. -/
def Set (t : Thread κ) : Prop :=
  t = {} ∨ (t.built = 1 ∧ t.scheduler = some 0 ∧ t.schedulerFiber = some 0)

theorem set_inductive : (sys κ).Inductive Sys.free Set where
  init t ht := .inl ht
  step t a t' h _ hs := by
    cases a with
    | construct n cfg =>
      simp only [sys, step] at hs
      split at hs
      · rename_i hc
        cases hs
        rcases h with rfl | ⟨-, hsched, -⟩
        · exact .inr ⟨rfl, rfl, rfl⟩
        · rw [hsched] at hc
          cases hc.2.2
      · cases hs
    | sched n a =>
      simp only [sys, step, sched] at hs
      split at hs
      · rename_i l hl
        split at hs
        · obtain ⟨state, -, rfl⟩ := Option.map_eq_some_iff.mp hs
          rcases h with rfl | ⟨hb, hsched, hfiber⟩
          · cases hl
          · refine .inr ⟨hb, ?_, hfiber⟩
            simp only [hb, hsched, Nat.sub_self, ite_self]
        · cases hs
      · cases hs
    | destroy =>
      simp only [sys, step] at hs
      split at hs
      · rename_i l hl
        split at hs
        · cases hs
          rcases h with rfl | h
          · cases hl
          · exact .inr h
        · cases hs
      · cases hs

/-- One lifetime: constructed, stopped and destroyed. -/
theorem exists_destroyed (κ : Type) : ∃ t : Thread κ, (sys κ).Reach Sys.free t ∧ t.live = none ∧
    t.built = 1 ∧ t.scheduler = some 0 := by
  obtain ⟨t, ht, hp⟩ := Sys.exists_of_runBy (S := sys κ) (C := Sys.free) (s := {})
    [.construct 1 rootWorker, .sched 1 .stop, .sched 1 (.caller true), .destroy]
    (p := fun t => t.live.isNone && t.built == 1 && t.scheduler == some 0) (by rfl)
  simp only [Bool.and_eq_true, beq_iff_eq, Option.isNone_iff_eq_none] at hp
  exact ⟨t, ⟨_, rfl, ht⟩, hp.1.1, hp.1.2, hp.2⟩

/-- **Lifetimes on one thread are as they should be exactly if there is at most one.** Where no
scheduler is alive, the assertion of the next construction holds, and the thread is clean, exactly
if none was built before. -/
theorem lifetimes_exact (κ : Type) :
    (∀ n, Meets κ n ↔ n ≤ 1) ∧
    ∀ t : Thread κ, (sys κ).Reach Sys.free t → t.live = none →
      (t.scheduler = none ↔ t.built = 0) ∧ (t.Clean ↔ t.built = 0) := by
  refine ⟨fun n => ⟨fun h => ?_, fun hn t ht _ hb => ?_⟩, fun t ht hl => ?_⟩
  · obtain ⟨t, ht, hl, hb, hsched⟩ := exists_destroyed κ
    by_contra hn
    have := (h t ht hl (by omega)).1
    rw [hsched] at this
    cases this
  · rcases set_inductive.reach ht with rfl | ⟨hb', -⟩
    · exact ⟨rfl, fun hpos => absurd hpos (Nat.lt_irrefl 0)⟩
    · omega
  · rcases set_inductive.reach ht with rfl | ⟨hb, hsched, hfiber⟩
    · exact ⟨⟨fun _ => rfl, fun _ => rfl⟩, fun _ => rfl, fun _ => ⟨nofun, nofun⟩⟩
    · refine ⟨by simp [hb, hsched], fun hc => ?_, fun h0 => by omega⟩
      have := (hc.1 0 hsched).1
      rw [hl] at this
      cases this

/-- A lifetime with a task, which the root fiber runs; the thread still refers to the scheduler
after it. -/
theorem lifetime_dangles : ∃ t : Thread Unit, t.live = none ∧ t.built = 1 ∧ ¬ t.Clean := by
  obtain ⟨t, ht, hp⟩ := Sys.exists_of_runBy (S := sys Unit) (C := Sys.free) (s := {})
    (.construct 1 rootWorker :: List.concat
      ((List.flatten [[.start, .schedule [{ cb := some () }], .stop], .replicate 5 (.caller true),
        .replicate 7 (.run 0), [.task 0 .term], .replicate 9 (.run 0),
        .replicate 2 (.caller true)]).map (.sched 1)) .destroy)
    (p := fun t => t.live.isNone && t.built == 1) (by decide +kernel)
  simp only [Bool.and_eq_true, beq_iff_eq, Option.isNone_iff_eq_none] at hp
  have hexact := (lifetimes_exact Unit).2 t ⟨_, rfl, ht⟩ hp.1
  exact ⟨t, hp.1, hp.2, fun hc => by have := hexact.2.mp hc; omega⟩

/-- The second construction on a thread fails its assertion. -/
theorem lifetimes_two : ¬ Meets Unit 2 := by
  intro h
  obtain ⟨t, ht, hl, hb, hsched⟩ := exists_destroyed Unit
  have := (h t ht hl (by omega)).1
  rw [hsched] at this
  cases this

end Thread

end Ddg.Sched
