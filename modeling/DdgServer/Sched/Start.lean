import DdgServer.Lib.Sys
import DdgServer.Log.Pattern
import DdgServer.Sched.Entry

/-!
# The start of the worker threads

`Scheduler::start` of `ddg/scheduler.cc` with `Thread::Thread` and `Thread::run` of `ddg/thread.cc`
and `Semphore` of `ddg/mutex.cc`. The constructor makes the new thread with `pthread_create` and
waits for its post; the new thread stores its id and swaps its callback out before it posts. The
atomic steps are the accesses to the `Thread` object by the two threads; `sem_wait` may return `-1`
at any time (`EINTR`).

* `Thread.Ok`: what holds of a `Thread` object at each point of its thread.
* `Inv`: the workers that were made, and the ids that were recorded.
* `Met`: the handshake in one state. `start_handshake`: it is met in every state of a run whose
  interrupted waits all come after the callback was taken, and not after any other one.
-/

namespace Ddg.Start

open Interleave

/-! ## `Semphore` -/

/-- `sem_wait`: its return value and the count; it blocks at `0`, and a signal may end it. -/
def semWait (interrupted : Bool) (count : ℕ) : Option (ℤ × ℕ) :=
  if interrupted then some (-1, count) else if count = 0 then none else some (0, count - 1)

/-- `Semphore::wait`. The branch of a failed `sem_wait` makes a `logic_error` and drops it: the call
returns in any case. -/
def Semphore.wait (interrupted : Bool) (count : ℕ) : Option ℕ :=
  (semWait interrupted count).map (·.2)

/-- `Semphore::post`. -/
def Semphore.post (count : ℕ) : ℕ := count + 1

theorem Semphore.wait_le {interrupted : Bool} {count n : ℕ}
    (h : Semphore.wait interrupted count = some n) : n ≤ count := by
  simp only [Semphore.wait, semWait] at h
  split at h
  · cases h
    exact le_rfl
  · split at h
    · cases h
    · cases h
      exact Nat.sub_le count 1

/-- A wait that is not interrupted returns after a post. -/
theorem Semphore.ne_zero_of_wait {count n : ℕ} (h : Semphore.wait false count = some n) :
    count ≠ 0 := by
  rintro rfl
  cases h

/-! ## The new thread -/

/-- Where the new thread is in `Thread::run`. -/
inductive RunPc where
  /-- Before `t_thread` and `t_thread_name`. -/
  | name
  /-- Before `thread->m_id = GetThreadId()`. -/
  | id
  /-- Before `pthread_setname_np`. -/
  | setname
  /-- Before `cb.swap(thread->m_cb)`. -/
  | swap
  /-- Before `thread->m_sem.post()`. -/
  | post
  /-- Before `cb()`, or in it. -/
  | call
  | done
  deriving DecidableEq

/-- After the swap. -/
def RunPc.taken : RunPc → Bool
  | .post | .call | .done => true
  | _ => false

/-- The next step writes `m_id` or `m_cb`. -/
def RunPc.writes : RunPc → Bool
  | .id | .swap => true
  | _ => false

/-- A call of `Thread::run` in a new thread: the kernel's id of the thread, and the locals. -/
structure Run (κ : Type) where
  tid : BitVec 32
  pc : RunPc := .name
  threadName : Text := "UNKNOW".toList
  cb : Option κ := none

/-- `GetThreadId()` in that thread. -/
def Run.getThreadId {κ : Type} (r : Run κ) : ThreadId := r.tid.signExtend 64

/-- A `Thread` object, and its thread from `pthread_create` on. `thread`: `m_thread` is not `0`. -/
structure Thread (κ : Type) where
  id : BitVec 32 := -1
  thread : Bool := false
  cb : Option κ
  name : Text
  sem : ℕ := 0
  run : Option (Run κ) := none

namespace Thread

variable {κ : Type}

/-- The constructor, up to `pthread_create`. -/
def make (name : Text) (cb : κ) : Thread κ :=
  { cb := some cb, name := if name = [] then "UNKNOW".toList else name }

/-- The next step of the new thread. -/
def step (x : Thread κ) : Option (Thread κ) :=
  x.run.bind fun r =>
    match r.pc with
    | .name => some { x with run := some { r with pc := .id, threadName := x.name } }
    | .id => some { x with id := r.getThreadId.setWidth 32, run := some { r with pc := .setname } }
    -- the kernel's name of the thread, which nothing reads
    | .setname => some { x with run := some { r with pc := .swap } }
    | .swap => some { x with cb := r.cb, run := some { r with pc := .post, cb := x.cb } }
    | .post => some { x with sem := Semphore.post x.sem, run := some { r with pc := .call } }
    | .call => some { x with run := some { r with pc := .done } }
    | .done => none

/-- `Thread::SetName`, called by the callback. -/
def setName (x : Thread κ) (name : Text) : Option (Thread κ) :=
  x.run.bind fun r =>
    if r.pc ≠ .call then none
    else if name = [] then some x
    else some { x with name, run := some { r with threadName := name } }

/-- `Thread::join` by another thread, which waits for the end of this one. -/
def join (x : Thread κ) : Option (Thread κ) :=
  if x.thread then
    x.run.bind fun r => if r.pc = .done then some { x with thread := false } else none
  else some x

/-- `Thread::detach`, which does nothing where `m_thread` is `0`. -/
def detach (x : Thread κ) : Thread κ := { x with thread := false }

end Thread

/-! ## `Scheduler::start` -/

/-- What `start` finds: `m_name`, `m_threadCount`, `m_threadIds`, and the callback of the workers,
`std::bind(&Scheduler::run, this)`. -/
structure Config (κ : Type) where
  name : Text
  threadCount : ℕ
  threadIds : List ThreadId := []
  cb : κ

/-- `m_name + "_" + std::to_string(i)`. -/
def Config.threadName {κ : Type} (cfg : Config κ) (i : ℕ) : Text :=
  cfg.name ++ '_' :: Nat.toDigits 10 i

/-- Where `start` is, in the round for the worker `i`. -/
inductive Pc where
  /-- At the head of the loop. -/
  | loop (i : ℕ)
  /-- In the constructor, before `pthread_create`. -/
  | create (i : ℕ)
  /-- In the constructor, before `m_sem.wait()`. -/
  | wait (i : ℕ)
  /-- Before `m_threadIds.push_back(m_threads[i]->getId())`. -/
  | record (i : ℕ)
  | ended
  /-- The constructor threw. -/
  | threw (i : ℕ)
  deriving DecidableEq

/-- The number of the constructors that have returned. -/
def Pc.returned (n : ℕ) : Pc → ℕ
  | .loop i | .create i | .wait i | .threw i => i
  | .record i => i + 1
  | .ended => n

/-- The number of the threads that run or have run. -/
def Pc.started (n : ℕ) : Pc → ℕ
  | .loop i | .create i | .threw i => i
  | .wait i | .record i => i + 1
  | .ended => n

/-- The number of the ids that were recorded. -/
def Pc.recorded (n : ℕ) : Pc → ℕ
  | .loop i | .create i | .wait i | .record i | .threw i => i
  | .ended => n

structure State (κ : Type) where
  pc : Pc := .loop 0
  /-- `m_threads`, with the object under construction. -/
  threads : ℕ → Option (Thread κ) := fun _ => none
  threadIds : List ThreadId

inductive Label where
  /-- `start` goes on to the next round, up to `pthread_create`, or ends. -/
  | next
  /-- `pthread_create`: the id of the new thread, or a failure. -/
  | create (tid : Option (BitVec 32))
  | wait (interrupted : Bool)
  | record
  /-- A step of the new thread `i`. -/
  | run (i : ℕ)
  | setName (i : ℕ) (name : Text)
  | join (i : ℕ)
  | detach (i : ℕ)

variable {κ : Type}

namespace State

variable (s : State κ)

/-- The object of the worker `i` is now `x`. -/
def put (i : ℕ) (x : Thread κ) : State κ :=
  { s with threads := Function.update s.threads i (some x) }

/-- A step on the object of the worker `i` alone. -/
def act (i : ℕ) (f : Thread κ → Option (Thread κ)) : Option (State κ) :=
  ((s.threads i).bind f).map (s.put i)

/-- The thread of the worker `i`. -/
def run? (i : ℕ) : Option (Run κ) := (s.threads i).bind Thread.run

end State

def step (cfg : Config κ) (s : State κ) : Label → Option (State κ)
  | .next =>
    match s.pc with
    | .loop i =>
      if i < cfg.threadCount then
        some { s.put i (.make (cfg.threadName i) cfg.cb) with pc := .create i }
      else some { s with pc := .ended }
    | _ => none
  | .create (some tid) =>
    match s.pc with
    | .create i =>
      (s.act i fun x => some { x with thread := true, run := some { tid } }).map
        fun s' => { s' with pc := .wait i }
    | _ => none
  | .create none =>
    match s.pc with
    -- the constructor throws, and the object is gone
    | .create i => some { s with pc := .threw i, threads := Function.update s.threads i none }
    | _ => none
  | .wait interrupted =>
    match s.pc with
    | .wait i =>
      (s.act i fun x => (Semphore.wait interrupted x.sem).map fun sem => { x with sem }).map
        fun s' => { s' with pc := .record i }
    | _ => none
  | .record =>
    match s.pc with
    | .record i =>
      (s.threads i).map fun x =>
        { s with pc := .loop (i + 1), threadIds := s.threadIds ++ [x.id.signExtend 64] }
    | _ => none
  | .run i => s.act i Thread.step
  | .setName i name => s.act i fun x => x.setName name
  | .join i => s.act i Thread.join
  | .detach i => s.act i fun x => some x.detach

/-- `start` and the workers, from the call of `start`. -/
def sys (cfg : Config κ) : Sys (State κ) Label where
  init s := s = { threadIds := cfg.threadIds }
  step := step cfg

/-! ## The handshake -/

/-- The thread has stored its id in the object and taken the callback out of it. -/
def Thread.Handed (cb : κ) (x : Thread κ) : Prop :=
  ∃ r, x.run = some r ∧ x.id = r.getThreadId.setWidth 32 ∧ x.cb = none ∧ r.cb = some cb

/-- In one state: each constructor that returned had its answer, the ids that were recorded are
those of the threads, and `m_id` and `m_cb` stay as they are, whatever the steps from here on. -/
structure Met (cfg : Config κ) (s : State κ) : Prop where
  handed : ∀ i < s.pc.returned cfg.threadCount, ∃ x, s.threads i = some x ∧ x.Handed cfg.cb
  ids : s.threadIds = cfg.threadIds ++
    (List.range (s.pc.recorded cfg.threadCount)).filterMap fun i => (s.run? i).map Run.getThreadId
  final : ∀ i < s.pc.returned cfg.threadCount, ∀ x, s.threads i = some x →
    ∀ s', (sys cfg).Steps Sys.free s s' → ∃ x', s'.threads i = some x' ∧
      x'.id = x.id ∧ x'.cb = x.cb ∧ ∀ r ∈ x'.run, r.pc.writes = false

/-- The worker whose constructor an interrupted `sem_wait` lets return. -/
def interrupted (s : State κ) (a : Label) : Option ℕ :=
  match s.pc, a with
  | .wait i, .wait true => some i
  | _, _ => none

/-- An interrupted `sem_wait` comes only after the thread has taken the callback. -/
def Heard (s : State κ) (a : Label) : Prop :=
  ∀ i ∈ interrupted s a, (s.run? i).any (·.pc.taken) = true

instance (s : State κ) (a : Label) : Decidable (Heard s a) :=
  inferInstanceAs (Decidable (∀ i ∈ interrupted s a, _))

/-! ## One object -/

/-- `m_id` has the whole id: the kernel's ids fit into a `pid_t`. -/
theorem Run.setWidth_getThreadId (r : Run κ) : r.getThreadId.setWidth 32 = r.tid := by
  ext j hj
  have hj' : j < 64 := by omega
  rw [Run.getThreadId, BitVec.getElem_setWidth, BitVec.getLsbD_signExtend]
  simp [hj, hj']

namespace Thread

/-- What holds of an object at each point of its thread: the post comes after the swap, and the
swap after the write of the id. -/
def Ok (cb : κ) (x : Thread κ) : Prop :=
  match x.run with
  | none => x.cb = some cb ∧ x.sem = 0
  | some r =>
    match r.pc with
    | .name | .id => x.cb = some cb ∧ r.cb = none ∧ x.sem = 0
    | .setname | .swap =>
      x.id = r.getThreadId.setWidth 32 ∧ x.cb = some cb ∧ r.cb = none ∧ x.sem = 0
    | .post | .call | .done => x.id = r.getThreadId.setWidth 32 ∧ x.cb = none ∧ r.cb = some cb

variable {cb : κ} {x x' : Thread κ}

theorem Ok.handed {r : Run κ} (h : x.Ok cb) (hr : x.run = some r) (ht : r.pc.taken = true) :
    x.Handed cb := by
  simp only [Ok, hr] at h
  refine ⟨r, hr, ?_⟩
  cases hpc : r.pc <;> simp only [hpc, RunPc.taken, Bool.false_eq_true] at h ht
  · exact h
  · exact h
  · exact h

/-- There is nothing to wait for before the callback is taken. -/
theorem Ok.taken_of_sem {r : Run κ} (h : x.Ok cb) (hr : x.run = some r) (hs : x.sem ≠ 0) :
    r.pc.taken = true := by
  simp only [Ok, hr] at h
  cases hpc : r.pc <;> simp only [hpc] at h
  · exact absurd h.2.2 hs
  · exact absurd h.2.2 hs
  · exact absurd h.2.2.2 hs
  · exact absurd h.2.2.2 hs
  · rfl
  · rfl
  · rfl

/-- Before the callback is taken it is still in the object. -/
theorem Ok.cb_of_not_taken {r : Run κ} (h : x.Ok cb) (hr : x.run = some r)
    (ht : r.pc.taken = false) : x.cb = some cb := by
  simp only [Ok, hr] at h
  cases hpc : r.pc <;> simp only [hpc, RunPc.taken, Bool.true_eq_false] at h ht
  · exact h.1
  · exact h.1
  · exact h.2.1
  · exact h.2.1

/-- What each step on an object keeps, from `pthread_create` on. -/
structure Keeps (cb : κ) (x x' : Thread κ) : Prop where
  ok : x.Ok cb → x'.Ok cb
  tid : x'.run.map Run.tid = x.run.map Run.tid
  taken : x.run.any (·.pc.taken) = true →
    x'.run.any (·.pc.taken) = true ∧ x'.id = x.id ∧ x'.cb = x.cb

/-- A step that leaves `m_id`, `m_cb` and the place of the thread alone, and does not post. -/
theorem Keeps.quiet (hid : x'.id = x.id) (hcb : x'.cb = x.cb) (hsem : x'.sem ≤ x.sem)
    (hrun : x'.run.map (fun r => (r.tid, r.pc, r.cb)) = x.run.map fun r => (r.tid, r.pc, r.cb)) :
    Keeps cb x x' := by
  cases hr : x.run with
  | none =>
    rw [hr, Option.map_none, Option.map_eq_none_iff] at hrun
    refine ⟨fun h => ?_, by simp [hr, hrun], fun h => by simp [hr] at h⟩
    simp only [Ok, hr] at h
    simp only [Ok, hrun]
    exact ⟨hcb.trans h.1, by omega⟩
  | some r =>
    rw [hr, Option.map_some, Option.map_eq_some_iff] at hrun
    obtain ⟨r', hr', heq⟩ := hrun
    obtain ⟨htid, hpc, hrcb⟩ : r'.tid = r.tid ∧ r'.pc = r.pc ∧ r'.cb = r.cb := by simpa using heq
    refine ⟨fun h => ?_, by simp [hr, hr', htid],
      fun h => ⟨by simpa [hr, hr', hpc] using h, hid, hcb⟩⟩
    simp only [Ok, hr] at h
    simp only [Ok, hr', hpc, hid, hcb, hrcb, Run.getThreadId, htid]
    cases hp : r.pc <;> simp only [hp, Run.getThreadId] at h ⊢
    · exact ⟨h.1, h.2.1, by omega⟩
    · exact ⟨h.1, h.2.1, by omega⟩
    · exact ⟨h.1, h.2.1, h.2.2.1, by omega⟩
    · exact ⟨h.1, h.2.1, h.2.2.1, by omega⟩
    · exact h
    · exact h
    · exact h

theorem keeps_of_step (h : x.step = some x') : Keeps cb x x' := by
  unfold step at h
  obtain ⟨r, hr, h⟩ := Option.bind_eq_some_iff.mp h
  -- what `Ok` says at the place of the thread
  have hok : x.Ok cb → _ := fun hok => by simpa only [Ok, hr] using hok
  have hearly : r.pc.taken = false → x.run.any (·.pc.taken) = true → False := fun hf ht => by
    simp [hr, hf] at ht
  split at h
  case h_1 hpc =>
    cases h
    rw [hpc] at hok hearly
    exact ⟨hok, by simp [hr], fun ht => (hearly rfl ht).elim⟩
  case h_2 hpc =>
    cases h
    rw [hpc] at hok hearly
    exact ⟨fun h => ⟨rfl, hok h⟩, by simp [hr], fun ht => (hearly rfl ht).elim⟩
  case h_3 hpc =>
    cases h
    rw [hpc] at hok hearly
    exact ⟨hok, by simp [hr], fun ht => (hearly rfl ht).elim⟩
  case h_4 hpc =>
    cases h
    rw [hpc] at hok hearly
    refine ⟨fun h => ?_, by simp [hr], fun ht => (hearly rfl ht).elim⟩
    obtain ⟨hid, hcb, hrcb, -⟩ := hok h
    exact ⟨hid, hrcb, hcb⟩
  case h_5 hpc =>
    cases h
    rw [hpc] at hok
    exact ⟨hok, by simp [hr], fun _ => ⟨rfl, rfl, rfl⟩⟩
  case h_6 hpc =>
    cases h
    rw [hpc] at hok
    exact ⟨hok, by simp [hr], fun _ => ⟨rfl, rfl, rfl⟩⟩
  case h_7 => cases h

theorem keeps_of_setName {name : Text} (h : x.setName name = some x') : Keeps cb x x' := by
  unfold setName at h
  obtain ⟨r, hr, h⟩ := Option.bind_eq_some_iff.mp h
  split at h
  · cases h
  · split at h
    · cases h
      exact .quiet rfl rfl le_rfl rfl
    · cases h
      exact .quiet rfl rfl le_rfl (by simp [hr])

theorem keeps_of_join (h : x.join = some x') : Keeps cb x x' := by
  unfold join at h
  split at h
  · obtain ⟨r, -, h⟩ := Option.bind_eq_some_iff.mp h
    split at h
    · cases h
      exact .quiet rfl rfl le_rfl rfl
    · cases h
  · cases h
    exact .quiet rfl rfl le_rfl rfl

theorem keeps_of_detach (x : Thread κ) : Keeps cb x x.detach := .quiet rfl rfl le_rfl rfl

end Thread

/-! ## The workers -/

variable {cfg : Config κ} {s s' : State κ} {i j : ℕ}

namespace State

theorem run?_put (s : State κ) (i j : ℕ) (x : Thread κ) :
    (s.put i x).run? j = if j = i then x.run else s.run? j := by
  by_cases hj : j = i
  · subst hj
    simp [run?, put]
  · simp [run?, put, hj]

theorem run?_update {o : Option (Thread κ)} {pc : Pc} {ids : List ThreadId} (h : j ≠ i) :
    (⟨pc, Function.update s.threads i o, ids⟩ : State κ).run? j = s.run? j := by
  simp [run?, h]

theorem act_cases {f : Thread κ → Option (Thread κ)} (h : s.act i f = some s') :
    ∃ x x', s.threads i = some x ∧ f x = some x' ∧ s' = s.put i x' := by
  obtain ⟨x', hb, rfl⟩ := Option.map_eq_some_iff.mp h
  obtain ⟨x, hx, hx'⟩ := Option.bind_eq_some_iff.mp hb
  exact ⟨x, x', hx, hx', rfl⟩

theorem run?_eq {x : Thread κ} (hx : s.threads i = some x) : s.run? i = x.run := by
  rw [run?, hx]
  rfl

end State

/-- What a step with label `a` does. -/
inductive Move (cfg : Config κ) (s : State κ) : Label → State κ → Prop
  | next {k} (hpc : s.pc = .loop k) (hk : k < cfg.threadCount) :
    Move cfg s .next { s.put k (.make (cfg.threadName k) cfg.cb) with pc := .create k }
  | ended {k} (hpc : s.pc = .loop k) (hk : cfg.threadCount ≤ k) :
    Move cfg s .next { s with pc := .ended }
  | create {k x} (tid : BitVec 32) (hpc : s.pc = .create k) (hx : s.threads k = some x) :
    Move cfg s (.create (some tid))
      { s.put k { x with thread := true, run := some { tid } } with pc := .wait k }
  | threw {k} (hpc : s.pc = .create k) :
    Move cfg s (.create none)
      { s with pc := .threw k, threads := Function.update s.threads k none }
  | wait {k x b sem} (hpc : s.pc = .wait k) (hx : s.threads k = some x)
    (hsem : Semphore.wait b x.sem = some sem) :
    Move cfg s (.wait b) { s.put k { x with sem } with pc := .record k }
  | record {k x} (hpc : s.pc = .record k) (hx : s.threads k = some x) :
    Move cfg s .record
      { s with pc := .loop (k + 1), threadIds := s.threadIds ++ [x.id.signExtend 64] }
  | act {a k x x'} (ha : a ≠ .wait true) (hx : s.threads k = some x) (hk : x.Keeps cfg.cb x') :
    Move cfg s a (s.put k x')

theorem move_of_step {a : Label} (hs : step cfg s a = some s') : Move cfg s a s' := by
  cases a with
  | next =>
    simp only [step] at hs
    split at hs
    · rename_i i hpc
      split at hs
      · rename_i hi
        cases hs
        exact .next hpc hi
      · rename_i hi
        cases hs
        exact .ended hpc (not_lt.mp hi)
    · cases hs
  | create tid =>
    cases tid with
    | none =>
      simp only [step] at hs
      split at hs
      · rename_i i hpc
        cases hs
        exact .threw hpc
      · cases hs
    | some tid =>
      simp only [step] at hs
      split at hs
      · rename_i i hpc
        obtain ⟨s₁, hs₁, rfl⟩ := Option.map_eq_some_iff.mp hs
        obtain ⟨x, x', hx, hx', rfl⟩ := State.act_cases hs₁
        cases hx'
        exact .create tid hpc hx
      · cases hs
  | wait b =>
    simp only [step] at hs
    split at hs
    · rename_i i hpc
      obtain ⟨s₁, hs₁, rfl⟩ := Option.map_eq_some_iff.mp hs
      obtain ⟨x, x', hx, hx', rfl⟩ := State.act_cases hs₁
      obtain ⟨sem, hsem, rfl⟩ := Option.map_eq_some_iff.mp hx'
      exact .wait hpc hx hsem
    · cases hs
  | record =>
    simp only [step] at hs
    split at hs
    · rename_i i hpc
      obtain ⟨x, hx, rfl⟩ := Option.map_eq_some_iff.mp hs
      exact .record hpc hx
    · cases hs
  | run i =>
    obtain ⟨x, x', hx, hx', rfl⟩ := State.act_cases hs
    exact .act (by simp) hx (Thread.keeps_of_step hx')
  | setName i name =>
    obtain ⟨x, x', hx, hx', rfl⟩ := State.act_cases hs
    exact .act (by simp) hx (Thread.keeps_of_setName hx')
  | join i =>
    obtain ⟨x, x', hx, hx', rfl⟩ := State.act_cases hs
    exact .act (by simp) hx (Thread.keeps_of_join hx')
  | detach i =>
    obtain ⟨x, x', hx, hx', rfl⟩ := State.act_cases hs
    cases hx'
    exact .act (by simp) hx x.keeps_of_detach

/-! ## The invariant -/

/-- The round that `start` is in is a round of the loop. -/
def Pc.InLoop (n : ℕ) : Pc → Prop
  | .loop i => i ≤ n
  | .create i | .wait i | .record i => i < n
  | .ended | .threw _ => True

/-- Each object is as its thread left it, the threads that were made are there, and those whose
constructor returned have taken their callback. -/
structure Inv (cfg : Config κ) (s : State κ) : Prop where
  ok : ∀ i x, s.threads i = some x → x.Ok cfg.cb
  inLoop : s.pc.InLoop cfg.threadCount
  built : ∀ i, s.pc = .create i → ∃ x, s.threads i = some x ∧ x.run = none
  started : ∀ i < s.pc.started cfg.threadCount, (s.run? i).isSome = true
  taken : ∀ i < s.pc.returned cfg.threadCount, (s.run? i).any (·.pc.taken) = true
  ids : s.threadIds = cfg.threadIds ++
    (List.range (s.pc.recorded cfg.threadCount)).filterMap fun i => (s.run? i).map Run.getThreadId

theorem Inv.init (cfg : Config κ) : Inv cfg { threadIds := cfg.threadIds } where
  ok i x hx := nomatch hx
  inLoop := Nat.zero_le _
  built i hi := nomatch hi
  started i hi := absurd hi (Nat.not_lt_zero i)
  taken i hi := absurd hi (Nat.not_lt_zero i)
  ids := by simp [Pc.recorded]

/-- A step on one object that keeps what it must. -/
theorem Inv.put (h : Inv cfg s) {x x' : Thread κ} (hx : s.threads i = some x)
    (hk : x.Keeps cfg.cb x') : Inv cfg (s.put i x') := by
  have hrun : s.run? i = x.run := State.run?_eq hx
  have htid : ∀ j, ((s.put i x').run? j).map Run.tid = (s.run? j).map Run.tid := by
    intro j
    rw [State.run?_put]
    split
    · rename_i hj
      rw [hk.tid, hj, hrun]
    · rfl
  refine ⟨fun j y hy => ?_, h.inLoop, fun j hj => ?_, fun j hj => ?_, fun j hj => ?_, ?_⟩
  · rcases update_cases hy with ⟨rfl, hxy⟩ | ⟨-, hy⟩
    · cases hxy
      exact hk.ok (h.ok j x hx)
    · exact h.ok j y hy
  · obtain ⟨y, hy, hyr⟩ := h.built j hj
    by_cases hji : j = i
    · subst hji
      cases hx.symm.trans hy
      have := hk.tid
      rw [hyr, Option.map_none, Option.map_eq_none_iff] at this
      exact ⟨x', by simp [State.put], this⟩
    · exact ⟨y, by simpa [State.put, hji] using hy, hyr⟩
  · rw [← Option.isSome_map (f := Run.tid), htid, Option.isSome_map]
    exact h.started j hj
  · have htj := h.taken j hj
    rw [State.run?_put]
    split
    · rename_i hji
      subst hji
      rw [hrun] at htj
      exact (hk.taken htj).1
    · exact htj
  · have hids : ∀ j,
        ((s.put i x').run? j).map Run.getThreadId = (s.run? j).map Run.getThreadId := by
      intro j
      have := congrArg (Option.map (BitVec.signExtend 64)) (htid j)
      rwa [Option.map_map, Option.map_map] at this
    simp only [hids]
    exact h.ids

/-- What the invariant says of the workers before `i`, in a state where they are the same. -/
theorem Inv.before (h : Inv cfg s) (s' : State κ) (hpc : s.pc = .loop i ∨ s.pc = .create i)
    (hrun : ∀ j < i, s'.run? j = s.run? j) (hids : s'.threadIds = s.threadIds) :
    (∀ j < i, (s'.run? j).isSome = true) ∧ (∀ j < i, (s'.run? j).any (·.pc.taken) = true) ∧
      s'.threadIds = cfg.threadIds ++
        (List.range i).filterMap fun j => (s'.run? j).map Run.getThreadId := by
  obtain ⟨hstarted, hret, hrec⟩ : s.pc.started cfg.threadCount = i ∧
      s.pc.returned cfg.threadCount = i ∧ s.pc.recorded cfg.threadCount = i := by
    rcases hpc with hpc | hpc <;> rw [hpc] <;> exact ⟨rfl, rfl, rfl⟩
  refine ⟨fun j hj => ?_, fun j hj => ?_, ?_⟩
  · rw [hrun j hj]
    exact h.started j (hstarted ▸ hj)
  · rw [hrun j hj]
    exact h.taken j (hret ▸ hj)
  · rw [hids, h.ids, hrec]
    refine congrArg _ (List.filterMap_congr fun j hj => ?_)
    rw [hrun j (List.mem_range.mp hj)]

/-- `start` makes the object of the next worker. -/
theorem Inv.next (h : Inv cfg s) (hpc : s.pc = .loop i) (hi : i < cfg.threadCount) :
    Inv cfg { s.put i (.make (cfg.threadName i) cfg.cb) with pc := .create i } := by
  obtain ⟨hstarted, htaken, hids⟩ := h.before
    { s.put i (.make (cfg.threadName i) cfg.cb) with pc := .create i } (.inl hpc)
    (fun j hj => State.run?_update hj.ne) rfl
  refine ⟨fun j y hy => ?_, hi, fun j hj => ?_, hstarted, htaken, hids⟩
  · rcases update_cases hy with ⟨rfl, hxy⟩ | ⟨-, hy⟩
    · cases hxy
      exact ⟨rfl, rfl⟩
    · exact h.ok j y hy
  · cases hj
    exact ⟨.make (cfg.threadName i) cfg.cb, by simp [State.put], rfl⟩

/-- `pthread_create` succeeds. -/
theorem Inv.create (h : Inv cfg s) (hpc : s.pc = .create i) {x : Thread κ}
    (hx : s.threads i = some x) (tid : BitVec 32) :
    Inv cfg { s.put i { x with thread := true, run := some { tid } } with pc := .wait i } := by
  obtain ⟨hstarted, htaken, hids⟩ := h.before
    { s.put i { x with thread := true, run := some { tid } } with pc := .wait i } (.inr hpc)
    (fun j hj => State.run?_update hj.ne) rfl
  have hin := h.inLoop
  rw [hpc] at hin
  refine ⟨fun j y hy => ?_, hin, fun j hj => (nomatch hj), fun j hj => ?_, htaken, hids⟩
  · rcases update_cases hy with ⟨rfl, hxy⟩ | ⟨-, hy⟩
    · obtain ⟨y, hy, hyr⟩ := h.built j hpc
      cases hx.symm.trans hy
      have hok := h.ok j x hx
      simp only [Thread.Ok, hyr] at hok
      cases hxy
      exact ⟨hok.1, rfl, hok.2⟩
    · exact h.ok j y hy
  · rcases Nat.lt_succ_iff_lt_or_eq.mp hj with hj | rfl
    · exact hstarted j hj
    · simp [State.run?, State.put]

/-- `pthread_create` fails: the object of that worker goes. -/
theorem Inv.throw (h : Inv cfg s) (hpc : s.pc = .create i) :
    Inv cfg { s with pc := .threw i, threads := Function.update s.threads i none } := by
  obtain ⟨hstarted, htaken, hids⟩ := h.before
    { s with pc := .threw i, threads := Function.update s.threads i none } (.inr hpc)
    (fun j hj => State.run?_update hj.ne) rfl
  refine ⟨fun j y hy => ?_, trivial, fun j hj => (nomatch hj), hstarted, htaken, hids⟩
  rcases update_cases hy with ⟨-, hxy⟩ | ⟨-, hy⟩
  · cases hxy
  · exact h.ok j y hy

/-- The wait returns, and the callback was taken. -/
theorem Inv.answered (h : Inv cfg s) (hpc : s.pc = .wait i)
    (ht : (s.run? i).any (·.pc.taken) = true) : Inv cfg { s with pc := .record i } := by
  have hin := h.inLoop
  have hstarted := h.started
  have hids := h.ids
  rw [hpc] at hin hstarted hids
  refine ⟨h.ok, hin, fun j hj => (nomatch hj), hstarted, fun j hj => ?_, hids⟩
  rcases Nat.lt_succ_iff_lt_or_eq.mp hj with hj | rfl
  · exact h.taken j (by simpa [hpc, Pc.returned] using hj)
  · exact ht

/-- The id is recorded. -/
theorem Inv.record (h : Inv cfg s) (hpc : s.pc = .record i) {x : Thread κ}
    (hx : s.threads i = some x) :
    Inv cfg { s with pc := .loop (i + 1), threadIds := s.threadIds ++ [x.id.signExtend 64] } := by
  have hin := h.inLoop
  have hstarted := h.started
  have htaken := h.taken
  have hids := h.ids
  rw [hpc] at hin hstarted htaken hids
  refine ⟨h.ok, hin, fun j hj => (nomatch hj), hstarted, htaken, ?_⟩
  have ht := htaken i (Nat.lt_succ_self i)
  rw [State.run?_eq hx, Option.any_eq_true] at ht
  obtain ⟨r, hr, hr'⟩ := ht
  obtain ⟨r', hr'', hid, -⟩ := (h.ok i x hx).handed hr hr'
  cases hr.symm.trans hr''
  have hrun : (s.run? i).map Run.getThreadId = some (x.id.signExtend 64) := by
    rw [State.run?_eq hx, hr, Option.map_some, hid, r.setWidth_getThreadId, Run.getThreadId]
  have hsucc : (List.range (i + 1)).filterMap (fun j => (s.run? j).map Run.getThreadId) =
      (List.range i).filterMap (fun j => (s.run? j).map Run.getThreadId) ++
        [x.id.signExtend 64] := by
    rw [List.range_succ, List.filterMap_append]
    simp [hrun]
  simp only [Pc.recorded] at hids ⊢
  rw [hids, List.append_assoc]
  exact congrArg _ hsucc.symm

/-- The loop ends when all workers are there. -/
theorem Inv.ended (h : Inv cfg s) (hpc : s.pc = .loop i) (hi : cfg.threadCount ≤ i) :
    Inv cfg { s with pc := .ended } := by
  have hin := h.inLoop
  rw [hpc] at hin
  have hn : cfg.threadCount = i := le_antisymm hi hin
  obtain ⟨hstarted, htaken, hids⟩ := h.before { s with pc := .ended } (.inl hpc) (fun j _ => rfl) rfl
  rw [← hn] at hstarted htaken hids
  exact ⟨h.ok, trivial, fun j hj => (nomatch hj), hstarted, htaken, hids⟩

/-- The thread that a constructor waits for runs. -/
theorem Inv.awaited (h : Inv cfg s) (hpc : s.pc = .wait i) {x : Thread κ}
    (hx : s.threads i = some x) : ∃ r, x.run = some r := by
  have hi : i < s.pc.started cfg.threadCount := by
    rw [hpc]
    exact Nat.lt_succ_self i
  have hr := h.started i hi
  rw [State.run?_eq hx] at hr
  exact Option.isSome_iff_exists.mp hr

/-- A wait that returns, after a post or as the condition on the run allows. -/
theorem Inv.waited (h : Inv cfg s) {b : Bool} (hc : Heard s (.wait b)) (hpc : s.pc = .wait i)
    {x : Thread κ} (hx : s.threads i = some x) {sem : ℕ} (hsem : Semphore.wait b x.sem = some sem) :
    Inv cfg { s.put i { x with sem } with pc := .record i } := by
  have hle : sem ≤ x.sem := Semphore.wait_le hsem
  have hk : x.Keeps cfg.cb { x with sem } := .quiet rfl rfl hle rfl
  refine (h.put hx hk).answered hpc ?_
  rw [State.run?_put, if_pos rfl]
  cases b with
  | true =>
    have ht := hc i (by simp [interrupted, hpc])
    rwa [State.run?_eq hx] at ht
  | false =>
    obtain ⟨r, hr⟩ := h.awaited hpc hx
    have ht := (h.ok i x hx).taken_of_sem hr (Semphore.ne_zero_of_wait hsem)
    simpa [hr] using ht

theorem inv_step (s : State κ) (a : Label) (s' : State κ) (h : Inv cfg s) (hc : Heard s a)
    (hs : step cfg s a = some s') : Inv cfg s' := by
  cases move_of_step hs with
  | next hpc hi => exact h.next hpc hi
  | ended hpc hi => exact h.ended hpc hi
  | create tid hpc hx => exact h.create hpc hx tid
  | threw hpc => exact h.throw hpc
  | wait hpc hx hsem => exact h.waited hc hpc hx hsem
  | record hpc hx => exact h.record hpc hx
  | act ha hx hk => exact h.put hx hk

theorem inv_inductive (cfg : Config κ) : (sys cfg).Inductive Heard (Inv cfg) where
  init _ hs := hs ▸ Inv.init cfg
  step := inv_step

/-! ## What no later step writes -/

/-- The constructor of the worker `i` has returned, its callback was taken, and `m_id` and `m_cb`
are those of `x`. -/
structure Settled (cfg : Config κ) (i : ℕ) (x : Thread κ) (s : State κ) : Prop where
  past : s.pc = .ended ∨ i < s.pc.returned cfg.threadCount
  same : ∃ x', s.threads i = some x' ∧ x'.run.any (·.pc.taken) = true ∧ x'.id = x.id ∧ x'.cb = x.cb

variable {x : Thread κ}

/-- A step on another object, or on none. -/
theorem Settled.other (h : Settled cfg i x s)
    (hpast : s'.pc = .ended ∨ i < s'.pc.returned cfg.threadCount)
    (hsame : s'.threads i = s.threads i) : Settled cfg i x s' :=
  ⟨hpast, hsame ▸ h.same⟩

theorem Settled.put (h : Settled cfg i x s) {y y' : Thread κ} (hy : s.threads j = some y)
    (hk : y.Keeps cfg.cb y') : Settled cfg i x (s.put j y') := by
  by_cases hij : i = j
  · subst hij
    obtain ⟨x', hx', ht, hid, hcb⟩ := h.same
    cases hx'.symm.trans hy
    obtain ⟨ht', hid', hcb'⟩ := hk.taken ht
    exact ⟨h.past, y', by simp [State.put], ht', hid'.trans hid, hcb'.trans hcb⟩
  · exact h.other h.past (by simp [State.put, hij])

/-- `start` builds only the objects of later workers. -/
theorem settled_step (s : State κ) (a : Label) (s' : State κ) (h : Settled cfg i x s)
    (hs : step cfg s a = some s') : Settled cfg i x s' := by
  have hlt : ∀ pc, s.pc = pc → pc ≠ .ended → i < pc.returned cfg.threadCount := by
    rintro pc rfl hne
    exact h.past.resolve_left hne
  cases move_of_step hs with
  | @next k hpc hk =>
    have hik : i < k := hlt _ hpc (by simp)
    exact h.other (.inr hik) (by simp [State.put, hik.ne])
  | ended hpc hk => exact h.other (.inl rfl) rfl
  | @create k y tid hpc hy =>
    have hik : i < k := hlt _ hpc (by simp)
    exact h.other (.inr hik) (by simp [State.put, hik.ne])
  | @threw k hpc =>
    have hik : i < k := hlt _ hpc (by simp)
    exact h.other (.inr hik) (by simp [hik.ne])
  | @wait k y b sem hpc hy hsem =>
    have hik : i < k := hlt _ hpc (by simp)
    exact h.other (.inr (Nat.lt_succ_of_lt hik)) (by simp [State.put, hik.ne])
  | @record k y hpc hy =>
    have hik : i < k + 1 := hlt _ hpc (by simp)
    exact h.other (.inr hik) rfl
  | act ha hy hk => exact h.put hy hk

/-- Once taken, a callback stays taken, and `m_id` and `m_cb` stay as they are in every run. -/
theorem Settled.steps (h : Settled cfg i x s) (hr : (sys cfg).Steps Sys.free s s') :
    Settled cfg i x s' :=
  hr.keeps (fun s a s' h _ hs => settled_step s a s' h hs) h

theorem RunPc.not_writes {pc : RunPc} (h : pc.taken = true) : pc.writes = false := by
  cases pc <;> first | rfl | cases h

/-! ## The handshake -/

theorem Inv.met (h : Inv cfg s) : Met cfg s where
  handed i hi := by
    obtain ⟨r, hr, ht⟩ := (Option.any_eq_true _ _).mp (h.taken i hi)
    obtain ⟨x, hx, hxr⟩ := Option.bind_eq_some_iff.mp hr
    exact ⟨x, hx, (h.ok i x hx).handed hxr ht⟩
  ids := h.ids
  final i hi x hx s' hr := by
    have ht := h.taken i hi
    rw [State.run?_eq hx] at ht
    have hset : Settled cfg i x s := ⟨.inr hi, x, hx, ht, rfl, rfl⟩
    obtain ⟨-, x', hx', ht', hid, hcb⟩ := hset.steps hr
    refine ⟨x', hx', hid, hcb, fun r hr => ?_⟩
    rw [Option.mem_def.mp hr] at ht'
    exact RunPc.not_writes ht'

theorem interrupted_eq_some {a : Label} (h : interrupted s a = some i) :
    s.pc = .wait i ∧ a = .wait true := by
  simp only [interrupted] at h
  split at h
  · rename_i k hpc
    cases h
    exact ⟨hpc, rfl⟩
  · cases h

/-- After an interrupted wait before the swap the callback is still in the object. -/
theorem Inv.not_met (h : Inv cfg s) {a : Label} (hs : step cfg s a = some s') (hc : ¬ Heard s a) :
    ¬ Met cfg s' := by
  simp only [Heard, not_forall] at hc
  obtain ⟨i, hi, ht⟩ := hc
  obtain ⟨hpc, rfl⟩ := interrupted_eq_some hi
  intro hm
  cases move_of_step hs with
  | @wait k x b sem hpc' hx hsem =>
    cases hpc.symm.trans hpc'
    obtain ⟨r, hr⟩ := h.awaited hpc hx
    rw [State.run?_eq hx, hr, Option.any_some, Bool.not_eq_true] at ht
    have hcb := (h.ok i x hx).cb_of_not_taken hr ht
    obtain ⟨y, hy, -, -, -, hnone, -⟩ := hm.handed i (Nat.lt_succ_self i)
    rcases update_cases hy with ⟨-, hxy⟩ | ⟨hne, -⟩
    · cases hxy
      cases hcb.symm.trans hnone
    · exact hne rfl
  | act ha => exact ha rfl

/-- The handshake holds in every state of a run whose interrupted waits all come after the callback
was taken; any other interrupted wait breaks it. -/
theorem start_handshake (cfg : Config κ) :
    (∀ s, (sys cfg).Reach Heard s → Met cfg s) ∧
      ∀ s a s', (sys cfg).Reach Heard s → step cfg s a = some s' → ¬ Heard s a → ¬ Met cfg s' :=
  ⟨fun _ hr => ((inv_inductive cfg).reach hr).met,
    fun _ _ _ hr hs hc => ((inv_inductive cfg).reach hr).not_met hs hc⟩

/-- One worker. -/
def oneWorker : Config ℕ := { name := "io".toList, threadCount := 1, cb := 5 }

/-- A signal arrives after the swap and before the post. -/
theorem start_handshake_interrupted : ∃ s, (sys oneWorker).Reach Heard s ∧
    s.pc = .loop 1 ∧ s.threadIds = [7] ∧ Met oneWorker s := by
  let labels : List Label :=
    [.next, .create (some 7), .run 0, .run 0, .run 0, .run 0, .wait true, .record]
  obtain ⟨s, hs, hp⟩ := Sys.exists_of_runBy (S := sys oneWorker) (C := Heard)
    (s := { threadIds := [] }) labels (p := fun s => s.pc = .loop 1 ∧ s.threadIds = [7])
    (by decide +kernel)
  have hr : (sys oneWorker).Reach Heard s := ⟨_, rfl, hs⟩
  have hp := of_decide_eq_true hp
  exact ⟨s, hr, hp.1, hp.2, (start_handshake oneWorker).1 s hr⟩

/-- A signal arrives before the new thread runs: `start` records `-1`, and the id and the callback
are written later. -/
theorem wait_interrupted : ∃ s, (sys oneWorker).Reach Sys.free s ∧ ¬ Met oneWorker s ∧
    s.pc = .loop 1 ∧ s.threadIds = [BitVec.allOnes 64] ∧
    ∃ s', (sys oneWorker).Steps Sys.free s s' ∧
      (s.threads 0).map (fun x => (x.id, x.cb)) = some (-1, some 5) ∧
      (s'.threads 0).map (fun x => (x.id, x.cb)) = some (7, none) := by
  let early (s : State ℕ) : Bool :=
    s.pc = .loop 1 ∧ s.threadIds = [BitVec.allOnes 64] ∧
      (s.threads 0).map (fun x => (x.id, x.cb)) = some (-1, some 5)
  let late (s : State ℕ) : Bool := (s.threads 0).map (fun x => (x.id, x.cb)) = some (7, none)
  let rest : List Label := [.run 0, .run 0, .run 0, .run 0]
  obtain ⟨s, hs, hp⟩ := Sys.exists_of_runBy (S := sys oneWorker) (C := Sys.free)
    (s := { threadIds := [] }) [.next, .create (some 7), .wait true, .record]
    (p := fun s => early s && ((sys oneWorker).runBy Sys.free s rest).any late) (by decide +kernel)
  obtain ⟨hearly, hlate⟩ := Bool.and_eq_true_iff.mp hp
  obtain ⟨hpc, hids, hx⟩ := of_decide_eq_true hearly
  obtain ⟨s', hs', hp'⟩ := Sys.exists_of_runBy rest hlate
  refine ⟨s, ⟨_, rfl, hs⟩, fun hm => ?_, hpc, hids, s', hs', hx, of_decide_eq_true hp'⟩
  obtain ⟨x, hx₀, -, -, -, hcb, -⟩ := hm.handed 0 (by rw [hpc]; exact Nat.one_pos)
  rw [hx₀, Option.map_some, hcb] at hx
  simp at hx

end Ddg.Start
