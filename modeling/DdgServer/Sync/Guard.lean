import Mathlib.Data.List.Induction
import DdgServer.Lib.Sys
import DdgServer.Lib.Count

/-!
# Scoped locks

`ScopedLockImpl`, `ReadScopedLockImpl` and `WriteScopedLockImpl` of `ddg/mutex.h`. A guard calls
its mutex and keeps the flag `m_islocked`. `Mutex` and `RWMutex` make a `std::logic_error` of a
failed call but do not throw it, so the guard goes on as after a call that succeeded; and the
constructor of `WriteScopedLockImpl` clears the flag after `wrlock()`.

- **One guard** (`Guard.after`): any calls of `lock()` and `unlock()`, with any results of the
  acquisitions. `accounted_iff`: the flag and the releases are right exactly if each acquisition
  ends as the flag says that it did (`Succeeds`).
- **One `RWMutex`** (`sys`): the guards of any number of threads. `free_of_reach`: in the runs in
  which the acquisitions end so (`Flagged`), the mutex is free once all guards are gone.
-/

namespace Ddg

/-- What a guard calls to acquire its mutex. -/
inductive Acquire where
  | lock | rdlock | wrlock
  deriving DecidableEq

/-- A class of guards: its acquisition, and what its constructor sets `m_islocked` to. -/
structure GuardClass where
  acquire : Acquire
  initial : Bool
  deriving DecidableEq

def ScopedLockImpl : GuardClass := ⟨.lock, true⟩

def ReadScopedLockImpl : GuardClass := ⟨.rdlock, true⟩

def WriteScopedLockImpl : GuardClass := ⟨.wrlock, false⟩

structure Guard where
  cls : GuardClass
  islocked : Bool
  deriving DecidableEq

/-- The constructor, which calls the acquisition. -/
def GuardClass.make (c : GuardClass) : Guard := ⟨c, c.initial⟩

namespace Guard

variable (g : Guard)

/-- `lock()`, with whether it calls the acquisition. -/
def lock : Guard × Bool := if !g.islocked then ({ g with islocked := true }, true) else (g, false)

/-- `unlock()`, which the destructor calls, with whether it calls the mutex. -/
def unlock : Guard × Bool := if g.islocked then ({ g with islocked := false }, true) else (g, false)

/-- What a guard has done to its mutex: the holds that it has, its successful acquisitions, its
releases, and whether it released a hold that it did not have. -/
structure Ledger where
  holds : ℕ := 0
  acquired : ℕ := 0
  released : ℕ := 0
  stray : Bool := false
  deriving DecidableEq

/-- An acquisition, which succeeds iff `ok`. -/
def Ledger.acquire (l : Ledger) (ok : Bool) : Ledger :=
  if ok then { l with holds := l.holds + 1, acquired := l.acquired + 1 } else l

def Ledger.release (l : Ledger) : Ledger :=
  { l with holds := l.holds - 1, released := l.released + 1, stray := l.stray || l.holds == 0 }

/-- A call; `ok`: the acquisition succeeds if it is called. -/
inductive Op where
  | lock (ok : Bool)
  | unlock

def step (s : Guard × Ledger) : Op → Guard × Ledger
  | .lock ok => (s.1.lock.1, if s.1.lock.2 then s.2.acquire ok else s.2)
  | .unlock => (s.1.unlock.1, if s.1.unlock.2 then s.2.release else s.2)

/-- A guard that was constructed, with the acquisition ending in `ok`, after the calls `ops`. -/
def after (c : GuardClass) (ok : Bool) (ops : List Op) : Guard × Ledger :=
  ops.foldl step (c.make, ({} : Ledger).acquire ok)

/-- The accounts of a guard with the calls `ops`, and its destructor after them. -/
structure Accounted (c : GuardClass) (ok : Bool) (ops : List Op) : Prop where
  flag : ∀ pre, pre <+: ops → ((after c ok pre).1.islocked = true ↔ 0 < (after c ok pre).2.holds)
  relock : ∀ pre b, pre ++ [.lock b] <+: ops → 0 < (after c ok pre).2.holds →
    (after c ok (pre ++ [.lock b])).2 = (after c ok pre).2
  stray : ∀ pre, pre <+: ops ++ [.unlock] → (after c ok pre).2.stray = false
  balance : (after c ok (ops ++ [.unlock])).2.released = (after c ok (ops ++ [.unlock])).2.acquired

/-- The constructor's acquisition succeeds iff the constructor sets the flag, and each later one
that is called succeeds. -/
def Succeeds (c : GuardClass) (ok : Bool) (ops : List Op) : Prop :=
  ok = c.initial ∧ ∀ pre b, pre ++ [.lock b] <+: ops → (after c ok pre).1.islocked = false → b = true

/-! ### One guard -/

variable {c : GuardClass} {ok : Bool} {ops : List Op}

theorem after_concat (c : GuardClass) (ok : Bool) (ops : List Op) (op : Op) :
    after c ok (ops ++ [op]) = step (after c ok ops) op := by
  rw [after, List.foldl_append]
  rfl

/-- The flag is the hold, and the books are even. -/
structure Even (s : Guard × Ledger) : Prop where
  holds : s.2.holds = s.1.islocked.toNat
  books : s.2.acquired = s.2.released + s.2.holds
  stray : s.2.stray = false

theorem Even.lock {s : Guard × Ledger} (h : Even s) {b : Bool}
    (hb : s.1.islocked = false → b = true) : Even (step s (.lock b)) := by
  obtain ⟨⟨cls, islocked⟩, l⟩ := s
  obtain ⟨hh, hbooks, hs⟩ := h
  cases islocked with
  | true => exact ⟨hh, hbooks, hs⟩
  | false =>
    obtain rfl := hb rfl
    simp only [Bool.toNat_false] at hh
    refine ⟨?_, ?_, hs⟩
    · simp [step, Guard.lock, Ledger.acquire, hh]
    · simp only [step, Guard.lock, Ledger.acquire, Bool.not_false, if_true] at hbooks ⊢
      omega

theorem Even.unlock {s : Guard × Ledger} (h : Even s) : Even (step s .unlock) := by
  obtain ⟨⟨cls, islocked⟩, l⟩ := s
  obtain ⟨hh, hbooks, hs⟩ := h
  cases islocked with
  | false => exact ⟨hh, hbooks, hs⟩
  | true =>
    simp only [Bool.toNat_true] at hh
    refine ⟨?_, ?_, ?_⟩
    · simp [step, Guard.unlock, Ledger.release, hh]
    · simp only [step, Guard.unlock, Ledger.release, if_true] at hbooks ⊢
      omega
    · simp only at hs
      simp [step, Guard.unlock, Ledger.release, hh, hs]

theorem Succeeds.even (h : Succeeds c ok ops) {pre : List Op} (hpre : pre <+: ops) :
    Even (after c ok pre) := by
  induction pre using List.reverseRecOn with
  | nil =>
    obtain ⟨rfl, -⟩ := h
    obtain ⟨a, b⟩ := c
    cases b <;> exact ⟨rfl, rfl, rfl⟩
  | append_singleton pre op ih =>
    have hev := ih ((List.prefix_append pre [op]).trans hpre)
    rw [after_concat]
    cases op with
    | lock b => exact hev.lock (h.2 pre b hpre)
    | unlock => exact hev.unlock

theorem Succeeds.accounted (h : Succeeds c ok ops) : Accounted c ok ops := by
  have hlast : Even (after c ok (ops ++ [.unlock])) := by
    rw [after_concat]
    exact (h.even List.prefix_rfl).unlock
  refine ⟨fun pre hpre => ?_, fun pre b hpre hpos => ?_, fun pre hpre => ?_, ?_⟩
  · have hh := (h.even hpre).holds
    cases hl : (after c ok pre).1.islocked <;> simp [hh, hl]
  · have hh := (h.even ((List.prefix_append pre _).trans hpre)).holds
    rw [after_concat]
    cases hl : (after c ok pre).1.islocked with
    | true => simp [step, Guard.lock, hl]
    | false =>
      rw [hl, Bool.toNat_false] at hh
      omega
  · rcases List.prefix_concat_iff.mp hpre with rfl | hpre
    · exact hlast.stray
    · exact (h.even hpre).stray
  · have hbooks := hlast.books
    have hfree : (after c ok (ops ++ [.unlock])).1.islocked = false := by
      rw [after_concat]
      cases hl : (after c ok ops).1.islocked <;> simp [step, Guard.unlock, hl]
    rw [hlast.holds, hfree, Bool.toNat_false] at hbooks
    omega

/-- A guard whose flag is right at every point has acquired as the flag says. -/
theorem Accounted.succeeds (h : Accounted c ok ops) : Succeeds c ok ops := by
  refine ⟨?_, fun pre b hpre hl => ?_⟩
  · have hflag := h.flag [] List.nil_prefix
    obtain ⟨acquire, initial⟩ := c
    cases ok <;> cases initial <;> simp [after, GuardClass.make, Ledger.acquire] at hflag <;> rfl
  · have hold := h.flag pre ((List.prefix_append pre _).trans hpre)
    have hnew := h.flag _ hpre
    rw [after_concat] at hnew
    cases b with
    | true => rfl
    | false =>
      simp only [hl, Bool.false_eq_true, false_iff] at hold
      simp [step, Guard.lock, hl, Ledger.acquire] at hnew
      omega

/-- **The accounts of a guard are right exactly if each acquisition ends as the flag says.** -/
theorem accounted_iff : Accounted c ok ops ↔ Succeeds c ok ops :=
  ⟨Accounted.succeeds, Succeeds.accounted⟩

end Guard

/-! ### One `RWMutex` -/

/-- `RWMutex` on `pthread_rwlock_t`: the read holds, and the thread that has the write hold. -/
structure RWMutex (θ : Type) where
  readers : ℕ := 0
  writer : Option θ := none
  deriving DecidableEq

namespace RWMutex

variable {θ : Type} (m : RWMutex θ)

/-- An acquisition by the thread `t` that returns, with success iff `ok`; `none`: it blocks. A
failure (`EDEADLK`, `EAGAIN`) changes nothing. The class has no `lock()`. -/
def acquire (t : θ) : Acquire → Bool → Option (RWMutex θ)
  | .rdlock, true => if m.writer = none then some { m with readers := m.readers + 1 } else none
  | .wrlock, true => if m.writer = none ∧ m.readers = 0 then some { m with writer := t } else none
  | .rdlock, false | .wrlock, false => some m
  | .lock, _ => none

/-- `unlock()` by the thread `t`; `none`: without a hold its behaviour is undefined. -/
def unlock [DecidableEq θ] (t : θ) : Option (RWMutex θ) :=
  if m.writer = some t then some { m with writer := none }
  else if m.readers = 0 then none
  else some { m with readers := m.readers - 1 }

section Section

variable [DecidableEq θ] (t : θ)

/-- A guard that the thread `t` makes. With the write hold its own, the thread gets `EDEADLK`, and the
guard goes on; `none`: it waits. -/
def guard (a : Acquire) : Option (RWMutex θ) := m.acquire t a (!decide (m.writer = some t))

/-- A section of the thread `t` with a `ReadLock`; `none`: it waits, or its end is undefined. -/
def readSection (f : RWMutex θ → Option (RWMutex θ)) : Option (RWMutex θ) :=
  ((m.guard t .rdlock).bind f).bind fun m => m.unlock t

variable {m t} {u : θ} {a : Acquire} {f : RWMutex θ → Option (RWMutex θ)}

theorem guard_read (h : m.writer = none) :
    m.guard t .rdlock = some { m with readers := m.readers + 1 } := by
  simp [guard, acquire, h]

/-- A read hold that the thread got is what its `unlock()` gives back. -/
theorem unlock_read (h : m.writer = none) :
    ({ m with readers := m.readers + 1 } : RWMutex θ).unlock t = some m := by
  obtain ⟨readers, writer⟩ := m
  obtain rfl : writer = none := h
  simp [unlock]

theorem guard_own (h : m.writer = some t) (ha : a ≠ .lock) : m.guard t a = some m := by
  cases a with
  | lock => exact absurd rfl ha
  | rdlock | wrlock => simp [guard, acquire, h]

/-- The thread waits for the write hold of another one. -/
theorem guard_other (hne : u ≠ t) (h : m.writer = some u) : m.guard t a = none := by
  cases a <;> simp [guard, acquire, h, hne]

variable (m t) in
/-- No other thread has the write hold. -/
def OpenTo : Prop := ∀ u, m.writer = some u → u = t

/-- What a `WriteLock` leaves. -/
theorem guard_write (hq : m.readers = 0) (h : m.OpenTo t) :
    m.guard t .wrlock = some { writer := some t } := by
  obtain ⟨readers, writer⟩ := m
  obtain rfl : readers = 0 := hq
  cases writer with
  | none => rfl
  | some u =>
    obtain rfl := h u rfl
    exact guard_own rfl (by rintro ⟨⟩)

theorem guard_wrlock_isSome (hq : m.readers = 0) : (m.guard t .wrlock).isSome ↔ m.OpenTo t := by
  constructor
  · intro h u hu
    by_contra hne
    rw [guard_other hne hu] at h
    cases h
  · intro h
    rw [guard_write hq h]
    rfl

/-- A section changes nothing where nobody has the write hold. -/
theorem readSection_free (h : m.writer = none)
    (hf : ∀ m', m'.writer = none → f m' = some m') : m.readSection t f = some m := by
  rw [readSection, guard_read h, Option.bind_some, hf { m with readers := m.readers + 1 } h,
    Option.bind_some, unlock_read h]

/-- The end of a section releases the write hold of its thread. -/
theorem readSection_own (h : m.writer = some t) (hf : f m = some m) :
    m.readSection t f = some { m with writer := none } := by
  rw [readSection, guard_own h (by rintro ⟨⟩), Option.bind_some, hf, Option.bind_some, unlock,
    if_pos h]

theorem readSection_other (hne : u ≠ t) (h : m.writer = some u) : m.readSection t f = none := by
  rw [readSection, guard_other hne h]
  rfl

end Section

/-- The mutex and the guards that were made of it, each with its thread; `none`: destroyed. -/
structure Guarded (θ : Type) where
  mutex : RWMutex θ := {}
  guards : List (Option (θ × Guard)) := []
  deriving DecidableEq

/-- A step of a thread; `ok`: the acquisition that it calls succeeds. -/
inductive Label (θ : Type) where
  | make (t : θ) (c : GuardClass) (ok : Bool)
  | lock (i : ℕ) (ok : Bool)
  | unlock (i : ℕ)
  | destroy (i : ℕ)

def Guarded.step [DecidableEq θ] (s : Guarded θ) : Label θ → Option (Guarded θ)
  | .make t c ok => (s.mutex.acquire t c.acquire ok).map fun m =>
      { mutex := m, guards := s.guards ++ [some (t, c.make)] }
  | .lock i ok =>
    match s.guards[i]? with
    | some (some (t, g)) =>
      if g.lock.2 then (s.mutex.acquire t g.cls.acquire ok).map fun m =>
        { mutex := m, guards := s.guards.set i (some (t, g.lock.1)) }
      else some s
    | _ => none
  | .unlock i =>
    match s.guards[i]? with
    | some (some (t, g)) =>
      if g.unlock.2 then (s.mutex.unlock t).map fun m =>
        { mutex := m, guards := s.guards.set i (some (t, g.unlock.1)) }
      else some s
    | _ => none
  | .destroy i =>
    match s.guards[i]? with
    | some (some (t, g)) =>
      if g.unlock.2 then (s.mutex.unlock t).map fun m =>
        { mutex := m, guards := s.guards.set i none }
      else some { s with guards := s.guards.set i none }
    | _ => none

/-- The mutex at its start, and the steps of the threads that use it through guards. -/
def sys (θ : Type) [DecidableEq θ] : Interleave.Sys (Guarded θ) (Label θ) where
  init s := s = {}
  step s a := s.step a

/-- The acquisition ends as the flag of the guard says after it. -/
def Flagged (s : Guarded θ) : Label θ → Prop
  | .make _ c ok => ok = c.initial
  | .lock i ok => ∀ x ∈ s.guards[i]?.join, x.2.islocked = false → ok = true
  | _ => True

instance : ∀ (s : Guarded θ) (a : Label θ), Decidable (Flagged s a)
  | _, .make _ c ok => inferInstanceAs (Decidable (ok = c.initial))
  | s, .lock i ok =>
    inferInstanceAs (Decidable (∀ x ∈ s.guards[i]?.join, x.2.islocked = false → ok = true))
  | _, .unlock _ | _, .destroy _ => .isTrue trivial

/-- One for a guard with a hold of that kind. -/
def holds (a : Acquire) : Option (θ × Guard) → ℕ
  | some (_, g) => (g.islocked && g.cls.acquire == a).toNat
  | none => 0

/-- The read holds and the write hold of the mutex are those of the guards. -/
structure Owned (s : Guarded θ) : Prop where
  readers : s.mutex.readers = (s.guards.map (holds .rdlock)).sum
  writer : s.mutex.writer.isSome.toNat = (s.guards.map (holds .wrlock)).sum
  thread : ∀ t g, some (t, g) ∈ s.guards → g.islocked = true → g.cls.acquire = .wrlock →
    s.mutex.writer = some t
  alone : s.mutex.writer.isSome = true → s.mutex.readers = 0
  classes : ∀ t g, some (t, g) ∈ s.guards → g.cls.acquire ≠ .lock

variable {s s' : Guarded θ} {m : RWMutex θ} {t : θ} {g : Guard} {i : ℕ} {ok : Bool}

theorem holds_le {l : List (Option (θ × Guard))} (a : Acquire) {x : Option (θ × Guard)}
    (h : x ∈ l) : holds a x ≤ (l.map (holds a)).sum :=
  List.le_sum_of_mem (List.mem_map_of_mem h)

theorem holds_locked (t : θ) (h : g.islocked = true) : holds g.cls.acquire (some (t, g)) = 1 := by
  simp [holds, h]

/-- What changes the guards but not the holds. -/
theorem Owned.same (h : Owned s) {guards : List (Option (θ × Guard))}
    (hsum : ∀ a, (guards.map (holds a)).sum = (s.guards.map (holds a)).sum)
    (hlocked : ∀ t g, some (t, g) ∈ guards → g.islocked = true → some (t, g) ∈ s.guards)
    (hclasses : ∀ t g, some (t, g) ∈ guards → g.cls.acquire ≠ .lock) :
    Owned { s with guards } where
  readers := by rw [hsum, h.readers]
  writer := by rw [hsum, h.writer]
  thread t g hg hl := h.thread t g (hlocked t g hg hl) hl
  alone := h.alone
  classes := hclasses

/-- A guard of the thread `t` acquires. -/
theorem Owned.acquire (h : Owned s) {a : Acquire} (hm : s.mutex.acquire t a true = some m)
    {guards : List (Option (θ × Guard))}
    (hsum : ∀ k, (guards.map (holds k)).sum = (s.guards.map (holds k)).sum + (a == k).toNat)
    (hlocked : ∀ t' g, some (t', g) ∈ guards → g.islocked = true →
      some (t', g) ∈ s.guards ∨ (t' = t ∧ g.cls.acquire = a))
    (hclasses : ∀ t g, some (t, g) ∈ guards → g.cls.acquire ≠ .lock) :
    Owned { mutex := m, guards } := by
  have hread := hsum .rdlock
  have hwrite := hsum .wrlock
  rw [← h.readers] at hread
  rw [← h.writer] at hwrite
  cases a with
  | lock => cases hm
  | rdlock =>
    obtain ⟨hfree, rfl⟩ : s.mutex.writer = none ∧
        { s.mutex with readers := s.mutex.readers + 1 } = m := by
      simpa [RWMutex.acquire] using hm
    refine ⟨hread.symm, by rw [hwrite]; rfl, fun t' g hg hl ha => ?_, fun hw => ?_, hclasses⟩
    · rcases hlocked t' g hg hl with hold | ⟨-, hr⟩
      · exact h.thread t' g hold hl ha
      · rw [ha] at hr
        contradiction
    · simp [hfree] at hw
  | wrlock =>
    obtain ⟨⟨hfree, hzero⟩, rfl⟩ : (s.mutex.writer = none ∧ s.mutex.readers = 0) ∧
        { s.mutex with writer := some t } = m := by
      simpa [RWMutex.acquire] using hm
    refine ⟨by rw [hread]; rfl, ?_, fun t' g hg hl ha => ?_, fun _ => hzero, hclasses⟩
    · rw [hwrite, hfree]
      rfl
    · rcases hlocked t' g hg hl with hold | ⟨rfl, -⟩
      · have := h.thread t' g hold hl ha
        rw [hfree] at this
        contradiction
      · rfl

/-- A new guard whose acquisition ends as its flag says. -/
theorem Owned.make (h : Owned s) {c : GuardClass}
    (hm : s.mutex.acquire t c.acquire c.initial = some m) :
    Owned { mutex := m, guards := s.guards ++ [some (t, c.make)] } := by
  have hne : c.acquire ≠ .lock := by
    intro he
    rw [he] at hm
    cases hm
  have hclasses : ∀ t' g, some (t', g) ∈ s.guards ++ [some (t, c.make)] →
      g.cls.acquire ≠ .lock := by
    intro t' g hg
    rcases List.mem_append.mp hg with hg | hg
    · exact h.classes t' g hg
    · cases List.mem_singleton.mp hg
      exact hne
  cases hc : c.initial with
  | true =>
    rw [hc] at hm
    refine h.acquire hm (fun k => ?_) (fun t' g hg hl => ?_) hclasses
    · simp [holds, GuardClass.make, hc]
    · rcases List.mem_append.mp hg with hg | hg
      · exact .inl hg
      · cases List.mem_singleton.mp hg
        exact .inr ⟨rfl, rfl⟩
  | false =>
    have hm' : s.mutex = m := by
      rw [hc] at hm
      cases ha : c.acquire <;> rw [ha] at hm <;> cases hm <;> rfl
    subst hm'
    refine h.same (fun k => ?_) (fun t' g hg hl => ?_) hclasses
    · simp [holds, GuardClass.make, hc]
    · rcases List.mem_append.mp hg with hg | hg
      · exact hg
      · cases List.mem_singleton.mp hg
        rw [GuardClass.make, hc] at hl
        contradiction

/-- The guard `i` acquires again. -/
theorem Owned.lock (h : Owned s) (hi : s.guards[i]? = some (some (t, g)))
    (hl : g.islocked = false) (hm : s.mutex.acquire t g.cls.acquire true = some m) :
    Owned { mutex := m, guards := s.guards.set i (some (t, { g with islocked := true })) } := by
  obtain ⟨hlt, hget⟩ := List.getElem?_eq_some_iff.mp hi
  have hg' : ∀ {t' g'}, some (t', g') ∈ s.guards.set i (some (t, { g with islocked := true })) →
      some (t', g') ∈ s.guards ∨ (t' = t ∧ g'.cls = g.cls) := by
    intro t' g' hg
    rcases List.mem_or_eq_of_mem_set hg with hg | he
    · exact .inl hg
    · cases he
      exact .inr ⟨rfl, rfl⟩
  refine h.acquire hm (fun k => ?_) (fun t' g' hg _ => ?_) (fun t' g' hg => ?_)
  · have := Interleave.sum_set (holds k) hlt (some (t, { g with islocked := true }))
    simp only [hget, holds, hl, Bool.false_and, Bool.true_and, Bool.toNat_false,
      Nat.add_zero] at this ⊢
    exact this
  · exact (hg' hg).imp_right fun he => ⟨he.1, by rw [he.2]⟩
  · rcases hg' hg with hg | ⟨-, he⟩
    · exact h.classes t' g' hg
    · rw [he]
      exact h.classes t g (List.mem_of_getElem? hi)

/-- The guard `i` is destroyed without a hold. -/
theorem Owned.gone (h : Owned s) (hi : s.guards[i]? = some (some (t, g)))
    (hl : g.islocked = false) : Owned { s with guards := s.guards.set i none } := by
  obtain ⟨hlt, hget⟩ := List.getElem?_eq_some_iff.mp hi
  have hold : ∀ {t' g'}, some (t', g') ∈ s.guards.set i none → some (t', g') ∈ s.guards := by
    intro t' g' hg
    rcases List.mem_or_eq_of_mem_set hg with hg | he
    · exact hg
    · cases he
  refine h.same (fun k => ?_) (fun t' g' hg _ => hold hg) fun t' g' hg =>
    h.classes t' g' (hold hg)
  have := Interleave.sum_set (holds k) hlt none
  simpa [hget, holds, hl] using this

/-- Once all guards are gone, the mutex is free. -/
theorem Owned.free (h : Owned s) (hg : ∀ x ∈ s.guards, x = none) : s.mutex = {} := by
  have hzero (a : Acquire) : (s.guards.map (holds a)).sum = 0 := by
    rw [List.sum_eq_zero_iff_forall_eq_nat]
    intro n hn
    obtain ⟨x, hx, rfl⟩ := List.mem_map.mp hn
    rw [hg x hx]
    rfl
  have hread := h.readers
  have hwrite := h.writer
  rw [hzero] at hread hwrite
  obtain ⟨⟨readers, writer⟩, guards⟩ := s
  cases writer with
  | none =>
    simp only at hread
    rw [hread]
  | some t => cases hwrite

variable [DecidableEq θ]

/-- A guard that has its flag set releases its hold. -/
theorem Owned.release (h : Owned s) (hi : s.guards[i]? = some (some (t, g)))
    (hl : g.islocked = true) {x : Option (θ × Guard)} (hx : ∀ a, holds a x = 0)
    (hclass : ∀ t g, x = some (t, g) → g.cls.acquire ≠ .lock) (hm : s.mutex.unlock t = some m) :
    Owned { mutex := m, guards := s.guards.set i x } := by
  obtain ⟨hlt, hget⟩ := List.getElem?_eq_some_iff.mp hi
  have hmem : some (t, g) ∈ s.guards := List.mem_of_getElem? hi
  have hset (a : Acquire) : ((s.guards.set i x).map (holds a)).sum + holds a (some (t, g)) =
      (s.guards.map (holds a)).sum := by
    have := Interleave.sum_set (holds a) hlt x
    rwa [hget, hx, Nat.add_zero] at this
  have hread := hset .rdlock
  have hwrite := hset .wrlock
  have hle := holds_le g.cls.acquire hmem
  rw [holds_locked t hl] at hle
  have hold : ∀ t' g', some (t', g') ∈ s.guards.set i x → g'.islocked = true →
      some (t', g') ∈ s.guards := by
    intro t' g' hg hl'
    rcases List.mem_or_eq_of_mem_set hg with hg | rfl
    · exact hg
    · have := hx g'.cls.acquire
      rw [holds_locked t' hl'] at this
      omega
  have hclasses : ∀ t' g', some (t', g') ∈ s.guards.set i x → g'.cls.acquire ≠ .lock := by
    intro t' g' hg
    rcases List.mem_or_eq_of_mem_set hg with hg | rfl
    · exact h.classes t' g' hg
    · exact hclass t' g' rfl
  cases ha : g.cls.acquire with
  | lock => exact absurd ha (h.classes t g hmem)
  | rdlock =>
    rw [ha, ← h.readers] at hle
    have hfree : s.mutex.writer = none := by
      cases hw : s.mutex.writer with
      | none => rfl
      | some u =>
        have := h.alone (by rw [hw]; rfl)
        omega
    have hm' : { s.mutex with readers := s.mutex.readers - 1 } = m := by
      rw [RWMutex.unlock, if_neg (by simp [hfree]), if_neg (by omega)] at hm
      exact Option.some.inj hm
    have hone : holds .rdlock (some (t, g)) = 1 := ha ▸ holds_locked t hl
    have hnone : holds .wrlock (some (t, g)) = 0 := by simp [holds, ha]
    subst hm'
    refine ⟨?_, ?_, fun t' g' hg hl' ha' => ?_, fun hw => ?_, hclasses⟩
    · have := h.readers
      simp only
      omega
    · have := h.writer
      simp only
      omega
    · exact h.thread t' g' (hold t' g' hg hl') hl' ha'
    · rw [hfree] at hw
      contradiction
  | wrlock =>
    have hself := h.thread t g hmem hl ha
    have hm' : { s.mutex with writer := none } = m := by
      rw [RWMutex.unlock, if_pos hself] at hm
      exact Option.some.inj hm
    have hone : holds .wrlock (some (t, g)) = 1 := ha ▸ holds_locked t hl
    have hnone : holds .rdlock (some (t, g)) = 0 := by simp [holds, ha]
    have hwriter := h.writer
    rw [hself] at hwriter
    have hzero : ((s.guards.set i x).map (holds .wrlock)).sum = 0 := by
      simp only [Option.isSome_some, Bool.toNat_true] at hwriter
      omega
    subst hm'
    refine ⟨?_, hzero.symm, fun t' g' hg hl' ha' => ?_, (fun hw => nomatch hw), hclasses⟩
    · have := h.readers
      simp only
      omega
    · have hpos := holds_le (l := s.guards.set i x) .wrlock hg
      have hother : holds .wrlock (some (t', g')) = 1 := ha' ▸ holds_locked t' hl'
      omega

/-- A step keeps the holds with the guards if its acquisition ends as the flag says. -/
theorem owned_step (s : Guarded θ) (a : Label θ) (s' : Guarded θ) (h : Owned s)
    (hc : Flagged s a) (hs : s.step a = some s') : Owned s' := by
  cases a with
  | make t c ok =>
    obtain ⟨m, hm, rfl⟩ := Option.map_eq_some_iff.mp hs
    obtain rfl : ok = c.initial := hc
    exact h.make hm
  | lock i ok =>
    simp only [Guarded.step] at hs
    split at hs
    · rename_i t g hi
      cases hl : g.islocked with
      | true =>
        simp only [Guard.lock, hl, Bool.not_true, Bool.false_eq_true, if_false] at hs
        cases hs
        exact h
      | false =>
        obtain rfl : ok = true := hc (t, g) (by rw [hi]; rfl) hl
        simp only [Guard.lock, hl, Bool.not_false, if_true] at hs
        obtain ⟨m, hm, rfl⟩ := Option.map_eq_some_iff.mp hs
        exact h.lock hi hl hm
    · cases hs
  | unlock i =>
    simp only [Guarded.step] at hs
    split at hs
    · rename_i t g hi
      cases hl : g.islocked with
      | false =>
        simp only [Guard.unlock, hl, Bool.false_eq_true, if_false] at hs
        cases hs
        exact h
      | true =>
        simp only [Guard.unlock, hl, if_true] at hs
        obtain ⟨m, hm, rfl⟩ := Option.map_eq_some_iff.mp hs
        refine h.release hi hl (fun a => rfl) (fun t' g' he => ?_) hm
        cases he
        exact h.classes t g (List.mem_of_getElem? hi)
    · cases hs
  | destroy i =>
    simp only [Guarded.step] at hs
    split at hs
    · rename_i t g hi
      cases hl : g.islocked with
      | false =>
        simp only [Guard.unlock, hl, Bool.false_eq_true, if_false] at hs
        cases hs
        exact h.gone hi hl
      | true =>
        simp only [Guard.unlock, hl, if_true] at hs
        obtain ⟨m, hm, rfl⟩ := Option.map_eq_some_iff.mp hs
        exact h.release hi hl (fun a => rfl) (fun _ _ he => nomatch he) hm
    · cases hs

theorem owned_inductive (θ : Type) [DecidableEq θ] : (sys θ).Inductive Flagged Owned where
  init s hs := by
    cases hs
    exact ⟨rfl, rfl, fun _ _ hg => absurd hg List.not_mem_nil, fun _ => rfl,
      fun _ _ hg => absurd hg List.not_mem_nil⟩
  step := owned_step

/-- **Scoped lock accounting.** The accounts of a guard are right exactly if each acquisition ends
as its flag says; and where that is so for all guards of an `RWMutex`, the mutex is free once they
are gone. -/
theorem guards_exact (c : GuardClass) (ok : Bool) (ops : List Guard.Op) :
    (Guard.Accounted c ok ops ↔ Guard.Succeeds c ok ops) ∧
    ∀ s : Guarded θ, (sys θ).Reach Flagged s → (∀ x ∈ s.guards, x = none) → s.mutex = {} :=
  ⟨Guard.accounted_iff, fun _ h hg => ((owned_inductive θ).reach h).free hg⟩

/-- Two readers, one of which releases and acquires again, and a writer whose first `wrlock()`
fails. -/
theorem guards_gone : ∃ s : Guarded ℕ, s.guards = [none, none, none] ∧ s.mutex = {} := by
  obtain ⟨s, hs, hp⟩ := Interleave.Sys.exists_of_runBy (S := sys ℕ) (C := Flagged) (s := {})
    [.make 0 ReadScopedLockImpl true, .make 1 ReadScopedLockImpl true, .unlock 0, .lock 0 true,
      .make 1 WriteScopedLockImpl false, .destroy 0, .destroy 1, .lock 2 true, .destroy 2]
    (p := fun s => s.guards == [none, none, none]) (by decide)
  have hg := beq_iff_eq.mp hp
  have hexact := guards_exact (θ := ℕ) WriteScopedLockImpl false [.lock true]
  exact ⟨s, hg, hexact.2 s ⟨_, rfl, hs⟩ (by rw [hg]; decide)⟩

/-- A `WriteLock` whose `wrlock()` succeeds never gives its hold back. -/
theorem writeLock_keeps :
    ¬ Guard.Accounted WriteScopedLockImpl true [] ∧
    ∃ s : Guarded ℕ, (sys ℕ).Reach Interleave.Sys.free s ∧ s.guards = [none] ∧
      s.mutex.writer = some 0 := by
  refine ⟨fun h => ?_, ?_⟩
  · have := h.balance
    contradiction
  · obtain ⟨s, hs, hp⟩ := Interleave.Sys.exists_of_runBy (S := sys ℕ)
      (C := Interleave.Sys.free) (s := {}) [.make 0 WriteScopedLockImpl true, .destroy 0]
      (p := fun s => s.guards == [none] && s.mutex.writer == some 0) (by decide)
    simp only [Bool.and_eq_true, beq_iff_eq] at hp
    exact ⟨s, ⟨_, rfl, hs⟩, hp⟩

end RWMutex

end Ddg
