import DdgServer.Sync.Guard

/-!
# `CASLock`

`CASLock::lock` and `CASLock::unlock` of `ddg/mutex.cc`, used through `ScopedLockImpl`. The atomic
steps are each `compare_exchange_weak`, each `expect = false` and each `store`; the calls of a guard
that touch nothing shared are steps of their own. A thread may have any number of guards, also
while it holds the lock.

* `Inv`: the flag is true iff a guard of a thread is locked, and then one guard is.
* `mutual_exclusion`: what follows for every interleaving.
-/

namespace Ddg

namespace CasLock

/-- Where a thread is: outside the lock's code, at the exchange or at `expect = false` in `lock()`
(`target`: the guard that calls it, `none` for the constructor of a new one), or at the store in
`unlock()` (`gone`: the destructor calls it). -/
inductive Pc where
  | out
  | exchange (target : Option ℕ) (expect : Bool)
  | reset (target : Option ℕ) (expect : Bool)
  | store (i : ℕ) (gone : Bool)
  deriving DecidableEq

/-- A thread: where it is, and the guards that it made; `none`: destroyed. -/
structure Thread where
  pc : Pc := .out
  guards : List (Option Guard) := []
  deriving DecidableEq

namespace Thread

variable (x : Thread)

/-- The guard at `i` is between the return of `lock()` and its `unlock()`. -/
def locked (i : ℕ) : Bool := x.guards[i]?.join.any Guard.islocked

/-- The return of `lock()` to the guard that called it. -/
def entered : Option ℕ → Thread
  | none => ⟨.out, x.guards ++ [some ScopedLockImpl.make]⟩
  | some i => ⟨.out, x.guards.modify i (Option.map fun g => g.lock.1)⟩

/-- The return of `unlock()`. -/
def left (i : ℕ) (gone : Bool) : Thread :=
  ⟨.out, if gone then x.guards.set i none else x.guards.modify i (Option.map fun g => g.unlock.1)⟩

end Thread

/-- `m_flag` and the threads. -/
structure State (θ : Type) where
  flag : Bool := false
  threads : θ → Thread := fun _ => {}

/-- An atomic step of the thread `t`; `spurious`: the exchange fails whatever the flag is. -/
inductive Label (θ : Type) where
  | make (t : θ)
  | lock (t : θ) (i : ℕ)
  | unlock (t : θ) (i : ℕ)
  | destroy (t : θ) (i : ℕ)
  | exchange (t : θ) (spurious : Bool)
  | reset (t : θ)
  | store (t : θ)

variable {θ : Type}

/-- The thread `t` is in its critical section. -/
def State.Inside (s : State θ) (t : θ) : Prop := ∃ i, (s.threads t).locked i = true

variable [DecidableEq θ]

def State.set (s : State θ) (flag : Bool) (t : θ) (x : Thread) : State θ :=
  ⟨flag, Function.update s.threads t x⟩

/-- A call of the guard `i` by a thread outside the lock's code. -/
def State.call (s : State θ) (t : θ) (i : ℕ) (f : Guard → Thread) : Option (State θ) :=
  match (s.threads t).pc, (s.threads t).guards[i]? with
  | .out, some (some g) => some (s.set s.flag t (f g))
  | _, _ => none

def State.step (s : State θ) : Label θ → Option (State θ)
  | .make t =>
    if (s.threads t).pc = .out then
      some (s.set s.flag t { s.threads t with pc := .exchange none false })
    else none
  | .lock t i => s.call t i fun g =>
    if g.lock.2 then { s.threads t with pc := .exchange (some i) false } else s.threads t
  | .unlock t i => s.call t i fun g =>
    if g.unlock.2 then { s.threads t with pc := .store i false } else s.threads t
  | .destroy t i => s.call t i fun g =>
    if g.unlock.2 then { s.threads t with pc := .store i true }
    else { s.threads t with guards := (s.threads t).guards.set i none }
  | .exchange t spurious =>
    match (s.threads t).pc with
    | .exchange target expect =>
      if s.flag = expect ∧ spurious = false then some (s.set true t ((s.threads t).entered target))
      else some (s.set s.flag t { s.threads t with pc := .reset target s.flag })
    | _ => none
  | .reset t =>
    match (s.threads t).pc with
    | .reset target _ =>
      some (s.set s.flag t { s.threads t with pc := .exchange target false })
    | _ => none
  | .store t =>
    match (s.threads t).pc with
    | .store i gone => some (s.set false t ((s.threads t).left i gone))
    | _ => none

/-- The lock at its start, and the steps of the threads that use it through guards. -/
def sys (θ : Type) [DecidableEq θ] : Interleave.Sys (State θ) (Label θ) where
  init s := s = {}
  step s a := s.step a

/-! ## The guards of one thread -/

namespace Thread

variable {x : Thread} {i j : ℕ}

theorem locked_eq {g : Guard} (h : x.guards[i]? = some (some g)) : x.locked i = g.islocked := by
  rw [locked, h]
  rfl

/-- The call of `lock()` that returns locks one guard, the one that made it. -/
theorem entered_locked (x : Thread) (target : Option ℕ)
    (h : ∀ i, target = some i → ∃ g, x.guards[i]? = some (some g)) :
    ∃ i, ∀ j, (x.entered target).locked j = true ↔ j = i ∨ x.locked j = true := by
  cases target with
  | none =>
    refine ⟨x.guards.length, fun j => ?_⟩
    rcases Nat.lt_trichotomy j x.guards.length with hj | rfl | hj
    · simp [locked, entered, List.getElem?_append_left hj, hj.ne]
    · simp [locked, entered, GuardClass.make, ScopedLockImpl]
    · have hlen : (x.guards ++ [some ScopedLockImpl.make]).length ≤ j := by simpa using Nat.succ_le_of_lt hj
      simp [locked, entered, List.getElem?_eq_none hlen, List.getElem?_eq_none hj.le, hj.ne']
  | some i =>
    obtain ⟨g, hg⟩ := h i rfl
    refine ⟨i, fun j => ?_⟩
    by_cases hj : j = i
    · subst hj
      have hl : g.lock.1.islocked = true := by
        cases hb : g.islocked <;> simp [Guard.lock, hb]
      simp [locked, entered, hg, hl]
    · simp [locked, entered, hj, Ne.symm hj]

/-- After the call of `unlock()` the guard is not locked, and the others are as before. -/
theorem left_locked (x : Thread) (i : ℕ) (gone : Bool) (j : ℕ) :
    (x.left i gone).locked j = true ↔ j ≠ i ∧ x.locked j = true := by
  by_cases hj : j = i
  · subst hj
    cases gone with
    | true =>
      by_cases hlt : j < x.guards.length <;> simp [locked, left, hlt]
    | false =>
      cases hg : x.guards[j]? with
      | none => simp [locked, left, hg]
      | some g =>
        cases g with
        | none => simp [locked, left, hg]
        | some g => cases hb : g.islocked <;> simp [locked, left, hg, Guard.unlock, hb]
  · cases gone <;> simp [locked, left, hj, Ne.symm hj]

/-- The end of a guard that is not locked changes nothing. -/
theorem locked_set_none {g : Guard} (hg : x.guards[i]? = some (some g)) (hl : g.islocked = false)
    (j : ℕ) : ({ x with guards := x.guards.set i none } : Thread).locked j = x.locked j := by
  have hleft : x.locked j = true → j ≠ i := by
    rintro hj rfl
    rw [locked_eq hg, hl] at hj
    contradiction
  rw [Bool.eq_iff_iff]
  exact (x.left_locked i true j).trans ⟨fun hj => hj.2, fun hj => ⟨hleft hj, hj⟩⟩

end Thread

/-! ## The invariant -/

/-- What a thread in the lock's code knows: `expect` is false at the exchange, the guard that calls
`lock()` is there, and the guard that calls `unlock()` is locked. -/
def Thread.Ok (x : Thread) : Prop :=
  match x.pc with
  | .out => True
  | .exchange target expect =>
    expect = false ∧ ∀ i, target = some i → ∃ g, x.guards[i]? = some (some g)
  | .reset target _ => ∀ i, target = some i → ∃ g, x.guards[i]? = some (some g)
  | .store i _ => x.locked i = true

/-- The flag is true iff a guard of a thread is locked, and then no other guard is. -/
structure Inv (s : State θ) : Prop where
  ok : ∀ t, (s.threads t).Ok
  free : s.flag = false → ∀ t i, (s.threads t).locked i = false
  held : s.flag = true → ∃ t i, ∀ u j, (s.threads u).locked j = true ↔ u = t ∧ j = i

variable {s s' : State θ} {t : θ} {x : Thread}

theorem ok_set (h : ∀ u, (s.threads u).Ok) (hx : x.Ok) (flag : Bool) :
    ∀ u, ((s.set flag t x).threads u).Ok := by
  intro u
  by_cases hu : u = t
  · subst hu
    simpa [State.set] using hx
  · simpa [State.set, hu] using h u

theorem locked_set (flag : Bool) (u : θ) (j : ℕ) :
    ((s.set flag t x).threads u).locked j = if u = t then x.locked j else (s.threads u).locked j := by
  by_cases hu : u = t
  · subst hu
    simp [State.set]
  · simp [State.set, hu]

/-- A step of a thread that locks and unlocks no guard. -/
theorem Inv.quiet (h : Inv s) (hx : x.Ok) (hl : ∀ i, x.locked i = (s.threads t).locked i) :
    Inv (s.set s.flag t x) := by
  have hsame : ∀ u j, ((s.set s.flag t x).threads u).locked j = (s.threads u).locked j := by
    intro u j
    rw [locked_set]
    split
    · rename_i hu
      rw [hl, hu]
    · rfl
  refine ⟨ok_set h.ok hx s.flag, fun hf u j => ?_, fun hf => ?_⟩
  · rw [hsame]
    exact h.free hf u j
  · obtain ⟨v, i, hv⟩ := h.held hf
    exact ⟨v, i, fun u j => by rw [hsame, hv]⟩

/-- The exchange succeeds: no guard was locked, and the one that calls is. -/
theorem Inv.enter (h : Inv s) (hf : s.flag = false) {target : Option ℕ}
    (hg : ∀ i, target = some i → ∃ g, (s.threads t).guards[i]? = some (some g)) :
    Inv (s.set true t ((s.threads t).entered target)) := by
  obtain ⟨i, hi⟩ := (s.threads t).entered_locked target hg
  have hok : ((s.threads t).entered target).Ok := by cases target <;> trivial
  refine ⟨ok_set h.ok hok true, fun hf => (nomatch hf), fun _ => ⟨t, i, fun u j => ?_⟩⟩
  rw [locked_set]
  split
  · rename_i hu
    rw [hi, h.free hf]
    simp [hu]
  · rename_i hu
    rw [h.free hf]
    simp [hu]

/-- The store: the guard that calls was the only one that is locked. -/
theorem Inv.leave (h : Inv s) {i : ℕ} (hi : (s.threads t).locked i = true) (gone : Bool) :
    Inv (s.set false t ((s.threads t).left i gone)) := by
  have hflag : s.flag = true := by
    by_contra hf
    have := h.free (by simpa using hf) t i
    rw [hi] at this
    contradiction
  obtain ⟨v, k, hv⟩ := h.held hflag
  obtain ⟨rfl, rfl⟩ := (hv t i).mp hi
  have hok : ((s.threads t).left i gone).Ok := trivial
  refine ⟨ok_set h.ok hok false, fun _ u j => ?_, fun hf => (nomatch hf)⟩
  rw [locked_set, ← Bool.not_eq_true]
  split
  · rw [Thread.left_locked, hv]
    exact fun hj => hj.1 hj.2.2
  · rename_i hu
    rw [hv]
    exact fun hj => hu hj.1

/-- A call that a thread may make from where it is. -/
theorem Inv.call (h : Inv s) {i : ℕ} {f : Guard → Thread} (hs : s.call t i f = some s')
    (hf : ∀ g, (s.threads t).pc = .out → (s.threads t).guards[i]? = some (some g) →
      (f g).Ok ∧ ∀ j, (f g).locked j = (s.threads t).locked j) : Inv s' := by
  unfold State.call at hs
  split at hs
  · rename_i g hpc hg
    cases hs
    exact h.quiet (hf g hpc hg).1 (hf g hpc hg).2
  · cases hs

theorem inv_step (s : State θ) (a : Label θ) (s' : State θ) (h : Inv s)
    (hs : s.step a = some s') : Inv s' := by
  cases a with
  | make t =>
    simp only [State.step] at hs
    split at hs
    · cases hs
      exact h.quiet ⟨rfl, fun i hi => (nomatch hi)⟩ fun i => rfl
    · cases hs
  | lock t i =>
    refine h.call hs fun g hpc hg => ?_
    split
    · refine ⟨⟨rfl, fun j hj => ?_⟩, fun j => rfl⟩
      cases hj
      exact ⟨g, hg⟩
    · exact ⟨h.ok t, fun j => rfl⟩
  | unlock t i =>
    refine h.call hs fun g hpc hg => ?_
    cases hl : g.islocked with
    | true =>
      simp only [Guard.unlock, hl, if_true]
      exact ⟨(Thread.locked_eq hg).trans hl, fun j => rfl⟩
    | false =>
      rw [Guard.unlock, if_neg (by simp [hl])]
      exact ⟨h.ok t, fun j => rfl⟩
  | destroy t i =>
    refine h.call hs fun g hpc hg => ?_
    cases hl : g.islocked with
    | true =>
      simp only [Guard.unlock, hl, if_true]
      exact ⟨(Thread.locked_eq hg).trans hl, fun j => rfl⟩
    | false =>
      simp only [Guard.unlock, hl, Bool.false_eq_true, if_false]
      exact ⟨by simp [Thread.Ok, hpc], Thread.locked_set_none hg hl⟩
  | exchange t spurious =>
    have hok := h.ok t
    simp only [State.step] at hs
    split at hs
    · rename_i target expect hpc
      simp only [Thread.Ok, hpc] at hok
      obtain ⟨rfl, hg⟩ := hok
      split at hs
      · rename_i hc
        cases hs
        exact h.enter hc.1 hg
      · cases hs
        exact h.quiet hg fun i => rfl
    · cases hs
  | reset t =>
    have hok := h.ok t
    simp only [State.step] at hs
    split at hs
    · rename_i target expect hpc
      simp only [Thread.Ok, hpc] at hok
      cases hs
      exact h.quiet ⟨rfl, hok⟩ fun i => rfl
    · cases hs
  | store t =>
    have hok := h.ok t
    simp only [State.step] at hs
    split at hs
    · rename_i i gone hpc
      simp only [Thread.Ok, hpc] at hok
      cases hs
      exact h.leave hok gone
    · cases hs

theorem inv_inductive (θ : Type) [DecidableEq θ] :
    (sys θ).Inductive Interleave.Sys.free (Inv (θ := θ)) where
  init s hs := by
    cases hs
    exact ⟨fun _ => trivial, fun _ _ _ => rfl, fun hf => (nomatch hf)⟩
  step s a s' h _ hs := inv_step s a s' h hs

/-! ## Mutual exclusion -/

omit [DecidableEq θ] in
theorem Inv.alone (h : Inv s) {u : θ} (ht : s.Inside t) (hu : s.Inside u) : t = u := by
  obtain ⟨i, hi⟩ := ht
  obtain ⟨j, hj⟩ := hu
  cases hf : s.flag with
  | false =>
    rw [h.free hf] at hi
    contradiction
  | true =>
    obtain ⟨v, k, hv⟩ := h.held hf
    rw [((hv t i).mp hi).1, ((hv u j).mp hj).1]

omit [DecidableEq θ] in
theorem Inv.flag_iff (h : Inv s) : s.flag = true ↔ ∃! t, s.Inside t := by
  constructor
  · intro hf
    obtain ⟨v, k, hv⟩ := h.held hf
    have hin : s.Inside v := ⟨k, (hv v k).mpr ⟨rfl, rfl⟩⟩
    exact ⟨v, hin, fun u hu => h.alone hu hin⟩
  · rintro ⟨v, ⟨k, hk⟩, -⟩
    by_contra hf
    rw [h.free (by simpa using hf)] at hk
    contradiction

/-- **Mutual exclusion.** In every state that an interleaving reaches, at most one thread is in its
critical section, the flag is true iff one is, and a store to the flag is that thread's own. -/
theorem mutual_exclusion (h : (sys θ).Reach Interleave.Sys.free s) :
    (∀ t u, s.Inside t → s.Inside u → t = u) ∧ (s.flag = true ↔ ∃! t, s.Inside t) ∧
      ∀ t s', s.step (.store t) = some s' → ∀ u, u ≠ t → ¬ s.Inside u := by
  have hi := (inv_inductive θ).reach h
  refine ⟨fun t u => hi.alone, hi.flag_iff, fun t s' hs u hu hin => ?_⟩
  have hok := hi.ok t
  simp only [State.step] at hs
  split at hs
  · rename_i i gone hpc
    simp only [Thread.Ok, hpc] at hok
    exact hu (hi.alone hin ⟨i, hok⟩)
  · cases hs

/-- Thread 0 is about to store; thread 1 has failed once, with the flag in `expect`. -/
theorem mutual_exclusion_two : ∃ s : State ℕ, s.flag = true ∧ s.Inside 0 ∧
    (s.threads 1).pc = .reset none true ∧ (s.threads 0).pc = .store 0 true ∧ ¬ s.Inside 1 := by
  obtain ⟨s, hs, hp⟩ := Interleave.Sys.exists_of_runBy (S := sys ℕ) (C := Interleave.Sys.free)
    (s := {}) [.make 0, .make 1, .exchange 0 true, .reset 0, .exchange 0 false, .exchange 1 false,
      .destroy 0 0]
    (p := fun s => s.flag && (s.threads 0).locked 0 && (s.threads 1).pc == .reset none true &&
      (s.threads 0).pc == .store 0 true) (by decide)
  simp only [Bool.and_eq_true, beq_iff_eq] at hp
  obtain ⟨⟨⟨hf, hl⟩, h1⟩, h0⟩ := hp
  have hstore : s.step (.store 0) = some (s.set false 0 ((s.threads 0).left 0 true)) := by
    simp only [State.step, h0]
  exact ⟨s, hf, ⟨0, hl⟩, h1, h0, (mutual_exclusion ⟨_, rfl, hs⟩).2.2 0 _ hstore 1 (by decide)⟩

end CasLock

end Ddg
