import DdgServer.Log.Changes
import DdgServer.Sync.Guard

/-!
# `Logger::log` with its locks

`Logger::log` holds a `ReadLock` on the logger's `m_rwmutex` and goes to `m_root` where the logger
has no appenders. The appenders hold their `m_mutex` while they format the event, and a
`NameFormatItem` asks the event's logger for its name, with a `ReadLock` as well. The write hold
that a `WriteLock` of `setLevel`, `addAppender`, `clearAppender` or `setRoot` (for a new logger)
leaves to its thread blocks the calls of all others, and a thread that waits in an appender blocks
those that come to the appender (`log_blocked`). The `m_rwmutex` of a `LogFormatter` is only read:
no change calls `setPattern`.

* `log_calls`: the calls of `Logger::log` on the loggers' mutexes, in their order.
* `LoggerLocks.calls_eq_ok`, `RWMutex.nested_ok_iff`: each mutex sees the calls that are on it, and
  what it makes of them.
* `Passable`, `RootReady.delivers_iff`: so when no lock is in the way.
-/

namespace Ddg

/-- Why a call does not come to its end: it calls `log` of a null `m_root`, it waits for a mutex, it
releases a mutex without a hold, or the fuel is out. -/
inductive Stop
  | nullRoot
  | blocked
  | undefined
  | running
  deriving DecidableEq

/-- The `m_rwmutex` of each logger. -/
abbrev LoggerLocks (θ : Type) := ℕ → RWMutex θ

namespace LoggerLocks

variable {θ : Type} [DecidableEq θ] (t : θ) (l : ℕ) (rw : LoggerLocks θ)

/-- `ReadLock lock(m_rwmutex)` of the logger `l`. -/
def readLock : Except Stop (LoggerLocks θ) :=
  match (rw l).guard t .rdlock with
  | some x => .ok (Function.update rw l x)
  | none => .error .blocked

/-- The destructor of the guard. -/
def unlock : Except Stop (LoggerLocks θ) :=
  match (rw l).unlock t with
  | some x => .ok (Function.update rw l x)
  | none => .error .undefined

/-- `Logger::getName`. -/
def getName : Except Stop (LoggerLocks θ) := (rw.readLock t l).bind (unlock t l)

end LoggerLocks

/-- The appender formats an event of the level, and asks for the name of its logger. -/
def LogAppender.asksName (a : LogAppender) (level : ℕ) : Bool :=
  decide (level ≥ a.level) && a.formatter.any fun f => f.items.contains .name

namespace LoggerManager

section Log

variable {θ : Type} [DecidableEq θ] (m : LoggerManager) (holder : ℕ → Option θ) (t : θ)
  (e level : ℕ)

/-- `log` of the appenders in turn, as far as it locks: the `m_mutex` of the appender, of which
`holder` is the thread that is inside, and within it the logger `e` of the event, whose `getName` a
`NameFormatItem` calls. Once is as good as more often. -/
def handAll : List LogAppender → LoggerLocks θ → Except Stop (LoggerLocks θ)
  | [], rw => .ok rw
  | a :: as, rw =>
    if holder a.id = none then
      (if a.asksName level then rw.getName t e else .ok rw).bind (handAll as)
    else .error .blocked

/-- `Logger::log` of the logger `l` in the thread `t`, for an event of the logger `e`, with at most
`fuel` calls of `m_root->log`: the appenders that got the event, and the mutexes afterwards. -/
def log : ℕ → ℕ → LoggerLocks θ → Except Stop (List ℕ × LoggerLocks θ)
  | 0, _, _ => .error .running
  | fuel + 1, l, rw =>
    (rw.readLock t l).bind fun rw =>
      (if level ≥ (m.heap l).level then
        if (m.heap l).appenders ≠ [] then
          (handAll holder t e level (m.heap l).appenders rw).map
            ((m.heap l).appenders.map LogAppender.id, ·)
        else
          match (m.heap l).root with
          | none => .error .nullRoot
          | some root => log fuel root rw
      else .ok ([], rw)).bind fun r => (r.2.unlock t l).map (r.1, ·)

end Log

/-- The appenders that an event is for: those of the logger, or of the root if it has none, where
the level passes. -/
def handed (m : LoggerManager) (l : ℕ) (level : LogLevel) : List LogAppender :=
  if level.val < (m.heap l).level then []
  else if (m.heap l).appenders ≠ [] then (m.heap l).appenders
  else if level.val < (m.heap m.root).level then []
  else (m.heap m.root).appenders

def targets (m : LoggerManager) (l : ℕ) (level : LogLevel) : List ℕ :=
  (m.handed l level).map LogAppender.id

/-- The loggers whose `log` is called for an event. -/
def path (m : LoggerManager) (l : ℕ) (level : LogLevel) : List ℕ :=
  if level.val < (m.heap l).level then [l]
  else if (m.heap l).appenders ≠ [] then [l]
  else [l, m.root]

/-- The number of the appenders that ask for the name of the event's logger. -/
def asked (m : LoggerManager) (l : ℕ) (level : LogLevel) : ℕ :=
  (m.handed l level).countP fun a => a.asksName level.val

section Delivers

variable {θ : Type} [DecidableEq θ] (m : LoggerManager) (holder : ℕ → Option θ)
  (rw : LoggerLocks θ) (t : θ) (e l : ℕ) (level : LogLevel)

/-- The call of `Logger::log` comes to its end and hands the event to its targets, once each. -/
def Delivers : Prop :=
  (m.targets l level).Nodup ∧
    ∃ rw', ∀ fuel ≥ 2, m.log holder t e level.val fuel l rw = .ok (m.targets l level, rw')

/-- No other thread has the write hold of a logger on the way of the event, and none is in an
appender that the event is for; and where an appender asks for the name of the event's own logger,
no other thread has the write hold of this one, nor has the thread itself if that is on the way:
`getName` would release the hold, and `log` then a mutex without one. -/
structure Passable : Prop where
  path : ∀ k ∈ m.path l level, (rw k).OpenTo t
  appenders : ∀ a ∈ m.handed l level, holder a.id = none
  name : 0 < m.asked l level → (rw e).OpenTo t
  own : 0 < m.asked l level → e ∈ m.path l level → (rw e).writer = none

/-- Another thread has the write hold of a logger on the way of the event, or a thread is in an
appender that the event is for. -/
def HeldByOther : Prop :=
  (∃ k ∈ m.path l level, ∃ u, u ≠ t ∧ (rw k).writer = some u) ∨
    ∃ a ∈ m.handed l level, holder a.id ≠ none

end Delivers

/-- The root has an appender, or it was dropped. -/
structure RootReady (m : LoggerManager) : Prop where
  name : (m.heap m.root).name = rootName
  ready : (m.heap m.root).appenders ≠ [] ∨
    (m.heap m.root).level = 100 ∧ m.loggers rootName ≠ some m.root

/-! ## The calls on the mutexes -/

end LoggerManager

/-- A call of `unlock()` or else `rdlock()` on the `m_rwmutex` of a logger. -/
structure LockCall where
  logger : ℕ
  release : Bool

/-- The calls on the mutex of the logger `k`. -/
def callsOn (k : ℕ) (cs : List LockCall) : List Bool :=
  (cs.filter fun c => c.logger == k).map LockCall.release

namespace RWMutex

variable {θ : Type} [DecidableEq θ] (t : θ)

def call (m : RWMutex θ) (release : Bool) : Except Stop (RWMutex θ) :=
  if release then (m.unlock t).elim (.error .undefined) .ok
  else (m.guard t .rdlock).elim (.error .blocked) .ok

/-- The calls in turn. -/
def calls : List Bool → RWMutex θ → Except Stop (RWMutex θ)
  | [], m => .ok m
  | r :: rs, m => (m.call t r).bind (calls rs)

variable {t} {m : RWMutex θ} {u : θ}

theorem call_free (h : m.writer = none) :
    m.call t false = .ok { m with readers := m.readers + 1 } := by
  rw [call, guard_read h]
  rfl

theorem call_own (h : m.writer = some t) : m.call t false = .ok m := by
  rw [call, guard_own h (by rintro ⟨⟩)]
  rfl

theorem call_other (hne : u ≠ t) (h : m.writer = some u) : m.call t false = .error .blocked := by
  rw [call, guard_other hne h]
  rfl

theorem call_unlock (h : m.writer = none) :
    ({ m with readers := m.readers + 1 } : RWMutex θ).call t true = .ok m := by
  rw [call, unlock_read h]
  rfl

theorem call_release (h : m.writer = some t) :
    m.call t true = .ok { m with writer := none } := by
  rw [call, unlock, if_pos h]
  rfl

/-- `getName`, `n` times. -/
def names (n : ℕ) : List Bool := (List.replicate n [false, true]).flatten

theorem calls_names (h : m.writer = none) (n : ℕ) (rs : List Bool) :
    m.calls t (names n ++ rs) = m.calls t rs := by
  induction n with
  | zero => rfl
  | succ n ih =>
    rw [names, List.replicate_succ, List.flatten_cons]
    show (m.call t false).bind (fun m => (m.call t true).bind (calls t (names n ++ rs))) = _
    rw [call_free h]
    simp only [Except.bind, call_unlock h]
    exact ih

/-- The first `getName` releases the write hold of its thread. -/
theorem calls_names_own (h : m.writer = some t) {n : ℕ} (hn : 0 < n) (rs : List Bool) :
    m.calls t (names n ++ rs) = ({ m with writer := none } : RWMutex θ).calls t rs := by
  obtain ⟨n, rfl⟩ : ∃ k, n = k + 1 := ⟨n - 1, by omega⟩
  rw [names, List.replicate_succ, List.flatten_cons]
  show (m.call t false).bind (fun m => (m.call t true).bind (calls t (names n ++ rs))) = _
  rw [call_own h]
  simp only [Except.bind, call_release h]
  exact calls_names rfl n rs

theorem calls_names_other (hne : u ≠ t) (h : m.writer = some u) {n : ℕ} (hn : 0 < n)
    (rs : List Bool) : m.calls t (names n ++ rs) = .error .blocked := by
  obtain ⟨n, rfl⟩ : ∃ k, n = k + 1 := ⟨n - 1, by omega⟩
  rw [names, List.replicate_succ, List.flatten_cons]
  show (m.call t false).bind (fun m => (m.call t true).bind (calls t (names n ++ rs))) = _
  rw [call_other hne h]
  rfl

/-- The calls of `getName`, within a section if `inside`. -/
def nested (inside : Bool) (n : ℕ) : List Bool :=
  if inside then false :: (names n ++ [true]) else names n ++ []

theorem nested_free (h : m.writer = none) (inside : Bool) (n : ℕ) :
    m.calls t (nested inside n) = .ok m := by
  cases inside with
  | false => exact calls_names h n []
  | true =>
    show (m.call t false).bind (calls t (names n ++ [true])) = .ok m
    rw [call_free h]
    refine (calls_names (m := { m with readers := m.readers + 1 }) h n [true]).trans ?_
    rw [calls, call_unlock h]
    rfl

/-- With the write hold, `getName` is safe outside a section, and a section without `getName`. -/
theorem nested_own (h : m.writer = some t) {inside : Bool} {n : ℕ} (hn : inside = true → n = 0) :
    ∃ m', m.calls t (nested inside n) = .ok m' := by
  cases inside with
  | false =>
    rcases Nat.eq_zero_or_pos n with rfl | hpos
    · exact ⟨m, rfl⟩
    · exact ⟨_, calls_names_own h hpos []⟩
  | true =>
    obtain rfl := hn rfl
    refine ⟨{ m with writer := none }, ?_⟩
    show (m.call t false).bind (fun m => (m.call t true).bind .ok) = _
    rw [call_own h]
    show (m.call t true).bind .ok = _
    rw [call_release h]
    rfl

/-- Within a section, `getName` releases the write hold, and the end of the section is undefined. -/
theorem nested_undefined (h : m.writer = some t) (hr : m.readers = 0) {n : ℕ} (hn : 0 < n) :
    m.calls t (nested true n) = .error .undefined := by
  show (m.call t false).bind (calls t (names n ++ [true])) = _
  rw [call_own h]
  refine (calls_names_own h hn [true]).trans ?_
  rw [calls, call, if_pos rfl, unlock, if_neg (by rintro ⟨⟩), if_pos hr]
  rfl

theorem nested_other (hne : u ≠ t) (h : m.writer = some u) {inside : Bool} {n : ℕ}
    (hn : inside = true ∨ 0 < n) : m.calls t (nested inside n) = .error .blocked := by
  cases inside with
  | false => exact calls_names_other hne h (hn.resolve_left Bool.false_ne_true) []
  | true =>
    show (m.call t false).bind (calls t (names n ++ [true])) = _
    rw [call_other hne h]
    rfl

/-- A mutex with a writer has no readers. -/
def Sound (m : RWMutex θ) : Prop := m.writer ≠ none → m.readers = 0

/-- When the calls come to their end. -/
theorem nested_ok_iff (hm : m.Sound) (inside : Bool) (n : ℕ) :
    (∃ m', m.calls t (nested inside n) = .ok m') ↔
      (inside = true ∨ 0 < n → m.OpenTo t) ∧ (inside = true → 0 < n → m.writer = none) := by
  have hfails : ∀ {s : Stop}, m.calls t (nested inside n) = .error s →
      ¬∃ m', m.calls t (nested inside n) = .ok m' := by
    rintro s hs ⟨m', hm'⟩
    cases hs.symm.trans hm'
  cases hw : m.writer with
  | none =>
    refine iff_of_true ⟨m, nested_free hw inside n⟩ ⟨fun _ u hu => ?_, fun _ _ => rfl⟩
    rw [hw] at hu
    cases hu
  | some u =>
    by_cases hu : u = t
    · subst hu
      have hopen : m.OpenTo u := fun v hv => (Option.some.inj (hw.symm.trans hv)).symm
      by_cases hn : inside = true → n = 0
      · refine iff_of_true (nested_own hw hn) ⟨fun _ => hopen, fun hi hpos => ?_⟩
        exact absurd (hn hi) hpos.ne'
      · obtain ⟨rfl, hpos⟩ := Classical.not_imp.mp hn
        have hpos : 0 < n := Nat.pos_of_ne_zero hpos
        refine iff_of_false (hfails (nested_undefined hw (hm ?_) hpos)) fun h => ?_
        · rw [hw]
          rintro ⟨⟩
        · cases h.2 rfl hpos
    · have hnot : ¬m.OpenTo t := fun h => hu (h u hw)
      by_cases hn : inside = true ∨ 0 < n
      · exact iff_of_false (hfails (nested_other hu hw hn)) fun h => hnot (h.1 hn)
      · obtain ⟨hi, hpos⟩ := not_or.mp hn
        obtain rfl := Nat.eq_zero_of_not_pos hpos
        obtain rfl := Bool.eq_false_of_not_eq_true hi
        exact iff_of_true ⟨m, rfl⟩ ⟨fun h => absurd h hn, fun h => by cases h⟩

end RWMutex

/-! ## The calls of `Logger::log` -/

namespace LoggerLocks

variable {θ : Type} [DecidableEq θ] (t : θ)

/-- The calls in turn. -/
def calls : List LockCall → LoggerLocks θ → Except Stop (LoggerLocks θ)
  | [], rw => .ok rw
  | c :: cs, rw =>
    ((rw c.logger).call t c.release).bind fun x => calls cs (Function.update rw c.logger x)

variable {t} {rw rw' : LoggerLocks θ}

/-- Each mutex sees the calls that are on it. -/
theorem calls_eq_ok (cs : List LockCall) :
    rw.calls t cs = .ok rw' ↔ ∀ k, (rw k).calls t (callsOn k cs) = .ok (rw' k) := by
  induction cs generalizing rw with
  | nil =>
    constructor
    · intro h k
      cases h
      rfl
    · intro h
      exact congrArg Except.ok (funext fun k => Except.ok.inj (h k))
  | cons c cs ih =>
    have hself : callsOn c.logger (c :: cs) = c.release :: callsOn c.logger cs := by
      simp [callsOn]
    have hother : ∀ k, k ≠ c.logger → callsOn k (c :: cs) = callsOn k cs := by
      intro k hk
      simp [callsOn, Ne.symm hk]
    cases hc : (rw c.logger).call t c.release with
    | error s =>
      have herr : rw.calls t (c :: cs) = .error s := by
        rw [calls, hc]
        rfl
      rw [herr]
      refine iff_of_false (by rintro ⟨⟩) fun h => ?_
      have := h c.logger
      rw [hself, RWMutex.calls, hc] at this
      cases this
    | ok x =>
      have hok : rw.calls t (c :: cs) = calls t cs (Function.update rw c.logger x) := by
        rw [calls, hc]
        rfl
      rw [hok, ih]
      refine forall_congr' fun k => ?_
      by_cases hk : k = c.logger
      · subst hk
        rw [Function.update_self, hself, RWMutex.calls, hc]
        rfl
      · rw [Function.update_of_ne hk, hother k hk]

theorem calls_append (cs ds : List LockCall) :
    rw.calls t (cs ++ ds) = (rw.calls t cs).bind (calls t ds) := by
  induction cs generalizing rw with
  | nil => rfl
  | cons c cs ih =>
    rw [List.cons_append, calls, calls]
    cases (rw c.logger).call t c.release with
    | error => rfl
    | ok x => exact ih

theorem readLock_eq (l : ℕ) : rw.readLock t l = rw.calls t [⟨l, false⟩] := by
  rw [readLock, calls, RWMutex.call]
  cases (rw l).guard t .rdlock <;> rfl

theorem unlock_eq (l : ℕ) : rw.unlock t l = rw.calls t [⟨l, true⟩] := by
  rw [unlock, calls, RWMutex.call]
  cases (rw l).unlock t <;> rfl

theorem readLock_held {u : θ} {l : ℕ} (hne : u ≠ t) (h : (rw l).writer = some u) :
    rw.readLock t l = .error .blocked := by
  rw [readLock, RWMutex.guard_other hne h]

theorem readLock_cases (rw : LoggerLocks θ) (t : θ) (l : ℕ) :
    rw.readLock t l = .error .blocked ∨ ∃ x, rw.readLock t l = .ok (Function.update rw l x) := by
  unfold readLock
  split
  · exact .inr ⟨_, rfl⟩
  · exact .inl rfl

/-- A section whose body waits, if its `ReadLock` does not. -/
theorem readLock_bind_blocked {α : Type} {l : ℕ} {f : LoggerLocks θ → Except Stop α}
    (hf : ∀ x, f (Function.update rw l x) = .error .blocked) :
    (rw.readLock t l).bind f = .error .blocked := by
  rcases readLock_cases rw t l with hb | ⟨x, hx⟩
  · rw [hb]
    rfl
  · rw [hx]
    exact hf x

/-- `getName` waits, or comes to its end. -/
theorem getName_cases (rw : LoggerLocks θ) (t : θ) (l : ℕ) :
    rw.getName t l = .error .blocked ∨ ∃ rw', rw.getName t l = .ok rw' := by
  have hcall : rw.getName t l = ((rw l).call t false).bind fun x =>
      calls t [⟨l, true⟩] (Function.update rw l x) := by
    rw [getName, readLock_eq, calls]
    cases (rw l).call t false with
    | error => rfl
    | ok x => exact unlock_eq l
  rw [hcall]
  cases hw : (rw l).writer with
  | none =>
    right
    rw [RWMutex.call_free hw, Except.bind, calls, Function.update_self, RWMutex.call_unlock hw]
    exact ⟨_, rfl⟩
  | some u =>
    by_cases hu : u = t
    · subst hu
      right
      rw [RWMutex.call_own hw, Except.bind, calls, Function.update_self, RWMutex.call_release hw]
      exact ⟨_, rfl⟩
    · left
      rw [RWMutex.call_other hu hw]
      rfl

/-- A body between `readLock` and `unlock`. -/
theorem section_eq {α : Type} {l : ℕ} {a : α} {cs : List LockCall}
    {f : LoggerLocks θ → Except Stop (α × LoggerLocks θ)}
    (hf : ∀ rw, f rw = (rw.calls t cs).map (a, ·)) :
    ((rw.readLock t l).bind fun rw => (f rw).bind fun r => (unlock t l r.2).map (r.1, ·)) =
      (rw.calls t (⟨l, false⟩ :: (cs ++ [⟨l, true⟩]))).map (a, ·) := by
  have happ : rw.calls t ([⟨l, false⟩] ++ (cs ++ [⟨l, true⟩])) =
      (rw.calls t [⟨l, false⟩]).bind fun rw => (rw.calls t cs).bind (calls t [⟨l, true⟩]) := by
    rw [calls_append]
    exact congrArg _ (funext fun rw => calls_append cs _)
  rw [← List.singleton_append, happ, ← readLock_eq]
  cases rw.readLock t l with
  | error => rfl
  | ok rw =>
    show (f rw).bind _ = ((rw.calls t cs).bind _).map _
    rw [hf]
    cases rw.calls t cs with
    | error => rfl
    | ok rw =>
      show (rw.unlock t l).map _ = (rw.calls t [⟨l, true⟩]).map _
      rw [unlock_eq]

end LoggerLocks

/-- The calls of an appender: `getName` of the logger `e`, if it asks for the name. -/
def LogAppender.nameCalls (e level : ℕ) (a : LogAppender) : List LockCall :=
  if a.asksName level then [⟨e, false⟩, ⟨e, true⟩] else []

theorem callsOn_names (k e level : ℕ) (as : List LogAppender) :
    callsOn k (as.flatMap (LogAppender.nameCalls e level)) =
      RWMutex.names (if k = e then as.countP fun a => a.asksName level else 0) := by
  induction as with
  | nil => simp [callsOn, RWMutex.names]
  | cons a as ih =>
    have happ : callsOn k ((a :: as).flatMap (LogAppender.nameCalls e level)) =
        callsOn k (a.nameCalls e level) ++
          callsOn k (as.flatMap (LogAppender.nameCalls e level)) := by
      simp [callsOn]
    rw [happ, ih, List.countP_cons]
    by_cases hk : k = e
    · subst hk
      cases ha : a.asksName level with
      | false => simp [LogAppender.nameCalls, ha, callsOn]
      | true => simp [LogAppender.nameCalls, ha, callsOn, RWMutex.names, List.replicate_succ]
    · have hnone : callsOn k (a.nameCalls e level) = [] := by
        unfold LogAppender.nameCalls
        split <;> simp [callsOn, Ne.symm hk]
      rw [hnone, if_neg hk, if_neg hk]
      rfl

namespace LoggerManager

variable {m m' : LoggerManager} {name : Text} {f : Logger → Logger} {k : ℕ} {d : LogDefine}
  {θ : Type} [DecidableEq θ] {holder : ℕ → Option θ} {rw : LoggerLocks θ} {t : θ} {e l : ℕ}
  {level : LogLevel}

theorem handAll_eq (level : ℕ) {as : List LogAppender} (hfree : ∀ a ∈ as, holder a.id = none)
    (rw : LoggerLocks θ) :
    handAll holder t e level as rw = rw.calls t (as.flatMap (LogAppender.nameCalls e level)) := by
  induction as generalizing rw with
  | nil => rfl
  | cons a as ih =>
    obtain ⟨ha, hfree⟩ := List.forall_mem_cons.mp hfree
    rw [List.flatMap_cons, LoggerLocks.calls_append, handAll, if_pos ha, LogAppender.nameCalls]
    have hrest : handAll holder t e level as =
        LoggerLocks.calls t (as.flatMap (LogAppender.nameCalls e level)) := funext (ih hfree)
    rw [hrest]
    split
    · have hname : rw.getName t e = rw.calls t ([⟨e, false⟩] ++ [⟨e, true⟩]) := by
        rw [LoggerLocks.calls_append, LoggerLocks.getName, LoggerLocks.readLock_eq]
        exact congrArg _ (funext fun rw => LoggerLocks.unlock_eq e)
      rw [hname]
      rfl
    · rfl

/-- Behind an appender that a thread is in, the event is not handed on. -/
theorem handAll_held (level : ℕ) {as : List LogAppender} (hheld : ∃ a ∈ as, holder a.id ≠ none)
    (rw : LoggerLocks θ) : handAll holder t e level as rw = .error .blocked := by
  induction as generalizing rw with
  | nil =>
    obtain ⟨a, ha, -⟩ := hheld
    cases ha
  | cons a as ih =>
    rw [handAll]
    by_cases ha : holder a.id = none
    · rw [if_pos ha]
      have hrest : ∃ b ∈ as, holder b.id ≠ none := by
        obtain ⟨b, hb, hne⟩ := hheld
        rcases List.mem_cons.mp hb with rfl | hb
        · exact absurd ha hne
        · exact ⟨b, hb, hne⟩
      split
      · rcases rw.getName_cases t e with hn | ⟨rw', hn⟩
        · rw [hn]
          rfl
        · rw [hn]
          exact ih hrest rw'
      · exact ih hrest rw
    · rw [if_neg ha]

/-- The calls of `Logger::log` on the mutexes. -/
def lockCalls (m : LoggerManager) (e l : ℕ) (level : LogLevel) : List LockCall :=
  (m.path l level).foldr (fun k cs => ⟨k, false⟩ :: (cs ++ [⟨k, true⟩]))
    ((m.handed l level).flatMap (LogAppender.nameCalls e level.val))

/-- The root without appenders is at a level that no event passes. -/
theorem RootReady.appenders (hr : m.RootReady) (hlev : ¬level.val < (m.heap m.root).level) :
    (m.heap m.root).appenders ≠ [] := by
  have hle : level.val ≤ 6 := by cases level <;> decide
  rcases hr.ready with ha | ⟨h100, -⟩
  · exact ha
  · omega

variable (rw t e) in
/-- A call of `log` whose level passes hands the event to the appenders of the logger. -/
theorem log_own (fuel : ℕ) (hlev : ¬level.val < (m.heap l).level)
    (ha : (m.heap l).appenders ≠ []) (hfree : ∀ a ∈ (m.heap l).appenders, holder a.id = none) :
    m.log holder t e level.val (fuel + 1) l rw =
      (rw.calls t (⟨l, false⟩ :: ((m.heap l).appenders.flatMap
        (LogAppender.nameCalls e level.val) ++ [⟨l, true⟩]))).map
          ((m.heap l).appenders.map LogAppender.id, ·) := by
  rw [log]
  refine LoggerLocks.section_eq fun rw => ?_
  rw [if_pos (by omega), if_pos ha, handAll_eq level.val hfree]

variable (rw t e) in
theorem log_silent (fuel : ℕ) (hlev : level.val < (m.heap l).level) :
    m.log holder t e level.val (fuel + 1) l rw =
      (rw.calls t [⟨l, false⟩, ⟨l, true⟩]).map (([] : List ℕ), ·) := by
  rw [log]
  show _ = (rw.calls t (⟨l, false⟩ :: ([] ++ [⟨l, true⟩]))).map _
  refine LoggerLocks.section_eq fun rw => ?_
  rw [if_neg (by omega)]
  rfl

variable (rw t e) in
/-- A call of `log` whose level passes, on a logger without appenders, calls that of the root. -/
theorem log_fallback (h : m.Wf) (hl : l < m.loggerCount) (hroot : l ≠ m.root) (fuel : ℕ)
    (hlev : ¬level.val < (m.heap l).level) (ha : ¬(m.heap l).appenders ≠ []) :
    m.log holder t e level.val (fuel + 1) l rw = (rw.readLock t l).bind fun rw =>
      (m.log holder t e level.val fuel m.root rw).bind fun r =>
        (r.2.unlock t l).map (r.1, ·) := by
  rw [log]
  refine congrArg _ (funext fun rw => ?_)
  rw [if_pos (by omega), if_neg ha, h.root l hl hroot]

variable (rw t e) in
theorem log_calls (h : m.Wf) (hr : m.RootReady) (hl : l < m.loggerCount)
    (hfree : ∀ a ∈ m.handed l level, holder a.id = none) {fuel : ℕ} (hfuel : fuel ≥ 2) :
    m.log holder t e level.val fuel l rw =
      (rw.calls t (m.lockCalls e l level)).map (m.targets l level, ·) := by
  obtain ⟨fuel, rfl⟩ : ∃ n, fuel = n + 2 := ⟨fuel - 2, by omega⟩
  unfold lockCalls targets path
  unfold handed at hfree ⊢
  by_cases hlev : level.val < (m.heap l).level
  · rw [if_pos hlev, if_pos hlev, log_silent rw t e _ hlev]
    rfl
  · rw [if_neg hlev] at hfree
    rw [if_neg hlev, if_neg hlev]
    by_cases ha : (m.heap l).appenders ≠ []
    · rw [if_pos ha] at hfree
      rw [if_pos ha, if_pos ha, log_own rw t e _ hlev ha hfree]
      rfl
    · rw [if_neg ha] at hfree
      rw [if_neg ha, if_neg ha]
      have hroot : l ≠ m.root := by
        -- the root would have to be its own fallback
        rintro rfl
        exact ha (hr.appenders hlev)
      rw [log_fallback rw t e h hl hroot _ hlev ha]
      refine LoggerLocks.section_eq fun rw => ?_
      by_cases hlevroot : level.val < (m.heap m.root).level
      · rw [if_pos hlevroot, log_silent rw t e _ hlevroot]
        rfl
      · rw [if_neg hlevroot] at hfree
        rw [if_neg hlevroot, log_own rw t e _ hlevroot (hr.appenders hlevroot) hfree]
        rfl

theorem path_nodup (hr : m.RootReady) : (m.path l level).Nodup := by
  unfold path
  split
  · exact List.nodup_singleton l
  · rename_i hlev
    split
    · exact List.nodup_singleton l
    · rename_i ha
      refine List.nodup_cons.mpr ⟨fun hmem => ?_, List.nodup_singleton _⟩
      obtain rfl := List.mem_singleton.mp hmem
      exact ha (hr.appenders hlev)

/-- What the mutex of the logger `k` sees of a call of `log`. -/
theorem callsOn_lockCalls (hr : m.RootReady) (k : ℕ) : callsOn k (m.lockCalls e l level) =
    RWMutex.nested (decide (k ∈ m.path l level)) (if k = e then m.asked l level else 0) := by
  have hns := callsOn_names k e level.val (m.handed l level)
  have hnd : (m.path l level).Nodup := path_nodup hr
  unfold lockCalls
  generalize (m.handed l level).flatMap (LogAppender.nameCalls e level.val) = cs at hns
  change callsOn k cs = RWMutex.names (if k = e then m.asked l level else 0) at hns
  generalize m.path l level = ks at hnd
  induction ks with
  | nil => exact hns.trans (List.append_nil _).symm
  | cons j ks ih =>
    obtain ⟨hj, hnd⟩ := List.nodup_cons.mp hnd
    have hrest := ih hnd
    rw [List.foldr_cons]
    generalize ks.foldr (fun k cs => (⟨k, false⟩ : LockCall) :: (cs ++ [⟨k, true⟩])) cs = ds
      at hrest
    by_cases hk : k = j
    · subst hk
      rw [decide_eq_false hj] at hrest
      have hself : callsOn k ((⟨k, false⟩ : LockCall) :: (ds ++ [⟨k, true⟩])) =
          false :: (callsOn k ds ++ [true]) := by
        simp [callsOn]
      rw [hself, hrest, decide_eq_true List.mem_cons_self]
      simp [RWMutex.nested]
    · have hother : callsOn k ((⟨j, false⟩ : LockCall) :: (ds ++ [⟨j, true⟩])) = callsOn k ds := by
        simp [callsOn, Ne.symm hk]
      rw [hother, hrest]
      simp [hk]

theorem targets_nodup (h : m.Wf) (hl : l < m.loggerCount) : (m.targets l level).Nodup := by
  have hnodup : ∀ l < m.loggerCount, ((m.heap l).appenders.map LogAppender.id).Nodup :=
    fun l hl => (h.distinct l hl).nodup
  unfold targets handed
  split
  · exact List.nodup_nil
  · split
    · exact hnodup l hl
    · split
      · exact List.nodup_nil
      · exact hnodup _ h.rootLt

omit [DecidableEq θ] in
/-- Each mutex on its own lets the call of `log` through. -/
theorem passable_iff : m.Passable holder rw t e l level ↔
    (∀ a ∈ m.handed l level, holder a.id = none) ∧ ∀ k,
      (decide (k ∈ m.path l level) = true ∨ 0 < (if k = e then m.asked l level else 0) →
        (rw k).OpenTo t) ∧
      (decide (k ∈ m.path l level) = true → 0 < (if k = e then m.asked l level else 0) →
        (rw k).writer = none) := by
  constructor
  · rintro ⟨hpath, hfree, hname, hown⟩
    refine ⟨hfree, fun k => ?_⟩
    by_cases hk : k = e
    · subst hk
      rw [if_pos rfl]
      refine ⟨?_, fun hmem hn => hown hn (of_decide_eq_true hmem)⟩
      rintro (hmem | hn)
      · exact hpath k (of_decide_eq_true hmem)
      · exact hname hn
    · rw [if_neg hk]
      refine ⟨?_, fun _ hn => absurd hn (Nat.lt_irrefl 0)⟩
      rintro (hmem | hn)
      · exact hpath k (of_decide_eq_true hmem)
      · exact absurd hn (Nat.lt_irrefl 0)
  · rintro ⟨hfree, h⟩
    refine ⟨fun k hk => (h k).1 (.inl (decide_eq_true hk)), hfree, fun hn => (h e).1 (.inr ?_),
      fun hn hmem => (h e).2 (decide_eq_true hmem) ?_⟩
    · rwa [if_pos rfl]
    · rwa [if_pos rfl]

/-- A write hold of another thread on the way stops the call. -/
theorem log_heldPath (h : m.Wf) (hl : l < m.loggerCount) {k : ℕ} (hk : k ∈ m.path l level) {u : θ}
    (hne : u ≠ t) (hu : (rw k).writer = some u) (fuel : ℕ) :
    m.log holder t e level.val (fuel + 2) l rw = .error .blocked := by
  by_cases hkl : k = l
  · subst hkl
    rw [log, LoggerLocks.readLock_held hne hu]
    rfl
  · -- the thread gets to `m_root->log`
    unfold path at hk
    split at hk
    · exact absurd (List.mem_singleton.mp hk) hkl
    · rename_i hlev
      split at hk
      · exact absurd (List.mem_singleton.mp hk) hkl
      · rename_i ha
        obtain rfl : k = m.root := by simpa [hkl] using hk
        rw [log_fallback rw t e h hl (Ne.symm hkl) _ hlev ha]
        refine LoggerLocks.readLock_bind_blocked fun x => ?_
        have hroot : (Function.update rw l x m.root).writer = some u := by
          rw [Function.update_of_ne hkl]
          exact hu
        rw [log, LoggerLocks.readLock_held hne hroot]
        rfl

variable (rw t e) in
/-- A call of `log` that comes to an appender that a thread is in. -/
theorem log_heldOwn (hlev : ¬level.val < (m.heap l).level)
    (hheld : ∃ a ∈ (m.heap l).appenders, holder a.id ≠ none) (fuel : ℕ) :
    m.log holder t e level.val (fuel + 1) l rw = .error .blocked := by
  have hne : (m.heap l).appenders ≠ [] := by
    obtain ⟨a, ha, -⟩ := hheld
    exact List.ne_nil_of_mem ha
  rw [log]
  refine LoggerLocks.readLock_bind_blocked fun x => ?_
  rw [if_pos (by omega), if_pos hne, handAll_held level.val hheld]
  rfl

/-- A write hold of another thread, or a thread in an appender, stops the call. -/
theorem log_blocked (h : m.Wf) (hl : l < m.loggerCount)
    (hheld : m.HeldByOther holder rw t l level) {fuel : ℕ} (hfuel : fuel ≥ 2) :
    m.log holder t e level.val fuel l rw = .error .blocked := by
  obtain ⟨fuel, rfl⟩ : ∃ n, fuel = n + 2 := ⟨fuel - 2, by omega⟩
  rcases hheld with ⟨k, hk, u, hne, hu⟩ | ⟨a, ha, hheld⟩
  · exact log_heldPath h hl hk hne hu fuel
  · unfold handed at ha
    split at ha
    · cases ha
    · rename_i hlev
      split at ha
      · exact log_heldOwn rw t e hlev ⟨a, ha, hheld⟩ (fuel + 1)
      · rename_i hown
        split at ha
        · cases ha
        · rename_i hlevroot
          have hroot : l ≠ m.root := by
            rintro rfl
            exact hown (List.ne_nil_of_mem ha)
          rw [log_fallback rw t e h hl hroot _ hlev hown]
          refine LoggerLocks.readLock_bind_blocked fun x => ?_
          rw [log_heldOwn _ t e hlevroot ⟨a, ha, hheld⟩ fuel]
          rfl

theorem RootReady.delivers_iff (h : m.Wf) (hr : m.RootReady) (hl : l < m.loggerCount)
    (hrw : ∀ k, (rw k).Sound) :
    m.Delivers holder rw t e l level ↔ m.Passable holder rw t e l level := by
  have hcalls : m.Delivers holder rw t e l level ↔ (∀ a ∈ m.handed l level, holder a.id = none) ∧
      ∃ rw', rw.calls t (m.lockCalls e l level) = .ok rw' := by
    constructor
    · rintro ⟨-, rw', hlog⟩
      have hfree : ∀ a ∈ m.handed l level, holder a.id = none := by
        by_contra hheld
        push Not at hheld
        have := (log_blocked h hl (.inr hheld) (Nat.le_refl 2)).symm.trans (hlog 2 (Nat.le_refl 2))
        cases this
      have := (log_calls rw t e h hr hl hfree (Nat.le_refl 2)).symm.trans (hlog 2 (Nat.le_refl 2))
      cases hc : rw.calls t (m.lockCalls e l level) with
      | error s =>
        rw [hc] at this
        cases this
      | ok rw₁ => exact ⟨hfree, rw₁, rfl⟩
    · rintro ⟨hfree, rw', hc⟩
      refine ⟨targets_nodup h hl, rw', fun fuel hfuel => ?_⟩
      rw [log_calls rw t e h hr hl hfree hfuel, hc]
      rfl
  rw [hcalls, passable_iff]
  refine and_congr_right fun _ => ⟨?_, fun hk => ?_⟩
  · rintro ⟨rw', hc⟩ k
    have := (LoggerLocks.calls_eq_ok _).mp hc k
    rw [callsOn_lockCalls hr k] at this
    exact (RWMutex.nested_ok_iff (hrw k) _ _).mp ⟨_, this⟩
  · have hall : ∀ k, ∃ x, (rw k).calls t (callsOn k (m.lockCalls e l level)) = .ok x := by
      intro k
      rw [callsOn_lockCalls hr k]
      exact (RWMutex.nested_ok_iff (hrw k) _ _).mpr (hk k)
    choose rw' hrw' using hall
    exact ⟨rw', (LoggerLocks.calls_eq_ok _).mpr hrw'⟩

end LoggerManager

end Ddg
