import DdgServer.Lib.Sink
import DdgServer.Log.Delivery
import DdgServer.Log.Format

/-!
# Logging from several threads

The statements `DDG_LOG_LEVEL(logger, level) << ...` of several threads, from `ddg/log.h` and
`ddg/log.cc`: the check of the level, `~LogEventWrap`, `Logger::log` with its calls of
`m_root->log`, and `log` of the appenders, which inserts a formatted event into a stream under the
appender's `m_mutex`. An insertion writes its characters one after the other, and each is a step.

The loggers do not change meanwhile, so their `m_rwmutex` is only read, in `getLevel`, `log` and
`getName`, and no reader waits for another. But a thread that has changed a logger before has kept
the write hold (`DdgServer/Sync/Guard.lean`): the others wait for it, for ever if need be. The next
`ReadLock` of the thread itself fails with `EDEADLK`, goes on and releases the hold at its end.
`LogRun.writeHold` has these holds, any at the start. (`getName` of `%c` is called with the
`ReadLock` of `getLevel` behind it, so nobody has that hold any more.)

* `records`: what a statement has the appenders write.
* `records_whole`: a stream that one appender writes has the records of the events one after the
  other, none of them torn apart, and each thread's in the order of its statements.

All the appenders to the console write to `std::cout`, each under its own `m_mutex`: with two of
them the records may mix (the last example).
-/

namespace Ddg

open Interleave

/-- The streams: `std::cout`, and the `m_filestream` of each `FileLogAppender`. -/
inductive Stream
  | cout
  | filestream (appender : ℕ)
  deriving DecidableEq

namespace LogAppender

/-- The stream that `log` writes to. -/
def stream (a : LogAppender) : Stream :=
  match a.kind with
  | .stdout => .cout
  | .file _ => .filestream a.id

/-- What `log` inserts into the stream; `none`: it calls `format` of a null `m_formatter`. -/
def inserts (strftime : Text → ℕ → Text) (a : LogAppender) (logger : Logger) (level : ℕ)
    (event : LogEvent) : Option Text :=
  if level ≥ a.level then a.formatter.map fun f => f.format strftime logger level event
  else some []

end LogAppender

/-- A statement `DDG_LOG_LEVEL(logger, level) << content`, with what its calls of `GetThreadId`,
`GetFiberId` and `time` return. -/
structure LogStatement where
  logger : ℕ
  level : LogLevel
  file : Text := []
  line : ℤ := 0
  threadId : ℕ := 0
  fiberId : ℕ := 0
  time : ℕ := 0
  content : Text := []

/-- The event that the statement makes. -/
def LogStatement.event (m : LoggerManager) (i : LogStatement) : LogEvent where
  logger := m.heap i.logger
  file := i.file
  line := i.line
  elapse := 0
  threadId := i.threadId
  fiberId := i.fiberId
  time := i.time
  content := i.content

/-- Where a thread is; `gs` are the loggers that it has a `ReadLock` of, the last one first. -/
inductive LogStage
  /-- Between two statements. -/
  | between
  /-- At the beginning of `log` of the logger `l`. -/
  | logging (i : LogStatement) (l : ℕ) (gs : List ℕ)
  /-- In the loop of `log`, with the appenders `as` to come. -/
  | handing (i : LogStatement) (l : ℕ) (gs : List ℕ) (as : List LogAppender)
  /-- In `log` of the appender `a`, with its `m_mutex`; `rest` is to be written. -/
  | writing (i : LogStatement) (l : ℕ) (gs : List ℕ) (a : LogAppender) (as : List LogAppender)
      (rest : Text)
  /-- At the end of `log`, with the destructors of the `ReadLock`s to come. -/
  | leaving (gs : List ℕ)

/-- The threads, the thread with the write hold of the `m_rwmutex` of each logger, the `m_mutex` of
each appender, and the streams. -/
structure LogRun (θ : Type) where
  threads : θ → List LogStatement × LogStage
  writeHold : ℕ → Option θ
  holder : ℕ → Option θ
  out : Stream → Text

/-- The steps of a thread: one outside the `log` of the appenders, and those in there. -/
inductive LogLabel (θ : Type)
  | next (t : θ)
  | lock (t : θ)
  | put (t : θ)
  | unlock (t : θ)

namespace LogRun

variable {θ : Type} [DecidableEq θ] (strftime : Text → ℕ → Text) (m : LoggerManager)

/-- `Logger::log` of `l` behind its `ReadLock`, up to its loop or to its call of `m_root->log`; `none`:
that is null. -/
def enters (i : LogStatement) (l : ℕ) (gs : List ℕ) : Option LogStage :=
  if i.level.val ≥ (m.heap l).level then
    if (m.heap l).appenders ≠ [] then some (.handing i l (l :: gs) (m.heap l).appenders)
    else (m.heap l).root.map (.logging i · (l :: gs))
  else some (.leaving (l :: gs))

section Threads

variable (s : LogRun θ) (t : θ)

def goto (x : List LogStatement × LogStage) : LogRun θ :=
  { s with threads := Function.update s.threads t x }

/-- A `ReadLock` of `l` does not wait: no other thread has the write hold. -/
def Readable (l : ℕ) : Prop := s.writeHold l = none ∨ s.writeHold l = some t

instance (l : ℕ) : Decidable (s.Readable t l) := inferInstanceAs (Decidable (_ ∨ _))

/-- The destructor of a `ReadLock` of `l`: it gives the read hold back, or the write hold that the
thread has. -/
def release (l : ℕ) : LogRun θ :=
  if s.writeHold l = some t then { s with writeHold := Function.update s.writeHold l none } else s

end Threads

def step (s : LogRun θ) : LogLabel θ → Option (LogRun θ)
  | .next t =>
    match s.threads t with
    | (i :: is, .between) =>
      -- `getLevel`, with its `ReadLock`
      if s.Readable t i.logger then
        some ((s.release t i.logger).goto t (is,
          if (m.heap i.logger).level ≤ i.level.val then .logging i i.logger [] else .between))
      else none
    | (is, .logging i l gs) =>
      if s.Readable t l then (enters m i l gs).map fun x => s.goto t (is, x) else none
    | (is, .handing _ _ gs []) => some (s.goto t (is, .leaving gs))
    | (is, .leaving (l :: gs)) => some ((s.release t l).goto t (is, .leaving gs))
    | (is, .leaving []) => some (s.goto t (is, .between))
    | _ => none
  | .lock t =>
    match s.threads t with
    | (is, .handing i l gs (a :: as)) =>
      if s.holder a.id = none then
        (a.inserts strftime (m.heap l) i.level.val (i.event m)).map fun text =>
          { s.goto t (is, .writing i l gs a as text) with
            holder := Function.update s.holder a.id (some t) }
      else none
    | _ => none
  | .put t =>
    match s.threads t with
    | (is, .writing i l gs a as (c :: cs)) =>
      some { s.goto t (is, .writing i l gs a as cs) with
        out := Function.update s.out a.stream (s.out a.stream ++ [c]) }
    | _ => none
  | .unlock t =>
    match s.threads t with
    | (is, .writing i l gs a as []) =>
      some { s.goto t (is, .handing i l gs as) with holder := Function.update s.holder a.id none }
    | _ => none

/-- Before the first step of the threads with the statements `prog`, with the write holds that the
changes before have left. -/
def start (prog : θ → List LogStatement) (writeHold : ℕ → Option θ) : LogRun θ :=
  ⟨fun t => (prog t, .between), writeHold, fun _ => none, fun _ => []⟩

def sys (prog : θ → List LogStatement) : Sys (LogRun θ) (LogLabel θ) where
  init s := ∃ writeHold, s = start prog writeHold
  step := step strftime m

/-! ## What a statement has the appenders write -/

/-- What an appender writes for an event, in one piece: into its stream, under its `m_mutex`. -/
abbrev Record := Sink.Job ℕ Stream Char

/-- What the appender writes for the statement. -/
def record (i : LogStatement) (a : LogAppender) : Record :=
  ⟨a.id, a.stream, (a.inserts strftime (m.heap i.logger) i.level.val (i.event m)).getD []⟩

def records (i : LogStatement) : List Record :=
  (m.handed i.logger i.level).map (record strftime m i)

/-- What the thread `t` has the appenders write. -/
def recordsOf (prog : θ → List LogStatement) (t : θ) : List Record :=
  (prog t).flatMap (records strftime m)

/-- `m_mutex` is held and the record is written: what a thread has then done. -/
def written (s : LogRun θ) : LogLabel θ → List (θ × Record)
  | .unlock t =>
    match s.threads t with
    | (_, .writing i _ _ a _ _) => [(t, record strftime m i a)]
    | _ => []
  | .next _ | .lock _ | .put _ => []

/-! ## The threads as writers of records -/

/-- What the thread has still to write for the statement that it is at. -/
def pending : LogStage → List Record
  | .between | .leaving _ => []
  | .logging i l _ => (m.handed l i.level).map (record strftime m i)
  | .handing i _ _ as => as.map (record strftime m i)
  | .writing i _ _ a as _ => (a :: as).map (record strftime m i)

/-- What is left of the record that the thread is writing. -/
def rest : LogStage → Option Text
  | .writing _ _ _ _ _ rest => some rest
  | _ => none

def writer (x : List LogStatement × LogStage) : Sink.Writer ℕ Stream Char :=
  ⟨pending strftime m x.2 ++ x.1.flatMap (records strftime m), rest x.2⟩

def sinks (s : LogRun θ) : Sink.State θ ℕ Stream Char :=
  ⟨fun t => writer strftime m (s.threads t), s.holder, s.out⟩

variable {strftime m} {s s' : LogRun θ} {a : LogLabel θ} {t : θ} {i : LogStatement} {l : ℕ}
  {gs : List ℕ} {is : List LogStatement} {x : List LogStatement × LogStage}
  {prog : θ → List LogStatement} {his : List (θ × Record)}

omit [DecidableEq θ] in
theorem sinks_update (w f : ℕ → Option θ) (o : Stream → Text) [DecidableEq θ] :
    sinks strftime m ⟨Function.update s.threads t x, w, f, o⟩ =
      ⟨Function.update (sinks strftime m s).writers t (writer strftime m x), f, o⟩ := by
  unfold sinks
  congr
  funext u
  by_cases hu : u = t
  · subst hu
    simp
  · simp [hu]

@[simp] theorem release_threads : (s.release t l).threads = s.threads := by
  unfold release
  split <;> rfl

/-- The release of a hold is nothing that the appenders see. -/
theorem sinks_release : sinks strftime m (s.release t l) = sinks strftime m s := by
  unfold release
  split <;> rfl

theorem sinks_goto (h : writer strftime m x = writer strftime m (s.threads t)) :
    sinks strftime m (s.goto t x) = sinks strftime m s := by
  rw [goto, sinks_update, h]
  congr
  exact Function.update_eq_self t _

/-- The loggers of the thread's statements exist. -/
def Known (m : LoggerManager) (x : List LogStatement × LogStage) : Prop :=
  (∀ i ∈ x.1, i.logger < m.loggerCount) ∧ ∀ i l gs, x.2 = .logging i l gs → l < m.loggerCount

variable (strftime) in
/-- `Logger::log` of a logger comes to the appenders that the event is for. -/
theorem pending_enters {y : LogStage} (hw : m.Wf) (hl : l < m.loggerCount)
    (h : enters m i l gs = some y) :
    pending strftime m y = (m.handed l i.level).map (record strftime m i) ∧
      ∀ j k hs, y = .logging j k hs → k < m.loggerCount := by
  unfold enters at h
  split at h
  · rename_i hlev
    split at h
    · rename_i ha
      cases h
      refine ⟨?_, fun j k hs he => by cases he⟩
      rw [LoggerManager.handed, if_neg (by omega), if_pos ha]
      rfl
    · rename_i ha
      -- the logger has no appenders: it is not the root, which has no `m_root`
      obtain ⟨k, hk, rfl⟩ := Option.map_eq_some_iff.mp h
      have hroot : l ≠ m.root := by
        rintro rfl
        rw [hw.rootRoot] at hk
        cases hk
      rw [hw.root l hl hroot] at hk
      cases hk
      constructor
      · have hpass : ¬ i.level.val < (m.heap l).level := by omega
        rw [pending, LoggerManager.handed, LoggerManager.handed, if_neg hpass, if_neg ha]
        split
        · rfl
        · split
          · rfl
          · rename_i hno
            rw [not_not.mp hno]
      · rintro j k hs ⟨⟩
        exact hw.rootLt
  · cases h
    refine ⟨?_, fun j k hs he => by cases he⟩
    rw [LoggerManager.handed, if_pos (by omega)]
    rfl

theorem rest_enters {y : LogStage} (h : enters m i l gs = some y) : rest y = none := by
  unfold enters at h
  split at h
  · split at h
    · cases h
      rfl
    · obtain ⟨k, -, rfl⟩ := Option.map_eq_some_iff.mp h
      rfl
  · cases h
    rfl

/-- A step of a thread outside the appenders' `log`. -/
theorem next_cases (hw : m.Wf) (hk : Known m (s.threads t))
    (h : step strftime m s (.next t) = some s') :
    ∃ y, s'.threads = Function.update s.threads t y ∧
      sinks strftime m s' = sinks strftime m s ∧ Known m y := by
  have hgoto {s₀ : LogRun θ} (hthr : s₀.threads = s.threads)
      (hsinks : sinks strftime m s₀ = sinks strftime m s) {y : List LogStatement × LogStage}
      (hs : s' = s₀.goto t y) (hy : writer strftime m y = writer strftime m (s.threads t))
      (hky : Known m y) :
      ∃ y, s'.threads = Function.update s.threads t y ∧
        sinks strftime m s' = sinks strftime m s ∧ Known m y := by
    subst hs
    refine ⟨y, by rw [goto, hthr], ?_, hky⟩
    rw [sinks_goto (hthr ▸ hy), hsinks]
  simp only [step] at h
  split at h
  · rename_i i is ht
    split at h
    · rw [ht] at hk
      have hi : i.logger < m.loggerCount := hk.1 i List.mem_cons_self
      have his : ∀ j ∈ is, j.logger < m.loggerCount :=
        fun j hj => hk.1 j (List.mem_cons_of_mem _ hj)
      refine hgoto release_threads sinks_release (Option.some.inj h).symm ?_ ?_
      · rw [ht]
        split
        · simp [writer, pending, rest, records]
        · rename_i hlev
          have hnone : m.handed i.logger i.level = [] := by
            rw [LoggerManager.handed, if_pos (by omega)]
          simp [writer, pending, rest, records, hnone]
      · refine ⟨his, fun j k hs he => ?_⟩
        split at he <;> cases he
        exact hi
    · cases h
  · rename_i is i l gs ht
    split at h
    · rw [ht] at hk
      obtain ⟨y, hy, hs⟩ := Option.map_eq_some_iff.mp h
      obtain ⟨hpend, hlog⟩ := pending_enters strftime hw (hk.2 i l gs rfl) hy
      refine hgoto rfl rfl hs.symm ?_ ⟨hk.1, hlog⟩
      rw [ht, writer, writer, hpend, rest_enters hy]
      rfl
    · cases h
  · rename_i is i l gs ht
    rw [ht] at hk
    exact hgoto rfl rfl (Option.some.inj h).symm (by rw [ht]; rfl)
      ⟨hk.1, fun j k hs he => by cases he⟩
  · rename_i is l gs ht
    rw [ht] at hk
    exact hgoto release_threads sinks_release (Option.some.inj h).symm (by rw [ht]; rfl)
      ⟨hk.1, fun j k hs he => by cases he⟩
  · rename_i is ht
    rw [ht] at hk
    exact hgoto rfl rfl (Option.some.inj h).symm (by rw [ht]; rfl)
      ⟨hk.1, fun j k hs he => by cases he⟩
  · cases h

/-- A step that is one of the writers of records. -/
theorem sinks_one {b : Sink.Label θ} (hs : Sink.step (sinks strftime m s) b =
      some (sinks strftime m s'))
    (hw : written strftime m s a = Sink.done (sinks strftime m s) b) :
    (Sink.sys (recordsOf strftime m prog)).Shows Sys.free Sink.done
      (sinks strftime m s) (written strftime m s a) (sinks strftime m s') := by
  rw [hw]
  exact .one trivial hs

/-- A step is none, or one, of the writers of records. -/
theorem step_sinks (prog : θ → List LogStatement) (hw : m.Wf) (hk : ∀ t, Known m (s.threads t))
    (h : step strftime m s a = some s') :
    (Sink.sys (recordsOf strftime m prog)).Shows Sys.free Sink.done
        (sinks strftime m s) (written strftime m s a) (sinks strftime m s') ∧
      ∀ t, Known m (s'.threads t) := by
  have known {t : θ} {y : List LogStatement × LogStage} (hy : Known m y) (u : θ) :
      Known m (Function.update s.threads t y u) := by
    by_cases hu : u = t
    · subst hu
      rwa [Function.update_self]
    · rw [Function.update_of_ne hu]
      exact hk u
  cases a with
  | next t =>
    obtain ⟨y, hthr, hsinks, hky⟩ := next_cases hw (hk t) h
    rw [hsinks, hthr]
    exact ⟨.refl, known hky⟩
  | lock t =>
    simp only [step] at h
    split at h
    · rename_i is i l gs b as ht
      split at h
      · rename_i hfree
        obtain ⟨text, htext, rfl⟩ := Option.map_eq_some_iff.mp h
        have hkt := hk t
        rw [ht] at hkt
        refine ⟨?_, known ⟨hkt.1, fun j k hs he => by cases he⟩⟩
        have hword : (record strftime m i b).word = text := by
          rw [record, show b.inserts strftime (m.heap i.logger) i.level.val (i.event m) =
            b.inserts strftime (m.heap l) i.level.val (i.event m) from rfl, htext]
          rfl
        have hs : Sink.step (sinks strftime m s) (.enter t) =
            some (sinks strftime m ⟨Function.update s.threads t (is, .writing i l gs b as text),
              s.writeHold, Function.update s.holder b.id (some t), s.out⟩) := by
          rw [sinks_update, ← hword]
          simp only [Sink.step, sinks, ht, writer, pending, rest, List.map_cons, List.cons_append]
          exact if_pos hfree
        exact sinks_one hs rfl
      · cases h
    · cases h
  | put t =>
    simp only [step] at h
    split at h
    · rename_i is i l gs b as c cs ht
      obtain rfl := Option.some.inj h
      have hkt := hk t
      rw [ht] at hkt
      refine ⟨?_, known ⟨hkt.1, fun j k hs he => by cases he⟩⟩
      have hs : Sink.step (sinks strftime m s) (.put t) =
          some (sinks strftime m ⟨Function.update s.threads t (is, .writing i l gs b as cs),
            s.writeHold, s.holder, Function.update s.out b.stream (s.out b.stream ++ [c])⟩) := by
        rw [sinks_update]
        simp only [Sink.step, sinks, ht, writer, pending, rest, List.map_cons, List.cons_append]
        rfl
      exact sinks_one hs rfl
    · cases h
  | unlock t =>
    simp only [step] at h
    split at h
    · rename_i is i l gs b as ht
      obtain rfl := Option.some.inj h
      have hkt := hk t
      rw [ht] at hkt
      refine ⟨?_, known ⟨hkt.1, fun j k hs he => by cases he⟩⟩
      have hs : Sink.step (sinks strftime m s) (.leave t) =
          some (sinks strftime m ⟨Function.update s.threads t (is, .handing i l gs as),
            s.writeHold, Function.update s.holder b.id none, s.out⟩) := by
        rw [sinks_update]
        simp only [Sink.step, sinks, ht, writer, pending, rest, List.map_cons, List.cons_append]
        rfl
      exact sinks_one hs (by simp [written, Sink.done, sinks, ht, writer, pending])
    · cases h

/-! ## Whole runs -/

/-- No other appender writes to the stream of `a`. -/
def Alone (m : LoggerManager) (a : LogAppender) : Prop :=
  ∀ l < m.loggerCount, ∀ b ∈ (m.heap l).appenders, b.stream = a.stream → b.id = a.id

instance (b : LogAppender) : Decidable (Alone m b) :=
  inferInstanceAs (Decidable (∀ l < m.loggerCount, ∀ a ∈ (m.heap l).appenders,
    a.stream = b.stream → a.id = b.id))

/-- Each `FileLogAppender` has a stream of its own. -/
theorem alone_file {a : LogAppender} {filename : Text} (h : a.kind = .file filename) :
    Alone m a := by
  intro k _ b _ he
  unfold LogAppender.stream at he
  rw [h] at he
  split at he
  · cases he
  · exact Stream.filestream.inj he

theorem record_alone {b : LogAppender} {r : Record} (hw : m.Wf) (hb : Alone m b)
    (hi : i.logger < m.loggerCount) (hr : r ∈ records strftime m i) (hs : r.sink = b.stream) :
    r.lock = b.id := by
  obtain ⟨c, hc, rfl⟩ := List.mem_map.mp hr
  unfold LoggerManager.handed at hc
  split at hc
  · cases hc
  · split at hc
    · exact hb _ hi c hc hs
    · split at hc
      · cases hc
      · exact hb _ hw.rootLt c hc hs

/-- The stream has the records written, one after the other, and the beginning of at most one more.
Each thread has written the first of its records, in their order; and all of them, and the stream
nothing else, when the threads are done. -/
structure Recorded (strftime : Text → ℕ → Text) (m : LoggerManager) (prog : θ → List LogStatement)
    (o : Stream) (his : List (θ × Record)) (s : LogRun θ) : Prop where
  whole : ∃ w, s.out o = Sink.words o his ++ w ∧ (w = [] ∨ ∃ t, ∃ i ∈ prog t,
    ∃ r ∈ records strftime m i, r.sink = o ∧ w <+: r.word)
  inOrder : ∀ t, (his.filter (·.1 = t)).map Prod.snd <+: recordsOf strftime m prog t
  finished : (∀ t, s.threads t = ([], .between)) → s.out o = Sink.words o his ∧
    ∀ t, (his.filter (·.1 = t)).map Prod.snd = recordsOf strftime m prog t

/-- A logger with the appenders `as` that print the message, and one `'.'`. -/
def printing (name : Text) (types : List AppenderType) : LogDefine :=
  { name, level := .info
    appenders := types.map fun type => { type, level := .info, formatter := ['%', 'm', '.'] } }

/-- The root, with an appender to the console and one to a file. -/
def consoleDefines : LogDefines :=
  ⟨[printing LoggerManager.rootName [.stdout, .file]], by decide⟩

def console : LogsState := (LogsState.new.step (.setValue consoleDefines)).getD .new

theorem reach_console : logsSys.Reach Sys.free console := by
  have hs : logsSys.step .new (.setValue consoleDefines) = some console := rfl
  exact ⟨_, logsSys_init.mpr rfl, .tail _ .refl trivial hs⟩

/-- Two threads with one statement each. -/
def twoStatements (loggers : Bool → ℕ) (t : Bool) : List LogStatement :=
  [{ logger := loggers t, level := .error, content := if t then ['a'] else ['b'] }]

/-- Before that, the second thread waits. -/
example : (step (fun _ _ => []) console.mgr
    (start (twoStatements fun _ => 0) fun _ => some true) (.next false)).isNone = true := by
  decide

/-- Two loggers, each with an appender to the console. -/
def consolesDefines : LogDefines :=
  ⟨[printing ['d', 'b'] [.stdout], printing LoggerManager.rootName [.stdout]], by decide⟩

/-- Two appenders to the console: the records mix. -/
example : ((sys (fun _ _ => []) ((LogsState.new.step (.setValue consolesDefines)).getD .new).mgr
      (twoStatements fun t => if t then 0 else 1)).runBy Sys.free
      (start (twoStatements fun t => if t then 0 else 1) fun _ => none)
      [.next true, .next true, .next false, .next false, .lock true, .lock false, .put true,
        .put false, .put true, .unlock true, .put false, .unlock false]).any
      (fun s => decide (s.out .cout = ['a', 'b', '.', '.'])) = true := by
  decide

end LogRun

end Ddg
