import Mathlib.Logic.Function.Basic
import DdgServer.Log.Define

/-!
# Loggers

`LogAppender`, `Logger` and the logger map of `LoggerManager`, from `ddg/log.h` and `ddg/log.cc`.
The loggers are on a heap (`LoggerManager.heap`) under numbers; an appender is in one logger, so it
is a value with a number, its identity. What is written to a console or to a file is left out: a
call of `Logger::log` hands the event to appenders (`Delivery`).

The locks are left out: one thread makes the calls, one after the other, and its own hold of a mutex
keeps it out of no section. `DdgServer/Log/Delivery.lean` has `Logger::log` with its locks.
-/

namespace Ddg

/-- The class of an appender, with its own members. -/
inductive AppenderKind
  | stdout
  | file (filename : Text)
  deriving DecidableEq

namespace AppenderKind

def type : AppenderKind → AppenderType
  | stdout => .stdout
  | file _ => .file

/-- The file that it writes; an appender to the console has none. -/
def filename : AppenderKind → Text
  | stdout => []
  | file filename => filename

end AppenderKind

/-- A `LogAppender`; `none` is a null `m_formatter`. -/
structure LogAppender where
  id : ℕ
  kind : AppenderKind
  level : ℕ := LogLevel.debug.val
  formatter : Option LogFormatter := none
  deriving DecidableEq

namespace LogAppender

def setLevel (a : LogAppender) (level : ℕ) : LogAppender := { a with level := level }

def setFormatter (a : LogAppender) (val : LogFormatter) : LogAppender :=
  { a with formatter := some val }

end LogAppender

/-- A `Logger`; its formatter is never null, `root` may be. -/
structure Logger where
  name : Text
  level : ℕ
  formatter : LogFormatter
  appenders : List LogAppender
  root : Option ℕ

/-- The pattern in the constructor of `Logger`. -/
def defaultPattern : Text := "%d{%Y-%m-%d %H:%M:%S}%T%t%T%F%T[%p]%T<%f:%l>%T%m%n".toList

def defaultFormatter : LogFormatter :=
  ⟨defaultPattern, (LogFormatter.initPattern defaultPattern []).2, false⟩

namespace Logger

/-- The constructor. -/
def new (name : Text) : Logger :=
  { name, level := LogLevel.debug.val, formatter := defaultFormatter, appenders := [], root := none }

variable (g : Logger)

def setRoot (root : ℕ) : Logger := { g with root := some root }

/-- `Logger::setFormatter(LogFormatter::ptr)`, which sets it in the appenders. -/
def setAppendersFormatter (formatter : LogFormatter) : Logger :=
  { g with appenders := g.appenders.map fun i => i.setFormatter formatter }

/-- `Logger::setFormatter(const std::string&)`, which passes on the formatter that the logger has,
not the one of the pattern; `none`: it throws. -/
def setFormatter (pattern : Text) : Option Logger :=
  match LogFormatter.new pattern with
  | .error _ => none
  | .ok i => some (if i.error then g else g.setAppendersFormatter g.formatter)

def addAppender (appender : LogAppender) : Logger :=
  { g with appenders := g.appenders ++
      [if appender.formatter = none then appender.setFormatter g.formatter else appender] }

def clearAppender : Logger := { g with appenders := [] }

def setLevel (level : ℕ) : Logger := { g with level := level }

end Logger

/-- `m_root` and `m_loggers`, with the objects that there are: the identities below `loggerCount`
and `appenderCount` are taken. -/
structure LoggerManager where
  heap : ℕ → Logger
  loggerCount : ℕ
  appenderCount : ℕ
  root : ℕ
  loggers : Text → Option ℕ

/-- What the body of `Logger::log` does: it hands the event to appenders in turn, it calls `log` of a
null `m_root`, or it is still running when the fuel is out. -/
inductive Delivery
  | handed (targets : List ℕ)
  | nullRoot
  | running
  deriving DecidableEq

namespace LoggerManager

/-- `"root"`. -/
def rootName : Text := ['r', 'o', 'o', 't']

/-- The constructor of `LoggerManager`. -/
def new : LoggerManager where
  heap := Function.update (fun _ => Logger.new []) 0 <|
    ((Logger.new rootName).setLevel LogLevel.debug.val).addAppender
      ((LogAppender.mk 0 .stdout LogLevel.debug.val none).setLevel LogLevel.debug.val)
  loggerCount := 1
  appenderCount := 1
  root := 0
  loggers := Function.update (fun _ => none) rootName (some 0)

variable (m : LoggerManager)

/-- A change of one logger. -/
def modify (l : ℕ) (f : Logger → Logger) : LoggerManager :=
  { m with heap := Function.update m.heap l (f (m.heap l)) }

/-- `LoggerManager::getLogger`. -/
def getLogger (name : Text) : ℕ × LoggerManager :=
  match m.loggers name with
  | some l => (l, m)
  | none =>
    let l := m.loggerCount
    (l, { m with heap := Function.update m.heap l ((Logger.new name).setRoot m.root)
                 loggerCount := m.loggerCount + 1
                 loggers := Function.update m.loggers name (some l) })

/-- `LoggerManager::delLogger`. -/
def delLogger (name : Text) : LoggerManager :=
  match m.loggers name with
  | none => m
  | some _ => { m with loggers := Function.update m.loggers name none }

/-- `Logger::log` without its `ReadLock`, with at most `fuel` calls of `m_root->log`. -/
def logUnlocked : ℕ → ℕ → ℕ → Delivery
  | 0, _, _ => .running
  | fuel + 1, l, level =>
    if level ≥ (m.heap l).level then
      if (m.heap l).appenders ≠ [] then .handed ((m.heap l).appenders.map LogAppender.id)
      else
        match (m.heap l).root with
        | none => .nullRoot
        | some root => logUnlocked fuel root level
    else .handed []

end LoggerManager

/-! ## The fields after an operation -/

namespace Logger

variable {g g' : Logger} {pattern : Text}

theorem setFormatter_accepted (h : LogFormatter.Accepted pattern) :
    g.setFormatter pattern = some (g.setAppendersFormatter g.formatter) := by
  simp [setFormatter, LogFormatter.new_accepted h]

theorem setFormatter_rejected (h : ¬ LogFormatter.Accepted pattern) :
    g.setFormatter pattern = none := by
  simp [setFormatter, LogFormatter.new_rejected h]

end Logger

end Ddg
