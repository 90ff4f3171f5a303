import Mathlib.Data.List.Forall2
import DdgServer.Log.Pattern

/-!
# Log definitions

`LogLevel`, the types of appenders and the definitions of the `logs` configuration, from
`ddg/log.h` and `ddg/log.cc`, with their texts and their comparisons.
-/

namespace Ddg

/-- `LogLevel::Level`. A variable of that type holds a number, and a cast can make it any number:
the level of a logger or of an appender is a number (`LogLevel.val`). -/
inductive LogLevel
  | debug
  | info
  | warn
  | error
  | fatal
  | unknow
  deriving DecidableEq

namespace LogLevel

def val : LogLevel → ℕ
  | debug => 1
  | info => 2
  | warn => 3
  | error => 4
  | fatal => 5
  | unknow => 6

/-- `LogLevel::ToString`, on the number in the variable. -/
def toString : ℕ → Text
  | 1 => "DEBUG".toList
  | 2 => "INFO".toList
  | 3 => "WARN".toList
  | 4 => "ERROR".toList
  | 5 => "FATAL".toList
  | _ => "UNKNOW".toList

/-- `LogLevel::FromString`. -/
def fromString (level : Text) : LogLevel :=
  let newLevel := level.map Char.toUpper
  if "DEBUG".toList = newLevel then debug
  else if "INFO".toList = newLevel then info
  else if "WARN".toList = newLevel then warn
  else if "ERROR".toList = newLevel then error
  else if "FATAL".toList = newLevel then fatal
  else unknow

theorem val_injective : Function.Injective val := by
  intro a b h
  cases a <;> cases b <;> first | rfl | cases h

/-- Every level is read back from its text. -/
@[simp] theorem fromString_toString (l : LogLevel) : fromString (toString l.val) = l := by
  cases l <;> decide

end LogLevel

/-- `LogAppender::Type`. -/
inductive AppenderType
  | file
  | stdout
  | unknow
  deriving DecidableEq

namespace AppenderType

/-- `LogAppender::ToString`. -/
def toString : AppenderType → Text
  | file => "FileLogAppender".toList
  | stdout => "StdoutLogAppender".toList
  | unknow => "UnknowAppender".toList

/-- `LogAppender::FromString`. -/
def fromString (type : Text) : AppenderType :=
  if "FileLogAppender".toList = type then file
  else if "StdoutLogAppender".toList = type then stdout
  else unknow

@[simp] theorem fromString_toString (t : AppenderType) : fromString (toString t) = t := by
  cases t <;> decide

end AppenderType

structure LogAppenderDefine where
  type : AppenderType := .unknow
  level : LogLevel := .unknow
  formatter : Text := []
  file : Text := []
  deriving DecidableEq

structure LogDefine where
  name : Text := []
  level : LogLevel := .unknow
  formatter : Text := []
  appenders : List LogAppenderDefine := []
  deriving DecidableEq

/-- `LogAppenderDefine::operator==`, which compares the other's `file` with itself. -/
def LogAppenderDefine.same (a oth : LogAppenderDefine) : Bool :=
  a.type == oth.type && a.level == oth.level && a.formatter == oth.formatter && oth.file == oth.file

/-- `LogDefine::operator==`. -/
def LogDefine.same (d oth : LogDefine) : Bool :=
  if d.appenders.length ≠ oth.appenders.length then false
  else if (d.appenders.zip oth.appenders).any fun x => !x.1.same x.2 then false
  else d.name == oth.name && d.level == oth.level && d.formatter == oth.formatter

/-- `operator==` sees every field of an appender but its file. -/
theorem LogAppenderDefine.same_iff {a b : LogAppenderDefine} :
    a.same b = true ↔ { a with file := b.file } = b := by
  obtain ⟨t, l, f, p⟩ := a
  obtain ⟨t', l', f', p'⟩ := b
  simp [same, and_assoc]

theorem LogDefine.same_iff {d e : LogDefine} : d.same e = true ↔
    d.name = e.name ∧ d.level = e.level ∧ d.formatter = e.formatter ∧
      List.Forall₂ (fun a b => a.same b = true) d.appenders e.appenders := by
  unfold same
  rw [List.forall₂_iff_zip]
  by_cases hl : d.appenders.length = e.appenders.length
  · cases ha : (d.appenders.zip e.appenders).any fun x => !x.1.same x.2 with
    | true =>
      obtain ⟨⟨a, b⟩, hab, hs⟩ := List.any_eq_true.mp ha
      refine ⟨by simp [hl], fun h => ?_⟩
      have := h.2.2.2.2 hab
      simp [this] at hs
    | false =>
      have hall : ∀ a b, (a, b) ∈ d.appenders.zip e.appenders → a.same b = true := by
        intro a b hab
        by_contra hs
        exact Bool.false_ne_true (ha ▸ List.any_eq_true.mpr ⟨(a, b), hab, by simpa using hs⟩)
      simp only [hl, ne_eq, not_true_eq_false, if_false, Bool.false_eq_true, Bool.and_eq_true,
        beq_iff_eq, true_and, and_assoc]
      exact ⟨fun h => ⟨h.1, h.2.1, h.2.2, fun hab => hall _ _ hab⟩, fun h => ⟨h.1, h.2.1, h.2.2.1⟩⟩
  · simp [hl]

end Ddg
