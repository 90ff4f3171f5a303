import DdgServer.Lib.Sys
import DdgServer.Log.Reconfigure

/-!
# The logger manager with its configuration variable

The system of the `logs` variable and `LoggerManager`: changes of the variable, `getLogger` and
`delLogger`. A change that throws leaves what the listener has done until then; one whose behaviour
is undefined has no next state. Calls on the loggers themselves are not part of the system.

`LoggerManager.Wf` holds in every state that is reached: the loggers but the root fall back to
the root, the names in the map are those of the loggers, the formatter of a logger is the one of the
constructor, and no two appenders are the same.
-/

namespace Ddg

open Interleave

/-! ## The system -/

structure LogsState where
  logs : ConfigVar LogDefines Unit
  mgr : LoggerManager

inductive LogsOp
  | setValue (v : LogDefines)
  | getLogger (name : Text)
  | delLogger (name : Text)

namespace LogsState

/-- `ConfigVar::setValue` of the `logs` variable. -/
def setValue (s : LogsState) (v : LogDefines) : CallResult LogsState :=
  (s.logs.setValue (fun _ oldDefines newDefines => onLoggerConfChanged oldDefines newDefines) v
    s.mgr).map fun r => ⟨r.1, r.2⟩

def step (s : LogsState) : LogsOp → Option LogsState
  | .setValue v => (s.setValue v).state
  | .getLogger name => some { s with mgr := (s.mgr.getLogger name).2 }
  | .delLogger name => some { s with mgr := s.mgr.delLogger name }

end LogsState

/-- `LoggerManager::LoggerManager`, with the call of `init`. -/
def logsSys : Sys LogsState LogsOp where
  init s := ConfigVar.addListener { val := LogDefines.empty } () = some (0, s.logs) ∧
    s.mgr = LoggerManager.new
  step := LogsState.step

/-- The state at the start. -/
def LogsState.new : LogsState where
  logs := { val := LogDefines.empty, cbs := [(0, ())] }
  mgr := LoggerManager.new

theorem logsSys_init {s : LogsState} : logsSys.init s ↔ s = .new := by
  have ha : ConfigVar.addListener { val := LogDefines.empty } () =
      some (0, LogsState.new.logs) := rfl
  constructor
  · rintro ⟨hl, hm⟩
    rw [ha] at hl
    obtain ⟨logs, mgr⟩ := s
    obtain rfl : LogsState.new.logs = logs := congrArg Prod.snd (Option.some.inj hl)
    exact congrArg (LogsState.mk _) hm
  · rintro rfl
    exact ⟨ha, rfl⟩

/-! ## Well-formed managers -/

/-- The appenders of the logger have identities of their own, below `n`. -/
structure Logger.Distinct (n : ℕ) (g : Logger) : Prop where
  nodup : (g.appenders.map LogAppender.id).Nodup
  lt : ∀ a ∈ g.appenders, a.id < n

namespace LoggerManager

variable {m : LoggerManager} {name other : Text} {l : ℕ} {f : Logger → Logger} {k : ℕ}

structure Wf (m : LoggerManager) : Prop where
  rootLt : m.root < m.loggerCount
  rootRoot : (m.heap m.root).root = none
  root : ∀ l < m.loggerCount, l ≠ m.root → (m.heap l).root = some m.root
  registered : ∀ name l, m.loggers name = some l → l < m.loggerCount ∧ (m.heap l).name = name
  formatter : ∀ l < m.loggerCount, (m.heap l).formatter = defaultFormatter
  distinct : ∀ l < m.loggerCount, (m.heap l).Distinct m.appenderCount

/-- A change of a logger that is not of its name, its root or its formatter. -/
structure Keeps (f : Logger → Logger) : Prop where
  name : ∀ g, (f g).name = g.name
  root : ∀ g, (f g).root = g.root
  formatter : ∀ g, (f g).formatter = g.formatter

theorem Wf.seen_name (h : m.Wf) : (m.seen name).name = name := by
  unfold seen
  split
  · exact (h.registered _ _ ‹_›).2
  · rfl

theorem Wf.seen_formatter (h : m.Wf) : (m.seen name).formatter = defaultFormatter := by
  unfold seen
  split
  · exact h.formatter _ (h.registered _ _ ‹_›).1
  · rfl

theorem Wf.seen_distinct (h : m.Wf) : (m.seen name).Distinct m.appenderCount := by
  unfold seen
  split
  · exact h.distinct _ (h.registered _ _ ‹_›).1
  · exact ⟨List.nodup_nil, List.forall_mem_nil _⟩

/-- The logger that `getLogger` gives is there, or it is the next one. -/
theorem getLogger_cases (m : LoggerManager) (name : Text) :
    m.loggers name = some (m.getLogger name).1 ∨
      m.loggers name = none ∧ (m.getLogger name).1 = m.loggerCount := by
  unfold getLogger
  split
  · exact .inl ‹_›
  · exact .inr ⟨‹_›, rfl⟩

theorem le_change_loggerCount : m.loggerCount ≤ (m.change name f k).loggerCount := by
  rw [change_loggerCount]
  split <;> omega

/-- A logger that is there after a change was changed, or it was there before and is as it was. -/
theorem change_heap_cases (hl : l < (m.change name f k).loggerCount) :
    (l = (m.getLogger name).1 ∧ (m.change name f k).heap l = f (m.seen name)) ∨
      (l ≠ (m.getLogger name).1 ∧ l < m.loggerCount ∧ (m.change name f k).heap l = m.heap l) := by
  rw [change_heap]
  by_cases hlg : l = (m.getLogger name).1
  · subst hlg
    exact .inl ⟨rfl, Function.update_self ..⟩
  · refine .inr ⟨hlg, ?_, Function.update_of_ne hlg ..⟩
    rw [change_loggerCount] at hl
    rcases getLogger_cases m name with hs | ⟨hn, hnew⟩
    · simpa [hs] using hl
    · rw [if_pos hn] at hl
      omega

theorem Wf.getLogger_lt (h : m.Wf) : (m.getLogger name).1 < (m.change name f k).loggerCount := by
  rw [change_loggerCount]
  rcases getLogger_cases m name with hs | ⟨hn, hnew⟩
  · simpa [hs] using (h.registered _ _ hs).1
  · rw [if_pos hn, hnew]
    omega

theorem Wf.change (h : m.Wf) (hf : Keeps f)
    (ha : (m.seen name).Distinct m.appenderCount →
      (f (m.seen name)).Distinct (m.appenderCount + k)) : (m.change name f k).Wf := by
  have hne : ∀ {l}, m.loggers name = none → l < m.loggerCount → l ≠ (m.getLogger name).1 := by
    intro l hn hl
    rcases getLogger_cases m name with hs | ⟨-, hnew⟩
    · simp [hn] at hs
    · omega
  have hroot : m.root = (m.getLogger name).1 → (m.seen name).root = none := by
    intro he
    rcases getLogger_cases m name with hs | ⟨hn, hnew⟩
    · rw [seen_of_some hs, ← he]
      exact h.rootRoot
    · exact absurd he (hne hn h.rootLt)
  have hother : (m.getLogger name).1 ≠ m.root → (m.seen name).root = some m.root := by
    intro he
    rcases getLogger_cases m name with hs | ⟨hn, hnew⟩
    · rw [seen_of_some hs]
      exact h.root _ (h.registered _ _ hs).1 he
    · simp [seen, hn, Logger.setRoot]
  constructor
  · rw [change_root]
    exact Nat.lt_of_lt_of_le h.rootLt le_change_loggerCount
  · rw [change_root]
    rcases change_heap_cases (Nat.lt_of_lt_of_le h.rootLt le_change_loggerCount) with
      ⟨he, hh⟩ | ⟨-, -, hh⟩
    · rw [hh, hf.root]
      exact hroot he
    · rw [hh]
      exact h.rootRoot
  · intro l hl hne'
    rw [change_root] at hne' ⊢
    rcases change_heap_cases hl with ⟨rfl, hh⟩ | ⟨-, hlt, hh⟩
    · rw [hh, hf.root]
      exact hother hne'
    · rw [hh]
      exact h.root l hlt hne'
  · intro name' l hl
    rw [change_loggers] at hl
    rcases Interleave.update_cases hl with ⟨rfl, he⟩ | ⟨hn, he⟩
    · obtain rfl := Option.some.inj he
      refine ⟨h.getLogger_lt, ?_⟩
      rw [change_heap, Function.update_self, hf.name]
      exact h.seen_name
    · obtain ⟨hlt, hname⟩ := h.registered _ _ he
      refine ⟨Nat.lt_of_lt_of_le hlt le_change_loggerCount, ?_⟩
      have hlg : l ≠ (m.getLogger name).1 := by
        rintro rfl
        rcases getLogger_cases m name with hs | ⟨hnone, hnew⟩
        · exact hn (hname.symm.trans (h.registered _ _ hs).2)
        · omega
      rw [change_heap, Function.update_of_ne hlg]
      exact hname
  · intro l hl
    rcases change_heap_cases hl with ⟨-, hh⟩ | ⟨-, hlt, hh⟩
    · rw [hh, hf.formatter]
      exact h.seen_formatter
    · rw [hh]
      exact h.formatter l hlt
  · intro l hl
    rw [change_appenderCount]
    rcases change_heap_cases hl with ⟨-, hh⟩ | ⟨-, hlt, hh⟩
    · rw [hh]
      exact ha h.seen_distinct
    · rw [hh]
      exact ⟨(h.distinct l hlt).nodup, fun a ha => Nat.lt_add_right k ((h.distinct l hlt).lt a ha)⟩

theorem delLogger_eq : m.delLogger name =
    { m with loggers := Function.update m.loggers name none } := by
  unfold delLogger
  split
  · rw [← ‹m.loggers name = none›, Function.update_eq_self]
  · rfl

@[simp] theorem delLogger_heap : (m.delLogger name).heap = m.heap := by
  rw [delLogger_eq]

theorem Wf.delLogger (h : m.Wf) : (m.delLogger name).Wf := by
  rw [delLogger_eq]
  refine ⟨h.rootLt, h.rootRoot, h.root, ?_, h.formatter, h.distinct⟩
  intro name' l hl
  rcases Interleave.update_cases hl with ⟨-, he⟩ | ⟨-, he⟩
  · contradiction
  · exact h.registered _ _ he

theorem getLogger_eq_change : (m.getLogger name).2 = m.change name id 0 := by
  have hcount : m.appenderCount + 0 = (m.getLogger name).2.appenderCount :=
    getLogger_appenderCount.symm
  unfold LoggerManager.change LoggerManager.modify
  rw [hcount]
  simp only [id, Function.update_eq_self]

theorem keeps_id : Keeps id := ⟨fun _ => rfl, fun _ => rfl, fun _ => rfl⟩

theorem Wf.getLogger (h : m.Wf) : (m.getLogger name).2.Wf := by
  rw [getLogger_eq_change]
  exact h.change keeps_id id

theorem wf_new : LoggerManager.new.Wf := by
  have hheap : LoggerManager.new.heap 0 =
      ⟨rootName, 1, defaultFormatter, [⟨0, .stdout, 1, some defaultFormatter⟩], none⟩ := rfl
  have hzero : ∀ l < LoggerManager.new.loggerCount, l = 0 := fun l hl => by
    change l < 1 at hl
    omega
  refine ⟨Nat.zero_lt_one, congrArg Logger.root hheap, ?_, ?_, ?_, ?_⟩
  · intro l hl hne
    exact absurd (hzero l hl) hne
  · intro name l hl
    change Function.update (fun _ => none) rootName (some 0) name = some l at hl
    rcases Interleave.update_cases hl with ⟨rfl, he⟩ | ⟨-, he⟩
    · obtain rfl := Option.some.inj he
      exact ⟨Nat.zero_lt_one, congrArg Logger.name hheap⟩
    · contradiction
  · intro l hl
    rw [hzero l hl, hheap]
  · intro l hl
    rw [hzero l hl, hheap]
    exact ⟨by simp, by simp [LoggerManager.new]⟩

/-! ### The changes of the listener -/

theorem keeps_setLevel (level : ℕ) : Keeps (·.setLevel level) :=
  ⟨fun _ => rfl, fun _ => rfl, fun _ => rfl⟩

theorem keeps_applied (d : LogDefine) (id : ℕ) (as : List LogAppenderDefine) :
    Keeps (d.applied id as) :=
  ⟨fun _ => rfl, fun _ => rfl, fun _ => rfl⟩

theorem applied_distinct (d : LogDefine) (id : ℕ) (as : List LogAppenderDefine)
    (g : Logger) : (d.applied id as g).Distinct (id + as.length) := by
  have hids := map_id_madeAll g.formatter id as
  constructor
  · change ((madeAll g.formatter id as).map LogAppender.id).Nodup
    rw [hids]
    exact List.nodup_range'
  · intro a ha
    have hmem : a.id ∈ (madeAll g.formatter id as).map LogAppender.id := List.mem_map_of_mem ha
    rw [hids, List.mem_range'_1] at hmem
    exact hmem.2

theorem Wf.configure {d : LogDefine} {m' : LoggerManager} (h : m.Wf)
    (hr : (configure d m).state = some m') : m'.Wf := by
  cases configure_state hr with
  | level => exact h.change (keeps_setLevel _) fun hd => ⟨hd.nodup, hd.lt⟩
  | applied as => exact h.change (keeps_applied ..) fun _ => applied_distinct ..

theorem Wf.dropDefine {d : LogDefine} (h : m.Wf) : (dropDefine d m).Wf := by
  rw [dropDefine_eq]
  have hk : Keeps fun g => { g with level := 100, appenders := [] } :=
    ⟨fun _ => rfl, fun _ => rfl, fun _ => rfl⟩
  exact (h.change hk fun _ => ⟨List.nodup_nil, List.forall_mem_nil _⟩).delLogger

theorem Wf.onLoggerConfChanged {old new : LogDefines} {m' : LoggerManager} (h : m.Wf)
    (hr : (onLoggerConfChanged old new m).state = some m') : m'.Wf :=
  onLoggerConfChanged_keeps (fun _ _ _ _ _ _ _ _ hm hr => hm.configure hr)
    (fun _ _ _ _ _ hm => hm.dropDefine) h hr

end LoggerManager

/-! ## The states that are reached -/

/-- The one listener of the variable is that of `init`. -/
structure LogsState.Wf (s : LogsState) : Prop where
  cbs : s.logs.cbs = [(0, ())]
  mgr : s.mgr.Wf

namespace LogsState

variable {s s' : LogsState} {v : LogDefines}

/-- `setValue` by way of the listener. -/
theorem setValue_eq (h : s.logs.cbs = [(0, ())]) : s.setValue v =
    if s.logs.val == v then .done s
    else
      match onLoggerConfChanged s.logs.val v s.mgr with
      | .done m => .done ⟨{ s.logs with val := v }, m⟩
      | .thrown m => .thrown ⟨s.logs, m⟩
      | .crashed => .crashed := by
  unfold setValue ConfigVar.setValue
  by_cases hv : (s.logs.val == v) = true
  · simp [hv]
  · simp only [hv, Bool.false_eq_true, if_false, h, ConfigVar.callAll]
    cases onLoggerConfChanged s.logs.val v s.mgr <;> rfl

/-- The manager after a change of the variable is as it was, or the listener has made it so. -/
theorem setValue_state (h : s.Wf) (hs : (s.setValue v).state = some s') :
    s'.logs.cbs = s.logs.cbs ∧ (s'.mgr = s.mgr ∨ (s.logs.val == v) = false ∧
      (onLoggerConfChanged s.logs.val v s.mgr).state = some s'.mgr) := by
  rw [setValue_eq h.cbs] at hs
  by_cases hv : (s.logs.val == v) = true
  · rw [if_pos hv] at hs
    obtain rfl := Option.some.inj hs
    exact ⟨rfl, .inl rfl⟩
  · rw [if_neg hv] at hs
    cases hr : onLoggerConfChanged s.logs.val v s.mgr with
    | done m | thrown m =>
      rw [hr] at hs
      obtain rfl := Option.some.inj hs
      exact ⟨rfl, .inr ⟨by simpa using hv, rfl⟩⟩
    | crashed => simp [hr] at hs

theorem Wf.step {a : LogsOp} (h : s.Wf) (hs : s.step a = some s') : s'.Wf := by
  cases a with
  | setValue v =>
    obtain ⟨hcbs, he | ⟨-, hr⟩⟩ := setValue_state h hs
    · exact ⟨hcbs.trans h.cbs, he ▸ h.mgr⟩
    · exact ⟨hcbs.trans h.cbs, h.mgr.onLoggerConfChanged hr⟩
  | getLogger name =>
    obtain rfl := Option.some.inj hs
    exact ⟨h.cbs, h.mgr.getLogger⟩
  | delLogger name =>
    obtain rfl := Option.some.inj hs
    exact ⟨h.cbs, h.mgr.delLogger⟩

theorem wf_inductive {C : LogsState → LogsOp → Prop} : logsSys.Inductive C Wf where
  init s hs := by
    rw [logsSys_init.mp hs]
    exact ⟨rfl, LoggerManager.wf_new⟩
  step s a s' h _ hs := h.step hs

end LogsState

end Ddg
