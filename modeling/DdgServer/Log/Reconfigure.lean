import Mathlib.Data.List.Nodup
import DdgServer.Config.Var
import DdgServer.Log.Logger

/-!
# Changes of the `logs` configuration

The listener that `LoggerManager::init` registers, `onLoggerConfChanged`: it applies the new
definitions one after the other and silences the loggers of those that are gone. A pattern that
`LogFormatter` rejects makes it throw in the middle.

All that it does to the loggers is `LoggerManager.change`, which gets a logger by its name and
changes it, and `delLogger`:

* `configure_cases`: how applying one definition ends, and in which state.
* `onLoggerConfChanged_keeps`: what each change keeps, the listener keeps, also where it throws.
-/

namespace Ddg

/-! ## Sets of definitions -/

/-- `std::set<LogDefine>`, in the order of its iteration; `operator<` compares the names. -/
structure LogDefines where
  defs : List LogDefine
  sorted : defs.Pairwise fun a b => a.name < b.name

namespace LogDefines

def empty : LogDefines := ⟨[], .nil⟩

/-- `find(i)`, which looks for the name of `i`. -/
def find (s : LogDefines) (name : Text) : Option LogDefine := s.defs.find? fun d => d.name == name

/-- `operator==` of the container. -/
def same (s oth : LogDefines) : Bool :=
  s.defs.length == oth.defs.length && (s.defs.zip oth.defs).all fun x => x.1.same x.2

instance : BEq LogDefines := ⟨same⟩

/-- The definition `i` is in `s`, as its `operator==` has it. -/
def skips (s : LogDefines) (i : LogDefine) : Bool :=
  match s.find i.name with
  | none => false
  | some e => i.same e

end LogDefines

/-! ## The listener -/

/-- `Logger::log` of the root, behind the check in `DDG_LOG_LEVEL`, where no other thread has the
root's mutex. -/
def LoggerManager.say (m : LoggerManager) (level : LogLevel) : CallResult LoggerManager :=
  if (m.heap m.root).level ≤ level.val then
    match m.logUnlocked (m.loggerCount + 1) m.root level.val with
    | .handed _ => .done m
    | _ => .crashed
  else .done m

/-- `logger->addAppender(ap)`, for a new appender. -/
def LoggerManager.addAppender (m : LoggerManager) (logger : ℕ) (ap : LogAppender) :
    LoggerManager :=
  { m.modify logger (·.addAppender ap) with appenderCount := m.appenderCount + 1 }

/-- One turn of the loop over `i.appenders`. -/
def addDefined (logger : ℕ) (appender : LogAppenderDefine) (m : LoggerManager) :
    CallResult LoggerManager :=
  let add (kind : AppenderKind) : CallResult LoggerManager :=
    let ap := ({ id := m.appenderCount, kind } : LogAppender).setLevel appender.level.val
    if appender.formatter ≠ [] then
      match LogFormatter.new appender.formatter with
      | .error _ => .thrown m
      | .ok f => .done (m.addAppender logger (ap.setFormatter f))
    else .done (m.addAppender logger ap)
  match appender.type with
  | .stdout => add .stdout
  | .file => add (.file appender.file)
  -- a message, and then `ap->setLevel` of a null `ap`
  | .unknow => .crashed

def addAllDefined (logger : ℕ) : List LogAppenderDefine → LoggerManager →
    CallResult LoggerManager
  | [], m => .done m
  | appender :: rest, m => (addDefined logger appender m).bind (addAllDefined logger rest)

/-- What the first loop does with a definition that it does not skip. -/
def configure (i : LogDefine) (m : LoggerManager) : CallResult LoggerManager :=
  let logger := (m.getLogger i.name).1
  let m := (m.getLogger i.name).2.modify logger (·.setLevel i.level.val)
  let formatted : CallResult LoggerManager :=
    if i.formatter ≠ [] then
      match (m.heap logger).setFormatter i.formatter with
      | none => .thrown m
      | some g => .done (m.modify logger fun _ => g)
    else .done m
  formatted.bind fun m => addAllDefined logger i.appenders (m.modify logger (·.clearAppender))

/-- The first loop. -/
def applyDefines (oldDefines : LogDefines) : List LogDefine → LoggerManager →
    CallResult LoggerManager
  | [], m => .done m
  | i :: is, m =>
    if oldDefines.skips i then applyDefines oldDefines is m
    else (configure i m).bind (applyDefines oldDefines is)

/-- What the second loop does with a definition that is gone. -/
def dropDefine (i : LogDefine) (m : LoggerManager) : LoggerManager :=
  let logger := (m.getLogger i.name).1
  let m := (m.getLogger i.name).2.modify logger (·.setLevel 100)
  (m.modify logger (·.clearAppender)).delLogger i.name

/-- The second loop. -/
def dropDefines (newDefines : LogDefines) : List LogDefine → LoggerManager → LoggerManager
  | [], m => m
  | i :: is, m =>
    match newDefines.find i.name with
    | none => dropDefines newDefines is (dropDefine i m)
    | some _ => dropDefines newDefines is m

/-- The callback that `LoggerManager::init` registers. -/
def onLoggerConfChanged (oldDefines newDefines : LogDefines) (m : LoggerManager) :
    CallResult LoggerManager :=
  (m.say .info).bind fun m =>
    (applyDefines oldDefines newDefines.defs m).bind fun m =>
      .done (dropDefines newDefines oldDefines.defs m)

/-! ## One logger -/

namespace LoggerManager

variable {m : LoggerManager} {name other : Text} {l : ℕ} {f : Logger → Logger} {k : ℕ}

/-- Gets a logger by its name and changes it; `k` appenders are new. -/
def change (m : LoggerManager) (name : Text) (f : Logger → Logger) (k : ℕ) : LoggerManager :=
  { (m.getLogger name).2.modify (m.getLogger name).1 f with appenderCount := m.appenderCount + k }

/-- The logger that `getLogger` gives. -/
def seen (m : LoggerManager) (name : Text) : Logger :=
  match m.loggers name with
  | some l => m.heap l
  | none => (Logger.new name).setRoot m.root

@[simp] theorem modify_modify (f' : Logger → Logger) :
    (m.modify l f).modify l f' = m.modify l fun g => f' (f g) := by
  simp [modify]

@[simp] theorem modify_heap : (m.modify l f).heap l = f (m.heap l) := by
  simp [modify]

@[simp] theorem getLogger_appenderCount : (m.getLogger name).2.appenderCount = m.appenderCount := by
  unfold getLogger
  split <;> rfl

@[simp] theorem getLogger_root : (m.getLogger name).2.root = m.root := by
  unfold getLogger
  split <;> rfl

theorem getLogger_heap : (m.getLogger name).2.heap (m.getLogger name).1 = m.seen name := by
  unfold getLogger seen
  split <;> simp [*]

theorem getLogger_of_some (h : m.loggers name = some l) : m.getLogger name = (l, m) := by
  simp [getLogger, h]

theorem seen_of_some (h : m.loggers name = some l) : m.seen name = m.heap l := by
  simp [seen, h]

theorem change_loggers :
    (m.change name f k).loggers = Function.update m.loggers name (some (m.getLogger name).1) := by
  unfold change getLogger
  split
  · rename_i l h
    rw [← h, Function.update_eq_self]
    rfl
  · rfl

theorem change_heap :
    (m.change name f k).heap = Function.update m.heap (m.getLogger name).1 (f (m.seen name)) := by
  unfold change modify
  rw [getLogger_heap]
  unfold getLogger
  split
  · rfl
  · exact Function.update_idem ..

@[simp] theorem change_root : (m.change name f k).root = m.root := getLogger_root

theorem change_loggerCount : (m.change name f k).loggerCount =
    if m.loggers name = none then m.loggerCount + 1 else m.loggerCount := by
  unfold change modify getLogger
  split <;> simp [*]

@[simp] theorem change_appenderCount :
    (m.change name f k).appenderCount = m.appenderCount + k := rfl

end LoggerManager

/-! ## One definition -/

/-- A pattern that `LogFormatter` throws on where it is used: an empty one is not used. -/
def Rejected (pattern : Text) : Prop := pattern ≠ [] ∧ ¬ LogFormatter.Accepted pattern

instance (pattern : Text) : Decidable (Rejected pattern) :=
  inferInstanceAs (Decidable (_ ∧ _))

/-- An appender that can be made. -/
structure LogAppenderDefine.Good (a : LogAppenderDefine) : Prop where
  known : a.type ≠ .unknow
  formatter : ¬ Rejected a.formatter

/-- A definition that can be applied. -/
structure LogDefine.Good (d : LogDefine) : Prop where
  formatter : ¬ Rejected d.formatter
  appenders : ∀ a ∈ d.appenders, a.Good

instance (a : LogAppenderDefine) : Decidable a.Good :=
  decidable_of_iff (a.type ≠ .unknow ∧ ¬ Rejected a.formatter)
    ⟨fun h => ⟨h.1, h.2⟩, fun h => ⟨h.1, h.2⟩⟩

instance (d : LogDefine) : Decidable d.Good :=
  decidable_of_iff (¬ Rejected d.formatter ∧ ∀ a ∈ d.appenders, a.Good)
    ⟨fun h => ⟨h.1, h.2⟩, fun h => ⟨h.1, h.2⟩⟩

/-- The class of the appender that is made. -/
def LogAppenderDefine.kind (a : LogAppenderDefine) : AppenderKind :=
  if a.type = .file then .file a.file else .stdout

/-- The appender that is made, in a logger with the formatter `formatter`. -/
def LogAppenderDefine.made (a : LogAppenderDefine) (formatter : LogFormatter) (id : ℕ) :
    LogAppender where
  id := id
  kind := a.kind
  level := a.level.val
  formatter := some <| if a.formatter = [] then formatter else
    ⟨a.formatter, (LogFormatter.initPattern a.formatter []).2, false⟩

/-- The appenders that are made, with the identities from `id` on. -/
def madeAll (formatter : LogFormatter) : ℕ → List LogAppenderDefine → List LogAppender
  | _, [] => []
  | id, a :: as => a.made formatter id :: madeAll formatter (id + 1) as

/-- The logger to which the definition was applied, up to the appenders `as`. -/
def LogDefine.applied (d : LogDefine) (id : ℕ) (as : List LogAppenderDefine) (g : Logger) :
    Logger :=
  { g with level := d.level.val, appenders := madeAll g.formatter id as }

@[simp] theorem map_id_madeAll (formatter : LogFormatter) (id : ℕ)
    (as : List LogAppenderDefine) :
    (madeAll formatter id as).map LogAppender.id = List.range' id as.length := by
  induction as generalizing id with
  | nil => rfl
  | cons a as ih => simp [madeAll, ih, LogAppenderDefine.made, List.range'_succ]

theorem madeAll_eq_nil {formatter : LogFormatter} {id : ℕ} {as : List LogAppenderDefine} :
    madeAll formatter id as = [] ↔ as = [] := by
  cases as <;> simp [madeAll]

section Appenders

variable {l : ℕ} {a : LogAppenderDefine} {as bs : List LogAppenderDefine} {m : LoggerManager}

/-- The appenders `as` are made and added. -/
def LoggerManager.addMade (m : LoggerManager) (l : ℕ) (as : List LogAppenderDefine) :
    LoggerManager :=
  { m.modify l fun g =>
      { g with appenders := g.appenders ++ madeAll g.formatter m.appenderCount as } with
    appenderCount := m.appenderCount + as.length }

theorem addMade_nil : m.addMade l [] = m := by
  simp [LoggerManager.addMade, LoggerManager.modify, madeAll]

theorem addMade_cons : (m.addMade l [a]).addMade l as = m.addMade l (a :: as) := by
  simp [LoggerManager.addMade, LoggerManager.modify, madeAll, Nat.add_assoc, Nat.add_comm 1]

theorem addDefined_unknow (h : a.type = .unknow) : addDefined l a m = .crashed := by
  simp [addDefined, h]

theorem addDefined_rejected (h : a.type ≠ .unknow) (hr : Rejected a.formatter) :
    addDefined l a m = .thrown m := by
  unfold addDefined
  cases ht : a.type with
  | unknow => exact absurd ht h
  | stdout | file => simp [hr.1, LogFormatter.new_rejected hr.2]

theorem addDefined_good (h : a.Good) : addDefined l a m = .done (m.addMade l [a]) := by
  have hadd : ∀ kind, kind = a.kind →
      (if a.formatter ≠ [] then
        match LogFormatter.new a.formatter with
        | .error _ => CallResult.thrown m
        | .ok f => .done (m.addAppender l ((({ id := m.appenderCount, kind } :
            LogAppender).setLevel a.level.val).setFormatter f))
      else .done (m.addAppender l (({ id := m.appenderCount, kind } :
        LogAppender).setLevel a.level.val))) = .done (m.addMade l [a]) := by
    rintro kind rfl
    by_cases hf : a.formatter = []
    · simp [hf, LoggerManager.addAppender, LoggerManager.addMade, LoggerManager.modify, madeAll,
        Logger.addAppender, LogAppender.setLevel, LogAppender.setFormatter, LogAppenderDefine.made]
    · have hacc : LogFormatter.Accepted a.formatter := by
        by_contra hn
        exact h.formatter ⟨hf, hn⟩
      simp [hf, LogFormatter.new_accepted hacc, LoggerManager.addAppender, LoggerManager.addMade,
        LoggerManager.modify, madeAll, Logger.addAppender, LogAppender.setLevel,
        LogAppender.setFormatter, LogAppenderDefine.made]
  unfold addDefined
  cases ht : a.type with
  | unknow => exact absurd ht h.known
  | stdout => exact hadd _ (by simp [LogAppenderDefine.kind, ht])
  | file => exact hadd _ (by simp [LogAppenderDefine.kind, ht])

/-- The appenders that can be made are made, and the loop goes on. -/
theorem addAllDefined_append (h : ∀ a ∈ as, a.Good) :
    addAllDefined l (as ++ bs) m = addAllDefined l bs (m.addMade l as) := by
  induction as generalizing m with
  | nil => rw [addMade_nil]; rfl
  | cons a as ih =>
    rw [List.cons_append, addAllDefined, addDefined_good (h a List.mem_cons_self),
      CallResult.bind_done, ih fun b hb => h b (List.mem_cons_of_mem _ hb), addMade_cons]

/-- Either all appenders can be made, or there is a first one that cannot. -/
theorem good_or_first_bad (as : List LogAppenderDefine) :
    (∀ a ∈ as, a.Good) ∨ ∃ bs b cs, as = bs ++ b :: cs ∧ (∀ a ∈ bs, a.Good) ∧
      (b.type = .unknow ∨ b.type ≠ .unknow ∧ Rejected b.formatter) := by
  induction as with
  | nil => exact .inl (List.forall_mem_nil _)
  | cons a as ih =>
    by_cases ht : a.type = .unknow
    · exact .inr ⟨[], a, as, rfl, List.forall_mem_nil _, .inl ht⟩
    by_cases hr : Rejected a.formatter
    · exact .inr ⟨[], a, as, rfl, List.forall_mem_nil _, .inr ⟨ht, hr⟩⟩
    rcases ih with hall | ⟨bs, b, cs, rfl, hbs, hb⟩
    · exact .inl (List.forall_mem_cons.mpr ⟨⟨ht, hr⟩, hall⟩)
    · exact .inr ⟨a :: bs, b, cs, rfl, List.forall_mem_cons.mpr ⟨⟨ht, hr⟩, hbs⟩, hb⟩

end Appenders

section Configure

variable {d : LogDefine} {m m' : LoggerManager}

/-- How applying a definition ends. -/
inductive Configures (d : LogDefine) (m : LoggerManager) : CallResult LoggerManager → Prop
  | all : d.Good → Configures d m
      (.done (m.change d.name (d.applied m.appenderCount d.appenders) d.appenders.length))
  | formatter : Rejected d.formatter → Configures d m
      (.thrown (m.change d.name (·.setLevel d.level.val) 0))
  | appender (as : List LogAppenderDefine) (a : LogAppenderDefine) (bs : List LogAppenderDefine) :
      ¬ Rejected d.formatter → d.appenders = as ++ a :: bs → (∀ b ∈ as, b.Good) →
      a.type ≠ .unknow → Rejected a.formatter → Configures d m
        (.thrown (m.change d.name (d.applied m.appenderCount as) as.length))
  | unknow (as : List LogAppenderDefine) (a : LogAppenderDefine) (bs : List LogAppenderDefine) :
      ¬ Rejected d.formatter → d.appenders = as ++ a :: bs → (∀ b ∈ as, b.Good) →
      a.type = .unknow → Configures d m .crashed

/-- The logger is emptied, whatever its formatter was set to, and then the appenders are added. -/
theorem configure_of_formatter (h : ¬ Rejected d.formatter) :
    configure d m = addAllDefined (m.getLogger d.name).1 d.appenders
      { (m.getLogger d.name).2.modify (m.getLogger d.name).1 (d.applied 0 []) with
        appenderCount := m.appenderCount } := by
  unfold configure
  by_cases hf : d.formatter = []
  · simp [hf, Logger.setLevel, Logger.clearAppender, LoggerManager.modify]
    rfl
  · have hacc : LogFormatter.Accepted d.formatter := by
      by_contra hn
      exact h ⟨hf, hn⟩
    simp [hf, Logger.setLevel, Logger.clearAppender, LoggerManager.modify,
      Logger.setFormatter_accepted hacc, Logger.setAppendersFormatter]
    rfl

theorem addMade_applied (as : List LogAppenderDefine) (l : ℕ) (k : ℕ) :
    LoggerManager.addMade { m.modify l (d.applied 0 []) with appenderCount := k } l as =
      { m.modify l (d.applied k as) with appenderCount := k + as.length } := by
  simp [LoggerManager.addMade, LoggerManager.modify, LogDefine.applied, madeAll]

theorem configure_cases (d : LogDefine) (m : LoggerManager) : Configures d m (configure d m) := by
  by_cases hf : Rejected d.formatter
  · have hc : configure d m = .thrown (m.change d.name (·.setLevel d.level.val) 0) := by
      unfold configure
      simp [hf.1, Logger.setFormatter_rejected hf.2, LoggerManager.change, LoggerManager.modify]
    rw [hc]
    exact .formatter hf
  rcases good_or_first_bad d.appenders with hall | ⟨as, a, bs, happ, has, ha⟩
  · have hc := configure_of_formatter (m := m) hf
    rw [← List.append_nil d.appenders, addAllDefined_append hall, addMade_applied] at hc
    rw [hc]
    exact .all ⟨hf, hall⟩
  · have hc := configure_of_formatter (m := m) hf
    rw [happ, addAllDefined_append has, addMade_applied, addAllDefined] at hc
    rcases ha with ht | ⟨ht, hr⟩
    · rw [addDefined_unknow ht] at hc
      rw [hc]
      exact .unknow as a bs hf happ has ht
    · rw [addDefined_rejected ht hr] at hc
      rw [hc]
      exact .appender as a bs hf happ has ht hr

/-- What applying a definition makes of the manager where it does not crash: its logger has the
level, or it is as the definition says up to the first appender with a rejected pattern. -/
inductive Alters (d : LogDefine) (m : LoggerManager) : LoggerManager → Prop
  | level : Rejected d.formatter → Alters d m (m.change d.name (·.setLevel d.level.val) 0)
  | applied (as bs : List LogAppenderDefine) : ¬ Rejected d.formatter → d.appenders = as ++ bs →
      (∀ b ∈ bs.head?, Rejected b.formatter) →
        Alters d m (m.change d.name (d.applied m.appenderCount as) as.length)

theorem configure_state (hr : (configure d m).state = some m') : Alters d m m' := by
  have hc := configure_cases d m
  cases hres : configure d m with
  | done m₁ =>
    rw [hres] at hc hr
    obtain rfl := Option.some.inj hr
    cases hc with
    | all hd => exact .applied d.appenders [] hd.formatter (List.append_nil _).symm (by simp)
  | thrown m₁ =>
    rw [hres] at hc hr
    obtain rfl := Option.some.inj hr
    cases hc with
    | formatter hf => exact .level hf
    | appender as a bs hf happ _ _ ha => exact .applied as (a :: bs) hf happ (by simpa using ha)
  | crashed => simp [hres] at hr

/-- A definition is applied to its end exactly if it can be. -/
theorem configure_done_iff : configure d m = .done m' ↔
    d.Good ∧ m' = m.change d.name (d.applied m.appenderCount d.appenders) d.appenders.length := by
  have hbad : ∀ {as a bs}, d.appenders = as ++ a :: bs → d.Good → a.Good := fun happ hd =>
    hd.appenders _ (by rw [happ]; simp)
  cases hr : configure d m with
  | done m₁ =>
    have hc := configure_cases d m
    rw [hr] at hc
    cases hc with
    | all hd => simp [hd, eq_comm]
  | thrown m₁ =>
    have hc := configure_cases d m
    rw [hr] at hc
    refine iff_of_false (by simp) fun hd => ?_
    cases hc with
    | formatter hf => exact hd.1.formatter hf
    | appender as a bs _ happ _ _ ha => exact (hbad happ hd.1).formatter ha
  | crashed =>
    have hc := configure_cases d m
    rw [hr] at hc
    refine iff_of_false (by simp) fun hd => ?_
    cases hc with
    | unknow as a bs _ happ _ ha => exact (hbad happ hd.1).known ha

theorem dropDefine_eq : dropDefine d m =
    (m.change d.name (fun g => { g with level := 100, appenders := [] }) 0).delLogger d.name := by
  simp only [dropDefine, LoggerManager.modify_modify, Logger.setLevel, Logger.clearAppender]
  simp [LoggerManager.change, LoggerManager.modify]

end Configure

/-! ## Whole changes -/

section Listener

variable {old new : LogDefines} {ds : List LogDefine} {m m' : LoggerManager}

/-- All definitions that are not skipped can be applied. -/
def LogDefines.Clean (old : LogDefines) (ds : List LogDefine) : Prop :=
  ∀ d ∈ ds, old.skips d = false → d.Good

instance : Decidable (old.Clean ds) := inferInstanceAs (Decidable (∀ d ∈ ds, _ → _))

theorem clean_cons {d : LogDefine} : old.Clean (d :: ds) ↔
    (old.skips d = false → d.Good) ∧ old.Clean ds := by
  simp [LogDefines.Clean]

/-- The first loop comes to its end exactly if all that it applies can be applied. -/
theorem applyDefines_done_iff : (∃ m', applyDefines old ds m = .done m') ↔ old.Clean ds := by
  induction ds generalizing m with
  | nil => simp [applyDefines, LogDefines.Clean]
  | cons d ds ih =>
    rw [clean_cons, applyDefines]
    by_cases hs : old.skips d = true
    · simp [hs, ih]
    · simp only [Bool.not_eq_true] at hs
      simp only [hs, Bool.false_eq_true, if_false, true_implies]
      constructor
      · rintro ⟨m', hm'⟩
        cases hc : configure d m with
        | done m₁ =>
          rw [hc, CallResult.bind_done] at hm'
          exact ⟨(configure_done_iff.mp hc).1, ih.mp ⟨m', hm'⟩⟩
        | thrown m₁ => simp [hc] at hm'
        | crashed => simp [hc] at hm'
      · rintro ⟨hd, hclean⟩
        rw [configure_done_iff.mpr ⟨hd, rfl⟩]
        exact ih.mpr hclean

/-- What applying a definition keeps, the first loop keeps, also where it throws. Before a
definition is applied, all before it were. -/
theorem applyDefines_keeps {P : LoggerManager → Prop} (done : List LogDefine)
    (h : ∀ ds₁ d ds₂, done ++ ds = ds₁ ++ d :: ds₂ → old.Clean ds₁ → old.skips d = false →
      ∀ m m', P m → (configure d m).state = some m' → P m')
    (hdone : old.Clean done) (hm : P m) (hr : (applyDefines old ds m).state = some m') : P m' := by
  induction ds generalizing m done with
  | nil =>
    obtain rfl : m = m' := by simpa [applyDefines] using hr
    exact hm
  | cons d ds ih =>
    rw [applyDefines] at hr
    by_cases hs : old.skips d = true
    · rw [if_pos hs] at hr
      refine ih (done ++ [d]) ?_ ?_ hm hr
      · simpa using h
      · intro e he
        rcases List.mem_append.mp he with he | he
        · exact hdone e he
        · rw [List.mem_singleton.mp he]
          simp [hs]
    · rw [if_neg hs] at hr
      have hs' : old.skips d = false := by simpa using hs
      have hhead := h done d ds rfl hdone hs' m
      cases hc : configure d m with
      | done m₁ =>
        rw [hc, CallResult.bind_done] at hr
        refine ih (done ++ [d]) ?_ ?_ (hhead m₁ hm (by rw [hc]; rfl)) hr
        · simpa using h
        · intro e he
          rcases List.mem_append.mp he with he | he
          · exact hdone e he
          · rw [List.mem_singleton.mp he]
            exact fun _ => (configure_done_iff.mp hc).1
      | thrown m₁ =>
        rw [hc] at hr
        exact hhead m' hm (by rw [hc]; exact hr)
      | crashed => simp [hc] at hr

theorem dropDefines_keeps {P : LoggerManager → Prop} {gone : List LogDefine}
    (h : ∀ d ∈ gone, new.find d.name = none → ∀ m, P m → P (dropDefine d m)) (hm : P m) :
    P (dropDefines new gone m) := by
  induction gone generalizing m with
  | nil => exact hm
  | cons d gone ih =>
    have htail : ∀ e ∈ gone, new.find e.name = none → ∀ m, P m → P (dropDefine e m) :=
      fun e he => h e (List.mem_cons_of_mem _ he)
    unfold dropDefines
    split
    · exact ih htail (h d List.mem_cons_self ‹_› m hm)
    · exact ih htail hm

theorem say_state {level : LogLevel} (h : (m.say level).state = some m') : m' = m := by
  unfold LoggerManager.say at h
  split at h
  · split at h
    · exact (Option.some.inj h).symm
    · contradiction
  · exact (Option.some.inj h).symm

theorem say_cases (m : LoggerManager) (level : LogLevel) :
    m.say level = .done m ∨ m.say level = .crashed := by
  unfold LoggerManager.say
  split
  · split
    · exact .inl rfl
    · exact .inr rfl
  · exact .inl rfl

/-- What each change keeps, the listener keeps. It drops definitions only if it has applied the
new ones. -/
theorem onLoggerConfChanged_keeps {P : LoggerManager → Prop}
    (happly : ∀ ds₁ d ds₂, new.defs = ds₁ ++ d :: ds₂ → old.Clean ds₁ → old.skips d = false →
      ∀ m m', P m → (configure d m).state = some m' → P m')
    (hdrop : old.Clean new.defs → ∀ d ∈ old.defs, new.find d.name = none →
      ∀ m, P m → P (dropDefine d m))
    (hm : P m) (hr : (onLoggerConfChanged old new m).state = some m') : P m' := by
  unfold onLoggerConfChanged at hr
  rcases say_cases m .info with hsay | hsay
  · rw [hsay, CallResult.bind_done] at hr
    have hloop : ∀ {m₁}, (applyDefines old new.defs m).state = some m₁ → P m₁ := fun h₁ =>
      applyDefines_keeps [] happly (List.forall_mem_nil _) hm h₁
    cases ha : applyDefines old new.defs m with
    | done m₁ =>
      rw [ha, CallResult.bind_done, CallResult.state_done, Option.some.injEq] at hr
      subst hr
      exact dropDefines_keeps (hdrop (applyDefines_done_iff.mp ⟨m₁, ha⟩)) (hloop (by rw [ha]; rfl))
    | thrown m₁ =>
      rw [ha] at hr
      exact hloop (by rw [ha]; exact hr)
    | crashed => simp [ha] at hr
  · simp [hsay] at hr

end Listener

end Ddg
