import DdgServer.Log.Codec
import DdgServer.Log.Logger

/-!
# The dump of a logger

`Logger::toYamlString` and the `toYamlString` of the appenders, over a YAML library `y`; `none`
where an appender has no formatter, or where the library throws.

`FileLogAppender::toYamlString` writes the type of an appender to the console, and the decoder
takes an empty pattern for a missing one. `castToDefine_toYamlString` is the exact condition under
which the decoder gives the logger's definition back.
-/

namespace Ddg

/-! ## The texts -/

/-- The fields that `StdoutLogAppender::toYamlString` and `FileLogAppender::toYamlString` write. -/
def AppenderKind.fields (kind : AppenderKind) (level : ℕ) (pattern : Text) : List (Text × Yaml) :=
  match kind with
  | .stdout =>
    [(Key.level, .scalar (LogLevel.toString level)),
      (Key.type, .scalar (AppenderType.toString .stdout)),
      (Key.formatter, .scalar pattern)]
  | .file filename =>
    [(Key.level, .scalar (LogLevel.toString level)),
      (Key.type, .scalar (AppenderType.toString .stdout)),
      (Key.formatter, .scalar pattern),
      (Key.file, .scalar filename)]

variable (y : Yaml.Codec)

/-- `LogAppender::toYamlString`. -/
def LogAppender.toYamlString (a : LogAppender) : Option Text :=
  a.formatter.map fun f => y.emit (.ofFields (a.kind.fields a.level f.pattern))

/-- `Logger::toYamlString`. -/
def Logger.toYamlString (g : Logger) : Option Text := do
  let appenders ← g.appenders.mapM fun i => (i.toYamlString y).bind y.load
  return y.emit (.ofFields ([(Key.name, .scalar g.name)] ++
    (if g.level ≠ LogLevel.unknow.val then
      [(Key.level, .scalar (LogLevel.toString g.level))] else []) ++
    [(Key.formatter, .scalar g.formatter.pattern)] ++
    (if appenders ≠ [] then [(Key.appenders, .seq appenders)] else [])))

variable {y}

/-! ## What a definition says of a logger -/

/-- The definition says what the appender is. -/
structure LogAppenderDefine.Describes (d : LogAppenderDefine) (a : LogAppender) : Prop where
  type : d.type = a.kind.type
  level : d.level.val = a.level
  formatter : a.formatter.map LogFormatter.pattern = some d.formatter
  file : d.file = a.kind.filename

/-- The definition says what the logger is, its appenders one for one in order. -/
structure LogDefine.Describes (d : LogDefine) (g : Logger) : Prop where
  name : d.name = g.name
  level : d.level.val = g.level
  formatter : d.formatter = g.formatter.pattern
  appenders : List.Forall₂ LogAppenderDefine.Describes d.appenders g.appenders

/-- A level from `DEBUG` to `FATAL`. -/
def IsLevel (level : ℕ) : Prop := ∃ l : LogLevel, l ≠ .unknow ∧ l.val = level

/-- The loggers that can be dumped: they have a name, a level from `DEBUG` to `FATAL` and a valid
formatter, and so do the appenders. -/
structure Logger.Dumpable (g : Logger) : Prop where
  name : g.name ≠ []
  level : IsLevel g.level
  formatter : LogFormatter.Accepted g.formatter.pattern
  appenderLevel : ∀ a ∈ g.appenders, IsLevel a.level
  appenderFormatter : ∀ a ∈ g.appenders, ∃ f, a.formatter = some f ∧ LogFormatter.Accepted f.pattern

/-! ## What the decoder makes of a dump -/

/-- The pattern of an appender that has a formatter. -/
def LogAppender.pattern (a : LogAppender) : Text := (a.formatter.map LogFormatter.pattern).getD []

/-- What the decoder makes of the dump of an appender. -/
def LogAppender.dumped (a : LogAppender) : LogAppenderDefine where
  type := .stdout
  level := LogLevel.fromString (LogLevel.toString a.level)
  formatter := a.pattern
  file := a.kind.filename

/-- What the decoder makes of the dump of a logger. -/
def Logger.dumped (g : Logger) : LogDefine :=
  let d : LogDefine :=
    { name := g.name, level := LogLevel.fromString (LogLevel.toString g.level),
      formatter := g.formatter.pattern, appenders := g.appenders.map LogAppender.dumped }
  { d with appenders := d.appenders.map (LogAppenderDefine.inherit d) }

theorem foldl_setField_fields (kind : AppenderKind) (level : ℕ) (pattern : Text) :
    ((kind.fields level pattern).map fun kv => (Yaml.scalar kv.1, kv.2)).foldl
      LogAppenderDefine.setField {} =
        ⟨.stdout, LogLevel.fromString (LogLevel.toString level), pattern, kind.filename⟩ := by
  cases kind <;>
    simp [AppenderKind.fields, LogAppenderDefine.setField, Yaml.text, AppenderKind.filename]

theorem castToAppenderDefine_dump (h : y.LoadsEmitted) {a : LogAppender} {f : LogFormatter}
    (hf : a.formatter = some f) :
    castToAppenderDefine y (y.emit (.ofFields (a.kind.fields a.level f.pattern))) =
      some a.dumped := by
  unfold castToAppenderDefine
  rw [h]
  simp only [Option.bind_eq_bind, Option.bind_some, entries_ofFields, Option.pure_def,
    foldl_setField_fields]
  simp [LogAppender.dumped, LogAppender.pattern, hf]

/-- The nodes of appenders that have formatters. -/
def LogAppender.node (a : LogAppender) : Yaml := .ofFields (a.kind.fields a.level a.pattern)

theorem mapM_load_appenders (h : y.LoadsEmitted) {l : List LogAppender}
    (hl : ∀ a ∈ l, ∃ f, a.formatter = some f) :
    (l.mapM fun i => (i.toYamlString y).bind y.load) = some (l.map LogAppender.node) := by
  induction l with
  | nil => rfl
  | cons a l ih =>
    obtain ⟨f, hf⟩ := hl a List.mem_cons_self
    have ha : (a.toYamlString y).bind y.load = some a.node := by
      simp [LogAppender.toYamlString, hf, h _, LogAppender.node, LogAppender.pattern]
    rw [List.mapM_cons, ha, ih fun b hb => hl b (List.mem_cons_of_mem _ hb)]
    rfl

theorem mapM_castTo_dump (h : y.LoadsEmitted) {l : List LogAppender}
    (hl : ∀ a ∈ l, ∃ f, a.formatter = some f) :
    ((l.map LogAppender.node).map y.emit).mapM (castToAppenderDefine y) =
      some (l.map LogAppender.dumped) := by
  induction l with
  | nil => rfl
  | cons a l ih =>
    obtain ⟨f, hf⟩ := hl a List.mem_cons_self
    have ha : castToAppenderDefine y (y.emit a.node) = some a.dumped := by
      rw [← castToAppenderDefine_dump h hf]
      simp [LogAppender.node, LogAppender.pattern, hf]
    rw [List.map_cons, List.map_cons, List.mapM_cons, ha,
      ih fun b hb => hl b (List.mem_cons_of_mem _ hb)]
    rfl

theorem readFields_dumpLevel (node : Yaml) {e : LogDefine} {level : ℕ} (hl : IsLevel level) :
    e.readFields y node (if level ≠ LogLevel.unknow.val then
      [(Key.level, .scalar (LogLevel.toString level))] else []) =
        some { e with level := LogLevel.fromString (LogLevel.toString level) } := by
  obtain ⟨l, hne, rfl⟩ := hl
  have : l.val ≠ LogLevel.unknow.val := fun he => hne (LogLevel.val_injective he)
  simp [this, LogDefine.readFields]

theorem castToDefine_dumped (h : y.LoadsEmitted) {g : Logger} (hg : g.Dumpable) :
    (g.toYamlString y).bind (castToDefine y) = some g.dumped := by
  have hf : ∀ a ∈ g.appenders, ∃ f, a.formatter = some f := fun a ha =>
    let ⟨f, hf, _⟩ := hg.appenderFormatter a ha
    ⟨f, hf⟩
  unfold Logger.toYamlString
  rw [mapM_load_appenders h hf]
  simp only [Option.bind_eq_bind, Option.bind_some, Option.pure_def]
  rw [castToDefine_emit h]
  have hget : ∀ xs : List Yaml, xs ≠ [] → (Yaml.ofFields ([(Key.name, .scalar g.name)] ++
      (if g.level ≠ LogLevel.unknow.val then
        [(Key.level, .scalar (LogLevel.toString g.level))] else []) ++
      [(Key.formatter, .scalar g.formatter.pattern)] ++
      (if xs ≠ [] then [(Key.appenders, .seq xs)] else []))).get Key.appenders =
        some (.seq xs) := by
    intro xs hxs
    have h₁ := Key.appenders_ne_name.symm
    have h₂ := Key.appenders_ne_level.symm
    have h₃ := Key.appenders_ne_formatter.symm
    rw [get_ofFields]
    by_cases hl : g.level = LogLevel.unknow.val <;> simp [hl, hxs, h₁, h₂, h₃]
  specialize hget (g.appenders.map LogAppender.node)
  generalize Yaml.ofFields _ = node at hget ⊢
  rw [readFields_append, readFields_append, readFields_append]
  have hname : LogDefine.readFields y node {} [(Key.name, .scalar g.name)] =
      some { name := g.name } := by
    simp [LogDefine.readFields, hg.name]
  have hform : ∀ e : LogDefine, e.readFields y node [(Key.formatter, .scalar g.formatter.pattern)] =
      some { e with formatter := g.formatter.pattern } := by
    intro e
    simp [LogDefine.readFields, setField_formatter hg.formatter]
  rw [hname, Option.bind_some, readFields_dumpLevel node hg.level, Option.bind_some, hform,
    Option.bind_some, readFields_appenders node rfl (mapM_castTo_dump h hf) hget]
  rfl

/-- A level from `DEBUG` to `FATAL` is read back from its text. -/
theorem IsLevel.read {level : ℕ} (h : IsLevel level) :
    (LogLevel.fromString (LogLevel.toString level)).val = level ∧
      LogLevel.fromString (LogLevel.toString level) ≠ .unknow := by
  obtain ⟨l, hl, rfl⟩ := h
  simp [hl]

/-- What is read of an appender describes it exactly if it writes to the console and its pattern is
not lost to the one of the logger. -/
theorem dumped_describes_iff {a : LogAppender} {f : LogFormatter} (d : LogDefine)
    (hf : a.formatter = some f) (hl : IsLevel a.level) :
    (a.dumped.inherit d).Describes a ↔ a.kind = .stdout ∧ (d.formatter ≠ [] → a.pattern ≠ []) := by
  have hpat : a.pattern = f.pattern := by simp [LogAppender.pattern, hf]
  constructor
  · intro hda
    refine ⟨?_, fun hne hp => ?_⟩
    · have ht := hda.type
      cases hk : a.kind with
      | stdout => rfl
      | file p => simp [LogAppender.dumped, LogAppenderDefine.inherit, hk, AppenderKind.type] at ht
    · have hform := hda.formatter
      simp only [hf, Option.map_some, LogAppender.dumped, LogAppenderDefine.inherit, hne, hp,
        ne_eq, not_false_eq_true, and_self, if_true, Option.some.injEq] at hform
      exact hne (hform.symm.trans (hpat.symm.trans hp))
  · rintro ⟨hk, hp⟩
    constructor
    · simp [LogAppender.dumped, LogAppenderDefine.inherit, hk, AppenderKind.type]
    · simp [LogAppender.dumped, LogAppenderDefine.inherit, hl.read.1, hl.read.2]
    · have hkeep : ¬ (d.formatter ≠ [] ∧ a.dumped.formatter = []) := fun hh => hp hh.1 hh.2
      rw [LogAppenderDefine.inherit, if_neg hkeep, hf]
      exact congrArg some hpat.symm
    · simp [LogAppender.dumped, LogAppenderDefine.inherit]

/-- **Dump and reload**: the decoder gives the logger's definition back exactly if no appender
writes to a file, and none has the empty pattern in a logger with another one. -/
theorem castToDefine_toYamlString (h : y.LoadsEmitted) {g : Logger} (hg : g.Dumpable) :
    (∃ d, (g.toYamlString y).bind (castToDefine y) = some d ∧ d.Describes g) ↔
      ∀ a ∈ g.appenders, a.kind = .stdout ∧ (g.formatter.pattern ≠ [] → a.pattern ≠ []) := by
  have hdesc : ∀ d : LogDefine, ∀ a ∈ g.appenders, (a.dumped.inherit d).Describes a ↔
      a.kind = .stdout ∧ (d.formatter ≠ [] → a.pattern ≠ []) := by
    intro d a ha
    obtain ⟨f, hf, -⟩ := hg.appenderFormatter a ha
    exact dumped_describes_iff d hf (hg.appenderLevel a ha)
  rw [castToDefine_dumped h hg]
  constructor
  · rintro ⟨d, hd, hdg⟩ a ha
    obtain rfl := Option.some.inj hd
    have happ := hdg.appenders
    simp only [Logger.dumped, List.map_map, List.forall₂_map_left_iff, List.forall₂_same] at happ
    exact (hdesc _ a ha).mp (happ a ha)
  · intro hall
    refine ⟨g.dumped, rfl, rfl, hg.level.read.1, rfl, ?_⟩
    simp only [Logger.dumped, List.map_map, List.forall₂_map_left_iff, List.forall₂_same]
    intro a ha
    exact (hdesc _ a ha).mpr (hall a ha)

/-- The formatter of the pattern `%m`. -/
def messageFormatter : LogFormatter := ⟨['%', 'm'], [.message], false⟩

/-- A logger with one appender. -/
def Logger.withOne (kind : AppenderKind) : Logger where
  name := ['d', 'b']
  level := LogLevel.debug.val
  formatter := messageFormatter
  appenders := [⟨1, kind, LogLevel.info.val, some messageFormatter⟩]
  root := some 0

theorem withOne_dumpable (kind : AppenderKind) : (Logger.withOne kind).Dumpable := by
  have hm : LogFormatter.Accepted messageFormatter.pattern := by decide
  refine ⟨by simp [Logger.withOne], ⟨.debug, by decide, rfl⟩, hm, ?_, ?_⟩
  · intro a ha
    rw [List.mem_singleton.mp ha]
    exact ⟨.info, by decide, rfl⟩
  · intro a ha
    rw [List.mem_singleton.mp ha]
    exact ⟨messageFormatter, rfl, hm⟩

/-- What `yaml-cpp` emits for the nodes of `Logger.withOne`, in the place of their flow texts. -/
def dumpStyles : List (Text × Text) :=
  [("\x7blevel: INFO, type: StdoutLogAppender, formatter: \"%m\", \x7d".toList,
      "level: INFO\ntype: StdoutLogAppender\nformatter: \"%m\"".toList),
    ("\x7bname: db, level: DEBUG, formatter: \"%m\", ".toList ++
        "appenders: [\x7blevel: INFO, type: StdoutLogAppender, formatter: \"%m\", \x7d, ], \x7d".toList,
      "name: db\nlevel: DEBUG\nformatter: \"%m\"\nappenders:\n".toList ++
        "  - level: INFO\n    type: StdoutLogAppender\n    formatter: \"%m\"".toList),
    ("\x7blevel: INFO, type: StdoutLogAppender, formatter: \"%m\", file: /tmp/db.log, \x7d".toList,
      "level: INFO\ntype: StdoutLogAppender\nformatter: \"%m\"\nfile: /tmp/db.log".toList),
    ("\x7bname: db, level: DEBUG, formatter: \"%m\", ".toList ++
        "appenders: [\x7blevel: INFO, type: StdoutLogAppender, formatter: \"%m\", ".toList ++
        "file: /tmp/db.log, \x7d, ], \x7d".toList,
      "name: db\nlevel: DEBUG\nformatter: \"%m\"\nappenders:\n".toList ++
        "  - level: INFO\n    type: StdoutLogAppender\n    formatter: \"%m\"\n".toList ++
        "    file: /tmp/db.log".toList)]

theorem dumpStyles_styles : Yaml.Flow.Styles dumpStyles := by
  unfold dumpStyles
  repeat rw [String.toList_ofList]
  decide +kernel

/-- A logger that writes to the console. -/
theorem castToDefine_toYamlString_stdout :
    ∃ d, ((Logger.withOne .stdout).toYamlString (Yaml.Flow.restyle dumpStyles)).bind
        (castToDefine (Yaml.Flow.restyle dumpStyles)) = some d ∧
      d.Describes (Logger.withOne .stdout) := by
  refine (castToDefine_toYamlString (Yaml.Flow.restyle_loadsEmitted dumpStyles_styles)
    (withOne_dumpable .stdout)).mpr ?_
  intro a ha
  rw [List.mem_singleton.mp ha]
  exact ⟨rfl, fun _ => by decide⟩

/-- An appender to a file is read back as one to the console. -/
theorem castToDefine_toYamlString_file :
    (Yaml.Flow.restyle dumpStyles).LoadsEmitted ∧
    (Logger.withOne (.file "/tmp/db.log".toList)).Dumpable ∧
    ¬ ∃ d, ((Logger.withOne (.file "/tmp/db.log".toList)).toYamlString
        (Yaml.Flow.restyle dumpStyles)).bind (castToDefine (Yaml.Flow.restyle dumpStyles)) =
          some d ∧ d.Describes (Logger.withOne (.file "/tmp/db.log".toList)) := by
  have hy := Yaml.Flow.restyle_loadsEmitted dumpStyles_styles
  have hg := withOne_dumpable (.file "/tmp/db.log".toList)
  refine ⟨hy, hg, ?_⟩
  rintro ⟨d, hd, hdg⟩
  rw [castToDefine_dumped hy hg] at hd
  obtain rfl := Option.some.inj hd
  obtain ⟨htype, -⟩ := List.forall₂_cons.mp hdg.appenders
  exact absurd htype.type (by decide)

end Ddg
