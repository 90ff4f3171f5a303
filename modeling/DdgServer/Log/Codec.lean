import DdgServer.Lib.Flow
import DdgServer.Log.Define

/-!
# Log definitions and their texts

The specialisations of `LexicalCast` for `LogAppenderDefine` and `LogDefine` in `ddg/log.h`, over a
YAML library `y`. An exception is `none`. The warnings of the decoders are left out: they change
nothing that is decoded.

* `castToAppenderDefine_castFrom`: an appender's definition is read back from its node.
* `castToDefine_inherited`: what the decoder makes of a definition has the logger's formatter and
  level where an appender gives none.
* `castToDefine_name`: a decoded definition has a name exactly if its text has that key.
* `castToDefine_castFromDefine`: the exact condition under which a decoded definition is stable.
-/

namespace Ddg

/-! ## Keys -/

namespace Key

def name : Text := "name".toList
def level : Text := "level".toList
def formatter : Text := "formatter".toList
def file : Text := "file".toList
def type : Text := "type".toList
def appenders : Text := "appenders".toList

@[simp] theorem level_ne_type : level ≠ type := String.toList_inj.not.mpr (by decide)
@[simp] theorem file_ne_type : file ≠ type := String.toList_inj.not.mpr (by decide)
@[simp] theorem file_ne_level : file ≠ level := String.toList_inj.not.mpr (by decide)
@[simp] theorem formatter_ne_type : formatter ≠ type := String.toList_inj.not.mpr (by decide)
@[simp] theorem formatter_ne_level : formatter ≠ level := String.toList_inj.not.mpr (by decide)
@[simp] theorem formatter_ne_file : formatter ≠ file := String.toList_inj.not.mpr (by decide)
@[simp] theorem level_ne_name : level ≠ name := String.toList_inj.not.mpr (by decide)
@[simp] theorem formatter_ne_name : formatter ≠ name := String.toList_inj.not.mpr (by decide)
@[simp] theorem appenders_ne_name : appenders ≠ name := String.toList_inj.not.mpr (by decide)
@[simp] theorem appenders_ne_level : appenders ≠ level := String.toList_inj.not.mpr (by decide)
@[simp] theorem appenders_ne_formatter : appenders ≠ formatter := String.toList_inj.not.mpr (by decide)

end Key

variable (y : Yaml.Codec)

/-! ## Appenders -/

/-- The node that the encoder of an appender builds. -/
def LogAppenderDefine.node (d : LogAppenderDefine) : Yaml :=
  .ofFields ((if d.level ≠ .unknow then
      [(Key.level, .scalar (LogLevel.toString d.level.val))] else []) ++
    (if d.formatter ≠ [] then [(Key.formatter, .scalar d.formatter)] else []) ++
    (if d.file ≠ [] then [(Key.file, .scalar d.file)] else []) ++
    (if d.type ≠ .unknow then [(Key.type, .scalar d.type.toString)] else []))

/-- `LexicalCast<LogAppenderDefine, std::string>`. -/
def castFromAppenderDefine (d : LogAppenderDefine) : Text := y.emit d.node

/-- One turn of the loop over the entries of an appender's text. -/
def LogAppenderDefine.setField (d : LogAppenderDefine) (kv : Yaml × Yaml) : LogAppenderDefine :=
  let key := kv.1.text
  if key = Key.type then { d with type := AppenderType.fromString kv.2.text }
  else if key = Key.level then { d with level := LogLevel.fromString kv.2.text }
  else if key = Key.file then { d with file := kv.2.text }
  else if key = Key.formatter then { d with formatter := kv.2.text }
  else d

/-- `LexicalCast<std::string, LogAppenderDefine>`. -/
def castToAppenderDefine (v : Text) : Option LogAppenderDefine := do
  let node ← y.load v
  return (← node.entries).foldl LogAppenderDefine.setField {}

/-! ## Loggers -/

/-- `node["formatter"]`, which the encoder of a definition checks again; `none`: `checkValid`
throws. -/
def LogDefine.formatterField (d : LogDefine) : Option (List (Text × Yaml)) :=
  if d.formatter ≠ [] then
    match LogFormatter.checkValid d.formatter with
    | .error _ => none
    | .ok false => some [(Key.formatter, .scalar [])]
    | .ok true => some [(Key.formatter, .scalar d.formatter)]
  else some []

/-- `LexicalCast<LogDefine, std::string>`. -/
def castFromDefine (d : LogDefine) : Option Text := do
  let formatter ← d.formatterField
  let appenders ← d.appenders.mapM fun a => y.load (castFromAppenderDefine y a)
  return y.emit (.ofFields ([(Key.name, .scalar d.name)] ++
    (if d.level ≠ .unknow then [(Key.level, .scalar (LogLevel.toString d.level.val))] else []) ++
    formatter ++ (if appenders ≠ [] then [(Key.appenders, .seq appenders)] else [])))

/-- One turn of the loop over the entries of a definition's text. -/
def LogDefine.setField (node : Yaml) (d : LogDefine) (kv : Yaml × Yaml) : Option LogDefine :=
  let key := kv.1.text
  if key = Key.name then
    if kv.2.text = [] then none else some { d with name := kv.2.text }
  else if key = Key.level then some { d with level := LogLevel.fromString kv.2.text }
  else if key = Key.formatter then
    match LogFormatter.checkValid kv.2.text with
    | .error _ => none
    | .ok false => some { d with formatter := [] }
    | .ok true => some { d with formatter := kv.2.text }
  else if key = Key.appenders then
    -- `node[key]`, not the value of this entry: the first one where the key stands twice
    ((y.starTexts ((node.get key).getD .null)).mapM (castToAppenderDefine y)).map fun l =>
      { d with appenders := d.appenders ++ l }
  else some d

/-- What an appender without a formatter or a level takes from its logger. -/
def LogAppenderDefine.inherit (d : LogDefine) (a : LogAppenderDefine) : LogAppenderDefine :=
  { a with
    formatter := if d.formatter ≠ [] ∧ a.formatter = [] then d.formatter else a.formatter
    level := if d.level ≠ .unknow ∧ a.level = .unknow then d.level else a.level }

/-- `LexicalCast<std::string, LogDefine>`. -/
def castToDefine (v : Text) : Option LogDefine := do
  let node ← y.load v
  let d ← (← node.entries).foldlM (LogDefine.setField y node) {}
  return { d with appenders := d.appenders.map (LogAppenderDefine.inherit d) }

variable {y}

/-! ## An appender is read back -/

theorem entries_ofFields (l : List (Text × Yaml)) :
    (Yaml.ofFields l).entries = some (l.map fun kv => (.scalar kv.1, kv.2)) := by
  unfold Yaml.ofFields
  by_cases h : l = [] <;> simp [h, Yaml.entries]

theorem foldl_setField_node (d : LogAppenderDefine) :
    ∃ kvs, d.node.entries = some kvs ∧ kvs.foldl LogAppenderDefine.setField {} = d := by
  obtain ⟨type, level, formatter, file⟩ := d
  refine ⟨_, entries_ofFields _, ?_⟩
  by_cases hl : level = .unknow <;> by_cases hf : formatter = [] <;> by_cases hp : file = [] <;>
    by_cases ht : type = .unknow <;>
    simp [hl, hf, hp, ht, LogAppenderDefine.setField, Yaml.text]

/-- The node of an appender's definition is decoded as that definition. -/
theorem castToAppenderDefine_castFrom (h : y.LoadsEmitted) (d : LogAppenderDefine) :
    castToAppenderDefine y (castFromAppenderDefine y d) = some d := by
  obtain ⟨kvs, hk, hd⟩ := foldl_setField_node d
  simp [castToAppenderDefine, castFromAppenderDefine, h d.node, hk, hd]

/-! ## What the decoder of a definition makes -/

/-- One entry of a definition's text: only `name` changes the name, to one that is not empty, and
only an accepted pattern becomes the formatter. -/
theorem setField_spec {node : Yaml} {d d' : LogDefine} {kv : Yaml × Yaml}
    (h : LogDefine.setField y node d kv = some d') :
    (if kv.1.text = Key.name then d'.name ≠ [] else d'.name = d.name) ∧
      (d'.formatter = d.formatter ∨ d'.formatter = [] ∨ LogFormatter.Accepted d'.formatter) := by
  unfold LogDefine.setField at h
  simp only at h
  by_cases hn : kv.1.text = Key.name
  · rw [if_pos hn] at h ⊢
    split at h
    · cases h
    · obtain rfl := Option.some.inj h
      exact ⟨‹_›, .inl rfl⟩
  · rw [if_neg hn] at h ⊢
    split at h
    · obtain rfl := Option.some.inj h
      exact ⟨rfl, .inl rfl⟩
    · split at h
      · split at h
        · cases h
        · obtain rfl := Option.some.inj h
          exact ⟨rfl, .inr (.inl rfl)⟩
        · obtain rfl := Option.some.inj h
          exact ⟨rfl, .inr (.inr ‹_›)⟩
      · split at h
        · obtain ⟨l, -, rfl⟩ := Option.map_eq_some_iff.mp h
          exact ⟨rfl, .inl rfl⟩
        · obtain rfl := Option.some.inj h
          exact ⟨rfl, .inl rfl⟩

/-- A definition has a name after the loop if it had one or an entry gives one. -/
theorem foldlM_setField_name {node : Yaml} {kvs : List (Yaml × Yaml)} {d d' : LogDefine}
    (h : kvs.foldlM (LogDefine.setField y node) d = some d') :
    d'.name ≠ [] ↔ d.name ≠ [] ∨ ∃ kv ∈ kvs, kv.1.text = Key.name := by
  induction kvs generalizing d with
  | nil =>
    obtain rfl : d = d' := by simpa using h
    simp
  | cons kv kvs ih =>
    rw [List.foldlM_cons] at h
    obtain ⟨e, he, h⟩ := Option.bind_eq_some_iff.mp h
    have hs := (setField_spec he).1
    rw [ih h]
    rw [List.exists_mem_cons_iff]
    by_cases hn : kv.1.text = Key.name
    · rw [if_pos hn] at hs
      exact iff_of_true (.inl hs) (.inr (.inl hn))
    · rw [if_neg hn] at hs
      rw [hs, or_iff_right hn]

theorem foldlM_setField_formatter {node : Yaml} {kvs : List (Yaml × Yaml)} {d d' : LogDefine}
    (h : kvs.foldlM (LogDefine.setField y node) d = some d')
    (hf : d.formatter = [] ∨ LogFormatter.Accepted d.formatter) :
    d'.formatter = [] ∨ LogFormatter.Accepted d'.formatter := by
  induction kvs generalizing d with
  | nil =>
    obtain rfl : d = d' := by simpa using h
    exact hf
  | cons kv kvs ih =>
    rw [List.foldlM_cons] at h
    obtain ⟨e, he, h⟩ := Option.bind_eq_some_iff.mp h
    refine ih h ?_
    rcases (setField_spec he).2 with hs | hs
    · rwa [hs]
    · exact hs

theorem inherit_formatter {d : LogDefine} {a : LogAppenderDefine} (h : d.formatter ≠ []) :
    (a.inherit d).formatter ≠ [] := by
  by_cases ha : a.formatter = [] <;> simp [LogAppenderDefine.inherit, h, ha]

theorem inherit_level {d : LogDefine} {a : LogAppenderDefine} (h : d.level ≠ .unknow) :
    (a.inherit d).level ≠ .unknow := by
  by_cases ha : a.level = .unknow <;> simp [LogAppenderDefine.inherit, h, ha]

/-- Nothing is left for the appender to take. -/
def LogAppenderDefine.Complete (d : LogDefine) (a : LogAppenderDefine) : Prop :=
  (d.formatter ≠ [] → a.formatter ≠ []) ∧ (d.level ≠ .unknow → a.level ≠ .unknow)

theorem inherit_of_complete {d : LogDefine} {a : LogAppenderDefine} (h : a.Complete d) :
    a.inherit d = a := by
  unfold LogAppenderDefine.inherit
  rw [if_neg fun hl => h.2 hl.1 hl.2, if_neg fun hf => h.1 hf.1 hf.2]

/-- The formatter of a decoded definition is accepted, and its appenders have the formatter and the
level of their logger where they gave none. -/
theorem castToDefine_inherited {v : Text} {d : LogDefine} (h : castToDefine y v = some d) :
    (d.formatter = [] ∨ LogFormatter.Accepted d.formatter) ∧ ∀ a ∈ d.appenders, a.Complete d := by
  obtain ⟨node, -, h⟩ := Option.bind_eq_some_iff.mp h
  obtain ⟨kvs, -, h⟩ := Option.bind_eq_some_iff.mp h
  obtain ⟨e, he, h⟩ := Option.bind_eq_some_iff.mp h
  obtain rfl := Option.some.inj h
  have hf := foldlM_setField_formatter he (.inl rfl)
  refine ⟨hf, fun a ha => ?_⟩
  obtain ⟨b, -, rfl⟩ := List.mem_map.mp ha
  exact ⟨inherit_formatter, inherit_level⟩

/-- The text is a map with the key `name`. -/
def NamesLogger (y : Yaml.Codec) (v : Text) : Prop :=
  ∃ node kvs, y.load v = some node ∧ node.entries = some kvs ∧
    ∃ kv ∈ kvs, kv.1.text = Key.name

/-- A decoded definition has a name exactly if its text has that key. -/
theorem castToDefine_name {v : Text} {d : LogDefine} (h : castToDefine y v = some d) :
    d.name ≠ [] ↔ NamesLogger y v := by
  obtain ⟨node, hl, h⟩ := Option.bind_eq_some_iff.mp h
  obtain ⟨kvs, hk, h⟩ := Option.bind_eq_some_iff.mp h
  obtain ⟨e, he, h⟩ := Option.bind_eq_some_iff.mp h
  obtain rfl := Option.some.inj h
  have hn := foldlM_setField_name he
  simp only [ne_eq, not_true_eq_false, false_or] at hn
  refine hn.trans ⟨fun hkv => ⟨node, kvs, hl, hk, hkv⟩, ?_⟩
  rintro ⟨node', kvs', hl', hk', hkv⟩
  obtain rfl : node = node' := Option.some.inj (hl.symm.trans hl')
  obtain rfl : kvs = kvs' := Option.some.inj (hk.symm.trans hk')
  exact hkv

/-! ## A definition is read back -/

/-- The fields that the encoder of a definition writes. -/
def LogDefine.fields (d : LogDefine) : List (Text × Yaml) :=
  [(Key.name, .scalar d.name)] ++
    (if d.level ≠ .unknow then [(Key.level, .scalar (LogLevel.toString d.level.val))] else []) ++
    (if d.formatter ≠ [] then [(Key.formatter, .scalar d.formatter)] else []) ++
    (if d.appenders ≠ [] then
      [(Key.appenders, .seq (d.appenders.map LogAppenderDefine.node))] else [])

theorem castFromDefine_eq (h : y.LoadsEmitted) {d : LogDefine}
    (hf : d.formatter = [] ∨ LogFormatter.Accepted d.formatter) :
    castFromDefine y d = some (y.emit (.ofFields d.fields)) := by
  have ha : (d.appenders.mapM fun a => y.load (castFromAppenderDefine y a)) =
      some (d.appenders.map LogAppenderDefine.node) := by
    have : (fun a => y.load (castFromAppenderDefine y a)) =
        fun a => pure (LogAppenderDefine.node a) := by
      funext a
      exact h a.node
    rw [this, List.mapM_pure]
    rfl
  have hff : d.formatterField =
      some (if d.formatter ≠ [] then [(Key.formatter, .scalar d.formatter)] else []) := by
    unfold LogDefine.formatterField
    by_cases he : d.formatter = []
    · simp [he]
    · have hc : LogFormatter.checkValid d.formatter = .ok true := hf.resolve_left he
      simp [he, hc]
  unfold castFromDefine LogDefine.fields
  rw [hff]
  simp only [Option.bind_eq_bind, Option.bind_some, ha, ne_eq, List.map_eq_nil_iff]
  rfl

section Fields

variable {node : Yaml} {d : LogDefine}

@[simp] theorem setField_name (s : Text) : d.setField y node (.scalar Key.name, .scalar s) =
    if s = [] then none else some { d with name := s } := by
  by_cases hs : s = [] <;> simp [LogDefine.setField, Yaml.text, hs]

@[simp] theorem setField_level (s : Text) : d.setField y node (.scalar Key.level, .scalar s) =
    some { d with level := LogLevel.fromString s } := by
  simp [LogDefine.setField, Yaml.text]

theorem setField_formatter {s : Text} (h : LogFormatter.Accepted s) :
    d.setField y node (.scalar Key.formatter, .scalar s) = some { d with formatter := s } := by
  have hc : LogFormatter.checkValid s = .ok true := h
  simp [LogDefine.setField, Yaml.text, hc]

theorem setField_appenders {v : Yaml} {xs : List Yaml}
    (hg : node.get Key.appenders = some (.seq xs)) :
    d.setField y node (.scalar Key.appenders, v) =
      ((xs.map y.emit).mapM (castToAppenderDefine y)).map fun l =>
        { d with appenders := d.appenders ++ l } := by
  simp [LogDefine.setField, Yaml.text, hg, Yaml.Codec.starTexts]

end Fields

theorem get_ofFields (l : List (Text × Yaml)) (key : Text) :
    (Yaml.ofFields l).get key = (l.find? fun kv => kv.1 == key).map (·.2) := by
  unfold Yaml.ofFields
  by_cases h : l = []
  · simp [h, Yaml.get]
  · rw [if_neg h]
    unfold Yaml.get
    simp only [List.find?_map, Option.map_map]
    rfl

theorem get_fields (d : LogDefine) (hne : d.appenders ≠ []) :
    (Yaml.ofFields d.fields).get Key.appenders =
      some (.seq (d.appenders.map LogAppenderDefine.node)) := by
  have h₁ := Key.appenders_ne_name.symm
  have h₂ := Key.appenders_ne_level.symm
  have h₃ := Key.appenders_ne_formatter.symm
  rw [get_ofFields]
  unfold LogDefine.fields
  by_cases hl : d.level = .unknow <;> by_cases he : d.formatter = [] <;>
    simp [hl, he, hne, h₁, h₂, h₃]

/-- The loop over written entries. -/
def LogDefine.readFields (y : Yaml.Codec) (node : Yaml) (e : LogDefine) (l : List (Text × Yaml)) :
    Option LogDefine :=
  (l.map fun kv => (Yaml.scalar kv.1, kv.2)).foldlM (LogDefine.setField y node) e

theorem readFields_append (node : Yaml) (e : LogDefine) (l l' : List (Text × Yaml)) :
    e.readFields y node (l ++ l') = (e.readFields y node l).bind fun e => e.readFields y node l' := by
  simp [LogDefine.readFields]

theorem readFields_level (node : Yaml) {e : LogDefine} (he : e.level = .unknow) (level : LogLevel) :
    e.readFields y node (if level ≠ .unknow then
      [(Key.level, .scalar (LogLevel.toString level.val))] else []) =
        some { e with level := level } := by
  by_cases hl : level = .unknow
  · subst hl
    simp [LogDefine.readFields, ← he]
  · simp [LogDefine.readFields, hl]

theorem readFields_formatter (node : Yaml) {e : LogDefine} (he : e.formatter = []) {formatter : Text}
    (hf : formatter = [] ∨ LogFormatter.Accepted formatter) :
    e.readFields y node (if formatter ≠ [] then [(Key.formatter, .scalar formatter)] else []) =
      some { e with formatter := formatter } := by
  by_cases hn : formatter = []
  · subst hn
    simp [LogDefine.readFields, ← he]
  · simp [LogDefine.readFields, hn, setField_formatter (hf.resolve_left hn)]

theorem mapM_castTo_node (h : y.LoadsEmitted) (l : List LogAppenderDefine) :
    ((l.map LogAppenderDefine.node).map y.emit).mapM (castToAppenderDefine y) = some l := by
  have hc : castToAppenderDefine y ∘ castFromAppenderDefine y = pure := by
    funext a
    exact castToAppenderDefine_castFrom h a
  rw [List.map_map, List.mapM_map]
  change l.mapM (castToAppenderDefine y ∘ castFromAppenderDefine y) = _
  rw [hc, List.mapM_pure, List.map_id']
  rfl

theorem readFields_appenders (node : Yaml) {e : LogDefine} (he : e.appenders = []) {xs : List Yaml}
    {l : List LogAppenderDefine} (hl : (xs.map y.emit).mapM (castToAppenderDefine y) = some l)
    (hg : xs ≠ [] → node.get Key.appenders = some (.seq xs)) :
    e.readFields y node (if xs ≠ [] then [(Key.appenders, .seq xs)] else []) =
      some { e with appenders := l } := by
  by_cases hx : xs = []
  · subst hx
    obtain rfl : [] = l := by simpa using hl
    simp [LogDefine.readFields, ← he]
  · rw [if_pos hx]
    unfold LogDefine.readFields
    rw [List.map_cons, List.foldlM_cons, setField_appenders (hg hx), hl]
    simp [he]

/-- The text of written fields is decoded by the loop over them. -/
theorem castToDefine_emit (h : y.LoadsEmitted) (l : List (Text × Yaml)) :
    castToDefine y (y.emit (.ofFields l)) =
      (LogDefine.readFields y (.ofFields l) {} l).map fun d =>
        { d with appenders := d.appenders.map (LogAppenderDefine.inherit d) } := by
  unfold castToDefine
  rw [h]
  simp only [Option.bind_eq_bind, Option.bind_some, entries_ofFields]
  rw [Option.map_eq_bind]
  rfl

/-- A complete definition is read from the fields that the encoder writes, if it has a name. -/
theorem castToDefine_fields (h : y.LoadsEmitted) {d : LogDefine}
    (hf : d.formatter = [] ∨ LogFormatter.Accepted d.formatter)
    (ha : ∀ a ∈ d.appenders, a.Complete d) :
    castToDefine y (y.emit (.ofFields d.fields)) = if d.name = [] then none else some d := by
  have hmap : d.appenders.map (LogAppenderDefine.inherit d) = d.appenders :=
    (List.map_congr_left fun a h => inherit_of_complete (ha a h)).trans (List.map_id' _)
  have hread : LogDefine.readFields y (.ofFields d.fields) {} d.fields =
      if d.name = [] then none else some d := by
    have hg := get_fields d
    generalize Yaml.ofFields d.fields = node at hg
    unfold LogDefine.fields
    rw [readFields_append, readFields_append, readFields_append]
    by_cases hn : d.name = []
    · simp [LogDefine.readFields, hn]
    have hname : LogDefine.readFields y node {} [(Key.name, .scalar d.name)] =
        some { name := d.name } := by
      simp [LogDefine.readFields, hn]
    rw [hname, Option.bind_some, readFields_level node rfl, Option.bind_some,
      readFields_formatter node rfl hf, Option.bind_some, if_neg hn]
    have hxs := readFields_appenders node (e := ⟨d.name, d.level, d.formatter, []⟩) rfl
      (mapM_castTo_node h d.appenders)
    simp only [ne_eq, List.map_eq_nil_iff] at hxs
    exact hxs hg
  rw [castToDefine_emit h, hread]
  by_cases hn : d.name = []
  · rw [if_pos hn]
    rfl
  · rw [if_neg hn]
    change some { d with appenders := d.appenders.map (LogAppenderDefine.inherit d) } = some d
    rw [hmap]

/-- A decoded definition is stable exactly if its text names the logger. -/
theorem castToDefine_castFromDefine (h : y.LoadsEmitted) {v : Text} {d : LogDefine}
    (hd : castToDefine y v = some d) :
    (castFromDefine y d).bind (castToDefine y) = some d ↔ NamesLogger y v := by
  obtain ⟨hf, ha⟩ := castToDefine_inherited hd
  rw [castFromDefine_eq h hf, Option.bind_some, castToDefine_fields h hf ha,
    ← castToDefine_name hd]
  by_cases hn : d.name = [] <;> simp [hn]

/-- What `yaml-cpp` emits for the nodes of some definitions, in the place of their flow texts. -/
def defineStyles : List (Text × Text) :=
  [("\x7bname: root, level: info, appenders: [\x7btype: StdoutLogAppender, \x7d, ], \x7d".toList,
      "name: root\nlevel: info\nappenders:\n  - type: StdoutLogAppender".toList),
    ("\x7btype: StdoutLogAppender, \x7d".toList, "type: StdoutLogAppender".toList),
    ("\x7blevel: INFO, type: StdoutLogAppender, \x7d".toList,
      "level: INFO\ntype: StdoutLogAppender".toList),
    ("\x7bname: root, level: INFO, appenders: [".toList ++
        "\x7blevel: INFO, type: StdoutLogAppender, \x7d, ], \x7d".toList,
      "name: root\nlevel: INFO\nappenders:\n  - level: INFO\n    type: StdoutLogAppender".toList),
    ("\x7blevel: info, \x7d".toList, "level: info".toList),
    ("\x7bname: \"\", level: INFO, \x7d".toList, "name: \"\"\nlevel: INFO".toList)]

theorem defineStyles_styles : Yaml.Flow.Styles defineStyles := by
  unfold defineStyles
  repeat rw [String.toList_ofList]
  decide

/-- A definition whose appender takes its level from the logger. -/
theorem castToDefine_castFromDefine_root :
    (castFromDefine (Yaml.Flow.restyle defineStyles)
      ⟨"root".toList, .info, [], [⟨.stdout, .info, [], []⟩]⟩).bind
        (castToDefine (Yaml.Flow.restyle defineStyles)) =
      some ⟨"root".toList, .info, [], [⟨.stdout, .info, [], []⟩]⟩ := by
  have hd : castToDefine (Yaml.Flow.restyle defineStyles)
      "name: root\nlevel: info\nappenders:\n  - type: StdoutLogAppender".toList =
        some ⟨"root".toList, .info, [], [⟨.stdout, .info, [], []⟩]⟩ := by
    unfold defineStyles
    repeat rw [String.toList_ofList]
    decide
  have hn : "root".toList ≠ [] := by decide
  exact (castToDefine_castFromDefine (Yaml.Flow.restyle_loadsEmitted defineStyles_styles) hd).mpr
    ((castToDefine_name hd).mp hn)

/-- A text without a name is decoded, but the text of the result is not. -/
theorem castToDefine_unnamed : (Yaml.Flow.restyle defineStyles).LoadsEmitted ∧
    castToDefine (Yaml.Flow.restyle defineStyles) "level: info".toList = some { level := .info } ∧
    castFromDefine (Yaml.Flow.restyle defineStyles) { level := .info } =
      some "name: \"\"\nlevel: INFO".toList ∧
    castToDefine (Yaml.Flow.restyle defineStyles) "name: \"\"\nlevel: INFO".toList = none := by
  refine ⟨Yaml.Flow.restyle_loadsEmitted defineStyles_styles, ?_, ?_, ?_⟩
  all_goals
    unfold defineStyles
    repeat rw [String.toList_ofList]
    decide

end Ddg
