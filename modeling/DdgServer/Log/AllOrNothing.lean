import DdgServer.Config.LexicalCast
import DdgServer.Log.Codec
import DdgServer.Log.Follows

/-!
# Texts of the configuration

`ConfigVar::fromString` of the `logs` variable, over a YAML library `y`: a text is decoded to a set
of definitions, and the set is given to `setValue`. The decoder writes a warning for each key that
it does not know, and `fromString` a message for each exception; both go to the root logger.

The patterns of the appenders are not checked by the decoder. One that `LogFormatter` rejects makes
the listener throw between its changes, and what it has changed stays changed
(`allOrNothing_rejected`). `allOrNothing_iff` says for which texts the call is all or nothing.
-/

namespace Ddg

open Interleave LoggerManager

/-! ## Decoding a set -/

namespace LogDefines

/-- Where `std::set::insert` puts a definition: a name that is there keeps its definition. -/
def insertDefine (d : LogDefine) : List LogDefine → List LogDefine
  | [] => [d]
  | e :: l =>
    if d.name < e.name then d :: e :: l
    else if e.name < d.name then e :: insertDefine d l
    else e :: l

theorem mem_insertDefine {d e : LogDefine} {l : List LogDefine} (h : e ∈ insertDefine d l) :
    e = d ∨ e ∈ l := by
  induction l with
  | nil => exact .inl (List.mem_singleton.mp h)
  | cons c l ih =>
    rw [insertDefine] at h
    split at h
    · exact List.mem_cons.mp h
    · split at h
      · rcases List.mem_cons.mp h with rfl | h
        · exact .inr List.mem_cons_self
        · exact (ih h).imp id fun hl => List.mem_cons_of_mem _ hl
      · exact .inr h

theorem insertDefine_sorted (d : LogDefine) {l : List LogDefine}
    (h : l.Pairwise fun a b => a.name < b.name) :
    (insertDefine d l).Pairwise fun a b => a.name < b.name := by
  induction l with
  | nil => exact List.pairwise_singleton ..
  | cons e l ih =>
    obtain ⟨he, hl⟩ := List.pairwise_cons.mp h
    rw [insertDefine]
    split
    · rename_i hlt
      refine List.pairwise_cons.mpr ⟨?_, h⟩
      intro c hc
      rcases List.mem_cons.mp hc with rfl | hc
      · exact hlt
      · exact List.lt_trans hlt (he c hc)
    · split
      · rename_i hlt
        refine List.pairwise_cons.mpr ⟨?_, ih hl⟩
        intro c hc
        rcases mem_insertDefine hc with rfl | hc
        · exact hlt
        · exact he c hc
      · exact h

def insert (s : LogDefines) (d : LogDefine) : LogDefines :=
  ⟨insertDefine d s.defs, insertDefine_sorted d s.sorted⟩

end LogDefines

variable (y : Yaml.Codec)

/-- `LexicalCast<std::string, std::set<LogDefine>>`. -/
def castToDefines (v : Text) : Option LogDefines :=
  (castToItems y (castToDefine y) v).map fun l => l.foldl LogDefines.insert .empty

/-! ### The warnings of the decoders -/

/-- `LexicalCast<std::string, LogAppenderDefine>` warns of a key. -/
def appenderWarns (v : Text) : Bool :=
  match (y.load v).bind Yaml.entries with
  | none => false
  | some kvs => kvs.any fun kv =>
      !([Key.type, Key.level, Key.file, Key.formatter].contains kv.1.text)

/-- The loop over the texts of appenders, which an exception ends. -/
def appendersWarn : List Text → Bool
  | [] => false
  | v :: vs => appenderWarns y v || ((castToAppenderDefine y v).isSome && appendersWarn vs)

/-- One turn of the loop over the entries of a definition's text. -/
def fieldWarns (node : Yaml) (kv : Yaml × Yaml) : Bool :=
  let key := kv.1.text
  if key = Key.appenders then appendersWarn y (y.starTexts ((node.get key).getD .null))
  else !([Key.name, Key.level, Key.formatter].contains key)

def fieldsWarn (node : Yaml) : LogDefine → List (Yaml × Yaml) → Bool
  | _, [] => false
  | d, kv :: kvs =>
    fieldWarns y node kv ||
      match LogDefine.setField y node d kv with
      | none => false
      | some d => fieldsWarn node d kvs

/-- `LexicalCast<std::string, LogDefine>` warns of a key. -/
def defineWarns (v : Text) : Bool :=
  match y.load v with
  | none => false
  | some node =>
    match node.entries with
    | none => false
    | some kvs => fieldsWarn y node {} kvs

/-- The loop over the texts of definitions, which an exception ends. -/
def definesWarn : List Text → Bool
  | [] => false
  | v :: vs => defineWarns y v || ((castToDefine y v).isSome && definesWarn vs)

/-- `LexicalCast<std::string, std::set<LogDefine>>` warns of a key. -/
def warns (v : Text) : Bool :=
  match y.load v with
  | none => false
  | some node => definesWarn y (y.itemTexts node)

/-! ## `fromString` -/

namespace LogsState

/-- `ConfigVar::fromString` of the `logs` variable, with whether it returns true. -/
def fromString (s : LogsState) (val : Text) : CallResult (Bool × LogsState) :=
  match if warns y val then s.mgr.say .warn else .done s.mgr with
  | .done m | .thrown m =>
    (s.logs.fromString (castToDefines y)
      (fun _ oldDefines newDefines => onLoggerConfChanged oldDefines newDefines)
      (fun m => m.say .error) val m).map fun r => (r.1, ⟨r.2.1, r.2.2⟩)
  | .crashed => .crashed

/-- Every logger is as it was, and so are the names in the map. -/
def Unchanged (m m' : LoggerManager) : Prop :=
  m'.loggers = m.loggers ∧ ∀ l < m.loggerCount, m'.heap l = m.heap l

/-- The call returns true, and the value is the decoded set, which the loggers have followed; or it
returns false, and the value and the loggers are as they were. -/
def AllOrNothing (s : LogsState) (val : Text) : Prop :=
  ∃ b s', s.fromString y val = .done (b, s') ∧
    (b = true → castToDefines y val = some s'.logs.val ∧
      Followed s.logs.val s'.logs.val s.mgr s'.mgr) ∧
    (b = false → s'.logs.val = s.logs.val ∧ Unchanged s.mgr s'.mgr)

/-- The text is taken as a whole, or refused as a whole. -/
def Settles (s : LogsState) (val : Text) : Prop :=
  (warns y val = true → s.mgr.Speaks .warn) ∧
    match castToDefines y val with
    | none => s.mgr.Speaks .error
    | some v => s.Takes v ∧ ((s.logs.val == v) = true → s.logs.val = v) ∨
        s.Refuses v ∧ s.mgr.Speaks .error

end LogsState

/-! ## Changes that throw -/

section Thrown

variable {old : LogDefines} {ds : List LogDefine} {m m' : LoggerManager} {d : LogDefine}

/-- The appenders of a logger are not new ones. -/
theorem madeAll_eq_old {formatter : LogFormatter} {id : ℕ} {as : List LogAppenderDefine}
    {g : Logger} (hg : g.Distinct id) (h : madeAll formatter id as = g.appenders) : as = [] := by
  cases as with
  | nil => rfl
  | cons a as =>
    have hlt := hg.lt (a.made formatter id) (by rw [← h]; exact List.mem_cons_self)
    exact absurd hlt (Nat.lt_irrefl id)

/-- A logger that is as it was after a definition was applied to it, up to the appenders `as`. -/
theorem has_of_applied (hw : m.Wf) {as : List LogAppenderDefine} {k : ℕ}
    (hlook : m.look d.name = (m.change d.name (d.applied m.appenderCount as) k).look d.name) :
    m.Has d.name d.level [] ∧ as = [] := by
  rw [look_change] at hlook
  obtain ⟨hlog, hheap⟩ := look_eq_some.mp hlook
  rw [seen_of_some hlog] at hheap
  have happ : madeAll (m.heap _).formatter m.appenderCount as = (m.heap _).appenders :=
    congrArg Logger.appenders hheap.symm
  obtain rfl := madeAll_eq_old (hw.distinct _ (hw.registered _ _ hlog).1) happ
  exact ⟨⟨_, _, look_eq_some.mpr ⟨hlog, rfl⟩, congrArg Logger.level hheap, happ.symm⟩, rfl⟩

theorem has_of_setLevel {k : ℕ}
    (hlook : m.look d.name = (m.change d.name (·.setLevel d.level.val) k).look d.name) :
    ∃ appenders, m.Has d.name d.level appenders := by
  rw [look_change] at hlook
  obtain ⟨hlog, hheap⟩ := look_eq_some.mp hlook
  rw [seen_of_some hlog] at hheap
  exact ⟨_, _, _, look_eq_some.mpr ⟨hlog, rfl⟩, congrArg Logger.level hheap, rfl⟩

/-- A loop that throws with the loggers as they were has not changed one on the way. -/
theorem refusesFrom_of_thrown (hw : m.Wf) (hnd : (ds.map LogDefine.name).Nodup)
    (hr : applyDefines old ds m = .thrown m')
    (hlook : ∀ d ∈ ds, m'.look d.name = m.look d.name) : RefusesFrom old m ds := by
  induction ds generalizing m with
  | nil => contradiction
  | cons d ds ih =>
    rw [List.map_cons, List.nodup_cons] at hnd
    have htail : ∀ e ∈ ds, m'.look e.name = m.look e.name := fun e he =>
      hlook e (List.mem_cons_of_mem _ he)
    rw [applyDefines] at hr
    rw [RefusesFrom]
    by_cases hskip : old.skips d = true
    · rw [if_pos hskip] at hr ⊢
      exact ih hw hnd.2 hr htail
    rw [if_neg hskip] at hr ⊢
    have hc := configure_cases d m
    cases hres : configure d m with
    | done m₁ =>
      rw [hres] at hc hr
      rw [CallResult.bind_done] at hr
      have hw₁ : m₁.Wf := hw.configure (by rw [hres]; rfl)
      have hframe := (applyDefines_frame hw₁ (by rw [hr]; rfl)).2
      have hnot : ¬ old.Applies ds d.name := by
        rintro ⟨e, he, -, hname⟩
        exact hnd.1 (hname ▸ List.mem_map_of_mem he)
      have hhead := hframe.look d.name hnot
      rw [hlook d List.mem_cons_self] at hhead
      cases hc with
      | all hgood =>
        obtain ⟨hhas, hnil⟩ := has_of_applied hw hhead
        rw [if_neg hgood.formatter, hnil]
        refine ⟨hhas, ?_⟩
        rw [hnil, List.length_nil, hhas.change_applied] at hr
        exact ih hw hnd.2 hr htail
    | thrown m₁ =>
      rw [hres] at hc hr
      obtain rfl := CallResult.thrown.inj hr
      have hhead := (hlook d List.mem_cons_self).symm
      cases hc with
      | formatter hf =>
        rw [if_pos hf]
        exact has_of_setLevel hhead
      | appender as a bs hf happ _ ht ha =>
        obtain ⟨hhas, rfl⟩ := has_of_applied hw hhead
        rw [if_neg hf, happ]
        exact ⟨hhas, ht, ha⟩
    | crashed => simp [hres] at hr

end Thrown

/-! ## All or nothing -/

namespace LogsState

variable {y} {s s' : LogsState} {v : LogDefines} {val : Text}

theorem look_of_unchanged {m m' : LoggerManager} (hw : m.Wf) (h : Unchanged m m') (name : Text) :
    m'.look name = m.look name := by
  unfold look
  rw [h.1]
  cases hl : m.loggers name with
  | none => rfl
  | some l => rw [Option.map_some, Option.map_some, h.2 l (hw.registered _ _ hl).1]

/-- A change that throws with the loggers as they were is refused. -/
theorem refuses_of_thrown (hw : s.Wf) (hs : s.setValue v = .thrown s')
    (hu : Unchanged s.mgr s'.mgr) : s.Refuses v := by
  rw [setValue_eq hw.cbs] at hs
  by_cases hv : (s.logs.val == v) = true
  · simp [hv] at hs
  rw [if_neg hv] at hs
  simp only [Bool.not_eq_true] at hv
  cases hr : onLoggerConfChanged s.logs.val v s.mgr with
  | done m | crashed => simp [hr] at hs
  | thrown m =>
    rw [hr] at hs
    obtain rfl : LogsState.mk s.logs m = s' := CallResult.thrown.inj hs
    rw [onLoggerConfChanged, hw.mgr.say_eq] at hr
    by_cases hsay : s.mgr.Speaks .info
    · rw [if_pos hsay, CallResult.bind_done] at hr
      have ha : applyDefines s.logs.val v.defs s.mgr = .thrown m := by
        cases ha : applyDefines s.logs.val v.defs s.mgr with
        | done m₁ | crashed => simp [ha] at hr
        | thrown m₁ =>
          rw [ha] at hr
          exact hr
      exact ⟨hv, hsay, refusesFrom_of_thrown hw.mgr v.nodup_names ha fun d _ =>
        look_of_unchanged hw.mgr hu d.name⟩
    · simp [hsay] at hr

/-- What `fromString` does, by way of `setValue`. -/
theorem fromString_eq (hw : s.Wf) : s.fromString y val =
    if warns y val = true → s.mgr.Speaks .warn then
      match castToDefines y val with
      | none => (s.mgr.say .error).map fun m => (false, ⟨s.logs, m⟩)
      | some v =>
        match s.setValue v with
        | .done s' => .done (true, s')
        | .thrown s' => (s'.mgr.say .error).map fun m => (false, ⟨s'.logs, m⟩)
        | .crashed => .crashed
    else .crashed := by
  have hbody : ((s.logs.fromString (castToDefines y)
      (fun _ oldDefines newDefines => onLoggerConfChanged oldDefines newDefines)
      (fun m => m.say .error) val s.mgr).map fun r => (r.1, LogsState.mk r.2.1 r.2.2)) =
      match castToDefines y val with
      | none => (s.mgr.say .error).map fun m => (false, ⟨s.logs, m⟩)
      | some v =>
        match s.setValue v with
        | .done s' => .done (true, s')
        | .thrown s' => (s'.mgr.say .error).map fun m => (false, ⟨s'.logs, m⟩)
        | .crashed => .crashed := by
    unfold ConfigVar.fromString setValue
    cases castToDefines y val with
    | none => exact CallResult.map_map ..
    | some v =>
      simp only
      cases s.logs.setValue (fun _ oldDefines newDefines =>
        onLoggerConfChanged oldDefines newDefines) v s.mgr with
      | done r | crashed => rfl
      | thrown r => exact CallResult.map_map ..
  rw [← hbody, fromString]
  by_cases hwarn : warns y val = true
  · by_cases hspeak : s.mgr.Speaks .warn <;> simp [hwarn, hspeak, hw.mgr.say_eq]
  · simp [hwarn]

/-- A change that comes to its end has done all. -/
theorem settles_done (hw : s.Wf) (hcur : s.Current) (hs : s.setValue v = .done s') :
    (s.Takes v ∧ ((s.logs.val == v) = true → s.logs.val = v) ∨
      s.Refuses v ∧ s.mgr.Speaks .error) ↔
        Followed s.logs.val v s.mgr s'.mgr ∧ s'.logs.val = v := by
  have hthrown : ¬ s.Refuses v := fun hr => by
    rw [hr.thrown hw] at hs
    contradiction
  have hval : ((s.logs.val == v) = true → s.logs.val = v) ↔ s'.logs.val = v := by
    rcases (setValue_done hw).mp hs with ⟨hv, rfl⟩ | ⟨hv, -, hlogs⟩
    · simp [hv]
    · simp [hv, hlogs]
  have hfol : s.Takes v ↔ Followed s.logs.val v s.mgr s'.mgr :=
    ⟨fun ht => followed_of_takes hw hcur ht hs, takes_of_followed hw hcur hs⟩
  simp only [hthrown, false_and, or_false, hval, hfol]

/-- A change that throws has done nothing. -/
theorem settles_thrown (hw : s.Wf) (hcur : s.Current) (hs : s.setValue v = .thrown s') :
    (s.Takes v ∧ ((s.logs.val == v) = true → s.logs.val = v) ∨
      s.Refuses v ∧ s.mgr.Speaks .error) ↔ ∃ m, s'.mgr.say .error = .done m ∧
        s'.logs.val = s.logs.val ∧ Unchanged s.mgr m := by
  have hdone : ¬ s.Takes v := fun ht => by
    obtain ⟨t, ht, -⟩ := (followed_iff hw hcur).mpr ht
    rw [hs] at ht
    contradiction
  simp only [hdone, false_and, false_or]
  constructor
  · rintro ⟨href, hspeak⟩
    obtain rfl : s = s' := CallResult.thrown.inj ((href.thrown hw).symm.trans hs)
    exact ⟨s.mgr, by rw [hw.mgr.say_eq, if_pos hspeak], rfl, rfl, fun _ _ => rfl⟩
  · rintro ⟨m, hsay, -, hu⟩
    obtain rfl : m = s'.mgr := say_state (by rw [hsay]; rfl)
    have href := refuses_of_thrown hw hs hu
    obtain rfl : s = s' := CallResult.thrown.inj ((href.thrown hw).symm.trans hs)
    refine ⟨href, ?_⟩
    by_contra hspeak
    rw [hw.mgr.say_eq, if_neg hspeak] at hsay
    contradiction

theorem allOrNothing_of_current (hw : s.Wf) (hcur : s.Current) :
    s.AllOrNothing y val ↔ s.Settles y val := by
  unfold AllOrNothing Settles
  rw [fromString_eq hw]
  by_cases hwarn : warns y val = true → s.mgr.Speaks .warn
  swap
  · rw [if_neg hwarn]
    exact iff_of_false (by simp) fun hset => hwarn hset.1
  rw [if_pos hwarn, and_iff_right hwarn]
  cases hd : castToDefines y val with
  | none =>
    dsimp only
    rw [hw.mgr.say_eq]
    by_cases hspeak : s.mgr.Speaks .error
    · simp [hspeak, Unchanged]
    · simp [hspeak]
  | some v =>
    dsimp only
    cases hs : s.setValue v with
    | done s' =>
      rw [settles_done hw hcur hs]
      constructor
      · rintro ⟨b, t, ht, htrue, -⟩
        obtain ⟨rfl, rfl⟩ := Prod.mk.inj (CallResult.done.inj ht)
        obtain ⟨hv, hf⟩ := htrue rfl
        obtain rfl := Option.some.inj hv
        exact ⟨hf, rfl⟩
      · rintro ⟨hf, rfl⟩
        exact ⟨true, s', rfl, fun _ => ⟨rfl, hf⟩, by simp⟩
    | thrown s' =>
      rw [settles_thrown hw hcur hs]
      dsimp only
      constructor
      · rintro ⟨b, t, ht, -, hfalse⟩
        rcases say_cases s'.mgr .error with hsay | hsay
        · rw [hsay] at ht
          obtain ⟨rfl, rfl⟩ := Prod.mk.inj (CallResult.done.inj ht)
          exact ⟨s'.mgr, hsay, hfalse rfl⟩
        · simp [hsay] at ht
      · rintro ⟨m, hsay, hval, hu⟩
        exact ⟨false, ⟨s'.logs, m⟩, by simp [hsay], by simp, fun _ => ⟨hval, hu⟩⟩
    | crashed =>
      refine iff_of_false (by simp) ?_
      rintro (⟨ht, -⟩ | ⟨hr, -⟩)
      · obtain ⟨t, ht, -⟩ := (followed_iff hw hcur).mpr ht
        rw [hs] at ht
        contradiction
      · rw [hr.thrown hw] at hs
        contradiction

/-- **All or nothing** for the texts that settle, and for no others, in every state that faithful
steps reach. -/
theorem allOrNothing_iff (h : logsSys.Reach Faithful s) (y : Yaml.Codec) (val : Text) :
    s.AllOrNothing y val ↔ s.Settles y val :=
  let ⟨hw, hcur⟩ := current_inductive.reach h
  allOrNothing_of_current hw hcur

/-- A text that settles is a faithful step, or none. -/
theorem reach_fromString (h : logsSys.Reach Faithful s) (hset : s.Settles y val) {b : Bool}
    (hr : s.fromString y val = .done (b, s')) : logsSys.Reach Faithful s' := by
  obtain ⟨hw, hcur⟩ := current_inductive.reach h
  obtain ⟨hwarn, hset⟩ := hset
  rw [fromString_eq hw, if_pos hwarn] at hr
  cases hd : castToDefines y val with
  | none =>
    simp only [hd] at hr hset
    rw [hw.mgr.say_eq, if_pos hset] at hr
    obtain ⟨-, rfl⟩ := Prod.mk.inj (CallResult.done.inj hr)
    exact h
  | some v =>
    simp only [hd] at hr hset
    rcases hset with ⟨ht, -⟩ | ⟨href, hspeak⟩
    · obtain ⟨t, hs, -⟩ := (followed_iff hw hcur).mpr ht
      rw [hs] at hr
      obtain ⟨-, rfl⟩ := Prod.mk.inj (CallResult.done.inj hr)
      refine h.next (a := .setValue v) (.inl ht) ?_
      change (s.setValue v).state = some t
      rw [hs]
      rfl
    · rw [href.thrown hw] at hr
      dsimp only at hr
      rw [hw.mgr.say_eq, if_pos hspeak] at hr
      obtain ⟨-, rfl⟩ := Prod.mk.inj (CallResult.done.inj hr)
      exact h

/-! ### Texts -/

theorem castToDefines_one {val : Text} {d : LogDefine}
    (h : castToItems y (castToDefine y) val = some [d]) :
    castToDefines y val = some ⟨[d], List.pairwise_singleton ..⟩ := by
  rw [castToDefines, h]
  rfl

/-- A text that is decoded settles or not as its set is taken or refused. -/
theorem settles_of_some {val : Text} {v : LogDefines} (h : castToDefines y val = some v) :
    s.Settles y val ↔ (warns y val = true → s.mgr.Speaks .warn) ∧
      (s.Takes v ∧ ((s.logs.val == v) = true → s.logs.val = v) ∨
        s.Refuses v ∧ s.mgr.Speaks .error) := by
  rw [Settles, h]

/-- What `yaml-cpp` emits for the nodes of some sets, in the place of their flow texts. -/
def defineSetStyles : List (Text × Text) :=
  [("[\x7bname: db, level: WARN, \x7d, ]".toList, "- name: db\n  level: WARN".toList),
    ("\x7bname: db, level: WARN, \x7d".toList, "name: db\nlevel: WARN".toList),
    ("[\x7bname: root, level: FATAL, appenders: ".toList ++
        "[\x7btype: StdoutLogAppender, formatter: \"%q\", \x7d, ], \x7d, ]".toList,
      "- name: root\n  level: FATAL\n  appenders:\n".toList ++
        "    - type: StdoutLogAppender\n      formatter: \"%q\"".toList),
    ("\x7bname: root, level: FATAL, appenders: ".toList ++
        "[\x7btype: StdoutLogAppender, formatter: \"%q\", \x7d, ], \x7d".toList,
      "name: root\nlevel: FATAL\nappenders:\n".toList ++
        "  - type: StdoutLogAppender\n    formatter: \"%q\"".toList),
    ("\x7btype: StdoutLogAppender, formatter: \"%q\", \x7d".toList,
      "type: StdoutLogAppender\nformatter: \"%q\"".toList)]

theorem defineSetStyles_styles : Yaml.Flow.Styles defineSetStyles := by
  unfold defineSetStyles
  repeat rw [String.toList_ofList]
  decide

def warnText : Text := "- name: db\n  level: WARN".toList

def rejectedText : Text :=
  "- name: root\n  level: FATAL\n  appenders:\n".toList ++
    "    - type: StdoutLogAppender\n      formatter: \"%q\"".toList

def warnDefine : LogDefine := { name := ['d', 'b'], level := .warn }

def rejectedDefine : LogDefine :=
  { name := rootName, level := .fatal, appenders := [⟨.stdout, .fatal, ['%', 'q'], []⟩] }

theorem castToItems_warnText : castToItems (Yaml.Flow.restyle defineSetStyles)
    (castToDefine (Yaml.Flow.restyle defineSetStyles)) warnText = some [warnDefine] := by
  unfold defineSetStyles warnText
  repeat rw [String.toList_ofList]
  decide

theorem castToItems_rejectedText : castToItems (Yaml.Flow.restyle defineSetStyles)
    (castToDefine (Yaml.Flow.restyle defineSetStyles)) rejectedText = some [rejectedDefine] := by
  unfold defineSetStyles rejectedText
  repeat rw [String.toList_ofList]
  decide

theorem warns_warnText : warns (Yaml.Flow.restyle defineSetStyles) warnText = false := by
  unfold defineSetStyles warnText
  repeat rw [String.toList_ofList]
  decide

theorem takes_warnDefine : LogsState.new.Takes ⟨[warnDefine], by decide⟩ := by
  refine ⟨?_, ?_, fun _ => ⟨?_, ?_⟩⟩
  · intro d hd
    rw [List.mem_singleton.mp hd]
    exact .inl rfl
  · intro d _ e he
    contradiction
  · decide
  · decide

/-- The pattern is rejected when the root has another level. -/
theorem rejectedDefine_not_settled :
    ¬ LogsState.new.Takes ⟨[rejectedDefine], by decide⟩ ∧
    ¬ LogsState.new.Refuses ⟨[rejectedDefine], by decide⟩ := by
  constructor
  · intro ht
    have hclean := (ht.ends (by decide)).2
    revert hclean
    decide
  · rintro ⟨-, -, href⟩
    have hf : ¬ Rejected rejectedDefine.formatter := by decide
    have hskip : ¬ LogsState.new.logs.val.skips rejectedDefine = true := by decide
    rw [RefusesFrom, if_neg hskip, if_neg hf] at href
    obtain ⟨⟨l, g, hlook, hl, -⟩, -⟩ := href
    obtain ⟨hlog, rfl⟩ := look_eq_some.mp hlook
    have h0 : LogsState.new.mgr.loggers rejectedDefine.name = some 0 := by decide
    rw [h0] at hlog
    have h5 : (LogsState.new.mgr.heap 0).level ≠ rejectedDefine.level.val := by decide
    exact h5 (Option.some.inj hlog ▸ hl)

/-- A first definition. -/
theorem allOrNothing_new :
    LogsState.new.AllOrNothing (Yaml.Flow.restyle defineSetStyles) warnText := by
  refine (allOrNothing_iff reach_new _ _).mpr ?_
  rw [settles_of_some (castToDefines_one castToItems_warnText), warns_warnText]
  refine ⟨by simp, .inl ⟨takes_warnDefine, fun hv => ?_⟩⟩
  have hne : ¬ (LogsState.new.logs.val == ⟨[warnDefine], by decide⟩) = true := by decide
  exact absurd hv hne

/-- A pattern that the decoder lets through: the listener throws when it has set the root to
`FATAL` and emptied it. -/
theorem allOrNothing_rejected :
    (Yaml.Flow.restyle defineSetStyles).LoadsEmitted ∧
    ¬ LogsState.new.AllOrNothing (Yaml.Flow.restyle defineSetStyles) rejectedText := by
  refine ⟨Yaml.Flow.restyle_loadsEmitted defineSetStyles_styles, fun h => ?_⟩
  obtain ⟨hw, hcur⟩ := current_inductive.reach reach_new
  have hset := (allOrNothing_of_current hw hcur).mp h
  rw [settles_of_some (castToDefines_one castToItems_rejectedText)] at hset
  rcases hset.2 with ⟨ht, -⟩ | ⟨hr, -⟩
  · exact rejectedDefine_not_settled.1 ht
  · exact rejectedDefine_not_settled.2 hr

end LogsState

end Ddg
