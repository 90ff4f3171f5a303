import DdgServer.Log.AllOrNothing

/-!
# Appenders of an unknown type

The decoder maps a type that it does not know, or that is missing, to `UNKNOW_APPENDER`, and the
`default` branch of the listener leaves `ap` null but does not leave the turn of the loop.

* `listener_crashes`: what happens at the first such appender.
* `installs_exact`: the listener installs the appenders of known types exactly if there are no
  others in what it applies, and nothing else stops it.
-/

namespace Ddg

variable {old new : LogDefines} {m m' : LoggerManager}

/-- The appenders of the definition whose type is known. -/
def LogDefine.known (d : LogDefine) : List LogAppenderDefine :=
  d.appenders.filter fun a => a.type ≠ .unknow

/-- The change returns, and each definition that it applies has its appenders of known types, in
order, in its logger. -/
def Installs (old new : LogDefines) (m : LoggerManager) : Prop :=
  ∃ m', onLoggerConfChanged old new m = .done m' ∧
    ∀ d ∈ new.defs, old.skips d = false → ∃ l g, m'.look d.name = some (l, g) ∧
      List.Forall₂ (fun a ap => a.Matches g.formatter ap) d.known g.appenders

theorem LogDefine.Good.known_eq {d : LogDefine} (h : d.Good) : d.known = d.appenders :=
  List.filter_eq_self.mpr fun a ha => by simpa using (h.appenders a ha).known

/-- A change that comes to its end has installed all appenders. -/
theorem installs_of_clean (hw : m.Wf) (hs : m.Speaks .info) (hc : old.Clean new.defs) :
    Installs old new m := by
  obtain ⟨m', hr⟩ := (onLoggerConfChanged_done_iff hw).mpr ⟨hs, hc⟩
  refine ⟨m', hr, fun d hd hskip => ?_⟩
  obtain ⟨l, id, g, hlook, -⟩ := onLoggerConfChanged_applied hw hr hd hskip
  have hgood := hc d hd hskip
  rw [hgood.known_eq]
  exact ⟨l, _, hlook, (hgood.matches id g).appenders⟩

/-- The listener dereferences a null appender where the first definition that cannot be applied has,
after appenders that can be made, one of an unknown type. -/
theorem listener_crashes {ds₁ ds₂ : List LogDefine} {d : LogDefine}
    {as bs : List LogAppenderDefine} {a : LogAppenderDefine} (hw : m.Wf) (hs : m.Speaks .info)
    (hds : new.defs = ds₁ ++ d :: ds₂) (hclean : old.Clean ds₁) (hskip : old.skips d = false)
    (hf : ¬ Rejected d.formatter) (happ : d.appenders = as ++ a :: bs) (has : ∀ b ∈ as, b.Good)
    (ha : a.type = .unknow) : onLoggerConfChanged old new m = .crashed := by
  have hconf : ∀ m, configure d m = .crashed := by
    intro m
    rw [configure_of_formatter hf, happ, addAllDefined_append has, addAllDefined,
      addDefined_unknow ha]
    rfl
  have hloop : ∀ (ds : List LogDefine) (m : LoggerManager), old.Clean ds →
      applyDefines old (ds ++ d :: ds₂) m = .crashed := by
    intro ds
    induction ds with
    | nil =>
      intro m _
      rw [List.nil_append, applyDefines, if_neg (by simp [hskip]), hconf]
      rfl
    | cons e ds ih =>
      intro m hc
      obtain ⟨he, hc⟩ := clean_cons.mp hc
      rw [List.cons_append, applyDefines]
      by_cases hse : old.skips e = true
      · rw [if_pos hse]
        exact ih m hc
      · rw [if_neg hse, configure_done_iff.mpr ⟨he (by simpa using hse), rfl⟩, CallResult.bind_done]
        exact ih _ hc
  unfold onLoggerConfChanged
  rw [hw.say_eq, if_pos hs, CallResult.bind_done, hds, hloop ds₁ m hclean]
  rfl

/-- **Unknown appenders are not skipped**: in a state that any calls reach, the listener returns
with all appenders of known types installed exactly if the root can take its message and each
definition that is applied has only appenders of known types with patterns that are accepted. -/
theorem installs_exact {s : LogsState} (h : logsSys.Reach Interleave.Sys.free s)
    (old new : LogDefines) :
    Installs old new s.mgr ↔ s.mgr.Speaks .info ∧ old.Clean new.defs := by
  have hw := (LogsState.wf_inductive.reach h).mgr
  constructor
  · rintro ⟨m', hr, -⟩
    exact (onLoggerConfChanged_done_iff hw).mp ⟨m', hr⟩
  · rintro ⟨hs, hc⟩
    exact installs_of_clean hw hs hc

/-- A first definition, with an appender to the console. -/
theorem installs_exact_console : Installs .empty
    ⟨[{ name := ['d', 'b'], appenders := [⟨.stdout, .info, [], []⟩] }], by decide⟩
    LogsState.new.mgr := by
  refine (installs_exact ⟨_, logsSys_init.mpr rfl, .refl⟩ _ _).mpr ⟨?_, ?_⟩
  · decide
  · decide

/-! ### A text with an unknown type -/

/-- What `yaml-cpp` emits for the nodes of a set, in the place of their flow texts. -/
def unknownStyles : List (Text × Text) :=
  [("[\x7bname: db, appenders: [\x7btype: SyslogAppender, \x7d, ".toList ++
        "\x7btype: StdoutLogAppender, \x7d, ], \x7d, ]".toList,
      "- name: db\n  appenders:\n    - type: SyslogAppender\n    - type: StdoutLogAppender".toList),
    ("\x7bname: db, appenders: [\x7btype: SyslogAppender, \x7d, ".toList ++
        "\x7btype: StdoutLogAppender, \x7d, ], \x7d".toList,
      "name: db\nappenders:\n  - type: SyslogAppender\n  - type: StdoutLogAppender".toList),
    ("\x7btype: SyslogAppender, \x7d".toList, "type: SyslogAppender".toList),
    ("\x7btype: StdoutLogAppender, \x7d".toList, "type: StdoutLogAppender".toList)]

theorem unknownStyles_styles : Yaml.Flow.Styles unknownStyles := by
  unfold unknownStyles
  repeat rw [String.toList_ofList]
  decide

def unknownText : Text :=
  "- name: db\n  appenders:\n    - type: SyslogAppender\n    - type: StdoutLogAppender".toList

def unknownDefine : LogDefine :=
  { name := ['d', 'b'], appenders := [⟨.unknow, .unknow, [], []⟩, ⟨.stdout, .unknow, [], []⟩] }

theorem castToItems_unknownText : castToItems (Yaml.Flow.restyle unknownStyles)
    (castToDefine (Yaml.Flow.restyle unknownStyles)) unknownText = some [unknownDefine] := by
  unfold unknownStyles unknownText
  repeat rw [String.toList_ofList]
  decide

/-- The text is decoded, and the listener dereferences a null appender. -/
theorem unknown_crashes : (Yaml.Flow.restyle unknownStyles).LoadsEmitted ∧
    castToDefines (Yaml.Flow.restyle unknownStyles) unknownText =
      some ⟨[unknownDefine], List.pairwise_singleton ..⟩ ∧
    onLoggerConfChanged .empty ⟨[unknownDefine], List.pairwise_singleton ..⟩ LogsState.new.mgr =
      .crashed ∧
    ¬ Installs .empty ⟨[unknownDefine], List.pairwise_singleton ..⟩ LogsState.new.mgr := by
  have hcrash : onLoggerConfChanged .empty ⟨[unknownDefine], List.pairwise_singleton ..⟩
      LogsState.new.mgr = .crashed := by
    have hds : [unknownDefine] = [] ++ unknownDefine :: [] := rfl
    have happ : unknownDefine.appenders = [] ++ ⟨.unknow, .unknow, [], []⟩ ::
        [⟨.stdout, .unknow, [], []⟩] := rfl
    exact listener_crashes LoggerManager.wf_new (by decide) hds (by decide) rfl (by decide) happ
      (List.forall_mem_nil _) rfl
  refine ⟨Yaml.Flow.restyle_loadsEmitted unknownStyles_styles,
    LogsState.castToDefines_one castToItems_unknownText, hcrash, ?_⟩
  rintro ⟨m', hr, -⟩
  rw [hcrash] at hr
  cases hr

end Ddg
