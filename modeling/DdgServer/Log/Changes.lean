import DdgServer.Log.Manager

/-!
# What a change of the configuration does

* `LoggerManager.Frame T m m'`: from `m` to `m'` only the loggers of the names in `T` were touched.
* `applyDefines_frame`, `onLoggerConfChanged_frame`: the listener touches the loggers of the
  definitions that it applies or drops, also where it throws.
* `onLoggerConfChanged_applied`, `onLoggerConfChanged_dropped`: what has become of these loggers
  when it returns.
* `LogDefine.Good.matches`: a logger to which a definition was applied is as the definition says.
-/

namespace Ddg

/-! ## What a definition asks for -/

/-- The appender is as its definition says, in a logger with the formatter `formatter`. -/
structure LogAppenderDefine.Matches (a : LogAppenderDefine) (formatter : LogFormatter)
    (ap : LogAppender) : Prop where
  type : ap.kind.type = a.type
  level : ap.level = a.level.val
  file : a.type = .file → ap.kind.filename = a.file
  formatter : ap.formatter.map LogFormatter.pattern =
    some (if a.formatter = [] then formatter.pattern else a.formatter)

/-- The logger has the level of the definition, and appenders that match one for one in order. -/
structure LogDefine.Matches (d : LogDefine) (g : Logger) : Prop where
  level : g.level = d.level.val
  appenders : List.Forall₂ (fun a ap => a.Matches g.formatter ap) d.appenders g.appenders

theorem LogAppenderDefine.made_matches {a : LogAppenderDefine} (h : a.type ≠ .unknow)
    (formatter : LogFormatter) (id : ℕ) : a.Matches formatter (a.made formatter id) where
  type := by
    cases ht : a.type with
    | unknow => exact absurd ht h
    | stdout | file => simp [made, kind, ht, AppenderKind.type]
  level := rfl
  file ht := by simp [made, kind, ht, AppenderKind.filename]
  formatter := by by_cases hf : a.formatter = [] <;> simp [made, hf]

theorem madeAll_matches {as : List LogAppenderDefine} (h : ∀ a ∈ as, a.Good)
    (formatter : LogFormatter) (id : ℕ) :
    List.Forall₂ (fun a ap => a.Matches formatter ap) as (madeAll formatter id as) := by
  induction as generalizing id with
  | nil => exact .nil
  | cons a as ih =>
    exact .cons (LogAppenderDefine.made_matches (h a List.mem_cons_self).known formatter id)
      (ih (fun b hb => h b (List.mem_cons_of_mem _ hb)) (id + 1))

theorem LogDefine.Good.matches {d : LogDefine} (h : d.Good) (id : ℕ) (g : Logger) :
    d.Matches (d.applied id d.appenders g) :=
  ⟨rfl, madeAll_matches h.appenders g.formatter id⟩

/-! ## What is touched -/

namespace LoggerManager

variable {m m' m'' : LoggerManager} {name other : Text} {l : ℕ} {f : Logger → Logger} {k : ℕ}
  {T U : Text → Prop}

/-- The logger registered under a name. -/
def look (m : LoggerManager) (name : Text) : Option (ℕ × Logger) :=
  (m.loggers name).map fun l => (l, m.heap l)

theorem look_eq_some {g : Logger} :
    m.look name = some (l, g) ↔ m.loggers name = some l ∧ m.heap l = g := by
  unfold look
  constructor
  · intro h
    obtain ⟨l', hl, he⟩ := Option.map_eq_some_iff.mp h
    obtain ⟨rfl, rfl⟩ := Prod.mk.inj he
    exact ⟨hl, rfl⟩
  · rintro ⟨hl, rfl⟩
    simp [hl]

theorem look_eq_none : m.look name = none ↔ m.loggers name = none := by
  simp [look]

/-- Only the loggers of the names in `T` were touched. -/
structure Frame (T : Text → Prop) (m m' : LoggerManager) : Prop where
  count : m.loggerCount ≤ m'.loggerCount
  root : m'.root = m.root
  look : ∀ name, ¬ T name → m'.look name = m.look name
  heap : ∀ l < m.loggerCount, (∀ name, T name → m.loggers name ≠ some l) → m'.heap l = m.heap l
  loggers : ∀ name, ∀ l < m.loggerCount, m'.loggers name = some l → m.loggers name = some l

namespace Frame

theorem refl (m : LoggerManager) : Frame T m m :=
  ⟨Nat.le_refl _, rfl, fun _ _ => rfl, fun _ _ _ => rfl, fun _ _ _ h => h⟩

theorem mono (h : Frame T m m') (hTU : ∀ name, T name → U name) : Frame U m m' where
  count := h.count
  root := h.root
  look name hn := h.look name fun ht => hn (hTU name ht)
  heap l hl hu := h.heap l hl fun name ht => hu name (hTU name ht)
  loggers := h.loggers

theorem trans (h : Frame T m m') (h' : Frame T m' m'') : Frame T m m'' where
  count := Nat.le_trans h.count h'.count
  root := h'.root.trans h.root
  look name hn := (h'.look name hn).trans (h.look name hn)
  heap l hl ht := by
    have hl' : l < m'.loggerCount := Nat.lt_of_lt_of_le hl h.count
    rw [h'.heap l hl' fun name hn he => ht name hn (h.loggers name l hl he)]
    exact h.heap l hl ht
  loggers name l hl he :=
    h.loggers name l hl (h'.loggers name l (Nat.lt_of_lt_of_le hl h.count) he)

end Frame

theorem look_change (m : LoggerManager) (name : Text) (f : Logger → Logger) (k : ℕ) :
    (m.change name f k).look name = some ((m.getLogger name).1, f (m.seen name)) := by
  rw [look_eq_some, change_loggers, change_heap]
  exact ⟨Function.update_self .., Function.update_self ..⟩

theorem Wf.frame_change (h : m.Wf) : Frame (· = name) m (m.change name f k) := by
  have hold : ∀ l < m.loggerCount, l = (m.getLogger name).1 → m.loggers name = some l := by
    rintro l hl rfl
    rcases getLogger_cases m name with hs | ⟨-, hnew⟩
    · exact hs
    · omega
  refine ⟨le_change_loggerCount, change_root, ?_, ?_, ?_⟩
  · intro other hne
    have hlog : (m.change name f k).loggers other = m.loggers other := by
      rw [change_loggers, Function.update_of_ne hne]
    cases ho : m.loggers other with
    | none => rw [look_eq_none.mpr ho, look_eq_none, hlog, ho]
    | some l =>
      rw [look_eq_some.mpr ⟨ho, rfl⟩, look_eq_some, hlog]
      obtain ⟨hl, hname⟩ := h.registered _ _ ho
      refine ⟨ho, ?_⟩
      rw [change_heap, Function.update_of_ne]
      intro he
      exact hne (hname.symm.trans (h.registered _ _ (hold l hl he)).2)
  · intro l hl ht
    rw [change_heap, Function.update_of_ne]
    exact fun he => ht name rfl (hold l hl he)
  · intro other l hl he
    rw [change_loggers] at he
    rcases Interleave.update_cases he with ⟨rfl, he⟩ | ⟨-, he⟩
    · exact hold l hl (Option.some.inj he).symm
    · exact he

theorem frame_delLogger : Frame (· = name) m (m.delLogger name) := by
  rw [delLogger_eq]
  refine ⟨Nat.le_refl _, rfl, ?_, fun _ _ _ => rfl, ?_⟩
  · intro other hne
    simp [look, Function.update_of_ne hne]
  · intro other l _ he
    rcases Interleave.update_cases he with ⟨-, he⟩ | ⟨-, he⟩
    · contradiction
    · exact he

theorem Wf.frame_getLogger (h : m.Wf) : Frame (· = name) m (m.getLogger name).2 := by
  rw [getLogger_eq_change]
  exact h.frame_change

theorem Wf.frame_configure {d : LogDefine} (h : m.Wf) (hr : (Ddg.configure d m).state = some m') :
    Frame (· = d.name) m m' := by
  cases configure_state hr with
  | level => exact h.frame_change
  | applied => exact h.frame_change

theorem Wf.frame_dropDefine {d : LogDefine} (h : m.Wf) :
    Frame (· = d.name) m (Ddg.dropDefine d m) := by
  rw [dropDefine_eq]
  exact h.frame_change.trans frame_delLogger

end LoggerManager

/-! ## The loops -/

section Loops

variable {old new : LogDefines} {ds gone : List LogDefine} {m m' : LoggerManager}

/-- The names of the definitions that are applied. -/
def LogDefines.Applies (old : LogDefines) (ds : List LogDefine) (name : Text) : Prop :=
  ∃ d ∈ ds, old.skips d = false ∧ d.name = name

/-- The names of the definitions that are dropped. -/
def LogDefines.Drops (new : LogDefines) (gone : List LogDefine) (name : Text) : Prop :=
  ∃ d ∈ gone, new.find d.name = none ∧ d.name = name

theorem applyDefines_frame (h : m.Wf) (hr : (applyDefines old ds m).state = some m') :
    m'.Wf ∧ m.Frame (old.Applies ds) m' := by
  refine applyDefines_keeps (P := fun x => x.Wf ∧ m.Frame (old.Applies ds) x) [] ?_
    (List.forall_mem_nil _) ⟨h, .refl m⟩ hr
  rintro ds₁ d ds₂ hds - hs m₁ m₂ ⟨hw, hf⟩ hc
  refine ⟨hw.configure hc, hf.trans ((hw.frame_configure hc).mono ?_)⟩
  rintro name rfl
  rw [List.nil_append] at hds
  exact ⟨d, by rw [hds]; simp, hs, rfl⟩

theorem dropDefines_frame (h : m.Wf) :
    (dropDefines new gone m).Wf ∧ m.Frame (new.Drops gone) (dropDefines new gone m) := by
  refine dropDefines_keeps (P := fun x => x.Wf ∧ m.Frame (new.Drops gone) x) ?_ ⟨h, .refl m⟩
  rintro d hd hn m₁ ⟨hw, hf⟩
  refine ⟨hw.dropDefine, hf.trans (hw.frame_dropDefine.mono ?_)⟩
  rintro name rfl
  exact ⟨d, hd, hn, rfl⟩

/-- What the first loop has made of the loggers when it comes to its end. -/
theorem applyDefines_applied (h : m.Wf) (hnd : (ds.map LogDefine.name).Nodup)
    (hr : applyDefines old ds m = .done m') {d : LogDefine} (hd : d ∈ ds)
    (hs : old.skips d = false) :
    ∃ l id g, m'.look d.name = some (l, d.applied id d.appenders g) ∧
      g.formatter = defaultFormatter ∧ ∀ l', m.loggers d.name = some l' → l = l' := by
  induction ds generalizing m with
  | nil => simp at hd
  | cons e ds ih =>
    rw [List.map_cons, List.nodup_cons] at hnd
    rw [applyDefines] at hr
    by_cases hse : old.skips e = true
    · rw [if_pos hse] at hr
      rcases List.mem_cons.mp hd with rfl | hd
      · simp [hs] at hse
      · exact ih h hnd.2 hr hd
    · rw [if_neg hse] at hr
      cases hc : configure e m with
      | done m₁ =>
        rw [hc, CallResult.bind_done] at hr
        have hw : m₁.Wf := h.configure (by rw [hc]; rfl)
        have hf := (applyDefines_frame hw (by rw [hr]; rfl)).2
        obtain ⟨-, rfl⟩ := configure_done_iff.mp hc
        rcases List.mem_cons.mp hd with rfl | hd
        · have hnot : ¬ old.Applies ds d.name := by
            rintro ⟨d', hd', -, hn⟩
            exact hnd.1 (hn ▸ List.mem_map_of_mem hd')
          have hlook := hf.look d.name hnot
          rw [LoggerManager.look_change] at hlook
          refine ⟨_, _, _, hlook, h.seen_formatter, fun l' hl' => ?_⟩
          simp [LoggerManager.getLogger_of_some hl']
        · obtain ⟨l, id, g, hlook, hg, hl⟩ := ih hw hnd.2 hr hd
          refine ⟨l, id, g, hlook, hg, fun l' hl' => hl l' ?_⟩
          have hne : d.name ≠ e.name := fun he => hnd.1 (he ▸ List.mem_map_of_mem hd)
          rw [LoggerManager.change_loggers, Function.update_of_ne hne]
          exact hl'
      | thrown m₁ => simp [hc] at hr
      | crashed => simp [hc] at hr

/-- What the second loop makes of the loggers. -/
theorem dropDefines_dropped (h : m.Wf) (hnd : (gone.map LogDefine.name).Nodup) {d : LogDefine}
    (hd : d ∈ gone) (hn : new.find d.name = none) :
    (dropDefines new gone m).loggers d.name = none ∧ ∀ l, m.loggers d.name = some l →
      ((dropDefines new gone m).heap l).level = 100 ∧
        ((dropDefines new gone m).heap l).appenders = [] := by
  induction gone generalizing m with
  | nil => simp at hd
  | cons e gone ih =>
    rw [List.map_cons, List.nodup_cons] at hnd
    have hne : ∀ {d}, d ∈ gone → d.name ≠ e.name := fun hd he =>
      hnd.1 (he ▸ List.mem_map_of_mem hd)
    rw [dropDefines]
    split
    · have hw : (dropDefine e m).Wf := h.dropDefine
      have hf : (dropDefine e m).Frame (new.Drops gone) (dropDefines new gone (dropDefine e m)) :=
        (dropDefines_frame hw).2
      rcases List.mem_cons.mp hd with rfl | hd
      · have hun : ¬ new.Drops gone d.name := by
          rintro ⟨d', hd', -, hn'⟩
          exact hne hd' hn'
        have hlog : (dropDefine d m).loggers d.name = none := by
          rw [dropDefine_eq, LoggerManager.delLogger_eq]
          exact Function.update_self ..
        refine ⟨?_, fun l hl => ?_⟩
        · rw [← LoggerManager.look_eq_none, hf.look _ hun]
          exact LoggerManager.look_eq_none.mpr hlog
        · have hheap : (dropDefine d m).heap l =
              { m.heap l with level := 100, appenders := [] } := by
            rw [dropDefine_eq, LoggerManager.delLogger_heap, LoggerManager.change_heap,
              LoggerManager.seen_of_some hl, LoggerManager.getLogger_of_some hl]
            exact Function.update_self ..
          have hlt : l < (dropDefine d m).loggerCount :=
            Nat.lt_of_lt_of_le (h.registered _ _ hl).1 h.frame_dropDefine.count
          rw [hf.heap l hlt, hheap]
          · exact ⟨rfl, rfl⟩
          · rintro name ⟨d', hd', -, rfl⟩ hl'
            have hname := (hw.registered _ _ hl').2
            rw [hheap] at hname
            exact hne hd' (hname.symm.trans (h.registered _ _ hl).2)
      · obtain ⟨hnone, hheap⟩ := ih hw hnd.2 hd
        refine ⟨hnone, fun l hl => hheap l ?_⟩
        have hlook := h.frame_dropDefine (d := e).look d.name (hne hd)
        rw [LoggerManager.look_eq_some.mpr ⟨hl, rfl⟩] at hlook
        exact (LoggerManager.look_eq_some.mp hlook).1
    · rename_i e' hsome
      rcases List.mem_cons.mp hd with rfl | hd
      · simp [hn] at hsome
      · exact ih h hnd.2 hd

end Loops

/-! ## The listener -/

namespace LogDefines

variable {s : LogDefines} {d e : LogDefine} {name : Text}

theorem nodup_names (s : LogDefines) : (s.defs.map LogDefine.name).Nodup := by
  rw [List.Nodup, List.pairwise_map]
  refine s.sorted.imp ?_
  intro a b h he
  rw [he] at h
  exact List.lt_irrefl _ h

theorem eq_of_name (hd : d ∈ s.defs) (he : e ∈ s.defs) (h : d.name = e.name) : d = e :=
  List.inj_on_of_nodup_map s.nodup_names hd he h

theorem find_eq_some : s.find name = some d ↔ d ∈ s.defs ∧ d.name = name := by
  constructor
  · intro h
    exact ⟨List.mem_of_find?_eq_some h, by simpa using List.find?_some h⟩
  · rintro ⟨hd, rfl⟩
    cases hf : s.find d.name with
    | none => simpa using (List.find?_eq_none.mp hf) d hd
    | some e =>
      have hname : e.name = d.name := by simpa using List.find?_some hf
      rw [eq_of_name (List.mem_of_find?_eq_some hf) hd hname]

theorem find_eq_none : s.find name = none ↔ ∀ d ∈ s.defs, d.name ≠ name := by
  simp [find]

end LogDefines

section Listener

variable {old new : LogDefines} {m m' : LoggerManager} {level : LogLevel}

/-- The root logger can take a message of the level: it does not pass it on, or to an appender. -/
def LoggerManager.Speaks (m : LoggerManager) (level : LogLevel) : Prop :=
  (m.heap m.root).level ≤ level.val → (m.heap m.root).appenders ≠ []

instance : Decidable (m.Speaks level) := inferInstanceAs (Decidable (_ → _))

theorem LoggerManager.Wf.say_eq (h : m.Wf) :
    m.say level = if m.Speaks level then .done m else .crashed := by
  unfold LoggerManager.say LoggerManager.Speaks LoggerManager.logUnlocked
  by_cases hl : (m.heap m.root).level ≤ level.val <;>
    by_cases ha : (m.heap m.root).appenders = [] <;> simp [hl, ha, h.rootRoot]

/-- A change that comes to its end. -/
theorem onLoggerConfChanged_done (h : m.Wf) : onLoggerConfChanged old new m = .done m' ↔
    m.Speaks .info ∧ ∃ m₁, applyDefines old new.defs m = .done m₁ ∧
      m' = dropDefines new old.defs m₁ := by
  unfold onLoggerConfChanged
  rw [h.say_eq]
  by_cases hs : m.Speaks .info
  · simp only [hs, if_true, CallResult.bind_done, true_and]
    cases applyDefines old new.defs m <;> simp [eq_comm]
  · simp [hs]

theorem onLoggerConfChanged_done_iff (h : m.Wf) :
    (∃ m', onLoggerConfChanged old new m = .done m') ↔
      m.Speaks .info ∧ old.Clean new.defs := by
  constructor
  · rintro ⟨m', hr⟩
    obtain ⟨hs, m₁, ha, -⟩ := (onLoggerConfChanged_done h).mp hr
    exact ⟨hs, applyDefines_done_iff.mp ⟨m₁, ha⟩⟩
  · rintro ⟨hs, hc⟩
    obtain ⟨m₁, ha⟩ := applyDefines_done_iff.mpr hc
    exact ⟨_, (onLoggerConfChanged_done h).mpr ⟨hs, m₁, ha, rfl⟩⟩

/-- The names that a change of the configuration touches. -/
def LogDefines.Touches (old new : LogDefines) (name : Text) : Prop :=
  old.Applies new.defs name ∨ new.Drops old.defs name

theorem not_drops_of_mem {d : LogDefine} (hd : d ∈ new.defs) : ¬ new.Drops old.defs d.name := by
  rintro ⟨e, -, hn, he⟩
  exact LogDefines.find_eq_none.mp hn d hd he.symm

theorem not_applies_of_find {name : Text} (hn : new.find name = none) :
    ¬ old.Applies new.defs name := by
  rintro ⟨d, hd, -, hname⟩
  exact LogDefines.find_eq_none.mp hn d hd hname

theorem onLoggerConfChanged_frame (h : m.Wf)
    (hr : (onLoggerConfChanged old new m).state = some m') : m.Frame (old.Touches new) m' := by
  refine (onLoggerConfChanged_keeps (P := fun x => x.Wf ∧ m.Frame (old.Touches new) x) ?_ ?_
    ⟨h, .refl m⟩ hr).2
  · rintro ds₁ d ds₂ hds - hs m₁ m₂ ⟨hw, hf⟩ hc
    refine ⟨hw.configure hc, hf.trans ((hw.frame_configure hc).mono ?_)⟩
    rintro name rfl
    exact .inl ⟨d, by rw [hds]; simp, hs, rfl⟩
  · rintro - d hd hn m₁ ⟨hw, hf⟩
    refine ⟨hw.dropDefine, hf.trans (hw.frame_dropDefine.mono ?_)⟩
    rintro name rfl
    exact .inr ⟨d, hd, hn, rfl⟩

/-- A definition that is not skipped has been applied to its logger, which has kept its place. -/
theorem onLoggerConfChanged_applied (h : m.Wf) (hr : onLoggerConfChanged old new m = .done m')
    {d : LogDefine} (hd : d ∈ new.defs) (hs : old.skips d = false) :
    ∃ l id g, m'.look d.name = some (l, d.applied id d.appenders g) ∧
      g.formatter = defaultFormatter ∧ ∀ l', m.loggers d.name = some l' → l = l' := by
  obtain ⟨-, m₁, ha, rfl⟩ := (onLoggerConfChanged_done h).mp hr
  have hw := (applyDefines_frame h (by rw [ha]; rfl)).1
  have hframe : m₁.Frame (new.Drops old.defs) (dropDefines new old.defs m₁) :=
    (dropDefines_frame hw).2
  rw [hframe.look d.name (not_drops_of_mem hd)]
  exact applyDefines_applied h new.nodup_names ha hd hs

/-- The logger of a definition that is gone has been silenced, emptied and unregistered. -/
theorem onLoggerConfChanged_dropped (h : m.Wf) (hr : onLoggerConfChanged old new m = .done m')
    {d : LogDefine} (hd : d ∈ old.defs) (hn : new.find d.name = none) :
    m'.loggers d.name = none ∧ ∀ l, m.loggers d.name = some l →
      (m'.heap l).level = 100 ∧ (m'.heap l).appenders = [] := by
  obtain ⟨-, m₁, ha, rfl⟩ := (onLoggerConfChanged_done h).mp hr
  obtain ⟨hw, hf⟩ := applyDefines_frame h (by rw [ha]; rfl)
  obtain ⟨hnone, hheap⟩ := dropDefines_dropped hw old.nodup_names hd hn
  refine ⟨hnone, fun l hl => hheap l ?_⟩
  have hlook := hf.look d.name (not_applies_of_find hn)
  rw [LoggerManager.look_eq_some.mpr ⟨hl, rfl⟩] at hlook
  exact (LoggerManager.look_eq_some.mp hlook).1

end Listener

end Ddg
