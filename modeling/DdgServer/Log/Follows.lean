import DdgServer.Log.Root

/-!
# The loggers follow the configuration

After a change of the variable, the loggers are to be as the new definitions say, those of the
definitions that are gone are to be silent and unregistered, and the others are to be as they were
(`Followed`). The change does so exactly if it `Takes` the new definitions:

* `Logger::setFormatter` passes on the formatter that the logger has, so a definition can only ask
  for that one or for none;
* `LogAppenderDefine::operator==` overlooks the file, so a definition must not change a file only;
* the root must be able to take the message that the listener starts with.

`follows_new` is about every state that is reached by steps that are `Faithful`: each change is
taken, or it throws before it has changed anything (`Refuses`).
-/

namespace Ddg

open Interleave LoggerManager

/-! ## Sets that are the same -/

theorem LogDefine.same_symm {d e : LogDefine} (h : d.same e = true) : e.same d = true := by
  obtain ⟨hn, hl, hf, ha⟩ := LogDefine.same_iff.mp h
  refine LogDefine.same_iff.mpr ⟨hn.symm, hl.symm, hf.symm, ha.flip.imp fun a b hab => ?_⟩
  have hba := LogAppenderDefine.same_iff.mp hab
  rw [LogAppenderDefine.same_iff, ← hba]

theorem forall₂_right {α β : Type} {R : α → β → Prop} {as : List α} {bs : List β}
    (h : List.Forall₂ R as bs) {b : β} (hb : b ∈ bs) : ∃ a ∈ as, R a b := by
  induction h with
  | nil => simp at hb
  | cons hab _ ih =>
    rcases List.mem_cons.mp hb with rfl | hb
    · exact ⟨_, List.mem_cons_self, hab⟩
    · obtain ⟨a, ha, hr⟩ := ih hb
      exact ⟨a, List.mem_cons_of_mem _ ha, hr⟩

theorem forall₂_comp {α β γ : Type} {R : α → β → Prop} {S : β → γ → Prop} {Q : α → γ → Prop}
    (hQ : ∀ a b c, R a b → S b c → Q a c) {as : List α} {bs : List β} {cs : List γ}
    (h : List.Forall₂ R as bs) (h' : List.Forall₂ S bs cs) : List.Forall₂ Q as cs := by
  induction h generalizing cs with
  | nil =>
    rw [List.forall₂_nil_left_iff] at h'
    rw [h']
    exact .nil
  | cons hr _ ih =>
    obtain ⟨c, cs', hs, hrest, rfl⟩ := List.forall₂_cons_left_iff.mp h'
    exact .cons (hQ _ _ _ hr hs) (ih hrest)

theorem forall₂_and {α β : Type} {R S : α → β → Prop} {as : List α} {bs : List β}
    (h : List.Forall₂ R as bs) (h' : List.Forall₂ S as bs) :
    List.Forall₂ (fun a b => R a b ∧ S a b) as bs := by
  induction h with
  | nil => exact .nil
  | cons hr _ ih =>
    obtain ⟨hs, hrest⟩ := List.forall₂_cons.mp h'
    exact .cons ⟨hr, hs⟩ (ih hrest)

namespace LogDefines

variable {old new : LogDefines} {d e : LogDefine}

theorem skips_iff : old.skips d = true ↔ ∃ e, old.find d.name = some e ∧ d.same e = true := by
  unfold skips
  cases old.find d.name <;> simp

theorem same_iff : (old == new) = true ↔
    List.Forall₂ (fun e d => e.same d = true) old.defs new.defs := by
  change same old new = true ↔ _
  rw [List.forall₂_iff_zip]
  simp only [same, Bool.and_eq_true, beq_iff_eq, List.all_eq_true, Prod.forall]

/-- A set that is the same has the same names, and its definitions would be skipped. -/
theorem skips_of_same (h : (old == new) = true) (hd : d ∈ new.defs) : old.skips d = true := by
  obtain ⟨e, he, hs⟩ := forall₂_right (same_iff.mp h) hd
  refine skips_iff.mpr ⟨e, find_eq_some.mpr ⟨he, (LogDefine.same_iff.mp hs).1⟩, ?_⟩
  exact LogDefine.same_symm hs

theorem find_of_same (h : (old == new) = true) (hd : d ∈ old.defs) : new.find d.name ≠ none := by
  intro hn
  obtain ⟨e, he, hs⟩ := forall₂_right (same_iff.mp h).flip hd
  exact find_eq_none.mp hn e he (LogDefine.same_iff.mp hs).1.symm

/-- What is skipped is not touched. -/
theorem not_touches_of_skips (hd : d ∈ new.defs) (hs : old.skips d = true) :
    ¬ old.Touches new d.name := by
  rintro (⟨e, he, hse, hname⟩ | hdrop)
  · rw [eq_of_name he hd hname, hs] at hse
    contradiction
  · exact not_drops_of_mem hd hdrop

/-- A definition that is compared as equal has the files of the old one. -/
def FilesKept (old new : LogDefines) : Prop :=
  ∀ d ∈ new.defs, ∀ e, old.find d.name = some e → d.same e = true →
    List.Forall₂ (fun a b : LogAppenderDefine => a.type = .file → a.file = b.file)
      d.appenders e.appenders

end LogDefines

/-! ## What is to hold after a change -/

/-- The logger is as the definition says. -/
structure LogDefine.Shown (d : LogDefine) (g : Logger) : Prop where
  matched : d.Matches g
  formatter : d.formatter ≠ [] → g.formatter.pattern = d.formatter

/-- From `m` to `m'` the loggers have followed the change from `old` to `new`. -/
structure Followed (old new : LogDefines) (m m' : LoggerManager) : Prop where
  shown : ∀ d ∈ new.defs, ∃ l g, m'.look d.name = some (l, g) ∧ d.Shown g
  dropped : ∀ d ∈ old.defs, new.find d.name = none → m'.loggers d.name = none ∧
    ∀ l, m.loggers d.name = some l → (m'.heap l).level = 100 ∧ (m'.heap l).appenders = []
  others : ∀ l < m.loggerCount, (∀ d ∈ new.defs, m'.loggers d.name ≠ some l) →
    (∀ d ∈ old.defs, new.find d.name = none → m.loggers d.name ≠ some l) →
      m'.heap l = m.heap l
  names : ∀ name, new.find name = none → old.find name = none →
    m'.loggers name = m.loggers name

theorem LogAppenderDefine.Matches.of_same {a b : LogAppenderDefine} {formatter : LogFormatter}
    {ap : LogAppender} (h : b.Matches formatter ap) (hs : a.same b = true)
    (hf : a.type = .file → a.file = b.file) : a.Matches formatter ap := by
  have heq := LogAppenderDefine.same_iff.mp hs
  obtain ⟨ht, hl, hfm⟩ : a.type = b.type ∧ a.level = b.level ∧ a.formatter = b.formatter := by
    rw [← heq]
    exact ⟨rfl, rfl, rfl⟩
  constructor
  · rw [h.type, ht]
  · rw [h.level, hl]
  · intro hfile
    rw [hf hfile, h.file (ht ▸ hfile)]
  · rw [h.formatter, hfm]

/-- A logger that is as a definition says is as one says that is compared as equal and has the same
files. -/
theorem LogDefine.Shown.of_same {d e : LogDefine} {g : Logger} (h : e.Shown g)
    (hs : d.same e = true)
    (hf : List.Forall₂ (fun a b : LogAppenderDefine => a.type = .file → a.file = b.file)
      d.appenders e.appenders) : d.Shown g := by
  obtain ⟨-, hl, hform, ha⟩ := LogDefine.same_iff.mp hs
  refine ⟨⟨by rw [h.matched.level, hl], ?_⟩, by rw [hform]; exact h.formatter⟩
  exact forall₂_comp (fun a b ap hab hm => hm.of_same hab.1 hab.2) (forall₂_and ha hf)
    h.matched.appenders

/-- Two definitions that are compared as equal and that the same logger is as have the same
files. -/
theorem LogDefine.Matches.files {d e : LogDefine} {g : Logger} (h : d.Matches g) (h' : e.Matches g) :
    List.Forall₂ (fun a b : LogAppenderDefine => a.type = .file → a.file = b.file)
      d.appenders e.appenders := by
  refine forall₂_comp (fun a ap b ha hb ht => ?_) h.appenders h'.appenders.flip
  rw [← ha.file ht, ← hb.file (by rw [← hb.type, ha.type, ht])]

/-! ## One change -/

namespace LogsState

variable {s s' : LogsState} {v : LogDefines}

/-- What `setValue` is to find for the loggers to follow. -/
structure Takes (s : LogsState) (v : LogDefines) : Prop where
  formatters : ∀ d ∈ v.defs, d.formatter = [] ∨ d.formatter = defaultPattern
  files : s.logs.val.FilesKept v
  ends : (s.logs.val == v) = false → s.mgr.Speaks .info ∧ s.logs.val.Clean v.defs

/-- The loggers are as the value of the variable says. -/
def Current (s : LogsState) : Prop :=
  ∀ d ∈ s.logs.val.defs, ∃ l g, s.mgr.look d.name = some (l, g) ∧ d.Shown g

theorem setValue_done (hw : s.Wf) : s.setValue v = .done s' ↔
    (s.logs.val == v) = true ∧ s' = s ∨ (s.logs.val == v) = false ∧
      onLoggerConfChanged s.logs.val v s.mgr = .done s'.mgr ∧
        s'.logs = { s.logs with val := v } := by
  rw [setValue_eq hw.cbs]
  by_cases hv : (s.logs.val == v) = true
  · simp [hv, eq_comm]
  · simp only [Bool.not_eq_true] at hv
    simp only [hv, Bool.false_eq_true, if_false, false_and, false_or, true_and]
    cases onLoggerConfChanged s.logs.val v s.mgr with
    | done m =>
      obtain ⟨logs, mgr⟩ := s'
      simp [and_comm, eq_comm]
    | thrown | crashed => simp

/-- The logger of a definition that is skipped is as it was. -/
theorem look_of_skips (hw : s.Wf) (hs : s.setValue v = .done s') {d : LogDefine} (hd : d ∈ v.defs)
    (hskip : s.logs.val.skips d = true) : s'.mgr.look d.name = s.mgr.look d.name := by
  rcases (setValue_done hw).mp hs with ⟨-, rfl⟩ | ⟨-, hr, -⟩
  · rfl
  · exact (onLoggerConfChanged_frame hw.mgr (by rw [hr]; rfl)).look d.name
      (LogDefines.not_touches_of_skips hd hskip)

theorem shown_of_takes (hw : s.Wf) (hcur : s.Current) (ht : s.Takes v)
    (hs : s.setValue v = .done s') {d : LogDefine} (hd : d ∈ v.defs) :
    ∃ l g, s'.mgr.look d.name = some (l, g) ∧ d.Shown g := by
  by_cases hskip : s.logs.val.skips d = true
  · obtain ⟨e, he, hsame⟩ := LogDefines.skips_iff.mp hskip
    obtain ⟨hmem, hname⟩ := LogDefines.find_eq_some.mp he
    obtain ⟨l, g, hlook, hg⟩ := hcur e hmem
    rw [look_of_skips hw hs hd hskip, ← hname]
    exact ⟨l, g, hlook, hg.of_same hsame (ht.files d hd e he hsame)⟩
  · rcases (setValue_done hw).mp hs with ⟨hv, -⟩ | ⟨hv, hr, -⟩
    · exact absurd (LogDefines.skips_of_same hv hd) hskip
    · simp only [Bool.not_eq_true] at hskip
      obtain ⟨l, id, g, hlook, hg, -⟩ := onLoggerConfChanged_applied hw.mgr hr hd hskip
      refine ⟨l, _, hlook, ((ht.ends hv).2 d hd hskip).matches id g, fun hne => ?_⟩
      change g.formatter.pattern = d.formatter
      rw [hg, (ht.formatters d hd).resolve_left hne]
      rfl

/-- A change that is taken is followed. -/
theorem followed_of_takes (hw : s.Wf) (hcur : s.Current) (ht : s.Takes v)
    (hs : s.setValue v = .done s') : Followed s.logs.val v s.mgr s'.mgr := by
  refine ⟨fun d hd => shown_of_takes hw hcur ht hs hd, ?_, ?_, ?_⟩
  · intro d hd hn
    rcases (setValue_done hw).mp hs with ⟨hv, -⟩ | ⟨-, hr, -⟩
    · exact absurd hn (LogDefines.find_of_same hv hd)
    · exact onLoggerConfChanged_dropped hw.mgr hr hd hn
  · intro l hl hnew hold
    rcases (setValue_done hw).mp hs with ⟨-, rfl⟩ | ⟨-, hr, -⟩
    · rfl
    · refine (onLoggerConfChanged_frame hw.mgr (by rw [hr]; rfl)).heap l hl ?_
      rintro name (⟨d, hd, hskip, rfl⟩ | ⟨d, hd, hn, rfl⟩) hlog
      · -- an applied definition keeps the logger of its name
        obtain ⟨l', id, g, hlook, -, hl'⟩ := onLoggerConfChanged_applied hw.mgr hr hd hskip
        obtain rfl := hl' l hlog
        exact hnew d hd (look_eq_some.mp hlook).1
      · exact hold d hd hn hlog
  · intro name hn ho
    rcases (setValue_done hw).mp hs with ⟨-, rfl⟩ | ⟨-, hr, -⟩
    · rfl
    · have hlook := (onLoggerConfChanged_frame hw.mgr (by rw [hr]; rfl)).look name ?_
      · simpa [look, Option.map_map, Function.comp_def] using congrArg (Option.map Prod.fst) hlook
      · rintro (⟨d, hd, -, hname⟩ | ⟨d, hd, -, hname⟩)
        · exact LogDefines.find_eq_none.mp hn d hd hname
        · exact LogDefines.find_eq_none.mp ho d hd hname

/-- A change that is followed was taken. -/
theorem takes_of_followed (hw : s.Wf) (hcur : s.Current) (hs : s.setValue v = .done s')
    (hf : Followed s.logs.val v s.mgr s'.mgr) : s.Takes v := by
  have hw' : s'.Wf := hw.step (a := .setValue v) (by
    change (s.setValue v).state = some s'
    rw [hs]
    rfl)
  refine ⟨?_, ?_, ?_⟩
  · intro d hd
    obtain ⟨l, g, hlook, hg⟩ := hf.shown d hd
    obtain ⟨hlog, rfl⟩ := look_eq_some.mp hlook
    refine or_iff_not_imp_left.mpr fun hne => ?_
    rw [← hg.formatter hne, hw'.mgr.formatter l (hw'.mgr.registered _ _ hlog).1]
    rfl
  · intro d hd e he hsame
    have hskip := LogDefines.skips_iff.mpr ⟨e, he, hsame⟩
    obtain ⟨hmem, hname⟩ := LogDefines.find_eq_some.mp he
    obtain ⟨l, g, hlook, hg⟩ := hf.shown d hd
    obtain ⟨l', g', hlook', hg'⟩ := hcur e hmem
    rw [look_of_skips hw hs hd hskip, ← hname, hlook'] at hlook
    obtain ⟨rfl, rfl⟩ := Prod.mk.inj (Option.some.inj hlook)
    exact hg.matched.files hg'.matched
  · intro hv
    rcases (setValue_done hw).mp hs with ⟨hv', -⟩ | ⟨-, hr, -⟩
    · rw [hv] at hv'
      contradiction
    · exact (onLoggerConfChanged_done_iff hw.mgr).mp ⟨_, hr⟩

/-- `setValue` returns with the loggers as they are to be exactly if it takes the definitions. -/
theorem followed_iff (hw : s.Wf) (hcur : s.Current) :
    (∃ s', s.setValue v = .done s' ∧ Followed s.logs.val v s.mgr s'.mgr) ↔ s.Takes v := by
  constructor
  · rintro ⟨s', hs, hf⟩
    exact takes_of_followed hw hcur hs hf
  · intro ht
    obtain ⟨s', hs⟩ : ∃ s', s.setValue v = .done s' := by
      by_cases hv : (s.logs.val == v) = true
      · exact ⟨s, (setValue_done hw).mpr (.inl ⟨hv, rfl⟩)⟩
      · simp only [Bool.not_eq_true] at hv
        obtain ⟨m', hr⟩ := (onLoggerConfChanged_done_iff hw.mgr).mpr (ht.ends hv)
        exact ⟨⟨_, m'⟩, (setValue_done hw).mpr (.inr ⟨hv, hr, rfl⟩)⟩
    exact ⟨s', hs, followed_of_takes hw hcur ht hs⟩

end LogsState

/-! ## Changes that throw at once -/

/-- The logger of the name has the level and the appenders. -/
def LoggerManager.Has (m : LoggerManager) (name : Text) (level : LogLevel)
    (appenders : List LogAppender) : Prop :=
  ∃ l g, m.look name = some (l, g) ∧ g.level = level.val ∧ g.appenders = appenders

/-- The first loop throws, and until then every definition that it applies sets its logger to the
level that it has, and empties it where it is empty. -/
def RefusesFrom (old : LogDefines) (m : LoggerManager) : List LogDefine → Prop
  | [] => False
  | d :: ds =>
    if old.skips d then RefusesFrom old m ds
    else if Rejected d.formatter then ∃ appenders, m.Has d.name d.level appenders
    else m.Has d.name d.level [] ∧
      match d.appenders with
      | [] => RefusesFrom old m ds
      | a :: _ => a.type ≠ .unknow ∧ Rejected a.formatter

/-- The change throws before it has changed a logger. -/
def LogsState.Refuses (s : LogsState) (v : LogDefines) : Prop :=
  (s.logs.val == v) = false ∧ s.mgr.Speaks .info ∧ RefusesFrom s.logs.val s.mgr v.defs

section Refuses

variable {old : LogDefines} {ds : List LogDefine} {m : LoggerManager} {d : LogDefine}

theorem change_eq_self {name : Text} {l : ℕ} {g : Logger} {f : Logger → Logger}
    (hlook : m.look name = some (l, g)) (hf : f g = g) : m.change name f 0 = m := by
  obtain ⟨hlog, rfl⟩ := look_eq_some.mp hlook
  rw [change, getLogger_of_some hlog, LoggerManager.modify, hf, Function.update_eq_self]
  rfl

theorem applied_eq_self {appenders : List LogAppender} {g : Logger} (hl : g.level = d.level.val)
    (ha : g.appenders = appenders) (hnil : appenders = []) (id : ℕ) : d.applied id [] g = g := by
  obtain ⟨name, level, formatter, apps, root⟩ := g
  simp only at hl ha
  subst hl ha hnil
  rfl

theorem LoggerManager.Has.change_applied (h : m.Has d.name d.level []) :
    m.change d.name (d.applied m.appenderCount []) 0 = m := by
  obtain ⟨l, g, hlook, hl, ha⟩ := h
  exact change_eq_self hlook (applied_eq_self hl ha rfl _)

theorem LoggerManager.Has.change_setLevel {appenders : List LogAppender}
    (h : m.Has d.name d.level appenders) : m.change d.name (·.setLevel d.level.val) 0 = m := by
  obtain ⟨l, g, hlook, hl, -⟩ := h
  refine change_eq_self hlook ?_
  rw [← hl]
  rfl

/-- Such a loop throws with everything as it was. -/
theorem RefusesFrom.thrown (h : RefusesFrom old m ds) : applyDefines old ds m = .thrown m := by
  induction ds with
  | nil => exact h.elim
  | cons d ds ih =>
    rw [RefusesFrom] at h
    rw [applyDefines]
    by_cases hskip : old.skips d = true
    · rw [if_pos hskip] at h ⊢
      exact ih h
    rw [if_neg hskip] at h ⊢
    have hc := configure_cases d m
    by_cases hf : Rejected d.formatter
    · rw [if_pos hf] at h
      obtain ⟨appenders, hhas⟩ := h
      have hthrown : configure d m = .thrown m := by
        generalize configure d m = r at hc ⊢
        cases hc with
        | formatter => rw [hhas.change_setLevel]
        | all hgood => exact absurd hf hgood.formatter
        | appender | unknow => contradiction
      rw [hthrown]
      rfl
    · rw [if_neg hf] at h
      obtain ⟨hhas, hrest⟩ := h
      cases happ : d.appenders with
      | nil =>
        rw [happ] at hrest
        have hgood : d.Good := ⟨hf, by simp [happ]⟩
        have hdone : configure d m = _ := configure_done_iff.mpr ⟨hgood, rfl⟩
        rw [happ] at hdone
        rw [hdone, List.length_nil, hhas.change_applied, CallResult.bind_done]
        exact ih hrest
      | cons a as =>
        rw [happ] at hrest
        have hbad : ∀ {bs b cs}, d.appenders = bs ++ b :: cs →
            (∀ c ∈ bs, LogAppenderDefine.Good c) → bs = [] ∧ b = a := by
          intro bs b cs he hbs
          rw [happ] at he
          cases bs with
          | nil => exact ⟨rfl, (List.cons.inj he).1.symm⟩
          | cons c bs =>
            obtain rfl : a = c := (List.cons.inj he).1
            exact absurd hrest.2 (hbs a List.mem_cons_self).formatter
        have hthrown : configure d m = .thrown m := by
          generalize configure d m = r at hc ⊢
          cases hc with
          | formatter hf' => exact absurd hf' hf
          | all hgood =>
            exact absurd hrest.2 (hgood.appenders a (by rw [happ]; exact List.mem_cons_self)).formatter
          | appender bs b cs _ he hbs =>
            obtain ⟨rfl, -⟩ := hbad he hbs
            rw [List.length_nil, hhas.change_applied]
          | unknow bs b cs _ he hbs ht =>
            obtain ⟨-, rfl⟩ := hbad he hbs
            exact absurd ht hrest.1
        rw [hthrown]
        rfl

end Refuses

/-! ## Whole runs -/

namespace LogsState

variable {s s' : LogsState} {v : LogDefines}

theorem Refuses.thrown (hw : s.Wf) (h : s.Refuses v) : s.setValue v = .thrown s := by
  obtain ⟨hv, hsay, hloop⟩ := h
  have hl : onLoggerConfChanged s.logs.val v s.mgr = .thrown s.mgr := by
    rw [onLoggerConfChanged, hw.mgr.say_eq, if_pos hsay, CallResult.bind_done, hloop.thrown]
    rfl
  rw [setValue_eq hw.cbs, if_neg (by simp [hv]), hl]

/-- A change is taken, or it throws at once; and no logger is unregistered that the value names. -/
def Faithful (s : LogsState) : LogsOp → Prop
  | .setValue v => s.Takes v ∨ s.Refuses v
  | .getLogger _ => True
  | .delLogger name => s.logs.val.find name = none

/-- A taken change leaves the loggers as the value says. -/
theorem current_of_takes (hw : s.Wf) (hcur : s.Current) (ht : s.Takes v)
    (hs : s.setValue v = .done s') : s'.Current := by
  rcases (setValue_done hw).mp hs with ⟨-, rfl⟩ | ⟨-, -, hlogs⟩
  · exact hcur
  · intro d hd
    rw [hlogs] at hd
    exact shown_of_takes hw hcur ht hs hd

theorem current_step {a : LogsOp} (hw : s.Wf) (hcur : s.Current) (hc : Faithful s a)
    (hs : s.step a = some s') : s'.Current := by
  cases a with
  | setValue v =>
    rcases hc with ht | hr
    · obtain ⟨t, hdone, -⟩ := (followed_iff hw hcur).mpr ht
      have he : t = s' := by
        change (s.setValue v).state = some s' at hs
        rw [hdone] at hs
        exact Option.some.inj hs
      exact current_of_takes hw hcur ht (he ▸ hdone)
    · have he : s = s' := by
        change (s.setValue v).state = some s' at hs
        rw [hr.thrown hw] at hs
        exact Option.some.inj hs
      exact he ▸ hcur
  | getLogger name =>
    obtain rfl := Option.some.inj hs
    intro d hd
    obtain ⟨l, g, hlook, hg⟩ := hcur d hd
    refine ⟨l, g, ?_, hg⟩
    by_cases hname : d.name = name
    · rw [← hname, getLogger_of_some (look_eq_some.mp hlook).1]
      exact hlook
    · exact (hw.mgr.frame_getLogger.look d.name hname).trans hlook
  | delLogger name =>
    obtain rfl := Option.some.inj hs
    intro d hd
    obtain ⟨l, g, hlook, hg⟩ := hcur d hd
    refine ⟨l, g, ?_, hg⟩
    exact (frame_delLogger.look d.name (LogDefines.find_eq_none.mp hc d hd)).trans hlook

theorem current_inductive : logsSys.Inductive Faithful fun s => s.Wf ∧ s.Current := by
  refine wf_inductive.and ?_ fun s a s' hw h hc hs => current_step hw h hc hs
  intro s hs
  rw [logsSys_init.mp hs]
  intro d hd
  simp [LogsState.new, LogDefines.empty] at hd

/-- **The loggers follow a change** of the variable exactly if it is taken, in every state that
faithful steps reach. -/
theorem follows_new (h : logsSys.Reach Faithful s) (v : LogDefines) :
    (∃ s', s.setValue v = .done s' ∧ Followed s.logs.val v s.mgr s'.mgr) ↔ s.Takes v :=
  let ⟨hw, hcur⟩ := current_inductive.reach h
  followed_iff hw hcur

/-! ### Runs -/

/-- A logger with an appender to a file. -/
def fileDefine (file : Text) : LogDefine :=
  { name := ['d', 'b'], level := .warn, appenders := [{ type := .file, level := .warn, file }] }

theorem reach_new : logsSys.Reach Faithful LogsState.new :=
  ⟨_, logsSys_init.mpr rfl, .refl⟩

/-- The first definition of a logger. -/
theorem follows_new_first :
    ∃ s', LogsState.new.setValue ⟨[fileDefine ['a']], by decide⟩ = .done s' ∧
      Followed LogDefines.empty ⟨[fileDefine ['a']], by decide⟩ LogsState.new.mgr s'.mgr := by
  refine (follows_new reach_new ⟨[fileDefine ['a']], by decide⟩).mpr ⟨?_, ?_, fun _ => ⟨?_, ?_⟩⟩
  · intro d hd
    rw [List.mem_singleton.mp hd]
    exact .inl rfl
  · intro d _ e he
    contradiction
  · decide
  · decide

/-- A definition with a pattern of its own: its logger keeps the formatter that it has. -/
theorem follows_new_formatter :
    ∃ v : LogDefines, (∀ d ∈ v.defs, d.Good) ∧ ¬ ∃ s', LogsState.new.setValue v = .done s' ∧
      Followed LogDefines.empty v LogsState.new.mgr s'.mgr := by
  refine ⟨⟨[{ dbDefine with formatter := ['%', 'm'] }], by decide⟩, by decide, ?_⟩
  intro h
  have ht := (followed_iff (current_inductive.reach reach_new).1
    (current_inductive.reach reach_new).2).mp h
  have hd := ht.formatters _ (List.mem_singleton.mpr rfl)
  revert hd
  decide

end LogsState

end Ddg
