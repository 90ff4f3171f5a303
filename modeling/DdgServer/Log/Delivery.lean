import DdgServer.Log.LogCalls

/-!
# The delivery of events

`Logger::log` goes to `m_root` where the logger has no appenders, without a check; the root has no
`m_root` itself. A definition of the root without appenders makes every such call go wrong
(`log_nullRoot`).

While no such definition is applied to the root (`KeepsRootAppender`), every event is handed to the
appenders that it is for, each once, just if no lock is in the way (`delivers`): the root has
appenders, or it was dropped and is at the level 100, which no event passes (`RootReady`).
-/

namespace Ddg

open Interleave

namespace LoggerManager

variable {m m' : LoggerManager} {name : Text} {f : Logger → Logger} {k : ℕ} {d : LogDefine}

/-! ## What the changes do to the root -/

/-- The name of the root is the only one that leads to it. -/
theorem RootReady.name_of_get (h : m.Wf) (hr : m.RootReady) (he : m.root = (m.getLogger name).1) :
    name = rootName ∧ m.loggers rootName = some m.root := by
  rcases getLogger_cases m name with hs | ⟨-, hnew⟩
  · rw [← he] at hs
    have hname := (h.registered _ _ hs).2
    rw [hr.name] at hname
    exact ⟨hname.symm, hname ▸ hs⟩
  · have := h.rootLt
    omega

/-- A change that leaves an appender to the root where it changes it. -/
theorem RootReady.change (h : m.Wf) (hr : m.RootReady) (hf : Keeps f)
    (ha : name = rootName → m.loggers rootName = some m.root →
      (f (m.heap m.root)).appenders ≠ []) : (m.change name f k).RootReady := by
  by_cases he : m.root = (m.getLogger name).1
  · obtain ⟨rfl, hlog⟩ := hr.name_of_get h he
    have hheap : (m.change rootName f k).heap (m.change rootName f k).root = f (m.heap m.root) := by
      rw [change_root, change_heap, ← he, Function.update_self, seen_of_some hlog]
    constructor
    · rw [hheap, hf.name]
      exact hr.name
    · rw [hheap]
      exact .inl (ha rfl hlog)
  · have hheap : (m.change name f k).heap (m.change name f k).root = m.heap m.root := by
      rw [change_root, change_heap, Function.update_of_ne he]
    constructor
    · rw [hheap]
      exact hr.name
    · rw [hheap]
      refine hr.ready.imp id fun ⟨hl, hn⟩ => ⟨hl, ?_⟩
      rw [change_root, change_loggers]
      intro hlog
      rcases Interleave.update_cases hlog with ⟨-, hg⟩ | ⟨-, hlog⟩
      · exact he (Option.some.inj hg).symm
      · exact hn hlog

theorem RootReady.delLogger (hr : m.RootReady) : (m.delLogger name).RootReady := by
  rw [delLogger_eq]
  refine ⟨hr.name, hr.ready.imp id fun ⟨hl, hn⟩ => ⟨hl, fun hlog => ?_⟩⟩
  rcases Interleave.update_cases hlog with ⟨-, hlog⟩ | ⟨-, hlog⟩
  · contradiction
  · exact hn hlog

/-- The root is the last thing that it falls back to, so it must not be emptied: dropping it
silences it for good. -/
theorem RootReady.dropDefine (h : m.Wf) (hr : m.RootReady) : (dropDefine d m).RootReady := by
  rw [dropDefine_eq]
  have hk : Keeps fun g => { g with level := 100, appenders := [] } :=
    ⟨fun _ => rfl, fun _ => rfl, fun _ => rfl⟩
  by_cases he : m.root = (m.getLogger d.name).1
  · obtain ⟨hname, hlog⟩ := hr.name_of_get h he
    rw [delLogger_eq]
    have hheap : (m.change d.name (fun g => { g with level := 100, appenders := [] }) 0).heap m.root =
        { m.heap m.root with level := 100, appenders := [] } := by
      rw [change_heap, ← he, Function.update_self, hname, seen_of_some hlog]
    refine ⟨?_, .inr ⟨?_, ?_⟩⟩
    · simp only [change_root, hheap]
      exact hr.name
    · simp only [change_root, hheap]
    · simp [hname]
  · refine (hr.change h hk ?_).delLogger
    intro hname hlog
    exact absurd (by rw [hname, getLogger_of_some hlog]) he

/-- The definition leaves an appender to the root, if the root is what it is applied to. -/
def LeavesAppender (d : LogDefine) : Prop :=
  ¬ Rejected d.formatter → ∃ a ∈ d.appenders.head?, ¬ Rejected a.formatter

instance (d : LogDefine) : Decidable (LeavesAppender d) :=
  inferInstanceAs (Decidable (_ → _))

theorem RootReady.configure (h : m.Wf) (hr : m.RootReady)
    (hd : d.name = rootName → m.loggers rootName = some m.root → LeavesAppender d)
    (hc : (configure d m).state = some m') : m'.RootReady := by
  cases configure_state hc with
  | level =>
    refine hr.change h (keeps_setLevel _) fun _ hl => ?_
    exact hr.ready.resolve_right fun hn => hn.2 hl
  | applied as bs hf happ hbs =>
    -- the first appender has a pattern that is not rejected, so it is among those that are made
    refine hr.change h (keeps_applied ..) fun hname hlog hnil => ?_
    obtain rfl := madeAll_eq_nil.mp hnil
    obtain ⟨a, ha, hna⟩ := hd hname hlog hf
    rw [happ, List.nil_append] at ha
    exact hna (hbs a ha)

end LoggerManager

/-! ## Whole runs -/

namespace LogsState

open LoggerManager

/-- No definition without a usable appender is applied to the root: it comes behind one that cannot
be applied, or its own formatter is rejected, or its first appender is made. -/
def KeepsRootAppender (s : LogsState) : LogsOp → Prop
  | .setValue v => (s.logs.val == v) = false → s.mgr.loggers rootName = some s.mgr.root →
      s.logs.val.Clean (v.defs.takeWhile fun e => e.name != rootName) →
        ∀ d ∈ v.defs, d.name = rootName → s.logs.val.skips d = false → LeavesAppender d
  | _ => True

instance : ∀ (s : LogsState) (a : LogsOp), Decidable (KeepsRootAppender s a)
  | s, .setValue v => inferInstanceAs (Decidable ((s.logs.val == v) = false →
      s.mgr.loggers rootName = some s.mgr.root →
        s.logs.val.Clean (v.defs.takeWhile fun e => e.name != rootName) →
          ∀ d ∈ v.defs, d.name = rootName → s.logs.val.skips d = false → LeavesAppender d))
  | _, .getLogger _ | _, .delLogger _ => .isTrue trivial

variable {s s' : LogsState}

/-- What stands before the definition of a name. -/
theorem takeWhile_name {v : LogDefines} {ds₁ ds₂ : List LogDefine} {d : LogDefine}
    (h : v.defs = ds₁ ++ d :: ds₂) : v.defs.takeWhile (fun e => e.name != d.name) = ds₁ := by
  have hnd := v.nodup_names
  rw [h, List.map_append, List.nodup_append] at hnd
  rw [h, List.takeWhile_append_of_pos]
  · simp
  · intro e he
    have := hnd.2.2 e.name (List.mem_map_of_mem he) d.name (by simp)
    simpa using this

theorem rootReady_step {a : LogsOp} (hw : s.Wf) (h : s.mgr.RootReady)
    (hc : KeepsRootAppender s a) (hs : s.step a = some s') : s'.mgr.RootReady := by
  cases a with
  | setValue v =>
    obtain ⟨-, he | ⟨hv, hr⟩⟩ := setValue_state hw hs
    · rw [he]
      exact h
    · refine (onLoggerConfChanged_keeps (P := fun m => m.Wf ∧ s.mgr.Frame (fun _ => True) m ∧
        m.RootReady) ?_ ?_ ⟨hw.mgr, .refl _, h⟩ hr).2.2
      · rintro ds₁ d ds₂ hds hclean hskip m m' ⟨hm, hf, hready⟩ hconf
        refine ⟨hm.configure hconf, hf.trans ((hm.frame_configure hconf).mono fun _ _ => trivial),
          hready.configure hm ?_ hconf⟩
        intro hname hlog
        rw [hf.root] at hlog
        have hlog' := hf.loggers rootName s.mgr.root hw.mgr.rootLt hlog
        refine hc hv hlog' ?_ d (by rw [hds]; simp) hname hskip
        rw [← hname, takeWhile_name hds]
        exact hclean
      · rintro - d - - m ⟨hm, hf, hready⟩
        exact ⟨hm.dropDefine, hf.trans (hm.frame_dropDefine.mono fun _ _ => trivial),
          hready.dropDefine hm⟩
  | getLogger name =>
    obtain rfl := Option.some.inj hs
    simp only [getLogger_eq_change]
    refine h.change hw.mgr keeps_id fun _ hlog => ?_
    exact h.ready.resolve_right fun hn => hn.2 hlog
  | delLogger name =>
    obtain rfl := Option.some.inj hs
    exact h.delLogger

theorem rootReady_inductive :
    logsSys.Inductive KeepsRootAppender fun s => s.Wf ∧ s.mgr.RootReady := by
  refine wf_inductive.and ?_ fun s a s' hw h hc hs => rootReady_step hw h hc hs
  intro s hs
  rw [logsSys_init.mp hs]
  exact ⟨rfl, .inl (by simp [LogsState.new, LoggerManager.new, Logger.addAppender])⟩

/-- **Every event is delivered**, in every state that the steps reach while none applies a
definition without a usable appender to the root, just if no lock is in the way. With a write hold
of another thread on the way, or a thread in an appender that the event is for, the call waits. -/
theorem delivers (h : logsSys.Reach KeepsRootAppender s) {θ : Type} [DecidableEq θ]
    (holder : ℕ → Option θ) {rw : LoggerLocks θ} (hrw : ∀ k, (rw k).Sound) (t : θ) (e : ℕ) {l : ℕ}
    (hl : l < s.mgr.loggerCount) (level : LogLevel) :
    (s.mgr.Delivers holder rw t e l level ↔ s.mgr.Passable holder rw t e l level) ∧
    (s.mgr.HeldByOther holder rw t l level →
      ∀ fuel ≥ 2, s.mgr.log holder t e level.val fuel l rw = .error .blocked) :=
  let ⟨hw, hr⟩ := rootReady_inductive.reach h
  ⟨hr.delivers_iff hw.mgr hl hrw, fun hheld _ hfuel => log_blocked hw.mgr hl hheld hfuel⟩

/-- A definition of the root without appenders. -/
def mutedRoot : LogDefine := { name := rootName, level := .info }

/-- The write hold of one of two threads on one logger. -/
def heldBy (t : Bool) (k : ℕ) : LoggerLocks Bool :=
  Function.update (fun _ => {}) k { writer := some t }

theorem heldBy_sound (t : Bool) (k j : ℕ) : (heldBy t k j).Sound := by
  intro _
  unfold heldBy
  by_cases hj : j = k
  · subst hj
    rw [Function.update_self]
  · rw [Function.update_of_ne hj]

/-- A logger without appenders and a root whose appender prints `%c`. The write hold on the root
stops only the other thread; that on the logger, whose name is asked for, also its own thread; and
the thread that waits in the appender for that name stops all others. -/
theorem delivers_changes : ∃ s : LogsState,
    s.mgr.path 1 .error = [1, s.mgr.root] ∧
    (s.mgr.targets 1 .error).length = 1 ∧
    s.mgr.Delivers (fun _ => none) (heldBy true s.mgr.root) true 1 1 .error ∧
    (∀ fuel ≥ 2, s.mgr.log (fun _ => none) false 1 LogLevel.error.val fuel 1
      (heldBy true s.mgr.root) = .error .blocked) ∧
    ¬ s.mgr.Delivers (fun _ => none) (heldBy true 1) true 1 1 .error ∧
    (∀ fuel ≥ 2, s.mgr.log (fun _ => some false) true 0 LogLevel.error.val fuel 0
      (heldBy true 1) = .error .blocked) := by
  obtain ⟨s, hs, hp⟩ := Sys.exists_of_runBy (S := logsSys) (C := KeepsRootAppender) (s := .new)
    [.setValue ⟨[{ name := ['d', 'b'], level := .warn },
        { name := rootName, level := .info,
          appenders := [{ type := .stdout, level := .debug, formatter := ['%', 'c'] }] }],
      by decide⟩]
    (p := fun s => s.mgr.loggerCount == 2 && s.mgr.root == 0 && s.mgr.path 1 .error == [1, 0] &&
      s.mgr.asked 1 .error == 1 && (s.mgr.targets 1 .error).length == 1 &&
      (s.mgr.handed 0 .error).length == 1) (by decide)
  simp only [Bool.and_eq_true, beq_iff_eq] at hp
  obtain ⟨⟨⟨⟨⟨hcount, hroot⟩, hpath⟩, hasked⟩, hlen⟩, hhanded⟩ := hp
  have hreach : logsSys.Reach KeepsRootAppender s := ⟨_, logsSys_init.mpr rfl, hs⟩
  have hl : 1 < s.mgr.loggerCount := by omega
  have hother := delivers hreach (fun _ => none) (heldBy_sound true s.mgr.root) false 1 hl .error
  have howner := delivers hreach (fun _ => none) (heldBy_sound true s.mgr.root) true 1 hl .error
  have hname := delivers hreach (fun _ => none) (heldBy_sound true 1) true 1 hl .error
  have hinside := delivers hreach (fun _ => some false) (heldBy_sound true 1) true 0
    (l := 0) (by omega) .error
  refine ⟨s, by rw [hpath, hroot], hlen, howner.1.mpr ?_, hother.2 (.inl ?_), fun hd => ?_,
    hinside.2 (.inr ?_)⟩
  · -- the writer is the thread itself, or there is none
    have hopen : ∀ k, (heldBy true s.mgr.root k).OpenTo true := by
      intro k u hu
      unfold heldBy at hu
      by_cases hk : k = s.mgr.root
      · subst hk
        rw [Function.update_self] at hu
        exact (Option.some.inj hu).symm
      · rw [Function.update_of_ne hk] at hu
        cases hu
    refine ⟨fun k _ => hopen k, fun _ _ => rfl, fun _ => hopen 1, fun _ _ => ?_⟩
    rw [hroot]
    rfl
  · exact ⟨s.mgr.root, by simp [hpath, hroot], true, by decide, by simp [heldBy]⟩
  · have := (hname.1.mp hd).own (by omega) (by simp [hpath])
    cases this
  · obtain ⟨a, ha⟩ := List.exists_mem_of_length_pos (l := s.mgr.handed 0 .error) (by omega)
    exact ⟨a, ha, by simp⟩

/-- The root without appenders: its `log` calls that of a null `m_root`. -/
theorem log_nullRoot : ∃ s : LogsState, logsSys.Reach Sys.free s ∧
    s.mgr.log (fun _ => none) () s.mgr.root LogLevel.error.val 2 s.mgr.root (fun _ => {}) =
      .error .nullRoot ∧
    ¬ s.mgr.Delivers (fun _ => none) (fun _ => {}) () s.mgr.root s.mgr.root .error := by
  obtain ⟨s, hs, hp⟩ := Sys.exists_of_runBy (S := logsSys) (C := Sys.free) (s := .new)
    [.setValue ⟨[mutedRoot], by decide⟩]
    (p := fun s => decide ((s.mgr.log (fun _ => none) () s.mgr.root LogLevel.error.val 2 s.mgr.root
      (fun _ => {})).map Prod.fst = .error .nullRoot)) (by decide)
  have hnull : s.mgr.log (fun _ => none) () s.mgr.root LogLevel.error.val 2 s.mgr.root
      (fun _ => {}) = .error .nullRoot := by
    have := of_decide_eq_true hp
    cases hr : s.mgr.log (fun _ => none) () s.mgr.root LogLevel.error.val 2 s.mgr.root
        fun _ => {} with
    | ok r =>
      rw [hr] at this
      cases this
    | error x =>
      rw [hr] at this
      exact congrArg _ (Except.error.inj this)
  refine ⟨s, ⟨_, logsSys_init.mpr rfl, hs⟩, hnull, fun hd => ?_⟩
  obtain ⟨-, rw', hlog⟩ := hd
  have := hlog 2 (Nat.le_refl 2)
  rw [hnull] at this
  contradiction

end LogsState

end Ddg
