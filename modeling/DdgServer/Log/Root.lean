import DdgServer.Log.Changes

/-!
# The identity of the root logger

The root logger is `m_root`, and it is registered under its name. A change of the configuration
that drops the definition of that name unregisters it, and a later `getLogger` makes another
logger of that name (`root_lost`). While no change and no `delLogger` does so (`KeepsRoot`), the
root stays one logger (`root_kept`).
-/

namespace Ddg

open Interleave LoggerManager

namespace LogsState

/-- The step does not unregister the root: a change that comes to its end keeps its definition. -/
def KeepsRoot (s : LogsState) : LogsOp → Prop
  | .setValue v => (s.logs.val == v) = false → s.logs.val.Clean v.defs →
      (s.logs.val.find rootName).isSome → (v.find rootName).isSome
  | .getLogger _ => True
  | .delLogger name => name ≠ rootName

instance : ∀ (s : LogsState) (a : LogsOp), Decidable (KeepsRoot s a)
  | s, .setValue v => inferInstanceAs (Decidable ((s.logs.val == v) = false →
      s.logs.val.Clean v.defs → (s.logs.val.find rootName).isSome → (v.find rootName).isSome))
  | _, .getLogger _ => .isTrue trivial
  | _, .delLogger name => inferInstanceAs (Decidable (name ≠ rootName))

/-- `getLogger("root")` and `getRoot()` are the same logger, the others fall back to it, and a
definition of that name that is applied configures it. -/
structure OneRoot (s : LogsState) : Prop where
  same : s.mgr.getLogger rootName = (s.mgr.root, s.mgr)
  fallback : ∀ l < s.mgr.loggerCount, l ≠ s.mgr.root → (s.mgr.heap l).root = some s.mgr.root
  configured : ∀ v s', s.setValue v = .done s' → (s.logs.val == v) = false →
    ∀ d ∈ v.defs, d.name = rootName → s.logs.val.skips d = false →
      s'.mgr.root = s.mgr.root ∧ d.Matches (s'.mgr.heap s.mgr.root)

variable {s s' : LogsState}

theorem registered_configure {m m' : LoggerManager} {d : LogDefine}
    (hm : m.loggers rootName = some m.root) (hr : (configure d m).state = some m') :
    m'.loggers rootName = some m'.root := by
  have hchange : ∀ f k, (m.change d.name f k).loggers rootName = some (m.change d.name f k).root := by
    intro f k
    rw [change_loggers, change_root]
    by_cases hn : rootName = d.name
    · rw [← hn, Function.update_self, getLogger_of_some hm]
    · rw [Function.update_of_ne hn]
      exact hm
  cases configure_state hr with
  | level => exact hchange ..
  | applied => exact hchange ..

theorem registered_dropDefine {m : LoggerManager} {d : LogDefine}
    (hm : m.loggers rootName = some m.root) (hd : d.name ≠ rootName) :
    (dropDefine d m).loggers rootName = some (dropDefine d m).root := by
  rw [dropDefine_eq, delLogger_eq]
  simp only [change_loggers, Function.update_of_ne hd.symm, change_root]
  exact hm

theorem registered_step {a : LogsOp} (hw : s.Wf) (h : s.mgr.loggers rootName = some s.mgr.root)
    (hc : KeepsRoot s a) (hs : s.step a = some s') :
    s'.mgr.loggers rootName = some s'.mgr.root := by
  cases a with
  | setValue v =>
    obtain ⟨-, he | ⟨hv, hr⟩⟩ := setValue_state hw hs
    · rw [he]
      exact h
    · refine onLoggerConfChanged_keeps (P := fun m => m.loggers rootName = some m.root) ?_ ?_ h hr
      · intro _ _ _ _ _ _ _ _ hm hc
        exact registered_configure hm hc
      · intro hclean d hd hn m hm
        refine registered_dropDefine hm fun hname => ?_
        -- the definition of the root is among the old ones, so it is among the new ones
        have hold : (s.logs.val.find rootName).isSome := by
          rw [LogDefines.find_eq_some.mpr ⟨hd, hname⟩]
          rfl
        have hnew := hc hv hclean hold
        rw [← hname, hn] at hnew
        contradiction
  | getLogger name =>
    obtain rfl := Option.some.inj hs
    rw [getLogger_root, getLogger_eq_change, change_loggers]
    by_cases hn : rootName = name
    · rw [← hn, Function.update_self, getLogger_of_some h]
    · rw [Function.update_of_ne hn]
      exact h
  | delLogger name =>
    obtain rfl := Option.some.inj hs
    simp only [delLogger_eq]
    rw [Function.update_of_ne (Ne.symm hc)]
    exact h

theorem registered_inductive :
    logsSys.Inductive KeepsRoot fun s => s.Wf ∧ s.mgr.loggers rootName = some s.mgr.root := by
  refine wf_inductive.and ?_ fun s a s' hw h hc hs => registered_step hw h hc hs
  intro s hs
  rw [logsSys_init.mp hs]
  rfl

/-- **The root is one logger** in every state that the steps reach while none unregisters it. -/
theorem root_kept (h : logsSys.Reach KeepsRoot s) : s.OneRoot := by
  obtain ⟨hw, hroot⟩ := registered_inductive.reach h
  refine ⟨getLogger_of_some hroot, hw.mgr.root, ?_⟩
  intro v s' hs hv d hd hname hskip
  rw [setValue_eq hw.cbs, if_neg (by simp [hv])] at hs
  cases hr : onLoggerConfChanged s.logs.val v s.mgr with
  | done m =>
    rw [hr] at hs
    obtain rfl : LogsState.mk _ m = s' := CallResult.done.inj hs
    obtain ⟨l, id, g, hlook, -, hl⟩ := onLoggerConfChanged_applied hw.mgr hr hd hskip
    have hgood : d.Good := ((onLoggerConfChanged_done_iff hw.mgr).mp ⟨m, hr⟩).2 d hd hskip
    obtain ⟨-, hheap⟩ := look_eq_some.mp hlook
    rw [hl _ (hname ▸ hroot)] at hheap
    refine ⟨(onLoggerConfChanged_frame hw.mgr (by rw [hr]; rfl)).root, ?_⟩
    change d.Matches (m.heap s.mgr.root)
    rw [hheap]
    exact hgood.matches id g
  | thrown m => simp [hr] at hs
  | crashed => simp [hr] at hs

/-- A definition of the root, and one of another logger beside it. -/
def rootDefine : LogDefine :=
  { name := rootName, level := .info, appenders := [{ type := .stdout, level := .info }] }

def dbDefine : LogDefine :=
  { name := ['d', 'b'], level := .warn, appenders := [{ type := .stdout, level := .warn }] }

theorem root_kept_changes : ∃ s : LogsState, s.logs.val.defs = [rootDefine] ∧ s.OneRoot := by
  obtain ⟨t, ht, hp⟩ := Sys.exists_of_runBy (S := logsSys) (C := KeepsRoot) (s := .new)
    [.setValue ⟨[dbDefine, rootDefine], by decide⟩, .getLogger ['w', 'e', 'b'],
      .setValue ⟨[rootDefine], by decide⟩]
    (p := fun t => t.logs.val.defs == [rootDefine]) (by decide)
  exact ⟨t, by simpa using hp, root_kept ⟨_, logsSys_init.mpr rfl, ht⟩⟩

/-- When its definition has been dropped, `getLogger("root")` is not the root. -/
theorem root_lost : ∃ s : LogsState, logsSys.Reach Sys.free s ∧
    (s.mgr.getLogger rootName).1 ≠ s.mgr.root := by
  obtain ⟨t, ht, hp⟩ := Sys.exists_of_runBy (S := logsSys) (C := Sys.free) (s := .new)
    [.setValue ⟨[rootDefine], by decide⟩, .setValue .empty]
    (p := fun t => (t.mgr.getLogger rootName).1 != t.mgr.root) (by decide)
  exact ⟨t, ⟨_, logsSys_init.mpr rfl, ht⟩, by simpa using hp⟩

end LogsState

end Ddg
