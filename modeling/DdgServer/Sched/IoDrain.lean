import DdgServer.Sched.Drain
import DdgServer.Sched.Progress

/-!
# What the `stop()` of an `IOManager` leaves behind

`IOManager::idle` goes on until `isStoped()`, so a worker of an `IOManager` does not leave `run`
while `m_stopping` is not set, unlike one of the base `Scheduler` (`DdgServer/Sched/Drain.lean`).

* `State.Open`, `open_step`: until `stop()` has set `m_stopping`, each worker that has begun will
  scan again.
* `State.Served`: what the clients may do.
* `ioManager_drains`: `stop()` returns when every callback has been run.
-/

namespace Ddg.Sched

open Interleave

variable {ω κ : Type}

/-- The idle fiber has not ended. -/
def Lasts (x : Option FiberState) : Prop := ∃ st, x = some st ∧ st.ended = false

/-- After `start()` and until `m_stopping` is set, the workers are in `run`, with their idle
fibers. -/
structure State.Open [Fintype ω] (cfg : Config ω) (s : State ω κ) : Prop where
  begun : s.stopping = false → ∀ w, some w ≠ cfg.root → s.pc w ≠ .off
  lasts : s.stopping = false → ∀ w, Lasts (s.idleFt w)

variable [Fintype ω] [DecidableEq ω] {cfg : Config ω} {s s' : State ω κ} {l : Label ω κ} {w : ω}

omit [DecidableEq ω] in
/-- The idle fiber of an `IOManager` does not end before `isStoped()`. -/
theorem IdleMove.lasts {x : Option FiberState} (hm : IdleMove cfg s w x) (hio : cfg.io = true)
    (hns : s.stopping = false) (hx : Lasts (s.idleFt w)) : Lasts x := by
  cases hm with
  | same => exact hx
  | enter | hold => exact ⟨_, rfl, rfl⟩
  | ended h =>
    have hstoped := h hio
    rw [Core.isStoped, hns, Bool.and_false, Bool.false_and, Bool.false_and] at hstoped
    cases hstoped
  | gone h he =>
    obtain ⟨st, hst, hne⟩ := hx
    cases h.symm.trans hst
    cases he.symm.trans hne

theorem lasts_step (hio : cfg.io = true) (hl : l.worker = some w) (h : step cfg s l = some s')
    (hns : s.stopping = false) (hx : Lasts (s.idleFt w)) : Lasts (s'.idleFt w) := by
  obtain ⟨pc, x, hr, hm⟩ := worker_rests hl h
  rw [hr.idleFt, Function.update_self]
  exact hm.lasts hio hns hx

/-! ## Until `m_stopping` is set -/

theorem open_caller {quiet : Bool} (hm : CallerMove cfg s quiet s') (hst : s.Staged cfg)
    (hfl : s.Flagged) (h : s.Open cfg) : s'.Open cfg := by
  -- the steps that are behind the one that sets `m_stopping`
  have hlate : ∀ {t : State ω κ}, s.caller.early = false → t.stopping = s.stopping →
      t.Open cfg := by
    intro t he ht
    have hno : t.stopping ≠ false := by
      intro hf
      rw [hfl.stopping (ht.symm.trans hf)] at he
      cases he
    exact ⟨fun hf => absurd hf hno, fun hf => absurd hf hno⟩
  cases hm with
  | stoped | goOn => exact ⟨h.begun, h.lasts⟩
  | rootEnded | set => exact ⟨(fun hf => by cases hf), (fun hf => by cases hf)⟩
  | checked hc =>
    unfold State.Staged at hst
    rw [hc] at hst
    exact hst.elim
  | tickle hc =>
    rw [tickle_eq]
    exact hlate (by rw [hc]; rfl) rfl
  | root hc | noRoot hc | skip hc | enter hc | left hc | joined hc =>
    exact hlate (by rw [hc]; rfl) rfl

/-- No worker of an `IOManager` leaves `run` before `m_stopping` is set. -/
theorem open_step (hio : cfg.io = true) (hst : step cfg s l = some s') (hstaged : s.Staged cfg)
    (hr : s.Resting) (hfl : s.Flagged) (h : s.Open cfg) : s'.Open cfg := by
  cases step_case hst with
  | @worker l w _ hl hw =>
    have hframe := hw.frame
    obtain ⟨-, pc, hpc, hpc'⟩ := hw.pc
    constructor
    · rw [hframe.stopping]
      intro hf u hu
      rw [hpc']
      by_cases huw : u = w
      · subst huw
        rwa [Function.update_self]
      · rw [Function.update_of_ne huw]
        exact h.begun hf u hu
    · rw [hframe.stopping]
      intro hf u
      by_cases huw : u = w
      · subst huw
        exact lasts_step hio hl hst hf (h.lasts hf u)
      · rw [hframe.idleFt u huw]
        exact h.lasts hf u
  | tickle =>
    rw [tickle_eq]
    exact ⟨h.begun, h.lasts⟩
  | schedule | create | reset => exact ⟨h.begun, h.lasts⟩
  | @start pc hc hoff hpc =>
    -- the idle fibers are as they were made
    unfold State.Staged at hstaged
    rw [hc] at hstaged
    refine ⟨fun _ w hw => ?_, fun _ w => ?_⟩
    · show pc w ≠ .off
      rw [hoff w (hstaged.1 w), if_neg hw]
      rintro ⟨⟩
    · have := hr.idleFt w
      rw [hstaged.1 w] at this
      exact ⟨_, this, rfl⟩
  | stop => exact ⟨h.begun, h.lasts⟩
  | caller hm => exact open_caller hm hstaged hfl h

omit [DecidableEq ω] in
/-- Somebody will scan while `m_stopping` is not set. -/
theorem State.Open.alive (h : s.Open cfg) (hr : s.Resting) (hfl : s.Flagged)
    (hf : s.stopping = false) : s.Alive cfg := by
  cases hroot : cfg.root with
  | some r =>
    refine .inr (.inl ?_)
    have := hfl.stopping hf
    unfold State.rootPending
    rw [hroot]
    cases hc : s.caller <;> first | rfl | (rw [hc] at this; cases this)
  | none =>
    -- the constructor asserts that there is a worker
    obtain ⟨w⟩ := Fintype.card_pos_iff.mp cfg.threads.1
    refine .inr (.inr ⟨w, ?_⟩)
    have hoff := h.begun hf w (by rw [hroot]; rintro ⟨⟩)
    obtain ⟨st, hst, -⟩ := h.lasts hf w
    have hft := hr.idleFt w
    unfold State.scansAgain
    cases hpc : s.pc w with
    | off => exact absurd hpc hoff
    | left =>
      rw [hpc, hst] at hft
      cases hft
    | tickled => rw [hst]; rfl
    | _ => rfl

/-! ## The drain -/

/-- `schedule` is called with callbacks for any thread: before `start()`, before `stop()` has set
`m_stopping`, or by a task. `stop()` is called before `start()` only if there is a root fiber or
nothing to run. -/
def State.Served (cfg : Config ω) (s : State ω κ) (l : Label ω κ) : Prop :=
  l.Callbacks ∧
    match l with
    | .schedule _ => s.caller = .fresh ∨ s.stopping = false ∨ ∃ w, (s.pc w).held.isSome = true
    | .stop => s.caller = .fresh → cfg.root.isSome = true ∨ s.fibers = []
    | _ => True

instance (s : State ω κ) : ∀ l, Decidable (s.Served cfg l)
  | .schedule items => inferInstanceAs (Decidable (Label.Callbacks (.schedule items) ∧
      (s.caller = .fresh ∨ s.stopping = false ∨ ∃ w, (s.pc w).held.isSome = true)))
  | .stop => inferInstanceAs (Decidable (Label.Callbacks .stop ∧
      (s.caller = .fresh → cfg.root.isSome = true ∨ s.fibers = [])))
  | .tickle | .create | .reset _ | .run _ | .task .. | .idle .. | .wake .. | .start | .caller _ =>
    .isTrue ⟨trivial, trivial⟩

theorem open_inductive (hio : cfg.io = true) :
    (sys (κ := κ) cfg).Inductive (State.Served cfg) fun s => s.Sound cfg ∧ s.Open cfg := by
  have hsound : (sys (κ := κ) cfg).Inductive (fun _ l => l.Callbacks) (State.Sound cfg) :=
    sound_inductive
  refine (hsound.mono fun _ _ h => h.1).and (fun s hs => ?_) fun s l s' h ho _ hst => ?_
  · rw [show s = {} from hs]
    exact ⟨(fun hf => by cases hf), (fun hf => by cases hf)⟩
  · exact open_step hio hst h.staged h.resting h.flagged ho

omit [DecidableEq ω] in
/-- No entry is left to nobody. -/
theorem State.Open.attended (h : s.Open cfg) (hs : s.Sound cfg) (hc : s.Served cfg l) :
    s.Attended cfg l := by
  cases l with
  | schedule items =>
    obtain ⟨-, hc | hc | ⟨w, hw⟩⟩ := hc
    · exact .inl hc
    · exact h.alive hs.resting hs.flagged hc
    · refine .inr (.inr ⟨w, scansAgain_of_due ?_⟩)
      cases hpc : s.pc w with
      | turn => rfl
      | _ =>
        rw [hpc] at hw
        cases hw
  | stop => exact hc.2
  | run w =>
    -- a scan that takes nothing has found nothing
    intro r hr ht _
    rcases hs.plain.scan (scanOf_eq_some.mp hr).2 with ⟨hf, rfl⟩ | ⟨e, es, -, rfl⟩
    · exact .inl rfl
    · cases ht
  | _ => trivial

omit [Fintype ω] [DecidableEq ω] in
theorem inRun_of_scansAgain (h : s.scansAgain w = true) : (s.pc w).inRun = true := by
  unfold State.scansAgain at h
  cases hpc : s.pc w with
  | off | left =>
    rw [hpc] at h
    cases h
  | _ => rfl

/-- **The `stop()` of an `IOManager` drains**: it returns when nothing is queued, no worker is in
`run`, and every callback has run to its end or is parked. -/
theorem ioManager_drains (hio : cfg.io = true) (h : (sys cfg).Reach (State.Served cfg) s)
    (hs : s.caller = .stopped) :
    s.Drained ∧ (∀ w, (s.pc w).inRun = false) ∧ s.activeThreadCount = 0 := by
  have hsound := ((open_inductive hio).reach h).1
  have halive := (alive_inductive.reach
    ((open_inductive hio).reach_mono (fun s l hi hc => hi.2.attended hi.1 hc) h)).2
  have hout : ∀ w, (s.pc w).inRun = false := by
    have := hsound.staged
    unfold State.Staged at this
    rwa [hs] at this
  have hheld : ∀ w, (s.pc w).held = none := by
    intro w
    cases hpc : s.pc w with
    | turn =>
      have := hout w
      rw [hpc] at this
      cases this
    | _ => rfl
  have hfibers : s.fibers = [] := by
    by_contra hne
    rcases halive hne with h | h | ⟨w, h⟩
    · rw [hs] at h
      cases h
    · unfold State.rootPending at h
      rw [hs, show CallerPc.stopped.beforeRoot = false from rfl, Bool.and_false] at h
      cases h
    · have := inRun_of_scansAgain h
      rw [hout w] at this
      cases this
  refine ⟨⟨hfibers, fun n hn => ?_⟩, hout, ?_⟩
  · rcases hsound.tracked.one_place hn with ⟨hq, -⟩ | ⟨-, ⟨w, hw, -⟩, -⟩ | ⟨-, -, hr⟩
    · rw [hfibers] at hq
      cases hq
    · rw [heldId, hheld w] at hw
      cases hw
    · have hmem : n ∈ s.retired.map fun x => x.1.id := List.count_pos_iff.mp (by omega)
      obtain ⟨x, hx, hid⟩ := List.mem_map.mp hmem
      exact ⟨x, hx, hid, hsound.tracked.wf.retired x hx⟩
  · have hzero : ∑ w, (s.pc w).counted = 0 := Finset.sum_eq_zero fun w _ => by
      have := hheld w
      cases hpc : s.pc w with
      | turn =>
        rw [hpc] at this
        cases this
      | _ => rfl
    have := hsound.tracked.counted.toNat cfg
    rw [hzero] at this
    exact BitVec.eq_of_toNat_eq this

/-- The task schedules another callback after `stop()` has set `m_stopping`. -/
theorem ioManager_drains_task : ∃ s : State (Fin 1) Unit,
    s.caller = .stopped ∧ s.entries = 2 ∧ s.Drained := by
  obtain ⟨s, hs, hp⟩ := Sys.exists_of_runBy (S := sys (κ := Unit) ioWorker)
    (C := State.Served ioWorker) (s := {})
    (List.flatten [[.start, .run 0, .run 0, .idle 0 false, .schedule [{ cb := some () }],
      .wake 0 false], .replicate 9 (.run 0), [.stop], .replicate 4 (.caller true),
      [.schedule [{ cb := some () }], .task 0 .term], .replicate 11 (.run 0), [.task 0 .hold],
      .replicate 7 (.run 0), [.idle 0 true, .run 0, .run 0, .caller true]])
    (p := fun s => s.caller == .stopped && s.entries == 2) (by decide +kernel)
  simp only [Bool.and_eq_true, beq_iff_eq] at hp
  exact ⟨s, hp.1, hp.2, (ioManager_drains rfl ⟨_, rfl, hs⟩ hp.1).1⟩

end Ddg.Sched
