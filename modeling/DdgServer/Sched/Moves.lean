import DdgServer.Sched.Run

/-!
# What a step does to entries, fibers and turns

Proof-only. `Move` has one rule for each way that a step of the scheduler changes its `Core`; the
steps of the idle loops, of the wakeups and of `stop()` are one rule (`Move.other`).

* `CallerMove`, `callerMove_of_step`: the steps of `stop()`, one rule for each branch.
* `move_of_step`: every step is a move. The invariants about entries and fibers are by cases on it.
-/

namespace Ddg

variable {ω κ : Type}

/-- The entry that a worker has taken, and what it does next with it. -/
def Pc.held : Pc κ → Option (Entry κ × Phase)
  | .turn ft phase => some (ft, phase)
  | _ => none

theorem Pc.held_eq_some {pc : Pc κ} {ft : Entry κ} {ph : Phase} :
    pc.held = some (ft, ph) ↔ pc = .turn ft ph := by
  cases pc <;> simp [Pc.held]

/-- The worker has taken an entry, and the `m_activeThreadCount--` of its turn is to come. -/
def Phase.counted : Phase → Bool
  | .look _ | .putBack _ | .park => false
  | _ => true

/-- One for such a worker. -/
def Pc.counted : Pc κ → ℕ
  | .turn _ ph => ph.counted.toNat
  | _ => 0

theorem Pc.counted_of_held {pc : Pc κ} (h : pc.held = none) : pc.counted = 0 := by
  cases pc with
  | turn => cases h
  | _ => rfl

theorem Pc.counted_le_one (pc : Pc κ) : pc.counted ≤ 1 := by
  cases pc with
  | turn ft ph => exact Bool.toNat_le _
  | _ => exact Nat.zero_le _

namespace Sched

/-- From one phase to the next, for a fiber in the state `x`, with no effect on the `Core`. -/
inductive Quiet (x : FiberState) : Phase → Phase → Prop
  | take : Quiet x .take .ready
  | check : x ≠ .exec → Quiet x .check .exec
  | enter : Quiet x .enter .task
  | task {out} : out.state.ended = true ∨ x = .exec → Quiet x .task (.yield out)
  | leave {out} : Quiet x (.leave out) (.back out)
  | look {out} : x = .ready → Quiet x (.look out) (.putBack out)
  | park {out} : x ≠ .ready → x.ended = false → Quiet x (.look out) .park

/-- The writes of `Fiber::m_state` in `run` and in `swapIn`. -/
inductive Writes : Phase → FiberState → Phase → Prop
  | ready : Writes .ready .ready .check
  | exec : Writes .exec .exec .enter

/-- The worker that makes the step. -/
def Label.worker : Label ω κ → Option ω
  | .run w | .task w _ | .idle w _ | .wake w _ => some w
  | _ => none

/-- The scan that the next step of worker `w` makes. -/
def Core.scanOf [Fintype ω] (cfg : Config ω) (c : Core ω κ) (w : ω) : Option (Scan κ) :=
  match c.pc w with
  | .scan => Scan.scan (cfg.tid w) c.fibers c.state
  | _ => none

theorem scanOf_eq_some [Fintype ω] {cfg : Config ω} {c : Core ω κ} {w : ω} {r : Scan κ} :
    c.scanOf cfg w = some r ↔
      c.pc w = .scan ∧ Scan.scan (cfg.tid w) c.fibers c.state = some r := by
  unfold Core.scanOf
  cases c.pc w <;> simp

/-- What a step with label `l` does to the `Core`. -/
inductive Move [Fintype ω] [DecidableEq ω] (cfg : Config ω) (c : Core ω κ) : Label ω κ → Core ω κ → Prop
  | schedule {items new} (hid : new.map Entry.id = List.range' c.entries new.length)
    (hne : ∀ e ∈ new, e.nonempty = true) (hmade : ∀ e ∈ new, ∀ f, e.fiber = some f → f < c.made)
    (hthr : ∀ e ∈ new, e.thread = narrowThread e.asked) :
    Move cfg c (.schedule items)
      { c with fibers := c.fibers ++ new, entries := c.entries + new.length }
  | create : Move cfg c .create { c.setState c.made .init with made := c.made + 1 }
  | reset {f} (hf : f < c.made) (hs : (c.state f).ended = true ∨ c.state f = .init) :
    Move cfg c (.reset f)
      { c.setState f .init with finished := Function.update c.finished f false }
  | take {w r ft} (hpc : c.pc w = .scan) (hr : Scan.scan (cfg.tid w) c.fibers c.state = some r)
    (ht : r.taken = some ft) :
    Move cfg c (.run w)
      { (c.scanned r).goto w (.turn ft .tickle) with
        activeThreadCount := c.activeThreadCount + 1 }
  | pass {w r pc} (hpc : c.pc w = .scan) (hr : Scan.scan (cfg.tid w) c.fibers c.state = some r)
    (ht : r.taken = none) (hq : pc.held = none) : Move cfg c (.run w) ((c.scanned r).goto w pc)
  | tickle {w ft} (hpc : c.pc w = .turn ft .tickle) :
    Move cfg c (.run w) (c.goto w (.turn ft .take))
  | newFiber {w ft} (hpc : c.pc w = .turn ft .take) (hf : ft.fiber = none) :
    Move cfg c (.run w)
      { (c.setState c.made .init).goto w
          (.turn { ft with fiber := some c.made, cb := none } .ready) with made := c.made + 1 }
  | drop {w ft} (hpc : c.pc w = .turn ft .take) (hne : ft.nonempty = false) :
    Move cfg c (.run w) { c.goto w .scan with activeThreadCount := c.activeThreadCount - 1 }
  | quiet {l w ft f ph ph'} (hl : l.worker = some w) (hpc : c.pc w = .turn ft ph)
    (hf : ft.fiber = some f) (hq : Quiet (c.state f) ph ph') :
    Move cfg c l (c.goto w (.turn ft ph'))
  | write {w ft f ph x ph'} (hpc : c.pc w = .turn ft ph) (hf : ft.fiber = some f)
    (hw : Writes ph x ph') : Move cfg c (.run w) ((c.setState f x).goto w (.turn ft ph'))
  | yield {w ft f out} (hpc : c.pc w = .turn ft (.yield out)) (hf : ft.fiber = some f) :
    Move cfg c (.run w)
      { (c.setState f out.state).goto w (.turn ft (.leave out)) with
        finished := if out.state.ended then Function.update c.finished f true else c.finished
        yielded := if out = .ready then c.yielded ++ [ft] else c.yielded }
  | back {w ft f out} (hpc : c.pc w = .turn ft (.back out)) (hf : ft.fiber = some f) :
    Move cfg c (.run w)
      { c.goto w (.turn ft (.look out)) with activeThreadCount := c.activeThreadCount - 1 }
  | retire {w ft f out} (hpc : c.pc w = .turn ft (.look out)) (hf : ft.fiber = some f)
    (hs : (c.state f).ended = true) :
    Move cfg c (.run w) { c.goto w .scan with retired := c.retired ++ [(ft, c.state f)] }
  | putBack {w ft f out} (hpc : c.pc w = .turn ft (.putBack out)) (hf : ft.fiber = some f) :
    Move cfg c (.run w)
      { c.goto w .putTickle with
        fibers := c.fibers ++ [ft]
        requeued := if out = .ready then c.requeued ++ [ft] else c.requeued }
  | park {w ft f} (hpc : c.pc w = .turn ft .park) (hf : ft.fiber = some f) :
    Move cfg c (.run w)
      { (c.setState f .hold).goto w .scan with retired := c.retired ++ [(ft, .hold)] }
  | other {l pc stopping autoStop}
    (hpc : ∀ w, pc w = c.pc w ∨ ((c.pc w).held = none ∧ (pc w).held = none)) :
    Move cfg c l { c with pc, stopping, autoStop }

theorem tickle_toCore [Fintype ω] {cfg : Config ω} {s : State ω κ} : (s.tickle cfg).toCore = s.toCore := by
  unfold State.tickle
  split <;> rfl

/-- The section of `schedule` queues the items that are not empty, in order. -/
theorem scheduleAll_spec (items : List (Item κ)) (s : State ω κ)
    (h : ∀ item ∈ items, ∀ f ∈ item.fiber, f < s.made) :
    ∃ new : List (Entry κ), (s.scheduleAll items).1 =
        { s with fibers := s.fibers ++ new, entries := s.entries + new.length } ∧
      new.map Entry.id = List.range' s.entries new.length ∧ (∀ e ∈ new, e.nonempty = true) ∧
      (∀ e ∈ new, ∀ f, e.fiber = some f → f < s.made) ∧
      (∀ e ∈ new, e.thread = narrowThread e.asked) ∧
      (new ≠ [] → (s.scheduleAll items).2 = true) := by
  induction items generalizing s with
  | nil => exact ⟨[], by simp [State.scheduleAll], by simp⟩
  | cons item items ih =>
    let e : Entry κ :=
      { fiber := item.fiber, cb := item.cb, thread := narrowThread item.thread, id := s.entries
        asked := item.thread }
    by_cases he : e.nonempty = true
    · -- the item is queued
      have h₁ : s.scheduleNoLock item =
          ({ s with fibers := s.fibers ++ [e], entries := s.entries + 1 }, true) := by
        simp only [State.scheduleNoLock]
        rw [if_pos he]
        simp [e]
      obtain ⟨new, hs, hid, hne, hm, ht, -⟩ := ih
        { s with fibers := s.fibers ++ [e], entries := s.entries + 1 }
        fun i hi => h i (List.mem_cons_of_mem _ hi)
      refine ⟨e :: new, ?_, ?_, ?_, ?_, ?_, fun _ => ?_⟩
      · simp only [State.scheduleAll, h₁, hs, List.append_assoc, List.singleton_append,
          List.length_cons, Nat.add_assoc, Nat.add_comm 1]
      · rw [List.map_cons, hid, List.length_cons, List.range'_succ]
      · exact List.forall_mem_cons.mpr ⟨he, hne⟩
      · exact List.forall_mem_cons.mpr ⟨fun f hf => h item List.mem_cons_self f hf, hm⟩
      · exact List.forall_mem_cons.mpr ⟨rfl, ht⟩
      · simp only [State.scheduleAll, h₁, Bool.true_or]
    · have h₁ : (s.scheduleNoLock item).1 = s := by
        simp only [State.scheduleNoLock]
        rw [if_neg he]
      obtain ⟨new, hs, hid, hne, hm, ht, ht'⟩ := ih s fun i hi => h i (List.mem_cons_of_mem _ hi)
      refine ⟨new, ?_, hid, hne, hm, ht, fun hn => ?_⟩
      · simp only [State.scheduleAll, h₁, hs]
      · simp only [State.scheduleAll, h₁, ht' hn, Bool.or_true]

section Step

variable [Fintype ω] [DecidableEq ω] {cfg : Config ω} {s s' : State ω κ}

/-- A step of worker `w` between two places where it has no entry. -/
theorem Move.goto {l : Label ω κ} {w : ω} {pc : Pc κ} {c : Core ω κ} (h : (c.pc w).held = none)
    (hpc : pc.held = none) : Move cfg c l (c.goto w pc) := by
  refine Move.other fun u => ?_
  by_cases hu : u = w
  · subst hu
    rw [Function.update_self]
    exact .inr ⟨h, hpc⟩
  · exact .inl (Function.update_of_ne hu ..)

theorem move_of_scan {w : ω} (hpc : s.pc w = .scan) (h : scanStep cfg s w = some s') :
    Move cfg s.toCore (.run w) s'.toCore := by
  obtain ⟨r, hr, rfl⟩ := Option.map_eq_some_iff.mp h
  cases ht : r.taken with
  | some ft =>
    exact Move.take hpc hr ht
  | none =>
    refine Move.pass hpc hr ht ?_
    unfold State.rest
    split
    · rfl
    · split <;> rfl

theorem move_of_turn {w : ω} {ft : Entry κ} {f : ℕ} {ph : Phase} (hpc : s.pc w = .turn ft ph)
    (hf : ft.fiber = some f) (h : turnStep s w ft f ph = some s') :
    Move cfg s.toCore (.run w) s'.toCore := by
  cases ph with
  | tickle => cases h
  | take => cases h
  | task => cases h
  | ready => cases h; exact Move.write hpc hf .ready
  | check =>
    unfold turnStep at h
    simp only at h
    split at h
    · cases h
    · rename_i hx
      cases h
      exact Move.quiet rfl hpc hf (.check hx)
  | exec => cases h; exact Move.write hpc hf .exec
  | enter => cases h; exact Move.quiet rfl hpc hf .enter
  | yield out => cases h; exact Move.yield hpc hf
  | leave out => cases h; exact Move.quiet rfl hpc hf .leave
  | back out => cases h; exact Move.back hpc hf
  | look out =>
    unfold turnStep at h
    simp only at h
    split at h
    · rename_i hx
      cases h
      exact Move.quiet rfl hpc hf (.look hx)
    · rename_i hx
      split at h
      · rename_i he
        cases h
        exact Move.retire hpc hf he
      · rename_i he
        cases h
        exact Move.quiet rfl hpc hf (.park hx (Bool.not_eq_true _ ▸ he))
  | putBack out => cases h; exact Move.putBack hpc hf
  | park => cases h; exact Move.park hpc hf

theorem move_of_run {w : ω} (h : runStep cfg s w = some s') :
    Move cfg s.toCore (.run w) s'.toCore := by
  unfold runStep at h
  cases hpc : s.pc w with
  | off => simp only [hpc] at h; cases h
  | wait => simp only [hpc] at h; cases h
  | left => simp only [hpc] at h; cases h
  | scan =>
    simp only [hpc] at h
    exact move_of_scan hpc h
  | turn ft ph =>
    have hheld : ∀ f, ft.fiber = some f → turnStep s w ft f ph = some s' →
        Move cfg s.toCore (.run w) s'.toCore := fun f hf h => move_of_turn hpc hf h
    cases ph with
    | tickle =>
      simp only [hpc] at h
      cases h
      show Move cfg s.toCore (.run w) ((s.tickle cfg).toCore.goto w (.turn ft .take))
      rw [tickle_toCore]
      exact Move.tickle hpc
    | take =>
      simp only [hpc] at h
      cases hf : ft.fiber with
      | some f =>
        simp only [hf] at h
        cases h
        exact Move.quiet rfl hpc hf .take
      | none =>
        cases hcb : ft.cb with
        | some cb =>
          simp only [hf, hcb] at h
          cases h
          exact Move.newFiber hpc hf
        | none =>
          simp only [hf, hcb] at h
          cases h
          exact Move.drop hpc (by simp [FiberAndThread.nonempty, hf, hcb])
    | _ =>
      simp only [hpc] at h
      cases hf : ft.fiber with
      | none => simp only [hf] at h; cases h
      | some f =>
        simp only [hf] at h
        exact hheld f hf h
  | putTickle =>
    simp only [hpc] at h
    cases h
    show Move cfg s.toCore (.run w) ((s.tickle cfg).toCore.goto w .scan)
    rw [tickle_toCore]
    exact Move.goto (by rw [hpc]; rfl) rfl
  | tickled =>
    simp only [hpc] at h
    cases h
    show Move cfg s.toCore (.run w) ((s.tickle cfg).toCore.goto w (s.rest w))
    rw [tickle_toCore]
    refine Move.goto (by rw [hpc]; rfl) ?_
    unfold State.rest
    split <;> rfl
  | idleInc =>
    simp only [hpc] at h
    split at h
    · cases h
    · cases h
      exact Move.goto (by rw [hpc]; rfl) rfl
  | idle =>
    simp only [hpc] at h
    split at h
    · cases h
    · cases h
      exact Move.goto (by rw [hpc]; rfl) rfl
  | woken pipe =>
    simp only [hpc] at h
    cases h
    split <;> exact Move.goto (by rw [hpc]; rfl) rfl
  | idleDec =>
    simp only [hpc] at h
    cases h
    exact Move.goto (by rw [hpc]; rfl) rfl

theorem Move.stay {l : Label ω κ} {c : Core ω κ} : Move cfg c l c := Move.other fun _ => .inl rfl

theorem Move.setStopping {l : Label ω κ} {c : Core ω κ} (b : Bool) :
    Move cfg c l { c with stopping := b } := Move.other fun _ => .inl rfl

/-- What a step of `stop()` does. -/
inductive CallerMove (cfg : Config ω) (s : State ω κ) (quiet : Bool) : State ω κ → Prop
  | stoped (hc : s.caller = .stopCheck) (hq : s.virtualIsStoped cfg quiet = true) :
    CallerMove cfg s quiet { s with caller := .stopped }
  | rootEnded (hc : s.caller = .stopCheck) (hr : cfg.root.isSome = true)
    (he : s.rootState.ended = true) (hq : s.virtualIsStoped cfg quiet = false) :
    CallerMove cfg s quiet { s with stopping := true, caller := .stopCheckRoot }
  | goOn (hc : s.caller = .stopCheck) (hq : s.virtualIsStoped cfg quiet = false)
    (hn : (cfg.root.isSome && s.rootState.ended) = false) :
    CallerMove cfg s quiet { s with caller := .stopSet }
  | checked (hc : s.caller = .stopCheckRoot) :
    CallerMove cfg s quiet
      { s with caller := if s.virtualIsStoped cfg quiet then .stopped else .stopSet }
  | set (hc : s.caller = .stopSet) :
    CallerMove cfg s quiet
      { s with stopping := true, caller := .stopTickle (Fintype.card ω) }
  | tickle {n} (hc : s.caller = .stopTickle (n + 1)) :
    CallerMove cfg s quiet { s.tickle cfg with caller := .stopTickle n }
  | root (hc : s.caller = .stopTickle 0) (hr : cfg.root.isSome = true) :
    CallerMove cfg s quiet { s with rootState := .exec, caller := .stopRoot }
  | noRoot (hc : s.caller = .stopTickle 0) (hr : cfg.root = none) :
    CallerMove cfg s quiet { s with caller := .join }
  | skip {r} (hc : s.caller = .stopRoot) (hr : cfg.root = some r)
    (hq : s.virtualIsStoped cfg quiet = true) : CallerMove cfg s quiet { s with caller := .join }
  | enter {r} (hc : s.caller = .stopRoot) (hr : cfg.root = some r)
    (hq : s.virtualIsStoped cfg quiet = false) (hpc : s.pc r = .off) :
    CallerMove cfg s quiet { s.goto r .scan with caller := .rootRun }
  | left {r} (hc : s.caller = .rootRun) (hr : cfg.root = some r) (hpc : s.pc r = .left) :
    CallerMove cfg s quiet { s with rootState := .term, caller := .join }
  | joined (hc : s.caller = .join) (hall : ∀ w, some w ≠ cfg.root → (s.pc w).inRun = false) :
    CallerMove cfg s quiet { s with caller := .stopped }

theorem callerMove_of_step {quiet : Bool} (h : callerStep cfg s quiet = some s') :
    CallerMove cfg s quiet s' := by
  unfold callerStep at h
  split at h
  · rename_i hc
    split at h
    · rename_i hq
      cases h
      exact .stoped hc hq
    · rename_i hq
      split at h
      · rename_i hr
        cases h
        exact .rootEnded hc (Bool.and_eq_true_iff.mp hr).1 (Bool.and_eq_true_iff.mp hr).2
          (Bool.eq_false_of_not_eq_true hq)
      · rename_i hn
        cases h
        exact .goOn hc (Bool.eq_false_of_not_eq_true hq) (Bool.eq_false_of_not_eq_true hn)
  · rename_i hc
    cases h
    exact .checked hc
  · rename_i hc
    cases h
    exact .set hc
  · rename_i n hc
    cases h
    exact .tickle hc
  · rename_i hc
    split at h
    · rename_i hr
      cases h
      exact .root hc hr
    · rename_i hr
      cases h
      exact .noRoot hc (Option.not_isSome_iff_eq_none.mp hr)
  · rename_i hc
    split at h
    · rename_i r hr
      split at h
      · rename_i hq
        cases h
        exact .skip hc hr hq
      · rename_i hq
        split at h
        · rename_i hpc
          cases h
          exact .enter hc hr (Bool.eq_false_of_not_eq_true hq) hpc
        · cases h
    · cases h
  · rename_i hc
    split at h
    · rename_i r hr
      split at h
      · rename_i hpc
        cases h
        exact .left hc hr hpc
      · cases h
    · cases h
  · rename_i hc
    split at h
    · rename_i hall
      cases h
      exact .joined hc hall
    · cases h
  · cases h
  · cases h
  · cases h

theorem move_of_caller {quiet : Bool} (h : callerStep cfg s quiet = some s') :
    Move cfg s.toCore (.caller quiet) s'.toCore := by
  cases callerMove_of_step h with
  | rootEnded => exact Move.setStopping true
  | set => exact Move.setStopping true
  | tickle hc =>
    show Move cfg s.toCore (.caller quiet) (s.tickle cfg).toCore
    rw [tickle_toCore]
    exact Move.stay
  | enter hc hr hq hpc => exact Move.goto (by rw [hpc]; rfl) rfl
  | _ => exact Move.stay

/-- Every step is a move. -/
theorem move_of_step {l : Label ω κ} (h : step cfg s l = some s') :
    Move cfg s.toCore l s'.toCore := by
  cases l with
  | schedule items =>
    simp only [step] at h
    split at h
    · rename_i hm
      obtain ⟨new, hs, hid, hne, hmade, hthr, -⟩ := scheduleAll_spec items s hm
      cases h
      have hc : (if (s.scheduleAll items).2 then
          { (s.scheduleAll items).1 with tickles := (s.scheduleAll items).1.tickles + 1 }
          else (s.scheduleAll items).1).toCore = (s.scheduleAll items).1.toCore := by
        split <;> rfl
      rw [hc, hs]
      exact Move.schedule hid hne hmade hthr
    · cases h
  | tickle =>
    simp only [step] at h
    split at h
    · cases h
      show Move cfg s.toCore .tickle (s.tickle cfg).toCore
      rw [tickle_toCore]
      exact Move.stay
    · cases h
  | create => cases h; exact Move.create
  | reset f =>
    simp only [step] at h
    split at h
    · rename_i hf
      cases h
      exact Move.reset hf.1 hf.2
    · cases h
  | run w => exact move_of_run h
  | task w out =>
    simp only [step, taskStep] at h
    split at h
    · rename_i ft hpc
      split at h
      · rename_i f hf
        split at h
        · rename_i hx
          cases h
          exact Move.quiet rfl hpc hf (.task hx)
        · cases h
      · cases h
    · cases h
  | idle w quiet =>
    simp only [step, idleStep] at h
    split at h
    · rename_i hpc _
      split at h
      · cases h
        exact Move.goto (by rw [hpc]; rfl) rfl
      · cases h
        exact Move.goto (by rw [hpc]; rfl) rfl
    · cases h
  | wake w pipe =>
    simp only [step, wakeStep] at h
    split at h
    · rename_i hpc
      split at h
      · cases h
      · cases h
        exact Move.goto (by rw [hpc]; rfl) rfl
    · cases h
  | start =>
    simp only [step] at h
    split at h
    · cases h
      refine Move.other fun w => ?_
      cases hpc : s.pc w with
      | off =>
        refine .inr ⟨rfl, ?_⟩
        simp only
        split <;> rfl
      | _ => exact .inl rfl
    · cases h
  | stop =>
    simp only [step] at h
    split at h
    · cases h
      exact Move.other fun _ => .inl rfl
    · cases h
  | caller quiet => exact move_of_caller h

end Step

end Sched
end Ddg
