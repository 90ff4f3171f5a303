import DdgServer.Sched.Drain
import DdgServer.Sched.Exclusive

/-!
# What `isStoped()` says

`isStoped()` reads two flags, the queue and `m_activeThreadCount`. A worker whose task yielded
`READY` decrements the counter before it puts the entry back: between the two the entry is neither
queued nor counted.

* `Core.PutsBack`: the worker will put its entry back.
* `State.Settled`: the condition that no worker comes to that point while both flags are set.
* `isStoped_sound`: in the runs that meet it, `isStoped()` is true only if no worker runs a task or
  will put one back.
* `isStoped_early`: `isStoped()` is true, and the worker will put its task back.
-/

namespace Ddg.Sched

variable {ω κ : Type}

/-- `m_autoStop && m_stopping`. -/
def Core.flags (c : Core ω κ) : Bool := c.autoStop && c.stopping

/-- The worker has decremented the counter and will put its entry back: its fiber is `READY`. -/
def Core.PutsBack (c : Core ω κ) (w : ω) : Bool :=
  match c.pc w with
  | .turn _ (.putBack _) => true
  | .turn ft (.look _) =>
    match ft.fiber with
    | some f => c.state f = .ready
    | none => false
  | _ => false

/-- The worker is at the decrement, or at the read of the state after it, with a `READY` fiber. -/
def Core.yieldedReady (c : Core ω κ) (w : ω) : Bool :=
  match c.pc w with
  | .turn ft (.back _) | .turn ft (.look _) =>
    match ft.fiber with
    | some f => c.state f = .ready
    | none => false
  | _ => false

/-- `isStoped()` is true only if no worker is between taking an entry and the return of its `swapIn`
and none will put its entry back. -/
structure Core.StopSound (c : Core ω κ) : Prop where
  running : c.isStoped = true → ∀ w, (c.pc w).counted = 0
  putBack : c.isStoped = true → ∀ w, c.PutsBack w = false

/-- An entry of the fiber is queued, or a worker that is counted has it. -/
def Core.Pending (c : Core ω κ) (f : ℕ) : Prop :=
  (∃ e ∈ c.fibers, e.fiber = some f) ∨ ∃ u, (c.pc u).fiberIn Phase.counted = some f

/-- The invariant while both flags are set: no worker puts an entry back, and a worker that would
read `READY` is not the only trace of its fiber. -/
structure Core.Traced (c : Core ω κ) : Prop where
  putBack : ∀ w ft out, c.pc w ≠ .turn ft (.putBack out)
  look : ∀ w ft out f, c.pc w = .turn ft (.look out) → ft.fiber = some f → c.state f = .ready →
    c.Pending f

theorem yieldedReady_of_turn {c : Core ω κ} {w : ω} {ft : Entry κ} {ph : Phase} {f : ℕ}
    {out : Outcome} (hpc : c.pc w = .turn ft ph) (hph : ph = .back out ∨ ph = .look out)
    (hf : ft.fiber = some f) (hs : c.state f = .ready) : c.yieldedReady w = true := by
  unfold Core.yieldedReady
  rcases hph with rfl | rfl <;> simp [hpc, hf, hs]

theorem putsBack_of_look {c : Core ω κ} {w : ω} {ft : Entry κ} {f : ℕ} {out : Outcome}
    (hpc : c.pc w = .turn ft (.look out)) (hf : ft.fiber = some f) (hs : c.state f = .ready) :
    c.PutsBack w = true := by
  unfold Core.PutsBack
  simp [hpc, hf, hs]

theorem putsBack_of_putBack {c : Core ω κ} {w : ω} {ft : Entry κ} {out : Outcome}
    (hpc : c.pc w = .turn ft (.putBack out)) : c.PutsBack w = true := by
  unfold Core.PutsBack
  rw [hpc]

/-- Where no worker puts an entry back, the invariant holds. -/
theorem traced_of_none {c : Core ω κ} (h : ∀ w, c.PutsBack w = false) : c.Traced where
  putBack w ft out hpc := by
    have := h w
    rw [putsBack_of_putBack hpc] at this
    cases this
  look w ft out f hpc hf hs := by
    have := h w
    rw [putsBack_of_look hpc hf hs] at this
    cases this

variable [DecidableEq ω] {c c' : Core ω κ}

/-- Worker `w` goes to `pc`: what was pending stays so. -/
theorem Core.Pending.move {f : ℕ} (h : c.Pending f) {w : ω} (pc : Pc κ)
    (hpc : c'.pc = Function.update c.pc w pc) (hq : ∀ e ∈ c.fibers, e.fiber = some f → c'.Pending f)
    (hw : (c.pc w).fiberIn Phase.counted = some f → c'.Pending f) : c'.Pending f := by
  rcases h with ⟨e, he, hf⟩ | ⟨u, hu⟩
  · exact hq e he hf
  · by_cases huw : u = w
    · exact hw (huw ▸ hu)
    · refine .inr ⟨u, ?_⟩
      rw [hpc, Function.update_of_ne huw]
      exact hu

/-- A step in the turn of worker `w` with the fiber `f`, which ends in a counted phase and writes no
other fiber's state. -/
theorem Core.Traced.turn (h : c.Traced) {w : ω} {ft : Entry κ} {ph ph' : Phase} {f : ℕ}
    (hpc : c.pc w = .turn ft ph) (hf : ft.fiber = some f) (hph : ph'.counted = true)
    (hpc' : c'.pc = Function.update c.pc w (.turn ft ph')) (hfib : c'.fibers = c.fibers)
    (hne : ∀ g, g ≠ f → c'.state g = c.state g) : c'.Traced := by
  have hself : c'.Pending f := .inr ⟨w, by
    rw [hpc', Function.update_self, Pc.fiberIn_turn hph, hf]⟩
  refine ⟨fun u e out hu => ?_, fun u e out g hu hg hs => ?_⟩
  · rw [hpc'] at hu
    rcases Interleave.update_cases hu with ⟨-, heq⟩ | ⟨-, heq⟩
    · cases heq
      cases hph
    · exact h.putBack u e out heq
  · by_cases hgf : g = f
    · rw [hgf]
      exact hself
    · rw [hpc'] at hu
      rcases Interleave.update_cases hu with ⟨-, heq⟩ | ⟨-, heq⟩
      · cases heq
        cases hph
      · rw [hne g hgf] at hs
        refine (h.look u e out g heq hg hs).move _ hpc' (fun e he heg => .inl ⟨e, hfib ▸ he, heg⟩)
          fun hw => ?_
        rw [hpc] at hw
        obtain ⟨_, _, heq, -, hgf'⟩ := Pc.fiberIn_eq_some.mp hw
        cases heq
        rw [hf] at hgf'
        cases hgf'
        exact hself

/-- A step of worker `w` that does not end at a look at a `READY` fiber or at `schedule(ft)`, with
the worker not counted before, and with no fiber made `READY`. -/
theorem Core.Traced.move (h : c.Traced) {w : ω} (pc : Pc κ)
    (hw : (c.pc w).fiberIn Phase.counted = none) (hpc' : c'.pc = Function.update c.pc w pc)
    (hpb : ∀ ft out, pc ≠ .turn ft (.putBack out)) (hlook : ∀ ft out, pc ≠ .turn ft (.look out))
    (hfib : c'.fibers = c.fibers) (hready : ∀ g, c'.state g = .ready → c.state g = .ready) :
    c'.Traced := by
  refine ⟨fun u e out hu => ?_, fun u e out g hu hg hs => ?_⟩
  · rw [hpc'] at hu
    rcases Interleave.update_cases hu with ⟨-, heq⟩ | ⟨-, heq⟩
    · exact hpb e out heq
    · exact h.putBack u e out heq
  · rw [hpc'] at hu
    rcases Interleave.update_cases hu with ⟨-, heq⟩ | ⟨-, heq⟩
    · exact absurd heq (hlook e out)
    · refine (h.look u e out g heq hg (hready g hs)).move _ hpc'
        (fun e he heg => .inl ⟨e, hfib ▸ he, heg⟩) fun hw' => ?_
      rw [hw] at hw'
      cases hw'

/-- After a scan of worker `w`, which goes on to `pc`. -/
theorem Core.Traced.scanned (h : c.Traced) {tid : ThreadId} {r : Scan κ}
    (hr : Scan.Scans tid c.fibers c.state r) {w : ω} (pc : Pc κ) (hw : c.pc w = .scan)
    (hpc' : c'.pc = Function.update c.pc w pc) (hfib : c'.fibers = r.rest)
    (hst : c'.state = r.state) (hpb : ∀ ft out, pc ≠ .turn ft (.putBack out))
    (hlook : ∀ ft out, pc ≠ .turn ft (.look out))
    (htaken : ∀ e, r.taken = some e → pc = .turn e .tickle) : c'.Traced := by
  refine ⟨fun u e out hu => ?_, fun u e out g hu hg hs => ?_⟩
  · rw [hpc'] at hu
    rcases Interleave.update_cases hu with ⟨-, heq⟩ | ⟨-, heq⟩
    · exact hpb e out heq
    · exact h.putBack u e out heq
  · rw [hpc'] at hu
    rcases Interleave.update_cases hu with ⟨-, heq⟩ | ⟨-, heq⟩
    · exact absurd heq (hlook e out)
    · rw [hst] at hs
      rcases hr.state g with hg' | ⟨-, -, e', he', hg'⟩
      · rw [hg'] at hs
        refine (h.look u e out g heq hg hs).move _ hpc' (fun e he heg => ?_) fun hw' => ?_
        · -- the entry was taken, erased or kept; the fiber of an erased one is not READY
          rcases List.mem_append.mp (hr.perm.symm.subset he) with he | he
          · rcases List.mem_append.mp he with he | he
            · refine .inr ⟨w, ?_⟩
              rw [hpc', Function.update_self, htaken e (Option.mem_toList.mp he),
                Pc.fiberIn_turn rfl, heg]
            · obtain ⟨g', hg'', -, hrun, -⟩ := hr.erased he
              rw [heg] at hg''
              cases hg''
              rw [hs] at hrun
              cases hrun
          · exact .inl ⟨e, hfib ▸ he, heg⟩
        · rw [hw] at hw'
          cases hw'
      · exact .inl ⟨e', hfib ▸ he', hg'⟩

/-- The decrement of a worker whose fiber is not `READY`. -/
theorem Core.Traced.back (h : c.Traced) {w : ω} {ft : Entry κ} {f : ℕ} {out : Outcome}
    (hpc : c.pc w = .turn ft (.back out)) (hf : ft.fiber = some f) (hx : c.state f ≠ .ready)
    (n : BitVec 64) : Core.Traced { c.goto w (.turn ft (.look out)) with activeThreadCount := n } := by
  refine ⟨fun u e out' hu => ?_, fun u e out' g hu hg hs => ?_⟩
  · rcases goto_turn hu with ⟨-, heq⟩ | ⟨-, heq⟩
    · cases heq
    · exact h.putBack u e out' heq
  · rcases goto_turn hu with ⟨-, heq⟩ | ⟨-, heq⟩
    · cases heq
      rw [hf] at hg
      cases hg
      exact absurd hs hx
    · refine (h.look u e out' g heq hg hs).move (.turn ft (.look out)) rfl
        (fun e he heg => .inl ⟨e, he, heg⟩) fun hw => ?_
      rw [hpc] at hw
      obtain ⟨_, _, heq', -, hgf⟩ := Pc.fiberIn_eq_some.mp hw
      cases heq'
      rw [hf] at hgf
      cases hgf
      exact absurd hs hx

omit [DecidableEq ω] in
/-- A fiber that is `READY` after another state was written was `READY` before. -/
theorem ready_of_setState (f : ℕ) (x : FiberState) (hx : x ≠ .ready) (g : ℕ)
    (hg : (c.setState f x).state g = .ready) : c.state g = .ready := by
  change Function.update c.state f x g = .ready at hg
  rcases Interleave.update_cases hg with ⟨-, hxr⟩ | ⟨-, hg⟩
  · exact absurd hxr hx
  · exact hg

omit [DecidableEq ω] in
theorem fiberIn_counted_eq_none {w : ω} {ft : Entry κ} {ph : Phase} (hpc : c.pc w = .turn ft ph)
    (hor : ph.counted = false ∨ ft.fiber = none) : (c.pc w).fiberIn Phase.counted = none := by
  rw [hpc]
  show (if ph.counted = true then ft.fiber else none) = none
  rcases hor with hor | hor
  · rw [hor]
    rfl
  · rw [hor, ite_self]

section Moves

variable [Fintype ω] {cfg : Config ω} {l : Label ω κ}

/-- Each step of a worker that is not at its decrement or look with a `READY` fiber keeps the
invariant. -/
theorem Move.traced (hm : Move cfg c l c') (hc : ∀ w, l.worker = some w → c.yieldedReady w = false)
    (hwf : c.Wf) (h : c.Traced) : c'.Traced := by
  cases hm with
  | schedule =>
    refine ⟨h.putBack, fun u e out g hu hg hs => ?_⟩
    exact (h.look u e out g hu hg hs).imp_left fun ⟨e, he, hf⟩ =>
      ⟨e, List.mem_append_left _ he, hf⟩
  | create =>
    refine ⟨h.putBack, fun u e out g hu hg hs => h.look u e out g hu hg ?_⟩
    exact ready_of_setState c.made .init nofun g hs
  | @reset f hf hs =>
    refine ⟨h.putBack, fun u e out g hu hg hs => h.look u e out g hu hg ?_⟩
    exact ready_of_setState f .init nofun g hs
  | @take w r ft hpc hr ht =>
    refine h.scanned (Scan.scans_of_scan hr) (.turn ft .tickle) hpc rfl rfl rfl nofun nofun
      fun e he => ?_
    rw [ht] at he
    cases he
    rfl
  | @pass w r pc hpc hr ht hq =>
    have hturn : ∀ ft ph, pc ≠ .turn ft ph := by
      rintro ft ph rfl
      cases hq
    refine h.scanned (Scan.scans_of_scan hr) pc hpc rfl rfl rfl (fun ft out => hturn ft _)
      (fun ft out => hturn ft _) fun e he => ?_
    rw [ht] at he
    cases he
  | @tickle w ft hpc =>
    cases hf : ft.fiber with
    | some f => exact h.turn hpc hf rfl rfl rfl fun _ _ => rfl
    | none =>
      exact h.move (.turn ft .take) (fiberIn_counted_eq_none hpc (.inr hf)) rfl nofun nofun rfl fun _ hg => hg
  | @newFiber w ft hpc hf =>
    exact h.move (.turn { ft with fiber := some c.made, cb := none } .ready)
      (fiberIn_counted_eq_none hpc (.inr hf)) rfl (by rintro _ _ ⟨⟩) (by rintro _ _ ⟨⟩) rfl
      (ready_of_setState c.made .init nofun)
  | drop hpc hne => exact absurd hne (hwf.nonempty_ne hpc)
  | @quiet l w ft f ph ph' hl hpc hf hq =>
    cases hq with
    | take => exact h.turn hpc hf rfl rfl rfl fun _ _ => rfl
    | check => exact h.turn hpc hf rfl rfl rfl fun _ _ => rfl
    | enter => exact h.turn hpc hf rfl rfl rfl fun _ _ => rfl
    | task => exact h.turn hpc hf rfl rfl rfl fun _ _ => rfl
    | leave => exact h.turn hpc hf rfl rfl rfl fun _ _ => rfl
    | look hx =>
      have := hc w hl
      rw [yieldedReady_of_turn hpc (.inr rfl) hf hx] at this
      cases this
    | park =>
      exact h.move (.turn ft .park) (fiberIn_counted_eq_none hpc (.inl rfl)) rfl nofun nofun rfl fun _ hg => hg
  | @write w ft f ph x ph' hpc hf hw =>
    have hph : ph'.counted = true := by cases hw <;> rfl
    exact h.turn hpc hf hph rfl rfl fun g hg => Function.update_of_ne hg ..
  | yield hpc hf => exact h.turn hpc hf rfl rfl rfl fun g hg => Function.update_of_ne hg ..
  | @back w ft f out hpc hf =>
    have hx : c.state f ≠ .ready := fun hx => by
      have := hc w rfl
      rw [yieldedReady_of_turn hpc (.inl rfl) hf hx] at this
      cases this
    exact h.back hpc hf hx _
  | retire hpc hf hs =>
    exact h.move .scan (fiberIn_counted_eq_none hpc (.inl rfl)) rfl nofun nofun rfl fun _ hg => hg
  | @putBack w ft f out hpc hf => exact absurd hpc (h.putBack w ft out)
  | @park w ft f hpc hf =>
    exact h.move .scan (fiberIn_counted_eq_none hpc (.inl rfl)) rfl nofun nofun rfl
      (ready_of_setState f .hold nofun)
  | @other l pc stopping autoStop hpc =>
    have hturn : ∀ {w ft ph}, pc w = .turn ft ph → c.pc w = .turn ft ph := by
      intro w ft ph hw
      rcases hpc w with hs | ⟨-, hs⟩
      · exact hs ▸ hw
      · rw [hw] at hs
        cases hs
    refine ⟨fun w ft out hw => h.putBack w ft out (hturn hw), fun u e out g hu hg hs => ?_⟩
    refine (h.look u e out g (hturn hu) hg hs).imp_right fun ⟨v, hv⟩ => ⟨v, ?_⟩
    exact (Pc.fiberIn_eq (hpc v)).trans hv

end Moves

/-! ## Runs -/

section Runs

variable [Fintype ω]

/-- While both flags are set no worker decrements the counter for a `READY` fiber, or reads `READY`
after it, and `stop()` sets `m_stopping` when no worker will put its entry back. -/
def State.Settled (s : State ω κ) : Label ω κ → Prop
  | .run w => s.flags = true → s.yieldedReady w = false
  | .caller _ => s.caller = .stopSet → ∀ w, s.PutsBack w = false
  | _ => True

instance (s : State ω κ) : ∀ l, Decidable (s.Settled l)
  | .run w => inferInstanceAs (Decidable (s.flags = true → s.yieldedReady w = false))
  | .caller _ => inferInstanceAs (Decidable (s.caller = .stopSet → ∀ w, s.PutsBack w = false))
  | .schedule _ | .tickle | .create | .reset _ | .task .. | .idle .. | .wake .. | .start | .stop =>
    .isTrue trivial

variable {cfg : Config ω} {s s' : State ω κ} {l : Label ω κ}

/-- A step of a worker that is not at the decrement or the look. -/
theorem settled_worker (hst : step cfg s l = some s') (hc : s.Settled l) (hflags : s.flags = true)
    (w : ω) (hl : l.worker = some w) : s.yieldedReady w = false := by
  cases l with
  | run u =>
    cases hl
    exact hc hflags
  | task u out =>
    cases hl
    simp only [step, taskStep] at hst
    split at hst
    · rename_i ft h
      rw [Core.yieldedReady, h]
    · cases hst
  | idle u quiet =>
    cases hl
    simp only [step, idleStep] at hst
    split at hst
    · rename_i h _
      rw [Core.yieldedReady, h]
    · cases hst
  | wake u pipe =>
    cases hl
    simp only [step, wakeStep] at hst
    split at hst
    · rename_i h
      rw [Core.yieldedReady, h]
    · cases hst
  | schedule | tickle | create | reset | start | stop | caller => cases hl

/-- The step that sets the second flag finds no worker that will put its entry back. -/
theorem flags_step (hst : step cfg s l = some s') (hstaged : s.Staged cfg) (hc : s.Settled l)
    (hflags : s'.flags = true) : s.flags = true ∨ ∀ w, s'.PutsBack w = false := by
  cases step_case hst with
  | worker hl hw =>
    unfold Core.flags at hflags ⊢
    rw [hw.frame.autoStop, hw.frame.stopping] at hflags
    exact .inl hflags
  | schedule => exact .inl hflags
  | tickle =>
    rw [tickle_eq] at hflags
    exact .inl hflags
  | create => exact .inl hflags
  | reset => exact .inl hflags
  | start =>
    unfold Core.flags at hflags
    rw [Bool.and_false] at hflags
    cases hflags
  | stop hcaller =>
    unfold State.Staged at hstaged
    rcases hcaller with hcaller | hcaller <;> rw [hcaller] at hstaged
    · refine .inr fun w => ?_
      unfold Core.PutsBack
      simp only [hstaged.1 w]
    · unfold Core.flags at hflags
      rw [show s.stopping = false from hstaged.1, Bool.and_false] at hflags
      cases hflags
  | caller hm =>
    unfold State.Staged at hstaged
    cases hm with
    | rootEnded hcaller hr he =>
      rw [hcaller] at hstaged
      cases hstaged.2.1.symm.trans he
    | set hcaller => exact .inr (hc hcaller)
    | tickle hcaller =>
      rw [tickle_eq] at hflags
      exact .inl hflags
    | _ => exact .inl hflags

theorem traced_inductive : (sys (κ := κ) cfg).Inductive State.Settled fun s =>
    (s.toCore.Tracked ∧ s.Staged cfg) ∧ (s.flags = true → s.toCore.Traced) := by
  refine (tracked_inductive.both staged_inductive).and (fun s hs hf => ?_)
    fun s l s' hi h hc hst hflags => ?_
  · rw [show s = {} from hs] at hf
    cases hf
  · rcases flags_step hst hi.2 hc hflags with hf | hnone
    · exact (move_of_step hst).traced (settled_worker hst hc hf) hi.1.wf (h hf)
    · exact traced_of_none hnone

/-- In every run that meets the condition `isStoped()` is sound. -/
theorem isStoped_sound {s : State ω κ} (h : (sys cfg).Reach State.Settled s) : s.StopSound := by
  obtain ⟨⟨ht, -⟩, htraced⟩ := traced_inductive.reach h
  have hstop : s.toCore.isStoped = true →
      s.flags = true ∧ s.fibers = [] ∧ ∀ w, (s.pc w).counted = 0 := by
    intro hs
    simp only [Core.isStoped, Bool.and_eq_true, List.isEmpty_iff, beq_iff_eq] at hs
    refine ⟨?_, hs.1.2, fun w => ?_⟩
    · unfold Core.flags
      rw [hs.1.1.1, hs.1.1.2]
      rfl
    · have hsum := ht.counted.toNat cfg
      have := Interleave.le_sum (fun u => (s.pc u).counted) w
      have h₀ : s.activeThreadCount.toNat = 0 := by rw [hs.2]; rfl
      omega
  refine ⟨fun hs => (hstop hs).2.2, fun hs w => ?_⟩
  obtain ⟨hflags, hfibers, hcount⟩ := hstop hs
  have hinv := htraced hflags
  unfold Core.PutsBack
  split
  · rename_i ft out hpc
    exact absurd hpc (hinv.putBack w ft out)
  · rename_i ft out hpc
    split
    · rename_i f hf
      refine decide_eq_false fun hx => ?_
      rcases hinv.look w ft out f hpc hf hx with ⟨e, he, -⟩ | ⟨u, hu⟩
      · rw [hfibers] at he
        cases he
      · -- no worker is counted
        obtain ⟨e, ph, hpu, hph, -⟩ := Pc.fiberIn_eq_some.mp hu
        have := hcount u
        rw [hpu, Pc.counted, hph] at this
        cases this
    · rfl
  · rfl

/-- `stop()` while a task runs that then ends: when the worker reads the state, `isStoped()` is
true. -/
theorem isStoped_sound_ended : ∃ s : State (Fin 1) Unit,
    s.toCore.isStoped = true ∧ (s.pc 0).inRun = true ∧ s.StopSound := by
  obtain ⟨s, hs, hp⟩ := Interleave.Sys.exists_of_runBy (S := sys (κ := Unit) oneWorker)
    (C := State.Settled) (s := {})
    (List.flatten [[.start, .schedule [{ cb := some () }]], .replicate 7 (.run 0),
      [.stop, .caller true, .caller true, .task 0 .term], .replicate 3 (.run 0)])
    (p := fun s => s.toCore.isStoped && (s.pc 0).inRun) (by decide)
  simp only [Bool.and_eq_true] at hp
  exact ⟨s, hp.1, hp.2, isStoped_sound ⟨_, rfl, hs⟩⟩

/-- `stop()` while a task runs that then yields `READY`: the worker has decremented the counter and
not put the task back, and `isStoped()` is true. -/
theorem isStoped_early : ∃ s : State (Fin 1) Unit,
    (sys oneWorker).Reach Interleave.Sys.free s ∧ s.toCore.isStoped = true ∧
      s.PutsBack 0 = true ∧ ¬ s.StopSound := by
  obtain ⟨s, hs, hp⟩ := Interleave.Sys.exists_of_runBy (S := sys (κ := Unit) oneWorker)
    (C := Interleave.Sys.free) (s := {})
    (List.flatten [[.start, .schedule [{ cb := some () }]], .replicate 7 (.run 0),
      [.stop, .caller true, .caller true, .task 0 .ready], .replicate 3 (.run 0)])
    (p := fun s => s.toCore.isStoped && s.PutsBack 0) (by decide)
  simp only [Bool.and_eq_true] at hp
  refine ⟨s, ⟨_, rfl, hs⟩, hp.1, hp.2, fun h => ?_⟩
  have := h.putBack hp.1 0
  rw [hp.2] at this
  cases this

end Runs

end Ddg.Sched
