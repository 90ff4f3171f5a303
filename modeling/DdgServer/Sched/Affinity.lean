import DdgServer.Sched.Exclusive

/-!
# Entries for one thread

`schedule(fc, thread)` queues an entry for the worker with the thread id `thread`. The scan tests
`itt->thread == GetThreadId()` where the other workers' entries are to be skipped: a worker skips
the entries for its own thread and takes those for the others.

* `Scan.Affine`: a scan takes the entries for its thread, and none for another one.
* `Core.Unpinned`: the condition that a scan comes to no runnable entry for a thread.
* `affinity`: the runs whose steps all meet it respect the thread ids.
* `affine_iff`: where the ids survive the narrowing and no entry is erased, only the scans that meet
  it do.
* `run_misplaces`: an entry for one worker that the other one runs.
-/

namespace Ddg

variable {ω κ : Type}

namespace Scan

/-- What the scan of the thread `tid` takes is for this thread or for any, and it does not pass over
a runnable entry for this thread. -/
structure Affine (tid : ThreadId) (r : Scan κ) : Prop where
  taken : ∀ e, r.taken = some e → e.asked = 0 ∨ e.asked = tid
  passed : ∀ e, (e, true) ∈ r.seen → e.asked ≠ 0 → e.asked = tid → r.taken = some e

variable {tid : ThreadId} {es : List (Entry κ)} {st : FiberStates} {r : Scan κ}

/-- A runnable entry that the loop comes to is skipped for its thread id or taken, if none is passed
over after an erased one. -/
theorem Scans.runnable (h : Scans tid es st r) (herased : r.erased = []) {e : Entry κ}
    (he : (e, true) ∈ r.seen) : (e.thread ≠ 0 ∧ e.thread = tid) ∨ r.taken = some e := by
  induction h with
  | done => cases he
  | pinned h₀ htid _ ih =>
    rcases List.mem_cons.mp he with heq | he
    · obtain ⟨rfl, -⟩ := Prod.mk.inj heq
      exact .inl ⟨h₀, htid⟩
    · exact ih herased he
  | ready _ _ _ _ ih =>
    rcases List.mem_cons.mp he with heq | he
    · cases (Prod.mk.inj heq).2
    · exact ih herased he
  | busy _ _ _ _ ih =>
    rcases List.mem_cons.mp he with heq | he
    · cases (Prod.mk.inj heq).2
    · exact ih herased he
  | take =>
    obtain ⟨rfl, -⟩ := Prod.mk.inj (List.mem_singleton.mp he)
    exact .inr rfl
  | erase => cases herased

/-- A scan respects the thread ids iff it comes to no runnable entry for a thread, where the ids
survive the narrowing and no entry is erased. -/
theorem affine_iff (h : Scans tid es st r) (hthread : ∀ e ∈ es, e.thread = e.asked)
    (herased : r.erased = []) : r.Affine tid ↔ ∀ x ∈ r.seen, x.2 = true → x.1.asked = 0 := by
  refine ⟨fun ha x hx hrun => ?_, fun hc => ⟨fun e he => ?_, fun e he h₀ _ => ?_⟩⟩
  · obtain ⟨e, b⟩ := x
    cases hrun
    have hes : e ∈ es := h.upTo.isPrefix.subset (List.mem_map_of_mem (f := Prod.fst) hx)
    have hth := hthread e hes
    by_contra h₀
    change ¬e.asked = 0 at h₀
    rcases h.runnable herased hx with ⟨-, htid⟩ | htaken
    · -- skipped by the worker it is for
      have := ha.passed e hx h₀ (by rw [← hth, htid])
      exact (h.taken this).1 ⟨by rw [hth]; exact h₀, htid⟩
    · -- taken by a worker it is not for
      have hne := (h.taken htaken).1
      rw [hth] at hne
      rcases ha.taken e htaken with h₁ | h₁
      · exact h₀ h₁
      · exact hne ⟨h₀, h₁⟩
  · exact .inl (hc (e, true) (h.seen he) rfl)
  · exact absurd (hc (e, true) he rfl) h₀

end Scan

namespace Sched

variable [Fintype ω]

/-- A scan comes to no callback and no `READY` fiber that is for one thread. -/
def Core.Unpinned (cfg : Config ω) (c : Core ω κ) : Label ω κ → Prop
  | .run w => ∀ r ∈ c.scanOf cfg w, ∀ x ∈ r.seen, x.2 = true → x.1.asked = 0
  | _ => True

instance (cfg : Config ω) (c : Core ω κ) : ∀ l, Decidable (c.Unpinned cfg l)
  | .run w => inferInstanceAs (Decidable (∀ r ∈ c.scanOf cfg w, ∀ x ∈ r.seen,
      x.2 = true → x.1.asked = 0))
  | .schedule _ | .tickle | .create | .reset _ | .task .. | .idle .. | .wake .. | .start | .stop
  | .caller _ => .isTrue trivial

/-- Each worker has an entry for its thread or for any. -/
def Core.InPlace (cfg : Config ω) (c : Core ω κ) : Prop :=
  ∀ w ft ph, c.pc w = .turn ft ph → ft.asked = 0 ∨ ft.asked = cfg.tid w

variable [DecidableEq ω] {cfg : Config ω} {l : Label ω κ} {c c' : Core ω κ}

theorem Core.InPlace.goto (h : c.InPlace cfg) {w : ω} (pc : Pc κ)
    (hpc' : c'.pc = Function.update c.pc w pc)
    (hpc : ∀ ft ph, pc = .turn ft ph → ft.asked = 0 ∨ ft.asked = cfg.tid w) :
    c'.InPlace cfg := by
  intro u ft ph hu
  rw [hpc'] at hu
  rcases Interleave.update_cases hu with ⟨rfl, heq⟩ | ⟨-, heq⟩
  · exact hpc ft ph heq
  · exact h u ft ph heq

theorem Move.inPlace (hm : Move cfg c l c') (hc : c.Unpinned cfg l) (h : c.InPlace cfg) :
    c'.InPlace cfg := by
  -- a worker that goes on with its entry
  have hturn : ∀ {w} {ft ft' : Entry κ} {ph} ph', c.pc w = .turn ft ph → ft'.asked = ft.asked →
      ∀ e ph₁, Pc.turn ft' ph' = .turn e ph₁ → e.asked = 0 ∨ e.asked = cfg.tid w := by
    rintro w ft ft' ph ph' hpc ha e ph₁ ⟨⟩
    rw [ha]
    exact h w ft ph hpc
  cases hm with
  | schedule => exact h
  | create => exact h
  | reset => exact h
  | @take w r ft hpc hr ht =>
    refine h.goto (.turn ft .tickle) rfl ?_
    rintro e ph ⟨⟩
    have hseen := (Scan.scans_of_scan hr).seen ht
    exact .inl (hc r (scanOf_eq_some.mpr ⟨hpc, hr⟩) _ hseen rfl)
  | @pass w r pc hpc hr ht hq =>
    refine h.goto pc rfl fun e ph he => ?_
    rw [he] at hq
    cases hq
  | tickle hpc => exact h.goto _ rfl (hturn .take hpc rfl)
  | newFiber hpc hf => exact h.goto _ rfl (hturn .ready hpc rfl)
  | drop hpc hne => exact h.goto .scan rfl nofun
  | @quiet l w ft f ph ph' hl hpc hf hq => exact h.goto _ rfl (hturn ph' hpc rfl)
  | @write w ft f ph x ph' hpc hf hw => exact h.goto _ rfl (hturn ph' hpc rfl)
  | @yield w ft f out hpc hf => exact h.goto _ rfl (hturn (.leave out) hpc rfl)
  | @back w ft f out hpc hf => exact h.goto _ rfl (hturn (.look out) hpc rfl)
  | retire hpc hf hs => exact h.goto .scan rfl nofun
  | putBack hpc hf => exact h.goto .putTickle rfl nofun
  | park hpc hf => exact h.goto .scan rfl nofun
  | @other l pc stopping autoStop hpc =>
    intro w ft ph hw
    rcases hpc w with hs | ⟨-, hs⟩
    · exact h w ft ph (hs ▸ hw)
    · rw [show pc w = .turn ft ph from hw] at hs
      cases hs

theorem inPlace_inductive : (sys (κ := κ) cfg).Inductive (fun s l => s.Unpinned cfg l)
    fun s => s.toCore.Tracked ∧ s.toCore.InPlace cfg := by
  refine tracked_inductive.and (fun s hs => ?_) fun s l s' _ h hc hst =>
    (move_of_step hst).inPlace hc h
  rw [show s = {} from hs]
  nofun

/-- In every run whose scans come to no runnable entry for a thread: each worker runs entries for
its thread or for any, an entry keeps its thread id when it is put back, and the next scan of each
worker respects the ids, if it meets the condition. -/
theorem affinity {s : State ω κ}
    (h : (sys cfg).Reach (fun s l => s.toCore.Unpinned cfg l) s) :
    s.InPlace cfg ∧ (∀ e, s.Has e → e.thread = narrowThread e.asked) ∧
    ∀ w r, s.Unpinned cfg (.run w) → s.scanOf cfg w = some r → r.Affine (cfg.tid w) := by
  obtain ⟨ht, hi⟩ := inPlace_inductive.reach h
  refine ⟨hi, fun e he => (ht.wf.accepted e he).thread, fun w r hc hr => ?_⟩
  have hrs := Scan.scans_of_scan (scanOf_eq_some.mp hr).2
  exact ⟨fun e he => .inl (hc r hr (e, true) (hrs.seen he) rfl),
    fun e he h₀ _ => absurd (hc r hr (e, true) he rfl) h₀⟩

/-- A task for any thread, which the other worker is about to scan for. -/
theorem affinity_unpinned : ∃ s : State (Fin 2) Unit,
    (s.pc 0).counted = 1 ∧ s.pc 1 = .scan ∧ s.fibers.length = 1 ∧
    s.InPlace twoWorkers ∧ (∀ e, s.Has e → e.thread = narrowThread e.asked) ∧
    ∀ w r, s.Unpinned twoWorkers (.run w) → s.scanOf twoWorkers w = some r →
      r.Affine (twoWorkers.tid w) := by
  obtain ⟨s, hs, hp⟩ := Interleave.Sys.exists_of_runBy (S := sys (κ := Unit) twoWorkers)
    (C := fun s l => s.toCore.Unpinned twoWorkers l) (s := {})
    [.start, .schedule [{ cb := some () }, { cb := some () }], .run 0]
    (p := fun s => (s.pc 0).counted == 1 && s.pc 1 == .scan && s.fibers.length == 1)
    (by decide)
  simp only [Bool.and_eq_true, beq_iff_eq] at hp
  exact ⟨s, hp.1.1, hp.1.2, hp.2, affinity ⟨_, rfl, hs⟩⟩

/-- `schedule(cb, 1)`: the worker with the id `1` passes over the callback, and the one with the id
`2` takes it. -/
theorem run_misplaces : ∃ s : State (Fin 2) Unit,
    (sys twoWorkers).Reach Interleave.Sys.free s ∧ s.pc 0 = .tickled ∧
      (s.pc 1).held.map (fun x => x.1.asked) = some (twoWorkers.tid 0) ∧
      ¬ s.InPlace twoWorkers := by
  obtain ⟨s, hs, hp⟩ := Interleave.Sys.exists_of_runBy (S := sys (κ := Unit) twoWorkers)
    (C := Interleave.Sys.free) (s := {})
    [.start, .schedule [{ cb := some (), thread := 1 }], .run 0, .run 1]
    (p := fun s => s.pc 0 == .tickled && (s.pc 1).held.map (fun x => x.1.asked) == some 1)
    (by decide)
  simp only [Bool.and_eq_true, beq_iff_eq] at hp
  refine ⟨s, ⟨_, rfl, hs⟩, hp.1, hp.2, fun h => ?_⟩
  obtain ⟨⟨ft, ph⟩, hheld, ha⟩ := Option.map_eq_some_iff.mp hp.2
  have := h 1 ft ph (Pc.held_eq_some.mp hheld)
  rw [show ft.asked = 1 from ha] at this
  exact absurd this (by decide)

end Sched
end Ddg
