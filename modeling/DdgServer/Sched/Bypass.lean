import DdgServer.Lib.Refine
import DdgServer.Sched.Exclusive

/-!
# How often an entry is passed over

A scan that may take an entry and leaves it queued has removed an entry in front of it: the one that
it took, or an erased one, after which it went on too far. Entries join the queue at its back. So the
number of entries in front bounds how often an entry is passed over, whatever the other entries are.

* `Entry.Ripe`: a scan takes the entry when it comes to it.
* `Scans.passes`: one scan; `step_passes`: one step; `passed_bounded`: a run.
-/

namespace Ddg

variable {ω κ : Type}

/-- A scan for the thread `tid` takes the entry when it comes to it. -/
def Entry.Ripe (e : Entry κ) (tid : ThreadId) (state : FiberStates) : Prop :=
  ¬(e.thread ≠ 0 ∧ e.thread = tid) ∧ ∀ f ∈ e.fiber, state f = .ready

instance (e : Entry κ) (tid : ThreadId) (state : FiberStates) : Decidable (e.Ripe tid state) :=
  inferInstanceAs (Decidable (_ ∧ ∀ f ∈ e.fiber, state f = .ready))

/-- `e` is one of the entries, with at most `n` in front of it. -/
def Entry.Within (e : Entry κ) (es : List (Entry κ)) (n : ℕ) : Prop :=
  ∃ pre post, es = pre ++ e :: post ∧ pre.length ≤ n

variable {tid : ThreadId} {es new : List (Entry κ)} {st : FiberStates} {r : Scan κ} {e x : Entry κ}
  {n m : ℕ}

theorem Entry.Ripe.update {f : ℕ} (h : e.Ripe tid st) :
    e.Ripe tid (Function.update st f .ready) := by
  refine ⟨h.1, fun g hg => ?_⟩
  rw [Function.update_apply]
  split
  · rfl
  · exact h.2 g hg

theorem Entry.Within.mono (h : e.Within es n) (hn : n ≤ m) : e.Within es m := by
  obtain ⟨pre, post, hes, hle⟩ := h
  exact ⟨pre, post, hes, hle.trans hn⟩

theorem Entry.Within.append (h : e.Within es n) : e.Within (es ++ new) n := by
  obtain ⟨pre, post, rfl, hle⟩ := h
  exact ⟨pre, post ++ new, by rw [List.append_assoc, List.cons_append], hle⟩

theorem Entry.Within.first : e.Within (e :: es) n := ⟨[], es, rfl, Nat.zero_le n⟩

theorem Entry.Within.cons (x : Entry κ) (h : e.Within es n) : e.Within (x :: es) (n + 1) := by
  obtain ⟨pre, post, rfl, hle⟩ := h
  exact ⟨x :: pre, post, rfl, Nat.succ_le_succ hle⟩

theorem Entry.within_cons (h : e.Within (x :: es) n) : x = e ∨ ∃ m, n = m + 1 ∧ e.Within es m := by
  obtain ⟨pre, post, hes, hle⟩ := h
  rcases List.cons_eq_append_iff.mp hes with ⟨-, he⟩ | ⟨p, rfl, hes⟩
  · cases he
    exact .inl rfl
  · cases hes
    rw [List.length_cons] at hle
    exact .inr ⟨n - 1, by omega, p, post, rfl, by omega⟩

namespace Scan

/-- A scan that neither takes nor erases `e`: no entry comes in front of it, and one goes if `e` is
ripe. -/
theorem Scans.passes (h : Scans tid es st r) (hw : e.Within es n) (ht : r.taken ≠ some e)
    (he : e ∉ r.erased) :
    ∃ m, e.Within r.rest m ∧ m + (decide (e.Ripe tid st)).toNat ≤ n := by
  induction h generalizing n with
  | done =>
    obtain ⟨pre, post, hes, -⟩ := hw
    exact absurd hes.symm (by simp)
  | @pinned x es st r hp hq _ ih =>
    rcases Entry.within_cons hw with rfl | ⟨k, rfl, hk⟩
    · refine ⟨0, .first, ?_⟩
      rw [decide_eq_false fun hr => hr.1 ⟨hp, hq⟩]
      exact Nat.zero_le n
    · obtain ⟨m, hm, hle⟩ := ih hk ht he
      exact ⟨m + 1, hm.cons x, by omega⟩
  | @ready x es st r f hp hf hs _ ih =>
    rcases Entry.within_cons hw with rfl | ⟨k, rfl, hk⟩
    · refine ⟨0, .first, ?_⟩
      rw [decide_eq_false]
      · exact Nat.zero_le n
      · intro hr
        rcases hs with hs | hs <;> cases hs.symm.trans (hr.2 f hf)
    · obtain ⟨m, hm, hle⟩ := ih hk ht he
      refine ⟨m + 1, hm.cons x, ?_⟩
      by_cases hr : e.Ripe tid st
      · rw [decide_eq_true hr.update] at hle
        rw [decide_eq_true hr]
        omega
      · rw [decide_eq_false hr]
        exact Nat.succ_le_succ ((Nat.le_add_right m _).trans hle)
  | @busy x es st r f hp hf hs _ ih =>
    rcases Entry.within_cons hw with rfl | ⟨k, rfl, hk⟩
    · refine ⟨0, .first, ?_⟩
      rw [decide_eq_false fun hr => by cases hs.symm.trans (hr.2 f hf)]
      exact Nat.zero_le n
    · obtain ⟨m, hm, hle⟩ := ih hk ht he
      exact ⟨m + 1, hm.cons x, by omega⟩
  | @take x es st hp hr =>
    rcases Entry.within_cons hw with rfl | ⟨k, rfl, hk⟩
    · exact absurd rfl ht
    · exact ⟨k, hk, Nat.add_le_add_left (Bool.toNat_le _) k⟩
  | @erase x passed es st r f hp hf hrun hexec _ ih =>
    rcases Entry.within_cons hw with rfl | ⟨k, rfl, hk⟩
    · exact absurd List.mem_cons_self he
    · have := Bool.toNat_le (decide (e.Ripe tid st))
      rcases Entry.within_cons hk with rfl | ⟨k, rfl, hk'⟩
      · exact ⟨0, .first, by omega⟩
      · obtain ⟨m, hm, hle⟩ := ih hk' ht fun h => he (List.mem_cons_of_mem _ h)
        exact ⟨m + 1, hm.cons passed, by omega⟩

end Scan

namespace Sched

open Interleave

variable [Fintype ω]

/-- The step does not take or erase `e`. -/
def Core.Leaves (cfg : Config ω) (e : Entry κ) (c : Core ω κ) : Label ω κ → Prop
  | .run w => ∀ r ∈ c.scanOf cfg w, r.taken ≠ some e ∧ e ∉ r.erased
  | _ => True

instance [DecidableEq κ] (cfg : Config ω) (e : Entry κ) (c : Core ω κ) :
    ∀ l : Label ω κ, Decidable (c.Leaves cfg e l)
  | .run w => inferInstanceAs (Decidable (∀ r ∈ c.scanOf cfg w, _ ∧ _))
  | .schedule _ | .tickle | .create | .reset _ | .task .. | .idle .. | .wake .. | .start | .stop
  | .caller _ => .isTrue trivial

/-- The worker whose scan may take `e`. -/
def Core.passesOver (cfg : Config ω) (e : Entry κ) (c : Core ω κ) : Label ω κ → List ω
  | .run w =>
    match c.pc w with
    | .scan => if e.Ripe (cfg.tid w) c.state then [w] else []
    | _ => []
  | _ => []

variable [DecidableEq ω] {cfg : Config ω} {s s' t : State ω κ} {l : Label ω κ}

/-- In a step that leaves `e` queued no entry comes in front of it, and one goes if the step passes
over `e`. -/
theorem step_passes (h : e.Within s.fibers n) (hl : s.toCore.Leaves cfg e l)
    (hst : step cfg s l = some s') :
    ∃ m, e.Within s'.fibers m ∧ m + (s.toCore.passesOver cfg e l).length ≤ n := by
  by_cases hscan : ∃ w, l = .run w ∧ s.pc w = .scan
  · obtain ⟨w, rfl, hpc⟩ := hscan
    have hst' : runStep cfg s w = some s' := hst
    simp only [runStep, hpc, scanStep] at hst'
    obtain ⟨r, hr, rfl⟩ := Option.map_eq_some_iff.mp hst'
    obtain ⟨ht, he⟩ := hl r (scanOf_eq_some.mpr ⟨hpc, hr⟩)
    obtain ⟨m, hm, hle⟩ := (Scan.scans_of_scan hr).passes h ht he
    refine ⟨m, ?_, ?_⟩
    · cases r.taken <;> exact hm
    · have hpass : (s.toCore.passesOver cfg e (.run w)).length =
          (decide (e.Ripe (cfg.tid w) s.state)).toNat := by
        simp only [Core.passesOver, hpc]
        split <;> rename_i hr' <;> simp [hr']
      rwa [hpass]
  · have hno : s.toCore.passesOver cfg e l = [] := by
      cases l with
      | run w =>
        cases hpc : s.pc w with
        | scan => exact absurd ⟨w, rfl, hpc⟩ hscan
        | _ => simp only [Core.passesOver, hpc]
      | _ => rfl
    refine ⟨n, ?_, by rw [hno]; exact Nat.le_refl n⟩
    have hmove := move_of_step hst
    generalize s'.toCore = c' at hmove ⊢
    cases hmove with
    | take hpc | pass hpc => exact absurd ⟨_, rfl, hpc⟩ hscan
    | schedule | putBack => exact h.append
    | _ => exact h

/-- **Bounded bypass.** An entry with `n` others in front of it is passed over at most `n` times, as
long as it stays queued: in every run that does not take or erase it, the scans that may take it, by
whatever workers, are no more than the entries that were in front of it and are not any more. -/
theorem passed_bounded {his : List ω} {pre post : List (Entry κ)}
    (hs : s.fibers = pre ++ e :: post)
    (h : (sys cfg).Shows (fun s l => s.toCore.Leaves cfg e l)
      (fun s l => s.toCore.passesOver cfg e l) s his t) :
    ∃ pre' post', t.fibers = pre' ++ e :: post' ∧ pre'.length + his.length ≤ pre.length := by
  obtain ⟨m, ⟨pre', post', ht, hle⟩, hm⟩ := h.length_le (m := fun s n => e.Within s.fibers n)
    (fun s l s' n hw hl hst => step_passes hw hl hst) ⟨pre, post, hs, Nat.le_refl _⟩
  exact ⟨pre', post', ht, by omega⟩

/-- Two workers and two callbacks: the first worker passes over the second callback, which is then
the first. -/
theorem passed_bounded_once : ∃ (e : Entry Unit) (t : State (Fin 2) Unit) (his : List (Fin 2)),
    his = [0] ∧ t.fibers = [e] ∧
      ∃ pre' post', t.fibers = pre' ++ e :: post' ∧ pre'.length + his.length ≤ 1 := by
  let e : ℕ → Entry Unit := fun n => { fiber := none, cb := some (), thread := 0, id := n }
  let s : State (Fin 2) Unit := { fibers := [e 0, e 1], entries := 2, stopping := false,
                                  caller := .started, pc := fun _ => .scan }
  have hqueue : s.fibers = [e 0] ++ e 1 :: [] := rfl
  obtain ⟨his, t, ht, hp⟩ := Sys.exists_of_showBy (S := sys (κ := Unit) twoWorkers)
    (C := fun s l => s.toCore.Leaves twoWorkers (e 1) l)
    (o := fun s l => s.toCore.passesOver twoWorkers (e 1) l) (s := s) (.replicate 7 (.run 0))
    (p := fun x => x.1 == [0] && x.2.fibers == [e 1]) (by decide +kernel)
  simp only [Bool.and_eq_true, beq_iff_eq] at hp
  exact ⟨e 1, t, his, hp.1, hp.2, passed_bounded hqueue ht⟩

end Sched
end Ddg
