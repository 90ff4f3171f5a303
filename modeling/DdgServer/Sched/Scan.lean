import DdgServer.Sched.Entry
import Mathlib.Data.List.Perm.Basic
import Mathlib.Logic.Function.Basic

/-!
# The locked scan of `Scheduler::run`

The loop over `m_fibers` that a worker does under `m_mutex`. It skips the entries for its own
thread, makes the fibers in `INIT` and `HOLD` `READY` and skips them, skips those in `EXEC`, takes
the first callback or `READY` fiber, and erases the entries of other fibers. Erasing moves the
iterator on, and so does the loop: the entry after an erased one is passed over, and after the last
one the iterator goes past the end, which is undefined (`none`).

* `Scans`: the loop as a relation; the facts about a scan are by induction on it.
* `Scans.perm`, `Scans.state`, `Scans.taken`, `Scans.erased`: where the entries go, and what the
  scan does to the fibers' states.
-/

namespace Ddg

/-- An entry of `m_fibers`. Two values are not in the source: `id` numbers the entries in the order
in which `schedule` accepted them, and `asked` is the thread id that `schedule` was called with. -/
structure Entry (κ : Type) extends FiberAndThread ℕ κ where
  id : ℕ
  asked : ThreadId := 0
  deriving DecidableEq

/-- `Fiber::m_state` of each fiber. -/
abbrev FiberStates := ℕ → FiberState

/-- The fiber can be dispatched by a scan, at once or after it became `READY`. -/
def FiberState.runnable : FiberState → Bool
  | .init | .hold | .ready => true
  | _ => false

/-- A callback, or a `READY` fiber: what a scan takes. -/
def Entry.dispatchable {κ : Type} (e : Entry κ) (state : FiberStates) : Bool :=
  match e.fiber with
  | none => true
  | some f => state f = .ready

/-- What a scan leaves: the entries still queued, those erased, the one taken, the fibers' states
and `tickle_me`. `seen` records the entries up to where the loop stopped, each with whether it was
dispatchable when the loop came to it. -/
structure Scan (κ : Type) where
  rest : List (Entry κ)
  erased : List (Entry κ) := []
  taken : Option (Entry κ) := none
  state : FiberStates
  tickleMe : Bool := false
  seen : List (Entry κ × Bool) := []

namespace Scan

variable {κ : Type}

/-- The entry, dispatchable or not, stays queued. -/
def keep (e : Entry κ) (b : Bool) (r : Scan κ) : Scan κ :=
  { r with rest := e :: r.rest, seen := (e, b) :: r.seen }

/-- The entry is taken. -/
def take (e : Entry κ) (es : List (Entry κ)) (state : FiberStates) : Scan κ :=
  { rest := es, taken := some e, state, tickleMe := true, seen := [(e, true)] }

/-- The entry is erased. -/
def erase (e : Entry κ) (r : Scan κ) : Scan κ :=
  { r with erased := e :: r.erased, seen := (e, false) :: r.seen }

/-- The loop, for the thread `tid`, from the first of the entries on. -/
def scan (tid : ThreadId) : List (Entry κ) → FiberStates → Option (Scan κ)
  | [], state => some { rest := [], state }
  | e :: es, state =>
    if e.thread ≠ 0 ∧ e.thread = tid then
      (scan tid es state).map fun r => { r.keep e (e.dispatchable state) with tickleMe := true }
    else
      match e.fiber with
      | none => some (take e es state)
      | some fiber =>
        match state fiber with
        | .init | .hold => (scan tid es (Function.update state fiber .ready)).map (keep e false)
        | .exec => (scan tid es state).map (keep e false)
        | .ready => some (take e es state)
        | .unknow | .uninit | .term | .except =>
          match es with
          | [] => none
          | passed :: es =>
            (scan tid es state).map fun r => (r.keep passed (passed.dispatchable state)).erase e

/-! ## What a scan does -/

/-- The loop as a relation, one rule for each way that an entry is treated. -/
inductive Scans (tid : ThreadId) : List (Entry κ) → FiberStates → Scan κ → Prop
  | done {state} : Scans tid [] state { rest := [], state }
  | pinned {e es state r} : e.thread ≠ 0 → e.thread = tid → Scans tid es state r →
    Scans tid (e :: es) state { r.keep e (e.dispatchable state) with tickleMe := true }
  | ready {e es state r f} : ¬(e.thread ≠ 0 ∧ e.thread = tid) → e.fiber = some f →
    state f = .init ∨ state f = .hold → Scans tid es (Function.update state f .ready) r →
    Scans tid (e :: es) state (r.keep e false)
  | busy {e es state r f} : ¬(e.thread ≠ 0 ∧ e.thread = tid) → e.fiber = some f →
    state f = .exec → Scans tid es state r → Scans tid (e :: es) state (r.keep e false)
  | take {e es state} : ¬(e.thread ≠ 0 ∧ e.thread = tid) →
    (∀ f, e.fiber = some f → state f = .ready) →
    Scans tid (e :: es) state (take e es state)
  | erase {e passed es state r f} : ¬(e.thread ≠ 0 ∧ e.thread = tid) → e.fiber = some f →
    (state f).runnable = false → state f ≠ .exec → Scans tid es state r →
    Scans tid (e :: passed :: es) state ((r.keep passed (passed.dispatchable state)).erase e)

theorem scans_of_scan {tid : ThreadId} {es : List (Entry κ)} {state : FiberStates} {r : Scan κ}
    (h : scan tid es state = some r) : Scans tid es state r := by
  induction hn : es.length using Nat.strongRecOn generalizing es state r with
  | ind n ih =>
    subst hn
    cases es with
    | nil => cases h; exact .done
    | cons e es =>
      unfold scan at h
      by_cases hp : e.thread ≠ 0 ∧ e.thread = tid
      · rw [if_pos hp] at h
        obtain ⟨r', hr', rfl⟩ := Option.map_eq_some_iff.mp h
        exact .pinned hp.1 hp.2 (ih _ (by simp) hr' rfl)
      · rw [if_neg hp] at h
        cases hf : e.fiber with
        | none =>
          simp only [hf] at h
          cases h
          exact .take hp (by simp [hf])
        | some f =>
          simp only [hf] at h
          cases hs : state f with
          | init =>
            simp only [hs] at h
            obtain ⟨r', hr', rfl⟩ := Option.map_eq_some_iff.mp h
            exact .ready hp hf (.inl hs) (ih _ (by simp) hr' rfl)
          | hold =>
            simp only [hs] at h
            obtain ⟨r', hr', rfl⟩ := Option.map_eq_some_iff.mp h
            exact .ready hp hf (.inr hs) (ih _ (by simp) hr' rfl)
          | exec =>
            simp only [hs] at h
            obtain ⟨r', hr', rfl⟩ := Option.map_eq_some_iff.mp h
            exact .busy hp hf hs (ih _ (by simp) hr' rfl)
          | ready =>
            simp only [hs] at h
            cases h
            exact .take hp fun g hg => by rw [hf] at hg; cases hg; exact hs
          | _ =>
            -- the entry is erased, and the one after it is passed over
            simp only [hs] at h
            cases es with
            | nil => cases h
            | cons passed es =>
              obtain ⟨r', hr', rfl⟩ := Option.map_eq_some_iff.mp h
              exact .erase hp hf (by rw [hs]; rfl) (by rw [hs]; nofun)
                (ih _ (by simp only [List.length_cons]; omega) hr' rfl)

variable {tid : ThreadId} {es : List (Entry κ)} {st : FiberStates} {r : Scan κ}

/-- Each entry is still queued, erased or taken. -/
theorem Scans.perm (h : Scans tid es st r) :
    (r.taken.toList ++ r.erased ++ r.rest).Perm es := by
  induction h with
  | done => exact .refl _
  | pinned _ _ _ ih => exact List.perm_middle.trans (ih.cons _)
  | ready _ _ _ _ ih => exact List.perm_middle.trans (ih.cons _)
  | busy _ _ _ _ ih => exact List.perm_middle.trans (ih.cons _)
  | take => exact .refl _
  | @erase e passed es state r f _ _ _ _ _ ih =>
    show (r.taken.toList ++ e :: r.erased ++ passed :: r.rest).Perm (e :: passed :: es)
    refine List.perm_middle.trans ((List.Perm.cons passed ?_).trans (.swap _ _ _))
    rw [List.append_assoc, List.cons_append]
    refine List.perm_middle.trans (List.Perm.cons e ?_)
    rw [← List.append_assoc]
    exact ih

theorem Scans.rest_sublist (h : Scans tid es st r) : r.rest.Sublist es := by
  induction h with
  | done => exact .refl _
  | pinned _ _ _ ih => exact ih.cons_cons _
  | ready _ _ _ _ ih => exact ih.cons_cons _
  | busy _ _ _ _ ih => exact ih.cons_cons _
  | take => exact List.sublist_cons_self _ _
  | erase _ _ _ _ _ ih => exact (ih.cons_cons _).cons _

/-- A fiber changes its state only from `INIT` or `HOLD` to `READY`, and an entry of it stays
queued. -/
theorem Scans.state (h : Scans tid es st r) (f : ℕ) : r.state f = st f ∨
    ((st f = .init ∨ st f = .hold) ∧ r.state f = .ready ∧
      ∃ e ∈ r.rest, e.fiber = some f) := by
  induction h with
  | done => exact .inl rfl
  | pinned _ _ _ ih =>
    exact ih.imp_right fun ⟨h₁, h₂, e, he, hf⟩ => ⟨h₁, h₂, e, List.mem_cons_of_mem _ he, hf⟩
  | @ready e es state r g _ hg hs _ ih =>
    by_cases hfg : f = g
    · subst hfg
      rw [Function.update_self] at ih
      refine .inr ⟨hs, ?_, e, List.mem_cons_self, hg⟩
      rcases ih with ih | ⟨-, ih, -⟩ <;> exact ih
    · rw [Function.update_of_ne hfg] at ih
      exact ih.imp_right fun ⟨h₁, h₂, e, he, hf⟩ => ⟨h₁, h₂, e, List.mem_cons_of_mem _ he, hf⟩
  | busy _ _ _ _ ih =>
    exact ih.imp_right fun ⟨h₁, h₂, e, he, hf⟩ => ⟨h₁, h₂, e, List.mem_cons_of_mem _ he, hf⟩
  | take => exact .inl rfl
  | erase _ _ _ _ _ ih =>
    exact ih.imp_right fun ⟨h₁, h₂, e, he, hf⟩ => ⟨h₁, h₂, e, List.mem_cons_of_mem _ he, hf⟩

/-- A state that is not `INIT` or `HOLD` stays. -/
theorem Scans.state_eq (h : Scans tid es st r) {f : ℕ} (hi : st f ≠ .init)
    (hh : st f ≠ .hold) : r.state f = st f := by
  rcases h.state f with hs | ⟨hs | hs, -⟩
  · exact hs
  · exact absurd hs hi
  · exact absurd hs hh

/-- A callback or a `READY` fiber is taken, and not an entry for this thread. -/
theorem Scans.taken (h : Scans tid es st r) {e : Entry κ} (he : r.taken = some e) :
    ¬(e.thread ≠ 0 ∧ e.thread = tid) ∧ ∀ f, e.fiber = some f → r.state f = .ready := by
  induction h with
  | done => cases he
  | pinned _ _ _ ih => exact ih he
  | ready _ _ _ _ ih => exact ih he
  | busy _ _ _ _ ih => exact ih he
  | take hp hr => cases he; exact ⟨hp, hr⟩
  | erase _ _ _ _ _ ih => exact ih he

/-- The erased entries are those of fibers that can no longer be run. -/
theorem Scans.erased (h : Scans tid es st r) {e : Entry κ} (he : e ∈ r.erased) :
    ∃ f, e.fiber = some f ∧ r.state f = st f ∧ (st f).runnable = false ∧
      st f ≠ .exec := by
  induction h with
  | done => cases he
  | pinned _ _ _ ih => exact ih he
  | @ready e' es state r g _ hg hs _ ih =>
    obtain ⟨f, hf, hsf, hrun, hexec⟩ := ih he
    by_cases hfg : f = g
    · rw [hfg, Function.update_self] at hrun
      cases hrun
    · rw [Function.update_of_ne hfg] at hsf hrun hexec
      exact ⟨f, hf, hsf, hrun, hexec⟩
  | busy _ _ _ _ ih => exact ih he
  | take => cases he
  | @erase e' passed es state r f hp hf hrun hexec hs ih =>
    rcases List.mem_cons.mp he with rfl | he
    · refine ⟨f, hf, hs.state_eq (fun h => ?_) (fun h => ?_), hrun, hexec⟩ <;>
        · rw [h] at hrun
          cases hrun
    · exact ih he

/-- `l` are the first of the entries, up to the one taken; all of them, if none is. -/
structure UpTo (taken : Option (Entry κ)) (l es : List (Entry κ)) : Prop where
  isPrefix : l <+: es
  all : taken = none → l = es
  last : ∀ e, taken = some e → ∃ pre, l = pre ++ [e]

theorem UpTo.cons {taken : Option (Entry κ)} {l es : List (Entry κ)} (h : UpTo taken l es)
    (e : Entry κ) : UpTo taken (e :: l) (e :: es) where
  isPrefix := (List.prefix_cons_inj e).mpr h.isPrefix
  all ht := congrArg (e :: ·) (h.all ht)
  last e' he := by
    obtain ⟨pre, hpre⟩ := h.last e' he
    exact ⟨e :: pre, congrArg (e :: ·) hpre⟩

/-- What is taken was seen, and was dispatchable. -/
theorem Scans.seen (h : Scans tid es st r) {e : Entry κ} (he : r.taken = some e) :
    (e, true) ∈ r.seen := by
  induction h with
  | done => cases he
  | pinned _ _ _ ih => exact List.mem_cons_of_mem _ (ih he)
  | ready _ _ _ _ ih => exact List.mem_cons_of_mem _ (ih he)
  | busy _ _ _ _ ih => exact List.mem_cons_of_mem _ (ih he)
  | take => cases he; exact List.mem_singleton_self _
  | erase _ _ _ _ _ ih => exact List.mem_cons_of_mem _ (List.mem_cons_of_mem _ (ih he))

theorem Scans.upTo (h : Scans tid es st r) : UpTo r.taken (r.seen.map Prod.fst) es := by
  induction h with
  | done => exact ⟨List.prefix_refl _, fun _ => rfl, nofun⟩
  | pinned _ _ _ ih => exact ih.cons _
  | ready _ _ _ _ ih => exact ih.cons _
  | busy _ _ _ _ ih => exact ih.cons _
  | take =>
    exact ⟨⟨_, rfl⟩, nofun, fun e he => ⟨[], by cases he; rfl⟩⟩
  | erase _ _ _ _ _ ih => exact (ih.cons _).cons _

/-- A scan that takes an entry tickles. -/
theorem Scans.tickleMe (h : Scans tid es st r) (ht : r.taken ≠ none) : r.tickleMe = true := by
  induction h with
  | done => exact absurd rfl ht
  | pinned => rfl
  | ready _ _ _ _ ih => exact ih ht
  | busy _ _ _ _ ih => exact ih ht
  | take => rfl
  | erase _ _ _ _ _ ih => exact ih ht

end Scan
end Ddg
