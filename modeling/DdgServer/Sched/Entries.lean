import DdgServer.Lib.Pool
import DdgServer.Sched.Moves
import Mathlib.Tactic.LinearCombination

/-!
# Where the entries are

What holds in every run of the scheduler, with no condition on its steps.

- **Well-formed states** (`Core.Wf`): the entries are not empty, their fibers exist, their thread id
  is the one that `schedule` stored, and a retired entry's fiber was in `TERM`, `EXCEPT` or `HOLD`.
- **The pool** (`Core.pool`, `Move.pool`): each step is a move of the pool of the entries' numbers.
- **Runs** (`tracked_inductive`): an accepted entry is always in exactly one place
  (`Core.Tracked.one_place`), and `m_activeThreadCount` is the number of workers between taking an
  entry and the return of its `swapIn` (`Core.Counted`).
-/

namespace Ddg.Sched

variable {ω κ : Type}

/-- The entry is queued or with a worker. -/
def Core.Has (c : Core ω κ) (e : Entry κ) : Prop :=
  e ∈ c.fibers ∨ ∃ w ph, c.pc w = .turn e ph

/-- An accepted entry: it is not empty, its fiber exists, and its thread id went through an
`int`. -/
structure Accepted (made : ℕ) (e : Entry κ) : Prop where
  nonempty : e.nonempty = true
  made : ∀ f, e.fiber = some f → f < made
  thread : e.thread = narrowThread e.asked

theorem Accepted.mono {made made' : ℕ} {e : Entry κ} (h : Accepted made e) (hle : made ≤ made') :
    Accepted made' e :=
  ⟨h.nonempty, fun f hf => (h.made f hf).trans_le hle, h.thread⟩

/-- Well-formed states. -/
structure Core.Wf (c : Core ω κ) : Prop where
  accepted : ∀ e, c.Has e → Accepted c.made e
  born : ∀ f, f < c.made → c.state f ≠ .unknow ∧ c.state f ≠ .uninit
  unborn : ∀ f, c.made ≤ f → c.finished f = false
  retired : ∀ x ∈ c.retired, x.2.ended = true ∨ x.2 = .hold

variable {c c' : Core ω κ}

theorem Has.of_turn {w : ω} {ft : Entry κ} {ph : Phase} (h : c.pc w = .turn ft ph) : c.Has ft :=
  .inr ⟨w, ph, h⟩

theorem Core.Wf.fiber_lt (h : c.Wf) {w : ω} {ft : Entry κ} {ph : Phase} {f : ℕ}
    (hpc : c.pc w = .turn ft ph) (hf : ft.fiber = some f) : f < c.made :=
  (h.accepted ft (Has.of_turn hpc)).made f hf

/-- No worker drops the entry it has taken. -/
theorem Core.Wf.nonempty_ne (h : c.Wf) {w : ω} {ft : Entry κ} {ph : Phase}
    (hpc : c.pc w = .turn ft ph) : ft.nonempty ≠ false := by
  rw [(h.accepted ft (Has.of_turn hpc)).nonempty]
  nofun

/-- A step that makes no fiber and brings no entry. -/
theorem Core.Wf.keep (h : c.Wf) (hmade : c'.made = c.made) (hhas : ∀ e, c'.Has e → c.Has e)
    (hstate : ∀ f, c'.state f = c.state f ∨ (c'.state f ≠ .unknow ∧ c'.state f ≠ .uninit))
    (hfin : ∀ f, c.made ≤ f → c'.finished f = c.finished f)
    (hret : ∀ x ∈ c'.retired, x ∈ c.retired ∨ x.2.ended = true ∨ x.2 = .hold) : c'.Wf where
  accepted e he := by
    rw [hmade]
    exact h.accepted e (hhas e he)
  born f hf := by
    rcases hstate f with hs | hs
    · rw [hs]
      exact h.born f (hmade ▸ hf)
    · exact hs
  unborn f hf := by
    rw [hmade] at hf
    rw [hfin f hf]
    exact h.unborn f hf
  retired x hx := (hret x hx).elim (h.retired x) id

theorem update_state (st : FiberStates) {f : ℕ} {x : FiberState} (hx : x ≠ .unknow ∧ x ≠ .uninit)
    (g : ℕ) : Function.update st f x g = st g ∨
      (Function.update st f x g ≠ .unknow ∧ Function.update st f x g ≠ .uninit) := by
  by_cases hg : g = f
  · subst hg
    rw [Function.update_self]
    exact .inr hx
  · exact .inl (Function.update_of_ne hg ..)

/-- The entries and states after a scan. -/
theorem Core.Wf.scanned (h : c.Wf) {tid : ThreadId} {r : Scan κ}
    (hr : Scan.Scans tid c.fibers c.state r) : (c.scanned r).Wf := by
  refine h.keep rfl (fun e he => he.imp_left fun he => hr.rest_sublist.subset he) (fun f => ?_)
    (fun _ _ => rfl) fun x hx => ?_
  · rcases hr.state f with hs | ⟨-, hs, -⟩
    · exact .inl hs
    · exact .inr (by rw [show (c.scanned r).state f = .ready from hs]; exact ⟨nofun, nofun⟩)
  · rcases List.mem_append.mp hx with hx | hx
    · exact .inl hx
    · obtain ⟨e, he, rfl⟩ := List.mem_map.mp hx
      obtain ⟨f, hf, hs, hrun, hexec⟩ := hr.erased he
      have hmem : e ∈ c.fibers := hr.perm.subset (by simp [he])
      have hborn := h.born f ((h.accepted e (.inl hmem)).made f hf)
      refine .inr (.inl ?_)
      show ((e.fiber.map r.state).getD .uninit).ended = true
      rw [hf, Option.map_some, Option.getD_some, hs]
      cases hx : c.state f <;> simp_all [FiberState.runnable, FiberState.ended]

/-- `fiber->setState(x)` for a state that a fiber can have. -/
theorem Core.Wf.setState (h : c.Wf) {f : ℕ} {x : FiberState} (hx : x ≠ .unknow ∧ x ≠ .uninit) :
    (c.setState f x).Wf :=
  h.keep rfl (fun _ he => he) (update_state _ hx) (fun _ _ => rfl) fun _ hx => .inl hx

/-- A new fiber. -/
theorem Core.Wf.newFiber (h : c.Wf) :
    Core.Wf { c.setState c.made .init with made := c.made + 1 } where
  accepted e he := (h.accepted e he).mono (Nat.le_succ _)
  born f hf := by
    rcases update_state c.state (f := c.made) (x := .init) ⟨nofun, nofun⟩ f with hs | hs
    · by_cases hfm : f = c.made
      · subst hfm
        rw [Function.update_self] at hs
        simp [Core.setState]
      · have hlt : f < c.made := Nat.lt_of_le_of_ne (Nat.lt_succ_iff.mp hf) hfm
        simpa only [Core.setState, hs] using h.born f hlt
    · exact hs
  unborn f hf := h.unborn f (Nat.le_of_succ_le hf)
  retired := h.retired

theorem wf_init : ({} : Core ω κ).Wf where
  accepted e he := by rcases he with he | ⟨w, ph, he⟩ <;> cases he
  born _ hf := absurd hf (Nat.not_lt_zero _)
  unborn _ _ := rfl
  retired _ hx := by cases hx

variable [DecidableEq ω]

theorem goto_turn {c : Core ω κ} {w u : ω} {pc : Pc κ} {e : Entry κ} {ph : Phase}
    (h : (c.goto w pc).pc u = .turn e ph) :
    (u = w ∧ pc = .turn e ph) ∨ (u ≠ w ∧ c.pc u = .turn e ph) :=
  Interleave.update_cases h

/-- The entries after worker `w` went to `pc`, in a state with the same queue. -/
theorem Has.of_goto {w : ω} {pc : Pc κ} {e : Entry κ}
    (h : (c.goto w pc).Has e) : c.Has e ∨ ∃ ph, pc = .turn e ph := by
  rcases h with h | ⟨u, ph, h⟩
  · exact .inl (.inl h)
  · rcases goto_turn h with ⟨-, h⟩ | ⟨-, h⟩
    · exact .inr ⟨ph, h⟩
    · exact .inl (.inr ⟨u, ph, h⟩)

/-- Worker `w` takes an entry that the state has, or has it in its hands. -/
theorem Core.Wf.goto (h : c.Wf) {w : ω} (pc : Pc κ)
    (hpc : ∀ e ph, pc = .turn e ph → Accepted c.made e) : (c.goto w pc).Wf where
  accepted e he := by
    rcases Has.of_goto he with he | ⟨ph, he⟩
    · exact h.accepted e he
    · exact hpc e ph he
  born := h.born
  unborn := h.unborn
  retired := h.retired

section Moves

variable [Fintype ω] {cfg : Config ω} {l : Label ω κ}

/-- Each step keeps well-formed states well-formed. -/
theorem Move.wf (hm : Move cfg c l c') (h : c.Wf) : c'.Wf := by
  have hturn : ∀ {w ft ph}, c.pc w = .turn ft ph → Accepted c.made ft := fun hpc =>
    h.accepted _ (Has.of_turn hpc)
  have hsame : ∀ {w ft ph} ph', c.pc w = .turn ft ph → ∀ e ph₁,
      Pc.turn ft ph' = .turn e ph₁ → Accepted c.made e := by
    rintro w ft ph ph' hpc e ph₁ ⟨⟩
    exact hturn hpc
  cases hm with
  | @schedule items new hid hne hmade hthr =>
    refine ⟨fun e he => ?_, h.born, h.unborn, h.retired⟩
    rcases he with he | he
    · rcases List.mem_append.mp he with he | he
      · exact h.accepted e (.inl he)
      · exact ⟨hne e he, hmade e he, hthr e he⟩
    · exact h.accepted e (.inr he)
  | create => exact h.newFiber
  | @reset f hf hs =>
    refine (h.setState (f := f) (x := .init) ⟨nofun, nofun⟩).keep rfl (fun _ he => he)
      (fun _ => .inl rfl) (fun g hg => ?_) fun _ hx => .inl hx
    exact Function.update_of_ne (hf.trans_le hg).ne' ..
  | @take w r ft hpc hr ht =>
    replace hr := Scan.scans_of_scan hr
    have hft : ft ∈ c.fibers := hr.perm.subset (by simp [ht])
    have hacc : Accepted c.made ft := h.accepted ft (.inl hft)
    exact ((h.scanned hr).goto (w := w) (.turn ft .tickle) (by
      rintro e ph ⟨⟩
      exact hacc)).keep rfl (fun _ he => he) (fun _ => .inl rfl) (fun _ _ => rfl)
        fun _ hx => .inl hx
  | pass hpc hr ht hq =>
    refine (h.scanned (Scan.scans_of_scan hr)).goto _ fun e ph he => ?_
    rw [he] at hq
    cases hq
  | tickle hpc => exact h.goto _ (hsame _ hpc)
  | @newFiber w ft hpc hf =>
    have hacc := hturn hpc
    refine (h.newFiber.goto (w := w)
      (.turn { ft with fiber := some c.made, cb := none } .ready) ?_)
    rintro e ph ⟨⟩
    refine ⟨rfl, ?_, hacc.thread⟩
    rintro f ⟨⟩
    exact Nat.lt_succ_self _
  | drop hpc hne =>
    exact (h.goto .scan nofun).keep rfl (fun _ he => he) (fun _ => .inl rfl)
      (fun _ _ => rfl) fun _ hx => .inl hx
  | quiet hl hpc hf hq => exact h.goto _ (hsame _ hpc)
  | @write w ft f ph x ph' hpc hf hw =>
    refine (h.setState (f := f) (x := x) ?_).goto _ (hsame _ hpc)
    cases hw <;> exact ⟨nofun, nofun⟩
  | @yield w ft f out hpc hf =>
    have hx : out.state ≠ .unknow ∧ out.state ≠ .uninit := by cases out <;> exact ⟨nofun, nofun⟩
    refine ((h.setState (f := f) hx).goto (w := w) _ (hsame (.leave out) hpc)).keep rfl
      (fun _ he => he) (fun _ => .inl rfl) (fun g hg => ?_) fun _ hx => .inl hx
    show (if out.state.ended then Function.update c.finished f true else c.finished) g =
      c.finished g
    split
    · exact Function.update_of_ne ((h.fiber_lt hpc hf).trans_le hg).ne' ..
    · rfl
  | back hpc hf =>
    exact (h.goto _ (hsame _ hpc)).keep rfl (fun _ he => he) (fun _ => .inl rfl) (fun _ _ => rfl)
      fun _ hx => .inl hx
  | retire hpc hf hs =>
    refine (h.goto .scan nofun).keep rfl (fun _ he => he) (fun _ => .inl rfl)
      (fun _ _ => rfl) fun x hx => ?_
    rcases List.mem_append.mp hx with hx | hx
    · exact .inl hx
    · rw [List.mem_singleton.mp hx]
      exact .inr (.inl hs)
  | @putBack w ft f out hpc hf =>
    refine h.keep rfl (fun e he => ?_) (fun _ => .inl rfl) (fun _ _ => rfl) fun _ hx => .inl hx
    rcases he with he | ⟨u, ph, hu⟩
    · rcases List.mem_append.mp he with he | he
      · exact .inl he
      · rw [List.mem_singleton.mp he]
        exact Has.of_turn hpc
    · rcases goto_turn hu with ⟨-, hu⟩ | ⟨-, hu⟩
      · cases hu
      · exact Has.of_turn hu
  | @park w ft f hpc hf =>
    refine ((h.setState (f := f) (x := .hold) ⟨nofun, nofun⟩).goto (w := w) .scan
      nofun).keep rfl (fun _ he => he) (fun _ => .inl rfl) (fun _ _ => rfl) fun x hx => ?_
    rcases List.mem_append.mp hx with hx | hx
    · exact .inl hx
    · rw [List.mem_singleton.mp hx]
      exact .inr (.inr rfl)
  | @other l pc stopping autoStop hpc =>
    refine h.keep rfl (fun e he => ?_) (fun _ => .inl rfl) (fun _ _ => rfl) fun _ hx => .inl hx
    refine he.imp_right fun ⟨w, ph, hw⟩ => ⟨w, ph, ?_⟩
    rcases hpc w with hs | ⟨-, hs⟩
    · exact hs ▸ hw
    · rw [show pc w = .turn e ph from hw] at hs
      cases hs

/-! ## The pool -/

/-- The number of the entry that a worker has. -/
def heldId (pc : Pc κ) : Option ℕ := pc.held.map fun x => x.1.id

/-- The entries by their numbers: queued, with the workers, and retired. -/
def Core.pool (c : Core ω κ) : Interleave.Pool ω ℕ where
  queue := c.fibers.map Entry.id
  held := heldId ∘ c.pc
  done := c.retired.map fun x => x.1.id

omit [Fintype ω] in
/-- A worker that goes on with the same entry, or without one. -/
theorem pool_goto {w : ω} (pc : Pc κ) (h : heldId pc = heldId (c.pc w)) :
    (c.goto w pc).pool = c.pool := by
  unfold Core.pool
  rw [show (c.goto w pc).pc = Function.update c.pc w pc from rfl, Function.comp_update, h,
    show heldId (c.pc w) = (heldId ∘ c.pc) w from rfl, Function.update_eq_self]
  rfl

omit [Fintype ω] [DecidableEq ω] in
theorem pool_held {w : ω} {ft : Entry κ} {ph : Phase} (hpc : c.pc w = .turn ft ph) :
    c.pool.held w = some ft.id := by
  show heldId (c.pc w) = some ft.id
  rw [hpc]
  rfl

omit [Fintype ω] [DecidableEq ω] in
/-- The entries that a scan erases are done. -/
theorem pool_done_scanned (c : Core ω κ) (r : Scan κ) :
    c.pool.done ++ r.erased.map Entry.id = (c.scanned r).pool.done := by
  simp [Core.pool, Core.scanned, Function.comp_def]

omit [Fintype ω] in
theorem held_goto (c : Core ω κ) (w : ω) (pc : Pc κ) :
    heldId ∘ (c.goto w pc).pc = Function.update (heldId ∘ c.pc) w (heldId pc) :=
  Function.comp_update ..

omit [Fintype ω] in
/-- A worker is done with its entry. -/
theorem pool_finish {w : ω} {ft : Entry κ} {ph : Phase} (hpc : c.pc w = .turn ft ph)
    (x : FiberState) :
    c.pool.Move [] ({ c.goto w .scan with retired := c.retired ++ [(ft, x)] } : Core ω κ).pool := by
  have := Interleave.Pool.Move.finish (p := c.pool) (pool_held hpc)
  show c.pool.Move [] ⟨_, heldId ∘ (c.goto w .scan).pc,
    (c.retired ++ [(ft, x)]).map fun x => x.1.id⟩
  rw [held_goto, List.map_append]
  exact this

omit [Fintype ω] in
/-- A worker puts its entry back. -/
theorem pool_putBack {w : ω} {ft : Entry κ} {ph : Phase} (hpc : c.pc w = .turn ft ph) :
    c.pool.Move [] ({ c.goto w .putTickle with fibers := c.fibers ++ [ft] } : Core ω κ).pool := by
  have := Interleave.Pool.Move.putBack (p := c.pool) (pool_held hpc)
  show c.pool.Move [] ⟨(c.fibers ++ [ft]).map Entry.id, heldId ∘ (c.goto w .putTickle).pc, _⟩
  rw [held_goto, List.map_append]
  exact this

/-- Each step is a move of the pool, which adds the numbers of the entries that it accepts. -/
theorem Move.pool (hm : Move cfg c l c') (h : c.Wf) : ∃ k, c'.entries = c.entries + k ∧
    c.pool.Move (List.range' c.entries k) c'.pool := by
  have hstay : ∀ {c' : Core ω κ}, c'.entries = c.entries → c'.pool = c.pool →
      ∃ k, c'.entries = c.entries + k ∧ c.pool.Move (List.range' c.entries k) c'.pool := by
    intro c' he hp
    rw [hp]
    exact ⟨0, he, .stay⟩
  cases hm with
  | @schedule items new hid hne hmade hthr =>
    refine ⟨new.length, rfl, ?_⟩
    rw [← hid]
    have := Interleave.Pool.Move.add (p := c.pool) (new.map Entry.id)
    rwa [show c.pool.queue ++ new.map Entry.id = (c.fibers ++ new).map Entry.id from
      List.map_append.symm] at this
  | create => exact hstay rfl rfl
  | reset => exact hstay rfl rfl
  | @take w r ft hpc hr ht =>
    refine ⟨0, rfl, ?_⟩
    have hq : (ft.id :: r.erased.map Entry.id ++ r.rest.map Entry.id).Perm
        (c.fibers.map Entry.id) := by
      have := (Scan.scans_of_scan hr).perm.map Entry.id
      rwa [ht, Option.toList_some, List.singleton_append, List.map_append, List.map_cons] at this
    have hw : c.pool.held w = none := by
      show heldId (c.pc w) = none
      rw [hpc]
      rfl
    have := Interleave.Pool.Move.take (p := c.pool) hw hq
    rw [pool_done_scanned] at this
    show c.pool.Move [] ⟨_, heldId ∘ ((c.scanned r).goto w _).pc, _⟩
    rw [held_goto]
    exact this
  | @pass w r pc hpc hr ht hq =>
    refine ⟨0, rfl, ?_⟩
    have hperm : (r.erased.map Entry.id ++ r.rest.map Entry.id).Perm (c.fibers.map Entry.id) := by
      have := (Scan.scans_of_scan hr).perm.map Entry.id
      rwa [ht, Option.toList_none, List.nil_append, List.map_append] at this
    have := Interleave.Pool.Move.sweep (p := c.pool) hperm
    rw [pool_done_scanned] at this
    rw [pool_goto (c := c.scanned r) _ (by
      show heldId pc = heldId (c.pc w)
      rw [hpc, heldId, hq]
      rfl)]
    exact this
  | tickle hpc => exact hstay rfl (pool_goto _ (by rw [hpc]; rfl))
  | newFiber hpc hf =>
    exact hstay rfl (pool_goto (c := c.setState c.made .init) _ (by
      rw [show (c.setState c.made .init).pc = c.pc from rfl, hpc]
      rfl))
  | drop hpc hne => exact absurd hne (h.nonempty_ne hpc)
  | quiet hl hpc hf hq => exact hstay rfl (pool_goto _ (by rw [hpc]; rfl))
  | @write w ft f ph x ph' hpc hf hw =>
    exact hstay rfl (pool_goto (c := c.setState f x) _ (by
      rw [show (c.setState f x).pc = c.pc from rfl, hpc]
      rfl))
  | @yield w ft f out hpc hf =>
    exact hstay rfl (pool_goto (c := c.setState f out.state) _ (by
      rw [show (c.setState f out.state).pc = c.pc from rfl, hpc]
      rfl))
  | @back w ft f out hpc hf =>
    exact hstay rfl (pool_goto (.turn ft (.look out)) (by rw [hpc]; rfl))
  | retire hpc hf hs => exact ⟨0, rfl, pool_finish hpc _⟩
  | putBack hpc hf => exact ⟨0, rfl, pool_putBack hpc⟩
  | park hpc hf => exact ⟨0, rfl, pool_finish hpc _⟩
  | @other l pc stopping autoStop hpc =>
    refine hstay rfl ?_
    have : heldId ∘ pc = heldId ∘ c.pc := by
      funext w
      rcases hpc w with hs | ⟨hs, hs'⟩
      · rw [Function.comp_apply, Function.comp_apply, hs]
      · rw [Function.comp_apply, Function.comp_apply, heldId, heldId, hs, hs']
    show Interleave.Pool.mk _ (heldId ∘ pc) _ = _
    rw [this]
    rfl

/-! ## The active workers -/

/-- `m_activeThreadCount` is the number of the workers that have taken an entry and whose
decrement is to come. -/
def Core.Counted (c : Core ω κ) : Prop :=
  c.activeThreadCount = ((∑ w, (c.pc w).counted : ℕ) : BitVec 64)

theorem counted_goto (c : Core ω κ) (w : ω) (pc : Pc κ) :
    ∑ u, ((c.goto w pc).pc u).counted + (c.pc w).counted = ∑ u, (c.pc u).counted + pc.counted :=
  Interleave.sum_update Pc.counted c.pc w pc

/-- A step of worker `w` that changes the counter as it changes whether `w` is counted. -/
theorem Core.Counted.goto (h : c.Counted) {w : ω} {pc : Pc κ} {n : BitVec 64}
    (hn : n + ((c.pc w).counted : BitVec 64) = c.activeThreadCount + (pc.counted : BitVec 64)) :
    n = ((∑ u, ((c.goto w pc).pc u).counted : ℕ) : BitVec 64) := by
  have hs := congrArg (Nat.cast (R := BitVec 64)) (counted_goto c w pc)
  rw [Nat.cast_add, Nat.cast_add] at hs
  unfold Core.Counted at h
  linear_combination hn - hs + h

/-- Each step keeps the counter exact. -/
theorem Move.counted (hm : Move cfg c l c') (h : c.Counted) : c'.Counted := by
  cases hm with
  | schedule => exact h
  | create => exact h
  | reset => exact h
  | take hpc hr ht =>
    exact h.goto (by rw [hpc]; exact add_zero _)
  | @pass w r pc hpc hr ht hq =>
    refine h.goto (by rw [hpc, Pc.counted_of_held hq]; rfl)
  | tickle hpc => exact h.goto (by rw [hpc]; rfl)
  | newFiber hpc hf => exact h.goto (by rw [hpc]; rfl)
  | drop hpc hne =>
    exact h.goto (by rw [hpc]; exact (sub_add_cancel _ _).trans (add_zero _).symm)
  | quiet hl hpc hf hq =>
    refine h.goto (by rw [hpc]; cases hq <;> rfl)
  | write hpc hf hw =>
    refine h.goto (by rw [hpc]; cases hw <;> rfl)
  | yield hpc hf => exact h.goto (by rw [hpc]; rfl)
  | back hpc hf =>
    exact h.goto (by rw [hpc]; exact (sub_add_cancel _ _).trans (add_zero _).symm)
  | retire hpc hf hs => exact h.goto (by rw [hpc]; rfl)
  | putBack hpc hf => exact h.goto (by rw [hpc]; rfl)
  | park hpc hf => exact h.goto (by rw [hpc]; rfl)
  | @other l pc stopping autoStop hpc =>
    have : ∀ w, (pc w).counted = (c.pc w).counted := by
      intro w
      rcases hpc w with hs | ⟨hs, hs'⟩
      · rw [hs]
      · rw [Pc.counted_of_held hs, Pc.counted_of_held hs']
    show c.activeThreadCount = ((∑ w, (pc w).counted : ℕ) : BitVec 64)
    rw [Finset.sum_congr rfl fun w _ => this w]
    exact h

omit [DecidableEq ω] in
/-- The counter does not wrap: there are fewer workers than a `size_t` can count. -/
theorem Core.Counted.toNat (cfg : Config ω) (h : c.Counted) :
    c.activeThreadCount.toNat = ∑ w, (c.pc w).counted := by
  have hle : ∑ w, (c.pc w).counted ≤ Fintype.card ω :=
    Interleave.sum_le_card fun w => Pc.counted_le_one _
  have := cfg.threads.2
  rw [h, BitVec.natCast_eq_ofNat, BitVec.toNat_ofNat]
  exact Nat.mod_eq_of_lt (by omega)

end Moves

/-! ## Runs -/

section Runs

variable [Fintype ω] {cfg : Config ω} {C : State ω κ → Label ω κ → Prop} {s : State ω κ}

/-- An invariant of the `Core` that every move keeps. -/
theorem inductive_of_move {I : Core ω κ → Prop} (h₀ : I {})
    (hI : ∀ c l c', Move cfg c l c' → I c → I c') :
    (sys (κ := κ) cfg).Inductive C fun s => I s.toCore where
  init s hs := by
    rw [show s = {} from hs]
    exact h₀
  step s l s' hi _ hst := hI _ l _ (move_of_step hst) hi

/-- In every reachable state the entries are well-formed, each is where it should be, and the
counter is exact. -/
structure Core.Tracked (c : Core ω κ) : Prop where
  wf : c.Wf
  places : ∀ n, c.pool.places n = if n < c.entries then 1 else 0
  counted : c.Counted

theorem tracked_inductive : (sys (κ := κ) cfg).Inductive C fun s => s.toCore.Tracked := by
  refine inductive_of_move ⟨wf_init, fun n => ?_, ?_⟩ fun c l c' hm h => ?_
  · show (0 : ℕ) + ∑ _w : ω, 0 + 0 = _
    simp
  · show (0 : BitVec 64) = ((∑ _w : ω, 0 : ℕ) : BitVec 64)
    simp
  · obtain ⟨k, hk, hp⟩ := hm.pool h.wf
    refine ⟨hm.wf h.wf, fun n => ?_, hm.counted h.counted⟩
    have hcount : (List.range' c.entries k).count n =
        if c.entries ≤ n ∧ n < c.entries + k then 1 else 0 := by
      split
      · rename_i hn
        exact List.count_eq_one_of_mem (List.nodup_range') (List.mem_range'_1.mpr hn)
      · rename_i hn
        exact List.count_eq_zero_of_not_mem fun hm => hn (List.mem_range'_1.mp hm)
    rw [hp.places n, h.places n, hcount, hk]
    by_cases h₁ : n < c.entries
    · rw [if_pos h₁, if_neg (by omega), if_pos (by omega)]
    · by_cases h₂ : n < c.entries + k
      · rw [if_neg h₁, if_pos (by omega), if_pos h₂]
      · rw [if_neg h₁, if_neg (by omega), if_neg h₂]

omit [DecidableEq ω] in
/-- An accepted entry is in one place: queued once, with exactly one worker, or retired once. -/
theorem Core.Tracked.one_place {c : Core ω κ} (h : c.Tracked) {n : ℕ} (hn : n < c.entries) :
    ((c.fibers.map Entry.id).count n = 1 ∧ (∀ w, heldId (c.pc w) ≠ some n) ∧
        (c.retired.map fun x => x.1.id).count n = 0) ∨
      ((c.fibers.map Entry.id).count n = 0 ∧ (∃! w, heldId (c.pc w) = some n) ∧
        (c.retired.map fun x => x.1.id).count n = 0) ∨
      ((c.fibers.map Entry.id).count n = 0 ∧ (∀ w, heldId (c.pc w) ≠ some n) ∧
        (c.retired.map fun x => x.1.id).count n = 1) :=
  Interleave.Pool.eq_one (p := c.pool) ((h.places n).trans (if_pos hn))

end Runs

end Ddg.Sched
