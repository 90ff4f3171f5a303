import DdgServer.Sched.Entries

/-!
# One worker to a fiber

`Fiber::m_state` is what keeps a fiber from being dispatched twice: a scan skips a fiber in `EXEC`.
The state is `EXEC` from the write in `swapIn` to the write of the yield; before and after these the
worker has the fiber and `m_state` does not tell (`Phase.exposed`).

* `Core.Apart`: the condition that a scan does not dispatch a fiber that is so exposed.
* `Core.Sole`: the invariant of the runs that meet it. At most one worker uses a fiber, the fiber's
  state is the one its worker expects, and a fiber that has finished says so in its state.
* `fibers_exclusive`: no fiber is entered twice, or after it has finished.
* `yieldToReady_races`: without the condition it is.
-/

namespace Ddg

variable {ω κ : Type}

/-- The worker has the fiber, and the fiber's state is not `EXEC` because of it. -/
def Phase.exposed : Phase → Bool
  | .enter | .task | .yield _ | .putBack _ => false
  | _ => true

/-- The context of the fiber is in use: switched to, and not saved again. -/
def Phase.inside : Phase → Bool
  | .task | .yield _ | .leave _ => true
  | _ => false

/-- The worker still reads or writes the fiber. -/
def Phase.uses : Phase → Bool
  | .putBack _ => false
  | _ => true

/-- The fiber of the worker's turn, if the turn is in one of the phases `p`. -/
def Pc.fiberIn (p : Phase → Bool) : Pc κ → Option ℕ
  | .turn ft ph => if p ph then ft.fiber else none
  | _ => none

theorem Pc.fiberIn_eq_some {p : Phase → Bool} {pc : Pc κ} {f : ℕ} :
    pc.fiberIn p = some f ↔ ∃ ft ph, pc = .turn ft ph ∧ p ph = true ∧ ft.fiber = some f := by
  cases pc with
  | turn ft ph => simp [Pc.fiberIn]
  | _ => simp [Pc.fiberIn]

theorem Pc.fiberIn_turn {p : Phase → Bool} {ft : Entry κ} {ph : Phase} (h : p ph = true) :
    (Pc.turn ft ph).fiberIn p = ft.fiber := if_pos h

theorem Pc.fiberIn_of_held {p : Phase → Bool} {pc : Pc κ} (h : pc.held = none) :
    pc.fiberIn p = none := by
  cases pc with
  | turn => cases h
  | _ => rfl

/-- A worker that has no entry before and after, or does not move. -/
theorem Pc.fiberIn_eq {p : Phase → Bool} {pc pc' : Pc κ}
    (h : pc' = pc ∨ (pc.held = none ∧ pc'.held = none)) : pc'.fiberIn p = pc.fiberIn p := by
  rcases h with h | ⟨h, h'⟩
  · rw [h]
  · rw [Pc.fiberIn_of_held h, Pc.fiberIn_of_held h']

/-- What a worker relies on in each phase: the state of its fiber, and whether the fiber has
finished. -/
def Phase.Expects (x : FiberState) (finished : Bool) : Phase → Prop
  | .tickle | .take | .ready | .check | .exec | .park => finished = false
  | .enter | .task | .yield _ => x = .exec ∧ finished = false
  | .leave .ready | .back .ready | .look .ready => x = .ready
  | _ => True

/-- The same for the fiber of the worker. -/
def Pc.Expects (st : FiberStates) (finished : ℕ → Bool) : Pc κ → Prop
  | .turn ft ph => ∀ f, ft.fiber = some f → ph.Expects (st f) (finished f)
  | _ => True

theorem Pc.Expects.of_held {pc : Pc κ} {st : FiberStates} {fin : ℕ → Bool}
    (h : pc.held = none) : pc.Expects st fin := by
  cases pc with
  | turn => cases h
  | _ => trivial

/-- `EXEC` and `READY` stay, and the fiber does not finish: what a worker relies on stays. -/
theorem Phase.Expects.keep {ph : Phase} {x x' : FiberState} {b b' : Bool} (h : ph.Expects x b)
    (hx : x = .exec ∨ x = .ready → x' = x) (hb : b = false → b' = false) : ph.Expects x' b' := by
  cases ph with
  | tickle | take | ready | check | exec | park => exact hb h
  | enter | task | yield => exact ⟨(hx (.inl h.1)).trans h.1, hb h.2⟩
  | leave out | back out | look out =>
    cases out with
    | ready => exact (hx (.inr h)).trans h
    | _ => trivial
  | putBack => trivial

/-- What a step does to the fibers that other workers use. -/
theorem Pc.Expects.keep {pc : Pc κ} {st st' : FiberStates} {fin fin' : ℕ → Bool}
    (h : pc.Expects st fin)
    (hk : ∀ f, pc.fiberIn Phase.uses = some f →
      (st f = .exec ∨ st f = .ready → st' f = st f) ∧ (fin f = false → fin' f = false)) :
    pc.Expects st' fin' := by
  cases pc with
  | turn ft ph =>
    intro f hf
    cases hu : ph.uses with
    | true =>
      obtain ⟨hx, hb⟩ := hk f (by rw [Pc.fiberIn_turn hu, hf])
      exact (h f hf).keep hx hb
    | false =>
      cases ph with
      | putBack => trivial
      | _ => cases hu
  | _ => trivial

namespace Sched

/-- A fiber is entered by one worker at a time, when no context of it is in use, and not after it
has finished. -/
structure Core.Exclusive (c : Core ω κ) : Prop where
  one : ∀ u v f, (c.pc u).fiberIn Phase.inside = some f → (c.pc v).fiberIn Phase.inside = some f →
    u = v
  enter : ∀ w ft f, c.pc w = .turn ft .enter → ft.fiber = some f →
    c.finished f = false ∧ ∀ u, (c.pc u).fiberIn Phase.inside ≠ some f

/-- At most one worker uses a fiber, and finds it in the state it expects. -/
structure Core.Sole (c : Core ω κ) : Prop where
  sole : ∀ u v f, (c.pc u).fiberIn Phase.uses = some f → (c.pc v).fiberIn Phase.uses = some f →
    u = v
  expects : ∀ w, (c.pc w).Expects c.state c.finished
  ended : ∀ f, c.finished f = true → (c.state f).ended = true

theorem Core.Sole.exclusive {c : Core ω κ} (h : c.Sole) : c.Exclusive := by
  have huses : ∀ {pc : Pc κ} {f}, pc.fiberIn Phase.inside = some f →
      pc.fiberIn Phase.uses = some f := by
    intro pc f hpc
    obtain ⟨ft, ph, rfl, hin, hf⟩ := Pc.fiberIn_eq_some.mp hpc
    refine Pc.fiberIn_eq_some.mpr ⟨ft, ph, rfl, ?_, hf⟩
    cases ph with
    | putBack => cases hin
    | _ => rfl
  refine ⟨fun u v f hu hv => h.sole u v f (huses hu) (huses hv), fun w ft f hw hf => ?_⟩
  have he := h.expects w
  rw [hw] at he
  refine ⟨(he f hf).2, fun u hu => ?_⟩
  -- the one worker that uses the fiber is about to enter it
  have huw : u = w := h.sole u w f (huses hu) (by rw [hw, Pc.fiberIn_turn rfl, hf])
  subst huw
  rw [hw] at hu
  cases hu

section Facts

variable {c : Core ω κ}

/-- What the worker of a turn relies on. -/
theorem Core.Sole.turn_expects (h : c.Sole) {w : ω} {ft : Entry κ} {ph : Phase} {f : ℕ}
    (hpc : c.pc w = .turn ft ph) (hf : ft.fiber = some f) :
    ph.Expects (c.state f) (c.finished f) := by
  have := h.expects w
  rw [hpc] at this
  exact this f hf

/-- A fiber that has not ended has not finished. -/
theorem Core.Sole.not_finished (h : c.Sole) {f : ℕ} (hf : (c.state f).ended = false) :
    c.finished f = false := by
  cases hfin : c.finished f with
  | false => rfl
  | true =>
    have := h.ended f hfin
    rw [hf] at this
    cases this

/-- A fiber in use was made. -/
theorem Core.Wf.used_ne_made (hwf : c.Wf) {u : ω} {f : ℕ}
    (hu : (c.pc u).fiberIn Phase.uses = some f) : f ≠ c.made := by
  obtain ⟨ft, ph, hpu, -, hf⟩ := Pc.fiberIn_eq_some.mp hu
  exact (hwf.fiber_lt hpu hf).ne

/-- The state of a new fiber says nothing about those that have finished. -/
theorem Core.Sole.ended_made (h : c.Sole) (hwf : c.Wf) (f : ℕ) (hf : c.finished f = true) :
    ((c.setState c.made .init).state f).ended = true := by
  have hfm : f ≠ c.made := by
    rintro rfl
    rw [hwf.unborn _ (le_refl _)] at hf
    cases hf
  rw [show (c.setState c.made .init).state f = c.state f from Function.update_of_ne hfm ..]
  exact h.ended f hf

/-- A fiber that is reset was not in `EXEC` or `READY`, and has not finished afterwards. -/
theorem Core.Sole.reset (h : c.Sole) {f : ℕ} (hs : (c.state f).ended = true ∨ c.state f = .init) :
    ({ c.setState f .init with finished := Function.update c.finished f false } :
      Core ω κ).Sole := by
  refine ⟨h.sole, fun w => (h.expects w).keep fun g _ => ?_, fun g hg => ?_⟩
  · by_cases hgf : g = f
    · subst hgf
      refine ⟨fun hx => ?_, fun _ => Function.update_self ..⟩
      rcases hx with hx | hx <;> rw [hx] at hs <;> rcases hs with hs | hs <;> cases hs
    · refine ⟨fun _ => Function.update_of_ne hgf .., fun hg => ?_⟩
      exact (Function.update_of_ne hgf ..).trans hg
  · change Function.update c.finished f false g = true at hg
    show (Function.update c.state f .init g).ended = true
    by_cases hgf : g = f
    · rw [hgf, Function.update_self] at hg
      cases hg
    · rw [Function.update_of_ne hgf] at hg ⊢
      exact h.ended g hg

end Facts

section Keep

variable [DecidableEq ω] {c c' : Core ω κ}

/-- Worker `w` goes to `pc`, and the fibers that the others use keep what these rely on. -/
theorem Core.Sole.move (h : c.Sole) {w : ω} {pc : Pc κ} (hpc : c'.pc = Function.update c.pc w pc)
    (hsole : ∀ f, pc.fiberIn Phase.uses = some f →
      ∀ u, u ≠ w → (c.pc u).fiberIn Phase.uses ≠ some f)
    (hown : pc.Expects c'.state c'.finished)
    (hkeep : ∀ u, u ≠ w → ∀ f, (c.pc u).fiberIn Phase.uses = some f →
      (c.state f = .exec ∨ c.state f = .ready → c'.state f = c.state f) ∧
        (c.finished f = false → c'.finished f = false))
    (hend : ∀ f, c'.finished f = true → (c'.state f).ended = true) : c'.Sole where
  sole u v f hu hv := by
    rw [hpc] at hu hv
    by_cases huw : u = w
    · by_cases hvw : v = w
      · rw [huw, hvw]
      · rw [huw, Function.update_self] at hu
        rw [Function.update_of_ne hvw] at hv
        exact absurd hv (hsole f hu v hvw)
    · rw [Function.update_of_ne huw] at hu
      by_cases hvw : v = w
      · rw [hvw, Function.update_self] at hv
        exact absurd hu (hsole f hv u huw)
      · rw [Function.update_of_ne hvw] at hv
        exact h.sole u v f hu hv
  expects u := by
    rw [hpc]
    by_cases huw : u = w
    · rw [huw, Function.update_self]
      exact hown
    · rw [Function.update_of_ne huw]
      exact (h.expects u).keep (hkeep u huw)
  ended := hend

/-- A step in the turn of worker `w` with the fiber `f`, which writes no other fiber's state. -/
theorem Core.Sole.turn (h : c.Sole) {w : ω} {ft : Entry κ} {ph : Phase} {f : ℕ} {pc : Pc κ}
    (hpc : c.pc w = .turn ft ph) (hf : ft.fiber = some f) (hu : ph.uses = true)
    (hpc' : c'.pc = Function.update c.pc w pc)
    (hown : pc.held = none ∨ ∃ ph', pc = .turn ft ph' ∧ ph'.Expects (c'.state f) (c'.finished f))
    (hne : ∀ g, g ≠ f → c'.state g = c.state g ∧ c'.finished g = c.finished g)
    (hend : c'.finished f = true → (c'.state f).ended = true) : c'.Sole := by
  have hw : (c.pc w).fiberIn Phase.uses = some f := by rw [hpc, Pc.fiberIn_turn hu, hf]
  refine h.move hpc' (fun g hg u huw hug => ?_) ?_ (fun u huw g hg => ?_) fun g hg => ?_
  · -- the worker goes on with the same fiber
    rcases hown with hown | ⟨ph', rfl, -⟩
    · rw [Pc.fiberIn_of_held hown] at hg
      cases hg
    · obtain ⟨_, _, he, -, hgf⟩ := Pc.fiberIn_eq_some.mp hg
      cases he
      rw [hf] at hgf
      cases hgf
      exact huw (h.sole u w f hug hw)
  · rcases hown with hown | ⟨ph', rfl, hx⟩
    · exact .of_held hown
    · intro g hg
      rw [hf] at hg
      cases hg
      exact hx
  · have hgf : g ≠ f := by
      rintro rfl
      exact huw (h.sole u w g hg hw)
    rw [(hne g hgf).1, (hne g hgf).2]
    exact ⟨fun _ => rfl, id⟩
  · by_cases hgf : g = f
    · subst hgf
      exact hend hg
    · rw [(hne g hgf).2] at hg
      rw [(hne g hgf).1]
      exact h.ended g hg

/-- A step of a turn that has no effect on the `Core`. -/
theorem Core.Sole.quiet (h : c.Sole) {w : ω} {ft : Entry κ} {f : ℕ} {ph ph' : Phase}
    (hpc : c.pc w = .turn ft ph) (hf : ft.fiber = some f) (hq : Quiet (c.state f) ph ph') :
    (c.goto w (.turn ft ph')).Sole := by
  have hx := h.turn_expects hpc hf
  have hu : ph.uses = true := by cases hq <;> rfl
  refine h.turn hpc hf hu rfl (.inr ⟨ph', rfl, ?_⟩) (fun _ _ => ⟨rfl, rfl⟩) (h.ended f)
  cases hq with
  | take => exact hx
  | check => exact hx
  | enter => exact hx
  | task => exact hx
  | @leave out => cases out <;> exact hx
  | look => trivial
  | park hr he => exact h.not_finished he

/-- The yield writes the state, and whether the fiber has finished. -/
theorem Core.Sole.yield (h : c.Sole) {w : ω} {ft : Entry κ} {f : ℕ} {out : Outcome}
    (hpc : c.pc w = .turn ft (.yield out)) (hf : ft.fiber = some f) (yielded : List (Entry κ)) :
    ({ (c.setState f out.state).goto w (.turn ft (.leave out)) with
        finished := if out.state.ended then Function.update c.finished f true else c.finished
        yielded } : Core ω κ).Sole := by
  have hx : c.state f = .exec ∧ c.finished f = false := h.turn_expects hpc hf
  refine h.turn hpc hf rfl rfl (.inr ⟨_, rfl, ?_⟩) (fun g hg => ?_) fun hfin => ?_
  · cases out with
    | ready => exact Function.update_self ..
    | _ => trivial
  · refine ⟨Function.update_of_ne hg .., ?_⟩
    show (if out.state.ended then Function.update c.finished f true else c.finished) g = _
    split
    · exact Function.update_of_ne hg ..
    · rfl
  · show (Function.update c.state f out.state f).ended = true
    rw [Function.update_self]
    change (if out.state.ended then Function.update c.finished f true else c.finished) f = true
      at hfin
    split at hfin
    · assumption
    · rw [hx.2] at hfin
      cases hfin

/-- A scan leaves every fiber as a worker relies on it. -/
theorem Core.Sole.scanned (h : c.Sole) {tid : ThreadId} {r : Scan κ}
    (hr : Scan.Scans tid c.fibers c.state r) {w : ω} {pc : Pc κ}
    (hpc' : c'.pc = Function.update c.pc w pc) (hst : c'.state = r.state)
    (hfin : c'.finished = c.finished)
    (hsole : ∀ f, pc.fiberIn Phase.uses = some f →
      ∀ u, u ≠ w → (c.pc u).fiberIn Phase.uses ≠ some f)
    (hown : pc.Expects r.state c.finished) : c'.Sole := by
  refine h.move hpc' hsole ?_ (fun u _ f _ => ?_) fun f hf => ?_
  · rw [hst, hfin]
    exact hown
  · rw [hst, hfin]
    exact ⟨fun hx => hr.state_eq (by rcases hx with hx | hx <;> rw [hx] <;> nofun)
      (by rcases hx with hx | hx <;> rw [hx] <;> nofun), id⟩
  · rw [hfin] at hf
    have := h.ended f hf
    rw [hst, hr.state_eq] <;>
      · first
        | exact this
        | intro hx
          rw [hx] at this
          cases this

end Keep

variable [Fintype ω]

/-- A scan does not take a fiber that another worker has exposed. -/
def Core.Apart (cfg : Config ω) (c : Core ω κ) : Label ω κ → Prop
  | .run w => ∀ r ∈ c.scanOf cfg w, ∀ e ∈ r.taken, ∀ f ∈ e.fiber,
      ∀ u, (c.pc u).fiberIn Phase.exposed ≠ some f
  | _ => True

instance (cfg : Config ω) (c : Core ω κ) : ∀ l, Decidable (c.Apart cfg l)
  | .run w => inferInstanceAs (Decidable (∀ r ∈ c.scanOf cfg w, ∀ e ∈ r.taken, ∀ f ∈ e.fiber,
      ∀ u, (c.pc u).fiberIn Phase.exposed ≠ some f))
  | .schedule _ | .tickle | .create | .reset _ | .task .. | .idle .. | .wake .. | .start | .stop
  | .caller _ => .isTrue trivial

section Moves

variable {cfg : Config ω} {l : Label ω κ} {c c' : Core ω κ}

/-- The fiber that a scan dispatches, if the scan keeps apart from the exposed fibers, is used by
no worker and has not finished. -/
theorem Core.Sole.dispatched (h : c.Sole) {w : ω} {r : Scan κ} {ft : Entry κ}
    (hpc : c.pc w = .scan) (hr : Scan.scan (cfg.tid w) c.fibers c.state = some r)
    (ht : r.taken = some ft) (hc : c.Apart cfg (.run w)) {f : ℕ} (hf : ft.fiber = some f) :
    (∀ u, (c.pc u).fiberIn Phase.uses ≠ some f) ∧ c.finished f = false := by
  have hrs := Scan.scans_of_scan hr
  have hready : r.state f = .ready := (hrs.taken ht).2 f hf
  have hst : c.state f ≠ .exec ∧ (c.state f).ended = false := by
    rcases hrs.state f with hs | ⟨hs | hs, -⟩
    · rw [hs] at hready
      rw [hready]
      exact ⟨nofun, rfl⟩
    · rw [hs]
      exact ⟨nofun, rfl⟩
    · rw [hs]
      exact ⟨nofun, rfl⟩
  refine ⟨fun u hu => ?_, ?_⟩
  · obtain ⟨e, ph, hpu, huses, he⟩ := Pc.fiberIn_eq_some.mp hu
    have hexp := hc r (scanOf_eq_some.mpr ⟨hpc, hr⟩) ft ht f hf u
    -- a fiber in use that is not exposed is in `EXEC`
    have hex := h.expects u
    rw [hpu] at hex hexp
    cases ph with
    | enter | task | yield => exact hst.1 (hex f he).1
    | putBack => cases huses
    | _ => exact hexp he
  · exact h.not_finished hst.2

variable [DecidableEq ω]

/-- Each step that meets the condition keeps the invariant. -/
theorem Move.sole (hm : Move cfg c l c') (hc : c.Apart cfg l) (hwf : c.Wf) (h : c.Sole) :
    c'.Sole := by
  cases hm with
  | schedule => exact ⟨h.sole, h.expects, h.ended⟩
  | create =>
    refine ⟨h.sole, fun w => (h.expects w).keep fun f hf => ?_, h.ended_made hwf⟩
    exact ⟨fun _ => Function.update_of_ne (hwf.used_ne_made hf) .., id⟩
  | reset _ hs => exact h.reset hs
  | @take w r ft hpc hr ht =>
    refine h.scanned (Scan.scans_of_scan hr) rfl rfl rfl (fun f hf u _ => ?_) fun f hf => ?_
    · rw [Pc.fiberIn_turn rfl] at hf
      exact (h.dispatched hpc hr ht hc hf).1 u
    · exact (h.dispatched hpc hr ht hc hf).2
  | pass hpc hr ht hq =>
    refine h.scanned (Scan.scans_of_scan hr) rfl rfl rfl (fun f hf => ?_) (.of_held hq)
    rw [Pc.fiberIn_of_held hq] at hf
    cases hf
  | @tickle w ft hpc =>
    cases hf : ft.fiber with
    | some f =>
      have hx := h.turn_expects hpc hf
      exact h.turn hpc hf rfl rfl (.inr ⟨_, rfl, hx⟩) (fun _ _ => ⟨rfl, rfl⟩) (h.ended f)
    | none =>
      refine h.move rfl (fun f hu => ?_) (fun f hu => ?_) (fun _ _ _ _ => ⟨fun _ => rfl, id⟩)
        h.ended
      · rw [Pc.fiberIn_turn rfl, hf] at hu
        cases hu
      · rw [hf] at hu
        cases hu
  | @newFiber w ft hpc hf =>
    refine h.move rfl (fun f hu u _ huf => ?_) (fun f hu => ?_) (fun u _ f hu => ?_)
      (h.ended_made hwf)
    · cases hu
      exact hwf.used_ne_made huf rfl
    · cases hu
      exact hwf.unborn _ (le_refl _)
    · exact ⟨fun _ => Function.update_of_ne (hwf.used_ne_made hu) .., id⟩
  | drop hpc hne => exact absurd hne (hwf.nonempty_ne hpc)
  | quiet _ hpc hf hq => exact h.quiet hpc hf hq
  | @write w ft f ph x ph' hpc hf hw =>
    have hx := h.turn_expects hpc hf
    have hself : ((c.setState f x).goto w (.turn ft ph')).state f = x := Function.update_self ..
    have hu : ph.uses = true := by cases hw <;> rfl
    have hfin : c.finished f = false := by cases hw <;> exact hx
    refine h.turn hpc hf hu rfl (.inr ⟨ph', rfl, ?_⟩)
      (fun g hg => ⟨Function.update_of_ne hg .., rfl⟩) fun hfin' => ?_
    · rw [hself]
      cases hw with
      | ready => exact hfin
      | exec => exact ⟨rfl, hfin⟩
    · rw [show ((c.setState f x).goto w (.turn ft ph')).finished f = c.finished f from rfl,
        hfin] at hfin'
      cases hfin'
  | yield hpc hf => exact h.yield hpc hf _
  | @back w ft f out hpc hf =>
    refine h.turn hpc hf rfl rfl (.inr ⟨_, rfl, ?_⟩) (fun _ _ => ⟨rfl, rfl⟩) (h.ended f)
    have hx := h.turn_expects hpc hf
    cases out with
    | ready => exact hx
    | _ => trivial
  | @retire w ft f out hpc hf hs =>
    exact h.turn hpc hf rfl rfl (.inl rfl) (fun _ _ => ⟨rfl, rfl⟩) (h.ended f)
  | @putBack w ft f out hpc hf =>
    refine h.move rfl (fun f hu => ?_) trivial (fun _ _ _ _ => ⟨fun _ => rfl, id⟩) h.ended
    cases hu
  | @park w ft f hpc hf =>
    have hx : c.finished f = false := h.turn_expects hpc hf
    refine h.turn hpc hf rfl rfl (.inl rfl) (fun g hg => ⟨Function.update_of_ne hg .., rfl⟩)
      fun hfin => ?_
    change c.finished f = true at hfin
    rw [hx] at hfin
    cases hfin
  | @other l pc stopping autoStop hpc =>
    refine ⟨fun u v f hu hv => ?_, fun w => ?_, h.ended⟩
    · rw [show (pc u).fiberIn Phase.uses = _ from Pc.fiberIn_eq (hpc u)] at hu
      rw [show (pc v).fiberIn Phase.uses = _ from Pc.fiberIn_eq (hpc v)] at hv
      exact h.sole u v f hu hv
    · rcases hpc w with hs | ⟨-, hs⟩
      · exact (congrArg (Pc.Expects c.state c.finished) hs).mpr (h.expects w)
      · exact .of_held hs

end Moves

/-! ## Runs -/

section Runs

variable [DecidableEq ω] {cfg : Config ω}

theorem sole_inductive : (sys (κ := κ) cfg).Inductive (fun s l => s.Apart cfg l)
    fun s => s.toCore.Tracked ∧ s.toCore.Sole := by
  refine tracked_inductive.and (fun s hs => ?_) fun s l s' ht h hc hst =>
    (move_of_step hst).sole hc ht.wf h
  rw [show s = {} from hs]
  exact ⟨fun _ _ _ hu => (nomatch hu), fun _ => trivial, fun _ hf => (nomatch hf)⟩

/-- In every run in which no scan dispatches a fiber that another worker has exposed, a fiber is
switched to by one worker at a time, with its context saved, and not after it has finished. -/
theorem fibers_exclusive {s : State ω κ}
    (h : (sys cfg).Reach (fun s l => s.toCore.Apart cfg l) s) : s.Exclusive :=
  (sole_inductive.reach h).2.exclusive

end Runs

/-- Two workers in threads of their own. -/
def twoWorkers : Config (Fin 2) where
  tid w := if w = 0 then 1 else 2

/-- A task that is scheduled again while it runs: the scan of the other worker skips it. -/
theorem fibers_exclusive_rescheduled : ∃ s : State (Fin 2) Unit,
    (s.pc 0).fiberIn Phase.inside = some 0 ∧ s.fibers.map (·.fiber) = [some 0] ∧
      s.pc 1 = .idleInc ∧ s.Exclusive := by
  obtain ⟨s, hs, hp⟩ := Interleave.Sys.exists_of_runBy (S := sys (κ := Unit) twoWorkers)
    (C := fun s l => s.toCore.Apart twoWorkers l) (s := {})
    (List.flatten [[.start, .schedule [{ cb := some () }]], .replicate 7 (.run 0),
      [.schedule [{ fiber := some 0 }], .run 1]])
    (p := fun s => (s.pc 0).fiberIn Phase.inside == some 0 &&
      s.fibers.map (·.fiber) == [some 0] && s.pc 1 == .idleInc) (by decide +kernel)
  simp only [Bool.and_eq_true, beq_iff_eq] at hp
  exact ⟨s, hp.1.1, hp.1.2, hp.2, fibers_exclusive ⟨_, rfl, hs⟩⟩

/-- `YieldToReady` writes `READY` before `swapOut`. The task was scheduled again while it ran, and
the other worker enters its fiber before the first one has left it. -/
theorem yieldToReady_races : ∃ s : State (Fin 2) Unit,
    (sys twoWorkers).Reach Interleave.Sys.free s ∧
      (s.pc 0).fiberIn Phase.inside = some 0 ∧ (s.pc 1).fiberIn Phase.inside = some 0 ∧
      ¬ s.Exclusive := by
  obtain ⟨s, hs, hp⟩ := Interleave.Sys.exists_of_runBy (S := sys (κ := Unit) twoWorkers)
    (C := Interleave.Sys.free) (s := {})
    (List.flatten [[.start, .schedule [{ cb := some () }]], .replicate 7 (.run 0),
      [.schedule [{ fiber := some 0 }], .task 0 .ready, .run 0], .replicate 7 (.run 1)])
    (p := fun s => (s.pc 0).fiberIn Phase.inside == some 0 &&
      (s.pc 1).fiberIn Phase.inside == some 0) (by decide +kernel)
  simp only [Bool.and_eq_true, beq_iff_eq] at hp
  exact ⟨s, ⟨_, rfl, hs⟩, hp.1, hp.2, fun h => absurd (h.one 0 1 0 hp.1 hp.2) (by decide)⟩

end Sched
end Ddg
