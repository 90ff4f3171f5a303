import DdgServer.Sched.Exclusive

/-!
# What a fiber's state says about its stack

`Fiber::~Fiber` asserts `INIT`, `TERM` or `EXCEPT`. A fiber that was entered and has not ended is
suspended on its own stack or runs; it must be in none of these states, and every other fiber has to
come to one of them before nobody has it any more.

* `Core.Kept c entered`: that invariant, for the fibers that were entered since they were
  constructed or reset.
* `Move.kept`: a step keeps it, if no worker writes `HOLD` into a fiber that has ended, and nobody
  resets a fiber that a worker has. `Core.Kept.enters` is the step that enters a fiber.
-/

namespace Ddg

variable {ω κ : Type}

/-- The worker has the fiber and has not switched to it yet. -/
def Phase.before : Phase → Bool
  | .tickle | .take | .ready | .check | .exec | .enter => true
  | _ => false

/-- The worker has switched to the fiber. -/
def Phase.behind (ph : Phase) : Bool := !ph.before

/-- The fiber's code runs, up to the write of its new state. -/
def Phase.running : Phase → Bool
  | .task | .yield _ => true
  | _ => false

theorem Phase.behind_of_running {ph : Phase} (h : ph.running = true) : ph.behind = true := by
  cases ph <;> first | rfl | cases h

theorem Phase.inside_of_running {ph : Phase} (h : ph.running = true) : ph.inside = true := by
  cases ph <;> first | rfl | cases h

/-- The fiber of the worker's turn. -/
def Pc.turnFiber (pc : Pc κ) : Option ℕ := pc.held.bind fun x => x.1.fiber

theorem Pc.turnFiber_of_fiberIn {p : Phase → Bool} {pc : Pc κ} {f : ℕ} (h : pc.fiberIn p = some f) :
    pc.turnFiber = some f := by
  obtain ⟨ft, ph, rfl, -, hf⟩ := fiberIn_eq_some.mp h
  exact hf

theorem Pc.fiberIn_mono {p q : Phase → Bool} (hpq : ∀ ph, p ph = true → q ph = true) {pc : Pc κ}
    {f : ℕ} (h : pc.fiberIn p = some f) : pc.fiberIn q = some f := by
  obtain ⟨ft, ph, rfl, hp, hf⟩ := fiberIn_eq_some.mp h
  exact fiberIn_eq_some.mpr ⟨ft, ph, rfl, hpq ph hp, hf⟩

/-- The state of a fiber that runs or is suspended on its stack. -/
def FiberState.suspended : FiberState → Bool
  | .ready | .hold | .exec => true
  | _ => false

/-- The state of a fiber that is about to be entered. -/
def FiberState.chosen : FiberState → Bool
  | .ready | .exec => true
  | _ => false

theorem FiberState.not_chosen {x : FiberState} (hr : x.runnable = false) (he : x ≠ .exec) :
    x.chosen = false := by
  cases x <;> first | rfl | exact absurd rfl he | cases hr

theorem FiberState.suspended_of_chosen {x : FiberState} (h : x.chosen = true) :
    x.suspended = true := by
  cases x <;> first | rfl | cases h

namespace Sched

/-- An entry of the fiber is queued. -/
def Core.queues (c : Core ω κ) (f : ℕ) : Bool := c.fibers.any fun e => e.fiber == some f

theorem Core.queues_eq_true {c : Core ω κ} {f : ℕ} :
    c.queues f = true ↔ ∃ e ∈ c.fibers, e.fiber = some f := by
  simp only [Core.queues, List.any_eq_true, beq_iff_eq]

/-- Some worker has the fiber and will enter it. -/
def Core.Held (c : Core ω κ) (f : ℕ) : Prop := ∃ w, (c.pc w).fiberIn Phase.before = some f

/-- How the states of the fibers go with their stacks; `entered` are the fibers that were entered
since they were constructed or reset. -/
structure Core.Kept (c : Core ω κ) (entered : ℕ → Bool) : Prop where
  made : ∀ f, entered f = true → f < c.made
  finished : ∀ f, c.finished f = true → entered f = true
  suspended : ∀ f, entered f = true → c.finished f = false → (c.state f).suspended = true
  fresh : ∀ f, f < c.made → entered f = false →
    c.state f = .init ∨ ((c.state f).chosen = true ∧ (c.queues f = true ∨ c.Held f))
  ended : ∀ f, c.finished f = true → (c.state f).ended = true ∨ c.Held f
  enter : ∀ w ft f, c.pc w = .turn ft .enter → ft.fiber = some f → entered f = false →
    c.state f ≠ .init
  behind : ∀ w f, (c.pc w).fiberIn Phase.behind = some f → entered f = true
  running : ∀ w f, (c.pc w).fiberIn Phase.running = some f → c.finished f = false
  sole : ∀ u v f, (c.pc u).fiberIn Phase.running = some f →
    (c.pc v).fiberIn Phase.running = some f → u = v

variable {c c' : Core ω κ} {entered entered' : ℕ → Bool}

/-- A step that writes no fiber's state and takes no fiber from where it is. -/
theorem Core.Kept.stay (h : c.Kept entered) (hmade : c'.made = c.made) (hstate : c'.state = c.state)
    (hfin : c'.finished = c.finished) (hq : ∀ f, c.queues f = true → c'.queues f = true)
    (henter : ∀ w ft, c'.pc w = .turn ft .enter → c.pc w = .turn ft .enter)
    (hbefore : ∀ w f, (c.pc w).fiberIn Phase.before = some f →
      (c'.pc w).fiberIn Phase.before = some f)
    (hbehind : ∀ w f, (c'.pc w).fiberIn Phase.behind = some f →
      (c.pc w).fiberIn Phase.behind = some f)
    (hrun : ∀ w, (c'.pc w).fiberIn Phase.running = (c.pc w).fiberIn Phase.running) :
    c'.Kept entered := by
  have hheld : ∀ f, c.Held f → c'.Held f := fun f ⟨w, hw⟩ => ⟨w, hbefore w f hw⟩
  refine ⟨fun f hf => hmade ▸ h.made f hf, fun f hf => h.finished f (hfin ▸ hf), fun f hf hn => ?_,
    fun f hf hn => ?_, fun f hf => ?_, fun w ft f hw hf hn => ?_,
    fun w f hw => h.behind w f (hbehind w f hw), fun w f hw => ?_, fun u v f hu hv => ?_⟩
  · rw [hstate]
    exact h.suspended f hf (hfin ▸ hn)
  · rw [hstate]
    exact (h.fresh f (hmade ▸ hf) hn).imp_right fun ⟨hx, hwhere⟩ =>
      ⟨hx, hwhere.imp (hq f) (hheld f)⟩
  · rw [hstate]
    exact (h.ended f (hfin ▸ hf)).imp_right (hheld f)
  · rw [hstate]
    exact h.enter w ft f (henter w ft hw) hf hn
  · rw [hfin]
    exact h.running w f ((hrun w).symm.trans hw)
  · exact h.sole u v f ((hrun u).symm.trans hu) ((hrun v).symm.trans hv)

/-- A new fiber. -/
theorem Core.Kept.create (h : c.Kept entered) (hwf : c.Wf) :
    Core.Kept { c.setState c.made .init with made := c.made + 1 } entered := by
  have hstate : ∀ g, g < c.made → (c.setState c.made .init).state g = c.state g := fun g hg =>
    Function.update_of_ne (Nat.ne_of_lt hg) ..
  refine ⟨fun g hg => Nat.lt_succ_of_lt (h.made g hg), h.finished, fun g hg hn => ?_,
    fun g hg hn => ?_, fun g hg => ?_, fun u e g hu hg hn => ?_, h.behind, h.running, h.sole⟩
  · exact (congrArg FiberState.suspended (hstate g (h.made g hg))).trans (h.suspended g hg hn)
  · rcases Nat.lt_succ_iff_lt_or_eq.mp hg with hg | rfl
    · rcases h.fresh g hg hn with hx | ⟨hx, hwhere⟩
      · exact .inl ((hstate g hg).trans hx)
      · exact .inr ⟨(congrArg FiberState.chosen (hstate g hg)).trans hx, hwhere⟩
    · exact .inl (Function.update_self ..)
  · refine (h.ended g hg).imp_left fun hx => ?_
    exact (congrArg FiberState.ended (hstate g (h.made g (h.finished g hg)))).trans hx
  · have hlt := (hwf.accepted e (Has.of_turn hu)).made g hg
    exact fun hx => h.enter u e g hu hg hn ((hstate g hlt).symm.trans hx)

theorem of_update_false {x : ℕ → Bool} {f g : ℕ} (h : Function.update x f false g = true) :
    g ≠ f ∧ x g = true := by
  by_cases hgf : g = f
  · subst hgf
    rw [Function.update_self] at h
    cases h
  · rw [Function.update_of_ne hgf] at h
    exact ⟨hgf, h⟩

/-- A fiber that no worker has is reset. -/
theorem Core.Kept.reset {f : ℕ} (h : c.Kept entered)
    (hno : ∀ u, (c.pc u).turnFiber ≠ some f) :
    Core.Kept { c.setState f .init with finished := Function.update c.finished f false }
      (Function.update entered f false) := by
  have hstate : ∀ g, g ≠ f → (c.setState f .init).state g = c.state g := fun g hg =>
    Function.update_of_ne hg ..
  have hturn : ∀ {p : Phase → Bool} {u g}, (c.pc u).fiberIn p = some g → g ≠ f := by
    rintro p u g hu rfl
    exact hno u (Pc.turnFiber_of_fiberIn hu)
  refine ⟨fun g hg => h.made g (of_update_false hg).2, fun g hg => ?_, fun g hg hn => ?_,
    fun g hg hn => ?_, fun g hg => ?_, fun u e g hu hg hn => ?_, fun u g hu => ?_,
    fun u g hu => ?_, h.sole⟩
  · obtain ⟨hgf, hg⟩ := of_update_false hg
    rw [Function.update_of_ne hgf]
    exact h.finished g hg
  · obtain ⟨hgf, hg⟩ := of_update_false hg
    dsimp only at hn
    rw [Function.update_of_ne hgf] at hn
    exact (congrArg FiberState.suspended (hstate g hgf)).trans (h.suspended g hg hn)
  · by_cases hgf : g = f
    · subst hgf
      exact .inl (Function.update_self ..)
    · rw [Function.update_of_ne hgf] at hn
      rcases h.fresh g hg hn with hx | ⟨hx, hwhere⟩
      · exact .inl ((hstate g hgf).trans hx)
      · exact .inr ⟨(congrArg FiberState.chosen (hstate g hgf)).trans hx, hwhere⟩
  · obtain ⟨hgf, hg⟩ := of_update_false hg
    exact (h.ended g hg).imp_left (congrArg FiberState.ended (hstate g hgf)).trans
  · have hgf : g ≠ f := by
      rintro rfl
      refine hno u ?_
      change c.pc u = .turn e .enter at hu
      rw [hu]
      exact hg
    rw [Function.update_of_ne hgf] at hn
    exact fun hx => h.enter u e g hu hg hn ((hstate g hgf).symm.trans hx)
  · rw [Function.update_of_ne (hturn hu)]
    exact h.behind u g hu
  · show Function.update c.finished f false g = false
    rw [Function.update_of_ne (hturn hu)]
    exact h.running u g hu

section Keep

variable [DecidableEq ω] {w : ω} {ft : Entry κ} {ph : Phase} {f : ℕ} {pc : Pc κ}

/-- Which worker has a fiber after `w` has moved. -/
theorem fiberIn_update {p : Phase → Bool} {u : ω} {g : ℕ}
    (hpc' : c'.pc = Function.update c.pc w pc) (h : (c'.pc u).fiberIn p = some g) :
    (u = w ∧ pc.fiberIn p = some g) ∨ (u ≠ w ∧ (c.pc u).fiberIn p = some g) := by
  rw [hpc'] at h
  by_cases huw : u = w
  · subst huw
    rw [Function.update_self] at h
    exact .inl ⟨rfl, h⟩
  · rw [Function.update_of_ne huw] at h
    exact .inr ⟨huw, h⟩

/-- A fiber that another worker has is still there after `w` has moved. -/
theorem Core.Held.move {g : ℕ} (h : c.Held g) (hpc' : c'.pc = Function.update c.pc w pc)
    (hw : (c.pc w).fiberIn Phase.before ≠ some g) : c'.Held g := by
  obtain ⟨u, hu⟩ := h
  have huw : u ≠ w := by
    rintro rfl
    exact hw hu
  exact ⟨u, by rw [hpc', Function.update_of_ne huw]; exact hu⟩

/-- A worker that goes on without the entry it had, or with it. -/
theorem Core.Kept.goto (h : c.Kept entered) (hpc : c.pc w = .turn ft ph)
    (hpc' : c'.pc = Function.update c.pc w pc) (hmade : c'.made = c.made)
    (hstate : c'.state = c.state) (hfin : c'.finished = c.finished)
    (hq : ∀ f, c.queues f = true → c'.queues f = true)
    (hbefore : ∀ f, (Pc.turn ft ph).fiberIn Phase.before = some f →
      pc.fiberIn Phase.before = some f)
    (hbehind : ∀ f, pc.fiberIn Phase.behind = some f →
      (Pc.turn ft ph).fiberIn Phase.behind = some f)
    (hrun : pc.fiberIn Phase.running = (Pc.turn ft ph).fiberIn Phase.running)
    (henter : ∀ e, pc ≠ .turn e .enter) : c'.Kept entered := by
  have hcase : ∀ u, (u = w ∧ c'.pc u = pc ∧ c.pc u = .turn ft ph) ∨ c'.pc u = c.pc u := by
    intro u
    rw [hpc']
    by_cases huw : u = w
    · subst huw
      exact .inl ⟨rfl, Function.update_self .., hpc⟩
    · exact .inr (Function.update_of_ne huw ..)
  refine h.stay hmade hstate hfin hq (fun u e hu => ?_) (fun u g hu => ?_) (fun u g hu => ?_)
    fun u => ?_
  all_goals rcases hcase u with ⟨-, hu', hu₀⟩ | hu'
  · exact absurd (hu'.symm.trans hu) (henter e)
  · exact hu'.symm.trans hu
  · rw [hu₀] at hu
    rw [hu']
    exact hbefore g hu
  · rwa [hu']
  · rw [hu'] at hu
    rw [hu₀]
    exact hbehind g hu
  · rwa [hu'] at hu
  · rw [hu', hu₀]
    exact hrun
  · rw [hu']

/-- A step in the turn of worker `w` with the fiber `f`, which writes no other fiber's state. -/
theorem Core.Kept.turn (h : c.Kept entered) (hpc : c.pc w = .turn ft ph) (hf : ft.fiber = some f)
    (hlt : f < c.made) (hpc' : c'.pc = Function.update c.pc w pc) (hmade : c'.made = c.made)
    (hq : c'.fibers = c.fibers) (hturn : pc.held = none ∨ ∃ ph', pc = .turn ft ph')
    (hne : ∀ g, g ≠ f →
      c'.state g = c.state g ∧ c'.finished g = c.finished g ∧ entered' g = entered g)
    (hent : entered f = true → entered' f = true)
    (hinit : c'.state f = .init → c.state f = .init)
    (hsusp : entered' f = true → c'.finished f = false → (c'.state f).suspended = true)
    (hfresh : entered' f = false → (c'.state f).chosen = true ∧ pc.fiberIn Phase.before = some f)
    (hend : c'.finished f = true →
      entered' f = true ∧ ((c'.state f).ended = true ∨ pc.fiberIn Phase.before = some f))
    (henter : pc = .turn ft .enter → c'.state f ≠ .init)
    (hbehind : pc.fiberIn Phase.behind = some f → entered' f = true)
    (hrun : pc.fiberIn Phase.running = some f →
      c'.finished f = false ∧ ∀ u, u ≠ w → (c.pc u).fiberIn Phase.running ≠ some f)
    (hother : ∀ u, u ≠ w → (c.pc u).fiberIn Phase.running = some f → c'.finished f = false) :
    c'.Kept entered' := by
  have hown : c'.pc w = pc := by rw [hpc', Function.update_self]
  have hothers : ∀ u, u ≠ w → c'.pc u = c.pc u := fun u hu => by
    rw [hpc', Function.update_of_ne hu]
  have hqueues : ∀ g, c'.queues g = c.queues g := fun g => by rw [Core.queues, hq, Core.queues]
  -- the fiber of worker `w` is `f`, before and after
  have hw₀ : ∀ {p : Phase → Bool} {g}, (c.pc w).fiberIn p = some g → g = f := by
    intro p g hg
    have := Pc.turnFiber_of_fiberIn hg
    rw [hpc] at this
    exact Option.some.inj (this.symm.trans hf)
  have hw₁ : ∀ {p : Phase → Bool} {g}, pc.fiberIn p = some g → g = f := by
    intro p g hg
    rcases hturn with hn | ⟨ph', rfl⟩
    · rw [Pc.fiberIn_of_held hn] at hg
      cases hg
    · exact Option.some.inj ((Pc.turnFiber_of_fiberIn hg).symm.trans hf)
  have hheld : ∀ g, g ≠ f → c.Held g → c'.Held g := fun g hgf hg =>
    hg.move hpc' fun hw => hgf (hw₀ hw)
  have hheldf : pc.fiberIn Phase.before = some f → c'.Held f := fun hb =>
    ⟨w, by rw [hown]; exact hb⟩
  refine ⟨fun g hg => ?_, fun g hg => ?_, fun g hg hn => ?_, fun g hg hn => ?_, fun g hg => ?_,
    fun u e g hu hg hn => ?_, fun u g hu => ?_, fun u g hu => ?_, fun u v g hu hv => ?_⟩
  · rw [hmade]
    by_cases hgf : g = f
    · subst hgf
      exact hlt
    · exact h.made g ((hne g hgf).2.2.symm.trans hg)
  · by_cases hgf : g = f
    · subst hgf
      exact (hend hg).1
    · rw [(hne g hgf).2.2]
      exact h.finished g ((hne g hgf).2.1.symm.trans hg)
  · by_cases hgf : g = f
    · subst hgf
      exact hsusp hg hn
    · rw [(hne g hgf).1]
      exact h.suspended g ((hne g hgf).2.2.symm.trans hg) ((hne g hgf).2.1.symm.trans hn)
  · by_cases hgf : g = f
    · subst hgf
      obtain ⟨hx, hb⟩ := hfresh hn
      exact .inr ⟨hx, .inr (hheldf hb)⟩
    · rw [(hne g hgf).1, hqueues]
      exact (h.fresh g (hmade ▸ hg) ((hne g hgf).2.2.symm.trans hn)).imp_right fun ⟨hx, hwhere⟩ =>
        ⟨hx, hwhere.imp_right (hheld g hgf)⟩
  · by_cases hgf : g = f
    · subst hgf
      exact (hend hg).2.imp_right hheldf
    · rw [(hne g hgf).1]
      exact (h.ended g ((hne g hgf).2.1.symm.trans hg)).imp_right (hheld g hgf)
  · by_cases huw : u = w
    · subst huw
      rw [hown] at hu
      rcases hturn with hn' | ⟨ph', rfl⟩
      · rw [hu] at hn'
        cases hn'
      · cases hu
        cases hf.symm.trans hg
        exact henter rfl
    · rw [hothers u huw] at hu
      by_cases hgf : g = f
      · subst hgf
        intro hx
        refine h.enter u e g hu hg ?_ (hinit hx)
        by_contra hn'
        rw [hent (Bool.eq_true_of_not_eq_false hn')] at hn
        cases hn
      · rw [(hne g hgf).1]
        exact h.enter u e g hu hg ((hne g hgf).2.2.symm.trans hn)
  · rcases fiberIn_update hpc' hu with ⟨-, hu⟩ | ⟨-, hu⟩
    · have hgf := hw₁ hu
      subst hgf
      exact hbehind hu
    · have he := h.behind u g hu
      by_cases hgf : g = f
      · subst hgf
        exact hent he
      · rw [(hne g hgf).2.2]
        exact he
  · rcases fiberIn_update hpc' hu with ⟨-, hu⟩ | ⟨huw, hu⟩
    · have hgf := hw₁ hu
      subst hgf
      exact (hrun hu).1
    · by_cases hgf : g = f
      · subst hgf
        exact hother u huw hu
      · rw [(hne g hgf).2.1]
        exact h.running u g hu
  · rcases fiberIn_update hpc' hu with ⟨huw, hu⟩ | ⟨huw, hu⟩
    · rcases fiberIn_update hpc' hv with ⟨hvw, -⟩ | ⟨hvw, hv⟩
      · exact huw.trans hvw.symm
      · have hgf := hw₁ hu
        subst hgf
        exact absurd hv ((hrun hu).2 v hvw)
    · rcases fiberIn_update hpc' hv with ⟨-, hv⟩ | ⟨-, hv⟩
      · have hgf := hw₁ hv
        subst hgf
        exact absurd hu ((hrun hv).2 u huw)
      · exact h.sole u v g hu hv

/-- The writes of `READY` and `EXEC` before the switch. -/
theorem Core.Kept.write (h : c.Kept entered) (hpc : c.pc w = .turn ft ph) (hf : ft.fiber = some f)
    (hlt : f < c.made) {x : FiberState} {ph' : Phase} (hw : Writes ph x ph') :
    ((c.setState f x).goto w (.turn ft ph')).Kept entered := by
  have hstate : (c.setState f x).state f = x := Function.update_self ..
  have hx : x.chosen = true ∧ x.suspended = true ∧ x ≠ .init ∧ ph'.before = true := by
    cases hw <;> exact ⟨rfl, rfl, nofun, rfl⟩
  have hb : (Pc.turn ft ph').fiberIn Phase.before = some f := by
    rw [Pc.fiberIn_turn hx.2.2.2, hf]
  have hnot : ∀ {p : Phase → Bool}, p ph' = false → (Pc.turn ft ph').fiberIn p = none :=
    fun hp => if_neg (by rw [hp]; nofun)
  refine h.turn hpc hf hlt rfl rfl rfl (.inr ⟨ph', rfl⟩)
    (fun g hg => ⟨Function.update_of_ne hg .., rfl, rfl⟩) id (fun hi => ?_) (fun _ _ => ?_)
    (fun _ => ⟨?_, hb⟩) (fun hfin => ⟨h.finished f hfin, .inr hb⟩) (fun _ => ?_) (fun hbh => ?_)
    (fun hr => ?_) fun u _ hu => h.running u f hu
  · exact absurd (hstate.symm.trans hi) hx.2.2.1
  · exact (congrArg FiberState.suspended hstate).trans hx.2.1
  · exact (congrArg FiberState.chosen hstate).trans hx.1
  · exact fun hi => hx.2.2.1 (hstate.symm.trans hi)
  · rw [hnot (by rw [Phase.behind, hx.2.2.2]; rfl)] at hbh
    cases hbh
  · rw [hnot (by cases hw <;> rfl)] at hr
    cases hr

/-- The yield of the fiber that runs. -/
theorem Core.Kept.yield (h : c.Kept entered) {out : Outcome} (hpc : c.pc w = .turn ft (.yield out))
    (hf : ft.fiber = some f) (hlt : f < c.made) (yielded : List (Entry κ)) :
    ({ (c.setState f out.state).goto w (.turn ft (.leave out)) with
        finished := if out.state.ended then Function.update c.finished f true else c.finished
        yielded } : Core ω κ).Kept entered := by
  have hrun : (c.pc w).fiberIn Phase.running = some f := by rw [hpc, Pc.fiberIn_turn rfl, hf]
  have hent : entered f = true :=
    h.behind w f (Pc.fiberIn_mono (fun _ => Phase.behind_of_running) hrun)
  have hstate : (c.setState f out.state).state f = out.state := Function.update_self ..
  have hno : ∀ u, u ≠ w → (c.pc u).fiberIn Phase.running ≠ some f := fun u hu hf' =>
    hu (h.sole u w f hf' hrun)
  refine h.turn hpc hf hlt rfl rfl rfl (.inr ⟨_, rfl⟩)
    (fun g hg => ⟨Function.update_of_ne hg .., ?_, rfl⟩) id (fun hi => ?_) (fun _ hn => ?_)
    (fun hn => ?_) (fun hfin => ⟨hent, .inl ?_⟩) nofun (fun _ => hent) nofun
    fun u hu hf' => absurd hf' (hno u hu)
  · dsimp only
    split
    · exact Function.update_of_ne hg ..
    · rfl
  · cases out <;> cases hstate.symm.trans hi
  · refine (congrArg FiberState.suspended hstate).trans ?_
    cases out with
    | ready | hold => rfl
    | term | except =>
      have hfin : Function.update c.finished f true f = false := hn
      rw [Function.update_self] at hfin
      cases hfin
  · rw [hent] at hn
    cases hn
  · refine (congrArg FiberState.ended hstate).trans ?_
    cases out with
    | ready | hold =>
      have := h.running w f hrun
      exact absurd (this.symm.trans hfin) nofun
    | term | except => rfl

/-- The write of `HOLD` after the turn, into a fiber that has not finished. -/
theorem Core.Kept.park (h : c.Kept entered) (hpc : c.pc w = .turn ft .park)
    (hf : ft.fiber = some f) (hlt : f < c.made) (hfin : c.finished f = false)
    (retired : List (Entry κ × FiberState)) :
    ({ (c.setState f .hold).goto w .scan with retired } : Core ω κ).Kept entered := by
  have hbeh : (c.pc w).fiberIn Phase.behind = some f := by rw [hpc, Pc.fiberIn_turn rfl, hf]
  have hent : entered f = true := h.behind w f hbeh
  have hstate : (c.setState f .hold).state f = .hold := Function.update_self ..
  refine h.turn hpc hf hlt rfl rfl rfl (.inl rfl)
    (fun g hg => ⟨Function.update_of_ne hg .., rfl, rfl⟩) id (fun hi => ?_) (fun _ _ => ?_)
    (fun hn => ?_) (fun hf' => ?_) nofun nofun nofun fun u _ hu => h.running u f hu
  · cases hstate.symm.trans hi
  · exact congrArg FiberState.suspended hstate
  · rw [hent] at hn
    cases hn
  · exact absurd (hfin.symm.trans hf') nofun

/-- An entry of a fiber that can be run is still queued after a scan, or the worker has it. -/
theorem queued_or_held {tid : ThreadId} {r : Scan κ} {g : ℕ}
    (hr : Scan.Scans tid c.fibers c.state r) (hpc' : c'.pc = Function.update c.pc w pc)
    (hq : c'.fibers = r.rest) (htaken : ∀ ft, r.taken = some ft → pc = .turn ft .tickle)
    (hx : (c.state g).chosen = true) (hg : c.queues g = true) :
    c'.queues g = true ∨ c'.Held g := by
  obtain ⟨e, he, hfe⟩ := Core.queues_eq_true.mp hg
  rcases List.mem_append.mp (hr.perm.symm.subset he) with hmem | hmem
  · rcases List.mem_append.mp hmem with hmem | hmem
    · refine .inr ⟨w, ?_⟩
      rw [hpc', Function.update_self, htaken e (Option.mem_toList.mp hmem), Pc.fiberIn_turn rfl]
      exact hfe
    · obtain ⟨f', hf', -, hrun, hexec⟩ := hr.erased hmem
      cases hfe.symm.trans hf'
      rw [FiberState.not_chosen hrun hexec] at hx
      cases hx
  · exact .inl (Core.queues_eq_true.mpr ⟨e, by rw [hq]; exact hmem, hfe⟩)

/-- A scan, after which the worker has the entry that was taken, if one was. -/
theorem Core.Kept.scanned (h : c.Kept entered) {tid : ThreadId} {r : Scan κ}
    (hr : Scan.Scans tid c.fibers c.state r) (hw : c.pc w = .scan)
    (hpc' : c'.pc = Function.update c.pc w pc) (hmade : c'.made = c.made)
    (hstate : c'.state = r.state) (hfin : c'.finished = c.finished) (hq : c'.fibers = r.rest)
    (htaken : ∀ ft, r.taken = some ft → pc = .turn ft .tickle)
    (hnone : r.taken = none → pc.held = none) : c'.Kept entered := by
  have hpc : ∀ ft ph, pc = .turn ft ph → ph = .tickle := by
    intro ft ph he
    cases ht : r.taken with
    | none =>
      have := hnone ht
      rw [he] at this
      cases this
    | some e =>
      have := (htaken e ht).symm.trans he
      cases this
      rfl
  -- no worker's turn has moved, but that of the worker that scanned has just begun
  have hback : ∀ {p : Phase → Bool} {u g}, p .tickle = false → (c'.pc u).fiberIn p = some g →
      (c.pc u).fiberIn p = some g := by
    intro p u g hp hu
    rcases fiberIn_update hpc' hu with ⟨-, hu⟩ | ⟨-, hu⟩
    · obtain ⟨ft, ph, he, hph, -⟩ := Pc.fiberIn_eq_some.mp hu
      rw [hpc ft ph he, hp] at hph
      cases hph
    · exact hu
  have hheld : ∀ g, c.Held g → c'.Held g := fun g hg => hg.move hpc' (by rw [hw]; nofun)
  have hready : ∀ g, (c.state g).chosen = true → r.state g = c.state g := fun g hx =>
    hr.state_eq (fun hs => by rw [hs] at hx; cases hx) fun hs => by rw [hs] at hx; cases hx
  refine ⟨fun g hg => hmade ▸ h.made g hg, fun g hg => h.finished g (hfin ▸ hg), fun g hg hn => ?_,
    fun g hg hn => ?_, fun g hg => ?_, fun u e g hu hg hn => ?_, fun u g hu => ?_, fun u g hu => ?_,
    fun u v g hu hv => h.sole u v g (hback rfl hu) (hback rfl hv)⟩
  · rw [hstate]
    rcases hr.state g with hs | ⟨-, hs, -⟩
    · rw [hs]
      exact h.suspended g hg (hfin ▸ hn)
    · rw [hs]
      rfl
  · rw [hstate]
    rcases h.fresh g (hmade ▸ hg) hn with hx | ⟨hx, hwhere⟩
    · rcases hr.state g with hs | ⟨-, hs, e, he, hfe⟩
      · exact .inl (hs.trans hx)
      · refine .inr ⟨by rw [hs]; rfl, .inl (Core.queues_eq_true.mpr ⟨e, ?_, hfe⟩)⟩
        rw [hq]
        exact he
    · refine .inr ⟨by rw [hready g hx]; exact hx, ?_⟩
      rcases hwhere with hqu | hhe
      · exact queued_or_held hr hpc' hq htaken hx hqu
      · exact .inr (hheld g hhe)
  · rw [hstate]
    rcases h.ended g (hfin ▸ hg) with hx | hhe
    · refine .inl ?_
      rw [hr.state_eq (fun hs => by rw [hs] at hx; cases hx) fun hs => by rw [hs] at hx; cases hx]
      exact hx
    · exact .inr (hheld g hhe)
  · rw [hpc'] at hu
    obtain ⟨-, hu⟩ : u ≠ w ∧ c.pc u = .turn e .enter :=
      (Interleave.update_cases hu).resolve_left fun hu => nomatch hpc e .enter hu.2
    rw [hstate]
    have hx := h.enter u e g hu hg hn
    rcases hr.state g with hs | ⟨-, hs, -⟩
    · rwa [hs]
    · rw [hs]
      nofun
  · exact h.behind u g (hback rfl hu)
  · rw [hfin]
    exact h.running u g (hback rfl hu)

/-- A worker switches to a fiber that has not ended and whose context nobody uses. -/
theorem Core.Kept.enters (h : c.Kept entered) (hwf : c.Wf) (hpc : c.pc w = .turn ft .enter)
    (hf : ft.fiber = some f) (hfin : c.finished f = false)
    (hfree : ∀ u, (c.pc u).fiberIn Phase.inside ≠ some f) :
    (c.goto w (.turn ft .task)).Kept (Function.update entered f true) := by
  have hself : Function.update entered f true f = true := Function.update_self ..
  have hfin' : (c.goto w (.turn ft .task)).finished f = false := hfin
  have hlt := hwf.fiber_lt hpc hf
  refine h.turn hpc hf hlt rfl rfl rfl (.inr ⟨_, rfl⟩)
    (fun g hg => ⟨rfl, rfl, Function.update_of_ne hg ..⟩) (fun _ => hself) id (fun _ _ => ?_)
    (fun hn => ?_) (fun hn => ?_) nofun (fun _ => hself) (fun _ => ⟨hfin, fun u _ hu => ?_⟩)
    fun u _ hu => h.running u f hu
  · cases hent : entered f with
    | true => exact h.suspended f hent hfin
    | false =>
      rcases h.fresh f hlt hent with hx | ⟨hx, -⟩
      · exact absurd hx (h.enter w ft f hpc hf hent)
      · exact FiberState.suspended_of_chosen hx
  · rw [hself] at hn
    cases hn
  · rw [hfin'] at hn
    cases hn
  · exact hfree u (Pc.fiberIn_mono (fun _ => Phase.inside_of_running) hu)

end Keep

/-! ## Steps -/

/-- The fiber of the worker that makes the step, if its turn is in the phase `ph`. -/
def Core.stepsIn (c : Core ω κ) (p : Phase → Bool) (l : Label ω κ) : Option ℕ :=
  l.worker.bind fun w => (c.pc w).fiberIn p

/-- The fiber that the step switches to. -/
def Core.entering (c : Core ω κ) (l : Label ω κ) : Option ℕ := c.stepsIn (· == .enter) l

/-- The fiber into which the step writes `HOLD` after its turn. -/
def Core.parking (c : Core ω κ) (l : Label ω κ) : Option ℕ := c.stepsIn (· == .park) l

theorem Core.stepsIn_of_turn {p : Phase → Bool} {l : Label ω κ} {w : ω} {ft : Entry κ} {ph : Phase}
    (hl : l.worker = some w) (hpc : c.pc w = .turn ft ph) (hp : p ph = true) :
    c.stepsIn p l = ft.fiber := by
  rw [Core.stepsIn, hl, Option.bind_some, hpc, Pc.fiberIn_turn hp]

section Moves

variable [Fintype ω] [DecidableEq ω] {cfg : Config ω} {l : Label ω κ}

/-- Each step but a reset and a switch into a fiber keeps the invariant, if no worker writes `HOLD`
into a fiber that has ended. -/
theorem Move.kept (hm : Move cfg c l c') (hwf : c.Wf) (h : c.Kept entered)
    (hreset : ∀ f, l ≠ .reset f) (henter : c.entering l = none)
    (hpark : ∀ f, c.parking l = some f → c.finished f = false) : c'.Kept entered := by
  have happ : ∀ {new : List (Entry κ)} {f}, c.queues f = true →
      (c.fibers ++ new).any (fun e => e.fiber == some f) = true := by
    intro new f hf
    rw [List.any_append, Bool.or_eq_true]
    exact .inl hf
  cases hm with
  | schedule =>
    exact h.stay rfl rfl rfl (fun f hf => happ hf) (fun _ _ hu => hu) (fun _ _ hu => hu)
      (fun _ _ hu => hu) fun _ => rfl
  | create => exact h.create hwf
  | @reset f hf hs => exact absurd rfl (hreset f)
  | @take w r ft hpc hr ht =>
    refine h.scanned (Scan.scans_of_scan hr) hpc rfl rfl rfl rfl rfl (fun e he => ?_) fun he => ?_
    · cases ht.symm.trans he
      rfl
    · rw [ht] at he
      cases he
  | @pass w r pc hpc hr ht hq =>
    refine h.scanned (Scan.scans_of_scan hr) hpc rfl rfl rfl rfl rfl (fun e he => ?_) fun _ => hq
    rw [ht] at he
    cases he
  | tickle hpc =>
    exact h.goto hpc rfl rfl rfl rfl (fun _ hf => hf) (fun _ hf => hf) nofun rfl nofun
  | @newFiber w ft hpc hf =>
    refine (h.create hwf).goto hpc rfl rfl rfl rfl (fun _ hq => hq) (fun f hb => ?_) nofun rfl ?_
    · rw [Pc.fiberIn_turn rfl, hf] at hb
      cases hb
    · rintro e ⟨⟩
  | drop hpc hne => exact absurd hne (hwf.nonempty_ne hpc)
  | @quiet _ w ft f ph ph' hl hpc hf hq =>
    cases hq with
    | enter =>
      rw [Core.entering, Core.stepsIn_of_turn hl hpc rfl, hf] at henter
      cases henter
    | take => exact h.goto hpc rfl rfl rfl rfl (fun _ hq => hq) (fun _ hb => hb) nofun rfl nofun
    | check => exact h.goto hpc rfl rfl rfl rfl (fun _ hq => hq) (fun _ hb => hb) nofun rfl nofun
    | task =>
      exact h.goto hpc rfl rfl rfl rfl (fun _ hq => hq) nofun (fun _ hb => hb) rfl nofun
    | leave =>
      exact h.goto hpc rfl rfl rfl rfl (fun _ hq => hq) nofun (fun _ hb => hb) rfl nofun
    | look =>
      exact h.goto hpc rfl rfl rfl rfl (fun _ hq => hq) nofun (fun _ hb => hb) rfl nofun
    | park =>
      exact h.goto hpc rfl rfl rfl rfl (fun _ hq => hq) nofun (fun _ hb => hb) rfl nofun
  | write hpc hf hw => exact h.write hpc hf (hwf.fiber_lt hpc hf) hw
  | yield hpc hf => exact h.yield hpc hf (hwf.fiber_lt hpc hf) _
  | back hpc hf =>
    exact h.goto hpc rfl rfl rfl rfl (fun _ hq => hq) nofun (fun _ hb => hb) rfl nofun
  | retire hpc hf hs =>
    exact h.goto hpc rfl rfl rfl rfl (fun _ hq => hq) nofun nofun rfl nofun
  | @putBack w ft f out hpc hf =>
    exact h.goto hpc rfl rfl rfl rfl (fun _ hq => happ hq) nofun nofun rfl nofun
  | @park w ft f hpc hf =>
    refine h.park hpc hf (hwf.fiber_lt hpc hf) (hpark f ?_) _
    rw [Core.parking, Core.stepsIn_of_turn rfl hpc rfl, hf]
  | @other _ pc stopping autoStop hpc =>
    refine h.stay rfl rfl rfl (fun _ hf => hf) (fun w ft hu => ?_) (fun w f hu => ?_)
      (fun w f hu => ?_) fun w => Pc.fiberIn_eq (hpc w)
    · rcases hpc w with hs | ⟨-, hs⟩
      · exact hs.symm.trans hu
      · rw [show pc w = .turn ft .enter from hu] at hs
        cases hs
    · exact (Pc.fiberIn_eq (hpc w)).trans hu
    · exact (Pc.fiberIn_eq (hpc w)).symm.trans hu

/-- The step that switches to a fiber. -/
theorem enters_of_step {s s' : State ω κ} {f : ℕ} (hf : s.entering l = some f)
    (hs : step cfg s l = some s') : ∃ w ft, s.pc w = .turn ft .enter ∧ ft.fiber = some f ∧
      s'.toCore = s.toCore.goto w (.turn ft .task) := by
  obtain ⟨w, hw, hin⟩ := Option.bind_eq_some_iff.mp hf
  obtain ⟨ft, ph, hpc, hph, hft⟩ := Pc.fiberIn_eq_some.mp hin
  obtain rfl : ph = .enter := by simpa using hph
  refine ⟨w, ft, hpc, hft, ?_⟩
  cases l with
  | run u =>
    cases hw
    simp only [step, runStep, hpc, hft, turnStep] at hs
    cases hs
    rfl
  | task u out =>
    cases hw
    simp only [step, taskStep, hpc] at hs
    cases hs
  | idle u quiet =>
    cases hw
    simp only [step, idleStep, hpc] at hs
    cases hs
  | wake u pipe =>
    cases hw
    simp only [step, wakeStep, hpc] at hs
    cases hs
  | _ => cases hw

theorem reset_of_step {s s' : State ω κ} {f : ℕ} (hs : step cfg s (.reset f) = some s') :
    s'.toCore =
      { s.toCore.setState f .init with finished := Function.update s.finished f false } := by
  simp only [step] at hs
  split at hs
  · cases hs
    rfl
  · cases hs

end Moves

end Sched
end Ddg
