import DdgServer.Lib.Fifo
import DdgServer.Sched.Requeue
import DdgServer.Sched.Stages
import DdgServer.Sched.Suspended

/-!
# Callbacks for any thread

What the scheduler is for a client that schedules callbacks, for any thread, and no fibers. Each
callback gets a fiber of its own when a worker takes it, so a fiber has one holder, an entry or a
worker, and every queued entry is a callback or has a `READY` fiber: a scan takes the first one.

* `Core.Plain`: that invariant.
* `Core.fifo`, `Core.events`: the queue with its servers, and what a step does to it.
* `step_fifo`: each step does to the queue what it shows.
-/

namespace Ddg

open Interleave

/-- The worker's last step has found its fiber `READY`, or made it so. -/
def Phase.readied : Phase → Bool
  | .check | .putBack _ => true
  | _ => false

namespace Sched

variable {ω κ : Type}

/-- `schedule` is called with callbacks for any thread. -/
def Label.Callbacks : Label ω κ → Prop
  | .schedule items => ∀ item ∈ items, item.fiber = none ∧ item.thread = 0
  | _ => True

instance : ∀ l : Label ω κ, Decidable l.Callbacks
  | .schedule items => inferInstanceAs (Decidable (∀ item ∈ items, _ ∧ _))
  | .tickle | .create | .reset _ | .run _ | .task .. | .idle .. | .wake .. | .start | .stop
  | .caller _ => .isTrue trivial

/-- The entries that a call of `schedule` queues, the first with the number `n`. -/
def newEntries (n : ℕ) : List (Item κ) → List (Entry κ)
  | [] => []
  | item :: items =>
    let e : Entry κ :=
      { fiber := item.fiber, cb := item.cb, thread := narrowThread item.thread, id := n
        asked := item.thread }
    if e.nonempty then e :: newEntries (n + 1) items else newEntries n items

theorem scheduleAll_fibers (items : List (Item κ)) (s : State ω κ) :
    (s.scheduleAll items).1.fibers = s.fibers ++ newEntries s.entries items := by
  induction items generalizing s with
  | nil => exact (List.append_nil _).symm
  | cons item items ih =>
    simp only [State.scheduleAll, ih, State.scheduleNoLock, newEntries]
    split
    · rw [List.append_assoc]
      rfl
    · rfl

theorem mem_newEntries {n : ℕ} {items : List (Item κ)} {e : Entry κ} (he : e ∈ newEntries n items) :
    ∃ item ∈ items, e.fiber = item.fiber ∧ e.thread = narrowThread item.thread := by
  induction items generalizing n with
  | nil => cases he
  | cons item items ih =>
    have hrest : ∀ {m}, e ∈ newEntries m items →
        ∃ i ∈ item :: items, e.fiber = i.fiber ∧ e.thread = narrowThread i.thread := by
      intro m hm
      obtain ⟨i, hi, h⟩ := ih hm
      exact ⟨i, List.mem_cons_of_mem _ hi, h⟩
    simp only [newEntries] at he
    split at he
    · rcases List.mem_cons.mp he with rfl | he
      · exact ⟨item, List.mem_cons_self, rfl, rfl⟩
      · exact hrest he
    · exact hrest he

/-! ## The queue -/

/-- The numbers of the queued entries and of those that the workers have. -/
def Core.fifo (c : Core ω κ) : Fifo ω ℕ where
  queue := c.fibers.map Entry.id
  held w := heldId (c.pc w)

section Queue

variable [DecidableEq ω] {c c' : Core ω κ} {w : ω} {e ft : Entry κ} {ph : Phase}

/-- The queue after worker `w` went to `pc`. -/
theorem fifo_goto (pc : Pc κ) (hpc : c'.pc = Function.update c.pc w pc) :
    c'.fifo = ⟨c'.fibers.map Entry.id, Function.update c.fifo.held w (heldId pc)⟩ := by
  unfold Core.fifo
  rw [hpc]
  congr 1
  exact held_goto c w pc

/-- A step of worker `w` that leaves the queue as it is. -/
theorem fifo_quiet (pc : Pc κ) (hpc : c'.pc = Function.update c.pc w pc)
    (hfib : c'.fibers = c.fibers) (hheld : heldId pc = heldId (c.pc w)) : c'.fifo = c.fifo := by
  rw [fifo_goto pc hpc, hfib, hheld]
  exact congrArg (Fifo.mk _) (Function.update_eq_self w c.fifo.held)

theorem fifo_finish (hpc : c.pc w = .turn ft ph) (pc : Pc κ) (hheld : pc.held = none)
    (hpc' : c'.pc = Function.update c.pc w pc) (hfib : c'.fibers = c.fibers) :
    (Fifo.sys ω ℕ).runBy Sys.free c.fifo [.finish w] = some c'.fifo := by
  have hw : c.fifo.held w = some ft.id := by
    show heldId (c.pc w) = _
    rw [hpc]
    rfl
  have hnone : heldId pc = none := by
    rw [heldId, hheld]
    rfl
  rw [Sys.runBy_free_one, fifo_goto pc hpc', hfib, hnone]
  show (if (c.fifo.held w).isSome then _ else none) = _
  rw [hw]
  rfl

theorem fifo_take {es : List (Entry κ)} (hpc : (c.pc w).held = none) (hfs : c.fibers = e :: es)
    (hfib : c'.fibers = es) (hpc' : c'.pc = Function.update c.pc w (.turn e .tickle)) :
    (Fifo.sys ω ℕ).runBy Sys.free c.fifo [.serve w e.id] = some c'.fifo := by
  have hw : c.fifo.held w = none := by
    show heldId (c.pc w) = _
    rw [heldId, hpc]
    rfl
  have hq : c.fifo.queue = e.id :: es.map Entry.id := by
    show c.fibers.map Entry.id = _
    rw [hfs]
    rfl
  rw [Sys.runBy_free_one, fifo_goto _ hpc', hfib]
  show (if c.fifo.held w = none ∧ c.fifo.queue.head? = some e.id then _ else none) = _
  rw [if_pos ⟨hw, by rw [hq]; rfl⟩, hq]
  rfl

theorem fifo_putBack (hpc : c.pc w = .turn ft ph) (pc : Pc κ) (hheld : pc.held = none)
    (hpc' : c'.pc = Function.update c.pc w pc) (hfib : c'.fibers = c.fibers ++ [ft]) :
    (Fifo.sys ω ℕ).runBy Sys.free c.fifo [.putBack w ft.id] = some c'.fifo := by
  have hw : c.fifo.held w = some ft.id := by
    show heldId (c.pc w) = _
    rw [hpc]
    rfl
  have hnone : heldId pc = none := by
    rw [heldId, hheld]
    rfl
  rw [Sys.runBy_free_one, fifo_goto pc hpc', hfib, hnone, List.map_append]
  show (if c.fifo.held w = some ft.id then _ else none) = _
  rw [if_pos hw]
  rfl

end Queue

/-! ## The invariant -/

variable [Fintype ω]

/-- How many entries and workers have the fiber. -/
def Core.holders (c : Core ω κ) (f : ℕ) : ℕ :=
  c.fibers.countP (fun e => e.fiber == some f) + ∑ w, ((c.pc w).turnFiber == some f).toNat

/-- A fiber has one holder, no entry is for one thread, and the queued fibers are `READY`. -/
structure Core.Plain (c : Core ω κ) : Prop where
  one : ∀ f, c.holders f ≤ 1
  thread : ∀ e, c.Has e → e.thread = 0
  queued : ∀ e ∈ c.fibers, ∀ f, e.fiber = some f → c.state f = .ready
  readied : ∀ w ft ph f, c.pc w = .turn ft ph → ph.readied = true → ft.fiber = some f →
    c.state f = .ready

variable {c c' : Core ω κ} {w u : ω} {e ft : Entry κ} {ph : Phase} {f : ℕ}

theorem turnFiber_turn : (Pc.turn ft ph).turnFiber = ft.fiber := rfl

theorem turnFiber_of_held {pc : Pc κ} (h : pc.held = none) : pc.turnFiber = none := by
  rw [Pc.turnFiber, h]
  rfl

/-- The fiber of a queued entry is with no worker. -/
theorem Core.Plain.unheld (h : c.Plain) (he : e ∈ c.fibers) (hf : e.fiber = some f) (u : ω) :
    (c.pc u).turnFiber ≠ some f := by
  intro hu
  have h₁ := h.one f
  have h₂ : 0 < c.fibers.countP fun e => e.fiber == some f :=
    List.countP_pos_iff.mpr ⟨e, he, by rw [hf]; exact beq_self_eq_true _⟩
  have h₃ := le_sum (fun w => ((c.pc w).turnFiber == some f).toNat) u
  simp only [hu, beq_self_eq_true, Bool.toNat_true] at h₃
  unfold Core.holders at h₁
  omega

/-- The fiber of a worker is not queued, and no other worker has it. -/
theorem Core.Plain.alone (h : c.Plain) (hpc : c.pc w = .turn ft ph) (hf : ft.fiber = some f) :
    (∀ e ∈ c.fibers, e.fiber ≠ some f) ∧ ∀ u, (c.pc u).turnFiber = some f → u = w := by
  have hw : (c.pc w).turnFiber = some f := by rw [hpc, turnFiber_turn, hf]
  refine ⟨fun e he hef => h.unheld he hef w hw, fun u hu => ?_⟩
  have h₁ := h.one f
  unfold Core.holders at h₁
  exact eq_of_sum_le_one (g := fun w => ((c.pc w).turnFiber == some f).toNat) (by omega)
    (by simp [hu]) (by simp [hw])

/-- A scan takes the first of such entries. -/
theorem scan_first {tid : ThreadId} {es : List (Entry κ)} {st : FiberStates}
    (ht : e.thread = 0) (hs : ∀ f, e.fiber = some f → st f = .ready) :
    Scan.scan tid (e :: es) st = some (Scan.take e es st) := by
  unfold Scan.scan
  rw [if_neg fun h => h.1 ht]
  cases hf : e.fiber with
  | none => rfl
  | some f => simp only [hs f hf]

/-- What a scan does: nothing, or it takes the first entry. -/
theorem Core.Plain.scan (h : c.Plain) {tid : ThreadId} {r : Scan κ}
    (hr : Scan.scan tid c.fibers c.state = some r) :
    (c.fibers = [] ∧ r = { rest := [], state := c.state }) ∨
      ∃ e es, c.fibers = e :: es ∧ r = Scan.take e es c.state := by
  cases hfs : c.fibers with
  | nil =>
    rw [hfs] at hr
    cases hr
    exact .inl ⟨rfl, rfl⟩
  | cons e es =>
    have hmem : e ∈ c.fibers := by rw [hfs]; exact List.mem_cons_self
    rw [hfs, scan_first (h.thread e (.inl hmem)) fun f hf => h.queued e hmem f hf] at hr
    cases hr
    exact .inr ⟨e, es, rfl, rfl⟩

theorem plain_init : ({} : Core ω κ).Plain := by
  refine ⟨fun f => ?_, fun e he => ?_, fun e he => ?_, fun w ft out f hw => ?_⟩
  · show 0 + ∑ _w : ω, 0 ≤ 1
    simp
  · rcases he with he | ⟨_, _, hw⟩
    · cases he
    · cases hw
  · cases he
  · cases hw

variable [DecidableEq ω]

/-- The holders after worker `w` went to `pc`. -/
theorem holders_goto (pc : Pc κ) (hpc : c'.pc = Function.update c.pc w pc)
    (hfib : c'.fibers = c.fibers) (f : ℕ) :
    c'.holders f + ((c.pc w).turnFiber == some f).toNat =
      c.holders f + (pc.turnFiber == some f).toNat := by
  have := sum_update (fun x : Pc κ => (x.turnFiber == some f).toNat) c.pc w pc
  unfold Core.holders
  rw [hpc, hfib]
  omega

/-- Worker `w` goes on with its fiber, gives it up or has a new one, and no other fiber that is
`READY` changes its state. -/
theorem Core.Plain.goto (h : c.Plain) (hwf : c.Wf) (pc : Pc κ)
    (hpc : c'.pc = Function.update c.pc w pc) (hfib : c'.fibers = c.fibers)
    (hturn : ∀ f, pc.turnFiber = some f → (c.pc w).turnFiber = some f ∨ c.holders f = 0)
    (hthr : ∀ e ph, pc = .turn e ph → e.thread = 0)
    (hstate : ∀ f, f < c.made → (c.pc w).turnFiber ≠ some f → c.state f = .ready →
      c'.state f = .ready)
    (hready : ∀ ft ph f, pc = .turn ft ph → ph.readied = true → ft.fiber = some f →
      c'.state f = .ready) : c'.Plain := by
  refine ⟨fun f => ?_, fun e he => ?_, fun e he f hf => ?_, fun u ft ph f hu hr hf => ?_⟩
  · have hh := holders_goto pc hpc hfib f
    have h₁ := h.one f
    cases hx : (pc.turnFiber == some f) with
    | false =>
      rw [hx, Bool.toNat_false] at hh
      omega
    | true =>
      rw [hx, Bool.toNat_true] at hh
      rcases hturn f (by simpa using hx) with hw | h₀
      · rw [hw, beq_self_eq_true, Bool.toNat_true] at hh
        omega
      · omega
  · rcases he with he | ⟨u, ph, hu⟩
    · exact h.thread e (.inl (hfib ▸ he))
    · rw [hpc] at hu
      rcases update_cases hu with ⟨-, heq⟩ | ⟨-, heq⟩
      · exact hthr e ph heq
      · exact h.thread e (Has.of_turn heq)
  · rw [hfib] at he
    exact hstate f ((hwf.accepted e (.inl he)).made f hf) (h.unheld he hf w) (h.queued e he f hf)
  · rw [hpc] at hu
    rcases update_cases hu with ⟨-, heq⟩ | ⟨hne, heq⟩
    · exact hready ft ph f heq hr hf
    · refine hstate f (hwf.fiber_lt heq hf) (fun hw => ?_) (h.readied u ft ph f heq hr hf)
      exact hne ((h.alone heq hf).2 w hw).symm

/-- The worker goes on with its entry, and writes at most the state of its fiber. -/
theorem Core.Plain.turn (h : c.Plain) (hwf : c.Wf) (hpc : c.pc w = .turn ft ph) {ph' : Phase}
    (hpc' : c'.pc = Function.update c.pc w (.turn ft ph')) (hfib : c'.fibers = c.fibers)
    (hstate : ∀ f, ft.fiber ≠ some f → c'.state f = c.state f)
    (hready : ∀ f, ph'.readied = true → ft.fiber = some f → c'.state f = .ready) : c'.Plain := by
  have hw : (c.pc w).turnFiber = ft.fiber := by rw [hpc, turnFiber_turn]
  refine h.goto hwf _ hpc' hfib (fun f hf => .inl (by rw [hw]; exact hf)) ?_ (fun f _ hf hs => ?_)
    ?_
  · rintro e ph ⟨⟩
    exact h.thread ft (Has.of_turn hpc)
  · rw [hw] at hf
    rw [hstate f hf, hs]
  · rintro ft ph f ⟨⟩ hr hf
    exact hready f hr hf

/-- The worker has no entry any more. -/
theorem Core.Plain.leave (h : c.Plain) (hwf : c.Wf) (pc : Pc κ) (hheld : pc.held = none)
    (hpc : c'.pc = Function.update c.pc w pc) (hfib : c'.fibers = c.fibers)
    (hstate : ∀ f, (c.pc w).turnFiber ≠ some f → c'.state f = c.state f) : c'.Plain := by
  have hnot : ∀ e ph, pc ≠ .turn e ph := by
    rintro e ph rfl
    cases hheld
  refine h.goto hwf pc hpc hfib (fun f hf => ?_) (fun e ph he => absurd he (hnot e ph))
    (fun f _ hf hs => by rw [hstate f hf, hs]) (fun ft ph f he => absurd he (hnot ft ph))
  rw [turnFiber_of_held hheld] at hf
  cases hf

variable {cfg : Config ω} {l : Label ω κ}

/-- A worker takes the first entry. -/
theorem Core.Plain.take (h : c.Plain) {es : List (Entry κ)} (hpc : (c.pc w).held = none)
    (hfs : c.fibers = e :: es) (hfib : c'.fibers = es) (hstate : c'.state = c.state)
    (hpc' : c'.pc = Function.update c.pc w (.turn e .tickle)) : c'.Plain := by
  have hmem : ∀ d ∈ es, d ∈ c.fibers := fun d hd => by rw [hfs]; exact List.mem_cons_of_mem _ hd
  refine ⟨fun f => ?_, fun d hd => ?_, fun d hd f hf => ?_, fun u ft ph f hu hr hf => ?_⟩
  · have hsum := sum_update (fun x : Pc κ => (x.turnFiber == some f).toNat) c.pc w (.turn e .tickle)
    have h₁ := h.one f
    unfold Core.holders at h₁ ⊢
    rw [hfs, List.countP_cons] at h₁
    rw [hpc', hfib]
    simp only [turnFiber_of_held hpc, turnFiber_turn] at hsum
    cases hx : (e.fiber == some f)
    all_goals
      simp only [hx, if_true, Bool.false_eq_true, if_false, Bool.toNat_true, Bool.toNat_false,
        show ((none : Option ℕ) == some f) = false from rfl] at hsum h₁
      omega
  · rcases hd with hd | ⟨u, ph, hu⟩
    · exact h.thread d (.inl (hmem d (hfib ▸ hd)))
    · rw [hpc'] at hu
      rcases update_cases hu with ⟨-, heq⟩ | ⟨-, heq⟩
      · cases heq
        exact h.thread e (.inl (by rw [hfs]; exact List.mem_cons_self))
      · exact h.thread d (Has.of_turn heq)
  · rw [hstate]
    exact h.queued d (hmem d (hfib ▸ hd)) f hf
  · rw [hpc'] at hu
    rcases update_cases hu with ⟨-, heq⟩ | ⟨-, heq⟩
    · cases heq
      cases hr
    · rw [hstate]
      exact h.readied u ft ph f heq hr hf

/-- A worker puts its entry back. -/
theorem Core.Plain.requeue (h : c.Plain) {out : Outcome} (hpc : c.pc w = .turn ft (.putBack out))
    (hfib : c'.fibers = c.fibers ++ [ft]) (hstate : c'.state = c.state)
    (hpc' : c'.pc = Function.update c.pc w .putTickle) : c'.Plain := by
  refine ⟨fun f => ?_, fun d hd => ?_, fun d hd f hf => ?_, fun u ft ph f hu hr hf => ?_⟩
  · have hsum := sum_update (fun x : Pc κ => (x.turnFiber == some f).toNat) c.pc w .putTickle
    have h₁ := h.one f
    unfold Core.holders at h₁ ⊢
    rw [hpc', hfib, List.countP_append, List.countP_singleton]
    simp only [show (Pc.putTickle : Pc κ).turnFiber = none from rfl, hpc, turnFiber_turn] at hsum
    cases hx : (ft.fiber == some f)
    all_goals
      simp only [hx, if_true, Bool.false_eq_true, if_false, Bool.toNat_true, Bool.toNat_false,
        show ((none : Option ℕ) == some f) = false from rfl] at hsum ⊢
      omega
  · have hhas : c.Has d := by
      rcases hd with hd | ⟨u, ph, hu⟩
      · rw [hfib] at hd
        rcases List.mem_append.mp hd with hd | hd
        · exact .inl hd
        · rw [List.mem_singleton.mp hd]
          exact Has.of_turn hpc
      · rw [hpc'] at hu
        rcases update_cases hu with ⟨-, heq⟩ | ⟨-, heq⟩
        · cases heq
        · exact Has.of_turn heq
    exact h.thread d hhas
  · rw [hstate]
    rw [hfib] at hd
    rcases List.mem_append.mp hd with hd | hd
    · exact h.queued d hd f hf
    · rw [List.mem_singleton.mp hd] at hf
      exact h.readied w ft _ f hpc rfl hf
  · rw [hpc'] at hu
    rcases update_cases hu with ⟨-, heq⟩ | ⟨-, heq⟩
    · cases heq
    · rw [hstate]
      exact h.readied u ft ph f heq hr hf

/-- Each step but `schedule` keeps the invariant. -/
theorem Move.plain (hm : Move cfg c l c') (hl : ∀ items, l ≠ .schedule items) (hwf : c.Wf)
    (h : c.Plain) : c'.Plain := by
  -- the state of one fiber is written
  have hset : ∀ {f g : ℕ} {x : FiberState}, some f ≠ some g →
      Function.update c.state f x g = c.state g :=
    fun hne => Function.update_of_ne (fun he => hne (congrArg some he.symm)) ..
  cases hm with
  | schedule => exact absurd rfl (hl _)
  | create =>
    have hmade : ∀ f, f < c.made → (c.setState c.made .init).state f = c.state f :=
      fun f hf => Function.update_of_ne hf.ne ..
    refine ⟨h.one, h.thread, fun e he f hf => ?_, fun w ft ph f hpc hr hf => ?_⟩
    · exact (hmade f ((hwf.accepted e (.inl he)).made f hf)).trans (h.queued e he f hf)
    · exact (hmade f (hwf.fiber_lt hpc hf)).trans (h.readied w ft ph f hpc hr hf)
  | @reset f _ hs =>
    have hready : ∀ g, c.state g = .ready → (c.setState f .init).state g = .ready := by
      intro g hg
      refine (Function.update_of_ne ?_ ..).trans hg
      rintro rfl
      rw [hg] at hs
      rcases hs with hs | hs <;> cases hs
    exact ⟨h.one, h.thread, fun e he g hg => hready g (h.queued e he g hg),
      fun w ft ph g hpc hr hg => hready g (h.readied w ft ph g hpc hr hg)⟩
  | take hpc hr ht =>
    rcases h.scan hr with ⟨-, rfl⟩ | ⟨e, es, hfs, rfl⟩
    · cases ht
    · cases ht
      exact h.take (by rw [hpc]; rfl) hfs rfl rfl rfl
  | @pass w r pc hpc hr ht hq =>
    rcases h.scan hr with ⟨hfs, rfl⟩ | ⟨e, es, hfs, rfl⟩
    · exact h.leave hwf pc hq rfl hfs.symm fun _ _ => rfl
    · cases ht
  | tickle hpc => exact h.turn hwf hpc rfl rfl (fun _ _ => rfl) nofun
  | @newFiber w ft hpc hf =>
    refine h.goto hwf (.turn { ft with fiber := some c.made, cb := none } .ready) rfl rfl
      (fun f hm => .inr ?_) ?_ (fun f hlt _ hs => ?_) ?_
    · -- nobody has the new fiber yet
      obtain rfl : c.made = f := Option.some.inj hm
      rw [Core.holders, Nat.add_eq_zero_iff]
      refine ⟨List.countP_eq_zero.mpr fun e he hef => ?_, Finset.sum_eq_zero fun u _ => ?_⟩
      · exact (lt_irrefl _) ((hwf.accepted e (.inl he)).made _ (by simpa using hef))
      · cases hu : ((c.pc u).turnFiber == some c.made) with
        | false => rfl
        | true =>
          obtain ⟨⟨e, ph⟩, hheld, hef⟩ := Option.bind_eq_some_iff.mp (beq_iff_eq.mp hu)
          exact absurd (hwf.fiber_lt (Pc.held_eq_some.mp hheld) hef) (lt_irrefl _)
    · rintro e ph ⟨⟩
      exact h.thread ft (Has.of_turn hpc)
    · exact (Function.update_of_ne hlt.ne ..).trans hs
    · rintro _ _ _ ⟨⟩ ⟨⟩
  | drop hpc hne => exact absurd hne (hwf.nonempty_ne hpc)
  | @quiet l w ft f ph ph' _ hpc hf hq =>
    refine h.turn hwf hpc rfl rfl (fun _ _ => rfl) ?_
    rintro g hr hg
    cases hq with
    | look hx =>
      obtain rfl : f = g := Option.some.inj (hf.symm.trans hg)
      exact hx
    | _ => cases hr
  | @write w ft f ph x ph' hpc hf hw =>
    refine h.turn hwf hpc rfl rfl (fun g hg => hset (hf ▸ hg)) ?_
    rintro g hr hg
    cases hw with
    | ready =>
      obtain rfl : f = g := Option.some.inj (hf.symm.trans hg)
      exact Function.update_self ..
    | exec => cases hr
  | yield hpc hf => exact h.turn hwf hpc rfl rfl (fun g hg => hset (hf ▸ hg)) nofun
  | back hpc => exact h.turn hwf hpc rfl rfl (fun _ _ => rfl) nofun
  | retire hpc => exact h.leave hwf .scan rfl rfl rfl fun _ _ => rfl
  | putBack hpc => exact h.requeue hpc rfl rfl rfl
  | park hpc hf =>
    refine h.leave hwf .scan rfl rfl rfl fun g hg => hset ?_
    rwa [hpc, turnFiber_turn, hf] at hg
  | @other l pc stopping autoStop hpc =>
    have hturn : ∀ u, (pc u).turnFiber = (c.pc u).turnFiber := by
      intro u
      rcases hpc u with hs | ⟨hs, hs'⟩
      · rw [hs]
      · rw [turnFiber_of_held hs, turnFiber_of_held hs']
    have hback : ∀ {u ft ph}, pc u = .turn ft ph → c.pc u = .turn ft ph := by
      intro u ft ph hu
      rcases hpc u with hs | ⟨-, hs⟩
      · rw [← hs, hu]
      · rw [hu] at hs
        cases hs
    refine ⟨fun f => ?_, fun e he => ?_, h.queued, fun u ft ph f hu hr hf => ?_⟩
    · have := h.one f
      unfold Core.holders at this ⊢
      simp only [hturn]
      exact this
    · rcases he with he | ⟨u, ph, hu⟩
      · exact h.thread e (.inl he)
      · exact h.thread e (Has.of_turn (hback hu))
    · exact h.readied u ft ph f (hback hu) hr hf

variable {s s' t : State ω κ} {items : List (Item κ)}

/-! ## Runs -/

/-- What a call of `schedule` does to the `Core`. -/
theorem schedule_fibers (h : step cfg s (.schedule items) = some s') :
    s'.fibers = s.fibers ++ newEntries s.entries items ∧ s'.pc = s.pc ∧ s'.state = s.state := by
  have hf := scheduleAll_fibers items s
  simp only [step] at h
  split at h
  · rename_i hm
    obtain ⟨new, hs, -⟩ := scheduleAll_spec items s hm
    have hpc : (s.scheduleAll items).1.pc = s.pc ∧ (s.scheduleAll items).1.state = s.state := by
      rw [hs]
      exact ⟨rfl, rfl⟩
    cases h
    split
    · exact ⟨hf, hpc⟩
    · exact ⟨hf, hpc⟩
  · cases h

theorem Core.Plain.schedule (h : s.toCore.Plain) (hc : Label.Callbacks (.schedule items : Label ω κ))
    (hs : step cfg s (.schedule items) = some s') : s'.toCore.Plain := by
  obtain ⟨hfib, hpc, hstate⟩ := schedule_fibers hs
  have hnew : ∀ e ∈ newEntries s.entries items, e.fiber = none ∧ e.thread = 0 := by
    intro e he
    obtain ⟨item, hi, hf, ht⟩ := mem_newEntries he
    obtain ⟨hnone, hzero⟩ := hc item hi
    exact ⟨hf.trans hnone, by rw [ht, hzero]; decide⟩
  have hcases : ∀ e ∈ s'.fibers, e ∈ s.fibers ∨ (e.fiber = none ∧ e.thread = 0) := by
    intro e he
    rw [hfib] at he
    exact (List.mem_append.mp he).imp_right (hnew e)
  refine ⟨fun f => ?_, fun e he => ?_, fun e he f hf => ?_, fun w ft ph f hw hr hf => ?_⟩
  · have hzero : (newEntries s.entries items).countP (fun e => e.fiber == some f) = 0 := by
      refine List.countP_eq_zero.mpr fun e he => ?_
      rw [(hnew e he).1]
      nofun
    have := h.one f
    unfold Core.holders at this ⊢
    rw [hfib, List.countP_append, hzero, hpc]
    exact this
  · rcases he with he | ⟨u, ph, hu⟩
    · rcases hcases e he with he | ⟨-, ht⟩
      · exact h.thread e (.inl he)
      · exact ht
    · exact h.thread e (Has.of_turn (hpc ▸ hu))
  · rw [hstate]
    rcases hcases e he with he | ⟨hnone, -⟩
    · exact h.queued e he f hf
    · rw [hnone] at hf
      cases hf
  · rw [hstate]
    exact h.readied w ft ph f (hpc ▸ hw) hr hf

theorem plain_inductive : (sys (κ := κ) cfg).Inductive (fun _ l => l.Callbacks)
    fun s => s.toCore.Tracked ∧ s.toCore.Plain := by
  refine tracked_inductive.and (fun s hs => ?_) fun s l s' ht h hc hst => ?_
  · rw [show s = {} from hs]
    exact plain_init
  · by_cases hl : ∃ items, l = .schedule items
    · obtain ⟨items, rfl⟩ := hl
      have hst' : step cfg s (.schedule items) = some s' := hst
      exact h.schedule hc hst'
    · exact (move_of_step hst).plain (fun items he => hl ⟨items, he⟩) ht.wf h

/-! ## What the steps do to the queue -/

/-- What the next step of worker `w` does to the queue. -/
def Core.runEvents (cfg : Config ω) (c : Core ω κ) (w : ω) : List (Fifo.Event ω ℕ) :=
  match c.pc w with
  | .scan => ((c.scanOf cfg w).bind Scan.taken).toList.map fun ft => .serve w ft.id
  | .turn ft .take => if ft.nonempty then [] else [.finish w]
  | .turn ft (.look _) =>
    match ft.fiber with
    | some f => if c.state f ≠ .ready ∧ (c.state f).ended then [.finish w] else []
    | none => []
  | .turn ft (.putBack _) => [.putBack w ft.id]
  | .turn _ .park => [.finish w]
  | _ => []

/-- What a step does to the queue. -/
def Core.events (cfg : Config ω) (c : Core ω κ) : Label ω κ → List (Fifo.Event ω ℕ)
  | .schedule items => ((newEntries c.entries items).map Entry.id).map .arrive
  | .run w => c.runEvents cfg w
  | _ => []

/-- In its turn a worker leaves the queue alone, until it puts its entry back or is done with it. -/
theorem turn_fifo (hpc : s.pc w = .turn ft ph) (hf : ft.fiber = some f)
    (hst : turnStep s w ft f ph = some s') :
    (Fifo.sys ω ℕ).runBy Sys.free s.fifo (s.runEvents cfg w) = some s'.fifo := by
  have hgo : ∀ ph', s'.pc = Function.update s.pc w (.turn ft ph') → s'.fibers = s.fibers →
      s'.fifo = s.fifo := fun ph' hpc' hfib => fifo_quiet _ hpc' hfib (by rw [hpc]; rfl)
  have hquiet : s.runEvents cfg w = [] → s'.fifo = s.fifo →
      (Fifo.sys ω ℕ).runBy Sys.free s.fifo (s.runEvents cfg w) = some s'.fifo := by
    intro hev hs
    rw [hev, hs]
    rfl
  cases ph with
  | tickle | take | task => cases hst
  | ready | exec | enter | yield out | leave out | back out =>
    refine hquiet (by simp only [Core.runEvents, hpc]) ?_
    cases hst
    exact hgo _ rfl rfl
  | check =>
    refine hquiet (by simp only [Core.runEvents, hpc]) ?_
    simp only [turnStep] at hst
    split at hst
    · cases hst
    · cases hst
      exact hgo _ rfl rfl
  | look out =>
    simp only [turnStep] at hst
    simp only [Core.runEvents, hpc, hf]
    split at hst
    · rename_i hx
      cases hst
      rw [if_neg fun h => h.1 hx, hgo _ rfl rfl]
      rfl
    · rename_i hx
      split at hst
      · rename_i he
        cases hst
        rw [if_pos ⟨hx, he⟩]
        exact fifo_finish hpc .scan rfl rfl rfl
      · rename_i he
        cases hst
        rw [if_neg fun h => he h.2, hgo _ rfl rfl]
        rfl
  | putBack out =>
    cases hst
    simp only [Core.runEvents, hpc]
    exact fifo_putBack hpc .putTickle rfl rfl rfl
  | park =>
    cases hst
    simp only [Core.runEvents, hpc]
    exact fifo_finish hpc .scan rfl rfl rfl

/-- A worker's step does to the queue what it shows. -/
theorem run_fifo (h : s.toCore.Plain) (hst : runStep cfg s w = some s') :
    (Fifo.sys ω ℕ).runBy Sys.free s.fifo (s.runEvents cfg w) = some s'.fifo := by
  -- a step between two places where the worker has no entry
  have hidle : ∀ {c : Core ω κ} (pc : Pc κ), c = s.toCore → (s.pc w).held = none → pc.held = none →
      (c.goto w pc).fifo = s.fifo := by
    rintro c pc rfl hw hheld
    exact fifo_quiet pc rfl rfl (by rw [heldId, heldId, hw, hheld])
  have hrest : (s.rest w).held = none := by
    rcases rest_eq (s := s) w with hr | hr <;> rw [hr] <;> rfl
  unfold runStep at hst
  cases hpc : s.pc w with
  | off | wait | left =>
    simp only [hpc] at hst
    cases hst
  | scan =>
    simp only [hpc] at hst
    obtain ⟨r, hr, rfl⟩ := Option.map_eq_some_iff.mp hst
    have hscan : s.scanOf cfg w = some r := scanOf_eq_some.mpr ⟨hpc, hr⟩
    simp only [Core.runEvents, hpc, hscan, Option.bind_some]
    rcases h.scan hr with ⟨hfs, rfl⟩ | ⟨e, es, hfs, rfl⟩
    · refine congrArg some (Eq.symm ?_)
      refine fifo_quiet (w := w) (s.rest w) rfl hfs.symm ?_
      rw [heldId, heldId, hrest, hpc]
      rfl
    · exact fifo_take (by rw [hpc]; rfl) hfs rfl rfl
  | turn ft ph =>
    cases ph with
    | tickle =>
      simp only [hpc] at hst
      cases hst
      simp only [Core.runEvents, hpc]
      refine congrArg some (Eq.symm (fifo_quiet (w := w) (.turn ft .take) ?_ ?_ ?_))
      · show Function.update (s.tickle cfg).pc w _ = _
        rw [tickle_toCore]
      · show (s.tickle cfg).fibers = _
        rw [tickle_toCore]
      · rw [hpc]
        rfl
    | take =>
      simp only [hpc] at hst
      simp only [Core.runEvents, hpc]
      have hgo : ∀ {e : Entry κ} {ph' : Phase} {c : Core ω κ},
          c.pc = Function.update s.pc w (.turn e ph') → c.fibers = s.fibers → e.id = ft.id →
          c.fifo = s.fifo := by
        intro e ph' c hpc' hfib hid
        refine fifo_quiet _ hpc' hfib ?_
        rw [hpc]
        exact congrArg some hid
      cases hf : ft.fiber with
      | some f =>
        simp only [hf] at hst
        cases hst
        rw [if_pos (by simp [FiberAndThread.nonempty, hf])]
        refine congrArg some (Eq.symm ?_)
        exact hgo rfl rfl rfl
      | none =>
        cases hcb : ft.cb with
        | some cb =>
          simp only [hf, hcb] at hst
          cases hst
          rw [if_pos (by simp [FiberAndThread.nonempty, hcb])]
          refine congrArg some (Eq.symm ?_)
          exact hgo rfl rfl rfl
        | none =>
          simp only [hf, hcb] at hst
          cases hst
          rw [if_neg (by simp [FiberAndThread.nonempty, hf, hcb])]
          exact fifo_finish hpc .scan rfl rfl rfl
    | _ =>
      simp only [hpc] at hst
      cases hf : ft.fiber with
      | none => simp only [hf] at hst; cases hst
      | some f =>
        simp only [hf] at hst
        exact turn_fifo hpc hf hst
  | putTickle | tickled =>
    simp only [hpc] at hst
    cases hst
    simp only [Core.runEvents, hpc]
    refine congrArg some (hidle _ tickle_toCore (by rw [hpc]; rfl) ?_).symm
    first | rfl | exact hrest
  | idleInc | idle =>
    simp only [hpc] at hst
    split at hst
    · cases hst
    · cases hst
      simp only [Core.runEvents, hpc]
      exact congrArg some (hidle _ rfl (by rw [hpc]; rfl) rfl).symm
  | woken pipe =>
    simp only [hpc] at hst
    cases hst
    simp only [Core.runEvents, hpc]
    refine congrArg some (Eq.symm ?_)
    split <;> exact hidle _ rfl (by rw [hpc]; rfl) rfl
  | idleDec =>
    simp only [hpc] at hst
    cases hst
    simp only [Core.runEvents, hpc]
    exact congrArg some (hidle _ rfl (by rw [hpc]; rfl) rfl).symm

/-- The other steps leave the queue alone. -/
theorem other_fifo (hm : Move cfg c l c') (hsched : ∀ items, l ≠ .schedule items)
    (hrun : ∀ w, l ≠ .run w) : c'.fifo = c.fifo := by
  cases hm with
  | schedule => exact absurd rfl (hsched _)
  | create => rfl
  | reset => rfl
  | @quiet l w ft f ph ph' _ hpc => exact fifo_quiet _ rfl rfl (by rw [hpc]; rfl)
  | @other l pc stopping autoStop hpc =>
    refine congrArg (Fifo.mk _) (funext fun w => ?_)
    rcases hpc w with hs | ⟨hs, hs'⟩
    · exact congrArg heldId hs
    · show heldId (pc w) = heldId (c.pc w)
      rw [heldId, heldId, hs, hs']
  | _ => exact absurd rfl (hrun _)

theorem step_fifo (h : s.toCore.Plain) (hst : step cfg s l = some s') :
    (Fifo.sys ω ℕ).runBy Sys.free s.fifo (s.events cfg l) = some s'.fifo := by
  by_cases hsched : ∃ items, l = .schedule items
  · obtain ⟨items, rfl⟩ := hsched
    obtain ⟨hfib, hpc, -⟩ := schedule_fibers hst
    refine (Fifo.runBy_arrive ..).trans (congrArg some ?_)
    unfold Core.fifo
    rw [hfib, hpc, List.map_append]
  · by_cases hrun : ∃ w, l = .run w
    · obtain ⟨w, rfl⟩ := hrun
      exact run_fifo h hst
    · have hev : s.events cfg l = [] := by
        cases l with
        | schedule items => exact absurd ⟨items, rfl⟩ hsched
        | run w => exact absurd ⟨w, rfl⟩ hrun
        | _ => rfl
      rw [hev, other_fifo (move_of_step hst) (fun items he => hsched ⟨items, he⟩)
        fun w he => hrun ⟨w, he⟩]
      rfl

/-- **The scheduler is a queue with servers** for callbacks for any thread: from every reachable
state, a run does to the queue what its steps show. -/
theorem fifo_refines {his : List (Fifo.Event ω ℕ)}
    (hs : (sys cfg).Reach (fun _ l => l.Callbacks) s)
    (h : (sys cfg).Shows (fun _ l => l.Callbacks) (fun s l => s.events cfg l) s his t) :
    (Fifo.sys ω ℕ).runBy Sys.free s.fifo his = some t.fifo :=
  h.refines (r := fun s => s.fifo) plain_inductive.step (fun _ _ _ hi _ hst => step_fifo hi.2 hst)
    (plain_inductive.reach hs)

/-- One worker finishes the first of two callbacks and yields `READY` in the second, the other
worker takes the third. -/
theorem fifo_refines_yield : ∃ (t : State (Fin 2) Unit) (his : List (Fifo.Event (Fin 2) ℕ)),
    his = [.arrive 0, .arrive 1, .serve 0 0, .arrive 2, .finish 0, .serve 0 1, .serve 1 2,
      .putBack 0 1] ∧
    t.fifo.queue = [1] ∧ (Fifo.sys (Fin 2) ℕ).runBy Sys.free {} his = some t.fifo := by
  obtain ⟨his, t, hs, hp⟩ := Sys.exists_of_showBy (S := sys (κ := Unit) twoWorkers)
    (C := fun _ l => l.Callbacks) (o := fun s l => s.events twoWorkers l) (s := {})
    (List.flatten [[.start, .schedule [{ cb := some () }, { cb := some () }]],
      .replicate 7 (.run 0), [.task 0 .term, .schedule [{ cb := some () }]],
      .replicate 11 (.run 0), [.run 1, .task 0 .ready], .replicate 5 (.run 0)])
    (p := fun x => decide (x.1 = [.arrive 0, .arrive 1, .serve 0 0, .arrive 2, .finish 0,
      .serve 0 1, .serve 1 2, .putBack 0 1]) && x.2.fifo.queue == [1]) (by decide +kernel)
  simp only [Bool.and_eq_true, decide_eq_true_eq, beq_iff_eq] at hp
  exact ⟨t, his, hp.1, hp.2, fifo_refines ⟨_, rfl, .refl⟩ hs⟩

/-- **Callbacks are served in the order in which they are queued**, and a worker that scans a queue
with an entry takes one: the callback with `k` entries in front of it is the one that is taken after
`k` others, by whatever worker. -/
theorem served_inOrder {his : List (Fifo.Event ω ℕ)}
    (hs : (sys cfg).Reach (fun _ l => l.Callbacks) s)
    (h : (sys cfg).Shows (fun _ l => l.Callbacks) (fun s l => s.events cfg l) s his t) :
    (s.fibers.map Entry.id ++ Fifo.joined his = Fifo.served his ++ t.fibers.map Entry.id) ∧
    (∀ k e, s.fibers[k]? = some e → k < (Fifo.served his).length →
      (Fifo.served his)[k]? = some e.id) ∧
    ∀ w e es, t.pc w = .scan → t.fibers = e :: es →
      ∃ t', step cfg t (.run w) = some t' ∧ t'.pc w = .turn e .tickle ∧ t'.fibers = es ∧
        t.events cfg (.run w) = [.serve w e.id] := by
  have hrun := h.refines (r := fun s => s.fifo) plain_inductive.step
    (fun _ _ _ hi _ hst => step_fifo hi.2 hst) (plain_inductive.reach hs)
  have hplain := (h.steps.keeps plain_inductive.step (plain_inductive.reach hs)).2
  refine ⟨Fifo.order hrun, fun k e hk hn => ?_, fun w e es hpc hfs => ?_⟩
  · have hget : s.fifo.queue[k]? = some e.id := by
      show (s.fibers.map Entry.id)[k]? = _
      rw [List.getElem?_map, hk]
      rfl
    obtain ⟨hlt, -⟩ := List.getElem?_eq_some_iff.mp hget
    rw [Fifo.served_get hrun hlt hn, hget]
  · have hmem : e ∈ t.fibers := by rw [hfs]; exact List.mem_cons_self
    have hscan : Scan.scan (cfg.tid w) t.fibers t.state = some (Scan.take e es t.state) := by
      rw [hfs]
      exact scan_first (hplain.thread e (.inl hmem)) fun f hf => hplain.queued e hmem f hf
    have hof : t.scanOf cfg w = some (Scan.take e es t.state) := scanOf_eq_some.mpr ⟨hpc, hscan⟩
    have hstep : ∃ t', step cfg t (.run w) = some t' ∧ t'.pc w = .turn e .tickle ∧
        t'.fibers = es := by
      show ∃ t', runStep cfg t w = some t' ∧ _
      simp only [runStep, hpc, scanStep, hscan]
      exact ⟨_, rfl, Function.update_self .., rfl⟩
    obtain ⟨t', hst, hpc', hfib⟩ := hstep
    refine ⟨t', hst, hpc', hfib, ?_⟩
    simp only [Core.events, Core.runEvents, hpc, hof]
    rfl

/-- The second callback is served second, and the third is in front of it when it is put back. -/
theorem served_inOrder_yield : ∃ (t : State (Fin 2) Unit) (his : List (Fifo.Event (Fin 2) ℕ)),
    Fifo.served his = [0, 1, 2] ∧ t.fibers.map Entry.id = [1] ∧ t.pc 0 = .scan ∧
      [] ++ Fifo.joined his = Fifo.served his ++ t.fibers.map Entry.id ∧
      ∀ e es, t.fibers = e :: es → ∃ t', step twoWorkers t (.run 0) = some t' ∧
        t'.pc 0 = .turn e .tickle ∧ t'.fibers = es := by
  obtain ⟨his, t, hs, hp⟩ := Sys.exists_of_showBy (S := sys (κ := Unit) twoWorkers)
    (C := fun _ l => l.Callbacks) (o := fun s l => s.events twoWorkers l) (s := {})
    (List.flatten [[.start, .schedule [{ cb := some () }, { cb := some () }]],
      .replicate 7 (.run 0), [.task 0 .term, .schedule [{ cb := some () }]],
      .replicate 11 (.run 0), [.run 1, .task 0 .ready], .replicate 6 (.run 0)])
    (p := fun x => Fifo.served x.1 == [0, 1, 2] && x.2.fibers.map Entry.id == [1] &&
      decide (x.2.pc 0 = .scan)) (by decide +kernel)
  simp only [Bool.and_eq_true, decide_eq_true_eq, beq_iff_eq] at hp
  obtain ⟨⟨hv, hq⟩, hpc⟩ := hp
  obtain ⟨hord, -, htake⟩ := served_inOrder ⟨_, rfl, .refl⟩ hs
  refine ⟨t, his, hv, hq, hpc, hord, fun e es he => ?_⟩
  obtain ⟨t', hst, ht', hes, -⟩ := htake 0 e es hpc he
  exact ⟨t', hst, ht', hes⟩

omit [DecidableEq ω] in
/-- A scan takes no fiber that a worker has. -/
theorem Core.Plain.apart (h : c.Plain) (l : Label ω κ) : c.Apart cfg l := by
  cases l with
  | run w =>
    intro r hr ft ht f hf u hu
    obtain ⟨hpc, hscan⟩ := scanOf_eq_some.mp hr
    rcases h.scan hscan with ⟨-, rfl⟩ | ⟨e, es, hfs, rfl⟩
    · cases ht
    · cases ht
      exact h.unheld (by rw [hfs]; exact List.mem_cons_self) hf u (Pc.turnFiber_of_fiberIn hu)
  | _ => trivial

/-- **Callbacks do not race**: in every run with callbacks for any thread each fiber is switched to
by one worker at a time, with its context saved and not after it has finished; and no task is lost or
duplicated. -/
theorem callbacks_conserved (hs : (sys cfg).Reach (fun _ l => l.Callbacks) s) :
    s.Exclusive ∧ s.Conserved := by
  have happart : (sys cfg).Reach (fun s l => s.toCore.Apart cfg l) s :=
    plain_inductive.reach_mono (fun s l hi _ => hi.2.apart l) hs
  obtain ⟨⟨ht, hsole⟩, hreq⟩ := requeued_inductive.reach happart
  have hact := ht.counted.toNat cfg
  refine ⟨hsole.exclusive, fun n hn => ht.one_place hn, ht.wf.retired, hreq, hact, fun w hw h₀ => ?_⟩
  have := le_sum (fun u => (s.pc u).counted) w
  rw [← hact, h₀] at this
  change (s.pc w).counted ≤ 0 at this
  omega

/-- A callback that yields is put back while the other worker runs another one. -/
theorem callbacks_conserved_yield : ∃ s : State (Fin 2) Unit,
    s.fibers.map Entry.id = [0] ∧ (s.pc 1).fiberIn Phase.inside = some 1 ∧
      s.Exclusive ∧ s.Conserved := by
  obtain ⟨s, hs, hp⟩ := Sys.exists_of_runBy (S := sys (κ := Unit) twoWorkers)
    (C := fun _ l => l.Callbacks) (s := {})
    (List.flatten [[.start, .schedule [{ cb := some () }, { cb := some () }]],
      .replicate 7 (.run 0), .replicate 7 (.run 1), [.task 0 .ready], .replicate 5 (.run 0)])
    (p := fun s => s.fibers.map Entry.id == [0] && (s.pc 1).fiberIn Phase.inside == some 1)
    (by decide +kernel)
  simp only [Bool.and_eq_true, beq_iff_eq] at hp
  exact ⟨s, hp.1, hp.2, callbacks_conserved ⟨_, rfl, hs⟩⟩

end Sched

end Ddg
