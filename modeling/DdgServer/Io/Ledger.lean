import DdgServer.Io.CallLemmas
import DdgServer.Lib.Count

/-!
# The manager loses no registration and counts them right

Over an arbitrary `epoll_ctl`, which may fail at any call.

- **Soundness** (`IOManager.Sound`): each context is well formed, and `m_pendingEventCount` is the
  number of armed events.
- **Conservation** (`Sound.exec`): a call moves waiters from the contexts to the schedulers; only
  `addEvent` brings one (`Op.adds`), and only `delEvent` drops one (`drops`).
- **Registrations** (`Ledger.sys`): each call of `addEvent` has a number, and the waiter that it
  brings carries it.
- `registrations_accounted`: the counter, the contexts, and the three places of a registration.
-/

namespace Ddg

variable {φ κ K : Type}

/-- What the call adds to the waiters, weighed by `g`. -/
def Op.adds (g : φ ⊕ κ → ℕ) : Op φ κ → Ret → ℕ
  | .addEvent _ _ cb me, .int r => if r = 0 then cb.elim (g (.inl me.fiber)) fun cb => g (.inr cb) else 0
  | _, _ => 0

/-- What the call drops from the context, weighed by `g`. -/
def FdContext.drops (g : φ ⊕ κ → ℕ) (c : FdContext φ κ) : Op φ κ → Ret → ℕ
  | .delEvent _ event, .bool true =>
    match c.getContext event with
    | .ok x => x.weight g
    | .error _ => 0
  | _, _ => 0

namespace View

variable {ctl : Ctl K} {v v' : View φ κ K} {a a' : Armed}

/-- From `v` to `v'` the waiters `inn` came and the waiters `out` went, and the counter followed the
armed events. -/
structure Moved (a : Armed) (v v' : View φ κ K) (inn out : (φ ⊕ κ → ℕ) → ℕ) : Prop where
  fd : v'.ctx.fd = v.ctx.fd
  armed : ∃ a', v'.ctx.Ok a' ∧
    v'.pendingEventCount + (a.card : BitVec 64) = v.pendingEventCount + (a'.card : BitVec 64)
  waiters : ∀ g, v'.ctx.weight g + queued g v'.scheduled + out g =
    v.ctx.weight g + queued g v.scheduled + inn g

/-- A call that only spoke to the kernel. -/
theorem Moved.ofKernel (h : v.ctx.Ok a) (k : K) :
    Moved a v { v with epoll := k } (fun _ => 0) fun _ => 0 :=
  ⟨rfl, ⟨a, h, rfl⟩, fun _ => rfl⟩

theorem Consumed.moved {k : K} (h : Consumed a a' { v with epoll := k } v') :
    Moved a v v' (fun _ => 0) fun _ => 0 :=
  ⟨h.fd, ⟨a', h.ok, h.count⟩, fun g => h.waiters g⟩

/-- `addEvent` adds the caller or the callback if it returns `0`. -/
theorem addEvent_moved {fd : Fd} {event : Event} {cb : Option κ} {me : Caller φ} {i : ℤ}
    (h : v.ctx.Ok a) (hz : v.addEvent ctl fd.val event cb me = .ok (i, v')) :
    Moved a v v' (fun g => (Op.addEvent fd event cb me).adds g (.int i)) fun _ => 0 := by
  rcases addEvent_spec h hz with ⟨-, rfl, rfl⟩ | ⟨-, rfl, hne, ha, x, hx, -, hw, rfl⟩
  · exact .ofKernel h _
  · refine ⟨FdContext.setContext_fd x, ⟨_, h.set hx, ?_⟩, fun g => ?_⟩
    · have hn := congrArg (Nat.cast (R := BitVec 64)) (Armed.card_arm hne ha)
      rw [Nat.cast_add, Nat.cast_one] at hn
      show v.pendingEventCount + 1 + (a.card : BitVec 64) = _
      linear_combination -hn
    · obtain ⟨y, hy⟩ : ∃ y, v.ctx.getContext event = .ok y := by
        cases event
        · exact absurd rfl hne
        · exact ⟨_, rfl⟩
        · exact ⟨_, rfl⟩
      obtain rfl : y = {} := EventContext.holds_false.mp (ha ▸ h.get hy)
      have hset := FdContext.weight_set g hy x (a.set true event).mask
      rw [EventContext.weight_empty, Nat.add_zero, hw] at hset
      show FdContext.weight g { v.ctx.setContext x event with events := (a.set true event).mask } +
        queued g v.scheduled + 0 = _
      rw [hset]
      simp only [Op.adds, if_pos]
      omega

/-- `delEvent` drops the waiter of the event if it returns true. -/
theorem delEvent_moved {fd : Fd} {event : Event} {b : Bool} (h : v.ctx.Ok a)
    (hz : v.delEvent ctl fd.val event = .ok (b, v')) :
    Moved a v v' (fun _ => 0) fun g => v.ctx.drops g (.delEvent fd event) (.bool b) := by
  rcases delEvent_spec h hz with ⟨rfl, -, rfl⟩ | ⟨rfl, -, -, rfl⟩ | ⟨rfl, ha, -, x, hx, rfl⟩
  · exact .ofKernel h _
  · exact .ofKernel h _
  · refine ⟨FdContext.setContext_fd {}, ⟨_, h.set (EventContext.holds_false.mpr rfl), ?_⟩,
      fun g => ?_⟩
    · have hn := congrArg (Nat.cast (R := BitVec 64)) (Armed.card_clear ha)
      rw [Nat.cast_add, Nat.cast_one] at hn
      show v.pendingEventCount - 1 + (a.card : BitVec 64) = _
      linear_combination -hn
    · have hset := FdContext.weight_set g hx {} (a.set false event).mask
      rw [EventContext.weight_empty, Nat.add_zero] at hset
      have hdrop : v.ctx.drops g (.delEvent fd event) (.bool true) = x.weight g := by
        simp only [FdContext.drops, hx]
      show FdContext.weight g { v.ctx.setContext {} event with events := (a.set false event).mask } +
        queued g v.scheduled + v.ctx.drops g (.delEvent fd event) (.bool true) =
          v.ctx.weight g + queued g v.scheduled + 0
      rw [hdrop]
      omega

/-- What one call does to the waiters of its context. -/
theorem exec_moved {op : Op φ κ} {r : Ret} (h : v.ctx.Ok a)
    (he : v.exec ctl op = .ok (r, v')) :
    Moved a v v' (fun g => op.adds g r) fun g => v.ctx.drops g op r := by
  cases op with
  | addEvent fd event cb me =>
    obtain ⟨⟨i, v₁⟩, hz, hr⟩ := IOManager.map_ok he
    cases hr
    exact addEvent_moved h hz
  | delEvent fd event =>
    obtain ⟨⟨b, v₁⟩, hz, hr⟩ := IOManager.map_ok he
    cases hr
    exact delEvent_moved h hz
  | cancelEvent fd event =>
    obtain ⟨⟨b, v₁⟩, hz, hr⟩ := IOManager.map_ok he
    cases hr
    unfold cancelEvent at hz
    split at hz
    · rcases cancelLocked_spec h hz with ⟨-, -, rfl⟩ | ⟨-, -, -, hcs⟩
      · exact .ofKernel h _
      · exact hcs.moved
    · cases hz
      exact .ofKernel h _
  | cancelAll fd =>
    obtain ⟨⟨b, v₁⟩, hz, hr⟩ := IOManager.map_ok he
    cases hr
    unfold cancelAll at hz
    split at hz
    · rcases cancelAllLocked_spec h hz with ⟨-, -, rfl⟩ | ⟨-, -, hcs⟩
      · exact .ofKernel h _
      · exact hcs.moved
    · cases hz
      exact .ofKernel h _
  | deliver fd word =>
    obtain ⟨v₁, hz, hr⟩ := IOManager.map_ok he
    cases hr
    rcases deliver_spec h hz with ⟨-, rfl⟩ | ⟨-, -, rfl⟩ | ⟨-, -, hcs⟩
    · exact .ofKernel h _
    · exact .ofKernel h _
    · exact hcs.moved

end View

/-! ## The manager -/

namespace IOManager

variable {ctl : Ctl K} {m m' : IOManager φ κ K}

/-- The waiters of the manager and those that it handed out, weighed by `g`. -/
def waiters (g : φ ⊕ κ → ℕ) (m : IOManager φ κ K) : ℕ :=
  (m.ctxs.map fun c => c.weight g).sum + queued g m.scheduled

/-- The number of armed events over all contexts. -/
def armed (m : IOManager φ κ K) : ℕ := (m.ctxs.map fun c => c.events.armed).sum

/-- What the call drops. -/
def drops (g : φ ⊕ κ → ℕ) (m : IOManager φ κ K) (op : Op φ κ) (r : Ret) : ℕ :=
  (m.ctxs[op.fd.val]?).elim 0 fun c => c.drops g op r

/-- Well-formed contexts and an exact counter. -/
structure Sound (m : IOManager φ κ K) : Prop where
  dense : m.Dense
  ok : ∀ c ∈ m.ctxs, ∃ a, c.Ok a
  count : m.pendingEventCount = (m.armed : BitVec 64)

theorem newContext_armed (g : φ ⊕ κ → ℕ) {l : List (FdContext φ κ)}
    (h : ∀ c ∈ l, ∃ i, c = Table.newContext i) :
    (l.map fun c => c.weight g).sum = 0 ∧ (l.map fun c => c.events.armed).sum = 0 ∧
      ∀ c ∈ l, c.Ok ⟨false, false⟩ := by
  refine ⟨List.sum_eq_zero fun x hx => ?_, List.sum_eq_zero fun x hx => ?_, fun c hc => ?_⟩
  · obtain ⟨c, hc, rfl⟩ := List.mem_map.mp hx
    obtain ⟨i, rfl⟩ := h c hc
    rfl
  · obtain ⟨c, hc, rfl⟩ := List.mem_map.mp hx
    obtain ⟨i, rfl⟩ := h c hc
    exact Armed.mask_armed ⟨false, false⟩
  · obtain ⟨i, rfl⟩ := h c hc
    exact ⟨rfl, rfl, rfl⟩

theorem Sound.grown (h : m.Sound) (op : Op φ κ) :
    (m.grown op).Sound ∧ ∀ g, (m.grown op).waiters g = m.waiters g := by
  obtain ⟨hd, l, hl, hc, -, hp, hs⟩ := grown_spec h.dense op
  refine ⟨⟨hd, fun c hcm => ?_, ?_⟩, fun g => ?_⟩
  · rw [hc, List.mem_append] at hcm
    rcases hcm with hcm | hcm
    · exact h.ok c hcm
    · exact ⟨_, (newContext_armed (fun _ => 0) hl).2.2 c hcm⟩
  · rw [hp, h.count, armed, armed, hc, List.map_append, List.sum_append,
      (newContext_armed (fun _ => 0) hl).2.1, Nat.add_zero]
  · rw [waiters, waiters, hc, hs, List.map_append, List.sum_append, (newContext_armed g hl).1,
      Nat.add_zero]

/-- `delEvent` does not grow the table. -/
theorem drops_grown {op : Op φ κ} {c : FdContext φ κ} (hc : (m.grown op).ctxs[op.fd.val]? = some c)
    (g : φ ⊕ κ → ℕ) (r : Ret) : m.drops g op r = c.drops g op r := by
  cases op with
  | addEvent fd event cb me =>
    show (m.ctxs[fd.val]?).elim 0 (fun _ => 0) = 0
    cases m.ctxs[fd.val]? <;> rfl
  | delEvent fd event => exact congrArg (·.elim 0 fun c => c.drops g (.delEvent fd event) r) hc
  | cancelEvent fd event => exact congrArg (·.elim 0 fun c => c.drops g (.cancelEvent fd event) r) hc
  | cancelAll fd => exact congrArg (·.elim 0 fun c => c.drops g (.cancelAll fd) r) hc
  | deliver fd word => exact congrArg (·.elim 0 fun c => c.drops g (.deliver fd word) r) hc

/-- A call keeps the manager sound, and what it adds and drops accounts for the waiters. -/
theorem Sound.exec (h : m.Sound) {op : Op φ κ} {r : Ret} (he : m.exec ctl op = .ok (r, m')) :
    m'.Sound ∧ ∀ g, m'.waiters g + m.drops g op r = m.waiters g + op.adds g r := by
  obtain ⟨hg, hw⟩ := h.grown op
  rcases exec_spec h.dense he with hn | ⟨hc, hv⟩
  · refine ⟨h, fun g => ?_⟩
    rw [drops, hn]
    cases op <;> rfl
  · rename_i c v
    obtain ⟨hlt, hget⟩ := List.getElem?_eq_some_iff.mp hc
    obtain ⟨a, ha⟩ := hg.ok c (List.mem_of_getElem? hc)
    obtain ⟨hfd, ⟨a', ha', hcount⟩, hmoved⟩ :=
      View.exec_moved (v := (m.grown op).view c) ha hv
    refine ⟨⟨put_dense hg.dense hc hfd, fun c' hc' => ?_, ?_⟩, fun g => ?_⟩
    · rcases List.mem_or_eq_of_mem_set hc' with hc' | rfl
      · exact hg.ok c' hc'
      · exact ⟨a', ha'⟩
    · have hs := congrArg (Nat.cast (R := BitVec 64))
        (Interleave.sum_set (fun c => c.events.armed) hlt v.ctx)
      rw [hget, ha.events, ha'.events, Armed.mask_armed, Armed.mask_armed, Nat.cast_add,
        Nat.cast_add] at hs
      have hcount₀ : (m.grown op).pendingEventCount = ((m.grown op).armed : BitVec 64) := hg.count
      show v.pendingEventCount = ((((m.grown op).ctxs.set op.fd v.ctx).map
        fun c => c.events.armed).sum : ℕ)
      simp only [view] at hcount
      rw [hcount₀, armed] at hcount
      linear_combination hcount - hs
    · have hs := Interleave.sum_set (fun c => c.weight g) hlt v.ctx
      rw [hget] at hs
      have hm := hmoved g
      rw [drops_grown hc, ← hw g]
      show (((m.grown op).ctxs.set op.fd v.ctx).map fun c => c.weight g).sum +
        queued g v.scheduled + c.drops g op r =
          ((m.grown op).ctxs.map fun c => c.weight g).sum + queued g (m.grown op).scheduled + _
      simp only [view] at hm
      omega

theorem initial_sound (k : K) : (initial k : IOManager φ κ K).Sound ∧
    ∀ g, (initial k : IOManager φ κ K).waiters g = 0 := by
  have hnew : ∀ c ∈ (Table.initial : Table φ κ).ctxs, ∃ i, c = Table.newContext i := by
    intro c hc
    rw [Table.initial_eq] at hc
    obtain ⟨j, -, rfl⟩ := List.mem_map.mp hc
    exact ⟨j, rfl⟩
  have h₀ : (initial k : IOManager φ κ K).armed = 0 := (newContext_armed (fun _ => 0) hnew).2.1
  refine ⟨⟨Table.initial_dense, fun c hc => ⟨_, (newContext_armed (fun _ => 0) hnew).2.2 c hc⟩, ?_⟩,
    fun g => ?_⟩
  · rw [h₀]
    rfl
  · have hw : ((initial k : IOManager φ κ K).ctxs.map fun c => c.weight g).sum = 0 :=
      (newContext_armed g hnew).1
    rw [waiters, hw]
    rfl

/-- The counter does not wrap. -/
theorem Sound.toNat_count (h : m.Sound) : m.pendingEventCount.toNat = m.armed := by
  have hle : m.armed ≤ 2 * m.ctxs.length := by
    refine Interleave.sum_map_le _ 2 (fun c => ?_) m.ctxs
    show c.events.armed ≤ 2
    unfold Word.armed
    have := Bool.toNat_le (c.events.test EPOLLIN)
    have := Bool.toNat_le (c.events.test EPOLLOUT)
    omega
  have := h.dense.short
  rw [h.count, BitVec.natCast_eq_ofNat, BitVec.toNat_ofNat]
  exact Nat.mod_eq_of_lt (by omega)

end IOManager

/-! ## Registrations -/

namespace Ledger

/-- The manager whose waiters carry the number of the `addEvent` call that brought them: the number
of these calls so far, those that returned 0, and those whose waiter `delEvent` dropped. -/
structure State (φ κ K : Type) where
  manager : IOManager (ℕ × φ) (ℕ × κ) K
  calls : ℕ := 0
  accepted : List ℕ := []
  removed : List ℕ := []

/-- The call, with the number `n` on the waiter that it brings. -/
def tag (n : ℕ) : Op φ κ → Op (ℕ × φ) (ℕ × κ)
  | .addEvent fd event cb me =>
    .addEvent fd event (cb.map (n, ·))
      { scheduler := me.scheduler, fiber := (n, me.fiber), state := me.state }
  | .delEvent fd event => .delEvent fd event
  | .cancelEvent fd event => .cancelEvent fd event
  | .cancelAll fd => .cancelAll fd
  | .deliver fd word => .deliver fd word

/-- The numbers that the context of an event holds. -/
def numbers (x : EventContext (ℕ × φ) (ℕ × κ)) : List ℕ :=
  x.fiber.toList.map Prod.fst ++ x.cb.toList.map Prod.fst

/-- The numbers that a `delEvent` that returns true drops. -/
def dropped (m : IOManager (ℕ × φ) (ℕ × κ) K) (fd : Fd) (event : Event) : List ℕ :=
  match m.ctxs[fd.val]? with
  | none => []
  | some c =>
    match c.getContext event with
    | .error _ => []
    | .ok x => numbers x

/-- The lists after the call `op` returned `r`. -/
def record (s : State φ κ K) (m : IOManager (ℕ × φ) (ℕ × κ) K) : Op φ κ → Ret → State φ κ K
  | .addEvent .., .int r =>
    { s with
      manager := m, calls := s.calls + 1
      accepted := if r = 0 then s.accepted ++ [s.calls] else s.accepted }
  | .delEvent fd event, .bool true =>
    { s with manager := m, removed := s.removed ++ dropped s.manager fd event }
  | _, _ => { s with manager := m }

def step (ctl : Ctl K) (s : State φ κ K) (op : Op φ κ) : Option (State φ κ K) :=
  match s.manager.exec ctl (tag s.calls op) with
  | .error _ => none
  | .ok (r, m) => some (record s m op r)

def sys (ctl : Ctl K) (k : K) : Interleave.Sys (State φ κ K) (Op φ κ) where
  init s := s = { manager := IOManager.initial k }
  step := step ctl

/-- One for the waiter with the number `n`. -/
def isReg (n : ℕ) : (ℕ × φ) ⊕ (ℕ × κ) → ℕ
  | .inl x => if x.1 = n then 1 else 0
  | .inr x => if x.1 = n then 1 else 0

/-- How often the registration `n` is still armed. -/
def armed (s : State φ κ K) (n : ℕ) : ℕ := (s.manager.ctxs.map fun c => c.weight (isReg n)).sum

/-- How often the registration `n` was handed to a scheduler. -/
def handed (s : State φ κ K) (n : ℕ) : ℕ := queued (isReg n) s.manager.scheduled

theorem count_numbers (x : EventContext (ℕ × φ) (ℕ × κ)) (n : ℕ) :
    (numbers x).count n = x.weight (isReg n) := by
  obtain ⟨s, f, c⟩ := x
  cases f <;> cases c <;>
    simp [numbers, EventContext.weight, weigh, isReg, List.count_cons, Nat.add_comm]

theorem adds_tag {fd : Fd} {event : Event} {cb : Option κ} {me : Caller φ} (k n : ℕ) (i : ℤ) :
    (tag k (.addEvent fd event cb me)).adds (isReg n) (.int i) =
      if i = 0 then [k].count n else 0 := by
  cases cb <;> simp [tag, Op.adds, isReg, List.count_cons]

theorem count_dropped (m : IOManager (ℕ × φ) (ℕ × κ) K) (fd : Fd) (event : Event) (n : ℕ) :
    (dropped m fd event).count n =
      m.drops (isReg n) (.delEvent fd event) (.bool true) := by
  show _ = (m.ctxs[fd.val]?).elim 0 _
  unfold dropped
  cases m.ctxs[fd.val]? with
  | none => rfl
  | some c =>
    simp only [Option.elim_some, FdContext.drops]
    cases c.getContext event with
    | error => rfl
    | ok x => exact count_numbers x n

/-- The invariant: the numbers given out, and where their waiters are. -/
structure Inv (s : State φ κ K) : Prop where
  sound : s.manager.Sound
  fresh : ∀ n ∈ s.accepted, n < s.calls
  nodup : s.accepted.Nodup
  places : ∀ n, s.manager.waiters (isReg n) + s.removed.count n = s.accepted.count n

variable {ctl : Ctl K} {s s' : State φ κ K}

/-- A registration with the number of this call is accepted. -/
theorem Inv.accept (h : Inv s) {m : IOManager (ℕ × φ) (ℕ × κ) K} (hsound : m.Sound)
    (hplaces : ∀ n, m.waiters (isReg n) + s.removed.count n =
      s.accepted.count n + [s.calls].count n) :
    Inv { s with manager := m, accepted := s.accepted ++ [s.calls], calls := s.calls + 1 } := by
  refine ⟨hsound, fun n hn => ?_, ?_, fun n => ?_⟩
  · rcases List.mem_append.mp hn with hn | hn
    · exact (h.fresh n hn).trans (Nat.lt_succ_self _)
    · rw [List.mem_singleton.mp hn]
      exact Nat.lt_succ_self _
  · refine List.nodup_append.mpr ⟨h.nodup, List.nodup_singleton _, fun x hx y hy hxy => ?_⟩
    have := h.fresh x hx
    rw [List.mem_singleton.mp hy] at hxy
    omega
  · show _ = (s.accepted ++ [s.calls]).count n
    rw [List.count_append]
    exact hplaces n

theorem Inv.step (h : Inv s) {op : Op φ κ} (hs : step ctl s op = some s') : Inv s' := by
  unfold Ledger.step at hs
  split at hs
  · cases hs
  · rename_i r m he
    cases hs
    obtain ⟨hsound, hw⟩ := h.sound.exec he
    -- nothing is added and nothing dropped
    have hkeep : (∀ n, s.manager.drops (isReg n) (tag s.calls op) r = 0) →
        (∀ n, (tag s.calls op).adds (isReg n) r = 0) → Inv { s with manager := m } := by
      intro hd ha
      refine ⟨hsound, h.fresh, h.nodup, fun n => ?_⟩
      have := hw (isReg n)
      rw [hd n, ha n] at this
      rw [← h.places n]
      show m.waiters (isReg n) + s.removed.count n = _
      omega
    have hzero : ∀ x : Option (FdContext (ℕ × φ) (ℕ × κ)), x.elim 0 (fun _ => 0) = 0 := by
      rintro (_ | _) <;> rfl
    cases op with
    | addEvent fd event cb me =>
      obtain ⟨⟨i, m₁⟩, -, hr⟩ := IOManager.map_ok he
      cases hr
      have hplaces : ∀ n, m₁.waiters (isReg n) + s.removed.count n =
          s.accepted.count n + if i = 0 then [s.calls].count n else 0 := by
        intro n
        have hn := hw (isReg n)
        have hd : s.manager.drops (isReg n) (tag s.calls (.addEvent fd event cb me)) (.int i) = 0 :=
          hzero _
        rw [hd, adds_tag] at hn
        change m₁.waiters (isReg n) + 0 = s.manager.waiters (isReg n) + _ at hn
        rw [← h.places n, Nat.add_right_comm, ← hn, Nat.add_zero]
      by_cases hi : i = 0
      · subst hi
        exact h.accept hsound hplaces
      · refine ⟨hsound, fun n hn => ?_, ?_, fun n => ?_⟩
        · rw [record, if_neg hi] at hn
          exact (h.fresh n hn).trans (Nat.lt_succ_self _)
        · rw [record, if_neg hi]
          exact h.nodup
        · have := hplaces n
          rw [if_neg hi] at this
          rw [record, if_neg hi]
          exact this
    | delEvent fd event =>
      obtain ⟨⟨b, m₁⟩, -, hr⟩ := IOManager.map_ok he
      cases hr
      cases b with
      | false => exact hkeep (fun n => hzero _) fun n => rfl
      | true =>
        refine ⟨hsound, h.fresh, h.nodup, fun n => ?_⟩
        have hn : m₁.waiters (isReg n) +
            s.manager.drops (isReg n) (.delEvent fd event) (.bool true) =
              s.manager.waiters (isReg n) := hw (isReg n)
        show m₁.waiters (isReg n) + (s.removed ++ dropped s.manager fd event).count n =
          s.accepted.count n
        rw [List.count_append, count_dropped, ← h.places n, ← hn]
        omega
    | cancelEvent fd event => exact hkeep (fun n => hzero _) fun n => rfl
    | cancelAll fd => exact hkeep (fun n => hzero _) fun n => rfl
    | deliver fd word => exact hkeep (fun n => hzero _) fun n => rfl

theorem inv_inductive (ctl : Ctl K) (k : K) :
    (sys (φ := φ) (κ := κ) ctl k).Inductive Interleave.Sys.free Inv where
  init := by
    rintro s rfl
    obtain ⟨hs, hw⟩ := IOManager.initial_sound (φ := ℕ × φ) (κ := ℕ × κ) k
    refine ⟨hs, fun _ hn => absurd hn List.not_mem_nil, List.nodup_nil, fun n => ?_⟩
    rw [hw]
    rfl
  step _ _ _ hi _ hs := hi.step hs

/-- In every run of calls that do not end the process, whatever `epoll_ctl` does: the counter is
the number of armed events; an event is armed iff its context holds exactly one of a fiber and a
callback, and the context of an event that is not armed is empty; and an accepted registration is
exactly once armed, handed to a scheduler, or removed. -/
theorem registrations_accounted {k : K} (h : (sys ctl k).Reach Interleave.Sys.free s) :
    s.manager.pendingEventCount.toNat = (s.manager.ctxs.map fun c => c.events.armed).sum ∧
    (∀ c ∈ s.manager.ctxs, ∀ (e : Event) x, c.getContext e = .ok x →
      (c.events.test e.bits = true ↔ x.fiber.isSome ≠ x.cb.isSome) ∧
      (c.events.test e.bits = false → x = {})) ∧
    s.accepted.Nodup ∧
    ∀ n, armed s n + handed s n + s.removed.count n = if n ∈ s.accepted then 1 else 0 := by
  have hi := (inv_inductive ctl k).reach h
  refine ⟨hi.sound.toNat_count, fun c hc e x hx => ?_, hi.nodup, fun n => ?_⟩
  · obtain ⟨a, ha⟩ := hi.sound.ok c hc
    have hholds := ha.get hx
    rw [ha.events, Armed.mask_test]
    cases hb : a.get e with
    | false =>
      rw [hb, EventContext.holds_false] at hholds
      subst hholds
      simp
    | true =>
      rw [hb, EventContext.holds_true] at hholds
      exact ⟨⟨fun _ => hholds, fun _ => rfl⟩, nofun⟩
  · rw [← hi.nodup.count]
    exact hi.places n

/-- A kernel that refuses every call after the third one: two registrations are accepted, the first
one is cancelled, and a third one is refused. -/
theorem registrations_accounted_failing : ∃ s : State Unit Unit ℕ,
    s.calls = 3 ∧ s.accepted = [0, 1] ∧ handed s 0 = 1 ∧ armed s 1 = 1 ∧
    s.manager.pendingEventCount.toNat = (s.manager.ctxs.map fun c => c.events.armed).sum ∧
    (∀ c ∈ s.manager.ctxs, ∀ (e : Event) x, c.getContext e = .ok x →
      (c.events.test e.bits = true ↔ x.fiber.isSome ≠ x.cb.isSome) ∧
      (c.events.test e.bits = false → x = {})) ∧
    s.accepted.Nodup ∧
    ∀ n, armed s n + handed s n + s.removed.count n = if n ∈ s.accepted then 1 else 0 := by
  let ctl : Ctl ℕ := fun k _ _ _ => (k < 3, k + 1)
  let me : Caller Unit := { scheduler := some 0, fiber := (), state := .exec }
  obtain ⟨s, hs, hp⟩ := Interleave.Sys.exists_of_runBy (S := sys (φ := Unit) (κ := Unit) ctl 0)
    (C := Interleave.Sys.free) (s := { manager := IOManager.initial 0 })
    [.addEvent 5 .read (some ()) me, .addEvent 5 .write none me, .cancelEvent 5 .read,
      .addEvent 7 .read none me]
    (p := fun s => s.calls == 3 && s.accepted == [0, 1] && handed s 0 == 1 && armed s 1 == 1)
    (by decide)
  simp only [Bool.and_eq_true, beq_iff_eq] at hp
  exact ⟨s, hp.1.1.1, hp.1.1.2, hp.1.2, hp.2, registrations_accounted ⟨_, rfl, hs⟩⟩

end Ledger
end Ddg
