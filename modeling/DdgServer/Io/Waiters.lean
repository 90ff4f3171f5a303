import DdgServer.Io.Batch
import DdgServer.Lib.Refine

/-!
# The manager is a map of waiters

What an `IOManager` is for: it knows who waits for which event of which fd (`Waiters`). The table,
the contexts, the words of armed events and the kernel's map are how the code does it.

* `Waiters.call`: the calls on such a map, with their results and their faults.
* `IOManager.toWaiters`: the map that a manager stands for.
* `View.Stands`: a context stands for the waiters of its fd.
* `exec_matches`: a call of the manager does to the map what the call of the map does, with the same
  result or the same fault.
* `waiters_refined`: the runs.
-/

namespace Ddg

open Interleave

variable {φ κ : Type}

/-- Some event is in both. -/
def Armed.meets (a b : Armed) : Bool := a.read && b.read || a.write && b.write

/-! ## The map -/

/-- Who waits for an event: a fiber or a callback, and the scheduler that gets it. -/
structure Waiter (φ κ : Type) where
  scheduler : Option SchedulerId
  task : φ ⊕ κ
  deriving DecidableEq

/-- The entry that the scheduler gets. -/
def Waiter.entry (w : Waiter φ κ) : FiberAndThread φ κ :=
  { fiber := w.task.getLeft?, cb := w.task.getRight? }

/-- Who waits for which event of which fd, and the calls of `schedule` made so far. -/
structure Waiters (φ κ : Type) where
  who : Fd × Event → Option (Waiter φ κ) := fun _ => none
  scheduled : List (Call φ κ) := []

namespace Waiters

variable (s : Waiters φ κ)

/-- Who waits at `k` from now on. -/
def set (k : Fd × Event) (w : Option (Waiter φ κ)) : Waiters φ κ :=
  { s with who := Function.update s.who k w }

/-- The waiter goes to its scheduler. -/
def fire (k : Fd × Event) : Except Fault (Waiters φ κ) :=
  match s.who k with
  | none => .error .assertion
  | some w =>
    match w.scheduler with
    | none => .error .nullDeref
    | some scheduler =>
      .ok { s.set k none with scheduled := s.scheduled ++ [(scheduler, w.entry)] }

def fireIf (b : Bool) (k : Fd × Event) : Except Fault (Waiters φ κ) :=
  if b then s.fire k else .ok s

/-- `READ` and then `WRITE` of an fd. -/
def fireBoth (fd : Fd) (d : Armed) : Except Fault (Waiters φ κ) :=
  (s.fireIf d.read (fd, .read)).bind fun s => s.fireIf d.write (fd, .write)

/-- The events of an fd that somebody waits for. -/
def awaited (fd : Fd) : Armed := ⟨(s.who (fd, .read)).isSome, (s.who (fd, .write)).isSome⟩

/-- A call of the manager on the map. -/
def call : Op φ κ → Except Fault (Ret × Waiters φ κ)
  | .addEvent fd event cb me =>
    if event = .none ∨ (s.who (fd, event)).isSome then .error .assertion
    else
      match cb with
      | some cb => .ok (.int 0, s.set (fd, event) (some ⟨me.scheduler, .inr cb⟩))
      | none =>
        if me.state = .exec then
          .ok (.int 0, s.set (fd, event) (some ⟨me.scheduler, .inl me.fiber⟩))
        else .error .assertion
  | .delEvent fd event =>
    if (s.who (fd, event)).isSome then .ok (.bool true, s.set (fd, event) none)
    else .ok (.bool false, s)
  | .cancelEvent fd event =>
    if (s.who (fd, event)).isSome then (s.fire (fd, event)).map (.bool true, ·)
    else .ok (.bool false, s)
  | .cancelAll fd =>
    if s.awaited fd = ⟨false, false⟩ then .ok (.bool false, s)
    else (s.fireBoth fd (s.awaited fd)).map (.bool true, ·)
  | .deliver fd word =>
    -- one of the reported events is waited for; then all of them have to be
    if (s.awaited fd).meets (realEvents word) then
      (s.fireBoth fd (realEvents word)).map (.void, ·)
    else .ok (.void, s)

/-- The map, call by call, with what each call returns. -/
def sys : Interleave.Sys (Waiters φ κ) (Op φ κ × Ret) where
  init s := s = {}
  step s l := ((s.call l.1).toOption.bind fun x => if x.1 = l.2 then some x.2 else none)

end Waiters

/-! ## The map that a manager stands for -/

def EventContext.waiter (x : EventContext φ κ) : Option (Waiter φ κ) :=
  match x.cb, x.fiber with
  | some cb, _ => some ⟨x.scheduler, .inr cb⟩
  | none, some f => some ⟨x.scheduler, .inl f⟩
  | none, none => none

def FdContext.waiter (c : FdContext φ κ) (e : Event) : Option (Waiter φ κ) :=
  (c.getContext e).toOption.bind EventContext.waiter

def IOManager.toWaiters {K : Type} (m : IOManager φ κ K) : Waiters φ κ where
  who k := (m.context k.1).bind fun c => c.waiter k.2
  scheduled := m.scheduled

theorem Armed.meets_iff {a b : Armed} : a.mask &&& b.mask = 0 ↔ a.meets b = false := by
  obtain ⟨r, w⟩ := a
  obtain ⟨r', w'⟩ := b
  revert r w r' w'
  decide

theorem Armed.exists_get {a : Armed} (h : a.mask ≠ 0) : ∃ e, a.get e = true := by
  obtain ⟨r, w⟩ := a
  cases r with
  | true => exact ⟨.read, rfl⟩
  | false =>
    cases w with
    | true => exact ⟨.write, rfl⟩
    | false => exact absurd rfl h

/-- An armed event is one that somebody waits for. -/
theorem EventContext.Holds.waiter {x : EventContext φ κ} {b : Bool} (h : x.Holds b) :
    x.waiter.isSome = b ∧
      ∀ w ∈ x.waiter, w.scheduler = x.scheduler ∧ w.entry = { fiber := x.fiber, cb := x.cb } := by
  cases b with
  | false =>
    rw [holds_false.mp h]
    exact ⟨rfl, nofun⟩
  | true =>
    obtain ⟨s, f, c⟩ := x
    have h := holds_true.mp h
    cases c with
    | some c =>
      cases f with
      | some f => exact absurd rfl h
      | none => exact ⟨rfl, fun w hw => by cases hw; exact ⟨rfl, rfl⟩⟩
    | none =>
      cases f with
      | some f => exact ⟨rfl, fun w hw => by cases hw; exact ⟨rfl, rfl⟩⟩
      | none => exact absurd rfl h

theorem FdContext.Ok.waiter {c : FdContext φ κ} {a : Armed} (h : c.Ok a) (e : Event) :
    (c.waiter e).isSome = a.get e := by
  cases e with
  | none => rfl
  | read => exact h.read.waiter.1
  | write => exact h.write.waiter.1

theorem EventContext.Holds.busy {x : EventContext φ κ} {b : Bool} (h : x.Holds b) :
    x.busy = b := by
  cases b with
  | false =>
    rw [holds_false.mp h]
    rfl
  | true => exact busy_of_holds h

/-- The waiters of a context after that of the event `e` was written. -/
theorem FdContext.waiter_set {c : FdContext φ κ} {x : EventContext φ κ} {e : Event} {w : Word}
    (he : e ≠ .none) (e' : Event) :
    ({ c.setContext x e with events := w } : FdContext φ κ).waiter e' =
      if e' = e then x.waiter else c.waiter e' := by
  cases e with
  | none => exact absurd rfl he
  | _ => cases e' <;> rfl

/-! ## One call on its context -/

/-- `ADD` or `MOD` succeeds if the kernel has the fd iff an event is armed. -/
theorem EpollMap.ctl_arms {k : EpollMap} {z : ℤ} {w : Word} (h : (k z).isSome = true ↔ w ≠ 0)
    (ev : Word) : (ctl k (View.opFor w .add) z ev).1 = true := by
  cases hk : k z with
  | none =>
    have hw : w = 0 := by
      by_contra hw
      have := h.mpr hw
      rw [hk] at this
      cases this
    have hop : View.opFor w .add = .add := by simp [View.opFor, hw]
    simp only [hop, ctl, hk]
  | some x =>
    have hw : w ≠ 0 := h.mp (by rw [hk]; rfl)
    have hop : View.opFor w .add = .mod := by simpa [View.opFor] using hw
    simp only [hop, ctl, hk]

namespace View

variable {K : Type}

/-- The context of `fd` stands for the waiters of `s` there; those of the other fds are the ones of
`s₀`. -/
structure Stands (fd : Fd) (s₀ : Waiters φ κ) (v : View φ κ K) (s : Waiters φ κ) : Prop where
  ok : ∃ a, v.ctx.Ok a
  its : v.ctx.fd = fd.val
  who : ∀ e, s.who (fd, e) = v.ctx.waiter e
  others : ∀ k, k.1 ≠ fd → s.who k = s₀.who k
  scheduled : s.scheduled = v.scheduled

variable {fd : Fd} {s₀ s : Waiters φ κ} {v v' : View φ κ K} {a : Armed} {e : Event}

theorem Stands.isSome (h : Stands fd s₀ v s) (ha : v.ctx.Ok a) (e : Event) :
    (s.who (fd, e)).isSome = a.get e := by
  rw [h.who, ha.waiter]

theorem Stands.awaited (h : Stands fd s₀ v s) (ha : v.ctx.Ok a) : s.awaited fd = a := by
  unfold Waiters.awaited
  rw [h.isSome ha, h.isSome ha]
  rfl

/-- A new context for the event `e`. -/
theorem Stands.set (h : Stands fd s₀ v s) (ha : v.ctx.Ok a) (he : e ≠ .none)
    {x : EventContext φ κ} {b : Bool} (hx : x.Holds b)
    (hctx : v'.ctx = { v.ctx.setContext x e with events := (a.set b e).mask })
    {s' : Waiters φ κ} (hwho : s'.who = Function.update s.who (fd, e) x.waiter)
    (hsch : s'.scheduled = v'.scheduled) : Stands fd s₀ v' s' where
  ok := ⟨_, hctx ▸ ha.set hx⟩
  its := by
    rw [hctx]
    exact (FdContext.setContext_fd x).trans h.its
  who e' := by
    rw [hwho, hctx, FdContext.waiter_set he]
    by_cases hee : e' = e
    · subst hee
      rw [Function.update_self, if_pos rfl]
    · rw [Function.update_of_ne (fun h => hee (Prod.mk.inj h).2), if_neg hee]
      exact h.who e'
  others k hk := by
    have hne : k ≠ (fd, e) := by
      rintro rfl
      exact hk rfl
    rw [hwho, Function.update_of_ne hne]
    exact h.others k hk
  scheduled := hsch

/-- `triggerEvent(event); m_pendingEventCount--;` hands the waiter over, if there is one. -/
theorem consume_matches (h : Stands fd s₀ v s) :
    Matches (Stands fd s₀) (v.consume e) (s.fire (fd, e)) := by
  obtain ⟨a, ha⟩ := h.ok
  have hsome := h.isSome ha e
  unfold consume FdContext.triggerEvent Waiters.fire
  rw [ha.events, Armed.mask_test]
  cases hwho : s.who (fd, e) with
  | none =>
    rw [hwho] at hsome
    rw [← hsome]
    exact .error _
  | some w =>
    have harmed : a.get e = true := by rw [← hsome, hwho]; rfl
    have he : e ≠ .none := by
      rintro rfl
      cases harmed
    obtain ⟨x, hx⟩ := FdContext.getContext_of_armed (c := v.ctx) harmed
    have hholds : x.Holds true := harmed ▸ ha.get hx
    have hw : x.waiter = some w := by
      rw [← hwho, h.who, FdContext.waiter, hx]
      rfl
    obtain ⟨hsch, hentry⟩ := hholds.waiter.2 w hw
    obtain ⟨hho, hne⟩ := EventContext.handOver_eq hholds
    simp only [if_pos harmed, FdContext.getContext_with, hx, hsch, Armed.mask_clear]
    cases hs : x.scheduler with
    | none => exact .error _
    | some sch =>
      simp only [hho, hho ▸ hne, ↓reduceIte, FdContext.setContext_with]
      refine .ok (h.set (x := {}) (b := false) ha he (EventContext.holds_false.mpr rfl) rfl rfl ?_)
      rw [hentry, h.scheduled]

theorem consumeIf_matches (b : Bool) (h : Stands fd s₀ v s) :
    Matches (Stands fd s₀) (v.consumeIf b e) (s.fireIf b (fd, e)) := by
  cases b with
  | false => exact .ok h
  | true => exact consume_matches h

/-- The kernel is spoken to: only its state changes. -/
theorem Stands.ctl {k : K} (h : Stands fd s₀ v s) : Stands fd s₀ { v with epoll := k } s :=
  ⟨h.ok, h.its, h.who, h.others, h.scheduled⟩

section Calls

variable {v : View φ κ EpollMap}

theorem addEvent_matches {cb : Option κ} {me : Caller φ} (h : Stands fd s₀ v s)
    (hp : (v.epoll fd.val).isSome = true ↔ v.ctx.events ≠ 0) :
    Matches (fun x y => .int x.1 = y.1 ∧ Stands fd s₀ x.2 y.2)
      (v.addEvent EpollMap.ctl fd.val e cb me) (s.call (.addEvent fd e cb me)) := by
  obtain ⟨a, ha⟩ := h.ok
  have hctl := EpollMap.ctl_arms hp (EPOLLET ||| v.ctx.events ||| e.bits)
  unfold opFor at hctl
  simp only [addEvent, Waiters.call, hctl, ↓reduceIte, FdContext.getContext_with]
  by_cases he : e = .none
  · subst he
    exact .error _
  · obtain ⟨x, hx⟩ : ∃ x, v.ctx.getContext e = .ok x := by
      cases e with
      | none => exact absurd rfl he
      | _ => exact ⟨_, rfl⟩
    have hbusy : x.busy = (s.who (fd, e)).isSome := by rw [(ha.get hx).busy, h.isSome ha]
    simp only [hx, hbusy, he, false_or]
    cases hwho : (s.who (fd, e)).isSome with
    | true => exact .error _
    | false =>
      obtain rfl : x = {} := EventContext.eq_of_not_busy (hbusy.trans hwho)
      simp only [Bool.false_eq_true, ↓reduceIte, FdContext.setContext_with, ha.events,
        Armed.mask_or]
      have hset : ∀ {y : EventContext φ κ}, y.Holds true → ∀ k : EpollMap,
          Stands fd s₀
            { v with
              ctx := { v.ctx.setContext y e with events := (a.set true e).mask }
              epoll := k, pendingEventCount := v.pendingEventCount + 1 }
            (s.set (fd, e) y.waiter) :=
        fun hy k => h.set ha he hy rfl rfl h.scheduled
      cases cb with
      | some cb => exact .ok ⟨rfl, hset (EventContext.holds_true.mpr (by simp)) _⟩
      | none =>
        by_cases hme : me.state = .exec
        · rw [if_pos hme, if_pos hme]
          exact .ok ⟨rfl, hset (EventContext.holds_true.mpr (by simp)) _⟩
        · rw [if_neg hme, if_neg hme]
          exact .error _

theorem delEvent_matches (h : Stands fd s₀ v s)
    (hp : (v.epoll fd.val).isSome = true ↔ v.ctx.events ≠ 0) :
    Matches (fun x y => .bool x.1 = y.1 ∧ Stands fd s₀ x.2 y.2)
      (v.delEvent EpollMap.ctl fd.val e) (s.call (.delEvent fd e)) := by
  obtain ⟨a, ha⟩ := h.ok
  simp only [delEvent, Waiters.call, h.isSome ha, ha.events, Armed.mask_test, Armed.mask_clear]
  cases harmed : a.get e with
  | false => exact .ok ⟨rfl, h⟩
  | true =>
    have he : e ≠ .none := by
      rintro rfl
      cases harmed
    obtain ⟨x, hx⟩ := FdContext.getContext_of_armed (c := v.ctx) harmed
    have hctl := EpollMap.ctl_registered (hp.mpr (ha.events ▸ mask_ne_zero harmed))
      (a.set false e).mask
      (EPOLLET ||| (a.set false e).mask)
    unfold opFor at hctl
    simp only [delCtl, hctl, ↓reduceIte, reset, setEvents, decrement, FdContext.resetContext,
      FdContext.getContext_with, FdContext.setContext_with, hx]
    exact .ok ⟨rfl, h.set (x := {}) ha he (EventContext.holds_false.mpr rfl) rfl rfl h.scheduled⟩

theorem cancelEvent_matches (h : Stands fd s₀ v s)
    (hp : (v.epoll fd.val).isSome = true ↔ v.ctx.events ≠ 0) :
    Matches (fun x y => .bool x.1 = y.1 ∧ Stands fd s₀ x.2 y.2)
      (v.cancelEvent EpollMap.ctl fd.val e) (s.call (.cancelEvent fd e)) := by
  obtain ⟨a, ha⟩ := h.ok
  simp only [cancelEvent, cancelLocked, Waiters.call, h.isSome ha, ha.events, Armed.mask_test,
    Armed.mask_clear]
  cases harmed : a.get e with
  | false => exact .ok ⟨rfl, h⟩
  | true =>
    have hctl := EpollMap.ctl_registered (hp.mpr (ha.events ▸ mask_ne_zero harmed))
      (a.set false e).mask
      (opFor (a.set false e).mask .del).code
    unfold opFor at hctl
    simp only [hctl, ↓reduceIte]
    rcases (consume_matches (e := e) h.ctl).elim with ⟨err, hx, hy⟩ | ⟨v', s', hx, hy, hst⟩
    · rw [hx, hy]
      exact .error _
    · rw [hx, hy]
      exact .ok ⟨rfl, hst⟩

theorem cancelAll_matches (h : Stands fd s₀ v s)
    (hp : (v.epoll fd.val).isSome = true ↔ v.ctx.events ≠ 0) :
    Matches (fun x y => .bool x.1 = y.1 ∧ Stands fd s₀ x.2 y.2)
      (v.cancelAll EpollMap.ctl fd.val) (s.call (.cancelAll fd)) := by
  obtain ⟨a, ha⟩ := h.ok
  simp only [cancelAll, cancelAllLocked, Waiters.call, h.awaited ha, ha.events]
  by_cases hm : a.mask = 0
  · rw [if_neg (by simp [hm]), if_pos (Armed.mask_eq_zero.mp hm)]
    exact .ok ⟨rfl, h⟩
  · have hctl : (EpollMap.ctl v.epoll .del fd.val CtlOp.del.code).1 = true :=
      EpollMap.ctl_registered (hp.mpr (ha.events ▸ hm)) 0 CtlOp.del.code
    rw [if_pos (by simpa using hm), if_neg (fun hz => hm (Armed.mask_eq_zero.mpr hz))]
    simp only [hctl, ↓reduceIte, Armed.mask_test, Armed.get, Waiters.fireBoth]
    rcases (consumeIf_matches (e := .read) a.read h.ctl).elim with
      ⟨err, hx, hy⟩ | ⟨v₁, s₁, hx, hy, h₁⟩
    · rw [hx, hy]
      exact .error _
    · -- `WRITE` is as armed as it was
      let k := (EpollMap.ctl v.epoll .del fd.val CtlOp.del.code).2
      have ha' : FdContext.Ok ({ v with epoll := k } : View φ κ EpollMap).ctx a := ha
      obtain ⟨-, hread⟩ := consumeIf_spec ha' hx
      have hwrite : v₁.ctx.events.test Event.write.bits = a.write := by
        rw [hread.ok.events, Armed.mask_test]
        cases a.read <;> rfl
      rw [hx, hy]
      simp only [hwrite, Except.bind]
      rcases (consumeIf_matches (e := .write) a.write h₁).elim with
        ⟨err, hx', hy'⟩ | ⟨v₂, s₂, hx', hy', h₂⟩
      · rw [hx', hy']
        exact .error _
      · -- nothing is left armed
        obtain ⟨-, -, hboth⟩ := consume_both ha' hx hx'
        have hz : v₂.ctx.events = 0 := by
          rw [hboth.ok.events, show a.diff ⟨a.read, a.write⟩ = ⟨false, false⟩ by simp [Armed.diff]]
          rfl
        rw [hx', hy']
        simp only [if_pos hz]
        exact .ok ⟨rfl, h₂⟩

theorem deliver_matches (word : Word) (h : Stands fd s₀ v s)
    (hp : (v.epoll fd.val).isSome = true ↔ v.ctx.events ≠ 0) :
    Matches (fun x y => .void = y.1 ∧ Stands fd s₀ x y.2)
      (v.deliver EpollMap.ctl word) (s.call (.deliver fd word)) := by
  obtain ⟨a, ha⟩ := h.ok
  simp only [deliver, Waiters.call, h.awaited ha, ha.events, realEvents_ready, h.its,
    Armed.mask_diff]
  cases hmeets : a.meets (realEvents word) with
  | false =>
    rw [if_pos (Armed.meets_iff.mpr hmeets)]
    exact .ok ⟨rfl, h⟩
  | true =>
    have hne : a.mask &&& (realEvents word).mask ≠ 0 := by
      rw [ne_eq, Armed.meets_iff, hmeets]
      nofun
    have hm : a.mask ≠ 0 := by
      intro hz
      rw [hz] at hne
      exact hne (BitVec.zero_and ..)
    have hctl := EpollMap.ctl_registered (hp.mpr (ha.events ▸ hm)) (a.diff (realEvents word)).mask
      (readyWord a.mask word)
    unfold opFor at hctl
    simp only [if_neg hne, hctl, ↓reduceIte]
    rcases (consumeIf_matches (e := .read) (realEvents word).read h.ctl).elim with
      ⟨err, hx, hy⟩ | ⟨v₁, s₁, hx, hy, h₁⟩
    · rw [hx, Waiters.fireBoth, hy]
      exact .error _
    · rw [hx, Waiters.fireBoth, hy]
      simp only [Except.bind]
      rcases (consumeIf_matches (e := .write) (realEvents word).write h₁).elim with
        ⟨err, hx', hy'⟩ | ⟨v₂, s₂, hx', hy', h₂⟩
      · rw [hx', hy']
        exact .error _
      · rw [hx', hy']
        exact .ok ⟨rfl, h₂⟩

end Calls

end View

/-! ## Whole calls -/

namespace IOManager

variable {m m' : IOManager φ κ EpollMap} {fd : Fd} {c : FdContext φ κ} {op : Op φ κ}

/-- A report carries the pointer to a context, which is that of its fd. -/
def Points (m : IOManager φ κ EpollMap) : Op φ κ → Prop
  | .deliver fd _ => (m.context fd).isSome = true
  | _ => True

instance (m : IOManager φ κ EpollMap) : ∀ op, Decidable (m.Points op)
  | .deliver fd _ => inferInstanceAs (Decidable ((m.context fd).isSome = true))
  | .addEvent .. | .delEvent .. | .cancelEvent .. | .cancelAll _ => .isTrue trivial

/-- The new contexts of a grown table have no waiters. -/
theorem grown_toWaiters (h : m.Fit) (op : Op φ κ) : (m.grown op).toWaiters = m.toWaiters := by
  obtain ⟨hd, l, hl, hc, -, -, hs⟩ := grown_spec h.sound.dense op
  have hwho : (m.grown op).toWaiters.who = m.toWaiters.who := by
    funext k
    show ((m.grown op).context k.1).bind _ = (m.context k.1).bind _
    rw [context_eq hd, context_eq h.sound.dense, hc, List.getElem?_append]
    split
    · rfl
    · rename_i hlt
      have hn : m.ctxs[k.1.val]? = none := List.getElem?_eq_none (by omega)
      rw [hn]
      cases hk : l[k.1.val - m.ctxs.length]? with
      | none => rfl
      | some c =>
        obtain ⟨i, rfl⟩ := hl c (List.mem_of_getElem? hk)
        cases k.2 <;> rfl
  unfold toWaiters at hwho ⊢
  rw [Waiters.mk.injEq]
  exact ⟨hwho, hs⟩

/-- The context of an fd stands for its waiters. -/
theorem stands (h : m.Fit) (hc : m.ctxs[fd.val]? = some c) :
    View.Stands fd m.toWaiters (m.view c) m.toWaiters where
  ok := (h.view hc).1
  its := (h.view hc).2.1
  who e := by
    show (m.context fd).bind _ = _
    rw [context_eq h.sound.dense, hc]
    rfl
  others _ _ := rfl
  scheduled := rfl

/-- A manager whose context of `fd` was changed stands for the changed map. -/
theorem put_toWaiters (h : m.Fit) (hc : m.ctxs[fd.val]? = some c) {v : View φ κ EpollMap}
    {s : Waiters φ κ} (hst : View.Stands fd m.toWaiters v s) : s = (m.put fd v).toWaiters := by
  have hput := put_dense h.sound.dense hc (hst.its.trans (h.view hc).2.1.symm)
  have hwho : s.who = (m.put fd v).toWaiters.who := by
    funext k
    show s.who k = ((m.put fd v).context k.1).bind _
    rw [context_eq hput]
    by_cases hk : k.1 = fd
    · obtain ⟨fd', e⟩ := k
      subst hk
      rw [put, List.getElem?_set_self (List.getElem?_eq_some_iff.mp hc).1]
      exact hst.who e
    · have hne : fd.val ≠ k.1.val := fun hv => hk (Fin.ext hv.symm)
      rw [hst.others k hk, put, List.getElem?_set_ne hne]
      show (m.context k.1).bind _ = _
      rw [context_eq h.sound.dense]
  obtain ⟨who, scheduled⟩ := s
  unfold toWaiters at hwho ⊢
  rw [Waiters.mk.injEq]
  exact ⟨hwho, hst.scheduled⟩

/-- A call on the context of its fd. -/
theorem on_matches {ρ : Type} (h : m.Fit) (hc : m.ctxs[fd.val]? = some c)
    {f : View φ κ EpollMap → Except Fault (ρ × View φ κ EpollMap)}
    {y : Except Fault (Ret × Waiters φ κ)} (ret : ρ → Ret)
    (hf : Matches (fun x y => ret x.1 = y.1 ∧ View.Stands fd m.toWaiters x.2 y.2)
      (f (m.view c)) y) :
    Matches (fun x y => x.1 = y.1 ∧ y.2 = x.2.toWaiters)
      ((m.on fd f).map fun r => (ret r.1, r.2)) y := by
  have hlt := (List.getElem?_eq_some_iff.mp hc).1
  simp only [on, h.sound.dense.get hlt, hc]
  rcases hf.elim with ⟨err, hx, rfl⟩ | ⟨a, b, hx, rfl, hr, hst⟩
  · rw [hx]
    exact .error _
  · rw [hx]
    exact .ok ⟨hr, put_toWaiters h hc hst⟩

/-- `delEvent`, `cancelEvent` and `cancelAll`: an fd past the table has no waiters. -/
theorem inTable_matches (h : m.Fit)
    {f : View φ κ EpollMap → Except Fault (Bool × View φ κ EpollMap)}
    {y : Except Fault (Ret × Waiters φ κ)}
    (hmissing : m.ctxs[fd.val]? = none → y = .ok (.bool false, m.toWaiters))
    (hf : ∀ c, m.ctxs[fd.val]? = some c →
      Matches (fun x y => .bool x.1 = y.1 ∧ View.Stands fd m.toWaiters x.2 y.2)
        (f (m.view c)) y) :
    Matches (fun x y => x.1 = y.1 ∧ y.2 = x.2.toWaiters)
      ((m.inTable fd f).map fun r => (.bool r.1, r.2)) y := by
  have hlen := h.sound.dense.length
  unfold inTable
  split
  · rw [hmissing (List.getElem?_eq_none (by omega))]
    exact .ok ⟨rfl, rfl⟩
  · have hlt : fd.val < m.ctxs.length := by omega
    have hc := List.getElem?_eq_getElem hlt
    exact on_matches h hc .bool (hf _ hc)

/-- The table of the manager after `addEvent` has looked at it has the slot `fd`. -/
theorem grow_lt (h : m.Dense) (fd : Fd) : fd.val < (m.grow fd).ctxs.length := by
  have hlen := h.length
  unfold grow
  split
  · omega
  · have := h.long
    have hlt : fd.val < Table.grownSize fd := Table.lt_grownSize (by omega)
    rw [Table.contextResize_dense h.slots (by omega)]
    simp only [List.length_append, List.length_map, List.length_range]
    omega

theorem who_missing (h : m.Fit) (hn : m.ctxs[fd.val]? = none) (e : Event) :
    m.toWaiters.who (fd, e) = none := by
  show (m.context fd).bind _ = none
  rw [context_eq h.sound.dense, hn]
  rfl

/-- **A call of the manager is a call of the map**: it returns the same and leads to the map that
the manager then stands for, or it ends the process in the same way. -/
theorem exec_matches (h : m.Fit) (hpt : m.Points op) :
    Matches (fun x y => x.1 = y.1 ∧ y.2 = x.2.toWaiters) (m.exec EpollMap.ctl op)
      (m.toWaiters.call op) := by
  cases op with
  | addEvent fd event cb me =>
    have hg : (m.grow fd).Fit := h.grown (.addEvent fd event cb me)
    have hc := List.getElem?_eq_getElem (grow_lt h.sound.dense fd)
    rw [← grown_toWaiters h (.addEvent fd event cb me)]
    exact on_matches hg hc .int (View.addEvent_matches (stands hg hc) (hg.view hc).2.2)
  | delEvent fd event =>
    refine inTable_matches h (fun hn => ?_) fun c hc =>
      View.delEvent_matches (stands h hc) (h.view hc).2.2
    simp [Waiters.call, who_missing h hn]
  | cancelEvent fd event =>
    refine inTable_matches h (fun hn => ?_) fun c hc =>
      View.cancelEvent_matches (stands h hc) (h.view hc).2.2
    simp [Waiters.call, who_missing h hn]
  | cancelAll fd =>
    refine inTable_matches h (fun hn => ?_) fun c hc =>
      View.cancelAll_matches (stands h hc) (h.view hc).2.2
    simp [Waiters.call, Waiters.awaited, who_missing h hn]
  | deliver fd word =>
    obtain ⟨c, hc⟩ := Option.isSome_iff_exists.mp hpt
    rw [context_eq h.sound.dense] at hc
    refine on_matches h hc (fun _ => .void) ?_
    rcases (View.deliver_matches word (stands h hc) (h.view hc).2.2).elim with
      ⟨err, hx, hy⟩ | ⟨a, b, hx, hy, hr, hst⟩
    · rw [hx, hy]
      exact .error _
    · rw [hx, hy]
      exact .ok ⟨hr, hst⟩

/-! ## Runs -/

/-- The call, with what it returns. -/
def returned (m : IOManager φ κ EpollMap) (op : Op φ κ) : List (Op φ κ × Ret) :=
  ((m.exec EpollMap.ctl op).toOption.map fun x => (op, x.1)).toList

theorem initial_toWaiters :
    (initial fun _ => none : IOManager φ κ EpollMap).toWaiters = {} := by
  have hwho : (initial fun _ => none : IOManager φ κ EpollMap).toWaiters.who = fun _ => none := by
    funext k
    show ((initial fun _ => none : IOManager φ κ EpollMap).context k.1).bind _ = none
    rw [context_eq initial_fit.sound.dense]
    show (Table.initial : Table φ κ).ctxs[k.1.val]?.bind _ = none
    cases hc : (Table.initial : Table φ κ).ctxs[k.1.val]? with
    | none => rfl
    | some c =>
      rw [Table.initial_eq] at hc
      obtain ⟨j, -, rfl⟩ := List.mem_map.mp (List.mem_of_getElem? hc)
      cases k.2 <;> rfl
  unfold toWaiters at hwho ⊢
  rw [Waiters.mk.injEq]
  exact ⟨hwho, rfl⟩

/-- A step of the manager is a step of the map. -/
theorem step_refines (h : m.Fit) (hpt : m.Points op)
    (hst : (sys EpollMap.ctl fun _ => none).step m op = some m') :
    Waiters.sys.runBy Sys.free m.toWaiters (m.returned op) = some m'.toWaiters := by
  obtain ⟨⟨r, m₁⟩, he, rfl⟩ := Option.map_eq_some_iff.mp hst
  rcases (exec_matches h hpt).elim with ⟨err, hx, -⟩ | ⟨a, b, hx, hy, hr, hs⟩
  · rw [hx] at he
    cases he
  · rw [hx] at he
    cases he
    have hret : m.returned op = [(op, r)] := by
      unfold returned
      rw [hx]
      rfl
    rw [hret, Sys.runBy_free_one]
    show ((m.toWaiters.call op).toOption.bind fun x => if x.1 = r then some x.2 else none) = _
    rw [hy]
    show (if b.1 = r then some b.2 else none) = _
    rw [if_pos hr.symm, hs]

/-- An fd is in epoll iff somebody waits for an event of it. -/
theorem Fit.registered_iff (h : m.Fit) (fd : Fd) :
    (m.epoll fd.val).isSome = true ↔ ∃ e, (m.toWaiters.who (fd, e)).isSome = true := by
  rw [h.registered fd]
  constructor
  · rintro ⟨c, hc, hev⟩
    obtain ⟨a, ha⟩ := (h.view hc).1
    obtain ⟨e, he⟩ := Armed.exists_get (ha.events ▸ hev)
    exact ⟨e, ((stands h hc).isSome ha e).trans he⟩
  · rintro ⟨e, he⟩
    cases hc : m.ctxs[fd.val]? with
    | none =>
      rw [who_missing h hc] at he
      cases he
    | some c =>
      obtain ⟨a, ha⟩ := (h.view hc).1
      rw [(stands h hc).isSome ha] at he
      exact ⟨c, rfl, ha.events ▸ View.mask_ne_zero he⟩

end IOManager

end Ddg
