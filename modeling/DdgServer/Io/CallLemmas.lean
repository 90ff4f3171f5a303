import DdgServer.Io.Table
import Mathlib.Tactic.LinearCombination

/-!
# What the calls of the I/O manager do

Proof-only: one spec lemma for each call of `DdgServer/Io/Manager.lean`, over an arbitrary
`epoll_ctl`. The results about the manager use these and never unfold a call.

- **Consumption** (`Consumed a a' v v'`): from `v` to `v'` the armed events went from `a` to `a'`,
  the counter with them, and each waiter went from the context to a scheduler. `consume_spec` is
  `triggerEvent` with its decrement; `Consumed.trans` chains two of them.
- **Calls** (`addEvent_spec`, `delEvent_spec`, `cancelEvent_spec`, `cancelAll_spec`,
  `deliver_spec`): what a call that does not end the process leaves, on a well-formed context.
- **Tables** (`Table.Dense`): with whole calls one after the other, slot `i` points to the `i`-th
  context; `exec_spec` says that a call is its part on the context of its fd.
-/

namespace Ddg

variable {φ κ K : Type}

/-- The sum of `g` over the waiters that the schedulers got. -/
def queued (g : φ ⊕ κ → ℕ) (calls : List (Call φ κ)) : ℕ := (calls.map fun x => x.2.weight g).sum

theorem queued_append (g : φ ⊕ κ → ℕ) (l l' : List (Call φ κ)) :
    queued g (l ++ l') = queued g l + queued g l' := by simp [queued]

namespace View

variable {v v' : View φ κ K} {a a' : Armed} {e : Event}

/-! ## Consumption -/

/-- From `v` to `v'` the events of `a` that are not in `a'` were consumed: their waiters went to
their schedulers and the counter went down with them. The other contexts are as they were. -/
structure Consumed (a a' : Armed) (v v' : View φ κ K) : Prop where
  ok : v'.ctx.Ok a'
  fd : v'.ctx.fd = v.ctx.fd
  epoll : v'.epoll = v.epoll
  count : v'.pendingEventCount + (a.card : BitVec 64) = v.pendingEventCount + (a'.card : BitVec 64)
  waiters : ∀ g, v'.ctx.weight g + queued g v'.scheduled = v.ctx.weight g + queued g v.scheduled
  kept : ∀ e x, v'.ctx.getContext e = .ok x → x = {} ∨ v.ctx.getContext e = .ok x

theorem Consumed.refl (h : v.ctx.Ok a) : Consumed a a v v :=
  ⟨h, rfl, rfl, rfl, fun _ => rfl, fun _ _ hx => .inr hx⟩

theorem Consumed.trans {v₁ v₂ v₃ : View φ κ K} {a₁ a₂ a₃ : Armed} (h : Consumed a₁ a₂ v₁ v₂)
    (h' : Consumed a₂ a₃ v₂ v₃) : Consumed a₁ a₃ v₁ v₃ where
  ok := h'.ok
  fd := h'.fd.trans h.fd
  epoll := h'.epoll.trans h.epoll
  count := by
    have h₁ := h.count
    have h₂ := h'.count
    linear_combination h₁ + h₂
  waiters g := (h'.waiters g).trans (h.waiters g)
  kept e x hx := (h'.kept e x hx).elim .inl (h.kept e x)

/-- `triggerEvent(event); m_pendingEventCount--;` consumes the event, which was armed. -/
theorem consume_spec (h : v.ctx.Ok a) (hc : v.consume e = .ok v') :
    a.get e = true ∧ Consumed a (a.set false e) v v' := by
  unfold consume at hc
  split at hc
  · cases hc
  · rename_i ctx calls ht
    cases hc
    obtain ⟨ha, x, s, hx, -, rfl, rfl⟩ := FdContext.triggerEvent_ok h ht
    refine ⟨ha, FdContext.triggerEvent_keeps h ht, FdContext.setContext_fd {}, rfl, ?_, fun g => ?_,
      fun e' y hy => FdContext.setContext_cases hy⟩
    · have hn := congrArg (Nat.cast (R := BitVec 64)) (Armed.card_clear ha)
      rw [Nat.cast_add, Nat.cast_one] at hn
      show v.pendingEventCount - 1 + (a.card : BitVec 64) = _
      linear_combination -hn
    · have hw := FdContext.weight_set g hx {} (a.set false e).mask
      have hq : queued g [(s, { fiber := x.fiber, cb := x.cb })] = x.weight g := by
        simp [queued, FiberAndThread.weight, EventContext.weight]
      show FdContext.weight g { v.ctx.setContext {} e with events := (a.set false e).mask } +
        queued g (v.scheduled ++ [(s, { fiber := x.fiber, cb := x.cb })]) = _
      rw [EventContext.weight_empty, Nat.add_zero] at hw
      rw [queued_append, hq, ← hw]
      omega

theorem consumeIf_spec {b : Bool} (h : v.ctx.Ok a) (hc : v.consumeIf b e = .ok v') :
    (b = true → a.get e = true) ∧ Consumed a (if b then a.set false e else a) v v' := by
  unfold consumeIf at hc
  cases b with
  | false =>
    cases hc
    exact ⟨nofun, .refl h⟩
  | true =>
    obtain ⟨ha, hcs⟩ := consume_spec h hc
    exact ⟨fun _ => ha, hcs⟩

/-- `READ` and then `WRITE`, each under its own test. -/
theorem consume_both {b b' : Bool} {v₁ : View φ κ K} (h : v.ctx.Ok a)
    (hr : v.consumeIf b .read = .ok v₁) (hw : v₁.consumeIf b' .write = .ok v') :
    (b = true → a.read = true) ∧ (b' = true → a.write = true) ∧
      Consumed a (a.diff ⟨b, b'⟩) v v' := by
  obtain ⟨hb, h₁⟩ := consumeIf_spec h hr
  obtain ⟨hb', h₂⟩ := consumeIf_spec h₁.ok hw
  refine ⟨hb, fun hbt => ?_, ?_⟩
  · have := hb' hbt
    cases b <;> exact this
  · rw [← Armed.set_false_both]
    exact h₁.trans h₂

/-! ## Calls -/

section Calls

variable {ctl : Ctl K} {fd : ℤ}

/-- `op` of a call that leaves the events `w`. -/
def opFor (w : Word) (op : CtlOp) : CtlOp := if w != 0 then .mod else op

/-- `addEvent`: `epoll_ctl` fails and nothing else changes, or the event, which was not armed, gets
the waiter. -/
theorem addEvent_spec {cb : Option κ} {me : Caller φ} {r : ℤ} (h : v.ctx.Ok a)
    (hc : v.addEvent ctl fd e cb me = .ok (r, v')) :
    let k := ctl v.epoll (opFor a.mask .add) fd (EPOLLET ||| (a.set true e).mask)
    (k.1 = false ∧ r = -1 ∧ v' = { v with epoll := k.2 }) ∨
    (k.1 = true ∧ r = 0 ∧ e ≠ .none ∧ a.get e = false ∧ ∃ x : EventContext φ κ, x.Holds true ∧
      x.scheduler = me.scheduler ∧ (∀ g, x.weight g = cb.elim (g (.inl me.fiber)) fun cb => g (.inr cb)) ∧
      v' = { v with
        ctx := { v.ctx.setContext x e with events := (a.set true e).mask }
        epoll := k.2, pendingEventCount := v.pendingEventCount + 1 }) := by
  intro k
  unfold addEvent at hc
  rw [h.events, BitVec.or_assoc, Armed.mask_or] at hc
  change (if k.1 then _ else _) = _ at hc
  split at hc
  · rename_i hk
    simp only [FdContext.getContext_with] at hc
    split at hc
    · cases hc
    · rename_i x hx
      split at hc
      · cases hc
      · rename_i hb
        have he : e ≠ .none := fun he => by subst he; cases hx
        obtain rfl := EventContext.eq_of_not_busy (Bool.not_eq_true _ ▸ hb)
        have ha : a.get e = false := by
          cases ha : a.get e with
          | false => rfl
          | true => exact absurd rfl (EventContext.holds_true.mp (ha ▸ h.get hx))
        refine .inr ⟨hk, ?_⟩
        cases cb with
        | some cb =>
          cases hc
          refine ⟨rfl, he, ha, { scheduler := me.scheduler, cb := some cb },
            EventContext.holds_true.mpr (by simp), rfl, fun g => ?_, ?_⟩
          · simp [EventContext.weight, weigh]
          · rw [FdContext.setContext_with]
            rfl
        | none =>
          simp only at hc
          split at hc
          · cases hc
            refine ⟨rfl, he, ha, { scheduler := me.scheduler, fiber := some me.fiber },
              EventContext.holds_true.mpr (by simp), rfl, fun g => ?_, ?_⟩
            · simp [EventContext.weight, weigh]
            · rw [FdContext.setContext_with]
              rfl
          · cases hc
  · rename_i hk
    cases hc
    exact .inl ⟨Bool.not_eq_true _ ▸ hk, rfl, rfl⟩

/-- `delEvent`: the event is not armed, or `epoll_ctl` fails, or the waiter `x` is dropped. -/
theorem delEvent_spec {b : Bool} (h : v.ctx.Ok a)
    (hc : v.delEvent ctl fd e = .ok (b, v')) :
    let left := (a.set false e).mask
    let k := ctl v.epoll (opFor left .del) fd (EPOLLET ||| left)
    (b = false ∧ a.get e = false ∧ v' = v) ∨
    (b = false ∧ a.get e = true ∧ k.1 = false ∧ v' = { v with epoll := k.2 }) ∨
    (b = true ∧ a.get e = true ∧ k.1 = true ∧ ∃ x : EventContext φ κ, v.ctx.getContext e = .ok x ∧
      v' = { v with
        ctx := { v.ctx.setContext {} e with events := left }
        epoll := k.2, pendingEventCount := v.pendingEventCount - 1 }) := by
  intro left k
  unfold delEvent at hc
  rw [h.events, Armed.mask_test, Armed.mask_clear] at hc
  split at hc
  · rename_i ha
    change (if k.1 then _ else _) = _ at hc
    split at hc
    · rename_i hk
      simp only [reset, setEvents, decrement, delCtl, FdContext.resetContext,
        FdContext.getContext_with, FdContext.setContext_with] at hc
      cases hx : v.ctx.getContext e with
      | error => rw [hx] at hc; cases hc
      | ok x =>
        rw [hx] at hc
        cases hc
        exact .inr (.inr ⟨rfl, ha, hk, x, rfl, rfl⟩)
    · rename_i hk
      cases hc
      exact .inr (.inl ⟨rfl, ha, Bool.not_eq_true _ ▸ hk, rfl⟩)
  · rename_i ha
    cases hc
    exact .inl ⟨rfl, Bool.not_eq_true _ ▸ ha, rfl⟩

/-- `cancelEvent` under the mutex: `epoll_ctl` fails, or the event is consumed. -/
theorem cancelLocked_spec {b : Bool} (h : v.ctx.Ok a)
    (hc : v.cancelLocked ctl fd e = .ok (b, v')) :
    let op := opFor (a.set false e).mask .del
    let k := ctl v.epoll op fd op.code
    (b = false ∧ k.1 = false ∧ v' = { v with epoll := k.2 }) ∨
    (b = true ∧ k.1 = true ∧ a.get e = true ∧
      Consumed a (a.set false e) { v with epoll := k.2 } v') := by
  intro op k
  unfold cancelLocked at hc
  rw [h.events, Armed.mask_clear] at hc
  change (if k.1 then _ else _) = _ at hc
  split at hc
  · rename_i hk
    split at hc
    · cases hc
    · rename_i v₁ hv
      cases hc
      obtain ⟨ha, hcs⟩ := consume_spec (v := { v with epoll := k.2 }) h hv
      exact .inr ⟨rfl, hk, ha, hcs⟩
  · rename_i hk
    cases hc
    exact .inl ⟨rfl, Bool.not_eq_true _ ▸ hk, rfl⟩

/-- `cancelAll` under the mutex: `epoll_ctl` fails, or all armed events are consumed. -/
theorem cancelAllLocked_spec {b : Bool} (h : v.ctx.Ok a)
    (hc : v.cancelAllLocked ctl fd = .ok (b, v')) :
    let k := ctl v.epoll .del fd CtlOp.del.code
    (b = false ∧ k.1 = false ∧ v' = { v with epoll := k.2 }) ∨
    (b = true ∧ k.1 = true ∧ Consumed a ⟨false, false⟩ { v with epoll := k.2 } v') := by
  intro k
  unfold cancelAllLocked at hc
  change (if k.1 then _ else _) = _ at hc
  split at hc
  · rename_i hk
    simp only [h.events, Armed.mask_test, Armed.get] at hc
    split at hc
    · cases hc
    · rename_i v₁ h₁
      have hw : v₁.ctx.events.test Event.write.bits = a.write := by
        obtain ⟨-, hcs⟩ := consumeIf_spec (v := { v with epoll := k.2 }) h h₁
        rw [hcs.ok.events, Armed.mask_test]
        cases a.read <;> rfl
      rw [hw] at hc
      split at hc
      · cases hc
      · rename_i v₂ h₂
        obtain ⟨-, -, hcs⟩ := consume_both (v := { v with epoll := k.2 }) h h₁ h₂
        have hz : a.diff ⟨a.read, a.write⟩ = ⟨false, false⟩ := by simp [Armed.diff]
        split at hc
        · cases hc
          exact .inr ⟨rfl, hk, hz ▸ hcs⟩
        · cases hc
  · rename_i hk
    cases hc
    exact .inl ⟨rfl, Bool.not_eq_true _ ▸ hk, rfl⟩

/-- `idle` on a reported word: none of its events is armed, or `epoll_ctl` fails, or all its events
are armed and consumed. -/
theorem deliver_spec {word : Word} (h : v.ctx.Ok a) (hc : v.deliver ctl word = .ok v') :
    let ready := readyWord a.mask word
    let left := a.diff (realEvents ready)
    let k := ctl v.epoll (opFor left.mask .del) v.ctx.fd ready
    (a.mask &&& (realEvents ready).mask = 0 ∧ v' = v) ∨
    (a.mask &&& (realEvents ready).mask ≠ 0 ∧ k.1 = false ∧ v' = { v with epoll := k.2 }) ∨
    (a.mask &&& (realEvents ready).mask ≠ 0 ∧ k.1 = true ∧
      Consumed a left { v with epoll := k.2 } v') := by
  intro ready left k
  unfold deliver at hc
  simp only [h.events, Armed.mask_diff] at hc
  split at hc
  · rename_i hz
    cases hc
    exact .inl ⟨hz, rfl⟩
  · rename_i hz
    change (if k.1 then _ else _) = _ at hc
    split at hc
    · rename_i hk
      split at hc
      · cases hc
      · rename_i v₁ h₁
        obtain ⟨-, -, hcs⟩ := consume_both (v := { v with epoll := k.2 }) h h₁ hc
        exact .inr (.inr ⟨hz, hk, hcs⟩)
    · rename_i hk
      cases hc
      exact .inr (.inl ⟨hz, Bool.not_eq_true _ ▸ hk, rfl⟩)

end Calls

/-- The part of a call that works on the context of its fd. -/
def exec (ctl : Ctl K) (v : View φ κ K) : Op φ κ → Except Fault (Ret × View φ κ K)
  | .addEvent fd event cb me => (v.addEvent ctl fd event cb me).map fun r => (.int r.1, r.2)
  | .delEvent fd event => (v.delEvent ctl fd event).map fun r => (.bool r.1, r.2)
  | .cancelEvent fd event => (v.cancelEvent ctl fd event).map fun r => (.bool r.1, r.2)
  | .cancelAll fd => (v.cancelAll ctl fd).map fun r => (.bool r.1, r.2)
  | .deliver _ word => (v.deliver ctl word).map fun v => (.void, v)

end View

/-! ## Tables -/

/-- The fd that a call is about. -/
def Op.fd : Op φ κ → Fd
  | .addEvent fd .. | .delEvent fd _ | .cancelEvent fd _ | .cancelAll fd | .deliver fd _ => fd

namespace Table

/-- Slot `i` points to the `i`-th context, which is that of fd `i`. -/
structure Dense (t : Table φ κ) : Prop where
  slots : t.fdContext = (List.range t.ctxs.length).map some
  long : 32 ≤ t.ctxs.length
  short : t.ctxs.length ≤ 3 * 2 ^ 30
  fds : ∀ (i : ℕ) c, t.ctxs[i]? = some c → c.fd = (i : ℤ).bmod (2 ^ 32)

variable {t : Table φ κ}

theorem Dense.length (h : t.Dense) : t.fdContext.length = t.ctxs.length := by simp [h.slots]

theorem Dense.get (h : t.Dense) {fd : ℕ} (hfd : fd < t.ctxs.length) : t.get fd = .ok fd := by
  simp [Table.get, h.slots, hfd]

/-- A resize to a size that is not smaller adds new contexts. -/
theorem contextResize_dense {size : ℕ} (hs : t.fdContext = (List.range t.ctxs.length).map some)
    (hle : t.ctxs.length ≤ size) :
    t.contextResize size =
      { ctxs := t.ctxs ++
          (List.range (size - t.ctxs.length)).map fun j => newContext (t.ctxs.length + j)
        fdContext := (List.range size).map some } := by
  have hr : List.range t.ctxs.length ++
      (List.range (size - t.ctxs.length)).map (t.ctxs.length + ·) = List.range size := by
    rw [← List.range_add, Nat.add_sub_cancel' hle]
  rw [contextResize_eq hs, List.length_range, List.take_of_length_le (by simpa using hle), hr]

theorem newContexts_fd {l : List (FdContext φ κ)} {k : ℕ}
    (h : ∀ (i : ℕ) c, l[i]? = some c → c.fd = (i : ℤ).bmod (2 ^ 32)) (i : ℕ) (c : FdContext φ κ)
    (hc : (l ++ (List.range k).map fun j => newContext (l.length + j))[i]? = some c) :
    c.fd = (i : ℤ).bmod (2 ^ 32) := by
  rw [List.getElem?_append] at hc
  split at hc
  · exact h i c hc
  · rename_i hi
    rw [List.getElem?_map, Option.map_eq_some_iff] at hc
    obtain ⟨j, hj, rfl⟩ := hc
    obtain ⟨hlt, rfl⟩ := List.getElem?_eq_some_iff.mp hj
    rw [List.getElem_range, Nat.add_sub_cancel' (by omega), newContext]

theorem Dense.resize (h : t.Dense) {size : ℕ} (hle : t.ctxs.length ≤ size)
    (hmax : size ≤ 3 * 2 ^ 30) : (t.contextResize size).Dense := by
  have hlen : t.ctxs.length + (size - t.ctxs.length) = size := by omega
  rw [contextResize_dense h.slots hle]
  refine ⟨?_, ?_, ?_, newContexts_fd h.fds⟩
  · rw [List.length_append, List.length_map, List.length_range, hlen]
  · rw [List.length_append, List.length_map, List.length_range, hlen]
    exact h.long.trans hle
  · rw [List.length_append, List.length_map, List.length_range, hlen]
    exact hmax

theorem initial_eq : (initial : Table φ κ) =
    { ctxs := (List.range 32).map newContext, fdContext := (List.range 32).map some } := by
  unfold initial
  rw [contextResize_dense (t := {}) rfl (Nat.zero_le _)]
  simp

theorem initial_dense : (initial : Table φ κ).Dense := by
  rw [initial_eq]
  refine ⟨by simp, by simp, by simp, fun i c hc => ?_⟩
  exact newContexts_fd (l := []) (k := 32) (by simp) i c (by simpa using hc)

end Table

namespace IOManager

variable {ctl : Ctl K} {m m' : IOManager φ κ K}

/-- The manager when a call has found its context: `addEvent` may have grown the table. -/
def grown (m : IOManager φ κ K) : Op φ κ → IOManager φ κ K
  | .addEvent fd .. => m.grow fd
  | _ => m

/-- The table grows by new contexts only, and nothing else changes. -/
theorem grown_spec (h : m.Dense) (op : Op φ κ) :
    (m.grown op).Dense ∧ ∃ l : List (FdContext φ κ), (∀ c ∈ l, ∃ i, c = Table.newContext i) ∧
      (m.grown op).ctxs = m.ctxs ++ l ∧ (m.grown op).epoll = m.epoll ∧
      (m.grown op).pendingEventCount = m.pendingEventCount ∧
      (m.grown op).scheduled = m.scheduled := by
  have hsame : m.Dense ∧ ∃ l : List (FdContext φ κ), (∀ c ∈ l, ∃ i, c = Table.newContext i) ∧
      m.ctxs = m.ctxs ++ l ∧ m.epoll = m.epoll ∧ m.pendingEventCount = m.pendingEventCount ∧
      m.scheduled = m.scheduled :=
    ⟨h, [], by simp, by simp, rfl, rfl, rfl⟩
  cases op with
  | addEvent fd event cb me =>
    by_cases hlt : m.fdContext.length > fd
    · rw [show m.grown (.addEvent fd event cb me) = m from if_pos hlt]
      exact hsame
    · rw [show m.grown (.addEvent fd event cb me) =
        { m with toTable := m.toTable.contextResize (Table.grownSize fd) } from if_neg hlt]
      have hlen := h.length
      have hle : m.ctxs.length ≤ Table.grownSize fd := by
        have := h.long
        have : (fd : ℕ) < Table.grownSize fd := Table.lt_grownSize (by omega)
        omega
      refine ⟨h.resize hle (by unfold Table.grownSize; omega),
        (List.range (Table.grownSize fd - m.ctxs.length)).map fun j =>
          Table.newContext (m.ctxs.length + j), fun c hc => ?_, ?_, rfl, rfl, rfl⟩
      · obtain ⟨j, -, rfl⟩ := List.mem_map.mp hc
        exact ⟨_, rfl⟩
      · rw [Table.contextResize_dense h.slots hle]
  | delEvent => exact hsame
  | cancelEvent => exact hsame
  | cancelAll => exact hsame
  | deliver => exact hsame

/-- What a call leaves: it found no slot for its fd, or it did its part on the context of its
fd. -/
inductive Done (ctl : Ctl K) (m : IOManager φ κ K) (op : Op φ κ) : Ret → IOManager φ κ K → Prop
  | missing : m.ctxs[op.fd.val]? = none → Done ctl m op (.bool false) m
  | found {c : FdContext φ κ} {r : Ret} {v : View φ κ K} :
    (m.grown op).ctxs[op.fd.val]? = some c → ((m.grown op).view c).exec ctl op = .ok (r, v) →
      Done ctl m op r ((m.grown op).put op.fd v)

theorem on_spec {ρ : Type} (h : m.Dense) {fd : Fd}
    {f : View φ κ K → Except Fault (ρ × View φ κ K)} {r : ρ} (ho : m.on fd f = .ok (r, m')) :
    ∃ c v, m.ctxs[fd.val]? = some c ∧ f (m.view c) = .ok (r, v) ∧ m' = m.put fd v := by
  by_cases hlt : fd.val < m.ctxs.length
  · simp only [on, h.get hlt, List.getElem?_eq_getElem hlt] at ho
    split at ho
    · cases ho
    · rename_i r' v hf
      cases ho
      exact ⟨_, v, List.getElem?_eq_getElem hlt, hf, rfl⟩
  · have hn : m.fdContext[fd.val]? = none := by
      rw [List.getElem?_eq_none_iff, h.length]
      omega
    simp [on, Table.get, hn] at ho

theorem map_ok {ε ρ ρ' : Type} {x : Except ε ρ} {f : ρ → ρ'} {y : ρ'} (h : x.map f = .ok y) :
    ∃ z, x = .ok z ∧ f z = y := by
  cases x with
  | error => cases h
  | ok z => cases h; exact ⟨z, rfl, rfl⟩

theorem map_of_ok {ε ρ ρ' : Type} {x : Except ε ρ} {z : ρ} (h : x = .ok z) (f : ρ → ρ') :
    x.map f = .ok (f z) := by
  rw [h]
  rfl

theorem inTable_spec (h : m.Dense) {fd : Fd}
    {f : View φ κ K → Except Fault (Bool × View φ κ K)} {b : Bool}
    (ho : m.inTable fd f = .ok (b, m')) :
    (b = false ∧ m' = m ∧ m.ctxs[fd.val]? = none) ∨
      ∃ c v, m.ctxs[fd.val]? = some c ∧ f (m.view c) = .ok (b, v) ∧ m' = m.put fd v := by
  unfold inTable at ho
  split at ho
  · rename_i hge
    rw [h.length] at hge
    cases ho
    exact .inl ⟨rfl, rfl, List.getElem?_eq_none hge⟩
  · exact .inr (on_spec h ho)

theorem exec_spec (h : m.Dense) {op : Op φ κ} {r : Ret} (he : m.exec ctl op = .ok (r, m')) :
    Done ctl m op r m' := by
  obtain ⟨hg, -⟩ := grown_spec h op
  cases op with
  | addEvent fd event cb me =>
    obtain ⟨⟨i, m₁⟩, hz, hr⟩ := map_ok he
    cases hr
    obtain ⟨c, v, hc, hf, rfl⟩ := on_spec hg hz
    exact .found hc (map_of_ok hf _)
  | delEvent fd event =>
    obtain ⟨⟨b, m₁⟩, hz, hr⟩ := map_ok he
    cases hr
    rcases inTable_spec h hz with ⟨rfl, rfl, hn⟩ | ⟨c, v, hc, hf, rfl⟩
    · exact .missing hn
    · exact .found hc (map_of_ok hf _)
  | cancelEvent fd event =>
    obtain ⟨⟨b, m₁⟩, hz, hr⟩ := map_ok he
    cases hr
    rcases inTable_spec h hz with ⟨rfl, rfl, hn⟩ | ⟨c, v, hc, hf, rfl⟩
    · exact .missing hn
    · exact .found hc (map_of_ok hf _)
  | cancelAll fd =>
    obtain ⟨⟨b, m₁⟩, hz, hr⟩ := map_ok he
    cases hr
    rcases inTable_spec h hz with ⟨rfl, rfl, hn⟩ | ⟨c, v, hc, hf, rfl⟩
    · exact .missing hn
    · exact .found hc (map_of_ok hf _)
  | deliver fd word =>
    obtain ⟨⟨_, m₁⟩, hz, hr⟩ := map_ok he
    cases hr
    obtain ⟨c, v, hc, hf, rfl⟩ := on_spec h hz
    obtain ⟨v', hv, hvr⟩ := map_ok hf
    cases hvr
    exact .found hc (map_of_ok hv _)

/-- A context in the table after a call on `fd`. -/
theorem put_getElem? {fd : Fd} {v : View φ κ K} {i : ℕ} {c : FdContext φ κ}
    (h : (m.put fd v).ctxs[i]? = some c) : (i = fd.val ∧ c = v.ctx) ∨ (i ≠ fd.val ∧ m.ctxs[i]? = some c) := by
  rw [put, List.getElem?_set] at h
  split at h
  · rename_i hi
    split at h
    · cases h
      exact .inl ⟨hi.symm, rfl⟩
    · cases h
  · rename_i hi
    exact .inr ⟨fun he => hi he.symm, h⟩

theorem put_dense (h : m.Dense) {fd : Fd} {c : FdContext φ κ} (hc : m.ctxs[fd.val]? = some c)
    {v : View φ κ K} (hfd : v.ctx.fd = c.fd) : (m.put fd v).Dense := by
  have hlen : (m.put fd v).ctxs.length = m.ctxs.length := List.length_set ..
  refine ⟨?_, hlen ▸ h.long, hlen ▸ h.short, fun i c' hc' => ?_⟩
  · rw [hlen]
    exact h.slots
  · rcases put_getElem? hc' with ⟨rfl, rfl⟩ | ⟨-, hc'⟩
    · rw [hfd]
      exact h.fds _ c hc
    · exact h.fds i c' hc'

end IOManager
end Ddg
