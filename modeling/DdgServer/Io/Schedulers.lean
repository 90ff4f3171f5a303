import DdgServer.Io.Agreement
import DdgServer.Io.Ledger

/-!
# Every armed event has a scheduler

`addEvent` stores `Scheduler::GetThis()` of the calling thread in the event's context. In a thread
that runs no scheduler that is null, and `triggerEvent` calls `schedule` of it.

- **Contexts** (`FdContext.Named`): a context in use names a scheduler. Then `triggerEvent` of an
  armed event hands its waiter over (`triggerEvent_named`).
- **Calls** (`takesNull`): `addEvent` in such a thread, with an `epoll_ctl` that succeeds. Every
  other call keeps the contexts named, and this one never does (`View.exec_named`).
- `armed_named`: without such a call, all armed events can be delivered in every state.

Over an arbitrary `epoll_ctl`.
-/

namespace Ddg

variable {φ κ K : Type}

theorem EventContext.busy_of_holds {x : EventContext φ κ} (h : x.Holds true) : x.busy = true := by
  obtain ⟨s, f, cb⟩ := x
  rw [holds_true] at h
  cases f <;> cases cb <;> simp_all [busy]

namespace FdContext

variable {c c' : FdContext φ κ} {a : Armed} {e : Event}

/-- A context in use names a scheduler. -/
def Named (c : FdContext φ κ) : Prop :=
  ∀ e x, c.getContext e = .ok x → x.busy = true → x.scheduler.isSome = true

theorem Named.kept (h : c.Named)
    (hk : ∀ e x, c'.getContext e = .ok x → x = {} ∨ c.getContext e = .ok x) : c'.Named := by
  intro e x hx hb
  rcases hk e x hx with rfl | hx
  · cases hb
  · exact h e x hx hb

theorem getContext_of_armed (ha : a.get e = true) : ∃ x, c.getContext e = .ok x := by
  cases e with
  | none => cases ha
  | read => exact ⟨_, rfl⟩
  | write => exact ⟨_, rfl⟩

/-- What `triggerEvent` does to a well-formed context that names its schedulers: it fails its
assertion on an event that is not armed, and hands the waiter of an armed one over. -/
theorem triggerEvent_named (h : c.Ok a) (hn : c.Named) :
    (a.get e = false ∧ c.triggerEvent e = .error .assertion) ∨
    (a.get e = true ∧ ∃ x s, c.getContext e = .ok x ∧ x.scheduler = some s ∧
      c.triggerEvent e = .ok ({ c.setContext {} e with events := (a.set false e).mask },
        [(s, { fiber := x.fiber, cb := x.cb })])) := by
  cases ha : a.get e with
  | false =>
    refine .inl ⟨rfl, ?_⟩
    rw [triggerEvent, h.events, Armed.mask_test, ha, if_neg (by decide)]
  | true =>
    obtain ⟨x, hx⟩ := getContext_of_armed (c := c) ha
    have hh : x.Holds true := ha ▸ h.get hx
    obtain ⟨s, hs⟩ := Option.isSome_iff_exists.mp (hn e x hx (EventContext.busy_of_holds hh))
    obtain ⟨hho, hne⟩ := EventContext.handOver_eq hh
    refine .inr ⟨rfl, x, s, hx, hs, ?_⟩
    rw [triggerEvent, h.events, Armed.mask_test, ha, if_pos rfl]
    simp only [getContext_with, hx, hs, hho, hho ▸ hne, ↓reduceIte, setContext_with,
      Armed.mask_clear]

end FdContext

/-- The call does not dereference a null pointer. -/
def NotNull {ρ : Type} (x : Except Fault ρ) : Prop := x ≠ .error .nullDeref

theorem NotNull.map {ρ ρ' : Type} {x : Except Fault ρ} (h : NotNull x) (f : ρ → ρ') :
    NotNull (x.map f) := by
  cases x with
  | error err => exact fun he => h (congrArg Except.error (Except.error.inj he))
  | ok y => nofun

theorem NotNull.of_error {ρ ρ' : Type} {x : Except Fault ρ} (h : NotNull x) {err : Fault}
    (hx : x = .error err) : NotNull (.error err : Except Fault ρ') :=
  fun he => h (hx.trans (congrArg Except.error (Except.error.inj he)))

namespace View

variable {ctl : Ctl K} {v v' : View φ κ K} {a a' : Armed} {e : Event}

/-- The call is `addEvent` in a thread without a scheduler, and the kernel takes the event. -/
def takesNull (ctl : Ctl K) (v : View φ κ K) : Op φ κ → Bool
  | .addEvent fd event _ me => me.scheduler.isNone &&
    (ctl v.epoll (opFor v.ctx.events .add) fd (EPOLLET ||| v.ctx.events ||| event.bits)).1
  | _ => false

theorem Consumed.named {k : K} (h : Consumed a a' { v with epoll := k } v') (hn : v.ctx.Named) :
    v'.ctx.Named := hn.kept h.kept

/-- A call leaves the contexts named exactly if it is not such an `addEvent`. -/
theorem exec_named {op : Op φ κ} {r : Ret} (h : v.ctx.Ok a) (hn : v.ctx.Named)
    (he : v.exec ctl op = .ok (r, v')) : v'.ctx.Named ↔ v.takesNull ctl op = false := by
  cases op with
  | addEvent fd event cb me =>
    obtain ⟨⟨i, v₁⟩, hz, hr⟩ := IOManager.map_ok he
    cases hr
    simp only [takesNull, h.events, BitVec.or_assoc, Armed.mask_or]
    rcases addEvent_spec h hz with ⟨hk, -, rfl⟩ | ⟨hk, -, hne, -, x, hx, hs, -, rfl⟩
    · rw [hk, Bool.and_false]
      exact iff_of_true hn rfl
    · rw [hk, Bool.and_true, ← hs, Option.isNone_eq_false_iff]
      constructor
      · intro hn'
        refine hn' event x ?_ (EventContext.busy_of_holds hx)
        cases event
        · exact absurd rfl hne
        · rfl
        · rfl
      · intro hx' e' y hy hb
        rcases FdContext.setContext_cases hy with rfl | hy
        · exact hx'
        · exact hn e' y hy hb
  | delEvent fd event =>
    obtain ⟨⟨b, v₁⟩, hz, hr⟩ := IOManager.map_ok he
    cases hr
    refine iff_of_true ?_ rfl
    rcases delEvent_spec h hz with ⟨-, -, rfl⟩ | ⟨-, -, -, rfl⟩ | ⟨-, -, -, x, -, rfl⟩
    · exact hn
    · exact hn
    · exact hn.kept fun e' y hy => FdContext.setContext_cases hy
  | cancelEvent fd event =>
    obtain ⟨⟨b, v₁⟩, hz, hr⟩ := IOManager.map_ok he
    cases hr
    refine iff_of_true ?_ rfl
    unfold cancelEvent at hz
    split at hz
    · rcases cancelLocked_spec h hz with ⟨-, -, rfl⟩ | ⟨-, -, -, hcs⟩
      · exact hn
      · exact hcs.named hn
    · cases hz
      exact hn
  | cancelAll fd =>
    obtain ⟨⟨b, v₁⟩, hz, hr⟩ := IOManager.map_ok he
    cases hr
    refine iff_of_true ?_ rfl
    unfold cancelAll at hz
    split at hz
    · rcases cancelAllLocked_spec h hz with ⟨-, -, rfl⟩ | ⟨-, -, hcs⟩
      · exact hn
      · exact hcs.named hn
    · cases hz
      exact hn
  | deliver fd word =>
    obtain ⟨v₁, hz, hr⟩ := IOManager.map_ok he
    cases hr
    refine iff_of_true ?_ rfl
    rcases deliver_spec h hz with ⟨-, rfl⟩ | ⟨-, -, rfl⟩ | ⟨-, -, hcs⟩
    · exact hn
    · exact hn
    · exact hcs.named hn

/-! ### No null pointer -/

theorem consume_notNull (h : v.ctx.Ok a) (hn : v.ctx.Named) : NotNull (v.consume e) := by
  unfold consume
  rcases FdContext.triggerEvent_named (e := e) h hn with ⟨-, ht⟩ | ⟨-, x, s, -, -, ht⟩ <;>
    simp [ht, NotNull]

theorem consumeIf_notNull (b : Bool) (h : v.ctx.Ok a) (hn : v.ctx.Named) :
    NotNull (v.consumeIf b e) := by
  unfold consumeIf
  split
  · exact consume_notNull h hn
  · nofun

theorem getContext_notNull (c : FdContext φ κ) (e : Event) : NotNull (c.getContext e) := by
  cases e <;> nofun

theorem addEvent_notNull (fd : ℤ) (cb : Option κ) (me : Caller φ) (v : View φ κ K) :
    NotNull (v.addEvent ctl fd e cb me) := by
  unfold addEvent
  dsimp only
  generalize ctl _ _ _ _ = k
  split
  · split
    · rename_i err herr
      exact (getContext_notNull _ _).of_error herr
    · split
      · nofun
      · split
        · nofun
        · split <;> nofun
  · nofun

theorem delEvent_notNull (fd : ℤ) (v : View φ κ K) : NotNull (v.delEvent ctl fd e) := by
  unfold delEvent
  dsimp only
  split
  · split
    · split
      · rename_i err herr
        refine NotNull.of_error (fun he => ?_) herr
        unfold reset FdContext.resetContext at he
        split at he
        · rename_i hreset
          split at hreset
          · rename_i hget
            cases hreset
            exact getContext_notNull _ _ (hget.trans (by cases he; rfl))
          · cases hreset
        · cases he
      · nofun
    · nofun
  · nofun

theorem cancelEvent_notNull (fd : ℤ) (h : v.ctx.Ok a) (hn : v.ctx.Named) :
    NotNull (v.cancelEvent ctl fd e) := by
  unfold cancelEvent cancelLocked
  dsimp only
  generalize ctl _ _ _ _ = k
  split
  · split
    · split
      · rename_i err herr
        exact NotNull.of_error (consume_notNull (by exact h) (by exact hn)) herr
      · nofun
    · nofun
  · nofun

theorem cancelAll_notNull (fd : ℤ) (h : v.ctx.Ok a) (hn : v.ctx.Named) :
    NotNull (v.cancelAll ctl fd) := by
  unfold cancelAll cancelAllLocked
  dsimp only
  generalize ctl _ _ _ _ = k
  split
  · split
    · split
      · rename_i err herr
        exact NotNull.of_error (consumeIf_notNull _ (by exact h) (by exact hn)) herr
      · rename_i v₁ hv
        obtain ⟨-, hcs⟩ := consumeIf_spec (by exact h) hv
        split
        · rename_i err herr
          exact (consumeIf_notNull _ hcs.ok (hn.kept hcs.kept)).of_error herr
        · split <;> nofun
    · nofun
  · nofun

theorem deliver_notNull (word : Word) (h : v.ctx.Ok a) (hn : v.ctx.Named) :
    NotNull (v.deliver ctl word) := by
  unfold deliver
  dsimp only
  generalize ctl _ _ _ _ = k
  split
  · nofun
  · split
    · split
      · rename_i err herr
        exact NotNull.of_error (consumeIf_notNull _ (by exact h) (by exact hn)) herr
      · rename_i v₁ hv
        obtain ⟨-, hcs⟩ := consumeIf_spec (by exact h) hv
        exact consumeIf_notNull _ hcs.ok (hn.kept hcs.kept)
    · nofun

theorem exec_notNull (h : v.ctx.Ok a) (hn : v.ctx.Named) (op : Op φ κ) :
    NotNull (v.exec ctl op) := by
  cases op with
  | addEvent fd event cb me => exact (addEvent_notNull _ _ _ _).map _
  | delEvent fd event => exact (delEvent_notNull _ _).map _
  | cancelEvent fd event => exact (cancelEvent_notNull _ h hn).map _
  | cancelAll fd => exact (cancelAll_notNull _ h hn).map _
  | deliver fd word => exact (deliver_notNull _ h hn).map _

end View

/-! ## Runs -/

namespace IOManager

variable {ctl : Ctl K} {m m' : IOManager φ κ K}

/-- The call is `addEvent` in a thread without a scheduler, and the kernel takes the event. -/
def takesNull (ctl : Ctl K) (m : IOManager φ κ K) (op : Op φ κ) : Bool :=
  ((m.grown op).context op.fd).any fun c => ((m.grown op).view c).takesNull ctl op

/-- The scheduler of every armed event gets its waiter when the event is triggered, and no call
dereferences a null pointer. -/
structure Deliverable (ctl : Ctl K) (m : IOManager φ κ K) : Prop where
  armed : ∀ fd c (e : Event), m.context fd = some c → c.events.test e.bits = true →
    ∃ x s c' ft, c.getContext e = .ok x ∧ x.scheduler = some s ∧
      c.triggerEvent e = .ok (c', [(s, ft)]) ∧ ft.nonempty = true
  notNull : ∀ op, m.exec ctl op ≠ .error .nullDeref

/-- All contexts name their schedulers. -/
structure Named (m : IOManager φ κ K) : Prop where
  sound : m.Sound
  named : ∀ c ∈ m.ctxs, c.Named

theorem newContext_named (i : ℕ) : (Table.newContext i : FdContext φ κ).Named := by
  intro e x hx hb
  cases e <;> cases hx <;> cases hb

theorem Named.grown (h : m.Named) (op : Op φ κ) : (m.grown op).Named := by
  obtain ⟨-, l, hl, hc, -⟩ := grown_spec h.sound.dense op
  refine ⟨(h.sound.grown op).1, fun c hcm => ?_⟩
  rw [hc, List.mem_append] at hcm
  rcases hcm with hcm | hcm
  · exact h.named c hcm
  · obtain ⟨i, rfl⟩ := hl c hcm
    exact newContext_named i

/-- A call that does not end the process leaves the contexts named, or it is such an `addEvent` and
the context of its fd is not named after it. -/
theorem Named.exec (h : m.Named) {op : Op φ κ} {r : Ret} (he : m.exec ctl op = .ok (r, m')) :
    (m.takesNull ctl op = false ∧ m'.Named) ∨
    (m.takesNull ctl op = true ∧ ∃ c a, m'.context op.fd = some c ∧ c.Ok a ∧ ¬ c.Named) := by
  have hg := h.grown op
  have hsound := (h.sound.exec he).1
  rcases exec_spec h.sound.dense he with hn | ⟨hc, hv⟩
  · refine .inl ⟨?_, h⟩
    cases op with
    | addEvent fd event cb me =>
      obtain ⟨⟨i, m₁⟩, -, hr⟩ := map_ok he
      cases hr
    | _ =>
      rw [takesNull, context_eq hg.sound.dense]
      change Option.any _ m.ctxs[_]? = false
      rw [hn]
      rfl
  · rename_i c v
    have hmem := List.mem_of_getElem? hc
    obtain ⟨a, ha⟩ := hg.sound.ok c hmem
    have hself : ((m.grown op).put op.fd v).ctxs[op.fd.val]? = some v.ctx :=
      List.getElem?_set_self (List.getElem?_eq_some_iff.mp hc).1
    have hnamed := View.exec_named (v := (m.grown op).view c) ha (hg.named c hmem) hv
    rw [takesNull, context_eq hg.sound.dense, hc, Option.any_some]
    cases hnull : ((m.grown op).view c).takesNull ctl op with
    | false =>
      refine .inl ⟨rfl, hsound, fun c' hc' => ?_⟩
      rcases List.mem_or_eq_of_mem_set hc' with hc' | rfl
      · exact hg.named c' hc'
      · exact hnamed.mpr hnull
    | true =>
      obtain ⟨a', ha'⟩ := hsound.ok _ (List.mem_of_getElem? hself)
      refine .inr ⟨rfl, v.ctx, a', ?_, ha', fun hn => ?_⟩
      · rw [context_eq hsound.dense, hself]
      · rw [hnamed.mp hn] at hnull
        cases hnull

theorem on_notNull {ρ : Type} (h : m.Dense) {fd : Fd}
    {f : View φ κ K → Except Fault (ρ × View φ κ K)}
    (hf : ∀ c, m.ctxs[fd.val]? = some c → NotNull (f (m.view c))) : NotNull (m.on fd f) := by
  by_cases hlt : fd.val < m.ctxs.length
  · simp only [on, h.get hlt, List.getElem?_eq_getElem hlt]
    split
    · rename_i err herr
      exact (hf _ (List.getElem?_eq_getElem hlt)).of_error herr
    · rintro ⟨⟩
  · have hn : m.fdContext[fd.val]? = none := by
      rw [List.getElem?_eq_none_iff, h.length]
      omega
    simp [on, Table.get, hn, NotNull]

theorem inTable_notNull (h : m.Dense) {fd : Fd}
    {f : View φ κ K → Except Fault (Bool × View φ κ K)}
    (hf : ∀ c, m.ctxs[fd.val]? = some c → NotNull (f (m.view c))) : NotNull (m.inTable fd f) := by
  unfold inTable
  split
  · nofun
  · exact on_notNull h hf

theorem Named.exec_notNull (h : m.Named) (op : Op φ κ) : NotNull (m.exec ctl op) := by
  have hctx : ∀ {m : IOManager φ κ K}, m.Named → ∀ (i : ℕ) c, m.ctxs[i]? = some c →
      (∃ a, c.Ok a) ∧ c.Named := fun hm i c hc =>
    ⟨hm.sound.ok c (List.mem_of_getElem? hc), hm.named c (List.mem_of_getElem? hc)⟩
  cases op with
  | addEvent fd event cb me =>
    exact (on_notNull (h.grown (.addEvent fd event cb me)).sound.dense
      fun c _ => View.addEvent_notNull _ _ _ _).map _
  | delEvent fd event =>
    exact (inTable_notNull h.sound.dense fun c _ => View.delEvent_notNull _ _).map _
  | cancelEvent fd event =>
    refine (inTable_notNull h.sound.dense fun c hc => ?_).map _
    obtain ⟨⟨a, ha⟩, hn⟩ := hctx h _ c hc
    exact View.cancelEvent_notNull _ ha hn
  | cancelAll fd =>
    refine (inTable_notNull h.sound.dense fun c hc => ?_).map _
    obtain ⟨⟨a, ha⟩, hn⟩ := hctx h _ c hc
    exact View.cancelAll_notNull _ ha hn
  | deliver fd word =>
    refine (on_notNull h.sound.dense fun c hc => ?_).map _
    obtain ⟨⟨a, ha⟩, hn⟩ := hctx h _ c hc
    exact (View.deliver_notNull _ ha hn).map _

theorem Named.deliverable (h : m.Named) (ctl : Ctl K) : Deliverable ctl m where
  armed fd c e hc ht := by
    rw [context_eq h.sound.dense] at hc
    have hmem := List.mem_of_getElem? hc
    obtain ⟨a, ha⟩ := h.sound.ok c hmem
    rw [ha.events, Armed.mask_test] at ht
    rcases FdContext.triggerEvent_named (e := e) ha (h.named c hmem) with
      ⟨hf, -⟩ | ⟨-, x, s, hx, hs, htr⟩
    · rw [hf] at ht
      cases ht
    · obtain ⟨hho, hne⟩ := EventContext.handOver_eq (ht ▸ ha.get hx)
      rw [hho] at hne
      exact ⟨x, s, _, _, hx, hs, htr, hne⟩
  notNull := h.exec_notNull

theorem named_inductive (ctl : Ctl K) (k : K) :
    (sys (φ := φ) (κ := κ) ctl k).Inductive (fun m op => m.takesNull ctl op = false) Named where
  init := by
    rintro m rfl
    refine ⟨(initial_sound k).1, fun c hc => ?_⟩
    change c ∈ (Table.initial : Table φ κ).ctxs at hc
    rw [Table.initial_eq] at hc
    obtain ⟨i, -, rfl⟩ := List.mem_map.mp hc
    exact newContext_named i
  step m op m' h hc hs := by
    obtain ⟨⟨r, m₁⟩, he, rfl⟩ := Option.map_eq_some_iff.mp hs
    cases hx : m.exec ctl op with
    | error e => rw [hx] at he; cases he
    | ok y =>
      rw [hx] at he
      cases he
      rcases h.exec hx with ⟨-, hm⟩ | ⟨hnull, -⟩
      · exact hm
      · rw [hc] at hnull
        cases hnull

/-- Where all armed events of a context can be delivered, it names its schedulers. -/
theorem Deliverable.named (h : Deliverable ctl m) {fd : Fd} {c : FdContext φ κ} {a : Armed}
    (hc : m.context fd = some c) (ha : c.Ok a) : c.Named := by
  intro e x hx hb
  cases he : a.get e with
  | false =>
    have hholds := ha.get hx
    rw [he, EventContext.holds_false] at hholds
    rw [hholds] at hb
    cases hb
  | true =>
    obtain ⟨y, s, -, -, hy, hs, -⟩ := h.armed fd c e hc (by rw [ha.events, Armed.mask_test, he])
    obtain rfl : x = y := Except.ok.inj (hx.symm.trans hy)
    rw [hs]
    rfl

/-- **Armed events can be delivered** in every state, if no `addEvent` that the kernel takes is
made in a thread without a scheduler; after such a call they cannot all be. -/
theorem armed_named (ctl : Ctl K) (k : K) {m : IOManager φ κ K}
    (h : (sys ctl k).Reach (fun m op => m.takesNull ctl op = false) m) :
    Deliverable ctl m ∧ ∀ op r m', m.exec ctl op = .ok (r, m') →
      (Deliverable ctl m' ↔ m.takesNull ctl op = false) := by
  have hm := (named_inductive ctl k).reach h
  refine ⟨hm.deliverable ctl, fun op r m' he => ?_⟩
  rcases hm.exec he with ⟨hnull, hm'⟩ | ⟨hnull, c, a, hc, ha, hn⟩
  · exact iff_of_true (hm'.deliverable ctl) hnull
  · refine iff_of_false (fun hd => hn (hd.named hc ha)) ?_
    rw [hnull]
    nofun

/-- A worker registers a callback and its own fiber, and takes the second back. -/
theorem armed_named_worker : ∃ m : IOManager Unit Unit EpollMap,
    m.epoll 5 = some (EPOLLET ||| EPOLLIN) ∧ Deliverable EpollMap.ctl m := by
  let me : Caller Unit := { scheduler := some 0, fiber := (), state := .exec }
  obtain ⟨m, hs, hp⟩ := Interleave.Sys.exists_of_runBy
    (S := sys (φ := Unit) (κ := Unit) EpollMap.ctl fun _ => none)
    (C := fun m op => m.takesNull EpollMap.ctl op = false) (s := initial fun _ => none)
    [.addEvent 5 .read (some ()) me, .addEvent 5 .write none me, .delEvent 5 .write]
    (p := fun m => m.epoll 5 == some (EPOLLET ||| EPOLLIN)) (by decide)
  exact ⟨m, beq_iff_eq.mp hp, (armed_named _ _ ⟨_, rfl, hs⟩).1⟩

/-- A thread without a scheduler registers a callback: the event is armed, and `idle` dereferences a
null pointer when it is reported. -/
theorem armed_null : ∃ m : IOManager Unit Unit EpollMap,
    (sys EpollMap.ctl fun _ => none).Reach Interleave.Sys.free m ∧
    (m.context 5).map FdContext.events = some EPOLLIN ∧
    m.exec EpollMap.ctl (.deliver 5 EPOLLIN) = .error .nullDeref ∧ ¬ Deliverable EpollMap.ctl m := by
  let me : Caller Unit := { scheduler := none, fiber := (), state := .exec }
  obtain ⟨m, hs, hp⟩ := Interleave.Sys.exists_of_runBy
    (S := sys (φ := Unit) (κ := Unit) EpollMap.ctl fun _ => none)
    (C := Interleave.Sys.free) (s := initial fun _ => none) [.addEvent 5 .read (some ()) me]
    (p := fun m => (m.context 5).map FdContext.events == some EPOLLIN &&
      match m.exec EpollMap.ctl (.deliver 5 EPOLLIN) with
      | .error err => err == .nullDeref
      | .ok _ => false) (by decide)
  rw [Bool.and_eq_true, beq_iff_eq] at hp
  obtain ⟨hc, hx⟩ := hp
  have hnull : m.exec EpollMap.ctl (.deliver 5 EPOLLIN) = .error .nullDeref := by
    split at hx
    · rename_i err herr
      rw [herr, beq_iff_eq.mp hx]
    · cases hx
  exact ⟨m, ⟨_, rfl, hs⟩, hc, hnull, fun hd => hd.notNull _ hnull⟩

end IOManager
end Ddg
