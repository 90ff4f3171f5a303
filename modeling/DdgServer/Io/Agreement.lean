import DdgServer.Io.CallLemmas

/-!
# The kernel and the manager agree on what is armed

The manager keeps the armed events of an fd in `FdContext::events`, the kernel keeps an interest
mask (`EpollMap`). Five calls change both, and each computes the kernel's word on its own.

- **Interest** (`FdContext.interest`): what the kernel should keep for a context.
- **Where they part** (`takesMod`): `cancelEvent` passes the number of the operation to
  `epoll_ctl`, and `idle` passes the reported word. Both only matter on `EPOLL_CTL_MOD`, when an
  event of the fd stays armed.
- `epoll_agrees`: without such a call, the two agree in every state.
- `agrees_iff_step`: such a call always parts them.
- `cancelEvent_disarms`: after `cancelEvent` of one of two armed events, the kernel keeps the word
  `3` for the other one.
-/

namespace Ddg

variable {φ κ : Type}

/-- The interest mask for a context. -/
def FdContext.interest (c : FdContext φ κ) : Option Word :=
  if c.events = 0 then none else some (EPOLLET ||| c.events)

/-- The call consumes an event by `cancelEvent` or in `idle` and leaves another one armed. -/
def FdContext.takesMod (c : FdContext φ κ) : Op φ κ → Bool
  | .cancelEvent _ event =>
    c.events.test event.bits && c.events &&& ~~~event.bits != 0
  | .deliver _ word =>
    let real := realEvents (readyWord c.events word)
    c.events &&& real.mask != 0 && c.events &&& ~~~real.mask != 0
  | _ => false

namespace IOManager

/-- The context in the table for `fd`. -/
def context {K : Type} (m : IOManager φ κ K) (fd : Fd) : Option (FdContext φ κ) :=
  (m.get fd).toOption.bind (m.ctxs[·]?)

/-- The call takes the `EPOLL_CTL_MOD` branch of `cancelEvent` or of `idle`. -/
def takesMod {K : Type} (m : IOManager φ κ K) (op : Op φ κ) : Bool :=
  (m.context op.fd).any (·.takesMod op)

theorem context_eq {K : Type} {m : IOManager φ κ K} (h : m.Dense) (fd : Fd) :
    m.context fd = m.ctxs[fd.val]? := by
  unfold context
  by_cases hlt : fd.val < m.ctxs.length
  · rw [h.get hlt]
    rfl
  · have hn : m.fdContext[fd.val]? = none := by
      rw [List.getElem?_eq_none_iff, h.length]
      omega
    rw [List.getElem?_eq_none (by omega)]
    simp [Table.get, hn, Except.toOption]

end IOManager

/-! ## One call on its context -/

/-- The interest mask for a set of armed events. -/
def Armed.interest (a : Armed) : Option Word :=
  if a.mask = 0 then none else some (EPOLLET ||| a.mask)

/-- The mask has the armed events. -/
theorem Armed.interest_test {a : Armed} {e : Event} (h : a.get e = true) :
    (EPOLLET ||| a.mask).test e.bits = true := by
  obtain ⟨r, w⟩ := a
  revert h
  cases e <;> revert r w <;> decide

theorem FdContext.Ok.interest {c : FdContext φ κ} {a : Armed} (h : c.Ok a) :
    c.interest = a.interest := by
  rw [FdContext.interest, h.events, Armed.interest]

namespace EpollMap

variable {k : EpollMap} {a : Armed} {z : ℤ}

/-- `ADD` or `MOD`, as the events armed before say, succeeds on a kernel that agrees. -/
theorem ctl_arm (h : k z = a.interest) (w : Word) :
    ctl k (View.opFor a.mask .add) z w = (true, Function.update k z (some w)) := by
  unfold Armed.interest at h
  by_cases ha : a.mask = 0
  · rw [if_pos ha] at h
    have hop : View.opFor a.mask .add = .add := by simp [View.opFor, ha]
    simp only [hop, ctl, h]
  · rw [if_neg ha] at h
    have hop : View.opFor a.mask .add = .mod := by simpa [View.opFor] using ha
    simp only [hop, ctl, h]

/-- `MOD` or `DEL`, as the events left say, succeeds on a kernel that agrees. -/
theorem ctl_clear (h : k z = a.interest) (ha : a.mask ≠ 0) (left w : Word) :
    ctl k (View.opFor left .del) z w =
      (true, Function.update k z (if left = 0 then none else some w)) := by
  rw [Armed.interest, if_neg ha] at h
  by_cases hl : left = 0
  · have hop : View.opFor left .del = .del := by simp [View.opFor, hl]
    simp only [hop, ctl, h, if_pos hl]
  · have hop : View.opFor left .del = .mod := by simpa [View.opFor] using hl
    simp only [hop, ctl, h, if_neg hl]

end EpollMap

namespace View

variable {v v' : View φ κ EpollMap} {a : Armed}

theorem mask_ne_zero {e : Event} (h : a.get e = true) : a.mask ≠ 0 := by
  intro hz
  rw [Armed.mask_eq_zero.mp hz] at h
  cases e <;> cases h

/-- After a call on the fd `z`: the context is well formed and still that of its fd, and the kernel
has its interest there and what it had before everywhere else. -/
structure Agreed (z : ℤ) (v v' : View φ κ EpollMap) : Prop where
  ok : ∃ a', v'.ctx.Ok a'
  fd : v'.ctx.fd = v.ctx.fd
  epoll : v'.epoll = Function.update v.epoll z v'.ctx.interest

variable {z : ℤ} {e : Event}

/-- A call that does nothing. -/
theorem Agreed.refl (h : v.ctx.Ok a) (hk : v.epoll z = a.interest) : Agreed z v v :=
  ⟨⟨a, h⟩, rfl, by rw [h.interest, ← hk, Function.update_eq_self]⟩

theorem addEvent_agreed {cb : Option κ} {me : Caller φ} {i : ℤ} (h : v.ctx.Ok a)
    (hk : v.epoll z = a.interest) (hz : v.addEvent EpollMap.ctl z e cb me = .ok (i, v')) :
    Agreed z v v' := by
  have hctl := EpollMap.ctl_arm hk (EPOLLET ||| (a.set true e).mask)
  rcases addEvent_spec h hz with ⟨hf, -, -⟩ | ⟨-, -, hne, -, x, hx, -, -, rfl⟩
  · rw [hctl] at hf
    cases hf
  · have hok := h.set (e := e) hx
    have hm : (a.set true e).mask ≠ 0 :=
      mask_ne_zero (e := e) (by rw [Armed.get_set, if_pos ⟨rfl, hne⟩])
    refine ⟨⟨_, hok⟩, FdContext.setContext_fd x, ?_⟩
    rw [hok.interest, Armed.interest, if_neg hm]
    exact congrArg Prod.snd hctl

theorem delEvent_agreed {b : Bool} (h : v.ctx.Ok a) (hk : v.epoll z = a.interest)
    (hz : v.delEvent EpollMap.ctl z e = .ok (b, v')) : Agreed z v v' := by
  rcases delEvent_spec h hz with ⟨-, -, rfl⟩ | ⟨-, ha, hf, -⟩ | ⟨-, ha, -, x, hx, rfl⟩
  · exact .refl h hk
  · have hctl := EpollMap.ctl_clear hk (mask_ne_zero ha) (a.set false e).mask
      (EPOLLET ||| (a.set false e).mask)
    rw [hctl] at hf
    cases hf
  · have hok := h.set (e := e) (x := {}) (EventContext.holds_false.mpr rfl)
    refine ⟨⟨_, hok⟩, FdContext.setContext_fd {}, ?_⟩
    rw [hok.interest, Armed.interest]
    exact congrArg Prod.snd (EpollMap.ctl_clear hk (mask_ne_zero ha) _ _)

/-- `cancelEvent` of an event that is the only one armed, or of one that is not armed. -/
theorem cancelEvent_agreed {b : Bool} (h : v.ctx.Ok a) (hk : v.epoll z = a.interest)
    (hlast : a.get e = true → (a.set false e).mask = 0)
    (hz : v.cancelEvent EpollMap.ctl z e = .ok (b, v')) : Agreed z v v' := by
  unfold cancelEvent at hz
  split at hz
  · rename_i ht
    rw [h.events, Armed.mask_test] at ht
    have hctl := EpollMap.ctl_clear hk (mask_ne_zero ht) (a.set false e).mask
      (opFor (a.set false e).mask .del).code
    rcases cancelLocked_spec h hz with ⟨-, hf, -⟩ | ⟨-, -, -, hcs⟩
    · rw [hctl] at hf
      cases hf
    · refine ⟨⟨_, hcs.ok⟩, hcs.fd, ?_⟩
      rw [hcs.epoll, hcs.ok.interest, Armed.interest, if_pos (hlast ht)]
      exact (congrArg Prod.snd hctl).trans (by rw [if_pos (hlast ht)])
  · cases hz
    exact .refl h hk

theorem cancelAll_agreed {b : Bool} (h : v.ctx.Ok a) (hk : v.epoll z = a.interest)
    (hz : v.cancelAll EpollMap.ctl z = .ok (b, v')) : Agreed z v v' := by
  unfold cancelAll at hz
  split at hz
  · rename_i ht
    have ha : a.mask ≠ 0 := by simpa [h.events] using ht
    have hctl := EpollMap.ctl_clear hk ha 0 CtlOp.del.code
    rcases cancelAllLocked_spec h hz with ⟨-, hf, -⟩ | ⟨-, -, hcs⟩
    · exact absurd ((congrArg Prod.fst hctl).symm.trans hf) (by simp)
    · refine ⟨⟨_, hcs.ok⟩, hcs.fd, ?_⟩
      rw [hcs.epoll, hcs.ok.interest]
      exact congrArg Prod.snd hctl
  · cases hz
    exact .refl h hk

/-- `idle` with a word that makes all armed events ready, or none. -/
theorem deliver_agreed {word : Word} (h : v.ctx.Ok a) (hk : v.epoll v.ctx.fd = a.interest)
    (hlast : a.mask &&& (realEvents (readyWord a.mask word)).mask ≠ 0 →
      (a.diff (realEvents (readyWord a.mask word))).mask = 0)
    (hz : v.deliver EpollMap.ctl word = .ok v') : Agreed v.ctx.fd v v' := by
  have hctl (ha : a.mask ≠ 0) := EpollMap.ctl_clear hk ha
    (a.diff (realEvents (readyWord a.mask word))).mask (readyWord a.mask word)
  rcases deliver_spec h hz with ⟨-, rfl⟩ | ⟨hne, hf, -⟩ | ⟨hne, -, hcs⟩
  · exact .refl h hk
  · have ha : a.mask ≠ 0 := fun hz => hne (by simp [hz])
    rw [hctl ha] at hf
    cases hf
  · have ha : a.mask ≠ 0 := fun hz => hne (by simp [hz])
    have hctl := hctl ha
    rw [if_pos (hlast hne)] at hctl
    refine ⟨⟨_, hcs.ok⟩, hcs.fd, ?_⟩
    rw [hcs.epoll, hcs.ok.interest, Armed.interest, if_pos (hlast hne)]
    exact congrArg Prod.snd hctl

/-- A call on an fd on which the kernel agrees leaves it agreeing, unless it takes the `MOD` branch
of `cancelEvent` or of `idle`. -/
theorem exec_agrees {op : Op φ κ} {r : Ret} (h : v.ctx.Ok a) (hfd : v.ctx.fd = (op.fd.val : ℤ))
    (hk : v.epoll op.fd.val = a.interest) (hmod : v.ctx.takesMod op = false)
    (he : v.exec EpollMap.ctl op = .ok (r, v')) : Agreed op.fd.val v v' := by
  cases op with
  | addEvent fd event cb me =>
    obtain ⟨⟨i, v₁⟩, hz, hr⟩ := IOManager.map_ok he
    cases hr
    exact addEvent_agreed h hk hz
  | delEvent fd event =>
    obtain ⟨⟨b, v₁⟩, hz, hr⟩ := IOManager.map_ok he
    cases hr
    exact delEvent_agreed h hk hz
  | cancelEvent fd event =>
    obtain ⟨⟨b, v₁⟩, hz, hr⟩ := IOManager.map_ok he
    cases hr
    refine cancelEvent_agreed h hk (fun ht => ?_) hz
    simpa [FdContext.takesMod, h.events, ht] using hmod
  | cancelAll fd =>
    obtain ⟨⟨b, v₁⟩, hz, hr⟩ := IOManager.map_ok he
    cases hr
    exact cancelAll_agreed h hk hz
  | deliver fd word =>
    obtain ⟨v₁, hz, hr⟩ := IOManager.map_ok he
    cases hr
    have hagreed := deliver_agreed h (hfd ▸ hk) (fun hne => ?_) hz
    · rwa [hfd] at hagreed
    · simp only [FdContext.takesMod, h.events, Armed.mask_diff, Bool.and_eq_false_iff,
        bne_eq_false_iff_eq] at hmod
      exact hmod.resolve_left hne

/-- The word that `EPOLL_CTL_MOD` stores in `cancelEvent` is never the interest mask. -/
theorem cancel_word_ne (a : Armed) : (3 : Word) ≠ EPOLLET ||| a.mask := by
  obtain ⟨r, w⟩ := a
  revert r w
  decide

theorem eq_of_diff_eq {a b : Armed} (h : a.diff b = b) : b = ⟨false, false⟩ := by
  obtain ⟨r, w⟩ := a
  obtain ⟨r', w'⟩ := b
  revert r w r' w'
  decide

/-- Nor is the one that it stores in `idle`: the word has the consumed events. -/
theorem deliver_word_ne {word : Word} {a : Armed} (h : (a.diff (realEvents word)).mask ≠ 0) :
    word ≠ EPOLLET ||| (a.diff (realEvents word)).mask := by
  intro he
  have hr : ∀ b : Armed, realEvents (EPOLLET ||| b.mask) = b := by
    rintro ⟨r, w⟩
    revert r w
    decide
  have hd : a.diff (realEvents word) = realEvents word :=
    (hr _).symm.trans (congrArg realEvents he.symm)
  exact h (Armed.mask_eq_zero.mpr (hd.trans (eq_of_diff_eq hd)))

/-- A call that takes the `MOD` branch of `cancelEvent` or of `idle` leaves another mask. -/
theorem exec_parts {op : Op φ κ} {r : Ret} (h : v.ctx.Ok a) (hfd : v.ctx.fd = (op.fd.val : ℤ))
    (hk : v.epoll op.fd.val = a.interest) (hmod : v.ctx.takesMod op = true)
    (he : v.exec EpollMap.ctl op = .ok (r, v')) : v'.epoll op.fd.val ≠ v'.ctx.interest := by
  cases op with
  | cancelEvent fd event =>
    obtain ⟨⟨b, v₁⟩, hz, hr⟩ := IOManager.map_ok he
    cases hr
    simp only [FdContext.takesMod, h.events, Armed.mask_test, Armed.mask_clear,
      Bool.and_eq_true, bne_iff_ne] at hmod
    obtain ⟨ha, hl⟩ := hmod
    rw [cancelEvent, h.events, Armed.mask_test, if_pos ha] at hz
    have hctl := EpollMap.ctl_clear hk (mask_ne_zero ha) (a.set false event).mask
      (opFor (a.set false event).mask .del).code
    rcases cancelLocked_spec h hz with ⟨-, hf, -⟩ | ⟨-, -, -, hcs⟩
    · exact absurd ((congrArg Prod.fst hctl).symm.trans hf) (by simp)
    · have hop : opFor (a.set false event).mask .del = .mod := by simpa [opFor] using hl
      have hs : v₁.epoll fd.val = some 3 := by
        rw [hcs.epoll]
        refine (congrFun (congrArg Prod.snd hctl) _).trans ?_
        show Function.update v.epoll (fd.val : ℤ) _ (fd.val : ℤ) = _
        rw [Function.update_self, if_neg hl, hop]
        rfl
      rw [Op.fd, hs, hcs.ok.interest, Armed.interest, if_neg hl]
      exact fun heq => cancel_word_ne _ (Option.some.inj heq)
  | deliver fd word =>
    obtain ⟨v₁, hz, hr⟩ := IOManager.map_ok he
    cases hr
    simp only [FdContext.takesMod, h.events, Armed.mask_diff, Bool.and_eq_true,
      bne_iff_ne] at hmod
    obtain ⟨hne, hl⟩ := hmod
    have ha : a.mask ≠ 0 := fun hz => hne (by simp [hz])
    have hctl := EpollMap.ctl_clear hk ha (a.diff (realEvents (readyWord a.mask word))).mask
      (readyWord a.mask word)
    rw [← hfd] at hctl
    rcases deliver_spec h hz with ⟨hz, -⟩ | ⟨-, hf, -⟩ | ⟨-, -, hcs⟩
    · exact absurd hz hne
    · exact absurd ((congrArg Prod.fst hctl).symm.trans hf) (by simp)
    · have hs : v'.epoll fd.val = some (readyWord a.mask word) := by
        rw [hcs.epoll]
        refine (congrFun (congrArg Prod.snd hctl) _).trans ?_
        show Function.update v.epoll v.ctx.fd _ (fd.val : ℤ) = _
        rw [show v.ctx.fd = (fd.val : ℤ) from hfd, Function.update_self, if_neg hl]
      rw [Op.fd, hs, hcs.ok.interest, Armed.interest, if_neg hl]
      exact fun heq => deliver_word_ne hl (Option.some.inj heq)
  | addEvent => cases hmod
  | delEvent => cases hmod
  | cancelAll => cases hmod

end View

/-! ## Runs -/

namespace IOManager

variable {m m' : IOManager φ κ EpollMap}

/-- The kernel's map is that of the contexts. -/
structure Agrees (m : IOManager φ κ EpollMap) : Prop where
  dense : m.Dense
  ok : ∀ (i : ℕ) c, m.ctxs[i]? = some c → ∃ a, c.Ok a
  epoll : ∀ fd : Fd, m.epoll fd.val = m.ctxs[fd.val]?.bind FdContext.interest

theorem newContext_ok (i : ℕ) : (Table.newContext i : FdContext φ κ).Ok ⟨false, false⟩ :=
  ⟨rfl, rfl, rfl⟩

theorem Agrees.grown (h : Agrees m) (op : Op φ κ) : Agrees (m.grown op) := by
  obtain ⟨hd, l, hl, hc, he, -, -⟩ := grown_spec h.dense op
  have hnew : ∀ (i : ℕ) c, (m.grown op).ctxs[i]? = some c →
      m.ctxs[i]? = some c ∨ (m.ctxs[i]? = none ∧ ∃ j, c = Table.newContext j) := by
    intro i c hic
    rw [hc, List.getElem?_append] at hic
    split at hic
    · exact .inl hic
    · rename_i hi
      exact .inr ⟨List.getElem?_eq_none (by omega), hl c (List.mem_of_getElem? hic)⟩
  refine ⟨hd, fun i c hic => ?_, fun fd => ?_⟩
  · rcases hnew i c hic with hold | ⟨-, j, rfl⟩
    · exact h.ok i c hold
    · exact ⟨_, newContext_ok j⟩
  · rw [he, h.epoll fd]
    cases hic : (m.grown op).ctxs[fd.val]? with
    | none =>
      have hn : m.ctxs[fd.val]? = none := by
        rw [hc, List.getElem?_eq_none_iff, List.length_append] at hic
        exact List.getElem?_eq_none (by omega)
      rw [hn]
    | some c =>
      rcases hnew _ c hic with hold | ⟨hn, j, rfl⟩
      · rw [hold]
      · rw [hn, Option.bind_some, (newContext_ok j).interest]
        rfl

/-- The context on which a call does its part, under agreement. -/
theorem Agrees.view (h : Agrees m) {op : Op φ κ} {c : FdContext φ κ}
    (hc : m.ctxs[op.fd.val]? = some c) :
    ∃ a, c.Ok a ∧ c.fd = (op.fd.val : ℤ) ∧ m.epoll op.fd.val = a.interest := by
  obtain ⟨a, ha⟩ := h.ok _ c hc
  refine ⟨a, ha, ?_, ?_⟩
  · rw [h.dense.fds _ c hc]
    exact Int.bmod_eq_of_le (by omega) (by omega)
  · rw [h.epoll, hc, Option.bind_some, ha.interest]

theorem takesMod_eq (h : m.Dense) {op : Op φ κ} {c : FdContext φ κ}
    (hc : m.ctxs[op.fd.val]? = some c) : c.takesMod op = m.takesMod op := by
  rw [takesMod, context_eq h, hc]
  rfl

theorem takesMod_grown (h : m.Dense) {op : Op φ κ} {c : FdContext φ κ}
    (hc : (m.grown op).ctxs[op.fd.val]? = some c) : c.takesMod op = m.takesMod op := by
  cases op with
  | addEvent fd event cb me =>
    show false = (m.context fd).any fun _ => false
    cases m.context fd <;> rfl
  | delEvent fd event => exact takesMod_eq h hc
  | cancelEvent fd event => exact takesMod_eq h hc
  | cancelAll fd => exact takesMod_eq h hc
  | deliver fd word => exact takesMod_eq h hc

/-- A call keeps the agreement unless it takes the `MOD` branch of `cancelEvent` or of `idle`. -/
theorem Agrees.exec (h : Agrees m) {op : Op φ κ} {r : Ret} (hmod : m.takesMod op = false)
    (he : m.exec EpollMap.ctl op = .ok (r, m')) : Agrees m' := by
  have hg := h.grown op
  rcases exec_spec h.dense he with _ | ⟨hc, hv⟩
  · exact h
  · rename_i c v
    obtain ⟨a, ha, hfd, hk⟩ := hg.view hc
    rw [← takesMod_grown h.dense hc] at hmod
    obtain ⟨⟨a', ha'⟩, hfd', hk'⟩ := View.exec_agrees ha hfd hk hmod hv
    refine ⟨put_dense hg.dense hc hfd', fun i c' hc' => ?_, fun fd => ?_⟩
    · rcases put_getElem? hc' with ⟨-, rfl⟩ | ⟨-, hc'⟩
      · exact ⟨a', ha'⟩
      · exact hg.ok i c' hc'
    · show v.epoll fd.val = _
      rw [hk']
      by_cases hfe : fd = op.fd
      · subst hfe
        have hlt := (List.getElem?_eq_some_iff.mp hc).1
        rw [Function.update_self, put, List.getElem?_set_self hlt]
        rfl
      · have hne : (op.fd.val : ℕ) ≠ fd.val := fun hv => hfe (Fin.ext hv.symm)
        rw [Function.update_of_ne (by exact_mod_cast hne.symm), put, List.getElem?_set_ne hne]
        exact hg.epoll fd

theorem initial_agrees : Agrees (initial (φ := φ) (κ := κ) (fun _ => none : EpollMap)) := by
  have hnew : ∀ (i : ℕ) (c : FdContext φ κ), (Table.initial : Table φ κ).ctxs[i]? = some c →
      ∃ j, c = Table.newContext j := by
    intro i c hc
    rw [Table.initial_eq] at hc
    obtain ⟨j, -, rfl⟩ := List.mem_map.mp (List.mem_of_getElem? hc)
    exact ⟨j, rfl⟩
  refine ⟨Table.initial_dense, fun i c hc => ?_, fun fd => ?_⟩
  · obtain ⟨j, rfl⟩ := hnew i c hc
    exact ⟨_, newContext_ok j⟩
  · show none = (Table.initial : Table φ κ).ctxs[fd.val]?.bind _
    cases hc : (Table.initial : Table φ κ).ctxs[fd.val]? with
    | none => rfl
    | some c =>
      obtain ⟨j, rfl⟩ := hnew _ c hc
      rfl

theorem agrees_inductive :
    (sys (φ := φ) (κ := κ) EpollMap.ctl fun _ => none).Inductive
      (fun m op => m.takesMod op = false) Agrees where
  init := by
    rintro m rfl
    exact initial_agrees
  step m op m' hi hc hs := by
    obtain ⟨⟨r, m₁⟩, he, rfl⟩ := Option.map_eq_some_iff.mp hs
    cases hx : m.exec EpollMap.ctl op with
    | error e => rw [hx] at he; cases he
    | ok y =>
      rw [hx] at he
      cases he
      exact hi.exec hc hx

/-- In every run without a call that takes the `MOD` branch of `cancelEvent` or of `idle`: an fd is
in epoll iff it has an armed event, its interest mask is `EPOLLET | events`, and so the mask has
every armed event. -/
theorem epoll_agrees {m : IOManager φ κ EpollMap}
    (h : (sys EpollMap.ctl fun _ => none).Reach (fun m op => m.takesMod op = false) m) (fd : Fd) :
    m.epoll fd.val = (m.context fd).bind FdContext.interest ∧
    ∀ c (e : Event), m.context fd = some c → c.events.test e.bits = true →
      ∃ w, m.epoll fd.val = some w ∧ w.test e.bits = true := by
  have hi := agrees_inductive.reach h
  have he : m.epoll fd.val = (m.context fd).bind FdContext.interest := by
    rw [context_eq hi.dense]
    exact hi.epoll fd
  refine ⟨he, fun c e hc ht => ?_⟩
  have hcx := hc
  rw [context_eq hi.dense] at hcx
  obtain ⟨a, ha⟩ := hi.ok _ c hcx
  rw [ha.events, Armed.mask_test] at ht
  refine ⟨EPOLLET ||| a.mask, ?_, ?_⟩
  · rw [he, hc, Option.bind_some, ha.interest, Armed.interest, if_neg (View.mask_ne_zero ht)]
  · exact Armed.interest_test ht

/-- `addEvent(5, READ)`, `addEvent(5, WRITE)` and `delEvent(5, READ)`. -/
theorem epoll_agrees_after_delEvent : ∃ m : IOManager Unit Unit EpollMap,
    m.epoll 5 = some (EPOLLET ||| EPOLLOUT) ∧
    m.epoll 5 = (m.context 5).bind FdContext.interest ∧
    ∀ c (e : Event), m.context 5 = some c → c.events.test e.bits = true →
      ∃ w, m.epoll 5 = some w ∧ w.test e.bits = true := by
  let me : Caller Unit := { scheduler := some 0, fiber := (), state := .exec }
  obtain ⟨m, hs, hp⟩ := Interleave.Sys.exists_of_runBy
    (S := sys (φ := Unit) (κ := Unit) EpollMap.ctl fun _ => none)
    (C := fun m op => m.takesMod op = false) (s := initial fun _ => none)
    [.addEvent 5 .read (some ()) me, .addEvent 5 .write none me, .delEvent 5 .read]
    (p := fun m => m.epoll 5 == some (EPOLLET ||| EPOLLOUT)) (by decide)
  exact ⟨m, beq_iff_eq.mp hp, epoll_agrees ⟨_, rfl, hs⟩ 5⟩

/-- From an agreeing state, a call that does not end the process leads to one that agrees on the
fd of the call iff the call does not take the `MOD` branch of `cancelEvent` or of `idle`. -/
theorem agrees_iff_step (h : Agrees m) {op : Op φ κ} {r : Ret}
    (he : m.exec EpollMap.ctl op = .ok (r, m')) :
    m'.epoll op.fd.val = m'.ctxs[op.fd.val]?.bind FdContext.interest ↔ m.takesMod op = false := by
  refine ⟨fun hk => ?_, fun hmod => (h.exec hmod he).epoll op.fd⟩
  by_contra hmod
  have hg := h.grown op
  rcases exec_spec h.dense he with hn | ⟨hc, hv⟩
  · rw [takesMod, context_eq h.dense, hn] at hmod
    exact hmod rfl
  · rename_i c v
    obtain ⟨a, ha, hfd, hk₀⟩ := hg.view hc
    rw [← takesMod_grown h.dense hc, Bool.not_eq_false] at hmod
    refine View.exec_parts ha hfd hk₀ hmod hv (hk.trans ?_)
    rw [put, List.getElem?_set_self (List.getElem?_eq_some_iff.mp hc).1]
    rfl

/-- `addEvent(5, READ)`, `addEvent(5, WRITE)` and `cancelEvent(5, READ)`: the kernel keeps the word
`3` for the fd, on which `WRITE` is armed. -/
theorem cancelEvent_disarms : ∃ m : IOManager Unit Unit EpollMap,
    (sys EpollMap.ctl fun _ => none).Reach Interleave.Sys.free m ∧
    (m.context 5).map FdContext.events = some EPOLLOUT ∧ m.epoll 5 = some 3 ∧
    m.epoll 5 ≠ (m.context 5).bind FdContext.interest := by
  let me : Caller Unit := { scheduler := some 0, fiber := (), state := .exec }
  obtain ⟨m, hs, hp⟩ := Interleave.Sys.exists_of_runBy
    (S := sys (φ := Unit) (κ := Unit) EpollMap.ctl fun _ => none)
    (C := Interleave.Sys.free) (s := initial fun _ => none)
    [.addEvent 5 .read (some ()) me, .addEvent 5 .write (some ()) me, .cancelEvent 5 .read]
    (p := fun m => (m.context 5).map FdContext.events == some EPOLLOUT && m.epoll 5 == some 3 &&
      m.epoll 5 != (m.context 5).bind FdContext.interest) (by decide)
  simp only [Bool.and_eq_true, beq_iff_eq, bne_iff_ne] at hp
  exact ⟨m, ⟨_, rfl, hs⟩, hp.1.1, hp.1.2, hp.2⟩

end IOManager
end Ddg
