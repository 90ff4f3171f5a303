import DdgServer.Io.Schedulers

/-!
# The events that `idle` triggers

`epoll_wait` reports a batch of words, each for another fd with an armed event, and `idle` handles
them one after the other (`batch`). `HUP` and `ERR` come for any such fd. `idle` takes `HUP` for
`READ`, and does not look at `ERR`.

- **A word** (`FdContext.Reports`, `FdContext.Served`): what can be reported for a context, and
  which of these words `idle` is able to serve.
- **One report** (`View.deliver_cases`, `IOManager.Fit.deliver`): what `idle` does with it.
- **The kernel** (`Fit`): in every state it has exactly the fds with an armed event, so that
  `epoll_ctl` succeeds in `idle`.
- `batch_exact`: a batch is handled as it should be (`Handled`) exactly if all its words are served.
- `batch_write_only`: two reports, for an fd on which only `WRITE` is armed, that are not served.
-/

namespace Ddg

variable {φ κ : Type}

/-! ## Words -/

/-- `word` can be reported for a context: some event is armed, and the word has armed events, `HUP`
and `ERR` only. -/
structure FdContext.Reports (c : FdContext φ κ) (word : Word) : Prop where
  armed : c.events ≠ 0
  nonzero : word ≠ 0
  only : word &&& ~~~(c.events ||| EPOLLHUP ||| EPOLLERR) = 0

/-- `READ` is armed if the word has `HUP`, the word has another bit if it has `ERR`, and the events
that it makes ready were registered in a thread with a scheduler. -/
structure FdContext.Served (c : FdContext φ κ) (word : Word) : Prop where
  hup : word.test EPOLLHUP = true → c.events.test EPOLLIN = true
  err : word.test EPOLLERR = true → word.test (EPOLLIN ||| EPOLLOUT ||| EPOLLHUP) = true
  read : word.test (EPOLLIN ||| EPOLLHUP) = true → c.read.scheduler.isSome = true
  write : word.test EPOLLOUT = true → c.write.scheduler.isSome = true

theorem Word.test_or (w m m' : Word) : w.test (m ||| m') = (w.test m || w.test m') := by
  rw [Bool.eq_iff_iff, Bool.or_eq_true]
  simp only [Word.test, bne_iff_ne, ne_eq, BitVec.and_or_distrib_left]
  rw [← not_and_or]
  exact not_congr BitVec.or_eq_zero_iff

theorem Word.or_test (w w' m : Word) : (w ||| w').test m = (w.test m || w'.test m) := by
  rw [Bool.eq_iff_iff, Bool.or_eq_true]
  simp only [Word.test, bne_iff_ne, ne_eq, BitVec.and_or_distrib_right]
  rw [← not_and_or]
  exact not_congr BitVec.or_eq_zero_iff

/-- The bits that `idle` adds to the word make no other event ready. -/
theorem realEvents_ready (a : Armed) (word : Word) :
    realEvents (readyWord a.mask word) = realEvents word := by
  unfold readyWord
  split
  · rename_i hw
    have hout : ((EPOLLIN ||| EPOLLHUP) &&& a.mask).test EPOLLOUT = false := by
      obtain ⟨r, w⟩ := a
      revert r w
      decide
    rw [realEvents, realEvents, Word.or_test, Word.or_test, hw, hout, Bool.true_or, Bool.or_false]
  · rfl

namespace Armed

/-- The events are all in `a`. -/
def In (t a : Armed) : Prop := (t.read = true → a.read = true) ∧ (t.write = true → a.write = true)

theorem diff_eq_none {t a : Armed} : (t.diff a).mask = 0 ↔ t.In a := by
  obtain ⟨r, w⟩ := t
  obtain ⟨r', w'⟩ := a
  unfold In
  revert r w r' w'
  decide

/-- The events of a word, if none of them is armed. -/
theorem and_eq_zero {a t : Armed} : a.mask &&& t.mask = 0 ↔
    (t.read = true → a.read = false) ∧ (t.write = true → a.write = false) := by
  obtain ⟨r, w⟩ := a
  obtain ⟨r', w'⟩ := t
  revert r w r' w'
  decide

theorem card_eq_zero {t : Armed} : t.card = 0 ↔ t.mask = 0 := by
  obtain ⟨r, w⟩ := t
  revert r w
  decide

theorem and_not_none (w : Word) : w &&& ~~~(⟨false, false⟩ : Armed).mask = w := BitVec.and_allOnes

theorem card_diff {t a : Armed} (h : t.In a) : (a.diff t).card + t.card = a.card := by
  obtain ⟨r, w⟩ := t
  obtain ⟨r', w'⟩ := a
  unfold In at h
  revert h
  revert r w r' w'
  decide

/-- The bits that a word cannot have: the events that are not armed, and all but the four. -/
theorem unreported (a : Armed) :
    (a.read = false → ~~~(a.mask ||| EPOLLHUP ||| EPOLLERR) &&& EPOLLIN = EPOLLIN) ∧
    (a.write = false → ~~~(a.mask ||| EPOLLHUP ||| EPOLLERR) &&& EPOLLOUT = EPOLLOUT) ∧
    ~~~(a.mask ||| EPOLLHUP ||| EPOLLERR) |||
      (EPOLLIN ||| EPOLLOUT ||| (EPOLLHUP ||| EPOLLERR)) = BitVec.allOnes 32 := by
  obtain ⟨r, w⟩ := a
  revert r w
  decide

theorem test_read (a : Armed) : a.mask.test EPOLLIN = a.read := mask_test a .read

theorem test_write (a : Armed) : a.mask.test EPOLLOUT = a.write := mask_test a .write

end Armed

/-! ## One report -/

/-- The call that `triggerEvent` of an armed event makes. -/
def EventContext.call (x : EventContext φ κ) : List (Call φ κ) :=
  x.scheduler.toList.map fun s => (s, { fiber := x.fiber, cb := x.cb })

/-- The calls of `triggerEvent(READ)` and `triggerEvent(WRITE)`, for the events of `t`. -/
def FdContext.calls (c : FdContext φ κ) (t : Armed) : List (Call φ κ) :=
  (if t.read then c.read.call else []) ++ if t.write then c.write.call else []

/-- The events of `t` are armed, and their contexts name schedulers. -/
structure FdContext.Triggerable (c : FdContext φ κ) (a t : Armed) : Prop where
  read : t.read = true → a.read = true ∧ c.read.scheduler.isSome = true
  write : t.write = true → a.write = true ∧ c.write.scheduler.isSome = true

/-- A word without a bit of the mask has none of a part of it. -/
theorem Word.test_false {w m b : Word} (h : w &&& m = 0) (hb : m &&& b = b) : w.test b = false := by
  rw [Word.test, ← hb, ← BitVec.and_assoc, h, bne_eq_false_iff_eq]
  exact BitVec.zero_and

namespace FdContext

variable {c : FdContext φ κ} {a : Armed} {word : Word}

theorem Reports.armed_of_test (hr : c.Reports word) (h : c.Ok a) :
    (word.test EPOLLIN = true → a.read = true) ∧ (word.test EPOLLOUT = true → a.write = true) := by
  have honly := hr.only
  rw [h.events] at honly
  obtain ⟨hread, hwrite, -⟩ := a.unreported
  refine ⟨fun hw => ?_, fun hw => ?_⟩
  · by_contra hn
    rw [Word.test_false honly (hread (Bool.not_eq_true _ ▸ hn))] at hw
    cases hw
  · by_contra hn
    rw [Word.test_false honly (hwrite (Bool.not_eq_true _ ▸ hn))] at hw
    cases hw

/-- A reported word has one of the four bits. -/
theorem Reports.test (hr : c.Reports word) (h : c.Ok a) : word.test EPOLLIN = true ∨
    word.test EPOLLOUT = true ∨ word.test (EPOLLHUP ||| EPOLLERR) = true := by
  by_contra hn
  simp only [not_or, Bool.not_eq_true] at hn
  obtain ⟨hin, hout, hup⟩ := hn
  have hall : word.test (EPOLLIN ||| EPOLLOUT ||| (EPOLLHUP ||| EPOLLERR)) = false := by
    rw [Word.test_or, Word.test_or, hin, hout, hup]
    rfl
  have honly := hr.only
  rw [h.events] at honly
  obtain ⟨-, -, hm⟩ := a.unreported
  apply hr.nonzero
  calc word = word &&& BitVec.allOnes 32 := BitVec.and_allOnes.symm
    _ = word &&& ~~~(a.mask ||| EPOLLHUP ||| EPOLLERR) |||
        word &&& (EPOLLIN ||| EPOLLOUT ||| (EPOLLHUP ||| EPOLLERR)) := by
      rw [← hm, BitVec.and_or_distrib_left]
    _ = 0 := by
      rw [honly, bne_eq_false_iff_eq.mp hall]
      rfl

/-- `idle` serves a reported word if the events that it makes of the word can be triggered, and one
of them is armed. -/
theorem served_iff (h : c.Ok a) (hr : c.Reports word) : c.Served word ↔
    c.Triggerable a (realEvents word) ∧ a.mask &&& (realEvents word).mask ≠ 0 := by
  obtain ⟨hin, hout⟩ := hr.armed_of_test h
  constructor
  · intro hs
    have ht : c.Triggerable a (realEvents word) := by
      refine ⟨fun hb => ⟨?_, hs.read hb⟩, fun hb => ⟨hout hb, hs.write hb⟩⟩
      rw [realEvents, Word.test_or, Bool.or_eq_true] at hb
      rcases hb with hb | hb
      · exact hin hb
      · rw [← Armed.test_read, ← h.events]
        exact hs.hup hb
    have hreal : (realEvents word).read = true ∨ (realEvents word).write = true := by
      simp only [realEvents, Word.test_or, Bool.or_eq_true]
      rcases hr.test h with hb | hb | hb
      · exact .inl (.inl hb)
      · exact .inr hb
      · rw [Word.test_or, Bool.or_eq_true] at hb
        rcases hb with hb | hb
        · exact .inl (.inr hb)
        · have he := hs.err hb
          simp only [Word.test_or, Bool.or_eq_true] at he
          rcases he with (he | he) | he
          · exact .inl (.inl he)
          · exact .inr he
          · exact .inl (.inr he)
    refine ⟨ht, fun hz => ?_⟩
    obtain ⟨hzr, hzw⟩ := Armed.and_eq_zero.mp hz
    rcases hreal with hb | hb
    · exact Bool.false_ne_true ((hzr hb).symm.trans (ht.read hb).1)
    · exact Bool.false_ne_true ((hzw hb).symm.trans (ht.write hb).1)
  · rintro ⟨ht, hz⟩
    refine ⟨fun hb => ?_, fun _ => ?_, fun hb => (ht.read hb).2, fun hb => (ht.write hb).2⟩
    · rw [h.events, Armed.test_read]
      refine (ht.read ?_).1
      rw [realEvents, Word.test_or, hb, Bool.or_true]
    · by_contra hn
      simp only [Word.test_or, Bool.or_eq_true, not_or, Bool.not_eq_true] at hn
      refine hz (Armed.and_eq_zero.mpr ⟨fun hb => ?_, fun hb => ?_⟩)
      · rw [realEvents, Word.test_or, hn.1.1, hn.2] at hb
        cases hb
      · rw [realEvents, hn.1.2] at hb
        cases hb

end FdContext

namespace View

variable {K : Type} {v v' : View φ κ K} {a : Armed} {e : Event}

/-- `triggerEvent` ends the process, or it makes the call of the event's context and leaves the
context of the other event. -/
theorem consume_iff (h : v.ctx.Ok a) {x : EventContext φ κ} (hx : v.ctx.getContext e = .ok x) :
    (a.get e = true ∧ x.scheduler.isSome = true) ↔ ∃ v', v.consume e = .ok v' := by
  constructor
  · rintro ⟨ha, hs⟩
    obtain ⟨s, hs⟩ := Option.isSome_iff_exists.mp hs
    obtain ⟨hho, hne⟩ := EventContext.handOver_eq (ha ▸ h.get hx)
    rw [consume, FdContext.triggerEvent, h.events, Armed.mask_test, ha, if_pos rfl]
    simp only [FdContext.getContext_with, hx, hs]
    exact ⟨_, rfl⟩
  · rintro ⟨v', hv⟩
    unfold consume at hv
    split at hv
    · cases hv
    · rename_i ctx calls ht
      obtain ⟨ha, y, s, hy, hs, -, -⟩ := FdContext.triggerEvent_ok h ht
      cases hx.symm.trans hy
      exact ⟨ha, by rw [hs]; rfl⟩

theorem consume_calls (h : v.ctx.Ok a) {x : EventContext φ κ} (hx : v.ctx.getContext e = .ok x)
    (hc : v.consume e = .ok v') : v'.scheduled = v.scheduled ++ x.call ∧
      v'.ctx = { v.ctx.setContext {} e with events := (a.set false e).mask } := by
  unfold consume at hc
  split at hc
  · cases hc
  · rename_i ctx calls ht
    cases hc
    obtain ⟨ha, y, s, hy, hs, rfl, rfl⟩ := FdContext.triggerEvent_ok h ht
    cases hx.symm.trans hy
    refine ⟨?_, rfl⟩
    rw [EventContext.call, hs]
    rfl

theorem consumeIf_iff (b : Bool) (h : v.ctx.Ok a) {x : EventContext φ κ}
    (hx : v.ctx.getContext e = .ok x) :
    (b = true → a.get e = true ∧ x.scheduler.isSome = true) ↔
      ∃ v', v.consumeIf b e = .ok v' := by
  cases b with
  | false => exact iff_of_true nofun ⟨v, rfl⟩
  | true =>
    rw [consumeIf, if_pos rfl, ← consume_iff h hx]
    exact ⟨fun h => h rfl, fun h _ => h⟩

theorem consumeIf_calls {b : Bool} (h : v.ctx.Ok a) {x : EventContext φ κ}
    (hx : v.ctx.getContext e = .ok x) (hc : v.consumeIf b e = .ok v') :
    v'.scheduled = v.scheduled ++ if b then x.call else [] := by
  cases b with
  | false =>
    cases hc
    exact (List.append_nil _).symm
  | true => exact (consume_calls h hx hc).1

/-- `triggerEvent(READ)` leaves the context of `WRITE`. -/
theorem consumeIf_read {b : Bool} (h : v.ctx.Ok a) (hc : v.consumeIf b .read = .ok v') :
    v'.ctx.write = v.ctx.write ∧
      ∃ a', v'.ctx.Ok a' ∧ a'.write = a.write := by
  obtain ⟨-, hcs⟩ := consumeIf_spec h hc
  refine ⟨?_, _, hcs.ok, ?_⟩
  · cases b with
    | false =>
      cases hc
      rfl
    | true => rw [(consume_calls (e := .read) h rfl hc).2]; rfl
  · cases b <;> rfl

/-- `READ` and then `WRITE`, each under its own test. -/
theorem triggerable_iff {t : Armed} (h : v.ctx.Ok a) : v.ctx.Triggerable a t ↔
    ∃ v₁ v', v.consumeIf t.read .read = .ok v₁ ∧ v₁.consumeIf t.write .write = .ok v' := by
  have hr := consumeIf_iff (e := .read) t.read h rfl
  constructor
  · intro ht
    obtain ⟨v₁, h₁⟩ := hr.mp ht.read
    obtain ⟨hw, a', ha', haw⟩ := consumeIf_read h h₁
    obtain ⟨v', h₂⟩ := (consumeIf_iff (e := .write) t.write ha' rfl).mp fun hb => by
      rw [hw]
      exact ⟨haw.trans (ht.write hb).1, (ht.write hb).2⟩
    exact ⟨v₁, v', h₁, h₂⟩
  · rintro ⟨v₁, v', h₁, h₂⟩
    obtain ⟨hw, a', ha', haw⟩ := consumeIf_read h h₁
    refine ⟨hr.mpr ⟨v₁, h₁⟩, fun hb => ?_⟩
    obtain ⟨hg, hs⟩ := (consumeIf_iff (e := .write) t.write ha' rfl).mpr ⟨v', h₂⟩ hb
    exact ⟨haw.symm.trans hg, hw ▸ hs⟩

/-- `idle` triggered the events of `t`. -/
structure Triggered (a t : Armed) (v v' : View φ κ K) : Prop where
  sub : t.In a
  ok : v'.ctx.Ok (a.diff t)
  scheduled : v'.scheduled = v.scheduled ++ v.ctx.calls t

theorem Triggered.of_both {t : Armed} {v₁ : View φ κ K} (h : v.ctx.Ok a)
    (hr : v.consumeIf t.read .read = .ok v₁) (hw : v₁.consumeIf t.write .write = .ok v') :
    Triggered a t v v' := by
  obtain ⟨hsr, hsw, hcs⟩ := consume_both h hr hw
  obtain ⟨hwr, a', ha', -⟩ := consumeIf_read h hr
  refine ⟨⟨hsr, hsw⟩, hcs.ok, ?_⟩
  rw [consumeIf_calls (e := .write) ha' rfl hw, consumeIf_calls (e := .read) h rfl hr, hwr,
    FdContext.calls, List.append_assoc]

end View

/-- `MOD` and `DEL` succeed for an fd in the kernel. -/
theorem EpollMap.ctl_registered {k : EpollMap} {z : ℤ} (h : (k z).isSome = true) (left w : Word) :
    (EpollMap.ctl k (View.opFor left .del) z w).1 = true := by
  obtain ⟨w₀, h⟩ := Option.isSome_iff_exists.mp h
  unfold View.opFor
  split <;> simp only [EpollMap.ctl, h]

namespace View

variable {v v' : View φ κ EpollMap} {a : Armed}

/-- The ways in which `idle` handles a report: no event of the word is armed, or it triggers all
its events, or it ends the process. -/
theorem deliver_cases (h : v.ctx.Ok a) (hk : (v.epoll v.ctx.fd).isSome = true) (word : Word) :
    (a.mask &&& (realEvents word).mask = 0 ∧ v.deliver EpollMap.ctl word = .ok v) ∨
    (a.mask &&& (realEvents word).mask ≠ 0 ∧
      ((v.ctx.Triggerable a (realEvents word) ∧
        ∃ v', v.deliver EpollMap.ctl word = .ok v' ∧ Triggered a (realEvents word) v v') ∨
      (¬ v.ctx.Triggerable a (realEvents word) ∧
        ∃ err, v.deliver EpollMap.ctl word = .error err))) := by
  unfold deliver
  simp only [h.events, Armed.mask_diff, realEvents_ready]
  by_cases hz : a.mask &&& (realEvents word).mask = 0
  · exact .inl ⟨hz, if_pos hz⟩
  refine .inr ⟨hz, ?_⟩
  rw [if_neg hz]
  have hctl := EpollMap.ctl_registered hk (a.diff (realEvents word)).mask (readyWord a.mask word)
  unfold opFor at hctl
  rw [if_pos hctl]
  generalize (EpollMap.ctl _ _ _ _).2 = k
  have hiff := triggerable_iff (v := { v with epoll := k }) (t := realEvents word) h
  by_cases ht : v.ctx.Triggerable a (realEvents word)
  · obtain ⟨v₁, v', h₁, h₂⟩ := hiff.mp ht
    have htr := Triggered.of_both (v := { v with epoll := k }) h h₁ h₂
    rw [h₁]
    exact .inl ⟨ht, v', h₂, htr.sub, htr.ok, htr.scheduled⟩
  · refine .inr ⟨ht, ?_⟩
    cases h₁ :
        ({ v with epoll := k } : View φ κ EpollMap).consumeIf (realEvents word).read .read with
    | error err => exact ⟨err, rfl⟩
    | ok v₁ =>
      cases h₂ : v₁.consumeIf (realEvents word).write .write with
      | error err => exact ⟨err, h₂⟩
      | ok v' =>
        exact absurd (hiff.mpr ⟨v₁, v', h₁, h₂⟩) ht

end View

/-! ## The kernel -/

namespace EpollMap

variable {k : EpollMap} {z : ℤ}

/-- What `epoll_ctl` does: it fails and changes nothing, or changes the entry of its fd only, which
it removes or stores. -/
theorem ctl_spec (k : EpollMap) (op : CtlOp) (z : ℤ) (w : Word) :
    ((EpollMap.ctl k op z w).1 = false ∧ (EpollMap.ctl k op z w).2 = k) ∨
    ((EpollMap.ctl k op z w).1 = true ∧ (∀ y, y ≠ z → (EpollMap.ctl k op z w).2 y = k y) ∧
      (((EpollMap.ctl k op z w).2 z).isSome = true ↔ op ≠ .del)) := by
  unfold ctl
  split
  · exact .inr ⟨rfl, fun y hy => Function.update_of_ne hy .., by simp⟩
  · exact .inr ⟨rfl, fun y hy => Function.update_of_ne hy .., by simp⟩
  · exact .inr ⟨rfl, fun y hy => Function.update_of_ne hy .., by simp⟩
  · exact .inl ⟨rfl, rfl⟩

theorem opFor_del {left : Word} : View.opFor left .del ≠ .del ↔ left ≠ 0 := by
  unfold View.opFor
  split
  · rename_i h
    exact iff_of_true nofun (bne_iff_ne.mp h)
  · rename_i h
    exact iff_of_false (fun hn => hn rfl) (fun hn => h (bne_iff_ne.mpr hn))

theorem opFor_add (left : Word) : View.opFor left .add ≠ .del := by
  unfold View.opFor
  split <;> nofun

end EpollMap

namespace View

variable {v v' : View φ κ EpollMap} {a : Armed}

/-- The kernel has the fd `z` exactly if its context has an armed event, and no other fd came or
went. -/
structure Registers (z : ℤ) (v v' : View φ κ EpollMap) : Prop where
  own : (v'.epoll z).isSome = true ↔ v'.ctx.events ≠ 0
  others : ∀ y, y ≠ z → v'.epoll y = v.epoll y

/-- A call that changed the events and the kernel together. -/
theorem Registers.of_ctl {z : ℤ} {op : CtlOp} {w : Word} {v' : View φ κ EpollMap}
    (hk : (EpollMap.ctl v.epoll op z w).1 = true) (he : v'.epoll = (EpollMap.ctl v.epoll op z w).2)
    (hev : op ≠ .del ↔ v'.ctx.events ≠ 0) : Registers z v v' := by
  rcases EpollMap.ctl_spec v.epoll op z w with ⟨hf, -⟩ | ⟨-, hothers, hown⟩
  · rw [hk] at hf
    cases hf
  · refine ⟨?_, fun y hy => ?_⟩
    · rw [he, ← hev]
      exact hown
    · rw [he]
      exact hothers y hy

theorem Registers.of_failed {z : ℤ} {op : CtlOp} {w : Word}
    (hv : (v.epoll z).isSome = true ↔ v.ctx.events ≠ 0)
    (hk : (EpollMap.ctl v.epoll op z w).1 = false) :
    Registers z v { v with epoll := (EpollMap.ctl v.epoll op z w).2 } := by
  rcases EpollMap.ctl_spec v.epoll op z w with ⟨-, hs⟩ | ⟨ht, -⟩
  · rw [hs]
    exact ⟨hv, fun _ _ => rfl⟩
  · rw [hk] at ht
    cases ht

/-- A call keeps the kernel's entry of its fd as the armed events say. -/
theorem exec_registers {op : Op φ κ} {r : Ret} (h : v.ctx.Ok a)
    (hfd : v.ctx.fd = (op.fd.val : ℤ))
    (hv : (v.epoll op.fd.val).isSome = true ↔ v.ctx.events ≠ 0)
    (he : v.exec EpollMap.ctl op = .ok (r, v')) : Registers op.fd.val v v' := by
  cases op with
  | addEvent fd event cb me =>
    obtain ⟨⟨i, v₁⟩, hz, hr⟩ := IOManager.map_ok he
    cases hr
    rcases addEvent_spec h hz with ⟨hk, -, rfl⟩ | ⟨hk, -, hne, -, x, hx, -, -, rfl⟩
    · exact .of_failed hv hk
    · refine .of_ctl hk rfl (iff_of_true (EpollMap.opFor_add _) ?_)
      exact mask_ne_zero (e := event) (by rw [Armed.get_set, if_pos ⟨rfl, hne⟩])
  | delEvent fd event =>
    obtain ⟨⟨b, v₁⟩, hz, hr⟩ := IOManager.map_ok he
    cases hr
    rcases delEvent_spec h hz with ⟨-, -, rfl⟩ | ⟨-, -, hk, rfl⟩ | ⟨-, -, hk, x, -, rfl⟩
    · exact ⟨hv, fun _ _ => rfl⟩
    · exact .of_failed hv hk
    · exact .of_ctl hk rfl EpollMap.opFor_del
  | cancelEvent fd event =>
    obtain ⟨⟨b, v₁⟩, hz, hr⟩ := IOManager.map_ok he
    cases hr
    unfold cancelEvent at hz
    split at hz
    · rcases cancelLocked_spec h hz with ⟨-, hk, rfl⟩ | ⟨-, hk, -, hcs⟩
      · exact .of_failed hv hk
      · exact .of_ctl hk hcs.epoll (by rw [hcs.ok.events]; exact EpollMap.opFor_del)
    · cases hz
      exact ⟨hv, fun _ _ => rfl⟩
  | cancelAll fd =>
    obtain ⟨⟨b, v₁⟩, hz, hr⟩ := IOManager.map_ok he
    cases hr
    unfold cancelAll at hz
    split at hz
    · rcases cancelAllLocked_spec h hz with ⟨-, hk, rfl⟩ | ⟨-, hk, hcs⟩
      · exact .of_failed hv hk
      · refine .of_ctl hk hcs.epoll (iff_of_false (fun hn => hn rfl) fun hn => ?_)
        exact hn hcs.ok.events
    · cases hz
      exact ⟨hv, fun _ _ => rfl⟩
  | deliver fd word =>
    obtain ⟨v₁, hz, hr⟩ := IOManager.map_ok he
    cases hr
    rcases deliver_spec h hz with ⟨-, rfl⟩ | ⟨-, hk, rfl⟩ | ⟨-, hk, hcs⟩
    · exact ⟨hv, fun _ _ => rfl⟩
    · rw [hfd] at hk ⊢
      exact .of_failed hv hk
    · rw [hfd] at hk hcs
      exact .of_ctl hk hcs.epoll (by rw [hcs.ok.events]; exact EpollMap.opFor_del)

end View

namespace IOManager

variable {m m' : IOManager φ κ EpollMap}

/-- Sound contexts, and a kernel that has exactly the fds with an armed event. -/
structure Fit (m : IOManager φ κ EpollMap) : Prop where
  sound : m.Sound
  registered : ∀ fd : Fd, (m.epoll fd.val).isSome = true ↔
    ∃ c, m.ctxs[fd.val]? = some c ∧ c.events ≠ 0

theorem Fit.grown (h : m.Fit) (op : Op φ κ) : (m.grown op).Fit := by
  obtain ⟨-, l, hl, hc, he, -, -⟩ := grown_spec h.sound.dense op
  refine ⟨(h.sound.grown op).1, fun fd => ?_⟩
  rw [he, h.registered fd]
  constructor
  · rintro ⟨c, hfc, hev⟩
    refine ⟨c, ?_, hev⟩
    rw [hc]
    exact List.getElem?_append_left (List.getElem?_eq_some_iff.mp hfc).1 ▸ hfc
  · rintro ⟨c, hfc, hev⟩
    rw [hc, List.getElem?_append] at hfc
    split at hfc
    · exact ⟨c, hfc, hev⟩
    · obtain ⟨j, rfl⟩ := hl c (List.mem_of_getElem? hfc)
      exact absurd rfl hev

/-- The context of a call, and the kernel's entry of its fd. -/
theorem Fit.view (h : m.Fit) {fd : Fd} {c : FdContext φ κ} (hc : m.ctxs[fd.val]? = some c) :
    (∃ a, c.Ok a) ∧ c.fd = (fd.val : ℤ) ∧ ((m.epoll fd.val).isSome = true ↔ c.events ≠ 0) := by
  refine ⟨h.sound.ok c (List.mem_of_getElem? hc), ?_, (h.registered fd).trans ⟨?_, ?_⟩⟩
  · rw [h.sound.dense.fds _ c hc]
    exact Int.bmod_eq_of_le (by omega) (by omega)
  · rintro ⟨c', hc', hev⟩
    cases hc.symm.trans hc'
    exact hev
  · exact fun hev => ⟨c, hc, hev⟩

theorem Fit.exec (h : m.Fit) {op : Op φ κ} {r : Ret}
    (he : m.exec EpollMap.ctl op = .ok (r, m')) : m'.Fit := by
  have hg := h.grown op
  refine ⟨(h.sound.exec he).1, ?_⟩
  rcases exec_spec h.sound.dense he with _ | ⟨hc, hv⟩
  · exact h.registered
  · rename_i c v
    obtain ⟨⟨a, ha⟩, hfd, hreg⟩ := hg.view hc
    obtain ⟨hown, hothers⟩ := View.exec_registers (v := (m.grown op).view c) ha hfd hreg hv
    intro fd
    show (v.epoll fd.val).isSome = true ↔ _
    by_cases hfe : fd = op.fd
    · subst hfe
      rw [hown, put, List.getElem?_set_self (List.getElem?_eq_some_iff.mp hc).1]
      refine ⟨fun hev => ⟨_, rfl, hev⟩, ?_⟩
      rintro ⟨c', hc', hev⟩
      cases hc'
      exact hev
    · have hne : (op.fd.val : ℕ) ≠ fd.val := fun hv => hfe (Fin.ext hv.symm)
      rw [hothers _ (by exact_mod_cast hne.symm), put, List.getElem?_set_ne hne]
      exact hg.registered fd

theorem initial_fit : Fit (initial (φ := φ) (κ := κ) (fun _ => none : EpollMap)) := by
  refine ⟨(initial_sound _).1, fun fd => iff_of_false nofun ?_⟩
  rintro ⟨c, hc, hev⟩
  change (Table.initial : Table φ κ).ctxs[fd.val]? = some c at hc
  rw [Table.initial_eq] at hc
  obtain ⟨j, -, rfl⟩ := List.mem_map.mp (List.mem_of_getElem? hc)
  exact hev rfl

theorem fit_inductive : (sys (φ := φ) (κ := κ) EpollMap.ctl fun _ => none).Inductive
    Interleave.Sys.free Fit where
  init := by
    rintro m rfl
    exact initial_fit
  step m op m' hi _ hs := by
    obtain ⟨⟨r, m₁⟩, he, rfl⟩ := Option.map_eq_some_iff.mp hs
    cases hx : m.exec EpollMap.ctl op with
    | error e => rw [hx] at he; cases he
    | ok y =>
      rw [hx] at he
      cases he
      exact hi.exec hx

/-! ## Batches -/

/-- The loop of `idle` over the reported events. -/
def batch {K : Type} (ctl : Ctl K) (m : IOManager φ κ K) :
    List (Fd × Word) → Except Fault (IOManager φ κ K)
  | [] => .ok m
  | (fd, word) :: evs =>
    match m.deliver ctl fd word with
    | .error e => .error e
    | .ok (_, m) => batch ctl m evs

/-- `epoll_wait` can report the batch: each fd once, with a word for its context. -/
structure Reports {K : Type} (m : IOManager φ κ K) (evs : List (Fd × Word)) : Prop where
  nodup : (evs.map Prod.fst).Nodup
  word : ∀ x ∈ evs, ∃ c, m.context x.1 = some c ∧ c.Reports x.2

/-- The batch leads from `m` to `m'` as it should, with the triggered events `t`. -/
structure Handled {K : Type} (m : IOManager φ κ K) (evs : List (Fd × Word)) (m' : IOManager φ κ K)
    (t : Fd → Armed) : Prop where
  /-- Only armed events are triggered. -/
  sub : ∀ fd c, m.context fd = some c → (t fd).mask &&& ~~~c.events = 0
  /-- Their bits are cleared, and the others kept. -/
  left : ∀ fd c, m.context fd = some c →
    ∃ c', m'.context fd = some c' ∧ c'.events = c.events &&& ~~~(t fd).mask
  /-- Nothing is triggered on an fd that was not reported. -/
  unreported : ∀ fd, fd ∉ evs.map Prod.fst → t fd = ⟨false, false⟩
  read : ∀ x ∈ evs, ∀ c, m.context x.1 = some c → c.events.test EPOLLIN = true →
    x.2.test (EPOLLIN ||| EPOLLHUP) = true → (t x.1).read = true
  write : ∀ x ∈ evs, ∀ c, m.context x.1 = some c → c.events.test EPOLLOUT = true →
    x.2.test EPOLLOUT = true → (t x.1).write = true
  /-- At least one event of an fd with `HUP` or `ERR` is triggered. -/
  hup : ∀ x ∈ evs, x.2.test (EPOLLHUP ||| EPOLLERR) = true → (t x.1).mask ≠ 0
  count : m'.pendingEventCount.toNat + (evs.map fun x => (t x.1).card).sum =
    m.pendingEventCount.toNat
  /-- The waiters of the triggered events go to their schedulers. -/
  scheduled : m'.scheduled =
    m.scheduled ++ evs.flatMap fun x => (m.context x.1).elim [] fun c => c.calls (t x.1)

theorem put_self {fd : Fd} {c : FdContext φ κ} (hc : m.ctxs[fd.val]? = some c) :
    m.put fd (m.view c) = m := by
  obtain ⟨hlt, hget⟩ := List.getElem?_eq_some_iff.mp hc
  show ({ m with ctxs := m.ctxs.set fd c } : IOManager φ κ EpollMap) = m
  rw [← hget, List.set_getElem_self]

theorem deliver_eq (h : m.Dense) {fd : Fd} {c : FdContext φ κ} (hc : m.ctxs[fd.val]? = some c)
    (word : Word) : m.deliver EpollMap.ctl fd word =
      match (m.view c).deliver EpollMap.ctl word with
      | .error e => .error e
      | .ok v => .ok ((), m.put fd v) := by
  have hlt := (List.getElem?_eq_some_iff.mp hc).1
  simp only [deliver, on, h.get hlt, hc]
  cases (m.view c).deliver EpollMap.ctl word <;> rfl

/-- `idle` triggered the events of `t` on the fd. -/
structure Triggered (m : IOManager φ κ EpollMap) (fd : Fd) (c : FdContext φ κ) (t : Armed)
    (m' : IOManager φ κ EpollMap) : Prop where
  nonzero : t.mask ≠ 0
  sub : t.mask &&& ~~~c.events = 0
  left : ∃ c', m'.context fd = some c' ∧ c'.events = c.events &&& ~~~t.mask
  others : ∀ fd', fd' ≠ fd → m'.context fd' = m.context fd'
  count : m'.pendingEventCount.toNat + t.card = m.pendingEventCount.toNat
  scheduled : m'.scheduled = m.scheduled ++ c.calls t

/-- The ways in which `idle` handles a report. -/
theorem Fit.deliver (h : m.Fit) {fd : Fd} {word : Word} {c : FdContext φ κ}
    (hc : m.context fd = some c) (hr : c.Reports word) :
    (c.Served word ∧ ∃ m', m.deliver EpollMap.ctl fd word = .ok ((), m') ∧ m'.Fit ∧
      Triggered m fd c (realEvents word) m') ∨
    (¬ c.Served word ∧ ((∃ err, m.deliver EpollMap.ctl fd word = .error err) ∨
      m.deliver EpollMap.ctl fd word = .ok ((), m))) := by
  have hcx := hc
  rw [context_eq h.sound.dense] at hcx
  obtain ⟨⟨a, ha⟩, hfd, hreg⟩ := h.view hcx
  have hk : ((m.view c).epoll (m.view c).ctx.fd).isSome = true := by
    show (m.epoll c.fd).isSome = true
    rw [hfd]
    exact hreg.mpr hr.armed
  rw [FdContext.served_iff ha hr, deliver_eq h.sound.dense hcx]
  rcases View.deliver_cases (v := m.view c) ha hk word with
    ⟨hz, hd⟩ | ⟨hz, ⟨ht, v, hd, htr⟩ | ⟨ht, err, hd⟩⟩
  · rw [hd]
    exact .inr ⟨fun hs => hs.2 hz, .inr (congrArg (fun m => Except.ok ((), m)) (put_self hcx))⟩
  · refine .inl ⟨⟨ht, hz⟩, m.put fd v, by rw [hd], ?_⟩
    have he : m.exec EpollMap.ctl (.deliver fd word) = .ok (.void, m.put fd v) := by
      show (m.deliver EpollMap.ctl fd word).map _ = _
      rw [deliver_eq h.sound.dense hcx, hd]
      rfl
    have hfit := h.exec he
    refine ⟨hfit, fun h₀ => hz ?_, ?_, ⟨v.ctx, ?_, ?_⟩, fun fd' hne => ?_, ?_, htr.scheduled⟩
    · rw [h₀]
      exact BitVec.and_zero
    · rw [ha.events, Armed.mask_diff]
      exact Armed.diff_eq_none.mpr htr.sub
    · rw [context_eq hfit.sound.dense, put,
        List.getElem?_set_self (List.getElem?_eq_some_iff.mp hcx).1]
    · rw [htr.ok.events, ha.events, Armed.mask_diff]
    · rw [context_eq hfit.sound.dense, context_eq h.sound.dense, put,
        List.getElem?_set_ne fun hv => hne (Fin.ext hv.symm)]
    · obtain ⟨hlt, hget⟩ := List.getElem?_eq_some_iff.mp hcx
      have hs := Interleave.sum_set (fun c => c.events.armed) hlt v.ctx
      rw [hget, ha.events, htr.ok.events, Armed.mask_armed, Armed.mask_armed] at hs
      have hcard := Armed.card_diff htr.sub
      rw [hfit.sound.toNat_count, h.sound.toNat_count]
      show ((m.ctxs.set fd v.ctx).map fun c => c.events.armed).sum + _ =
        (m.ctxs.map fun c => c.events.armed).sum
      omega
  · rw [hd]
    exact .inr ⟨fun hs => ht hs.1, .inl ⟨err, rfl⟩⟩

/-- The rest of a batch can be reported after its first event was handled, and reads the same
contexts. -/
theorem Reports.tail {x : Fd × Word} {evs : List (Fd × Word)} (h : m.Reports (x :: evs))
    (ho : ∀ fd, fd ≠ x.1 → m'.context fd = m.context fd) :
    m'.Reports evs ∧ ∀ y ∈ evs, m'.context y.1 = m.context y.1 := by
  obtain ⟨hnot, hnodup⟩ := List.nodup_cons.mp h.nodup
  have hsame : ∀ y ∈ evs, m'.context y.1 = m.context y.1 := fun y hy =>
    ho y.1 fun he => hnot (he ▸ List.mem_map_of_mem hy)
  refine ⟨⟨hnodup, fun y hy => ?_⟩, hsame⟩
  obtain ⟨c, hc, hw⟩ := h.word y (List.mem_cons_of_mem _ hy)
  exact ⟨c, (hsame y hy).trans hc, hw⟩

theorem Handled.nil : Handled m [] m fun _ => ⟨false, false⟩ where
  sub _ _ _ := BitVec.zero_and
  left _ c hc := ⟨c, hc, (Armed.and_not_none _).symm⟩
  unreported _ _ := rfl
  read := nofun
  write := nofun
  hup := nofun
  count := rfl
  scheduled := (List.append_nil _).symm

/-- One report that is served, and then a batch that is handled. -/
theorem Handled.cons {m₁ : IOManager φ κ EpollMap} {x : Fd × Word} {evs : List (Fd × Word)}
    {c : FdContext φ κ} {t : Fd → Armed} (hc : m.context x.1 = some c) (hs : c.Served x.2)
    (hr : m.Reports (x :: evs)) (h : Triggered m x.1 c (realEvents x.2) m₁)
    (ht : Handled m₁ evs m' t) :
    Handled m (x :: evs) m' (Function.update t x.1 (realEvents x.2)) := by
  obtain ⟨hnot, -⟩ := List.nodup_cons.mp hr.nodup
  obtain ⟨-, hsame⟩ := hr.tail h.others
  have hne : ∀ y ∈ evs, y.1 ≠ x.1 := fun y hy he => hnot (he ▸ List.mem_map_of_mem hy)
  have hself : (Function.update t x.1 (realEvents x.2)) x.1 = realEvents x.2 :=
    Function.update_self ..
  have hother : ∀ fd, fd ≠ x.1 → (Function.update t x.1 (realEvents x.2)) fd = t fd :=
    fun fd hfd => Function.update_of_ne hfd ..
  refine ⟨fun fd c' hc' => ?_, fun fd c' hc' => ?_, fun fd hfd => ?_, fun y hy c' hc' hev hw => ?_,
    fun y hy c' hc' hev hw => ?_, fun y hy hw => ?_, ?_, ?_⟩
  · by_cases hfd : fd = x.1
    · subst hfd
      cases hc.symm.trans hc'
      rw [hself]
      exact h.sub
    · rw [hother fd hfd]
      exact ht.sub fd c' ((h.others fd hfd).trans hc')
  · by_cases hfd : fd = x.1
    · subst hfd
      cases hc.symm.trans hc'
      obtain ⟨c₁, hc₁, he₁⟩ := h.left
      obtain ⟨c₂, hc₂, he₂⟩ := ht.left x.1 c₁ hc₁
      refine ⟨c₂, hc₂, ?_⟩
      rw [he₂, ht.unreported x.1 hnot, hself, ← he₁, Armed.and_not_none]
    · rw [hother fd hfd]
      exact ht.left fd c' ((h.others fd hfd).trans hc')
  · rw [List.map_cons, List.mem_cons, not_or] at hfd
    rw [hother fd hfd.1]
    exact ht.unreported fd hfd.2
  · rcases List.mem_cons.mp hy with rfl | hy
    · rw [hself]
      exact hw
    · rw [hother y.1 (hne y hy)]
      exact ht.read y hy c' ((hsame y hy).trans hc') hev hw
  · rcases List.mem_cons.mp hy with rfl | hy
    · rw [hself]
      exact hw
    · rw [hother y.1 (hne y hy)]
      exact ht.write y hy c' ((hsame y hy).trans hc') hev hw
  · rcases List.mem_cons.mp hy with rfl | hy
    · rw [hself]
      exact h.nonzero
    · rw [hother y.1 (hne y hy)]
      exact ht.hup y hy hw
  · have hsum : (evs.map fun y => (Function.update t x.1 (realEvents x.2) y.1).card) =
        evs.map fun y => (t y.1).card :=
      List.map_congr_left fun y hy => by rw [hother y.1 (hne y hy)]
    rw [List.map_cons, List.sum_cons, hself, hsum]
    have h₁ := h.count
    have h₂ := ht.count
    omega
  · have hcalls : (evs.flatMap fun y => (m.context y.1).elim [] fun c =>
        c.calls (Function.update t x.1 (realEvents x.2) y.1)) =
        evs.flatMap fun y => (m₁.context y.1).elim [] fun c => c.calls (t y.1) := by
      refine List.flatMap_congr fun y hy => ?_
      rw [hother y.1 (hne y hy), hsame y hy]
    rw [List.flatMap_cons, hself, hcalls, hc, ht.scheduled, h.scheduled, List.append_assoc]
    rfl

/-- A batch whose words are all served is handled as it should be. -/
theorem Fit.batch_handled (h : m.Fit) {evs : List (Fd × Word)} (hr : m.Reports evs)
    (hs : ∀ x ∈ evs, ∀ c, m.context x.1 = some c → c.Served x.2) :
    ∃ m' t, m.batch EpollMap.ctl evs = .ok m' ∧ Handled m evs m' t := by
  induction evs generalizing m with
  | nil => exact ⟨m, _, rfl, .nil⟩
  | cons x evs ih =>
    obtain ⟨c, hc, hw⟩ := hr.word x List.mem_cons_self
    rcases h.deliver hc hw with ⟨hsx, m₁, hd, hfit, htr⟩ | ⟨hn, -⟩
    · obtain ⟨hr₁, hsame⟩ := hr.tail htr.others
      obtain ⟨m', t, hb, ht⟩ := ih hfit hr₁ fun y hy c' hc' =>
        hs y (List.mem_cons_of_mem _ hy) c' ((hsame y hy).symm.trans hc')
      refine ⟨m', _, ?_, ht.cons hc hsx hr htr⟩
      rw [batch, hd]
      exact hb
    · exact absurd (hs x List.mem_cons_self c hc) hn

/-- A batch that does not end the process leaves the contexts of the fds that were not reported, and
of those whose word is not served. -/
theorem Fit.batch_others (h : m.Fit) {evs : List (Fd × Word)} (hr : m.Reports evs)
    (hb : m.batch EpollMap.ctl evs = .ok m') :
    (∀ fd, fd ∉ evs.map Prod.fst → m'.context fd = m.context fd) ∧
    ∀ x ∈ evs, ∀ c, m.context x.1 = some c → ¬ c.Served x.2 → m'.context x.1 = some c := by
  induction evs generalizing m with
  | nil =>
    cases hb
    exact ⟨fun _ _ => rfl, nofun⟩
  | cons x evs ih =>
    obtain ⟨c, hc, hw⟩ := hr.word x List.mem_cons_self
    obtain ⟨hnot, -⟩ := List.nodup_cons.mp hr.nodup
    -- the state after the first report, which changed at most the context of a served word
    obtain ⟨m₁, hd, hfit, hothers, hx⟩ : ∃ m₁, m.deliver EpollMap.ctl x.1 x.2 = .ok ((), m₁) ∧
        m₁.Fit ∧ (∀ fd, fd ≠ x.1 → m₁.context fd = m.context fd) ∧
        (¬ c.Served x.2 → m₁.context x.1 = some c) := by
      rcases h.deliver hc hw with ⟨hsx, m₁, hd, hfit, htr⟩ | ⟨hn, ⟨err, hd⟩ | hd⟩
      · exact ⟨m₁, hd, hfit, htr.others, fun hn => absurd hsx hn⟩
      · rw [batch, hd] at hb
        cases hb
      · exact ⟨m, hd, h, fun _ _ => rfl, fun _ => hc⟩
    rw [batch, hd] at hb
    obtain ⟨hr₁, hsame⟩ := hr.tail hothers
    obtain ⟨hrest, hall⟩ := ih hfit hr₁ hb
    constructor
    · intro fd hfd
      rw [List.map_cons, List.mem_cons, not_or] at hfd
      rw [hrest fd hfd.2, hothers fd hfd.1]
    · intro y hy c' hc' hn
      rcases List.mem_cons.mp hy with rfl | hy
      · cases hc.symm.trans hc'
        rw [hrest y.1 hnot, hx hn]
      · exact hall y hy c' ((hsame y hy).trans hc') hn

/-- **A batch of reports** in any state: `idle` triggers exactly armed events, those that the words
make ready and one at least for each `HUP` and `ERR`, and keeps and counts the others, exactly if
it is able to serve all words. -/
theorem batch_exact {m : IOManager φ κ EpollMap}
    (h : (sys EpollMap.ctl fun _ => none).Reach Interleave.Sys.free m) {evs : List (Fd × Word)}
    (hr : m.Reports evs) : (∃ m' t, m.batch EpollMap.ctl evs = .ok m' ∧ Handled m evs m' t) ↔
      ∀ x ∈ evs, ∀ c, m.context x.1 = some c → c.Served x.2 := by
  have hm := fit_inductive.reach h
  refine ⟨?_, hm.batch_handled hr⟩
  rintro ⟨m', t, hb, ht⟩ x hx c hc
  by_contra hn
  obtain ⟨c₀, hc₀, hw⟩ := hr.word x hx
  cases hc.symm.trans hc₀
  have hcx := hc
  rw [context_eq hm.sound.dense] at hcx
  obtain ⟨⟨a, ha⟩, -⟩ := hm.view hcx
  -- the context of the word is as before, so nothing was triggered on its fd
  have hz : (t x.1).mask = 0 := by
    obtain ⟨c', hc', he⟩ := ht.left x.1 c hc
    cases ((hm.batch_others hr hb).2 x hx c hc hn).symm.trans hc'
    have hsub := ht.sub x.1 c hc
    rw [ha.events, Armed.mask_diff, Armed.mask_inj] at he
    rw [ha.events, Armed.mask_diff, Armed.diff_eq_none] at hsub
    have hcard := Armed.card_diff hsub
    rw [← he] at hcard
    exact Armed.card_eq_zero.mp (by omega)
  obtain ⟨hin, hout⟩ := hw.armed_of_test ha
  rcases hw.test ha with htest | htest | htest
  · have := ht.read x hx c hc (by rw [ha.events, Armed.test_read]; exact hin htest)
      (by rw [Word.test_or, htest]; rfl)
    rw [Armed.mask_eq_zero.mp hz] at this
    cases this
  · have := ht.write x hx c hc (by rw [ha.events, Armed.test_write]; exact hout htest) htest
    rw [Armed.mask_eq_zero.mp hz] at this
    cases this
  · exact ht.hup x hx htest hz

/-- Two fds in one batch: `HUP` with `READ` and `WRITE` armed, and `ERR` with `OUT`. -/
theorem batch_exact_two : ∃ (m m' : IOManager Unit Unit EpollMap) (t : Fd → Armed),
    m.batch EpollMap.ctl [(5, EPOLLHUP), (6, EPOLLOUT ||| EPOLLERR)] = .ok m' ∧
    Handled m [(5, EPOLLHUP), (6, EPOLLOUT ||| EPOLLERR)] m' t := by
  let me : Caller Unit := { scheduler := some 0, fiber := (), state := .exec }
  obtain ⟨m, hs, hp⟩ := Interleave.Sys.exists_of_runBy
    (S := sys (φ := Unit) (κ := Unit) EpollMap.ctl fun _ => none)
    (C := Interleave.Sys.free) (s := initial fun _ => none)
    [.addEvent 5 .read (some ()) me, .addEvent 5 .write none me, .addEvent 6 .write none me]
    (p := fun m =>
      ((m.context 5).any fun c => c.events == EPOLLIN ||| EPOLLOUT && c.read.scheduler.isSome) &&
      (m.context 6).any fun c => c.events == EPOLLOUT && c.write.scheduler.isSome) (by decide)
  simp only [Bool.and_eq_true, Option.any_eq_true, beq_iff_eq] at hp
  obtain ⟨⟨c, hc, hev, hread⟩, c', hc', hev', hwrite⟩ := hp
  have hr : m.Reports [(5, EPOLLHUP), (6, EPOLLOUT ||| EPOLLERR)] := by
    refine ⟨by decide, ?_⟩
    simp only [List.forall_mem_cons]
    refine ⟨⟨c, hc, ?_, by decide, ?_⟩, ⟨c', hc', ?_, by decide, ?_⟩, nofun⟩
    · rw [hev]
      decide
    · rw [hev]
      decide
    · rw [hev']
      decide
    · rw [hev']
      decide
  refine ⟨m, (batch_exact ⟨_, rfl, hs⟩ hr).mpr ?_⟩
  simp only [List.forall_mem_cons]
  refine ⟨fun d hd => ?_, fun d hd => ?_, nofun⟩
  · cases hc.symm.trans hd
    exact ⟨fun _ => by rw [hev]; decide, by decide, fun _ => hread, nofun⟩
  · cases hc'.symm.trans hd
    exact ⟨nofun, by decide, nofun, fun _ => hwrite⟩

/-- An fd on which only `WRITE` is armed. With `OUT` and `HUP`, `idle` triggers `READ`, which is not
armed; with `ERR` alone it triggers nothing. -/
theorem batch_write_only : ∃ m : IOManager Unit Unit EpollMap,
    (sys EpollMap.ctl fun _ => none).Reach Interleave.Sys.free m ∧
    (m.Reports [(5, EPOLLOUT ||| EPOLLHUP)] ∧
      m.batch EpollMap.ctl [(5, EPOLLOUT ||| EPOLLHUP)] = .error .assertion) ∧
    (m.Reports [(5, EPOLLERR)] ∧
      ¬ ∃ m' t, m.batch EpollMap.ctl [(5, EPOLLERR)] = .ok m' ∧ Handled m [(5, EPOLLERR)] m' t) := by
  let me : Caller Unit := { scheduler := some 0, fiber := (), state := .exec }
  obtain ⟨m, hs, hp⟩ := Interleave.Sys.exists_of_runBy
    (S := sys (φ := Unit) (κ := Unit) EpollMap.ctl fun _ => none)
    (C := Interleave.Sys.free) (s := initial fun _ => none) [.addEvent 5 .write (some ()) me]
    (p := fun m => ((m.context 5).any fun c => c.events == EPOLLOUT) &&
      (match m.batch EpollMap.ctl [(5, EPOLLOUT ||| EPOLLHUP)] with
        | .error err => err == .assertion
        | .ok _ => false) &&
      match m.batch EpollMap.ctl [(5, EPOLLERR)] with
        | .error _ => false
        | .ok m' => (m'.context 5).any fun c => c.events == EPOLLOUT) (by decide)
  simp only [Bool.and_eq_true, Option.any_eq_true, beq_iff_eq] at hp
  obtain ⟨⟨⟨c, hc, hev⟩, herr⟩, hok⟩ := hp
  refine ⟨m, ⟨_, rfl, hs⟩, ⟨⟨by decide, ?_⟩, ?_⟩, ⟨by decide, ?_⟩, ?_⟩
  · simp only [List.forall_mem_cons]
    exact ⟨⟨c, hc, by rw [hev]; decide, by decide, by rw [hev]; decide⟩, nofun⟩
  · split at herr
    · rename_i err hb
      rw [hb, beq_iff_eq.mp herr]
    · cases herr
  · simp only [List.forall_mem_cons]
    exact ⟨⟨c, hc, by rw [hev]; decide, by decide, by rw [hev]; decide⟩, nofun⟩
  · rintro ⟨m', t, hb, ht⟩
    rw [hb] at hok
    simp only [Option.any_eq_true, beq_iff_eq] at hok
    obtain ⟨c₁, hc₁, hev₁⟩ := hok
    obtain ⟨c₂, hc₂, hev₂⟩ := ht.left 5 c hc
    cases hc₁.symm.trans hc₂
    rw [hev₁, hev] at hev₂
    have hsub := ht.sub 5 c hc
    rw [hev] at hsub
    refine ht.hup (5, EPOLLERR) List.mem_cons_self (by decide) ?_
    show (t 5).mask = 0
    generalize t 5 = t₅ at hev₂ hsub
    obtain ⟨r, w⟩ := t₅
    revert hev₂ hsub
    revert r w
    decide

end IOManager
end Ddg
