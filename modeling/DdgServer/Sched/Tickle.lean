import DdgServer.Lib.Refine
import DdgServer.Sched.Wakeup

/-!
# The pipe of `tickle()`

The pipe of an `IOManager` as the kernel has it. Its write end blocks while the pipe is full; its
read end does not block and is registered with `EPOLLIN | EPOLLET`: a write puts it in the ready
list of epoll, and an `epoll_wait` that reports it takes it out, whether or not all bytes are read
then. A worker to which it is reported reads up to 256 bytes at a time until a `read` finds none. In
`DdgServer/Sched/Run.lean` this is one step, and the pipe is reported while a byte is unread.

* `Piped`, `pipedStep`: the scheduler with this pipe.
* `Piped.Room`, `pipedStep_of_step`: a step waits only where it writes into the full pipe.
* `Covers`: such a state and one of the scheduler that has the bytes too that somebody is reading.
* `piped_refines`: each run is a run of the scheduler, and no byte is left unread and unreported.
* `piped_wakes`: a wakeup that is not lost can be delivered.
-/

namespace Ddg

open Interleave

variable {ω κ : Type}

/-- At a `tickle()`. -/
def Pc.atTickle : Pc κ → Bool
  | .turn _ .tickle | .putTickle | .tickled => true
  | _ => false

namespace Sched

/-- The scheduler, with the unread bytes as its `pipe`, and whether epoll has the read end in its
ready list. -/
structure Piped (ω κ : Type) where
  sched : State ω κ := {}
  ready : Bool := false

def State.withPipe (s : State ω κ) (n : ℕ) : State ω κ := { s with pipe := n }

section Step

variable [Fintype ω] [DecidableEq ω] (cfg : Config ω) (cap : ℕ) (x : Piped ω κ)

/-- A step that does not read; one that writes waits while the pipe is full. -/
def Piped.write (l : Label ω κ) : Option (Piped ω κ) :=
  (step cfg x.sched l).bind fun s =>
    if x.sched.pipe < s.pipe ∧ cap ≤ x.sched.pipe then none
    else some ⟨s, x.ready || decide (x.sched.pipe < s.pipe)⟩

/-- A worker to which the pipe was reported reads; `dummy` has 256 bytes. -/
def Piped.read (w : ω) : Option (Piped ω κ) :=
  if x.sched.pipe = 0 then x.write cfg cap (.run w)
  else some { x with sched := x.sched.withPipe (x.sched.pipe - 256) }

def pipedStep : Label ω κ → Option (Piped ω κ)
  | .wake w true =>
    if x.ready then (step cfg x.sched (.wake w true)).map fun s => ⟨s, false⟩ else none
  | .run w =>
    match x.sched.pc w with
    | .woken true => x.read cfg cap w
    | _ => x.write cfg cap (.run w)
  | l => x.write cfg cap l

def pipedSys : Sys (Piped ω κ) (Label ω κ) where
  init x := x = {}
  step x l := pipedStep cfg cap x l

end Step

/-! ## The steps of the scheduler, whatever the pipe has -/

section Pipe

variable [Fintype ω] {cfg : Config ω} {s s' : State ω κ} {n : ℕ} {w : ω} {l : Label ω κ}

omit [Fintype ω] in
theorem withPipe_withPipe (s : State ω κ) (m n : ℕ) : (s.withPipe m).withPipe n = s.withPipe n :=
  rfl

theorem withPipe_tickle :
    (s.withPipe n).tickle cfg = (s.tickle cfg).withPipe (n + ((s.tickle cfg).pipe - s.pipe)) := by
  unfold State.tickle State.withPipe
  split <;> simp

/-- `tickle()` writes a byte. -/
def State.Wakes (cfg : Config ω) (s : State ω κ) : Prop :=
  cfg.io = true ∧ s.idleThreadCount ≠ 0

theorem tickle_pipe (h : s.Wakes cfg) : (s.tickle cfg).pipe = s.pipe + 1 := by
  unfold State.Wakes at h
  rw [← bne_iff_ne, ← Bool.and_eq_true] at h
  unfold State.tickle
  rw [if_pos h]

theorem tickle_pipe_of_not (h : ¬s.Wakes cfg) : (s.tickle cfg).pipe = s.pipe := by
  unfold State.Wakes at h
  rw [← bne_iff_ne, ← Bool.and_eq_true] at h
  unfold State.tickle
  rw [if_neg h]

/-- What a step has written, where `calls` says whether it calls `tickle()`. -/
structure State.Grows (cfg : Config ω) (calls : Prop) (s s' : State ω κ) : Prop where
  tickle : calls → s'.pipe = (s.tickle cfg).pipe
  same : ¬calls → s'.pipe = s.pipe

theorem State.Grows.cases {calls : Prop} (h : s.Grows cfg calls s') :
    s'.pipe = s.pipe ∨ calls ∧ s.Wakes cfg ∧ s'.pipe = s.pipe + 1 := by
  by_cases ht : calls
  · by_cases hw : s.Wakes cfg
    · exact .inr ⟨ht, hw, (h.tickle ht).trans (tickle_pipe hw)⟩
    · exact .inl ((h.tickle ht).trans (tickle_pipe_of_not hw))
  · exact .inl (h.same ht)

theorem State.Grows.le {calls : Prop} (h : s.Grows cfg calls s') :
    s.pipe ≤ s'.pipe ∧ s'.pipe ≤ s.pipe + 1 := by
  rcases h.cases with h | ⟨-, -, h⟩ <;> omega

theorem grows_tickle {calls : Prop} (ht : calls) (h : s'.pipe = (s.tickle cfg).pipe) :
    s.Grows cfg calls s' :=
  ⟨fun _ => h, fun h => absurd ht h⟩

/-- A step that leaves the pipe alone. -/
theorem withPipe_same {r : Option (State ω κ)} {calls : Prop} (ht : ¬calls)
    (h : r = some (s'.withPipe n) ∧ s'.pipe = s.pipe) :
    r = some (s'.withPipe (n + (s'.pipe - s.pipe))) ∧ s.Grows cfg calls s' := by
  obtain ⟨hr, hp⟩ := h
  refine ⟨?_, fun h => absurd h ht, fun _ => hp⟩
  rwa [hp, Nat.sub_self]

omit [Fintype ω] in
theorem withPipe_scheduleAll (items : List (Item κ)) (s : State ω κ) (n : ℕ) :
    (s.withPipe n).scheduleAll items =
      ((s.scheduleAll items).1.withPipe n, (s.scheduleAll items).2) ∧
      (s.scheduleAll items).1.pipe = s.pipe := by
  induction items generalizing s with
  | nil => exact ⟨rfl, rfl⟩
  | cons item items ih =>
    have hone : (s.withPipe n).scheduleNoLock item =
        ((s.scheduleNoLock item).1.withPipe n, (s.scheduleNoLock item).2) := by
      simp only [State.scheduleNoLock, State.withPipe]
      split <;> rfl
    have hpipe : (s.scheduleNoLock item).1.pipe = s.pipe := by
      simp only [State.scheduleNoLock]
      split <;> rfl
    obtain ⟨hall, hp⟩ := ih (s.scheduleNoLock item).1
    refine ⟨?_, hp.trans hpipe⟩
    simp only [State.scheduleAll, hone, hall]

variable [DecidableEq ω]

theorem withPipe_scan (h : scanStep cfg s w = some s') :
    scanStep cfg (s.withPipe n) w = some (s'.withPipe n) ∧ s'.pipe = s.pipe := by
  obtain ⟨r, hr, rfl⟩ := Option.map_eq_some_iff.mp h
  refine ⟨?_, ?_⟩
  · refine Option.map_eq_some_iff.mpr ⟨r, hr, ?_⟩
    cases r.taken <;> rfl
  · cases r.taken <;> rfl

omit [Fintype ω] in
theorem withPipe_turn {ft : Entry κ} {f : ℕ} {ph : Phase} (h : turnStep s w ft f ph = some s') :
    turnStep (s.withPipe n) w ft f ph = some (s'.withPipe n) ∧ s'.pipe = s.pipe := by
  cases ph with
  | tickle | take | task => cases h
  | check =>
    simp only [turnStep] at h
    split at h
    · cases h
    · rename_i hs
      cases h
      exact ⟨if_neg hs, rfl⟩
  | look out =>
    simp only [turnStep] at h
    split at h
    · rename_i hs
      cases h
      exact ⟨if_pos hs, rfl⟩
    · rename_i hs
      split at h
      · rename_i he
        cases h
        exact ⟨(if_neg hs).trans (if_pos he), rfl⟩
      · rename_i he
        cases h
        exact ⟨(if_neg hs).trans (if_neg he), rfl⟩
  | _ =>
    cases h
    exact ⟨rfl, rfl⟩

theorem withPipe_run (h : runStep cfg s w = some s') (hw : s.pc w ≠ .woken true) :
    runStep cfg (s.withPipe n) w = some (s'.withPipe (n + (s'.pipe - s.pipe))) ∧
      s.Grows cfg ((s.pc w).atTickle = true) s' := by
  have hpc' : (s.withPipe n).pc = s.pc := rfl
  unfold runStep at h ⊢
  rw [hpc']
  cases hpc : s.pc w with
  | off | wait | left =>
    simp only [hpc] at h
    cases h
  | scan =>
    simp only [hpc] at h ⊢
    exact withPipe_same Bool.false_ne_true (withPipe_scan h)
  | turn ft ph =>
    cases ph with
    | tickle =>
      simp only [hpc] at h
      cases h
      simp only [withPipe_tickle]
      exact ⟨rfl, grows_tickle rfl rfl⟩
    | take =>
      simp only [hpc] at h ⊢
      refine withPipe_same Bool.false_ne_true ?_
      split at h
      all_goals
        cases h
        exact ⟨rfl, rfl⟩
    | _ =>
      simp only [hpc] at h ⊢
      refine withPipe_same Bool.false_ne_true ?_
      split at h
      · exact withPipe_turn h
      · cases h
  | putTickle =>
    simp only [hpc] at h
    cases h
    simp only [withPipe_tickle]
    exact ⟨rfl, grows_tickle rfl rfl⟩
  | tickled =>
    simp only [hpc] at h
    cases h
    simp only [withPipe_tickle]
    exact ⟨rfl, grows_tickle rfl rfl⟩
  | idleInc =>
    simp only [hpc] at h ⊢
    refine withPipe_same Bool.false_ne_true ?_
    split at h
    · cases h
    · rename_i hx
      cases h
      exact ⟨if_neg hx, rfl⟩
  | idle =>
    simp only [hpc] at h ⊢
    refine withPipe_same Bool.false_ne_true ?_
    split at h
    · cases h
    · rename_i hx
      cases h
      exact ⟨if_neg hx, rfl⟩
  | woken pipe =>
    cases pipe with
    | true => exact absurd hpc hw
    | false =>
      simp only [hpc] at h ⊢
      cases h
      exact withPipe_same Bool.false_ne_true ⟨rfl, rfl⟩
  | idleDec =>
    simp only [hpc] at h ⊢
    cases h
    exact withPipe_same Bool.false_ne_true ⟨rfl, rfl⟩

theorem withPipe_caller {quiet : Bool} (h : callerStep cfg s quiet = some s') :
    callerStep cfg (s.withPipe n) quiet = some (s'.withPipe (n + (s'.pipe - s.pipe))) ∧
      s.Grows cfg (∃ k, s.caller = .stopTickle (k + 1)) s' := by
  have hc' : (s.withPipe n).caller = s.caller := rfl
  unfold callerStep at h ⊢
  rw [hc']
  cases hc : s.caller with
  | fresh | started | stopped =>
    simp only [hc] at h
    cases h
  | stopCheck =>
    simp only [hc] at h ⊢
    refine withPipe_same (by simp) ?_
    split at h
    · rename_i hq
      cases h
      exact ⟨if_pos hq, rfl⟩
    · rename_i hq
      split at h
      · rename_i hr
        cases h
        exact ⟨(if_neg hq).trans (if_pos hr), rfl⟩
      · rename_i hr
        cases h
        exact ⟨(if_neg hq).trans (if_neg hr), rfl⟩
  | stopCheckRoot | stopSet =>
    simp only [hc] at h ⊢
    cases h
    exact withPipe_same (by simp) ⟨rfl, rfl⟩
  | stopTickle k =>
    cases k with
    | succ k =>
      simp only [hc] at h
      cases h
      simp only [withPipe_tickle]
      exact ⟨rfl, grows_tickle ⟨k, rfl⟩ rfl⟩
    | zero =>
      simp only [hc] at h ⊢
      refine withPipe_same (by simp) ?_
      split at h
      · rename_i hr
        cases h
        exact ⟨if_pos hr, rfl⟩
      · rename_i hr
        cases h
        exact ⟨if_neg hr, rfl⟩
  | stopRoot =>
    simp only [hc] at h ⊢
    refine withPipe_same (by simp) ?_
    split at h
    · split at h
      · rename_i hq
        cases h
        exact ⟨if_pos hq, rfl⟩
      · rename_i r hr hq
        split at h
        · rename_i hpc
          cases h
          refine ⟨(if_neg hq).trans ?_, rfl⟩
          rw [show (s.withPipe n).pc r = .off from hpc]
          rfl
        · cases h
    · cases h
  | rootRun =>
    simp only [hc] at h ⊢
    refine withPipe_same (by simp) ?_
    split at h
    · rename_i r hr
      split at h
      · rename_i hpc
        cases h
        rw [show (s.withPipe n).pc r = .left from hpc]
        exact ⟨rfl, rfl⟩
      · cases h
    · cases h
  | join =>
    simp only [hc] at h ⊢
    refine withPipe_same (by simp) ?_
    split at h
    · rename_i hall
      cases h
      exact ⟨if_pos hall, rfl⟩
    · cases h

/-- The step reads the pipe, or what epoll says of it. -/
def Label.reads (s : State ω κ) : Label ω κ → Prop
  | .run w => s.pc w = .woken true
  | .wake _ pipe => pipe = true
  | _ => False

/-- The step calls `tickle()`. -/
def Label.tickles (s : State ω κ) : Label ω κ → Prop
  | .run w => (s.pc w).atTickle = true
  | .tickle => True
  | .caller _ => ∃ k, s.caller = .stopTickle (k + 1)
  | _ => False

/-- A step that does not read the pipe does the same whatever is in it. -/
theorem withPipe_step (h : step cfg s l = some s') (hl : ¬l.reads s) :
    step cfg (s.withPipe n) l = some (s'.withPipe (n + (s'.pipe - s.pipe))) ∧
      s.Grows cfg (l.tickles s) s' := by
  cases l with
  | run w => exact withPipe_run h hl
  | caller quiet => exact withPipe_caller h
  | schedule items =>
    refine withPipe_same id ?_
    obtain ⟨hall, hpipe⟩ := withPipe_scheduleAll items s n
    simp only [step] at h ⊢
    split at h
    · rename_i hm
      cases h
      rw [if_pos (show ∀ item ∈ items, ∀ f ∈ item.fiber, f < (s.withPipe n).made from hm), hall]
      split
      · exact ⟨rfl, hpipe⟩
      · exact ⟨rfl, hpipe⟩
    · cases h
  | tickle =>
    simp only [step] at h ⊢
    split at h
    · rename_i ht
      cases h
      rw [if_pos (show 0 < (s.withPipe n).tickles from ht)]
      simp only [withPipe_tickle]
      exact ⟨rfl, grows_tickle trivial rfl⟩
    · cases h
  | create =>
    refine withPipe_same id ?_
    cases h
    exact ⟨rfl, rfl⟩
  | reset f =>
    refine withPipe_same id ?_
    simp only [step] at h
    split at h
    · rename_i hf
      cases h
      exact ⟨if_pos hf, rfl⟩
    · cases h
  | task w out =>
    refine withPipe_same id ?_
    simp only [step, taskStep] at h ⊢
    rw [show (s.withPipe n).pc = s.pc from rfl]
    split at h
    · rename_i ft hpc
      split at h
      · rename_i f hf
        split at h
        · rename_i ho
          cases h
          exact ⟨if_pos ho, rfl⟩
        · cases h
      · cases h
    · cases h
  | idle w quiet =>
    refine withPipe_same id ?_
    simp only [step, idleStep] at h ⊢
    rw [show (s.withPipe n).pc = s.pc from rfl]
    split at h
    · rename_i hpc hio
      split at h
      · rename_i hq
        cases h
        exact ⟨if_pos hq, rfl⟩
      · rename_i hq
        cases h
        exact ⟨if_neg hq, rfl⟩
    · cases h
  | wake w pipe =>
    refine withPipe_same id ?_
    have hp : pipe = false := Bool.eq_false_of_not_eq_true hl
    subst hp
    simp only [step, wakeStep] at h ⊢
    rw [show (s.withPipe n).pc = s.pc from rfl]
    split at h
    · rename_i hpc
      simp only [Bool.false_eq_true, false_and, if_false] at h
      cases h
      exact ⟨rfl, rfl⟩
    · cases h
  | start =>
    refine withPipe_same id ?_
    simp only [step] at h
    split at h
    · rename_i hc
      cases h
      exact ⟨if_pos hc, rfl⟩
    · cases h
  | stop =>
    refine withPipe_same id ?_
    simp only [step] at h
    split at h
    · rename_i hc
      cases h
      exact ⟨if_pos hc, rfl⟩
    · cases h

/-- A worker to which the pipe was reported goes on to read. -/
theorem woken_stays (h : step cfg s l = some s') (hl : ¬l.reads s) (hw : s.pc w = .woken true) :
    s'.pc w = .woken true := by
  cases step_case h with
  | @worker l u s' hu hs =>
    obtain ⟨-, pc, -, hpc⟩ := hs.pc
    have hne : w ≠ u := by
      rintro rfl
      cases l with
      | run v =>
        cases hu
        exact hl hw
      | task v out =>
        cases hu
        simp [step, taskStep, hw] at h
      | idle v quiet =>
        cases hu
        simp [step, idleStep, hw] at h
      | wake v pipe =>
        cases hu
        simp [step, wakeStep, hw] at h
      | _ => cases hu
    rw [hpc, Function.update_of_ne hne]
    exact hw
  | tickle =>
    rw [tickle_eq]
    exact hw
  | schedule | create | reset | stop => exact hw
  | start hc hoff hpc => exact (hpc w (by rw [hw]; rintro ⟨⟩)).trans hw
  | caller hm =>
    cases hm with
    | tickle =>
      rw [tickle_eq]
      exact hw
    | @enter r hc hr hq hpc =>
      have hne : w ≠ r := by
        rintro rfl
        cases hw.symm.trans hpc
      exact (Function.update_of_ne hne ..).trans hw
    | _ => exact hw

end Pipe

/-! ## The refinement -/

/-- `a` is the state of the scheduler with at least the unread bytes in its pipe; it has more only
while somebody reads. -/
structure Covers (x : Piped ω κ) (a : State ω κ) : Prop where
  sched : a = x.sched.withPipe a.pipe
  le : x.sched.pipe ≤ a.pipe
  reading : 0 < a.pipe → 0 < x.sched.pipe ∨ ∃ w, x.sched.pc w = .woken true

/-- Unread bytes are in the ready list, or somebody reads. -/
structure Piped.Told (cap : ℕ) (x : Piped ω κ) : Prop where
  room : x.sched.pipe ≤ cap
  ready : 0 < x.sched.pipe → x.ready = true ∨ ∃ w, x.sched.pc w = .woken true

variable [Fintype ω] [DecidableEq ω] {cfg : Config ω} {cap : ℕ} {x x' : Piped ω κ} {l : Label ω κ}
  {a s : State ω κ} {w : ω}

theorem write_eq (h : x.write cfg cap l = some x') :
    step cfg x.sched l = some x'.sched ∧ (x.sched.pipe < x'.sched.pipe → x.sched.pipe < cap) ∧
      x'.ready = (x.ready || decide (x.sched.pipe < x'.sched.pipe)) := by
  obtain ⟨s, hs, h⟩ := Option.bind_eq_some_iff.mp h
  split at h
  · cases h
  · rename_i hcap
    cases h
    exact ⟨hs, fun hlt => Nat.lt_of_not_le fun hle => hcap ⟨hlt, hle⟩, rfl⟩

/-- The steps of the piped scheduler. -/
inductive PipedStep (cfg : Config ω) (cap : ℕ) (x : Piped ω κ) : Label ω κ → Piped ω κ → Prop
  /-- `epoll_wait` reports the pipe. -/
  | report {w : ω} (hr : x.ready = true) (hpc : x.sched.pc w = .wait) (hp : x.sched.pipe ≠ 0) :
    PipedStep cfg cap x (.wake w true) ⟨x.sched.goto w (.woken true), false⟩
  /-- A `read` that finds bytes. -/
  | read {w : ω} (hpc : x.sched.pc w = .woken true) (hp : x.sched.pipe ≠ 0) :
    PipedStep cfg cap x (.run w) { x with sched := x.sched.withPipe (x.sched.pipe - 256) }
  /-- A `read` that finds none: the loop ends. -/
  | drained {w : ω} (hpc : x.sched.pc w = .woken true) (hp : x.sched.pipe = 0) :
    PipedStep cfg cap x (.run w)
      { x with sched := { x.sched.goto w .idleDec with pipe := 0 } }
  | other {l : Label ω κ} {y : Piped ω κ} (hl : ¬l.reads x.sched)
    (hy : x.write cfg cap l = some y) :
    PipedStep cfg cap x l y

theorem wake_eq (hpc : s.pc w = .wait) (hp : s.pipe ≠ 0) :
    step cfg s (.wake w true) = some (s.goto w (.woken true)) := by
  simp only [step, wakeStep, hpc]
  exact if_neg fun h => hp h.2

theorem woken_eq (hpc : s.pc w = .woken true) :
    step cfg s (.run w) = some { s.goto w .idleDec with pipe := 0 } := by
  simp only [step, runStep, hpc]
  rfl

theorem report_eq (hr : x.ready = true) (hpc : x.sched.pc w = .wait) (hp : x.sched.pipe ≠ 0) :
    pipedStep cfg cap x (.wake w true) = some ⟨x.sched.goto w (.woken true), false⟩ := by
  simp only [pipedStep, hr, if_true, wake_eq hpc hp]
  rfl

theorem pipedStep_woken (hpc : x.sched.pc w = .woken true) :
    pipedStep cfg cap x (.run w) = x.read cfg cap w := by
  simp only [pipedStep, hpc]

theorem read_eq (hpc : x.sched.pc w = .woken true) (hp : x.sched.pipe ≠ 0) :
    pipedStep cfg cap x (.run w) =
      some { x with sched := x.sched.withPipe (x.sched.pipe - 256) } := by
  simp only [pipedStep, hpc, Piped.read, if_neg hp]

theorem drained_eq (hpc : x.sched.pc w = .woken true) (hp : x.sched.pipe = 0) :
    pipedStep cfg cap x (.run w) =
      some { x with sched := { x.sched.goto w .idleDec with pipe := 0 } } := by
  simp only [pipedStep, hpc, Piped.read, hp, Piped.write, woken_eq hpc, Option.bind_some,
    Nat.lt_irrefl, false_and, if_true, if_false, decide_false, Bool.or_false]

theorem pipedStep_cases (h : pipedStep cfg cap x l = some x') : PipedStep cfg cap x l x' := by
  cases l with
  | wake w pipe =>
    cases pipe with
    | false => exact .other (fun hr => by cases hr) h
    | true =>
      simp only [pipedStep] at h
      split at h
      · rename_i hr
        obtain ⟨s, hs, rfl⟩ := Option.map_eq_some_iff.mp h
        simp only [step, wakeStep] at hs
        split at hs
        · rename_i hpc
          split at hs
          · cases hs
          · rename_i hp
            cases hs
            exact .report hr hpc fun h₀ => hp ⟨trivial, h₀⟩
        · cases hs
      · cases h
  | run w =>
    simp only [pipedStep] at h
    split at h
    · rename_i hpc
      by_cases hp : x.sched.pipe = 0
      · rw [← pipedStep_woken hpc, drained_eq hpc hp] at h
        cases h
        exact .drained hpc hp
      · rw [← pipedStep_woken hpc, read_eq hpc hp] at h
        cases h
        exact .read hpc hp
    · rename_i hpc
      exact .other hpc h
  | _ => exact .other id h

/-! ## The steps that wait -/

/-- A `tickle()` does not wait: it writes nothing, or the pipe is not full. -/
def Piped.Room (cfg : Config ω) (cap : ℕ) (x : Piped ω κ) : Prop :=
  x.sched.Wakes cfg → x.sched.pipe < cap

theorem pipedStep_eq_write (hl : ¬l.reads x.sched) :
    pipedStep cfg cap x l = x.write cfg cap l := by
  cases l with
  | run w =>
    simp only [pipedStep]
    split
    · rename_i hpc
      exact absurd hpc hl
    · rfl
  | wake w pipe =>
    cases pipe with
    | true => exact absurd rfl hl
    | false => rfl
  | _ => rfl

/-- A step of the scheduler that does not read is possible, if there is room where it calls
`tickle()`. -/
theorem pipedStep_of_step (h : step cfg x.sched l = some s) (hl : ¬l.reads x.sched)
    (hroom : l.tickles x.sched → x.Room cfg cap) :
    ∃ x', pipedStep cfg cap x l = some x' ∧ x'.sched = s := by
  obtain ⟨-, hgrow⟩ := withPipe_step (n := 0) h hl
  have hnot : ¬(x.sched.pipe < s.pipe ∧ cap ≤ x.sched.pipe) := by
    rintro ⟨hlt, hfull⟩
    rcases hgrow.cases with he | ⟨ht, hw, -⟩
    · omega
    · exact Nat.not_lt_of_le hfull (hroom ht hw)
  rw [pipedStep_eq_write hl, Piped.write, h, Option.bind_some, if_neg hnot]
  exact ⟨_, rfl, rfl⟩

/-- One that calls `tickle()` is possible just if there is room. -/
theorem pipedStep_tickle_iff (h : step cfg x.sched l = some s) (hl : ¬l.reads x.sched)
    (ht : l.tickles x.sched) : (pipedStep cfg cap x l).isSome = true ↔ x.Room cfg cap := by
  constructor
  · intro hx hw
    obtain ⟨x', hx⟩ := Option.isSome_iff_exists.mp hx
    rw [pipedStep_eq_write hl] at hx
    obtain ⟨hst, hcap, -⟩ := write_eq hx
    obtain ⟨-, hgrow⟩ := withPipe_step (n := 0) hst hl
    have := (hgrow.tickle ht).trans (tickle_pipe hw)
    exact hcap (by omega)
  · intro hroom
    obtain ⟨x', hx, -⟩ := pipedStep_of_step h hl fun _ => hroom
    rw [hx]
    rfl

/-! ## The run behind a run -/

theorem covers_step (h : pipedStep cfg cap x l = some x') (hc : Covers x a) :
    ∃ a', (a' = a ∨ step cfg a l = some a') ∧ Covers x' a' := by
  obtain ⟨hsched, hle, hread⟩ := hc
  generalize a.pipe = n at hsched hle hread
  subst hsched
  cases pipedStep_cases h with
  | @report w hr hpc hp =>
    have hn : n ≠ 0 := by omega
    exact ⟨(x.sched.withPipe n).goto w (.woken true), .inr (wake_eq hpc hn), rfl, hle,
      fun _ => .inr ⟨w, Function.update_self ..⟩⟩
  | @read w hpc hp =>
    exact ⟨x.sched.withPipe n, .inl rfl, (withPipe_withPipe ..).symm, (Nat.sub_le _ _).trans hle,
      fun _ => .inr ⟨w, hpc⟩⟩
  | @drained w hpc hp =>
    exact ⟨{ (x.sched.withPipe n).goto w .idleDec with pipe := 0 }, .inr (woken_eq hpc), rfl,
      Nat.le_refl _, fun h₀ => absurd h₀ (Nat.lt_irrefl 0)⟩
  | other hl hx =>
    obtain ⟨hst, -, -⟩ := write_eq hx
    obtain ⟨hst', hgrow⟩ := withPipe_step (n := n) hst hl
    have h₁ := hgrow.le.1
    refine ⟨_, .inr hst', rfl, ?_, fun h₀ => ?_⟩
    · show x'.sched.pipe ≤ n + (x'.sched.pipe - x.sched.pipe)
      omega
    · change 0 < n + (x'.sched.pipe - x.sched.pipe) at h₀
      by_cases hn : 0 < n
      · rcases hread hn with hp | ⟨w, hw⟩
        · exact .inl (by omega)
        · exact .inr ⟨w, woken_stays hst hl hw⟩
      · exact .inl (by omega)

theorem told_step (h : pipedStep cfg cap x l = some x') (ht : x.Told cap) : x'.Told cap := by
  obtain ⟨hroom, hready⟩ := ht
  cases pipedStep_cases h with
  | @report w hr hpc hp => exact ⟨hroom, fun _ => .inr ⟨w, Function.update_self ..⟩⟩
  | @read w hpc hp => exact ⟨(Nat.sub_le _ _).trans hroom, fun _ => .inr ⟨w, hpc⟩⟩
  | drained hpc hp => exact ⟨Nat.zero_le _, fun h₀ => absurd h₀ (Nat.lt_irrefl 0)⟩
  | other hl hx =>
    obtain ⟨hst, hcap, hr⟩ := write_eq hx
    obtain ⟨-, hgrow⟩ := withPipe_step (n := 0) hst hl
    refine ⟨?_, fun h₀ => ?_⟩
    · have := hgrow.le.2
      by_cases hlt : x.sched.pipe < x'.sched.pipe
      · have := hcap hlt
        omega
      · omega
    · rw [hr]
      by_cases hlt : x.sched.pipe < x'.sched.pipe
      · exact .inl (by rw [decide_eq_true hlt, Bool.or_true])
      · rcases hready (by omega) with hr' | ⟨w, hw⟩
        · exact .inl (by rw [hr', Bool.true_or])
        · exact .inr ⟨w, woken_stays hst hl hw⟩

/-- A state reached by a run of the scheduler is behind each state of a run. -/
theorem covers_reach {C : Piped ω κ → Label ω κ → Prop} {D : State ω κ → Label ω κ → Prop}
    (hCD : ∀ x a l, Covers x a → C x l → D a l) (h : (pipedSys cfg cap).Reach C x) :
    ∃ a, (sys cfg).Reach D a ∧ Covers x a ∧ x.Told cap := by
  obtain ⟨x₀, h₀, hr⟩ := h
  rw [show x₀ = {} from h₀] at hr
  have hstart : Covers ({} : Piped ω κ) {} :=
    ⟨rfl, Nat.le_refl _, fun h => absurd h (Nat.lt_irrefl 0)⟩
  have htold : Piped.Told cap ({} : Piped ω κ) :=
    ⟨Nat.zero_le _, fun h => absurd h (Nat.lt_irrefl 0)⟩
  obtain ⟨a, ha, hc⟩ := hr.simulates (T := sys cfg) (D := D) (R := Covers)
    (fun x l x' a hc hcl hst => by
      obtain ⟨a', ha', hc'⟩ := covers_step hst hc
      rcases ha' with rfl | ha'
      · exact ⟨_, .refl, hc'⟩
      · exact ⟨a', .tail l .refl (hCD x a l hc hcl) ha', hc'⟩) hstart
  exact ⟨a, ⟨_, rfl, ha⟩, hc, hr.keeps (fun _ _ _ ht _ hst => told_step hst ht) htold⟩

/-- **The pipe does what the scheduler takes it for.** In every run with the pipe of the kernel the
workers, the queue and the fibers are as in a run of the scheduler that reports the pipe while a
byte is unread; and while a byte is unread, a worker is reading, or each blocked `epoll_wait` can
return with the pipe. -/
theorem piped_refines (h : (pipedSys cfg cap).Reach Sys.free x) :
    (∃ n, x.sched.pipe ≤ n ∧ (sys cfg).Reach Sys.free (x.sched.withPipe n)) ∧
    x.sched.pipe ≤ cap ∧
    (0 < x.sched.pipe → (∃ w, x.sched.pc w = .woken true) ∨
      ∀ w, x.sched.pc w = .wait → ∃ x', pipedStep cfg cap x (.wake w true) = some x') := by
  obtain ⟨a, ha, hc, ht⟩ := covers_reach (D := Sys.free) (fun _ _ _ _ _ => trivial) h
  refine ⟨⟨a.pipe, hc.le, hc.sched ▸ ha⟩, ht.room, fun h₀ => ?_⟩
  rcases ht.ready h₀ with hr | hw
  · exact .inr fun w hw => ⟨_, report_eq hr hw (Nat.ne_of_gt h₀)⟩
  · exact .inl hw

/-- A worker blocks, two callbacks are scheduled, and it reads the two bytes. -/
theorem piped_refines_read : ∃ x : Piped (Fin 1) Unit,
    x.sched.pc 0 = .idleDec ∧ x.sched.fibers.length = 2 ∧
      ∃ n, x.sched.pipe ≤ n ∧ (sys ioWorker).Reach Sys.free (x.sched.withPipe n) := by
  obtain ⟨x, hx, hp⟩ := Sys.exists_of_runBy (S := pipedSys (κ := Unit) ioWorker 65536)
    (C := Sys.free) (s := {})
    [.start, .run 0, .run 0, .idle 0 false, .schedule [{ cb := some () }], .tickle,
      .schedule [{ cb := some () }], .tickle, .wake 0 true, .run 0, .run 0]
    (p := fun x => x.sched.pc 0 == .idleDec && x.sched.fibers.length == 2) (by decide +kernel)
  simp only [Bool.and_eq_true, beq_iff_eq] at hp
  exact ⟨x, hp.1, hp.2, (piped_refines ⟨_, rfl, hx⟩).1⟩

/-! ## Wakeups -/

omit [Fintype ω] [DecidableEq ω] in
theorem State.Heard.withPipe {n : ℕ} {but : Option ω} (h : s.Heard but) (hn : s.pipe ≤ n) :
    (s.withPipe n).Heard but :=
  h.imp_left fun h => h.trans_le hn

omit [Fintype ω] [DecidableEq ω] in
theorem State.MayRest.withPipe {n : ℕ} (h : s.MayRest w) (hn : s.pipe ≤ n) :
    (s.withPipe n).MayRest w :=
  h.imp_left fun h => h.withPipe hn

omit [DecidableEq ω] in
theorem attentive_covers (hc : Covers x a) (h : x.sched.Attentive cfg l) : a.Attentive cfg l := by
  obtain ⟨hsched, hle, -⟩ := hc
  generalize a.pipe = n at hsched hle
  subst hsched
  cases l with
  | tickle => exact fun hidle hr => (h hidle hr).imp_right fun h => h.withPipe hle
  | run w =>
    exact ⟨fun ht hidle hr => (h.1 ht hidle hr).withPipe hle,
      fun r hr ht htm hrun => (h.2 r hr ht htm hrun).withPipe hle⟩
  | reset f => exact h
  | _ => trivial

/-- **A wakeup that is not lost is delivered.** In the runs that meet the condition of
`no_lostWakeup`, with the pipe of the kernel: if all workers in `run` block in `epoll_wait`, no
`tickle()` is to come and an entry can be run, each of these `epoll_wait` can return. -/
theorem piped_wakes (hio : cfg.io = true)
    (h : (pipedSys cfg cap).Reach (fun x l => x.sched.Attentive cfg l) x)
    (hwait : ∀ w, (x.sched.pc w).inRun = true → x.sched.pc w = .wait) (ht : x.sched.tickles = 0)
    (hrun : AnyRunnable x.sched.fibers x.sched.state) (hw : x.sched.pc w = .wait) :
    ∃ x', pipedStep cfg cap x (.wake w true) = some x' ∧ x'.sched.pc w = .woken true := by
  obtain ⟨a, ha, hc, htold⟩ := covers_reach (fun _ _ _ hc h => attentive_covers hc h) h
  obtain ⟨hsched, -, hread⟩ := hc
  have hmiss := ((noneMissed_inductive hio).reach ha).2
  rw [hsched] at hmiss
  -- no worker reads, and none is about to scan or to tickle
  have hnone : ∀ u pc, x.sched.pc u = pc → pc.inRun = true → pc = .wait := by
    rintro u pc rfl hin
    exact hwait u hin
  have hpipe : 0 < x.sched.pipe := by
    rcases hmiss hrun with hoff | hp | htick | ⟨u, -, hu⟩
    · have := hoff w
      rw [show (x.sched.withPipe a.pipe).pc w = .wait from hw] at this
      cases this
    · rcases hread hp with hp | ⟨u, hu⟩
      · exact hp
      · cases hnone u _ hu rfl
    · rw [show (x.sched.withPipe a.pipe).tickles = 0 from ht] at htick
      cases htick
    · change (x.sched.pc u).due = true ∨ (x.sched.pc u).tickling = true at hu
      have hin : (x.sched.pc u).inRun = true := by
        rcases hu with hu | hu
        · exact Pc.inRun_of_due hu
        · rw [Pc.eq_of_tickling hu]
          rfl
      rw [hnone u _ rfl hin] at hu
      rcases hu with hu | hu <;> cases hu
  rcases htold.ready hpipe with hr | ⟨u, hu⟩
  · exact ⟨_, report_eq hr hw (Nat.ne_of_gt hpipe), Function.update_self ..⟩
  · cases hnone u _ hu rfl

/-- The worker blocks and a callback is scheduled. -/
theorem piped_wakes_callback : ∃ x : Piped (Fin 1) Unit, x.sched.fibers.length = 1 ∧
    ∃ x', pipedStep ioWorker 65536 x (.wake 0 true) = some x' ∧ x'.sched.pc 0 = .woken true := by
  obtain ⟨x, hx, hp⟩ := Sys.exists_of_runBy (S := pipedSys (κ := Unit) ioWorker 65536)
    (C := fun x l => x.sched.Attentive ioWorker l) (s := {})
    [.start, .run 0, .run 0, .idle 0 false, .schedule [{ cb := some () }], .tickle]
    (p := fun x => x.sched.fibers.length == 1 && x.sched.pc 0 == .wait && x.sched.tickles == 0 &&
      decide (AnyRunnable x.sched.fibers x.sched.state)) (by decide +kernel)
  simp only [Bool.and_eq_true, beq_iff_eq, decide_eq_true_eq] at hp
  obtain ⟨⟨⟨hlen, hpc⟩, ht⟩, hrun⟩ := hp
  refine ⟨x, hlen, piped_wakes rfl ⟨_, rfl, hx⟩ (fun w _ => ?_) ht hrun hpc⟩
  rw [Subsingleton.elim w 0]
  exact hpc

end Sched

end Ddg
