import DdgServer.Sched.Scan

/-!
# The iterator of the scan

The loop of the scan over `m_fibers` once more, with its iterator: the list is split into what lies
before the iterator and what lies from it on (`Cursor`). `m_fibers.erase(it++)` moves the iterator
to the next entry, and the loop header moves it once more, over an entry that the loop never looks
at, or past the end.

* `Cursor.loop_scan`, `Cursor.loop_ends`: the loop ends, and does what `Scan.scan` says.
* `metFinished`: the loop comes to a fiber that has ended. `Cursor.loop_looks`, `Cursor.loop_skips`:
  it looks at every position in order if it does not, and not if it does.
* `scan_orderly_iff`: the loop is as it should be (`Orderly`) exactly if each entry of a fiber that
  has ended stands behind an entry that is dispatched (`Clear`).
-/

namespace Ddg

variable {κ : Type}

/-- The loop and `m_fibers`: the entries before the iterator, and those from it on (none: it is
`end()`). `pos` is where its entry stood before the loop; `looked` are the positions of the entries
that were dereferenced. -/
structure Cursor (κ : Type) where
  before : List (Entry κ) := []
  rest : List (Entry κ)
  state : FiberStates
  pos : ℕ := 0
  looked : List ℕ := []
  erased : List (Entry κ) := []
  taken : Option (Entry κ) := none
  tickleMe : Bool := false

namespace Cursor

/-- What `m_fibers` holds. -/
def fibers (c : Cursor κ) : List (Entry κ) := c.before ++ c.rest

/-- `it++`; `none`: the iterator is `end()`. -/
def incr (c : Cursor κ) : Option (Cursor κ) :=
  match c.rest with
  | [] => none
  | e :: es => some { c with before := c.before ++ [e], rest := es, pos := c.pos + 1 }

/-- `m_fibers.erase(it++)`. -/
def eraseIncr (c : Cursor κ) : Option (Cursor κ) :=
  match c.rest with
  | [] => none
  | _ :: es => some { c with rest := es, pos := c.pos + 1 }

/-- How a round of the loop ends. -/
inductive Round (κ : Type) where
  /-- The iterator is `end()`. -/
  | ended
  | broke (c : Cursor κ)
  | next (c : Cursor κ)
  /-- The iterator is incremented or dereferenced at `end()`. -/
  | fault

/-- `continue`, and the `it++` of the loop header. -/
def advance (c : Cursor κ) : Round κ := c.incr.elim .fault .next

/-- `ft = itt; m_fibers.erase(it++); break;`. -/
def dispatch (c : Cursor κ) (e : Entry κ) : Round κ :=
  ({ c with taken := some e, tickleMe := true } : Cursor κ).eraseIncr.elim .fault .broke

/-- A round of the loop, for the thread `tid`. -/
def round (tid : ThreadId) (c : Cursor κ) : Round κ :=
  match c.rest with
  | [] => .ended
  | e :: _ =>
    let c := { c with looked := c.looked ++ [c.pos] }
    if e.thread ≠ 0 ∧ e.thread = tid then ({ c with tickleMe := true } : Cursor κ).advance
    else
      match e.fiber with
      | none => c.dispatch e
      | some fiber =>
        match c.state fiber with
        | .init | .hold =>
          ({ c with state := Function.update c.state fiber .ready } : Cursor κ).advance
        | .exec => c.advance
        | .ready => c.dispatch e
        | .unknow | .uninit | .term | .except =>
          ({ c with erased := c.erased ++ [e] } : Cursor κ).eraseIncr.elim .fault advance

/-- How the loop ends. -/
inductive Result (κ : Type) where
  | done (c : Cursor κ)
  | fault
  | outOfFuel

def loop (tid : ThreadId) : ℕ → Cursor κ → Result κ
  | 0, _ => .outOfFuel
  | n + 1, c =>
    match c.round tid with
    | .ended => .done c
    | .broke c => .done c
    | .next c => loop tid n c
    | .fault => .fault

end Cursor

/-- The entry is for this thread, and the scan leaves it alone. -/
def Entry.Pinned (tid : ThreadId) (e : Entry κ) : Prop := e.thread ≠ 0 ∧ e.thread = tid

instance (tid : ThreadId) (e : Entry κ) : Decidable (e.Pinned tid) :=
  inferInstanceAs (Decidable (_ ∧ _))

/-- The state is none that the scan knows: it erases the entry. -/
def FiberState.finished : FiberState → Bool
  | .unknow | .uninit | .term | .except => true
  | _ => false

/-- The loop comes to the entry of a fiber that has ended. -/
def metFinished (tid : ThreadId) : List (Entry κ) → FiberStates → Bool
  | [], _ => false
  | e :: es, state =>
    if e.Pinned tid then metFinished tid es state
    else
      match e.fiber with
      | none => false
      | some fiber =>
        match state fiber with
        | .init | .hold => metFinished tid es (Function.update state fiber .ready)
        | .exec => metFinished tid es state
        | .ready => false
        | .unknow | .uninit | .term | .except => true

/-! ## One round -/

/-- How the scan treats an entry. -/
inductive Treats (tid : ThreadId) (e : Entry κ) (state : FiberStates) : Prop
  | pinned (hp : e.Pinned tid)
  | ready (f : ℕ) (hp : ¬ e.Pinned tid) (hf : e.fiber = some f)
    (hs : state f = .init ∨ state f = .hold)
  | busy (f : ℕ) (hp : ¬ e.Pinned tid) (hf : e.fiber = some f) (hs : state f = .exec)
  | take (hp : ¬ e.Pinned tid) (hs : ∀ f, e.fiber = some f → state f = .ready)
  | erase (f : ℕ) (hp : ¬ e.Pinned tid) (hf : e.fiber = some f) (hs : (state f).finished = true)

theorem treats (tid : ThreadId) (e : Entry κ) (state : FiberStates) : Treats tid e state := by
  by_cases hp : e.Pinned tid
  · exact .pinned hp
  cases hf : e.fiber with
  | none => exact .take hp (by simp [hf])
  | some f =>
    cases hs : state f with
    | init => exact .ready f hp hf (.inl hs)
    | hold => exact .ready f hp hf (.inr hs)
    | exec => exact .busy f hp hf hs
    | ready => exact .take hp fun g hg => by rw [hf] at hg; cases hg; exact hs
    | _ => exact .erase f hp hf (by rw [hs]; rfl)

variable {tid : ThreadId} {e : Entry κ} {es : List (Entry κ)} {state : FiberStates} {f : ℕ}

section Equations

theorem scan_pinned (hp : e.Pinned tid) : Scan.scan tid (e :: es) state =
    (Scan.scan tid es state).map fun r =>
      { r.keep e (e.dispatchable state) with tickleMe := true } := by
  rw [Scan.scan.eq_def]
  exact if_pos hp

theorem scan_ready (hp : ¬ e.Pinned tid) (hf : e.fiber = some f)
    (hs : state f = .init ∨ state f = .hold) : Scan.scan tid (e :: es) state =
      (Scan.scan tid es (Function.update state f .ready)).map (Scan.keep e false) := by
  rw [Scan.scan.eq_def]
  refine (if_neg hp).trans ?_
  rcases hs with hs | hs <;> simp only [hf, hs]

theorem scan_busy (hp : ¬ e.Pinned tid) (hf : e.fiber = some f) (hs : state f = .exec) :
    Scan.scan tid (e :: es) state = (Scan.scan tid es state).map (Scan.keep e false) := by
  rw [Scan.scan.eq_def]
  refine (if_neg hp).trans ?_
  simp only [hf, hs]

theorem scan_take (hp : ¬ e.Pinned tid) (hs : ∀ f, e.fiber = some f → state f = .ready) :
    Scan.scan tid (e :: es) state = some (Scan.take e es state) := by
  rw [Scan.scan.eq_def]
  refine (if_neg hp).trans ?_
  cases hf : e.fiber with
  | none => rfl
  | some f => simp only [hs f hf]

theorem scan_erase (hp : ¬ e.Pinned tid) (hf : e.fiber = some f) (hs : (state f).finished = true) :
    Scan.scan tid (e :: es) state = match es with
      | [] => none
      | passed :: es => (Scan.scan tid es state).map fun r =>
        (r.keep passed (passed.dispatchable state)).erase e := by
  rw [Scan.scan.eq_def]
  refine (if_neg hp).trans ?_
  simp only [hf]
  cases h : state f <;> rw [h] at hs <;> first | rfl | cases hs

theorem met_pinned (hp : e.Pinned tid) :
    metFinished tid (e :: es) state = metFinished tid es state := by
  rw [metFinished, if_pos hp]

theorem met_ready (hp : ¬ e.Pinned tid) (hf : e.fiber = some f)
    (hs : state f = .init ∨ state f = .hold) : metFinished tid (e :: es) state =
      metFinished tid es (Function.update state f .ready) := by
  rw [metFinished, if_neg hp]
  rcases hs with hs | hs <;> simp only [hf, hs]

theorem met_busy (hp : ¬ e.Pinned tid) (hf : e.fiber = some f) (hs : state f = .exec) :
    metFinished tid (e :: es) state = metFinished tid es state := by
  rw [metFinished, if_neg hp]
  simp only [hf, hs]

theorem met_take (hp : ¬ e.Pinned tid) (hs : ∀ f, e.fiber = some f → state f = .ready) :
    metFinished tid (e :: es) state = false := by
  rw [metFinished, if_neg hp]
  cases hf : e.fiber with
  | none => rfl
  | some f => simp only [hs f hf]

theorem met_erase (hp : ¬ e.Pinned tid) (hf : e.fiber = some f) (hs : (state f).finished = true) :
    metFinished tid (e :: es) state = true := by
  rw [metFinished, if_neg hp]
  simp only [hf]
  cases h : state f <;> rw [h] at hs <;> first | rfl | cases hs

end Equations

namespace Cursor

variable {c c' : Cursor κ}

/-- The cursor after its entry was looked at and the iterator moved on. -/
def passed (c : Cursor κ) (e : Entry κ) (es : List (Entry κ)) : Cursor κ :=
  { c with before := c.before ++ [e], rest := es, pos := c.pos + 1, looked := c.looked ++ [c.pos] }

theorem round_pinned (hc : c.rest = e :: es) (hp : e.Pinned tid) :
    c.round tid = .next { c.passed e es with tickleMe := true } := by
  simp only [round, hc]
  exact if_pos hp

theorem round_ready (hc : c.rest = e :: es) (hp : ¬ e.Pinned tid) (hf : e.fiber = some f)
    (hs : c.state f = .init ∨ c.state f = .hold) :
    c.round tid = .next { c.passed e es with state := Function.update c.state f .ready } := by
  simp only [round, hc]
  refine (if_neg hp).trans ?_
  rcases hs with hs | hs <;> simp only [hf, hs] <;> rfl

theorem round_busy (hc : c.rest = e :: es) (hp : ¬ e.Pinned tid) (hf : e.fiber = some f)
    (hs : c.state f = .exec) : c.round tid = .next (c.passed e es) := by
  simp only [round, hc]
  refine (if_neg hp).trans ?_
  simp only [hf, hs]
  rfl

theorem round_take (hc : c.rest = e :: es) (hp : ¬ e.Pinned tid)
    (hs : ∀ f, e.fiber = some f → c.state f = .ready) : c.round tid = .broke
      { c with
        rest := es, pos := c.pos + 1, looked := c.looked ++ [c.pos], taken := some e
        tickleMe := true } := by
  simp only [round, hc]
  refine (if_neg hp).trans ?_
  cases hf : e.fiber with
  | none => rfl
  | some f =>
    simp only [hs f hf]
    rfl

/-- After an erased entry the iterator passes the next one over, or the end. -/
theorem round_erase (hc : c.rest = e :: es) (hp : ¬ e.Pinned tid) (hf : e.fiber = some f)
    (hs : (c.state f).finished = true) : c.round tid = match es with
      | [] => .fault
      | passed :: es => .next { c with
        before := c.before ++ [passed], rest := es, pos := c.pos + 2
        looked := c.looked ++ [c.pos], erased := c.erased ++ [e] } := by
  simp only [round, hc]
  refine (if_neg hp).trans ?_
  simp only [hf]
  cases h : c.state f <;> rw [h] at hs <;> first | (cases es <;> rfl) | cases hs

/-! ## The loop -/

section Loop

variable {n : ℕ}

theorem loop_next {c₁ : Cursor κ} (h : c.round tid = .next c₁) :
    c.loop tid (n + 1) = c₁.loop tid n := by
  rw [loop, h]

theorem loop_broke {c₁ : Cursor κ} (h : c.round tid = .broke c₁) :
    c.loop tid (n + 1) = .done c₁ := by
  rw [loop, h]

theorem loop_fault (h : c.round tid = .fault) : c.loop tid (n + 1) = .fault := by
  rw [loop, h]

theorem loop_ended (hc : c.rest = []) : c.loop tid (n + 1) = .done c := by
  have h : c.round tid = .ended := by simp only [round, hc]
  rw [loop, h]

/-- What the loop leaves, begun at `c`, is what the scan of the entries from the iterator on
leaves. -/
structure Ends (c c' : Cursor κ) (r : Scan κ) : Prop where
  fibers : c'.fibers = c.before ++ r.rest
  state : c'.state = r.state
  erased : c'.erased = c.erased ++ r.erased
  taken : c'.taken = r.taken
  tickleMe : c'.tickleMe = (c.tickleMe || r.tickleMe)

/-- The loop ends as the scan says: at `end()` it goes wrong exactly if there is no scan. -/
def Does (c : Cursor κ) : Option (Scan κ) → Result κ → Prop
  | none, res => res = .fault
  | some r, res => ∃ c', res = .done c' ∧ c.Ends c' r

theorem Does.map {c₁ : Cursor κ} {o : Option (Scan κ)} {res : Result κ} {g : Scan κ → Scan κ}
    (h : c₁.Does o res) (hg : ∀ c' r, c₁.Ends c' r → c.Ends c' (g r)) : c.Does (o.map g) res := by
  cases o with
  | none => exact h
  | some r =>
    obtain ⟨c', hres, hends⟩ := h
    exact ⟨c', hres, hg c' r hends⟩

/-- The loop over the iterator ends, and does what the scan of the list says. -/
theorem loop_scan (tid : ThreadId) (hn : c.rest.length < n) (ht : c.taken = none) :
    c.Does (Scan.scan tid c.rest c.state) (c.loop tid n) := by
  induction n generalizing c with
  | zero => omega
  | succ n ih =>
    cases hc : c.rest with
    | nil =>
      rw [loop_ended hc, Scan.scan]
      exact ⟨c, rfl, congrArg (c.before ++ ·) hc, rfl, (List.append_nil _).symm, ht,
        (Bool.or_false _).symm⟩
    | cons e es =>
      have hlen : es.length < n := by
        rw [hc, List.length_cons] at hn
        omega
      cases treats tid e c.state with
      | pinned hp =>
        rw [scan_pinned hp, loop_next (round_pinned hc hp)]
        refine (ih (c := { c.passed e es with tickleMe := true }) hlen ht).map fun c' r h => ?_
        exact ⟨by rw [h.fibers]; exact List.append_assoc .., h.state, h.erased, h.taken,
          by rw [h.tickleMe]; exact (Bool.or_true _).symm⟩
      | ready f hp hf hs =>
        rw [scan_ready hp hf hs, loop_next (round_ready hc hp hf hs)]
        refine (ih (c := { c.passed e es with state := Function.update c.state f .ready })
          hlen ht).map fun c' r h => ?_
        exact ⟨by rw [h.fibers]; exact List.append_assoc .., h.state, h.erased, h.taken, h.tickleMe⟩
      | busy f hp hf hs =>
        rw [scan_busy hp hf hs, loop_next (round_busy hc hp hf hs)]
        refine (ih (c := c.passed e es) hlen ht).map fun c' r h => ?_
        exact ⟨by rw [h.fibers]; exact List.append_assoc .., h.state, h.erased, h.taken, h.tickleMe⟩
      | take hp hs =>
        rw [scan_take hp hs, loop_broke (round_take hc hp hs)]
        exact ⟨_, rfl, rfl, rfl, (List.append_nil _).symm, rfl, (Bool.or_true _).symm⟩
      | erase f hp hf hs =>
        rw [scan_erase hp hf hs]
        cases es with
        | nil => exact loop_fault (round_erase hc hp hf hs)
        | cons p es =>
          rw [loop_next (round_erase hc hp hf hs)]
          rw [List.length_cons] at hlen
          refine (ih (c := { c with
            before := c.before ++ [p], rest := es, pos := c.pos + 2
            looked := c.looked ++ [c.pos], erased := c.erased ++ [e] })
            (show es.length < n by omega) ht).map fun c' r h => ?_
          exact ⟨by rw [h.fibers]; exact List.append_assoc .., h.state,
            by rw [h.erased]; exact List.append_assoc .., h.taken, h.tickleMe⟩

/-- The loop never runs out of fuel: every round moves the iterator on. -/
theorem loop_ends (hn : c.rest.length < n) (ht : c.taken = none) :
    c.loop tid n ≠ .outOfFuel := by
  have h := loop_scan tid hn ht
  cases hs : Scan.scan tid c.rest c.state with
  | none =>
    rw [hs] at h
    rw [show c.loop tid n = .fault from h]
    nofun
  | some r =>
    rw [hs] at h
    obtain ⟨c', hd, -⟩ := h
    rw [hd]
    nofun

/-- Where the loop has looked: at the first `k` positions, up to the entry it took or, if it took
none, to the last. -/
structure InOrder (es : List (Entry κ)) (looked : List ℕ) (taken : Option (Entry κ)) : Prop where
  range : looked = List.range looked.length
  all : taken = none → looked.length = es.length
  last : ∀ e, taken = some e → 0 < looked.length ∧ es[looked.length - 1]? = some e

/-- The loop over `es` has looked at every position before the iterator's, and taken none. -/
structure At (es : List (Entry κ)) (c : Cursor κ) : Prop where
  rest : c.rest = es.drop c.pos
  looked : c.looked = List.range c.pos
  le : c.pos ≤ es.length
  taken : c.taken = none

variable {all : List (Entry κ)}

theorem At.get (h : c.At all) (hc : c.rest = e :: es) :
    all[c.pos]? = some e ∧ all.drop (c.pos + 1) = es ∧ c.pos + 1 ≤ all.length := by
  have hd : all.drop c.pos = e :: es := h.rest.symm.trans hc
  have hg : all[c.pos]? = some e := by
    have h0 := congrArg (·[0]?) hd
    simpa only [List.getElem?_drop, Nat.add_zero, List.getElem?_cons_zero] using h0
  have ht : all.drop (c.pos + 1) = es := by
    rw [← List.tail_drop, hd, List.tail_cons]
  obtain ⟨hlt, -⟩ := List.getElem?_eq_some_iff.mp hg
  exact ⟨hg, ht, hlt⟩

theorem At.passed (h : c.At all) (hc : c.rest = e :: es) : (c.passed e es).At all where
  rest := (h.get hc).2.1.symm
  looked := by
    show c.looked ++ [c.pos] = List.range (c.pos + 1)
    rw [h.looked, List.range_succ]
  le := (h.get hc).2.2
  taken := h.taken

/-- A list with no fiber that has ended before the entry to take is looked at in order. -/
theorem loop_looks (hn : c.rest.length < n) (h : c.At all)
    (hm : metFinished tid c.rest c.state = false) :
    ∃ c', c.loop tid n = .done c' ∧ InOrder all c'.looked c'.taken := by
  induction n generalizing c with
  | zero => omega
  | succ n ih =>
    cases hc : c.rest with
    | nil =>
      have hle : all.length ≤ c.pos := List.drop_eq_nil_iff.mp (h.rest.symm.trans hc)
      refine ⟨c, loop_ended hc, ⟨?_, fun _ => ?_, fun e he => ?_⟩⟩
      · rw [h.looked, List.length_range]
      · rw [h.looked, List.length_range]
        exact Nat.le_antisymm h.le hle
      · rw [h.taken] at he
        cases he
    | cons e es =>
      have hlen : es.length < n := by
        rw [hc, List.length_cons] at hn
        omega
      have hat := h.passed hc
      rw [hc] at hm
      cases treats tid e c.state with
      | pinned hp =>
        rw [loop_next (round_pinned hc hp)]
        exact ih (c := { c.passed e es with tickleMe := true }) hlen
          ⟨hat.rest, hat.looked, hat.le, hat.taken⟩ ((met_pinned hp).symm.trans hm)
      | ready f hp hf hs =>
        rw [loop_next (round_ready hc hp hf hs)]
        exact ih (c := { c.passed e es with state := Function.update c.state f .ready }) hlen
          ⟨hat.rest, hat.looked, hat.le, hat.taken⟩ ((met_ready hp hf hs).symm.trans hm)
      | busy f hp hf hs =>
        rw [loop_next (round_busy hc hp hf hs)]
        exact ih (c := c.passed e es) hlen hat ((met_busy hp hf hs).symm.trans hm)
      | take hp hs =>
        rw [loop_broke (round_take hc hp hs)]
        refine ⟨_, rfl, ⟨?_, nofun, fun e' he => ?_⟩⟩
        · show c.looked ++ [c.pos] = List.range (c.looked ++ [c.pos]).length
          rw [show c.looked ++ [c.pos] = List.range (c.pos + 1) from hat.looked, List.length_range]
        · cases he
          have hl : (c.looked ++ [c.pos]).length = c.pos + 1 := by
            rw [show c.looked ++ [c.pos] = List.range (c.pos + 1) from hat.looked,
              List.length_range]
          refine ⟨?_, ?_⟩
          · show 0 < (c.looked ++ [c.pos]).length
            omega
          · show all[(c.looked ++ [c.pos]).length - 1]? = some e
            rw [hl]
            exact (h.get hc).1
      | erase f hp hf hs =>
        rw [met_erase hp hf hs] at hm
        cases hm

/-- A round that comes to an entry looks at it, or goes wrong. -/
theorem round_looks (tid : ThreadId) (hc : c.rest = e :: es) : c.round tid = .fault ∨
    ∃ c₁, (c.round tid = .next c₁ ∨ c.round tid = .broke c₁) ∧
      c₁.looked = c.looked ++ [c.pos] := by
  cases treats tid e c.state with
  | pinned hp => exact .inr ⟨_, .inl (round_pinned hc hp), rfl⟩
  | ready f hp hf hs => exact .inr ⟨_, .inl (round_ready hc hp hf hs), rfl⟩
  | busy f hp hf hs => exact .inr ⟨_, .inl (round_busy hc hp hf hs), rfl⟩
  | take hp hs => exact .inr ⟨_, .inr (round_take hc hp hs), rfl⟩
  | erase f hp hf hs =>
    cases es with
    | nil => exact .inl (round_erase hc hp hf hs)
    | cons p es => exact .inr ⟨_, .inl (round_erase hc hp hf hs), rfl⟩

theorem looked_prefix (h : c.loop tid n = .done c') : c.looked <+: c'.looked := by
  induction n generalizing c with
  | zero => cases h
  | succ n ih =>
    cases hc : c.rest with
    | nil =>
      rw [loop_ended hc] at h
      cases h
      exact List.prefix_refl _
    | cons e es =>
      have hpre : c.looked <+: c.looked ++ [c.pos] := List.prefix_append ..
      rcases round_looks tid hc with hr | ⟨c₁, hr | hr, hl⟩
      · rw [loop_fault hr] at h
        cases h
      · rw [loop_next hr] at h
        exact hpre.trans (hl ▸ ih h)
      · rw [loop_broke hr] at h
        cases h
        rwa [hl]

/-- The loop looks at the entry of its iterator. -/
theorem looked_head (hc : c.rest = e :: es) (h : c.loop tid n = .done c') :
    c.looked ++ [c.pos] <+: c'.looked := by
  cases n with
  | zero => cases h
  | succ n =>
    rcases round_looks tid hc with hr | ⟨c₁, hr | hr, hl⟩
    · rw [loop_fault hr] at h
      cases h
    · rw [loop_next hr] at h
      rw [← hl]
      exact looked_prefix h
    · rw [loop_broke hr] at h
      cases h
      rw [hl]

/-- Behind a fiber that has ended the loop leaves a position out, if it does not go wrong. -/
theorem loop_skips (h : c.At all) (hm : metFinished tid c.rest c.state = true)
    (hd : c.loop tid n = .done c') : ¬ InOrder all c'.looked c'.taken := by
  induction n generalizing c with
  | zero => cases hd
  | succ n ih =>
    cases hc : c.rest with
    | nil =>
      rw [hc] at hm
      cases hm
    | cons e es =>
      have hat := h.passed hc
      rw [hc] at hm
      cases treats tid e c.state with
      | pinned hp =>
        rw [loop_next (round_pinned hc hp)] at hd
        exact ih (c := { c.passed e es with tickleMe := true })
          ⟨hat.rest, hat.looked, hat.le, hat.taken⟩ ((met_pinned hp).symm.trans hm) hd
      | ready f hp hf hs =>
        rw [loop_next (round_ready hc hp hf hs)] at hd
        exact ih (c := { c.passed e es with state := Function.update c.state f .ready })
          ⟨hat.rest, hat.looked, hat.le, hat.taken⟩ ((met_ready hp hf hs).symm.trans hm) hd
      | busy f hp hf hs =>
        rw [loop_next (round_busy hc hp hf hs)] at hd
        exact ih (c := c.passed e es) hat ((met_busy hp hf hs).symm.trans hm) hd
      | take hp hs =>
        rw [met_take hp hs] at hm
        cases hm
      | erase f hp hf hs =>
        have hlook : c.looked ++ [c.pos] = List.range (c.pos + 1) := hat.looked
        cases es with
        | nil =>
          rw [loop_fault (round_erase hc hp hf hs)] at hd
          cases hd
        | cons p es =>
          rw [loop_next (round_erase hc hp hf hs)] at hd
          -- the entry `p` stands at `c.pos + 1`: no later round looks there
          have hlt : c.pos + 2 ≤ all.length := by
            have hlen := congrArg List.length hat.rest
            have hpos : (c.passed e (p :: es)).pos = c.pos + 1 := rfl
            rw [List.length_drop, hpos] at hlen
            have : (c.passed e (p :: es)).rest.length = es.length + 1 := rfl
            omega
          intro ho
          cases hes : es with
          | nil =>
            subst hes
            cases n with
            | zero => cases hd
            | succ n =>
              rw [loop_ended rfl] at hd
              cases hd
              have hall := ho.all h.taken
              rw [show c.looked ++ [c.pos] = List.range (c.pos + 1) from hlook,
                List.length_range] at hall
              omega
          | cons q qs =>
            subst hes
            obtain ⟨l, hl⟩ := looked_head (e := q) rfl hd
            have hget : c'.looked[c.pos + 1]? = some (c.pos + 2) := by
              rw [← hl, show (c.looked ++ [c.pos]) ++ [c.pos + 2] ++ l =
                List.range (c.pos + 1) ++ ([c.pos + 2] ++ l) by rw [hlook, List.append_assoc],
                List.getElem?_append_right (by rw [List.length_range]), List.length_range,
                Nat.sub_self]
              rfl
            rw [ho.range] at hget
            obtain ⟨hk, hv⟩ := List.getElem?_eq_some_iff.mp hget
            rw [List.getElem_range] at hv
            omega

end Loop

end Cursor

/-! ## When the loop is as it should be -/

section Clear

/-- The entry is of a fiber that has ended, and for any thread but this one. -/
def Entry.Erasable (tid : ThreadId) (state : FiberStates) (e : Entry κ) : Prop :=
  ¬ e.Pinned tid ∧ ∃ f, e.fiber = some f ∧ (state f).finished = true

/-- The scan that comes to the entry, with `before` in front of it, dispatches it: a callback, a
`READY` fiber, or one that an earlier entry makes `READY`. -/
def Entry.Dispatched (tid : ThreadId) (state : FiberStates) (before : List (Entry κ))
    (e : Entry κ) : Prop :=
  ¬ e.Pinned tid ∧ ∀ f, e.fiber = some f → state f = .ready ∨
    (state f = .init ∨ state f = .hold) ∧ ∃ d ∈ before, ¬ d.Pinned tid ∧ d.fiber = some f

/-- Each entry of a fiber that has ended stands behind one that is dispatched. -/
def Clear (tid : ThreadId) (es : List (Entry κ)) (state : FiberStates) : Prop :=
  ∀ before e after, es = before ++ e :: after → e.Erasable tid state →
    ∃ front d back, before = front ++ d :: back ∧ d.Dispatched tid state front

/-- An entry that is neither erased nor dispatched makes no difference, if the states as it leaves
them show the same entries as erased and as dispatched. -/
theorem clear_cons {state' : FiberStates} (he : ¬ e.Erasable tid state)
    (hd : ¬ e.Dispatched tid state [])
    (hes : ∀ d : Entry κ, d.Erasable tid state' ↔ d.Erasable tid state)
    (hds : ∀ front (d : Entry κ),
      d.Dispatched tid state (e :: front) ↔ d.Dispatched tid state' front) :
    Clear tid (e :: es) state ↔ Clear tid es state' := by
  constructor
  · intro h before d after heq hfin
    obtain ⟨front, g, back, hb, hg⟩ :=
      h (e :: before) d after (by rw [heq]; rfl) ((hes d).mp hfin)
    cases front with
    | nil =>
      rw [List.nil_append, List.cons.injEq] at hb
      exact absurd (hb.1 ▸ hg) hd
    | cons e' front =>
      rw [List.cons_append, List.cons.injEq] at hb
      obtain ⟨rfl, hb⟩ := hb
      exact ⟨front, g, back, hb, (hds front g).mp hg⟩
  · intro h before d after heq hfin
    cases before with
    | nil =>
      rw [List.nil_append, List.cons.injEq] at heq
      exact absurd (heq.1 ▸ hfin) he
    | cons e' before =>
      rw [List.cons_append, List.cons.injEq] at heq
      obtain ⟨rfl, heq⟩ := heq
      obtain ⟨front, g, back, hb, hg⟩ := h before d after heq ((hes d).mpr hfin)
      exact ⟨e :: front, g, back, by rw [hb]; rfl, (hds front g).mpr hg⟩

/-- What stands before an entry matters only as far as it makes fibers `READY`. -/
theorem dispatched_cons {front : List (Entry κ)} {d : Entry κ}
    (h : ¬ e.Pinned tid → ∀ f, e.fiber = some f → state f ≠ .init ∧ state f ≠ .hold) :
    d.Dispatched tid state (e :: front) ↔ d.Dispatched tid state front := by
  refine and_congr_right fun _ => forall₂_congr fun f _ => or_congr_right ?_
  refine and_congr_right fun hs => ⟨?_, ?_⟩
  · rintro ⟨g, hg, hgp, hgf⟩
    rcases List.mem_cons.mp hg with rfl | hg
    · rcases hs with hs | hs
      · exact absurd hs (h hgp f hgf).1
      · exact absurd hs (h hgp f hgf).2
    · exact ⟨g, hg, hgp, hgf⟩
  · exact fun ⟨g, hg, hgp, hgf⟩ => ⟨g, List.mem_cons_of_mem _ hg, hgp, hgf⟩

/-- An entry that the loop sets to `READY` counts for those behind it. -/
theorem dispatched_cons_ready {front : List (Entry κ)} {d : Entry κ} {f : ℕ}
    (hp : ¬ e.Pinned tid) (hf : e.fiber = some f) (hs : state f = .init ∨ state f = .hold) :
    d.Dispatched tid state (e :: front) ↔
      d.Dispatched tid (Function.update state f .ready) front := by
  refine and_congr_right fun _ => forall₂_congr fun g _ => ?_
  by_cases hgf : g = f
  · -- the entry itself makes its fiber `READY`
    subst hgf
    rw [Function.update_self]
    exact iff_of_true (.inr ⟨hs, e, List.mem_cons_self, hp, hf⟩) (.inl rfl)
  · rw [Function.update_of_ne hgf]
    refine or_congr_right (and_congr_right fun _ => ⟨?_, ?_⟩)
    · rintro ⟨d', hd', hp', hf'⟩
      rcases List.mem_cons.mp hd' with rfl | hd'
      · rw [hf] at hf'
        cases hf'
        exact absurd rfl hgf
      · exact ⟨d', hd', hp', hf'⟩
    · exact fun ⟨d', hd', h'⟩ => ⟨d', List.mem_cons_of_mem _ hd', h'⟩

theorem clear_iff : Clear tid es state ↔ metFinished tid es state = false := by
  induction es generalizing state with
  | nil =>
    refine iff_of_true (fun before e after h => ?_) rfl
    cases before <;> cases h
  | cons e es ih =>
    cases treats tid e state with
    | pinned hp =>
      rw [met_pinned hp, ← ih]
      exact clear_cons (fun h => h.1 hp) (fun h => h.1 hp) (fun _ => Iff.rfl)
        fun _ _ => dispatched_cons fun h => absurd hp h
    | ready f hp hf hs =>
      rw [met_ready hp hf hs, ← ih]
      have hfin : ∀ g, (Function.update state f .ready g).finished = (state g).finished := by
        intro g
        by_cases hgf : g = f
        · subst hgf
          rw [Function.update_self]
          rcases hs with hs | hs <;> rw [hs] <;> rfl
        · rw [Function.update_of_ne hgf]
      refine clear_cons ?_ ?_ (fun d => ?_) fun front d => dispatched_cons_ready hp hf hs
      · rintro ⟨-, g, hg, hgs⟩
        rw [hf] at hg
        cases hg
        rcases hs with hs | hs <;> rw [hs] at hgs <;> cases hgs
      · rintro ⟨-, hd⟩
        rcases hd f hf with hr | ⟨-, d, hd, -⟩
        · rcases hs with hs | hs <;> rw [hs] at hr <;> cases hr
        · cases hd
      · simp only [Entry.Erasable, hfin]
    | busy f hp hf hs =>
      rw [met_busy hp hf hs, ← ih]
      refine clear_cons ?_ ?_ (fun _ => Iff.rfl) fun _ _ => dispatched_cons fun _ g hg => ?_
      · rintro ⟨-, g, hg, hgs⟩
        rw [hf] at hg
        cases hg
        rw [hs] at hgs
        cases hgs
      · rintro ⟨-, hd⟩
        rcases hd f hf with hr | ⟨-, d, hd, -⟩
        · rw [hs] at hr
          cases hr
        · cases hd
      · rw [hf] at hg
        cases hg
        rw [hs]
        exact ⟨nofun, nofun⟩
    | take hp hs =>
      rw [met_take hp hs]
      refine iff_of_true (fun before d after heq hfin => ?_) rfl
      cases before with
      | nil =>
        rw [List.nil_append, List.cons.injEq] at heq
        obtain ⟨rfl, -⟩ := heq
        obtain ⟨-, g, hg, hgs⟩ := hfin
        rw [hs g hg] at hgs
        cases hgs
      | cons e' before =>
        rw [List.cons_append, List.cons.injEq] at heq
        obtain ⟨rfl, -⟩ := heq
        exact ⟨[], e, before, rfl, hp, fun g hg => .inl (hs g hg)⟩
    | erase f hp hf hs =>
      rw [met_erase hp hf hs]
      refine iff_of_false (fun h => ?_) nofun
      obtain ⟨front, d, back, hb, -⟩ := h [] e es rfl ⟨hp, f, hf, hs⟩
      cases front <;> cases hb

end Clear

/-- What the loop leaves queued: all entries, in order, but the one it took and those of the fibers
that have ended that it erased. -/
structure Cursor.Leaves (es : List (Entry κ)) (state : FiberStates) (c : Cursor κ) : Prop where
  sublist : c.fibers.Sublist es
  perm : (c.taken.toList ++ c.erased ++ c.fibers).Perm es
  erased : ∀ e ∈ c.erased, ∃ f, e.fiber = some f ∧ (state f).finished = true

/-- The loop over `m_fibers` ends and never leaves the list, looks at the entries in order up to the
one it takes, and leaves the others. -/
def Orderly (tid : ThreadId) (es : List (Entry κ)) (state : FiberStates) : Prop :=
  ∃ c, Cursor.loop tid (es.length + 1) { rest := es, state } = .done c ∧
    Cursor.InOrder es c.looked c.taken ∧ c.Leaves es state

theorem FiberState.finished_of {s : FiberState} (hr : s.runnable = false) (he : s ≠ .exec) :
    s.finished = true := by
  cases s <;> first | rfl | exact absurd rfl he | cases hr

theorem scan_orderly_iff (tid : ThreadId) (es : List (Entry κ)) (state : FiberStates) :
    Orderly tid es state ↔ Clear tid es state := by
  have hat : ({ rest := es, state } : Cursor κ).At es := ⟨rfl, rfl, Nat.zero_le _, rfl⟩
  rw [clear_iff]
  constructor
  · rintro ⟨c, hd, hlook, -⟩
    by_contra hm
    exact Cursor.loop_skips hat (Bool.eq_true_of_not_eq_false hm) hd hlook
  · intro hm
    obtain ⟨c, hd, hlook⟩ := Cursor.loop_looks (Nat.lt_succ_self es.length) hat hm
    refine ⟨c, hd, hlook, ?_⟩
    have hdoes := Cursor.loop_scan (c := { rest := es, state }) tid
      (Nat.lt_succ_self es.length) rfl
    cases hr : Scan.scan tid es state with
    | none =>
      rw [hr] at hdoes
      cases hd.symm.trans hdoes
    | some r =>
      rw [hr] at hdoes
      obtain ⟨c', hd', hends⟩ := hdoes
      cases hd.symm.trans hd'
      have hs := Scan.scans_of_scan hr
      refine ⟨?_, ?_, fun e he => ?_⟩
      · rw [hends.fibers]
        exact hs.rest_sublist
      · rw [hends.fibers, hends.taken, hends.erased]
        exact hs.perm
      · rw [hends.erased] at he
        obtain ⟨f, hf, -, hrun, hexec⟩ := hs.erased he
        exact ⟨f, hf, FiberState.finished_of hrun hexec⟩

/-- The queue's one entry is a fiber that has ended: the iterator is moved past `end()`. -/
theorem scan_past_end :
    ¬ Orderly 1 [({ fiber := some 0, id := 0 } : Entry Unit)] (fun _ => .term) := by
  rintro ⟨c, h, -⟩
  cases h

end Ddg
