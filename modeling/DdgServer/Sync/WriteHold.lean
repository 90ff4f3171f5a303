import DdgServer.Sync.Guard

/-!
# Sections under an `RWMutex`

A `WriteLock` never gives its hold back (`DdgServer/Sync/Guard.lean`): the thread keeps it after the
section. Its next `rdlock()` or `wrlock()` fails with `EDEADLK`, the guard goes on all the same, and
a `ReadLock` then releases that hold. What the guards are worth where no thread is in two sections
at once and an acquisition fails only so:

* `Entered`, `entered_inductive`: who is in a section, and whose hold the mutex has.
* `writers_exclude`: nobody else is in a section while a thread writes, and no release is undefined.
* `writeHold_kept`: after a thread has written, nobody else gets in until it has released a
  `ReadLock`.
-/

namespace Ddg.RWMutex

variable {θ : Type}

/-- The thread that is in a section with the guard: a `WriteLock`, or one with its flag set. -/
def inside : Option (θ × Guard) → Option θ
  | some (t, g) => if g.islocked || g.cls.acquire == .wrlock then some t else none
  | none => none

/-- The thread that is in a section with the guard `i`. -/
def Guarded.who (s : Guarded θ) (i : ℕ) : Option θ := s.guards[i]?.bind inside

variable [DecidableEq θ]

/-- A thread that makes a guard is in no section, and its acquisition fails iff the thread has the
write hold. No guard is locked again. -/
def Flat (s : Guarded θ) : Label θ → Prop
  | .make t c ok => (c = ReadScopedLockImpl ∨ c = WriteScopedLockImpl) ∧
      (∀ i < s.guards.length, s.who i ≠ some t) ∧ ok = !decide (s.mutex.writer = some t)
  | .lock .. => False
  | .unlock _ | .destroy _ => True

instance : ∀ (s : Guarded θ) (a : Label θ), Decidable (Flat s a)
  | s, .make t c ok => inferInstanceAs (Decidable ((c = ReadScopedLockImpl ∨ _) ∧
      (∀ i < s.guards.length, s.who i ≠ some t) ∧ ok = !decide (s.mutex.writer = some t)))
  | _, .lock .. => .isFalse id
  | _, .unlock _ | _, .destroy _ => .isTrue trivial

omit [DecidableEq θ] in
/-- A thread is in one section at a time. The mutex has the read holds of the guards, or it has the
write hold of a thread, and then only this thread is in a section. -/
structure Entered (s : Guarded θ) : Prop where
  classes : ∀ t g, some (t, g) ∈ s.guards →
    g.cls = ReadScopedLockImpl ∨ g = WriteScopedLockImpl.make
  one : ∀ i j t, s.who i = some t → s.who j = some t → i = j
  free : s.mutex.writer = none → s.mutex.readers = (s.guards.map (holds .rdlock)).sum ∧
    ∀ t g, some (t, g) ∈ s.guards → g.cls = ReadScopedLockImpl
  held : ∀ u, s.mutex.writer = some u → s.mutex.readers = 0 ∧ ∀ i t, s.who i = some t → t = u

variable {s s' : Guarded θ} {m : RWMutex θ} {t u : θ} {g : Guard} {i j : ℕ}
  {x : Option (θ × Guard)}

omit [DecidableEq θ] in
theorem who_eq_some : s.who i = some t ↔ ∃ x, s.guards[i]? = some x ∧ inside x = some t :=
  Option.bind_eq_some_iff

omit [DecidableEq θ] in
theorem who_append (h : Guarded.who ⟨m, s.guards ++ [x]⟩ i = some t) :
    s.who i = some t ∨ (i = s.guards.length ∧ inside x = some t) := by
  obtain ⟨y, hy, hin⟩ := who_eq_some.mp h
  change (s.guards ++ [x])[i]? = some y at hy
  rw [List.getElem?_append] at hy
  split at hy
  · exact .inl (who_eq_some.mpr ⟨y, hy, hin⟩)
  · rename_i hge
    obtain ⟨hlt, hget⟩ := List.getElem?_eq_some_iff.mp hy
    rw [List.length_singleton] at hlt
    refine .inr ⟨by omega, ?_⟩
    rw [List.getElem_singleton] at hget
    rw [hget]
    exact hin

omit [DecidableEq θ] in
theorem who_set (hx : inside x = none) (h : Guarded.who ⟨m, s.guards.set i x⟩ j = some t) :
    j ≠ i ∧ s.who j = some t := by
  obtain ⟨y, hy, hin⟩ := who_eq_some.mp h
  change (s.guards.set i x)[j]? = some y at hy
  rw [List.getElem?_set] at hy
  split at hy
  · split at hy
    · cases hy
      rw [hx] at hin
      cases hin
    · cases hy
  · rename_i hne
    exact ⟨fun he => hne he.symm, who_eq_some.mpr ⟨y, hy, hin⟩⟩

omit [DecidableEq θ] in
/-- A guard with a hold is in a section. -/
theorem inside_of_holds (h : 0 < holds .rdlock x) : ∃ t, inside x = some t := by
  cases x with
  | none => cases h
  | some x =>
    obtain ⟨t, g⟩ := x
    refine ⟨t, if_pos ?_⟩
    cases hl : g.islocked with
    | true => rfl
    | false => simp [holds, hl] at h

omit [DecidableEq θ] in
/-- No guard has a hold if nobody is in a section. -/
theorem holds_eq_zero (h : ∀ i t, s.who i ≠ some t) : (s.guards.map (holds .rdlock)).sum = 0 := by
  rw [List.sum_eq_zero_iff_forall_eq_nat]
  intro n hn
  obtain ⟨x, hx, rfl⟩ := List.mem_map.mp hn
  by_contra hne
  obtain ⟨t, ht⟩ := inside_of_holds (Nat.pos_of_ne_zero hne)
  obtain ⟨i, hi⟩ := List.getElem?_of_mem hx
  exact h i t (who_eq_some.mpr ⟨x, hi, ht⟩)

omit [DecidableEq θ] in
theorem who_of_locked (hi : s.guards[i]? = some (some (t, g))) (hl : g.islocked = true) :
    s.who i = some t :=
  who_eq_some.mpr ⟨_, hi, if_pos (by rw [hl]; rfl)⟩

omit [DecidableEq θ] in
theorem who_of_write (hi : s.guards[i]? = some (some (t, g))) (hc : g.cls = WriteScopedLockImpl) :
    s.who i = some t :=
  who_eq_some.mpr ⟨_, hi, if_pos (by rw [hc, Bool.or_eq_true]; exact .inr rfl)⟩

omit [DecidableEq θ] in
/-- Nobody is in a section while the mutex is free. -/
theorem Entered.nobody (h : Entered s) (hfree : s.mutex.writer = none)
    (hzero : s.mutex.readers = 0) (i : ℕ) (t : θ) : s.who i ≠ some t := by
  intro hi
  obtain ⟨hsum, hall⟩ := h.free hfree
  obtain ⟨x, hx, hin⟩ := who_eq_some.mp hi
  have hmem := List.mem_of_getElem? hx
  cases x with
  | none => cases hin
  | some x =>
    obtain ⟨u, g⟩ := x
    have hc := hall u g hmem
    cases hl : g.islocked with
    | false => simp [inside, hl, hc, ReadScopedLockImpl] at hin
    | true =>
      have hle := holds_le .rdlock hmem
      have hone : holds .rdlock (some (u, g)) = 1 := by
        simp [holds, hl, hc, ReadScopedLockImpl]
      omega

/-- A `ReadLock` with its flag set gives a hold back: its own, or the write hold of its thread. -/
theorem Entered.release (h : Entered s) (hi : s.guards[i]? = some (some (t, g)))
    (hl : g.islocked = true) (hin : inside x = none) (hzero : holds .rdlock x = 0)
    (hx : ∀ t' g', x = some (t', g') → g'.cls = ReadScopedLockImpl) :
    ∃ m, s.mutex.unlock t = some m ∧ m.writer = none ∧ Entered ⟨m, s.guards.set i x⟩ := by
  obtain ⟨hlt, hget⟩ := List.getElem?_eq_some_iff.mp hi
  have hmem : some (t, g) ∈ s.guards := List.mem_of_getElem? hi
  have hread : g.cls = ReadScopedLockImpl := by
    rcases h.classes t g hmem with hc | rfl
    · exact hc
    · cases hl
  have hone : holds .rdlock (some (t, g)) = 1 := by simp [holds, hl, hread, ReadScopedLockImpl]
  have hclasses : ∀ t' g', some (t', g') ∈ s.guards.set i x →
      some (t', g') ∈ s.guards ∨ g'.cls = ReadScopedLockImpl := by
    intro t' g' hg
    rcases List.mem_or_eq_of_mem_set hg with hg | he
    · exact .inl hg
    · exact .inr (hx t' g' he.symm)
  cases hw : s.mutex.writer with
  | none =>
    obtain ⟨hsum, hall⟩ := h.free hw
    have hset := Interleave.sum_set (holds .rdlock) hlt x
    rw [hget, hone, hzero] at hset
    have hle := holds_le .rdlock hmem
    rw [hone] at hle
    refine ⟨⟨s.mutex.readers - 1, none⟩, ?_, rfl,
      ⟨fun t' g' hg => ?_, ?_, ?_, fun u hu => by cases hu⟩⟩
    · rw [RWMutex.unlock, hw, if_neg (Option.some_ne_none t).symm, if_neg (by omega)]
    · exact (hclasses t' g' hg).elim (h.classes t' g') .inl
    · exact fun j k t' hj hk => h.one j k t' (who_set hin hj).2 (who_set hin hk).2
    · refine fun _ => ⟨?_, fun t' g' hg => (hclasses t' g' hg).elim (hall t' g') id⟩
      show s.mutex.readers - 1 = ((s.guards.set i x).map (holds .rdlock)).sum
      omega
  | some u =>
    obtain ⟨hzero', honly⟩ := h.held u hw
    have htu : t = u := honly i t (who_of_locked hi hl)
    subst htu
    -- nobody else was in a section
    have hnone : ∀ j t',
        Guarded.who ⟨{ s.mutex with writer := none }, s.guards.set i x⟩ j ≠ some t' := by
      intro j t' hj
      obtain ⟨hne, hj⟩ := who_set hin hj
      have := honly j t' hj
      subst this
      exact hne (h.one j i t' hj (who_of_locked hi hl))
    refine ⟨{ s.mutex with writer := none }, ?_, rfl,
      ⟨fun t' g' hg => ?_, ?_, ?_, fun u hu => by cases hu⟩⟩
    · rw [RWMutex.unlock, if_pos hw]
    · exact (hclasses t' g' hg).elim (h.classes t' g') .inl
    · exact fun j k t' hj _ => absurd hj (hnone j t')
    · refine fun _ => ⟨hzero'.trans (holds_eq_zero hnone).symm, fun t' g' hg => ?_⟩
      obtain ⟨j, hj⟩ := List.getElem?_of_mem hg
      rcases hclasses t' g' hg with hg' | hc
      · rcases h.classes t' g' hg' with hc | rfl
        · exact hc
        · exact absurd (who_of_write hj rfl) (hnone j t')
      · exact hc

/-- A thread that is in no section enters one. -/
theorem Entered.make {c : GuardClass} (h : Entered s)
    (hc : c = ReadScopedLockImpl ∨ c = WriteScopedLockImpl) (hout : ∀ i, s.who i ≠ some t)
    (hm : s.mutex.acquire t c.acquire (!decide (s.mutex.writer = some t)) = some m) :
    (m.writer = none ∨ m.writer = some t) ∧ Entered ⟨m, s.guards ++ [some (t, c.make)]⟩ := by
  have hclasses : ∀ t' g', some (t', g') ∈ s.guards ++ [some (t, c.make)] →
      some (t', g') ∈ s.guards ∨ (t' = t ∧ g' = c.make) := by
    intro t' g' hg
    rcases List.mem_append.mp hg with hg | hg
    · exact .inl hg
    · cases List.mem_singleton.mp hg
      exact .inr ⟨rfl, rfl⟩
  have hclass : ∀ t' g', some (t', g') ∈ s.guards ++ [some (t, c.make)] →
      g'.cls = ReadScopedLockImpl ∨ g' = WriteScopedLockImpl.make := by
    intro t' g' hg
    rcases hclasses t' g' hg with hg | ⟨-, rfl⟩
    · exact h.classes t' g' hg
    · rcases hc with rfl | rfl
      · exact .inl rfl
      · exact .inr rfl
  have hin : ∀ u, inside (some (t, c.make)) = some u → u = t := by
    intro u hu
    rw [inside] at hu
    split at hu
    · exact (Option.some.inj hu).symm
    · cases hu
  have hone : ∀ i j u, Guarded.who ⟨m, s.guards ++ [some (t, c.make)]⟩ i = some u →
      Guarded.who ⟨m, s.guards ++ [some (t, c.make)]⟩ j = some u → i = j := by
    intro i j u hi hj
    rcases who_append hi with hi | ⟨hi, hi'⟩ <;> rcases who_append hj with hj | ⟨hj, hj'⟩
    · exact h.one i j u hi hj
    · cases hin u hj'
      exact absurd hi (hout i)
    · cases hin u hi'
      exact absurd hj (hout j)
    · rw [hi, hj]
  by_cases hw : s.mutex.writer = some t
  · -- `EDEADLK`
    have hm' : m = s.mutex := by
      rw [decide_eq_true hw] at hm
      rcases hc with rfl | rfl <;> cases hm <;> rfl
    subst hm'
    obtain ⟨hzero, honly⟩ := h.held t hw
    refine ⟨.inr hw, hclass, hone, fun hn => ?_, fun u hu => ⟨?_, fun i t' hi => ?_⟩⟩
    · cases hw.symm.trans hn
    · exact hzero
    · cases hw.symm.trans hu
      rcases who_append hi with hi | ⟨-, hi⟩
      · exact honly i t' hi
      · exact hin t' hi
  · rw [decide_eq_false hw] at hm
    rcases hc with rfl | rfl
    · obtain ⟨hfree, rfl⟩ : s.mutex.writer = none ∧
          { s.mutex with readers := s.mutex.readers + 1 } = m := by
        simpa [RWMutex.acquire, ReadScopedLockImpl] using hm
      obtain ⟨hsum, hall⟩ := h.free hfree
      refine ⟨.inl hfree, hclass, hone, fun _ => ⟨?_, fun t' g' hg => ?_⟩, fun u hu => ?_⟩
      · show s.mutex.readers + 1 = _
        rw [hsum, List.map_append, List.sum_append]
        rfl
      · rcases hclasses t' g' hg with hg | ⟨-, rfl⟩
        · exact hall t' g' hg
        · rfl
      · cases hfree.symm.trans hu
    · obtain ⟨⟨hfree, hzero⟩, rfl⟩ : (s.mutex.writer = none ∧ s.mutex.readers = 0) ∧
          { s.mutex with writer := some t } = m := by
        simpa [RWMutex.acquire, WriteScopedLockImpl] using hm
      obtain ⟨hsum, hall⟩ := h.free hfree
      refine ⟨.inr rfl, hclass, hone, (fun hn => by cases hn),
        fun u hu => ⟨hzero, fun i t' hi => ?_⟩⟩
      cases hu
      rcases who_append hi with hi | ⟨-, hi⟩
      · exact absurd hi (h.nobody hfree hzero i t')
      · exact hin t' hi

/-- What a step of a thread does that is in one section at a time. -/
inductive FlatStep (s : Guarded θ) : Label θ → Guarded θ → Prop
  | make {t : θ} {c : GuardClass} {ok : Bool} {m : RWMutex θ}
    (hc : c = ReadScopedLockImpl ∨ c = WriteScopedLockImpl) (hout : ∀ i, s.who i ≠ some t)
    (hm : s.mutex.acquire t c.acquire (!decide (s.mutex.writer = some t)) = some m) :
    FlatStep s (.make t c ok) ⟨m, s.guards ++ [some (t, c.make)]⟩
  /-- `unlock()` of a guard without its flag. -/
  | same {i : ℕ} : FlatStep s (.unlock i) s
  | gone {i : ℕ} {t : θ} {g : Guard} (hi : s.guards[i]? = some (some (t, g)))
    (hl : g.islocked = false) : FlatStep s (.destroy i) { s with guards := s.guards.set i none }
  | release {a : Label θ} {i : ℕ} {t : θ} {g : Guard} {m : RWMutex θ} {x : Option (θ × Guard)}
    (ha : a = .unlock i ∨ a = .destroy i) (hi : s.guards[i]? = some (some (t, g)))
    (hl : g.islocked = true) (hm : s.mutex.unlock t = some m)
    (hx : x = some (t, { g with islocked := false }) ∨ x = none) :
    FlatStep s a ⟨m, s.guards.set i x⟩

theorem flatStep_of_step {a : Label θ} (hs : s.step a = some s') (hf : Flat s a) :
    FlatStep s a s' := by
  cases a with
  | make t c ok =>
    obtain ⟨hc, hout, rfl⟩ := hf
    obtain ⟨m, hm, rfl⟩ := Option.map_eq_some_iff.mp hs
    refine .make hc (fun i hi => ?_) hm
    obtain ⟨x, hx, -⟩ := who_eq_some.mp hi
    exact hout i (List.getElem?_eq_some_iff.mp hx).1 hi
  | lock => exact hf.elim
  | unlock i =>
    simp only [Guarded.step] at hs
    split at hs
    · rename_i t g hi
      cases hl : g.islocked with
      | false =>
        simp only [Guard.unlock, hl, Bool.false_eq_true, if_false] at hs
        cases hs
        exact .same
      | true =>
        simp only [Guard.unlock, hl, if_true] at hs
        obtain ⟨m, hm, rfl⟩ := Option.map_eq_some_iff.mp hs
        exact .release (.inl rfl) hi hl hm (.inl rfl)
    · cases hs
  | destroy i =>
    simp only [Guarded.step] at hs
    split at hs
    · rename_i t g hi
      cases hl : g.islocked with
      | false =>
        simp only [Guard.unlock, hl, Bool.false_eq_true, if_false] at hs
        cases hs
        exact .gone hi hl
      | true =>
        simp only [Guard.unlock, hl, if_true] at hs
        obtain ⟨m, hm, rfl⟩ := Option.map_eq_some_iff.mp hs
        exact .release (.inr rfl) hi hl hm (.inr rfl)
    · cases hs

omit [DecidableEq θ] in
/-- A guard without its flag is destroyed. -/
theorem Entered.gone (h : Entered s) (hi : s.guards[i]? = some (some (t, g)))
    (hl : g.islocked = false) : Entered { s with guards := s.guards.set i none } := by
  obtain ⟨hlt, hget⟩ := List.getElem?_eq_some_iff.mp hi
  have hold : ∀ t' g', some (t', g') ∈ s.guards.set i none → some (t', g') ∈ s.guards := by
    intro t' g' hg
    rcases List.mem_or_eq_of_mem_set hg with hg | he
    · exact hg
    · cases he
  refine ⟨fun t' g' hg => h.classes t' g' (hold t' g' hg), fun j k t' hj hk => ?_, fun hw => ?_,
    fun u hu => ?_⟩
  · exact h.one j k t' (who_set rfl hj).2 (who_set rfl hk).2
  · obtain ⟨hsum, hall⟩ := h.free hw
    refine ⟨?_, fun t' g' hg => hall t' g' (hold t' g' hg)⟩
    have hset := Interleave.sum_set (holds .rdlock) hlt none
    have hzero : holds .rdlock (some (t, g)) = 0 := by simp [holds, hl]
    rw [hget, hzero] at hset
    exact hsum.trans hset.symm
  · obtain ⟨hzero, honly⟩ := h.held u hu
    exact ⟨hzero, fun j t' hj => honly j t' (who_set rfl hj).2⟩

/-- A guard that loses its flag. -/
theorem unlocked_release (h : Entered s) (hi : s.guards[i]? = some (some (t, g)))
    (hl : g.islocked = true) (hx : x = some (t, { g with islocked := false }) ∨ x = none) :
    ∃ m, s.mutex.unlock t = some m ∧ m.writer = none ∧ Entered ⟨m, s.guards.set i x⟩ := by
  rcases hx with rfl | rfl
  · have hread : g.cls = ReadScopedLockImpl := by
      rcases h.classes t g (List.mem_of_getElem? hi) with hc | rfl
      · exact hc
      · cases hl
    refine h.release hi hl ?_ rfl ?_
    · rw [inside, hread]
      rfl
    · rintro t' g' ⟨⟩
      exact hread
  · exact h.release hi hl rfl rfl (fun t g hx => by cases hx)

theorem entered_inductive (θ : Type) [DecidableEq θ] : (sys θ).Inductive Flat Entered where
  init s hs := by
    cases hs
    refine ⟨fun t g hg => absurd hg List.not_mem_nil, fun i j t hi => ?_, fun _ => ⟨rfl, ?_⟩, ?_⟩
    · cases hi
    · exact fun t g hg => absurd hg List.not_mem_nil
    · exact fun u hu => by cases hu
  step s a s' h hf hs := by
    cases flatStep_of_step hs hf with
    | make hc hout hm => exact (h.make hc hout hm).2
    | same => exact h
    | gone hi hl => exact h.gone hi hl
    | release ha hi hl hm hx =>
      obtain ⟨m, hm', -, he⟩ := unlocked_release h hi hl hx
      cases hm.symm.trans hm'
      exact he

/-- **Writers exclude everybody.** Where a thread is in one section at a time and an acquisition
fails only with `EDEADLK`: while a thread has a `WriteLock`, nobody is in another section; and each
guard can give back what its flag says, so that no `unlock()` of the mutex is undefined. -/
theorem writers_exclude (h : (sys θ).Reach Flat s) :
    (∀ i j t g u, s.guards[i]? = some (some (t, g)) → g.cls = WriteScopedLockImpl →
      s.who j = some u → u = t ∧ j = i) ∧
    ∀ i t g, s.guards[i]? = some (some (t, g)) →
      (∃ s', s.step (.unlock i) = some s') ∧ ∃ s', s.step (.destroy i) = some s' := by
  have hent := (entered_inductive θ).reach h
  refine ⟨fun i j t g u hi hc hj => ?_, fun i t g hi => ?_⟩
  · have hwho := who_of_write hi hc
    cases hw : s.mutex.writer with
    | none =>
      have := (hent.free hw).2 t g (List.mem_of_getElem? hi)
      rw [hc] at this
      cases this
    | some v =>
      obtain ⟨-, honly⟩ := hent.held v hw
      cases honly i t hwho
      cases honly j u hj
      exact ⟨rfl, hent.one j i _ hj hwho⟩
  · cases hl : g.islocked with
    | false =>
      simp only [Guarded.step, hi, Guard.unlock, hl, Bool.false_eq_true, if_false]
      exact ⟨⟨_, rfl⟩, _, rfl⟩
    | true =>
      obtain ⟨m, hm, -⟩ := unlocked_release hent hi hl (.inr rfl)
      simp only [Guarded.step, hi, Guard.unlock, hl, if_true, hm]
      exact ⟨⟨_, rfl⟩, _, rfl⟩

/-- Two readers leave, a third one releases early, and a thread writes. -/
theorem writers_exclude_reads : ∃ s : Guarded ℕ,
    s.guards = [none, none, some (2, ⟨ReadScopedLockImpl, false⟩),
        some (0, WriteScopedLockImpl.make)] ∧
      ∀ j u, s.who j = some u → u = 0 ∧ j = 3 := by
  obtain ⟨s, hs, hp⟩ := Interleave.Sys.exists_of_runBy (S := sys ℕ) (C := Flat) (s := {})
    [.make 0 ReadScopedLockImpl true, .make 1 ReadScopedLockImpl true,
      .make 2 ReadScopedLockImpl true, .destroy 0, .unlock 2, .destroy 1,
      .make 0 WriteScopedLockImpl true]
    (p := fun s => s.guards == [none, none, some (2, ⟨ReadScopedLockImpl, false⟩),
      some (0, WriteScopedLockImpl.make)]) (by decide)
  have hg := beq_iff_eq.mp hp
  refine ⟨s, hg, fun j u hj => ?_⟩
  exact (writers_exclude ⟨_, rfl, hs⟩).1 3 j 0 WriteScopedLockImpl.make u (by rw [hg]; rfl) rfl hj

/-! ## The hold after the section -/

/-- No guard of the thread gives a hold back. -/
def Guarded.Keeps (s : Guarded θ) (t : θ) (a : Label θ) : Prop :=
  ∀ i g, a = .unlock i ∨ a = .destroy i → s.guards[i]? = some (some (t, g)) → g.islocked = false

/-- While a thread has the write hold, only its own acquisitions return, and they fail. -/
theorem acquire_held {a : Acquire} {m' : RWMutex θ} (hw : m.writer = some t)
    (hm : m.acquire u a (!decide (m.writer = some u)) = some m') : u = t ∧ m' = m := by
  by_cases hu : u = t
  · subst hu
    rw [decide_eq_true hw] at hm
    cases a <;> cases hm
    all_goals exact ⟨rfl, rfl⟩
  · have hne : m.writer ≠ some u := by
      rw [hw]
      exact fun he => hu (Option.some.inj he).symm
    rw [decide_eq_false hne] at hm
    cases a <;> simp [RWMutex.acquire, hw] at hm

theorem hold_step {a : Label θ} (h : Entered s) (hw : s.mutex.writer = some t) (hf : Flat s a)
    (hk : s.Keeps t a) (hs : s.step a = some s') : s'.mutex.writer = some t := by
  cases flatStep_of_step hs hf with
  | make hc hout hm =>
    obtain ⟨-, rfl⟩ := acquire_held hw hm
    exact hw
  | same => exact hw
  | gone => exact hw
  | @release a i u g m x ha hi hl hm hx =>
    cases (h.held t hw).2 i u (who_of_locked hi hl)
    rw [hk i g ha hi] at hl
    cases hl

/-- **The write hold outlives the section.** After the `WriteLock` of a thread is gone, and until a
`ReadLock` of this thread gives its hold back, nobody else can make a guard; then the mutex is
free of writers. -/
theorem writeHold_kept {s₁ : Guarded θ} (h : (sys θ).Reach Flat s)
    (hi : s.guards[i]? = some (some (t, g))) (hc : g.cls = WriteScopedLockImpl)
    (hd : s.step (.destroy i) = some s₁)
    (hr : (sys θ).Steps (fun s a => Flat s a ∧ s.Keeps t a) s₁ s') :
    s'.mutex.writer = some t ∧
    (∀ u c ok, u ≠ t → Flat s' (.make u c ok) → s'.step (.make u c ok) = none) ∧
    ∀ j g s'', s'.guards[j]? = some (some (t, g)) → g.islocked = true →
      s'.step (.destroy j) = some s'' → s''.mutex.writer = none := by
  have hent := (entered_inductive θ).reach h
  have hwriter : s.mutex.writer = some t := by
    cases hw : s.mutex.writer with
    | none =>
      have := (hent.free hw).2 t g (List.mem_of_getElem? hi)
      rw [hc] at this
      cases this
    | some v => rw [(hent.held v hw).2 i t (who_of_write hi hc)]
  have hl : g.islocked = false := by
    rcases hent.classes t g (List.mem_of_getElem? hi) with hc' | rfl
    · cases hc.symm.trans hc'
    · rfl
  have hkeeps : s.Keeps t (.destroy i) := by
    intro j g' hj hi'
    rcases hj with hj | hj <;> cases hj
    cases hi.symm.trans hi'
    exact hl
  have hflat : Flat s (.destroy i) := trivial
  obtain ⟨hent', hw'⟩ : Entered s' ∧ s'.mutex.writer = some t :=
    hr.keeps (I := fun s => Entered s ∧ s.mutex.writer = some t)
      (fun s a s' hs hk hst => ⟨(entered_inductive θ).step s a s' hs.1 hk.1 hst,
        hold_step hs.1 hs.2 hk.1 hk.2 hst⟩)
      ⟨(entered_inductive θ).step s _ s₁ hent hflat hd, hold_step hent hwriter hflat hkeeps hd⟩
  refine ⟨hw', fun u c ok hu hf => ?_, fun j g' s'' hj hl' hs => ?_⟩
  · cases hs : s'.step (.make u c ok) with
    | none => rfl
    | some s'' =>
      cases flatStep_of_step hs hf with
      | make hc hout hm => exact absurd (acquire_held hw' hm).1 hu
      | release ha => rcases ha with ha | ha <;> cases ha
  · cases flatStep_of_step hs trivial with
    | gone hi hl₀ =>
      cases hj.symm.trans hi
      rw [hl₀] at hl'
      cases hl'
    | release ha hi hl hm hx =>
      rcases ha with ha | ha <;> cases ha
      obtain ⟨m, hm', hfree, -⟩ := unlocked_release hent' hi hl hx
      cases hm.symm.trans hm'
      exact hfree

/-- Thread 0 has written and reads again: thread 1 gets in when that is over. -/
theorem writeHold_kept_read : ∃ s s'' : Guarded ℕ, s.mutex.writer = some 0 ∧
    s.step (.make 1 ReadScopedLockImpl true) = none ∧ s.step (.destroy 1) = some s'' ∧
      s''.mutex.writer = none := by
  let s₀ : Guarded ℕ := ⟨⟨0, some 0⟩, [some (0, WriteScopedLockImpl.make)]⟩
  let s₁ : Guarded ℕ := ⟨⟨0, some 0⟩, [none]⟩
  let s : Guarded ℕ := ⟨⟨0, some 0⟩, [none, some (0, ReadScopedLockImpl.make)]⟩
  let s'' : Guarded ℕ := ⟨⟨0, none⟩, [none, none]⟩
  have hmade : (sys ℕ).runBy Flat {} [.make 0 WriteScopedLockImpl true] = some s₀ := by decide
  have hreach : (sys ℕ).Reach Flat s₀ := ⟨{}, rfl, Interleave.Sys.steps_of_runBy hmade⟩
  have hrun : (sys ℕ).Steps (fun s a => Flat s a ∧ s.Keeps 0 a) s₁ s := by
    refine .tail (.make 0 ReadScopedLockImpl false) .refl ⟨by decide, fun i g ha => ?_⟩ rfl
    rcases ha with ha | ha <;> cases ha
  obtain ⟨hw, hout, hfree⟩ := writeHold_kept hreach (i := 0) (g := WriteScopedLockImpl.make) rfl rfl
    rfl hrun
  exact ⟨s, s'', hw, hout 1 _ true (by decide) (by decide), rfl, hfree 1 _ s'' rfl rfl rfl⟩

end Ddg.RWMutex
