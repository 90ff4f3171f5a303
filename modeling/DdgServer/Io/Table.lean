import DdgServer.Io.Manager

/-!
# The table of contexts under concurrent growth

`addEvent` reads the size of `m_fdContext` under the read lock and grows the table under the write
lock, to a size that it computes from its own fd. Here any number of threads do this for any fds;
an atomic step is one locked section.

* `contextResize_eq`: what `contextResize` does to a table without null slots.
* `contextTable_grows`: while no resize finds the table longer than the size it asks for, the
  table only grows, each slot keeps its context, and no index is past the end.
* `contextTable_shrinks`: two callers that grow the table one after the other; the second one drops
  the slots that the first one made, with the context that it goes on to use.
-/

namespace Ddg

variable {φ κ : Type}

namespace Table

/-! ## What `contextResize` does -/

/-- A slot that has a context keeps it. -/
theorem fillNull_some (ctxs : List (FdContext φ κ)) (i : ℕ) (l : List ℕ) (slots : List (Option ℕ)) :
    fillNull ctxs i (l.map some ++ slots) =
      ((fillNull ctxs (i + l.length) slots).1,
        l.map some ++ (fillNull ctxs (i + l.length) slots).2) := by
  induction l generalizing i with
  | nil => simp
  | cons p l ih =>
    simp only [List.map_cons, List.cons_append, fillNull, ih, List.length_cons]
    rw [Nat.add_right_comm i 1, ← Nat.add_assoc]

/-- The null slots get new contexts, in order. -/
theorem fillNull_replicate (ctxs : List (FdContext φ κ)) (i k : ℕ) :
    fillNull ctxs i (List.replicate k none) =
      (ctxs ++ (List.range k).map fun j => newContext (i + j),
        ((List.range k).map (ctxs.length + ·)).map some) := by
  induction k generalizing ctxs i with
  | zero => simp [fillNull]
  | succ k ih =>
    simp only [List.replicate_succ, fillNull, ih, List.range_succ_eq_map, List.map_cons,
      List.map_map, List.append_assoc, List.singleton_append, List.length_append, List.length_cons,
      List.length_nil, Nat.add_zero, Prod.mk.injEq]
    refine ⟨congrArg (ctxs ++ newContext i :: ·) (List.map_congr_left fun j _ => ?_),
      congrArg (some ctxs.length :: ·) (List.map_congr_left fun j _ => ?_)⟩
    · simp only [Function.comp_apply, Nat.succ_eq_add_one, Nat.add_assoc, Nat.add_comm 1 j]
    · simp [Nat.add_assoc, Nat.add_comm 1 j]

/-- `contextResize` on a table without null slots: it cuts the table to `size` or adds new contexts
up to it. -/
theorem contextResize_eq {t : Table φ κ} {l : List ℕ} (h : t.fdContext = l.map some) (size : ℕ) :
    t.contextResize size =
      { ctxs := t.ctxs ++ (List.range (size - l.length)).map fun j => newContext (l.length + j)
        fdContext :=
          (l.take size ++ (List.range (size - l.length)).map (t.ctxs.length + ·)).map some } := by
  have hz : size - l.length = 0 ∨ l.take size = l := by
    rcases Nat.le_total size l.length with hle | hle
    · exact .inl (by omega)
    · exact .inr (List.take_of_length_le hle)
  unfold contextResize resize
  rw [h, List.length_map, ← List.map_take, fillNull_some, fillNull_replicate]
  rcases hz with hz | hz
  · simp [hz]
  · simp [hz]

theorem newContext_fd {i : ℕ} (h : i < 2 ^ 31) : (newContext i : FdContext φ κ).fd = i := by
  simp only [newContext]
  exact Int.bmod_eq_of_le (by omega) (by omega)

/-- `1.5 * fd` leaves room for `fd` from 2 on. -/
theorem lt_grownSize {fd : ℕ} (h : 2 ≤ fd) : fd < grownSize fd := by
  unfold grownSize
  omega

/-- A table without null slots, each slot with the context of its fd. -/
structure Filled (t : Table φ κ) : Prop where
  slots : ∃ l : List ℕ, t.fdContext = l.map some ∧
    ∀ (i p : ℕ), l[i]? = some p → ∃ c : FdContext φ κ, t.ctxs[p]? = some c ∧ c.fd = i
  length : t.fdContext.length ≤ 2 ^ 31

/-- A resize to a size that is not smaller: it keeps the slots and their contexts. -/
theorem Filled.resize {t : Table φ κ} (h : t.Filled) (size : ℕ)
    (hle : t.fdContext.length ≤ size) (hmax : size ≤ 2 ^ 31) :
    (t.contextResize size).Filled ∧ (t.contextResize size).fdContext.length = size ∧
      t.fdContext <+: (t.contextResize size).fdContext ∧
      t.ctxs <+: (t.contextResize size).ctxs := by
  obtain ⟨⟨l, hl, hc⟩, -⟩ := h
  have hlen : l.length ≤ size := by simpa [hl] using hle
  rw [contextResize_eq hl, List.take_of_length_le hlen]
  refine ⟨⟨⟨_, rfl, fun i p hp => ?_⟩, ?_⟩, ?_, ?_, List.prefix_append _ _⟩
  · rw [List.getElem?_append] at hp
    split at hp
    · obtain ⟨c, hcp, hfd⟩ := hc i p hp
      exact ⟨c, by rw [List.getElem?_append_left (List.getElem?_eq_some_iff.mp hcp).1, hcp], hfd⟩
    · -- a new slot: its context is the one allocated for it
      rename_i hi
      simp only [List.getElem?_map, Option.map_eq_some_iff] at hp
      obtain ⟨j, hj, rfl⟩ := hp
      obtain ⟨hlt, rfl⟩ := List.getElem?_eq_some_iff.mp hj
      simp only [List.length_range] at hlt
      refine ⟨newContext i, ?_, newContext_fd (by omega)⟩
      rw [List.getElem?_append_right (by omega)]
      simp only [List.getElem_range, Nat.add_sub_cancel_left, List.getElem?_map,
        List.getElem?_range hlt, Option.map_some]
      rw [show l.length + (i - l.length) = i by omega]
  · simp only [List.length_map, List.length_append, List.length_range]; omega
  · simp only [List.length_map, List.length_append, List.length_range]; omega
  · rw [hl, List.map_append]
    exact List.prefix_append _ _

theorem initial_filled : (initial : Table φ κ).Filled ∧ (initial : Table φ κ).fdContext.length = 32 := by
  have h : ({} : Table φ κ).Filled :=
    ⟨⟨[], rfl, fun i p hp => by simp at hp⟩, Nat.zero_le _⟩
  obtain ⟨hf, hl, -, -⟩ := h.resize 32 (Nat.zero_le _) (by decide)
  exact ⟨hf, hl⟩

/-- An index below the length finds a context. -/
theorem Filled.get {t : Table φ κ} (h : t.Filled) {fd : ℕ} (hfd : fd < t.fdContext.length) :
    ∃ p, t.get fd = .ok p := by
  obtain ⟨⟨l, hl, -⟩, -⟩ := h
  have hlt : fd < l.length := by simpa [hl] using hfd
  exact ⟨l[fd], by simp [Table.get, hl, hlt]⟩

end Table

/-! ## Callers of `addEvent` -/

namespace Growth

variable {τ : Type}

/-- The table and the threads in `addEvent`: `some fd` after a size check that failed. -/
structure State (φ κ τ : Type) where
  table : Table φ κ
  pc : τ → Option Fd
  fault : Option Fault

inductive Label (τ : Type) where
  /-- The section under the read lock. -/
  | check (t : τ) (fd : Fd)
  /-- The section under the write lock. -/
  | resize (t : τ)

/-- `m_fdContext[fd]`, with the fault it may be. -/
def State.index (s : State φ κ τ) (fd : Fd) : State φ κ τ :=
  match s.table.get fd with
  | .ok _ => s
  | .error e => { s with fault := some e }

variable [DecidableEq τ]

def step (s : State φ κ τ) : Label τ → Option (State φ κ τ)
  | .check t fd =>
    if s.fault = none ∧ s.pc t = none then
      if s.table.fdContext.length > fd then some (s.index fd)
      else some { s with pc := Function.update s.pc t (some fd) }
    else none
  | .resize t =>
    match s.fault, s.pc t with
    | none, some fd =>
      let table := s.table.contextResize (Table.grownSize fd)
      some ({ s with table, pc := Function.update s.pc t none }.index fd)
    | _, _ => none

/-- After the constructor, with all threads outside `addEvent`. -/
def initial : State φ κ τ := { table := Table.initial, pc := fun _ => none, fault := none }

def sys : Interleave.Sys (State φ κ τ) (Label τ) where
  init s := s = initial
  step := step

/-- The resize does not make the table shorter, and its slots are the numbers of an `int`. -/
def NoShrink (s : State φ κ τ) : Label τ → Prop
  | .check _ _ => True
  | .resize t => ∀ fd ∈ s.pc t,
    s.table.fdContext.length ≤ Table.grownSize fd ∧ Table.grownSize fd ≤ 2 ^ 31

instance (s : State φ κ τ) : ∀ a, Decidable (NoShrink s a)
  | .check _ _ => .isTrue trivial
  | .resize t =>
    match h : s.pc t with
    | none => .isTrue (by simp [NoShrink, h])
    | some fd => decidable_of_iff
        (s.table.fdContext.length ≤ Table.grownSize fd ∧ Table.grownSize fd ≤ 2 ^ 31)
        (by simp [NoShrink, h])

/-- The invariant of the runs without a shrinking resize. -/
structure Inv (s : State φ κ τ) : Prop where
  filled : s.table.Filled
  long : 32 ≤ s.table.fdContext.length
  grows : ∀ t fd, s.pc t = some fd → 32 ≤ fd.val
  fault : s.fault = none

omit [DecidableEq τ] in
theorem index_eq {s : State φ κ τ} (h : s.table.Filled) {fd : Fd}
    (hfd : fd < s.table.fdContext.length) : s.index fd = s := by
  obtain ⟨p, hp⟩ := h.get hfd
  simp [State.index, hp]

/-- What a step does under the invariant: it changes no slot, or it is a resize. -/
theorem step_cases {s s' : State φ κ τ} {a : Label τ} (hi : Inv s) (hc : NoShrink s a)
    (hs : step s a = some s') : Inv s' ∧ s.table.fdContext <+: s'.table.fdContext ∧
      s.table.ctxs <+: s'.table.ctxs := by
  cases a with
  | check t fd =>
    simp only [step] at hs
    split at hs
    · split at hs
      · rename_i hfd
        rw [index_eq hi.filled hfd] at hs
        cases hs
        exact ⟨hi, List.prefix_refl _, List.prefix_refl _⟩
      · rename_i hfd
        cases hs
        refine ⟨⟨hi.filled, hi.long, fun u fd' hu => ?_, hi.fault⟩, List.prefix_refl _,
          List.prefix_refl _⟩
        rcases Interleave.update_cases hu with ⟨-, he⟩ | ⟨-, hu⟩
        · cases he
          have := hi.long
          omega
        · exact hi.grows u fd' hu
    · cases hs
  | resize t =>
    simp only [step] at hs
    split at hs
    · rename_i fd _ hpc
      obtain ⟨hle, hmax⟩ := hc fd hpc
      obtain ⟨hf, hlen, hp, hcp⟩ := hi.filled.resize _ hle hmax
      have hfd : fd < (s.table.contextResize (Table.grownSize fd)).fdContext.length := by
        rw [hlen]
        exact Table.lt_grownSize (by have := hi.grows t fd hpc; omega)
      rw [index_eq hf hfd] at hs
      cases hs
      refine ⟨⟨hf, ?_, fun u fd' hu => ?_, hi.fault⟩, hp, hcp⟩
      · have := hi.long
        show 32 ≤ (s.table.contextResize _).fdContext.length
        omega
      · rcases Interleave.update_cases hu with ⟨-, he⟩ | ⟨-, hu⟩
        · cases he
        · exact hi.grows u fd' hu
    · cases hs

theorem inv_inductive :
    (sys : Interleave.Sys (State φ κ τ) (Label τ)).Inductive NoShrink Inv where
  init := by
    rintro s rfl
    obtain ⟨hf, hl⟩ := Table.initial_filled (φ := φ) (κ := κ)
    exact ⟨hf, hl.ge, fun _ _ h => absurd h (by simp [initial]), rfl⟩
  step _ _ _ hi hc hs := (step_cases hi hc hs).1

/-- In every run in which no resize finds the table longer than the size it asks for, no index is
past the end, each slot has the context of its fd, and from there on the table only gets longer:
each slot keeps its context. -/
theorem contextTable_grows {s : State φ κ τ} (h : sys.Reach NoShrink s) :
    s.fault = none ∧
    (∀ i : ℕ, i < s.table.fdContext.length → ∃ p c, s.table.fdContext[i]? = some (some p) ∧
      s.table.ctxs[p]? = some c ∧ c.fd = i) ∧
    ∀ s', sys.Steps NoShrink s s' → s.table.fdContext <+: s'.table.fdContext ∧
      s.table.ctxs <+: s'.table.ctxs := by
  have hi := inv_inductive.reach h
  refine ⟨hi.fault, fun i hlt => ?_, fun s' hs => ?_⟩
  · obtain ⟨⟨l, hl, hc⟩, -⟩ := hi.filled
    have hlt' : i < l.length := by simpa [hl] using hlt
    obtain ⟨c, hcp, hfd⟩ := hc i l[i] (List.getElem?_eq_getElem hlt')
    exact ⟨l[i], c, by simp [hl, hlt'], hcp, hfd⟩
  · have hkeep := hs.keeps (I := fun u => Inv u ∧ s.table.fdContext <+: u.table.fdContext ∧
      s.table.ctxs <+: u.table.ctxs) ?_ ⟨hi, List.prefix_refl _, List.prefix_refl _⟩
    · exact hkeep.2
    · rintro u a u' ⟨hu, h1, h2⟩ hc hst
      obtain ⟨hu', h3, h4⟩ := step_cases hu hc hst
      exact ⟨hu', h1.trans h3, h2.trans h4⟩

/-- Two callers, for the fds 32 and 60, both find the table too short; the second one grows the table
that the first one has grown meanwhile. -/
theorem contextTable_grows_twice : ∃ s : State Unit Unit Bool,
    s.table.fdContext.length = 90 ∧ s.table.fdContext[32]? = some (some 32) ∧ s.fault = none ∧
    (∀ i : ℕ, i < s.table.fdContext.length → ∃ p c, s.table.fdContext[i]? = some (some p) ∧
      s.table.ctxs[p]? = some c ∧ c.fd = i) ∧
    ∀ s', sys.Steps NoShrink s s' → s.table.fdContext <+: s'.table.fdContext ∧
      s.table.ctxs <+: s'.table.ctxs := by
  obtain ⟨s, hs, hp⟩ := Interleave.Sys.exists_of_runBy (S := sys (κ := Unit) (φ := Unit))
    (C := NoShrink) (s := initial)
    [.check false 32, .check true 60, .resize false, .resize true]
    (p := fun s => s.table.fdContext.length == 90 && s.table.fdContext[32]? == some (some 32))
    (by decide)
  simp only [Bool.and_eq_true, beq_iff_eq] at hp
  exact ⟨s, hp.1, hp.2, contextTable_grows ⟨_, rfl, hs⟩⟩

/-- Two callers, for the fds 60 and 32, both find the table too short. The first one makes it 90
slots long and goes on with the context in slot 60; the second one cuts it to 48 slots. -/
theorem contextTable_shrinks : ∃ s s' : State Unit Unit Bool,
    sys.Reach Interleave.Sys.free s ∧ sys.Steps Interleave.Sys.free s s' ∧
    s.table.fdContext.length = 90 ∧ s.table.fdContext[60]? = some (some 60) ∧
    s'.fault = none ∧ s'.table.fdContext.length = 48 := by
  obtain ⟨s, hs, hp⟩ := Interleave.Sys.exists_of_runBy (S := sys (κ := Unit) (φ := Unit))
    (C := Interleave.Sys.free) (s := initial) [.check false 60, .check true 32, .resize false]
    (p := fun s => s.table.fdContext.length == 90 && s.table.fdContext[60]? == some (some 60) &&
      (sys.runBy Interleave.Sys.free s [.resize true]).any fun s' =>
        s'.fault == none && s'.table.fdContext.length == 48) (by decide)
  simp only [Bool.and_eq_true, beq_iff_eq] at hp
  obtain ⟨⟨h1, h2⟩, h3⟩ := hp
  obtain ⟨s', hs', hp'⟩ := Interleave.Sys.exists_of_runBy _ h3
  simp only [Bool.and_eq_true, beq_iff_eq] at hp'
  exact ⟨s, s', ⟨_, rfl, hs⟩, hs', h1, h2, hp'.1, hp'.2⟩

end Growth
end Ddg
