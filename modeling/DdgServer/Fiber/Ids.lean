import Mathlib.Data.List.Induction
import Mathlib.Order.Interval.Finset.Nat

/-!
# Fiber ids

The ids of fibers with a stack: `Fiber::safeFiberIdIncr` of `ddg/fiber.cc`, called by the
constructor, and the destructor, which does not give the id back. A history is the creations and
the destructions one after the other.

* `Counted n s`: the state after `n` creations, as long as the counter lasts.
* `sound_exact`: the ids are as they should be exactly in the histories in which it lasts.
* `create_exhausted`: with one creation more, no other succeeds, whatever is destroyed.
-/

namespace Ddg

/-- `UINT64_MAX - 1`. -/
def kMaxFiberId : ℕ := 2 ^ 64 - 2

/-- `s_fiber_id`, `s_fiber_id_set` and the ids of the fibers that are alive. -/
structure FiberIds where
  fiberId : ℕ := 0
  fiberIdSet : Finset ℕ := ∅
  live : List ℕ := []

namespace FiberIds

/-- `for (i = 0; i <= kMaxFiberId; i++)`, from `i` on with `fuel` turns left; `none`: the loop ends
without an id. -/
def searchId (fiberIdSet : Finset ℕ) : ℕ → ℕ → Option ℕ
  | 0, _ => none
  | fuel + 1, i => if i ∉ fiberIdSet then some i else searchId fiberIdSet fuel (i + 1)

variable (s : FiberIds)

/-- `Fiber::safeFiberIdIncr`, with the id; `none`: its assertion fails. -/
def safeFiberIdIncr : Option (ℕ × FiberIds) :=
  if s.fiberId ≤ kMaxFiberId - 1 then
    let id := s.fiberId + 1
    some (id, { s with fiberId := id, fiberIdSet := insert id s.fiberIdSet })
  else
    (searchId s.fiberIdSet (kMaxFiberId + 1) 0).map fun i =>
      (i, { s with fiberIdSet := insert i s.fiberIdSet })

/-- The constructor of a fiber with a stack. -/
def create : Option FiberIds :=
  s.safeFiberIdIncr.map fun r => { r.2 with live := r.2.live ++ [r.1] }

/-- `Fiber::~Fiber` of the `i`-th fiber that is alive, if there is one. -/
def destroy (i : ℕ) : FiberIds := { s with live := s.live.eraseIdx i }

inductive Op where
  | create
  | destroy (i : ℕ)
  deriving DecidableEq

def step : Op → Option FiberIds
  | .create => s.create
  | .destroy i => some (s.destroy i)

/-- The state after a history; `none`: a creation in it failed. -/
def after (h : List Op) : Option FiberIds := h.foldlM step {}

/-- No two fibers have one id, none has the id of the main fibers, and there is room for one more
if fewer than `kMaxFiberId` are alive. -/
structure Good : Prop where
  distinct : s.live.Nodup
  nonzero : 0 ∉ s.live
  room : s.live.length < kMaxFiberId → s.create.isSome

/-- All states of a history are good. -/
def Sound (h : List Op) : Prop := ∀ pre s, pre <+: h → after pre = some s → s.Good

variable {s} {s' : FiberIds} {h pre : List Op} {n : ℕ}

/-! ## One step -/

theorem kMaxFiberId_pos : 0 < kMaxFiberId := by decide

theorem searchId_full {t : Finset ℕ} {fuel i : ℕ} (ht : ∀ j, i ≤ j → j < i + fuel → j ∈ t) :
    searchId t fuel i = none := by
  induction fuel generalizing i with
  | zero => rfl
  | succ fuel ih =>
    rw [searchId, if_neg (not_not.mpr (ht i le_rfl (by omega)))]
    exact ih fun j hj hlt => ht j (by omega) (by omega)

/-- While the counter lasts, a creation counts on. -/
theorem create_count (hs : s.fiberId < kMaxFiberId) : s.create =
    some ⟨s.fiberId + 1, insert (s.fiberId + 1) s.fiberIdSet, s.live ++ [s.fiberId + 1]⟩ := by
  rw [create, safeFiberIdIncr, if_pos (by omega)]
  rfl

/-- After that, the set is searched from 0 on. -/
theorem create_zero (hs : s.fiberId = kMaxFiberId) (h0 : 0 ∉ s.fiberIdSet) :
    s.create = some ⟨s.fiberId, insert 0 s.fiberIdSet, s.live ++ [0]⟩ := by
  have hpos := kMaxFiberId_pos
  rw [create, safeFiberIdIncr, if_neg (by omega), searchId, if_pos h0]
  rfl

theorem create_full (hs : s.fiberId = kMaxFiberId) (hset : ∀ j ≤ kMaxFiberId, j ∈ s.fiberIdSet) :
    s.create = none := by
  have hpos := kMaxFiberId_pos
  rw [create, safeFiberIdIncr, if_neg (by omega), searchId_full fun j _ hj => hset j (by omega)]
  rfl

theorem after_concat (h : List Op) (op : Op) :
    after (h ++ [op]) = (after h).bind fun s => s.step op := by
  rw [after, List.foldlM_append, after]
  congr 1
  funext s
  exact bind_pure _

/-! ## While the counter lasts -/

/-- The state after `n` creations: all ids up to `n` are taken, those of dead fibers too. -/
structure Counted (n : ℕ) (s : FiberIds) : Prop where
  fiberId : s.fiberId = n
  fiberIdSet : s.fiberIdSet = Finset.Icc 1 n
  distinct : s.live.Nodup
  range : ∀ i ∈ s.live, 1 ≤ i ∧ i ≤ n

theorem Counted.create (hc : Counted n s) (hn : n < kMaxFiberId) :
    ∃ s', s.create = some s' ∧ Counted (n + 1) s' := by
  refine ⟨_, create_count (by rw [hc.fiberId]; exact hn), by rw [hc.fiberId], ?_, ?_, ?_⟩
  · ext i
    simp only [hc.fiberId, hc.fiberIdSet, Finset.mem_insert, Finset.mem_Icc]
    omega
  · have hfresh : n + 1 ∉ s.live := fun hmem => by
      have := (hc.range _ hmem).2
      omega
    rw [hc.fiberId, List.nodup_append]
    refine ⟨hc.distinct, List.nodup_singleton _, fun a ha b hb => ?_⟩
    rintro rfl
    exact hfresh (List.mem_singleton.mp hb ▸ ha)
  · intro i hi
    rcases List.mem_append.mp hi with hi | hi
    · have := hc.range i hi
      omega
    · have := List.mem_singleton.mp hi
      rw [hc.fiberId] at this
      omega

theorem Counted.destroy (hc : Counted n s) (i : ℕ) : Counted n (s.destroy i) where
  fiberId := hc.fiberId
  fiberIdSet := hc.fiberIdSet
  distinct := hc.distinct.sublist (List.eraseIdx_sublist _ _)
  range j hj := hc.range j (List.mem_of_mem_eraseIdx hj)

theorem Counted.after (hn : h.count .create ≤ kMaxFiberId) :
    ∃ s, after h = some s ∧ Counted (h.count .create) s := by
  induction h using List.reverseRecOn with
  | nil => exact ⟨{}, rfl, rfl, rfl, List.nodup_nil, fun i hi => (nomatch hi)⟩
  | append_singleton h op ih =>
    rw [List.count_append] at hn ⊢
    obtain ⟨s, hs, hc⟩ := ih (by omega)
    rw [after_concat, hs, Option.bind_some]
    cases op with
    | create =>
      simp only [List.count_singleton_self] at hn
      exact hc.create (by omega)
    | destroy i => exact ⟨_, rfl, hc.destroy i⟩

theorem Counted.good (hc : Counted n s) (hn : n ≤ kMaxFiberId) : s.Good where
  distinct := hc.distinct
  nonzero h0 := by
    have := (hc.range 0 h0).1
    omega
  room _ := by
    rcases hn.lt_or_eq with hlt | rfl
    · obtain ⟨s', hs', -⟩ := hc.create hlt
      rw [hs']
      rfl
    · rw [create_zero hc.fiberId (by simp [hc.fiberIdSet])]
      rfl

/-! ## After that -/

/-- The first creation after the counter is used up. -/
theorem after_exhausted (hn : h.count .create = kMaxFiberId) : ∃ s, after (h ++ [.create]) = some s ∧
    0 ∈ s.live ∧ s.fiberId = kMaxFiberId ∧ ∀ j ≤ kMaxFiberId, j ∈ s.fiberIdSet := by
  obtain ⟨s, hs, hc⟩ := Counted.after hn.le
  rw [hn] at hc
  rw [after_concat, hs]
  refine ⟨_, create_zero hc.fiberId (by simp [hc.fiberIdSet]), by simp, hc.fiberId, fun j hj => ?_⟩
  simp only [hc.fiberIdSet, Finset.mem_insert, Finset.mem_Icc]
  omega

/-- A history with more creations has a part up to the creation after which the counter is used
up. -/
theorem exists_prefix (hn : kMaxFiberId < h.count .create) :
    ∃ pre, pre ++ [.create] <+: h ∧ pre.count .create = kMaxFiberId := by
  induction h using List.reverseRecOn with
  | nil => exact absurd hn (by simp)
  | append_singleton h op ih =>
    by_cases hlt : kMaxFiberId < h.count .create
    · obtain ⟨pre, hpre, hc⟩ := ih hlt
      exact ⟨pre, hpre.trans (List.prefix_append h [op]), hc⟩
    · rw [List.count_append] at hn
      cases op with
      | create =>
        refine ⟨h, List.prefix_rfl, ?_⟩
        simp only [List.count_singleton_self] at hn
        omega
      | destroy i => exact absurd hn (by simpa using hlt)

theorem not_sound (hn : kMaxFiberId < h.count .create) : ¬ Sound h := by
  obtain ⟨pre, hpre, hc⟩ := exists_prefix hn
  obtain ⟨s, hs, h0, -⟩ := after_exhausted hc
  exact fun hsound => (hsound _ s hpre hs).nonzero h0

theorem after_destroy (hs : after h = some s) (m : ℕ) :
    after (h ++ List.replicate m (.destroy 0)) = some { s with live := s.live.drop m } := by
  induction m with
  | zero => simpa using hs
  | succ m ih =>
    rw [List.replicate_succ', ← List.append_assoc, after_concat, ih]
    simp [step, destroy]

/-- Once a creation has got the id 0, none succeeds, not even with all fibers destroyed. -/
theorem create_exhausted (hn : h.count .create = kMaxFiberId) : ∃ m s,
    after (h ++ [.create] ++ List.replicate m (.destroy 0)) = some s ∧ s.live = [] ∧
      s.create = none := by
  obtain ⟨s, hs, -, hid, hset⟩ := after_exhausted hn
  exact ⟨s.live.length, _, after_destroy hs _, List.drop_length, create_full hid hset⟩

/-! ## The histories in which the ids are right -/

/-- **Ids are distinct, not 0 and there for every fiber** in exactly the histories with at most
`kMaxFiberId` creations; the destructions in them do not matter. -/
theorem sound_exact (h : List Op) : Sound h ↔ h.count .create ≤ kMaxFiberId := by
  constructor
  · intro hsound
    by_contra hn
    exact not_sound (by omega) hsound
  · intro hn pre s hpre hs
    have hle := (hpre.sublist.count_le .create).trans hn
    obtain ⟨s', hs', hc⟩ := Counted.after hle
    obtain rfl : s' = s := Option.some.inj (hs'.symm.trans hs)
    exact hc.good hle

/-- With one creation more the last fiber gets the id 0; and once all of them are destroyed, a
fiber cannot be created although none is alive. -/
theorem create_fails : ¬ Sound (List.replicate (kMaxFiberId + 1) .create) ∧
    ∃ m s, after (List.replicate kMaxFiberId .create ++ [.create] ++
      List.replicate m (.destroy 0)) = some s ∧ s.live = [] ∧ s.create = none :=
  ⟨not_sound (by rw [List.count_replicate_self]; omega),
    create_exhausted List.count_replicate_self⟩

end FiberIds

end Ddg
