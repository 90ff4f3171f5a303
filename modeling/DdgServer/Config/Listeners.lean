import DdgServer.Lib.Sys
import DdgServer.Config.Var

/-!
# The listeners of a configuration variable

The calls on one variable as a system: `live` lists the callbacks whose registration returned
normally and that were not cleared since, `calls` all calls of callbacks so far, with their two
arguments. The callbacks return and leave the variable alone; what else they do is `act`.

`insert` ignores a key that is in use, so a callback that is registered under such a key is lost
(`lost_overwrite`). While that does not happen (`FreshKey`), no registered callback is lost
(`heard_of_reach`): the keys in use are at most `funcId`, and the callbacks in the map are
the live ones (`Ledger`).
-/

namespace Ddg

open Interleave

namespace ConfigVar

variable {T κ σ : Type}

/-- The calls on the variable. -/
inductive Op (T κ : Type)
  | addListener (cb : κ)
  | addListenerAt (key : UInt64) (cb : κ)
  | clearListener
  | setValue (v : T)

structure Registrations (T κ σ : Type) where
  var : ConfigVar T κ
  live : List κ := []
  calls : List (κ × T × T) := []
  world : σ

/-- A callback that returns, and whose call is recorded. -/
def recorded (act : κ → T → T → σ → σ) (cb : κ) (old new : T) (w : List (κ × T × T) × σ) :
    CallResult (List (κ × T × T) × σ) :=
  .done (w.1 ++ [(cb, old, new)], act cb old new w.2)

def Registrations.step [BEq T] (act : κ → T → T → σ → σ) (s : Registrations T κ σ) :
    Op T κ → Option (Registrations T κ σ)
  | .addListener cb =>
    (s.var.addListener cb).map fun r => { s with var := r.2, live := cb :: s.live }
  | .addListenerAt key cb =>
    match s.var.addListenerAt key cb with
    | .done x => some { s with var := x, live := cb :: s.live }
    | .thrown x => some { s with var := x }
    | .crashed => none
  | .clearListener => some { s with var := s.var.clearListener, live := [] }
  | .setValue v =>
    match s.var.setValue (recorded act) v (s.calls, s.world) with
    | .done (x, calls, world) => some { s with var := x, calls, world }
    | .thrown (x, calls, world) => some { s with var := x, calls, world }
    | .crashed => none

/-- A variable without listeners, and the calls on it. -/
def registrations [BEq T] (act : κ → T → T → σ → σ) : Sys (Registrations T κ σ) (Op T κ) where
  init s := s.var.funcId = 0 ∧ s.var.cbs = [] ∧ s.live = []
  step s a := s.step act a

/-- A key that `addListener(key, cb)` accepts is free. -/
def FreshKey (s : Registrations T κ σ) : Op T κ → Prop
  | .addListenerAt key _ => s.var.funcIdGrowthValid key = true → s.var.inUse key = false
  | _ => True

instance : ∀ (s : Registrations T κ σ) (a : Op T κ), Decidable (FreshKey s a)
  | s, .addListenerAt key _ =>
    inferInstanceAs (Decidable (s.var.funcIdGrowthValid key = true → s.var.inUse key = false))
  | _, .addListener _ | _, .clearListener | _, .setValue _ => .isTrue trivial

/-- `setValue v` returns; when it changes the value, it calls each live callback exactly once with
the old and the new value. -/
def Heard [BEq T] (act : κ → T → T → σ → σ) (s : Registrations T κ σ) (v : T) : Prop :=
  ∃ s', s.step act (.setValue v) = some s' ∧ s'.live = s.live ∧
    if s.var.val == v then s' = s
    else s'.var = { s.var with val := v } ∧ ∃ called, s'.calls = s.calls ++ called ∧
      called.Perm (s.live.map fun cb => (cb, s.var.val, v))

/-! ### One call -/

variable {x x' : ConfigVar T κ} {key i : UInt64} {cb : κ}

theorem insert_of_free (h : x.inUse key = false) :
    x.insert key cb = { x with cbs := x.cbs ++ [(key, cb)] } := by
  simp [insert, h]

/-- The callback is found under its key. -/
theorem getListener_insert (h : x.inUse key = false) :
    (x.insert key cb).getListener key = some cb := by
  have hkey : x.cbs.lookup key = none := by
    rw [List.lookup_eq_none_iff]
    intro e he
    have := (List.any_eq_false.mp h) e he
    simp only [beq_iff_eq] at this
    simp [Ne.symm this]
  rw [insert_of_free h]
  simp [getListener, List.lookup_append, hkey]

theorem inUse_of_freeKey (h : x.freeKey = some i) : x.inUse i = false := by
  have := List.find?_some h
  simpa using this

/-- The keys in use are at most `funcId`. -/
def Bounded (x : ConfigVar T κ) : Prop := ∀ e ∈ x.cbs, e.1 ≤ x.funcId

theorem Bounded.free (hx : x.Bounded) (h : x.funcId < key) : x.inUse key = false := by
  rw [inUse, List.any_eq_false]
  intro e he hkey
  have hle := hx e he
  rw [beq_iff_eq.mp hkey] at hle
  exact absurd h (UInt64.not_lt.mpr hle)

theorem mem_range_of_freeKey (h : x.freeKey = some i) : i ≤ x.funcId := by
  obtain ⟨n, hn, rfl⟩ := List.mem_map.mp (List.mem_of_find?_eq_some h)
  rw [List.mem_range] at hn
  rw [UInt64.le_iff_toNat_le, UInt64.toNat_ofNat']
  have := Nat.mod_le n (2 ^ 64)
  omega

theorem lt_add_one_of_ne (h : x.funcId ≠ -1) : x.funcId < x.funcId + 1 := by
  rw [UInt64.lt_iff_toNat_lt, UInt64.toNat_add]
  have hlt := x.funcId.toNat_lt
  have hne : x.funcId.toNat ≠ 2 ^ 64 - 1 := fun he => h (UInt64.toNat_inj.mp (by rw [he]; rfl))
  rw [Nat.mod_eq_of_lt (by simp; omega)]
  simp

/-- What `addListener(cb)` does: it raises the counter or keeps it, and registers the callback
under a free key up to it. -/
theorem addListener_cases (hx : x.Bounded) (h : x.addListener cb = some (i, x')) :
    x.inUse i = false ∧ ∃ n, x.funcId ≤ n ∧ i ≤ n ∧
      x' = { x with funcId := n, cbs := x.cbs ++ [(i, cb)] } := by
  rw [addListener] at h
  split at h
  · rename_i j hj
    obtain ⟨rfl, rfl⟩ : j = i ∧ x.insert j cb = x' := by simpa using h
    exact ⟨inUse_of_freeKey hj, x.funcId, UInt64.le_refl _, mem_range_of_freeKey hj,
      insert_of_free (inUse_of_freeKey hj)⟩
  · split at h
    · contradiction
    · rename_i hmax
      obtain ⟨rfl, rfl⟩ : x.funcId + 1 = i ∧
          { x with funcId := x.funcId + 1 }.insert (x.funcId + 1) cb = x' := by simpa using h
      have hlt := lt_add_one_of_ne hmax
      have hfree := hx.free hlt
      exact ⟨hfree, x.funcId + 1, UInt64.le_of_lt hlt, UInt64.le_refl _,
        insert_of_free (x := { x with funcId := x.funcId + 1 }) hfree⟩

/-- What `addListener(key, cb)` does with a key that is free, if it accepts it. -/
theorem addListenerAt_cases (cb : κ) (hfree : x.funcIdGrowthValid key = true → x.inUse key = false) :
    x.addListenerAt key cb = .thrown x ∨ ∃ n, x.funcId ≤ n ∧ key ≤ n ∧
      x.addListenerAt key cb = .done { x with funcId := n, cbs := x.cbs ++ [(key, cb)] } := by
  by_cases hv : x.funcIdGrowthValid key = true
  · refine .inr ?_
    by_cases hk : key > x.funcId
    · refine ⟨key, UInt64.le_of_lt hk, UInt64.le_refl _, ?_⟩
      simp only [addListenerAt, hv, Bool.not_true, Bool.false_eq_true, if_false, if_pos hk]
      rw [insert_of_free (x := { x with funcId := key }) (hfree hv)]
    · refine ⟨x.funcId, UInt64.le_refl _, UInt64.not_lt.mp hk, ?_⟩
      simp only [addListenerAt, hv, Bool.not_true, Bool.false_eq_true, if_false, if_neg hk]
      rw [insert_of_free (hfree hv)]
  · refine .inl ?_
    simp [addListenerAt, hv]

theorem addListenerAt_thrown (h : x.addListenerAt key cb = .thrown x') : x' = x := by
  rw [addListenerAt] at h
  split at h
  · exact (CallResult.thrown.inj h).symm
  · contradiction

/-- The loop calls the callbacks in turn. -/
theorem callAll_recorded (act : κ → T → T → σ → σ) (old new : T) (es : List (UInt64 × κ))
    (calls : List (κ × T × T)) (w : σ) :
    ∃ w', callAll (recorded act) old new es (calls, w) =
      .done (calls ++ es.map (fun e => (e.2, old, new)), w') := by
  induction es generalizing calls w with
  | nil => exact ⟨w, by simp [callAll]⟩
  | cons e es ih =>
    obtain ⟨w', hw'⟩ := ih (calls ++ [(e.2, old, new)]) (act e.2 old new w)
    exact ⟨w', by simp [callAll, recorded, hw']⟩

/-! ### Whole runs -/

section Runs

variable {s : Registrations T κ σ}

/-- The callbacks in the map are the live ones. -/
structure Ledger (s : Registrations T κ σ) : Prop where
  bounded : s.var.Bounded
  live : (s.var.cbs.map Prod.snd).Perm s.live

/-- A callback that goes in under a free key. -/
theorem Ledger.register {n : UInt64} (h : Ledger s) (hn : s.var.funcId ≤ n) (hk : key ≤ n) :
    Ledger { s with var := { s.var with funcId := n, cbs := s.var.cbs ++ [(key, cb)] },
                    live := cb :: s.live } := by
  constructor
  · intro e he
    rcases List.mem_append.mp he with he | he
    · exact UInt64.le_trans (h.bounded e he) hn
    · rw [List.mem_singleton.mp he]
      exact hk
  · simp only [List.map_append, List.map_cons, List.map_nil]
    exact (List.perm_append_singleton _ _).trans (h.live.cons cb)

variable [BEq T] {act : κ → T → T → σ → σ}

theorem setValue_recorded (act : κ → T → T → σ → σ) (s : Registrations T κ σ) (v : T) :
    ∃ w, s.step act (.setValue v) = some (if s.var.val == v then s else
      { s with var := { s.var with val := v },
               calls := s.calls ++ s.var.cbs.map (fun e => (e.2, s.var.val, v)), world := w }) := by
  obtain ⟨w, hw⟩ := callAll_recorded act s.var.val v s.var.cbs s.calls s.world
  refine ⟨w, ?_⟩
  by_cases hv : (s.var.val == v) = true
  · simp [Registrations.step, setValue, hv]
  · simp [Registrations.step, setValue, hv, hw]

theorem ledger_step (s : Registrations T κ σ) (a : Op T κ) (s' : Registrations T κ σ)
    (h : Ledger s) (hc : FreshKey s a) (hs : s.step act a = some s') : Ledger s' := by
  cases a with
  | addListener cb =>
    obtain ⟨⟨i, x⟩, hr, rfl⟩ := Option.map_eq_some_iff.mp hs
    obtain ⟨-, n, hn, hi, rfl⟩ := addListener_cases h.bounded hr
    exact h.register hn hi
  | addListenerAt key cb =>
    rcases addListenerAt_cases cb hc with ht | ⟨n, hn, hk, hd⟩
    · simp only [Registrations.step, ht, Option.some.injEq] at hs
      subst hs
      exact h
    · simp only [Registrations.step, hd, Option.some.injEq] at hs
      subst hs
      exact h.register hn hk
  | clearListener =>
    simp only [Registrations.step, Option.some.injEq] at hs
    subst hs
    exact ⟨fun e he => absurd he List.not_mem_nil, List.Perm.nil⟩
  | setValue v =>
    obtain ⟨w, hw⟩ := setValue_recorded act s v
    rw [hw, Option.some.injEq] at hs
    subst hs
    split
    · exact h
    · exact ⟨h.bounded, h.live⟩

theorem ledger_inductive (act : κ → T → T → σ → σ) :
    (registrations act).Inductive FreshKey Ledger where
  init s hs := ⟨fun e he => by simp [hs.2.1] at he, by rw [hs.2.1, hs.2.2]; exact .nil⟩
  step := ledger_step

theorem Ledger.heard (h : Ledger s) (act : κ → T → T → σ → σ) (v : T) : Heard act s v := by
  obtain ⟨w, hw⟩ := setValue_recorded act s v
  refine ⟨_, hw, by split <;> rfl, ?_⟩
  by_cases hv : (s.var.val == v) = true
  · simp [hv]
  · simp only [hv, Bool.false_eq_true, if_false, true_and]
    refine ⟨_, rfl, ?_⟩
    have := h.live.map fun cb => (cb, s.var.val, v)
    rwa [List.map_map] at this

/-- **No registered listener is lost** while no key in use is given to `addListener(key, cb)`. -/
theorem heard_of_reach (h : (registrations act).Reach FreshKey s) :
    (∀ v, Heard act s v) ∧
    (∀ cb i x, s.var.addListener cb = some (i, x) → s.var.inUse i = false) ∧
    ∀ key cb x, s.var.addListenerAt key cb = .thrown x → x = s.var := by
  have hl := (ledger_inductive act).reach h
  refine ⟨hl.heard act, ?_, ?_⟩
  · intro cb i x hr
    exact (addListener_cases hl.bounded hr).1
  · intro key cb x ht
    exact addListenerAt_thrown ht

/-- Three callbacks, one of them registered under an explicit key after a clear. -/
theorem heard_after_clear :
    ∃ s : Registrations ℕ ℕ Unit, s.live = [9, 8] ∧ Heard (fun _ _ _ w => w) s 1 := by
  obtain ⟨t, ht, hlive⟩ := Sys.exists_of_runBy (S := registrations fun _ _ _ w => w)
    (C := FreshKey) (s := { var := { val := 0 }, world := () })
    [.addListener 5, .addListener 6, .clearListener, .addListenerAt 1 8, .addListener 9]
    (p := fun t => t.live == [9, 8]) (by decide)
  have hreach : (registrations fun _ _ _ w => w).Reach FreshKey t := ⟨_, ⟨rfl, rfl, rfl⟩, ht⟩
  have hr := heard_of_reach hreach
  exact ⟨t, by simpa using hlive, hr.1 1⟩

/-- A callback registered under a key in use is never called. -/
theorem lost_overwrite :
    ∃ s : Registrations ℕ ℕ Unit, (registrations fun _ _ _ w => w).Reach Sys.free s ∧
      ¬ Heard (fun _ _ _ w => w) s 1 := by
  obtain ⟨t, ht, hp⟩ := Sys.exists_of_runBy (S := registrations fun _ _ _ w => w)
    (C := Sys.free) (s := { var := { val := 0 }, world := () })
    [.addListener 5, .addListener 6, .addListenerAt 0 7]
    (p := fun t => t.var.val == 0 && t.var.cbs.length == 2 && t.live.length == 3)
    (by decide)
  simp only [Bool.and_eq_true, beq_iff_eq] at hp
  refine ⟨t, ⟨_, ⟨rfl, rfl, rfl⟩, ht⟩, ?_⟩
  rintro ⟨t', hstep, -, hif⟩
  obtain ⟨w, hw⟩ := setValue_recorded (fun _ _ _ w => w) t 1
  rw [hw, Option.some.injEq] at hstep
  subst hstep
  have hperm : (t.var.cbs.map fun e => (e.2, 0, 1)).Perm (t.live.map fun cb => (cb, 0, 1)) := by
    simpa [hp.1.1] using hif
  have hlen := hperm.length_eq
  simp only [List.length_map] at hlen
  omega

end Runs

end ConfigVar

end Ddg
