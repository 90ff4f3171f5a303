import DdgServer.Config.Listeners

/-!
# The values a listener sees

The calls `setValue`, `fromString` and `addListener(cb)` on one variable as a system. The listeners
are numbered in the order of their registration, `since` is the value the variable had at each
registration, and `calls` are all calls of listeners so far. The listeners return and leave the
variable alone; what else they do is `act`, and `report` is the message about an exception.

* `Leads v l w`: the pairs `l` lead from `v` to `w` without a gap.
* `Chained`: the pairs that a listener received lead from the value at its registration to the
  value of the variable. Every call keeps it (`Chained.store`, `Chained.register`).
-/

namespace Ddg

open Interleave

/-- Each old value is the new value before it, the first one is `v`, and each differs from its new
value; the last new value, or `v` where there is none, is `w`. -/
inductive Leads {T : Type} : T → List (T × T) → T → Prop
  | nil (v : T) : Leads v [] v
  | cons {old new w : T} {l : List (T × T)} : old ≠ new → Leads new l w →
      Leads old ((old, new) :: l) w

theorem Leads.concat {T : Type} {v w new : T} {l : List (T × T)} (h : Leads v l w)
    (hne : w ≠ new) : Leads v (l ++ [(w, new)]) new := by
  induction h with
  | nil v => exact .cons hne (.nil new)
  | cons hd _ ih => exact .cons hd (ih hne)

namespace ConfigVar

structure Watched (T κ σ : Type) where
  var : ConfigVar T (ℕ × κ)
  since : List T := []
  calls : List ((ℕ × κ) × T × T) := []
  world : σ

namespace Watched

variable {T κ σ : Type} (s : Watched T κ σ)

/-- The pairs that the listener `n` received. -/
def received (n : ℕ) : List (T × T) := (s.calls.filter fun c => c.1.1 == n).map Prod.snd

inductive Op (T κ : Type)
  | setValue (v : T)
  | fromString (val : Text)
  | addListener (cb : κ)

/-- The state with what a call left of the variable, the calls and the rest. -/
def put (r : ConfigVar T (ℕ × κ) × List ((ℕ × κ) × T × T) × σ) : Watched T κ σ :=
  { s with var := r.1, calls := r.2.1, world := r.2.2 }

def addListener (cb : κ) : Option (Watched T κ σ) :=
  (s.var.addListener (s.since.length, cb)).map fun r =>
    { s with var := r.2, since := s.since ++ [s.var.val] }

section Calls

variable [BEq T] (fromStr : Text → Option T) (act : κ → T → T → σ → σ)
  (report : σ → CallResult σ)

def setValue (v : T) : CallResult (Watched T κ σ) :=
  (s.var.setValue (recorded fun c => act c.2) v (s.calls, s.world)).map s.put

/-- `fromString`, with whether it returns true. -/
def fromString (val : Text) : CallResult (Bool × Watched T κ σ) :=
  (s.var.fromString fromStr (recorded fun c => act c.2)
    (fun w => (report w.2).map fun world => (w.1, world)) val (s.calls, s.world)).map
      fun r => (r.1, s.put r.2)

def step : Op T κ → Option (Watched T κ σ)
  | .setValue v => (s.setValue act v).state
  | .fromString val => (s.fromString fromStr act report val).state.map Prod.snd
  | .addListener cb => s.addListener cb

/-- A variable without listeners, and the calls on it. -/
def sys : Sys (Watched T κ σ) (Op T κ) where
  init s := s.var.funcId = 0 ∧ s.var.cbs = [] ∧ s.since = [] ∧ s.calls = []
  step s a := s.step fromStr act report a

end Calls

/-! ### One call -/

variable {s}

/-- The calls of one round over the map: one for each listener. -/
theorem filter_round {es : List (UInt64 × ℕ × κ)} {m n : ℕ} (old v : T)
    (h : es.map (fun e => e.2.1) = List.range m) (hn : n < m) :
    ((es.map fun e => (e.2, old, v)).filter fun c => c.1.1 == n).map Prod.snd = [(old, v)] := by
  have hfilter : ((es.map fun e => (e.2, old, v)).filter fun c => c.1.1 == n).map Prod.snd =
      ((es.map fun e => e.2.1).filter fun i => i == n).map fun _ => (old, v) := by
    simp [List.filter_map, Function.comp_def]
  have hrange : (List.range m).filter (fun i => i == n) = [n] := by
    rw [List.filter_beq, List.nodup_range.count]
    simp [hn]
  rw [hfilter, h, hrange]
  rfl

theorem filter_round_out {es : List (UInt64 × ℕ × κ)} {m n : ℕ} (old v : T)
    (h : es.map (fun e => e.2.1) = List.range m) (hn : m ≤ n) :
    (es.map fun e => (e.2, old, v)).filter (fun c => c.1.1 == n) = [] := by
  rw [List.filter_eq_nil_iff]
  intro c hc
  obtain ⟨e, he, rfl⟩ := List.mem_map.mp hc
  have hlt : e.2.1 ∈ List.range m := h ▸ List.mem_map_of_mem he
  rw [List.mem_range] at hlt
  simp only [beq_iff_eq]
  omega

/-- The map holds the listeners in turn, and the pairs of each lead from the value at its
registration to the value of the variable. -/
structure Chained (s : Watched T κ σ) : Prop where
  bounded : s.var.Bounded
  numbered : s.var.cbs.map (fun e => e.2.1) = List.range s.since.length
  fresh : ∀ n, s.since.length ≤ n → s.received n = []
  leads : ∀ n v, s.since[n]? = some v → Leads v (s.received n) s.var.val

/-- Another value is stored after every listener received it. -/
theorem Chained.store {v : T} (h : Chained s) (hne : s.var.val ≠ v) (world : σ) :
    Chained { s with
      var := { s.var with val := v }
      calls := s.calls ++ s.var.cbs.map (fun e => (e.2, s.var.val, v))
      world } where
  bounded := h.bounded
  numbered := h.numbered
  fresh n hn := by
    have hold := h.fresh n hn
    have hout := filter_round_out s.var.val v h.numbered hn
    simp only [received, List.filter_append, List.map_append] at hold ⊢
    rw [hold, hout]
    rfl
  leads n w hw := by
    have hn : n < s.since.length := (List.getElem?_eq_some_iff.mp hw).choose
    have hone := filter_round s.var.val v h.numbered hn
    have hchain := (h.leads n w hw).concat hne
    simp only [received, List.filter_append, List.map_append] at hchain ⊢
    rwa [hone]

/-- A listener that is registered starts at the value of the variable. -/
theorem Chained.register {cb : κ} {t : Watched T κ σ} (h : Chained s)
    (ht : s.addListener cb = some t) : Chained t := by
  obtain ⟨⟨i, x⟩, hr, rfl⟩ := Option.map_eq_some_iff.mp ht
  obtain ⟨-, k, hk, hi, rfl⟩ := addListener_cases h.bounded hr
  refine ⟨?_, ?_, ?_, ?_⟩
  · intro e he
    rcases List.mem_append.mp he with he | he
    · exact UInt64.le_trans (h.bounded e he) hk
    · rw [List.mem_singleton.mp he]
      exact hi
  · simp only [List.map_append, List.map_cons, List.map_nil, h.numbered, List.length_append,
      List.length_cons, List.length_nil, Nat.zero_add, List.range_succ]
  · intro n hn
    rw [List.length_append, List.length_singleton] at hn
    exact h.fresh n (by omega)
  · intro n w hw
    rw [List.getElem?_append] at hw
    split at hw
    · exact h.leads n w hw
    · rename_i hn
      obtain ⟨-, rfl⟩ : n - s.since.length = 0 ∧ s.var.val = w := by
        simpa [List.getElem?_singleton] using hw
      have hnil : s.received n = [] := h.fresh n (by omega)
      simp only [received] at hnil ⊢
      rw [hnil]
      exact .nil _

section Runs

variable [BEq T]

/-- `setValue` returns: it leaves an equal value, and hands another one to every listener before
it stores it. -/
theorem setValue_eq (s : Watched T κ σ) (act : κ → T → T → σ → σ) (v : T) :
    ∃ world, s.setValue act v = .done (if s.var.val == v then s else
      { s with var := { s.var with val := v },
               calls := s.calls ++ s.var.cbs.map (fun e => (e.2, s.var.val, v)), world }) := by
  obtain ⟨world, hw⟩ :=
    callAll_recorded (fun c : ℕ × κ => act c.2) s.var.val v s.var.cbs s.calls s.world
  refine ⟨world, ?_⟩
  by_cases hv : (s.var.val == v) = true
  · simp [setValue, ConfigVar.setValue, hv, put]
  · simp [setValue, ConfigVar.setValue, hv, hw, put]

/-- `fromString` is `setValue` of the decoded value; without one it reports that. -/
theorem fromString_eq (s : Watched T κ σ) (fromStr : Text → Option T) (act : κ → T → T → σ → σ)
    (report : σ → CallResult σ) (val : Text) :
    s.fromString fromStr act report val = match fromStr val with
      | none => (report s.world).map fun world => (false, { s with world })
      | some v => (s.setValue act v).map fun t => (true, t) := by
  cases hd : fromStr val with
  | none => simp [fromString, ConfigVar.fromString, hd, CallResult.map_map, put]
  | some v =>
    obtain ⟨world, hw⟩ :=
      callAll_recorded (fun c : ℕ × κ => act c.2) s.var.val v s.var.cbs s.calls s.world
    by_cases hv : (s.var.val == v) = true
    · simp [fromString, setValue, ConfigVar.fromString, ConfigVar.setValue, hd, hv]
    · simp [fromString, setValue, ConfigVar.fromString, ConfigVar.setValue, hd, hv, hw]

variable {fromStr : Text → Option T} {act : κ → T → T → σ → σ} {report : σ → CallResult σ}
  {t : Watched T κ σ}

/-- How `fromString` ends, returning or throwing: it has decoded nothing, and only the rest of the
program has changed, or it has set the decoded value and returns true. -/
theorem fromString_cases {val : Text} {b : Bool}
    (h : (s.fromString fromStr act report val).state = some (b, t)) :
    (b = false ∧ ∃ world, t = { s with world }) ∨
      (b = true ∧ ∃ v, (s.setValue act v).state = some t) := by
  rw [fromString_eq] at h
  split at h
  · refine .inl ?_
    cases hr : report s.world with
    | done w | thrown w =>
      simp only [hr, CallResult.map_done, CallResult.map_thrown, CallResult.state_done,
        CallResult.state_thrown, Option.some.injEq, Prod.mk.injEq] at h
      exact ⟨h.1.symm, w, h.2.symm⟩
    | crashed =>
      rw [hr] at h
      contradiction
  · rename_i v _
    obtain ⟨world, hw⟩ := setValue_eq s act v
    rw [hw, CallResult.map_done, CallResult.state_done, Option.some.injEq, Prod.mk.injEq] at h
    exact .inr ⟨h.1.symm, v, by rw [hw, CallResult.state_done, h.2]⟩

variable [LawfulBEq T]

theorem Chained.setValue {v : T} (h : Chained s) (ht : (s.setValue act v).state = some t) :
    Chained t := by
  obtain ⟨world, hw⟩ := setValue_eq s act v
  rw [hw, CallResult.state_done, Option.some.injEq] at ht
  subst ht
  by_cases hv : (s.var.val == v) = true
  · rwa [if_pos hv]
  · rw [if_neg hv]
    exact h.store (fun he => hv (beq_iff_eq.mpr he)) world

theorem chained_inductive (fromStr : Text → Option T) (act : κ → T → T → σ → σ)
    (report : σ → CallResult σ) : (sys fromStr act report).Inductive Sys.free Chained where
  init s hs := by
    obtain ⟨-, hcbs, hsince, hcalls⟩ := hs
    refine ⟨fun e he => ?_, by rw [hcbs, hsince]; rfl, fun n _ => by simp [received, hcalls], ?_⟩
    · rw [hcbs] at he
      exact absurd he List.not_mem_nil
    · intro n v hv
      simp [hsince] at hv
  step s a t h _ ht := by
    cases a with
    | setValue v => exact h.setValue ht
    | addListener cb => exact h.register ht
    | fromString val =>
      obtain ⟨⟨b, t'⟩, hb, rfl⟩ := Option.map_eq_some_iff.mp ht
      rcases fromString_cases hb with ⟨-, world, rfl⟩ | ⟨-, v, hv⟩
      · exact ⟨h.bounded, h.numbered, h.fresh, h.leads⟩
      · exact h.setValue hv

/-- **A listener sees a gapless chain of values**, from the value at its registration to the value
of the variable; a `fromString` that returns false adds nothing to it. -/
theorem leads_of_reach (h : (sys fromStr act report).Reach Sys.free s) :
    (∀ n v, s.since[n]? = some v → Leads v (s.received n) s.var.val) ∧
    ∀ val t, s.fromString fromStr act report val = .done (false, t) →
      t.var = s.var ∧ ∀ n, t.received n = s.received n := by
  refine ⟨((chained_inductive fromStr act report).reach h).leads, ?_⟩
  intro val t ht
  rcases fromString_cases (by rw [ht, CallResult.state_done]) with ⟨-, world, rfl⟩ | ⟨hb, -⟩
  · exact ⟨rfl, fun n => rfl⟩
  · contradiction

/-- Two listeners, an equal value, a text that cannot be read, and one that can. -/
theorem leads_of_two :
    ∃ s : Watched ℕ ℕ Unit, Leads 0 (s.received 0) s.var.val ∧ Leads 1 (s.received 1) s.var.val ∧
      s.received 1 = [(1, 5)] := by
  let fromStr : Text → Option ℕ := fun val => if val = ['5'] then some 5 else none
  obtain ⟨t, ht, hp⟩ := Sys.exists_of_runBy
    (S := sys fromStr (fun _ _ _ w => w) (fun w => .done w)) (C := Sys.free)
    (s := ({ var := { val := 0 }, world := () } : Watched ℕ ℕ Unit))
    [.addListener 7, .setValue 1, .fromString ['x'], .addListener 8, .setValue 1, .fromString ['5']]
    (p := fun t => t.since == [0, 1] && t.received 1 == [(1, 5)]) (by decide)
  simp only [Bool.and_eq_true, beq_iff_eq] at hp
  have hr := leads_of_reach (s := t) ⟨_, ⟨rfl, rfl, rfl, rfl⟩, ht⟩
  exact ⟨t, hr.1 0 0 (by rw [hp.1]; rfl), hr.1 1 1 (by rw [hp.1]; rfl), hp.2⟩

end Runs

end Watched

end ConfigVar

end Ddg
