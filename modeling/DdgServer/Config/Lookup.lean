import DdgServer.Lib.Sys
import DdgServer.Config.Registry

/-!
# The registry with its mutexes

The calls of any number of threads on the registry (`DdgServer/Config/Registry.lean`), one after the
other, with `GetMutex()` and the `m_rwmutex` of each variable. A `WriteLock` leaves its hold with
its thread (`DdgServer/Sync/Guard.lean`): `Lookup` with a default that of `GetMutex()`, `setValue`
and `addListener` that of the variable. Other threads then wait, until the thread has ended a
`ReadLock`. The messages go to the root logger, where a call can wait as well
(`DdgServer/Log/Delivery.lean`); here a call comes with whether they come to their end.

* `listLocks_own`: the `ReadLock`s of `ListAllMember` are nested, and where the thread has the write
  hold, the inner ones release what the outer ones release again.
* `logs`: whether a call logs a message.
* `Loadable`: when the locks of `LoadFromYaml` let it through.
* `lookup_exact`: a name that is registered with another type is an error for `Lookup`, but it goes
  on to make a variable, and the `insert` into the map then does nothing: the caller gets a variable
  that no name leads to (`lookup_unregistered`). Otherwise it gets the registered one.
-/

namespace Ddg

open Interleave

section Locks

variable {θ : Type} [DecidableEq θ]

mutual

/-- What the `ReadLock`s of `Config::ListAllMember` do to `GetMutex()`. -/
def listLocks (t : θ) (pre : Text) : Yaml → RWMutex θ → Option (RWMutex θ)
  | .map kvs, m => m.readSection t fun m =>
      if !validName pre then some m else memberLocks t pre kvs m
  | _, m => m.readSection t some

/-- The loop over the entries of a map. -/
def memberLocks (t : θ) (pre : Text) : List (Yaml × Yaml) → RWMutex θ → Option (RWMutex θ)
  | [], m => some m
  | (first, second) :: kvs, m =>
    (listLocks t (if pre.isEmpty then first.text else pre ++ '.' :: first.text) second m).bind
      (memberLocks t pre kvs)

end

variable {t u : θ} {m : RWMutex θ}

mutual

theorem listLocks_free : ∀ (n : Yaml) (pre : Text) {m : RWMutex θ}, m.writer = none →
    listLocks t pre n m = some m
  | .map kvs, pre, m, h => by
    rw [listLocks]
    refine RWMutex.readSection_free h fun m' h' => ?_
    split
    · rfl
    · exact memberLocks_free kvs pre h'
  | .null, pre, m, h | .scalar _, pre, m, h | .seq _, pre, m, h => by
    rw [listLocks]
    · exact RWMutex.readSection_free h fun _ _ => rfl
    all_goals simp

theorem memberLocks_free : ∀ (kvs : List (Yaml × Yaml)) (pre : Text) {m : RWMutex θ},
    m.writer = none → memberLocks t pre kvs m = some m
  | [], _, _, _ => rfl
  | (k, c) :: kvs, pre, m, h => by
    rw [memberLocks, listLocks_free c _ h]
    exact memberLocks_free kvs pre h

end

/-- With the write hold of the thread itself, the first section that ends releases it, and the end
of a section around it has no hold left. -/
theorem listLocks_own : ∀ (n : Yaml) (pre : Text), listLocks t pre n { writer := some t } =
    if n.members = [] ∨ validName pre = false then some {} else none
  | .map [], pre => by
    rw [listLocks, RWMutex.readSection_own rfl]
    · rfl
    · split <;> rfl
  | .map ((k, c) :: kvs), pre => by
    rw [listLocks]
    cases hv : validName pre with
    | false =>
      rw [RWMutex.readSection_own rfl]
      · rfl
      · rfl
    | true =>
      have hfree : memberLocks t pre kvs {} = some {} := memberLocks_free kvs pre rfl
      have hc := listLocks_own c (if pre.isEmpty then k.text else pre ++ '.' :: k.text)
      rw [RWMutex.readSection, RWMutex.guard_own rfl (by rintro ⟨⟩), Option.bind_some,
        Bool.not_true, if_neg Bool.false_ne_true, memberLocks]
      generalize (if pre.isEmpty then k.text else pre ++ '.' :: k.text) = path at hc ⊢
      rw [if_neg (show ¬((Yaml.map ((k, c) :: kvs)).members = [] ∨ true = false) by
        simp [Yaml.members])]
      split at hc
      · rw [hc, Option.bind_some, hfree]
        rfl
      · rw [hc]
        rfl
  | .null, pre | .scalar _, pre | .seq _, pre => by
    rw [listLocks, RWMutex.readSection_own rfl rfl]
    · rfl
    all_goals simp

theorem listLocks_other (n : Yaml) (pre : Text) (hne : u ≠ t) (h : m.writer = some u) :
    listLocks t pre n m = none := by
  cases n with
  | map kvs =>
    rw [listLocks]
    exact RWMutex.readSection_other hne h
  | _ =>
    rw [listLocks]
    · exact RWMutex.readSection_other hne h
    all_goals simp

end Locks

mutual

/-- `Config::ListAllMember` finds a prefix that is not valid. -/
def refuses (pre : Text) : Yaml → Bool
  | .map kvs => if !validName pre then true else membersRefuse pre kvs
  | _ => !validName pre

def membersRefuse (pre : Text) : List (Yaml × Yaml) → Bool
  | [] => false
  | (first, second) :: kvs =>
    refuses (if pre.isEmpty then first.text else pre ++ '.' :: first.text) second ||
      membersRefuse pre kvs

end

section Calls

variable {τ σ : Type} {V : τ → ValueType}

/-- The registry with `GetMutex()` and the `m_rwmutex` of each variable. -/
structure LockedRegistry {τ : Type} (V : τ → ValueType) (σ θ : Type) where
  registry : Registry V σ
  mutex : RWMutex θ := {}
  varMutex : ℕ → RWMutex θ := fun _ => {}

namespace LockedRegistry

variable {θ : Type} [DecidableEq θ] (emit : Yaml → Text) (report : σ → σ)

/-- `FromStr` of the variable does not throw on the text. -/
def accepts (r : Registry V σ) (p : ℕ) (val : Text) : Bool :=
  r.vars[p]?.any fun c => ((V c.type).fromStr val).isSome

/-- The locks of the loop of `Config::LoadFromYaml`: the `ReadLock` of `LookupBase`, and the
`WriteLock` of `setValue` that `fromString` calls. -/
def loopLocks (r : Registry V σ) (t : θ) :
    List (Text × Yaml) → RWMutex θ × (ℕ → RWMutex θ) → Option (RWMutex θ × (ℕ → RWMutex θ))
  | [], x => some x
  | i :: l, x =>
    if i.1.isEmpty then loopLocks r t l x
    else
      (x.1.readSection t some).bind fun m =>
        match r.lookupBase (i.1.map Char.toLower) with
        | none => loopLocks r t l (m, x.2)
        | some p =>
          if accepts r p (nodeText emit i.2) then
            ((x.2 p).guard t .wrlock).bind fun c => loopLocks r t l (m, Function.update x.2 p c)
          else loopLocks r t l (m, x.2)

/-- The locks of `Config::LoadFromYaml`. -/
def loadLocks (r : Registry V σ) (t : θ) (root : Yaml) (x : RWMutex θ × (ℕ → RWMutex θ)) :
    Option (RWMutex θ × (ℕ → RWMutex θ)) :=
  (listLocks t [] root x.1).bind fun m => (m.guard t .rdlock).bind fun m =>
    (loopLocks emit r t (listAllMember [] root) (m, x.2)).bind fun x =>
      (x.1.unlock t).map (·, x.2)

/-- The locks of a call of the thread `t`; `none`: one waits, or a release is undefined. -/
def locks (r : Registry V σ) (t : θ) (x : RWMutex θ × (ℕ → RWMutex θ)) :
    Registry.Op V σ → Option (RWMutex θ × (ℕ → RWMutex θ))
  | .lookup .. => (x.1.guard t .wrlock).map (·, x.2)
  | .find .. => (x.1.readSection t some).map (·, x.2)
  | .load root => loadLocks emit r t root x
  | .use _ none _ => some x
  | .use p (some .rdlock) _ =>
    ((x.2 p).readSection t some).map fun c => (x.1, Function.update x.2 p c)
  | .use p (some acquire) _ =>
    ((x.2 p).guard t acquire).map fun c => (x.1, Function.update x.2 p c)

/-- The call logs a message: that a name exists, or is not valid, or that a prefix is not valid, or
that a text cannot be decoded. -/
def logs (r : Registry V σ) : Registry.Op V σ → Bool
  | .lookup _ name _ => (r.lookupBase name).isSome || !validName name
  | .load root => refuses [] root || (listAllMember [] root).any fun i =>
      !i.1.isEmpty && (r.lookupBase (i.1.map Char.toLower)).any fun p =>
        !accepts r p (nodeText emit i.2)
  | .find .. | .use .. => false

/-- A call of a thread; `logged`: the messages that it logs come to their end. -/
structure Call {τ : Type} (V : τ → ValueType) (σ θ : Type) where
  thread : θ
  op : Registry.Op V σ
  logged : Bool

variable [DecidableEq τ]

def step (s : LockedRegistry V σ θ) (a : Call V σ θ) : Option (LockedRegistry V σ θ) :=
  if !a.logged && logs emit s.registry a.op then none
  else
    (locks emit s.registry a.thread (s.mutex, s.varMutex) a.op).bind fun x =>
      (s.registry.call emit report a.op).map fun r => ⟨r, x.1, x.2⟩

/-- An empty registry, and the calls of the threads. -/
def sys : Sys (LockedRegistry V σ θ) (Call V σ θ) where
  init s := s.registry.datas = (fun _ => none) ∧ s.registry.vars = [] ∧ s.registry.held = [] ∧
    s.mutex = {} ∧ s.varMutex = fun _ => {}
  step s a := s.step emit report a

/-- No name is asked for with another type than it is registered with. -/
def SameType (s : LockedRegistry V σ θ) (a : Call V σ θ) : Prop := s.registry.SameType a.op

instance (s : LockedRegistry V σ θ) (a : Call V σ θ) : Decidable (SameType s a) :=
  inferInstanceAs (Decidable (s.registry.SameType a.op))

omit [DecidableEq θ] [DecidableEq τ] in
/-- The call logs no message, or its messages come to their end. -/
def Logged (s : LockedRegistry V σ θ) (a : Call V σ θ) : Prop :=
  logs emit s.registry a.op = true → a.logged = true

omit [DecidableEq θ] [DecidableEq τ] in
/-- No other thread has the write hold of a variable that gets a value of a node in the list. -/
def SetOpen (r : Registry V σ) (t : θ) (l : List (Text × Yaml)) (c : ℕ → RWMutex θ) : Prop :=
  ∀ i ∈ l, i.1 ≠ [] → ∀ p, r.lookupBase (i.1.map Char.toLower) = some p →
    accepts r p (nodeText emit i.2) = true → (c p).OpenTo t

/-- The locks let `LoadFromYaml` of the thread `t` through: nobody has the write hold of
`GetMutex()`, or the thread itself has it and there is no entry to list, and no other thread has
that of a variable to be set. -/
def Loadable (s : LockedRegistry V σ θ) (t : θ) (root : Yaml) : Prop :=
  (s.mutex.writer = none ∨ s.mutex.writer = some t ∧ root.members = []) ∧
    SetOpen emit s.registry t (listAllMember [] root) s.varMutex

/-- Between the calls nobody has a read hold. -/
structure Quiet (x : RWMutex θ × (ℕ → RWMutex θ)) : Prop where
  mutex : x.1.readers = 0
  var : ∀ p, (x.2 p).readers = 0

variable {emit : Yaml → Text} {report : σ → σ} {s s' : LockedRegistry V σ θ} {t u : θ}
  {r : Registry V σ} {x y : RWMutex θ × (ℕ → RWMutex θ)} {a : Call V σ θ}

omit [DecidableEq θ] [DecidableEq τ] in
/-- A variable that the thread has set is open to it as before. -/
theorem openTo_update {c : ℕ → RWMutex θ} {p q : ℕ} (h : (c p).OpenTo t) :
    (Function.update c p { writer := some t } q).OpenTo t ↔ (c q).OpenTo t := by
  by_cases hq : q = p
  · subst hq
    rw [Function.update_self]
    exact ⟨fun _ => h, fun _ u hu => (Option.some.inj hu).symm⟩
  · rw [Function.update_of_ne hq]

omit [DecidableEq τ] in
variable (emit) in
/-- The loop goes through exactly if the variables to be set are open to the thread, and leaves
`GetMutex()` as it is. -/
theorem loopLocks_cases (l : List (Text × Yaml)) (hfree : x.1.writer = none)
    (hq : ∀ p, (x.2 p).readers = 0) :
    (SetOpen emit r t l x.2 ∧ ∃ c, loopLocks emit r t l x = some (x.1, c) ∧
      ∀ p, (c p).readers = 0) ∨
    (¬ SetOpen emit r t l x.2 ∧ loopLocks emit r t l x = none) := by
  induction l generalizing x with
  | nil => exact .inl ⟨fun i hi => absurd hi List.not_mem_nil, x.2, rfl, hq⟩
  | cons i l ih =>
    have hskip (h : i.1 ≠ [] → ∀ p, r.lookupBase (i.1.map Char.toLower) = some p →
        accepts r p (nodeText emit i.2) ≠ true) :
        SetOpen emit r t (i :: l) x.2 ↔ SetOpen emit r t l x.2 := by
      unfold SetOpen
      rw [List.forall_mem_cons]
      exact and_iff_right fun hi p hp ha => absurd ha (h hi p hp)
    rw [loopLocks]
    by_cases hi : i.1 = []
    · rw [if_pos (by rw [hi]; rfl), hskip fun h => absurd hi h]
      exact ih hfree hq
    · rw [if_neg (by simpa using hi), RWMutex.readSection_free hfree fun _ _ => rfl,
        Option.bind_some]
      cases hp : r.lookupBase (i.1.map Char.toLower) with
      | none =>
        rw [hskip fun _ p h => by rw [hp] at h; cases h]
        exact ih hfree hq
      | some p =>
        simp only
        by_cases ha : accepts r p (nodeText emit i.2) = true
        · rw [if_pos ha]
          by_cases ho : (x.2 p).OpenTo t
          · -- the value is set, and the thread keeps the hold of the variable
            rw [RWMutex.guard_write (hq p) ho, Option.bind_some]
            have hset : SetOpen emit r t (i :: l) x.2 ↔
                SetOpen emit r t l (Function.update x.2 p { writer := some t }) := by
              unfold SetOpen
              rw [List.forall_mem_cons]
              simp only [openTo_update ho]
              refine and_iff_right fun _ q hq _ => ?_
              rw [hp] at hq
              rwa [← Option.some.inj hq]
            rw [hset]
            refine ih (x := (x.1, Function.update x.2 p { writer := some t })) hfree fun q => ?_
            by_cases hqp : q = p
            · subst hqp
              simp
            · simpa [hqp] using hq q
          · refine .inr ⟨fun h => ho (h i List.mem_cons_self hi p hp ha), ?_⟩
            cases hg : (x.2 p).guard t .wrlock with
            | none => rfl
            | some c =>
              exact absurd ((RWMutex.guard_wrlock_isSome (hq p)).mp (by rw [hg]; rfl)) ho
        · rw [if_neg ha, hskip fun _ q h => by rw [hp] at h; cases h; exact ha]
          exact ih hfree hq

omit [DecidableEq τ] in
variable (emit) in
theorem loadLocks_cases (hq : Quiet (s.mutex, s.varMutex)) (t : θ) (root : Yaml) :
    (s.Loadable emit t root ∧
      ∃ y, loadLocks emit s.registry t root (s.mutex, s.varMutex) = some y ∧ Quiet y) ∨
    (¬ s.Loadable emit t root ∧
      loadLocks emit s.registry t root (s.mutex, s.varMutex) = none) := by
  cases hw : s.mutex.writer with
  | none =>
    rw [loadLocks, listLocks_free _ _ hw, Option.bind_some, RWMutex.guard_read hw,
      Option.bind_some]
    rcases loopLocks_cases emit (r := s.registry) (t := t)
      (x := ({ s.mutex with readers := s.mutex.readers + 1 }, s.varMutex))
      (listAllMember [] root) hw hq.var with ⟨hopen, c, hc, hqc⟩ | ⟨hno, hc⟩
    · refine .inl ⟨⟨.inl hw, hopen⟩, (s.mutex, c), ?_, hq.mutex, hqc⟩
      rw [hc, Option.bind_some, RWMutex.unlock_read hw]
      rfl
    · refine .inr ⟨fun h => hno h.2, ?_⟩
      rw [hc]
      rfl
  | some u =>
    by_cases hu : u = t
    · subst hu
      have hm : s.mutex = { writer := some u } := by rw [← hw, ← hq.mutex]
      rw [loadLocks, hm, listLocks_own]
      by_cases hmem : root.members = []
      · -- only the root is listed, and it is under no name
        have hlist : listAllMember [] root = [([], root)] := by
          cases root with
          | map kvs =>
            obtain rfl : kvs = [] := hmem
            rfl
          | _ => rfl
        rw [if_pos (.inl hmem), hlist]
        refine .inl ⟨⟨.inr ⟨hw, hmem⟩, ?_⟩, ({}, s.varMutex), rfl, rfl, hq.var⟩
        rw [hlist]
        intro i hi hne
        rw [List.mem_singleton.mp hi] at hne
        exact absurd rfl hne
      · refine .inr ⟨fun h => ?_, ?_⟩
        · rcases h.1 with h | ⟨-, h⟩
          · rw [hw] at h
            cases h
          · exact hmem h
        · rw [if_neg]
          · rfl
          · rintro (h | h)
            · exact hmem h
            · cases h
    · refine .inr ⟨fun h => ?_, ?_⟩
      · rcases h.1 with h | ⟨h, -⟩ <;> rw [hw] at h <;> cases h
        exact hu rfl
      · rw [loadLocks, listLocks_other _ _ hu hw]
        rfl

omit [DecidableEq τ] in
/-- The locks of a call leave no read hold. -/
theorem quiet_locks {op : Registry.Op V σ} (hq : Quiet (s.mutex, s.varMutex))
    (h : locks emit s.registry t (s.mutex, s.varMutex) op = some y) : Quiet y := by
  have hwrite {m m' : RWMutex θ} (hm : m.readers = 0) (hg : m.guard t .wrlock = some m') :
      m'.readers = 0 := by
    have ho := (RWMutex.guard_wrlock_isSome (t := t) hm).mp (by rw [hg]; rfl)
    rw [RWMutex.guard_write hm ho] at hg
    cases hg
    rfl
  have hread {m m' : RWMutex θ} (hm : m.readers = 0) (hg : m.readSection t some = some m') :
      m'.readers = 0 := by
    cases hw : m.writer with
    | none =>
      rw [RWMutex.readSection_free hw fun _ _ => rfl] at hg
      cases hg
      exact hm
    | some u =>
      by_cases hu : u = t
      · subst hu
        rw [RWMutex.readSection_own hw rfl] at hg
        cases hg
        exact hm
      · rw [RWMutex.readSection_other hu hw] at hg
        cases hg
  have hvar {p : ℕ} {c : RWMutex θ} (hc : c.readers = 0) (q : ℕ) :
      (Function.update s.varMutex p c q).readers = 0 := by
    by_cases hqp : q = p
    · subst hqp
      rwa [Function.update_self]
    · rw [Function.update_of_ne hqp]
      exact hq.var q
  cases op with
  | lookup =>
    obtain ⟨m, hm, rfl⟩ := Option.map_eq_some_iff.mp h
    exact ⟨hwrite hq.mutex hm, hq.var⟩
  | find =>
    obtain ⟨m, hm, rfl⟩ := Option.map_eq_some_iff.mp h
    exact ⟨hread hq.mutex hm, hq.var⟩
  | load root =>
    rcases loadLocks_cases emit hq t root with ⟨-, y', hy, hqy⟩ | ⟨-, hn⟩
    · cases hy.symm.trans h
      exact hqy
    · cases hn.symm.trans h
  | use p acquire f =>
    cases acquire with
    | none =>
      cases h
      exact hq
    | some acquire =>
      cases acquire with
      | lock => cases h
      | rdlock =>
        obtain ⟨c, hc, rfl⟩ := Option.map_eq_some_iff.mp h
        exact ⟨hq.mutex, hvar (hread (hq.var p) hc)⟩
      | wrlock =>
        obtain ⟨c, hc, rfl⟩ := Option.map_eq_some_iff.mp h
        exact ⟨hq.mutex, hvar (hwrite (hq.var p) hc)⟩

theorem step_eq (h : s.step emit report a = some s') :
    s.registry.call emit report a.op = some s'.registry ∧
      locks emit s.registry a.thread (s.mutex, s.varMutex) a.op = some (s'.mutex, s'.varMutex) := by
  unfold step at h
  split at h
  · cases h
  · obtain ⟨x, hx, h⟩ := Option.bind_eq_some_iff.mp h
    obtain ⟨r, hr, rfl⟩ := Option.map_eq_some_iff.mp h
    exact ⟨hr, hx⟩

/-- A call whose messages come to their end waits for its locks alone. -/
theorem step_isSome (hcall : (s.registry.call emit report a.op).isSome = true) :
    (s.step emit report a).isSome ↔ s.Logged emit a ∧
      (locks emit s.registry a.thread (s.mutex, s.varMutex) a.op).isSome := by
  obtain ⟨r, hr⟩ := Option.isSome_iff_exists.mp hcall
  unfold step Logged
  rw [hr]
  cases logs emit s.registry a.op <;> cases a.logged <;>
    cases locks emit s.registry a.thread (s.mutex, s.varMutex) a.op <;> simp

theorem wf_inductive (emit : Yaml → Text) (report : σ → σ) :
    (sys (V := V) (θ := θ) emit report).Inductive Sys.free fun s =>
      s.registry.Wf ∧ Quiet (s.mutex, s.varMutex) where
  init s hs := by
    obtain ⟨hd, -, -, hm, hv⟩ := hs
    refine ⟨⟨fun name p hp => ?_, fun name _ p hp => ?_⟩, by rw [hm], fun p => ?_⟩
    · rw [hd] at hp
      cases hp
    · rw [hd] at hp
      cases hp
    · show (s.varMutex p).readers = 0
      rw [hv]
  step s a s' h _ hs := by
    obtain ⟨hcall, hlocks⟩ := step_eq hs
    exact ⟨(Registry.kept_call h.1 hcall).1, quiet_locks h.2 hlocks⟩

/-- What `LoadFromYaml` makes of the variables behind the names, every caller finds in the variable
it holds, where `LoadFromYaml` comes to its end. -/
def Updates (emit : Yaml → Text) (report : σ → σ) (s : LockedRegistry V σ θ) : Prop :=
  ∀ t root logged, s.Logged emit ⟨t, .load root, logged⟩ → s.Loadable emit t root →
    ∃ s' d', s.step emit report ⟨t, .load root, logged⟩ = some s' ∧
      Ddg.loadFromYaml emit report root s.registry.view = .done d' ∧
      ∀ h ∈ s.registry.held, s'.registry.content h.2 = d'.vars h.1

/-- **A registered name never changes its variable, and `Lookup` returns the registered variable
exactly where the name is not registered with another type.** Where its messages come to their end,
a call of `Lookup` does exactly if no other thread has the write hold of `GetMutex()`, and one of
`LoadFromYaml` exactly if the holds are `Loadable`. In a run in which no name is asked for with
another type than it is registered with, all pointers returned are to the registered variables, and
a `LoadFromYaml` that comes to its end updates what they point to. -/
theorem lookup_exact (emit : Yaml → Text) (report : σ → σ)
    (h : (sys (V := V) (θ := θ) emit report).Reach Sys.free s) :
    (∀ t type name v logged, (s.step emit report ⟨t, .lookup type name v, logged⟩).isSome ↔
      s.Logged emit ⟨t, .lookup type name v, logged⟩ ∧ s.mutex.OpenTo t) ∧
    (∀ type name v p r', s.registry.lookup type name v = some (p, r') →
      (r'.lookupBase name = some p ↔ s.registry.SameType (.lookup type name v))) ∧
    (∀ a s', s.step emit report a = some s' →
      ∀ name p, s.registry.lookupBase name = some p → s'.registry.lookupBase name = some p) ∧
    (∀ t root logged, (s.step emit report ⟨t, .load root, logged⟩).isSome ↔
      s.Logged emit ⟨t, .load root, logged⟩ ∧ s.Loadable emit t root) ∧
    ((sys (V := V) (θ := θ) emit report).Reach SameType s →
      s.registry.Registered ∧ s.Updates emit report) := by
  obtain ⟨hw, hq⟩ := (wf_inductive emit report).reach h
  have hload (t : θ) (root : Yaml) (logged : Bool) :
      (s.step emit report ⟨t, .load root, logged⟩).isSome ↔
        s.Logged emit ⟨t, .load root, logged⟩ ∧ s.Loadable emit t root := by
    obtain ⟨r', hr', -⟩ := Registry.loadFromYaml_view emit report root hw
    rw [step_isSome (by rw [Registry.call, hr']; rfl), locks]
    refine and_congr_right fun _ => ?_
    rcases loadLocks_cases emit hq t root with ⟨hl, y, hy, -⟩ | ⟨hl, hn⟩
    · rw [hy]
      exact iff_of_true rfl hl
    · rw [hn]
      exact iff_of_false Bool.false_ne_true hl
  refine ⟨fun t type name v logged => ?_,
    fun type name v p r' hl => Registry.registered_iff hw hl, ?_, hload, fun hr => ?_⟩
  · have hcall : (s.registry.call emit report (.lookup type name v)).isSome = true := by
      rw [Registry.call]
      split <;> rfl
    rw [step_isSome hcall, locks, Option.isSome_map, RWMutex.guard_wrlock_isSome hq.mutex]
  · intro a s' hs
    exact (Registry.kept_call hw (step_eq hs).1).2
  · have hreg : (sys (V := V) (θ := θ) emit report).Inductive SameType fun s =>
        (s.registry.Wf ∧ Quiet (s.mutex, s.varMutex)) ∧ s.registry.Registered := by
      refine ((wf_inductive emit report).mono fun _ _ _ => trivial).and ?_ ?_
      · intro s hs x hx
        rw [hs.2.2.1] at hx
        cases hx
      · intro s a s' hi h hc hs
        exact Registry.registered_call hi.1 h hc (step_eq hs).1
    have hinv := (hreg.reach hr).2
    refine ⟨hinv, fun t root logged hlogged hl => ?_⟩
    obtain ⟨s', hs'⟩ := Option.isSome_iff_exists.mp ((hload t root logged).mpr ⟨hlogged, hl⟩)
    obtain ⟨r', d', hr', hd', hheld⟩ := hinv.updates hw emit report root
    have hcall := (step_eq hs').1
    rw [Registry.call, hr', CallResult.state_done, Option.some.injEq] at hcall
    exact ⟨s', d', hs', hd', fun x hx => hcall ▸ hheld x hx⟩

/-- `int`, and a type of other values. -/
def twoTypes : Bool → ValueType
  | false => ⟨ℤ, inferInstance, fun t => some t.length⟩
  | true => ⟨Bool, inferInstance, fun t => some t.isEmpty⟩

/-- The registry at its start, with two threads. -/
def empty : LockedRegistry twoTypes Unit Bool := ⟨⟨fun _ => none, [], [], (), []⟩, {}, fun _ => {}⟩

theorem empty_init : (sys (fun _ => []) id).init empty := ⟨rfl, rfl, rfl, rfl, rfl⟩

/-- A name is asked for twice with one type, and a second name with another; then the thread asks
for the first name without a default, which releases its hold, and another one loads a file. Only
the second call logs a message. -/
theorem lookup_twice : ∃ s : LockedRegistry twoTypes Unit Bool,
    s.registry.held = [(['p'], 0), (['q'], 1), (['p'], 0), (['p'], 0)] ∧ s.registry.Registered ∧
      s.mutex.writer = none := by
  obtain ⟨s, hs, hp⟩ := Sys.exists_of_runBy (S := sys (V := twoTypes) (θ := Bool) (fun _ => []) id)
    (C := SameType) (s := empty)
    [⟨true, .lookup false ['p'] (8080 : ℤ), false⟩, ⟨true, .lookup false ['p'] (1 : ℤ), true⟩,
      ⟨true, .lookup true ['q'] (true : Bool), false⟩, ⟨true, .find false ['p'], false⟩,
      ⟨false, .load (.map [(.scalar ['p'], .scalar ['8', '0'])]), false⟩]
    (p := fun s => s.registry.held == [(['p'], 0), (['q'], 1), (['p'], 0), (['p'], 0)] &&
      s.mutex.writer == none) (by decide +kernel)
  simp only [Bool.and_eq_true, beq_iff_eq] at hp
  have hreach : (sys (V := twoTypes) (fun _ => []) id).Reach SameType s := ⟨_, empty_init, hs⟩
  exact ⟨s, hp.1, ((lookup_exact (fun _ => []) id hreach.toFree).2.2.2.2 hreach).1, hp.2⟩

/-- A name asked for with a second type: the pointer returned is to a variable without a name. -/
theorem lookup_unregistered : ∃ s : LockedRegistry twoTypes Unit Bool,
    (sys (fun _ => []) id).Reach Sys.free s ∧
      (['p'], 1) ∈ s.registry.held ∧ s.registry.lookupBase ['p'] = some 0 ∧
      ¬ s.registry.Registered := by
  obtain ⟨s, hs, hp⟩ := Sys.exists_of_runBy (S := sys (V := twoTypes) (θ := Bool) (fun _ => []) id)
    (C := Sys.free) (s := empty)
    [⟨true, .lookup false ['p'] (8080 : ℤ), true⟩, ⟨true, .lookup true ['p'] (true : Bool), true⟩]
    (p := fun s => (s.registry.held == [(['p'], 1), (['p'], 0)]) &&
      s.registry.lookupBase ['p'] == some 0) (by decide)
  simp only [Bool.and_eq_true, beq_iff_eq] at hp
  have hmem : (['p'], 1) ∈ s.registry.held := by simp [hp.1]
  refine ⟨s, ⟨_, empty_init, hs⟩, hmem, hp.2, fun h => ?_⟩
  have := h _ hmem
  rw [hp.2] at this
  contradiction

end LockedRegistry

end Calls

end Ddg
