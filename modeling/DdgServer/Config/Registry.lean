import Mathlib.Data.Int.Notation
import DdgServer.Config.Load
import DdgServer.Sync.Guard

/-!
# The registry and the variables behind it

`Config::Lookup` hands out pointers. The variables are cells on a heap, each with the type it was
made with; a pointer is the number of a cell, and `GetDatas()` maps a name to one. `held` are the
pointers that `Lookup` has returned, with the names they were asked for. The messages are left out.

The calls are here without their locks; `DdgServer/Config/Lookup.lean` has the threads and the
mutexes.

* `SameType`: a name is asked for only with the type it is registered with. `registered_iff`: this
  is when `Lookup` returns the registered variable.
* `Wf`: names lead to different cells. Loading a file through the map is then `loadFromYaml` on
  what the names lead to (`loadFromYaml_view`).
-/

namespace Ddg

open Interleave

/-- A type of values with its `operator==` and `FromStr`. -/
structure ValueType where
  T : Type
  eq : BEq T
  fromStr : Text → Option T

/-- A `ConfigVar<T>`. -/
structure Cell {τ : Type} (V : τ → ValueType) (σ : Type) where
  type : τ
  var : ConfigVar (V type).T (Listener (V type).T σ)

/-- `GetDatas()`, the variables, the calls of listeners so far (as in `ConfigDatas`), the rest of
the program, and the pointers returned. -/
structure Registry {τ : Type} (V : τ → ValueType) (σ : Type) where
  datas : Text → Option ℕ
  vars : List (Cell V σ)
  calls : List (Text × ℕ) := []
  world : σ
  held : List (Text × ℕ) := []

section Cells

variable {τ σ : Type} {V : τ → ValueType}

namespace Cell

/-- The variable as a `ConfigVarBase`. -/
def any (c : Cell V σ) : AnyVar σ := ⟨(V c.type).T, (V c.type).eq, (V c.type).fromStr, c.var⟩

def fromString (c : Cell V σ) (name : Text) (report : σ → σ) (val : Text)
    (w : List (Text × ℕ) × σ) : CallResult (Cell V σ × List (Text × ℕ) × σ) :=
  letI := (V c.type).eq
  (c.var.fromString (V c.type).fromStr (AnyVar.called name) (fun w => .done (w.1, report w.2))
    val w).map fun r => ({ c with var := r.2.1 }, r.2.2)

/-- Giving a text to the variable is giving it to the `ConfigVarBase`, and it returns. -/
theorem fromString_any (c : Cell V σ) (name : Text) (report : σ → σ) (val : Text)
    (w : List (Text × ℕ) × σ) :
    ∃ r, c.fromString name report val w = .done r ∧
      c.any.fromString name report val w = .done (r.1.any, r.2) := by
  have hmap : (c.fromString name report val w).map (fun r => (r.1.any, r.2)) =
      c.any.fromString name report val w := by
    rw [fromString, CallResult.map_map]
    rfl
  obtain ⟨x, new, world, hx, -⟩ := c.any.fromString_cases report name val w
  rw [← hmap] at hx ⊢
  cases hc : c.fromString name report val w with
  | done r => exact ⟨r, rfl, rfl⟩
  | thrown r => rw [hc] at hx; contradiction
  | crashed => rw [hc] at hx; contradiction

end Cell

namespace Registry

variable (r : Registry V σ)

/-- `Config::LookupBase`. -/
def lookupBase (name : Text) : Option ℕ := r.datas name

/-- The type of the variable that `p` points to. -/
def typeOf (p : ℕ) : Option τ := r.vars[p]?.map Cell.type

/-- `GetDatas().insert(std::make_pair(name, p))`, which does nothing where the name is registered. -/
def insert (name : Text) (p : ℕ) : Registry V σ :=
  match r.datas name with
  | some _ => r
  | none => { r with datas := Function.update r.datas name (some p) }

/-- The end of `Config::Lookup<T>(name, default_value)`, which makes a variable. -/
def make (type : τ) (name : Text) (default_value : (V type).T) : Option (ℕ × Registry V σ) :=
  if !validName name then none
  else
    let elem : Cell V σ := ⟨type, { val := default_value }⟩
    let p := r.vars.length
    some (p, { r with vars := r.vars ++ [elem] }.insert name p)

/-- `Config::Lookup<T>(name, default_value)`: the pointer it returns; `none`: it throws
`std::invalid_argument`. The cast of a registered variable is null for another type. -/
def lookup [DecidableEq τ] (type : τ) (name : Text) (default_value : (V type).T) :
    Option (ℕ × Registry V σ) :=
  match r.datas name with
  | some p => if r.typeOf p = some type then some (p, r) else r.make type name default_value
  | none => r.make type name default_value

/-- `Config::Lookup<T>(name)`: the pointer it returns, `none` for null. -/
def find [DecidableEq τ] (type : τ) (name : Text) : Option ℕ :=
  match r.datas name with
  | some p => if r.typeOf p = some type then some p else none
  | none => none

section Load

variable (emit : Yaml → Text) (report : σ → σ)

/-- The loop body of `Config::LoadFromYaml`; `crashed` is a pointer to no variable. -/
def loadMember (i : Text × Yaml) : CallResult (Registry V σ) :=
  if i.1.isEmpty then .done r
  else
    let key := i.1.map Char.toLower
    match r.lookupBase key with
    | none => .done r
    | some p =>
      match r.vars[p]? with
      | none => .crashed
      | some var =>
        (var.fromString key report (nodeText emit i.2) (r.calls, r.world)).map fun c =>
          { r with vars := r.vars.set p c.1, calls := c.2.1, world := c.2.2 }

def loadMembers : List (Text × Yaml) → Registry V σ → CallResult (Registry V σ)
  | [], r => .done r
  | i :: l, r => (r.loadMember emit report i).bind (loadMembers l)

/-- `Config::LoadFromYaml`. -/
def loadFromYaml (root : Yaml) : CallResult (Registry V σ) :=
  loadMembers emit report (listAllMember [] root) r

end Load

/-- The variable that `p` points to. -/
def content (p : ℕ) : Option (AnyVar σ) := r.vars[p]?.map Cell.any

/-- What the names lead to. -/
def view : ConfigDatas σ where
  vars name := (r.datas name).bind r.content
  calls := r.calls
  world := r.world

/-- Distinct names lead to distinct variables. -/
structure Wf (r : Registry V σ) : Prop where
  bound : ∀ name p, r.datas name = some p → p < r.vars.length
  inj : ∀ name name' p, r.datas name = some p → r.datas name' = some p → name = name'

/-! ### Loading through the map -/

variable {r} {r' : Registry V σ} {emit : Yaml → Text} {report : σ → σ}

/-- What loading leaves alone. -/
structure Frame (r r' : Registry V σ) : Prop where
  datas : r'.datas = r.datas
  held : r'.held = r.held
  length : r'.vars.length = r.vars.length

theorem Frame.refl (r : Registry V σ) : Frame r r := ⟨rfl, rfl, rfl⟩

theorem Frame.trans {r'' : Registry V σ} (h : Frame r r') (h' : Frame r' r'') : Frame r r'' :=
  ⟨h'.datas.trans h.datas, h'.held.trans h.held, h'.length.trans h.length⟩

theorem Wf.frame (h : Wf r) (hf : Frame r r') : Wf r' where
  bound name p := by
    rw [hf.datas, hf.length]
    exact h.bound name p
  inj name name' p := by
    rw [hf.datas]
    exact h.inj name name' p

/-- A variable that a name leads to is changed under that name alone. -/
theorem view_set {name : Text} {p : ℕ} {c : Cell V σ} (h : Wf r) (hp : r.datas name = some p)
    (calls : List (Text × ℕ)) (world : σ) :
    { r with vars := r.vars.set p c, calls, world }.view =
      { vars := Function.update r.view.vars name (some c.any), calls, world } := by
  have hlt := h.bound name p hp
  simp only [view, ConfigDatas.mk.injEq, and_true]
  funext other
  by_cases ho : other = name
  · subst ho
    simp [hp, content, hlt]
  · rw [Function.update_of_ne ho]
    cases hq : r.datas other with
    | none => rfl
    | some q =>
      have hne : p ≠ q := fun he => ho (h.inj other name p (he ▸ hq) hp)
      simp [content, hne]

/-- One round of the loop. -/
theorem loadMember_view (h : Wf r) (i : Text × Yaml) :
    ∃ r', r.loadMember emit report i = .done r' ∧ Frame r r' ∧
      Ddg.loadMember emit report r.view i = .done r'.view := by
  by_cases hi : i.1.isEmpty = true
  · exact ⟨r, by rw [loadMember, if_pos hi], .refl r, by rw [Ddg.loadMember, if_pos hi]⟩
  cases hp : r.datas (i.1.map Char.toLower) with
  | none =>
    refine ⟨r, by simp only [loadMember, if_neg hi, lookupBase, hp], .refl r, ?_⟩
    simp only [Ddg.loadMember, if_neg hi, view, hp, Option.bind_none]
  | some p =>
    have hlt := h.bound _ p hp
    obtain ⟨c, hc, hany⟩ := r.vars[p].fromString_any (i.1.map Char.toLower) report
      (nodeText emit i.2) (r.calls, r.world)
    refine ⟨{ r with vars := r.vars.set p c.1, calls := c.2.1, world := c.2.2 }, ?_, ?_, ?_⟩
    · simp only [loadMember, if_neg hi, lookupBase, hp, List.getElem?_eq_getElem hlt, hc,
        CallResult.map_done]
    · exact ⟨rfl, rfl, List.length_set⟩
    · have hcell : r.view.vars (i.1.map Char.toLower) = some r.vars[p].any := by
        simp [view, hp, content, hlt]
      simp only [Ddg.loadMember, if_neg hi, hcell]
      rw [view_set h hp]
      exact congrArg (CallResult.map _) hany

theorem loadMembers_view (l : List (Text × Yaml)) (h : Wf r) :
    ∃ r', loadMembers emit report l r = .done r' ∧ Frame r r' ∧
      Ddg.loadMembers emit report l r.view = .done r'.view := by
  induction l generalizing r with
  | nil => exact ⟨r, rfl, .refl r, rfl⟩
  | cons i l ih =>
    obtain ⟨t, ht, hf, hv⟩ : ∃ t, r.loadMember emit report i = .done t ∧ Frame r t ∧
        Ddg.loadMember emit report r.view i = .done t.view := loadMember_view h i
    obtain ⟨r', hr', hf', hv'⟩ := ih (h.frame hf)
    refine ⟨r', ?_, hf.trans hf', ?_⟩
    · rw [loadMembers, ht, CallResult.bind_done, hr']
    · rw [Ddg.loadMembers, hv, CallResult.bind_done, hv']

/-- **Loading through the map is loading what the names lead to.** -/
theorem loadFromYaml_view (emit : Yaml → Text) (report : σ → σ) (root : Yaml) (h : Wf r) :
    ∃ r', r.loadFromYaml emit report root = .done r' ∧ Frame r r' ∧
      Ddg.loadFromYaml emit report root r.view = .done r'.view :=
  loadMembers_view _ h

/-- Every pointer returned points to the variable that is registered under its name. -/
def Registered (r : Registry V σ) : Prop := ∀ h ∈ r.held, r.lookupBase h.1 = some h.2

/-- What `LoadFromYaml` makes of the variables behind the names, every caller finds in the variable
it holds. -/
theorem Registered.updates (h : Registered r) (hw : Wf r) (emit : Yaml → Text) (report : σ → σ)
    (root : Yaml) : ∃ r' s', r.loadFromYaml emit report root = .done r' ∧
      Ddg.loadFromYaml emit report root r.view = .done s' ∧
      ∀ h ∈ r.held, r'.content h.2 = s'.vars h.1 := by
  obtain ⟨r', hr', hf, hv⟩ := loadFromYaml_view emit report root hw
  refine ⟨r', r'.view, hr', hv, fun x hx => ?_⟩
  have hx' : r'.datas x.1 = some x.2 := by
    rw [hf.datas]
    exact h x hx
  simp [view, hx']

/-! ### A variable more -/

section Added

variable {name : Text}

/-- The registry after a new variable was inserted under a name. -/
def added (r : Registry V σ) (name : Text) (elem : Cell V σ) : Registry V σ :=
  { r with vars := r.vars ++ [elem] }.insert name r.vars.length

theorem added_of_some {q : ℕ} (h : r.datas name = some q) (elem : Cell V σ) :
    r.added name elem = { r with vars := r.vars ++ [elem] } := by
  simp [added, insert, h]

theorem added_of_none (h : r.datas name = none) (elem : Cell V σ) :
    r.added name elem = { r with datas := Function.update r.datas name (some r.vars.length),
                                 vars := r.vars ++ [elem] } := by
  simp [added, insert, h]

@[simp] theorem added_held (r : Registry V σ) (name : Text) (elem : Cell V σ) :
    (r.added name elem).held = r.held := by
  cases h : r.datas name with
  | some q => rw [added_of_some h]
  | none => rw [added_of_none h]

/-- A registered name keeps its variable. -/
theorem datas_added {other : Text} {q : ℕ} (h : r.datas other = some q) (name : Text)
    (elem : Cell V σ) : (r.added name elem).datas other = some q := by
  cases hn : r.datas name with
  | some _ => rwa [added_of_some hn]
  | none =>
    rw [added_of_none hn]
    dsimp only
    rwa [Function.update_of_ne]
    rintro rfl
    rw [hn] at h
    contradiction

/-- The name leads to the new variable exactly where it was not registered. -/
theorem datas_added_self (h : Wf r) (elem : Cell V σ) :
    (r.added name elem).datas name = some r.vars.length ↔ r.datas name = none := by
  cases hn : r.datas name with
  | some q =>
    have hlt := h.bound name q hn
    rw [added_of_some hn]
    simp [hn]
    omega
  | none =>
    rw [added_of_none hn]
    simp

theorem Wf.added (h : Wf r) (name : Text) (elem : Cell V σ) : Wf (r.added name elem) := by
  cases hn : r.datas name with
  | some q =>
    rw [added_of_some hn]
    refine ⟨fun other p hp => ?_, h.inj⟩
    have := h.bound other p hp
    rw [List.length_append]
    omega
  | none =>
    rw [added_of_none hn]
    have hnew : ∀ other p, Function.update r.datas name (some r.vars.length) other = some p →
        (other = name ∧ p = r.vars.length) ∨ (r.datas other = some p ∧ p < r.vars.length) := by
      intro other p hp
      rcases update_cases hp with ⟨rfl, he⟩ | ⟨-, he⟩
      · exact .inl ⟨rfl, (Option.some.inj he).symm⟩
      · exact .inr ⟨he, h.bound other p he⟩
    refine ⟨fun other p hp => ?_, fun other other' p hp hp' => ?_⟩
    · rw [List.length_append, List.length_singleton]
      rcases hnew other p hp with ⟨-, rfl⟩ | ⟨-, hlt⟩ <;> omega
    · rcases hnew other p hp with ⟨rfl, rfl⟩ | ⟨he, hlt⟩
      · rcases hnew other' _ hp' with ⟨rfl, -⟩ | ⟨-, hlt⟩
        · rfl
        · omega
      · rcases hnew other' p hp' with ⟨-, rfl⟩ | ⟨he', -⟩
        · omega
        · exact h.inj other other' p he he'

end Added

/-! ### The calls -/

inductive Op (V : τ → ValueType) (σ : Type)
  | lookup (type : τ) (name : Text) (default_value : (V type).T)
  | find (type : τ) (name : Text)
  | load (root : Yaml)
  /-- What a caller does with a variable, with the lock that it takes: it sets the value, adds
  listeners, and the like. -/
  | use (p : ℕ) (lock : Option Acquire) (f : ∀ type,
      ConfigVar (V type).T (Listener (V type).T σ) → ConfigVar (V type).T (Listener (V type).T σ))

variable [DecidableEq τ]

/-- A call, where no lock of it waits. -/
def call (emit : Yaml → Text) (report : σ → σ) (r : Registry V σ) : Op V σ → Option (Registry V σ)
  | .lookup type name default_value =>
    match r.lookup type name default_value with
    | some (p, r') => some { r' with held := (name, p) :: r'.held }
    | none => some r
  | .find type name =>
    match r.find type name with
    | some p => some { r with held := (name, p) :: r.held }
    | none => some r
  | .load root => (r.loadFromYaml emit report root).state
  | .use p _ f =>
    if p < r.vars.length then
      some { r with vars := r.vars.modify p fun c => { c with var := f c.type c.var } }
    else none

/-- The name is not registered with another type. -/
def SameType (r : Registry V σ) : Op V σ → Prop
  | .lookup type name _ => ∀ p ∈ r.datas name, r.typeOf p = some type
  | _ => True

instance : ∀ (r : Registry V σ) (a : Op V σ), Decidable (SameType r a)
  | r, .lookup type name _ =>
    inferInstanceAs (Decidable (∀ p ∈ r.datas name, r.typeOf p = some type))
  | _, .find .. | _, .load _ | _, .use .. => .isTrue trivial

section Calls

variable {type : τ} {name : Text} {v : (V type).T} {p : ℕ}

/-- What `Lookup` can return: the registered variable, or one that it makes. -/
theorem lookup_cases (h : r.lookup type name v = some (p, r')) :
    (r.datas name = some p ∧ r.typeOf p = some type ∧ r' = r) ∨
    ((∀ q ∈ r.datas name, r.typeOf q ≠ some type) ∧ p = r.vars.length ∧
      ∃ elem, r' = r.added name elem) := by
  have hmake (hm : r.make type name v = some (p, r')) :
      p = r.vars.length ∧ ∃ elem, r' = r.added name elem := by
    rw [make] at hm
    split at hm
    · contradiction
    · obtain ⟨rfl, rfl⟩ := Prod.mk.inj (Option.some.inj hm)
      exact ⟨rfl, _, rfl⟩
  rw [lookup] at h
  split at h
  · rename_i q hq
    split at h
    · rename_i ht
      obtain ⟨rfl, rfl⟩ := Prod.mk.inj (Option.some.inj h)
      exact .inl ⟨hq, ht, rfl⟩
    · rename_i ht
      refine .inr ⟨?_, hmake h⟩
      intro q' hq'
      rwa [← Option.some.inj (hq.symm.trans hq')]
  · rename_i hn
    refine .inr ⟨?_, hmake h⟩
    intro q hq
    rw [hn] at hq
    contradiction

/-- The variable returned is the registered one exactly where the name is not registered with
another type. -/
theorem registered_iff (h : Wf r) (hl : r.lookup type name v = some (p, r')) :
    r'.lookupBase name = some p ↔ SameType r (.lookup type name v) := by
  rcases lookup_cases hl with ⟨hp, ht, rfl⟩ | ⟨hne, rfl, elem, rfl⟩
  · refine ⟨fun _ q hq => ?_, fun _ => hp⟩
    rwa [← Option.some.inj (hp.symm.trans hq)]
  · rw [lookupBase, datas_added_self h]
    constructor
    · intro hn q hq
      rw [hn] at hq
      contradiction
    · intro hs
      cases hn : r.datas name with
      | none => rfl
      | some q => exact absurd (hs q hn) (hne q hn)

theorem find_registered (h : r.find type name = some p) : r.datas name = some p := by
  rw [find] at h
  split at h
  · rename_i q hq
    split at h
    · rwa [← Option.some.inj h]
    · contradiction
  · contradiction

end Calls

variable {emit : Yaml → Text} {report : σ → σ} {a : Op V σ}

/-- A call keeps the variables in their places, and a registered name keeps its variable. -/
theorem kept_call (h : Wf r) (hs : r.call emit report a = some r') :
    Wf r' ∧ ∀ name p, r.datas name = some p → r'.datas name = some p := by
  cases a with
  | lookup type name v =>
    simp only [call] at hs
    split at hs
    · rename_i p t ht
      cases hs
      rcases lookup_cases ht with ⟨-, -, rfl⟩ | ⟨-, rfl, elem, rfl⟩
      · exact ⟨⟨h.bound, h.inj⟩, fun _ _ hq => hq⟩
      · have hw := h.added name elem
        exact ⟨⟨hw.bound, hw.inj⟩, fun other q hq => datas_added hq name elem⟩
    · cases hs
      exact ⟨h, fun _ _ hq => hq⟩
  | find type name =>
    simp only [call] at hs
    split at hs <;> cases hs <;> exact ⟨⟨h.bound, h.inj⟩, fun _ _ hq => hq⟩
  | load root =>
    obtain ⟨t, ht, hf, -⟩ := loadFromYaml_view emit report root h
    rw [call, ht, CallResult.state_done, Option.some.injEq] at hs
    subst hs
    exact ⟨h.frame hf, fun name p hp => by rwa [hf.datas]⟩
  | use p lock f =>
    simp only [call] at hs
    split at hs
    · cases hs
      refine ⟨⟨fun name q hq => ?_, h.inj⟩, fun _ _ hq => hq⟩
      rw [List.length_modify]
      exact h.bound name q hq
    · cases hs

/-- A call that asks for no registered name with another type returns a registered variable. -/
theorem registered_call (hw : Wf r) (h : Registered r) (hc : SameType r a)
    (hs : r.call emit report a = some r') : Registered r' := by
  have hkept := (kept_call hw hs).2
  have hold : ∀ x ∈ r.held, r'.lookupBase x.1 = some x.2 := fun x hx => hkept _ _ (h x hx)
  cases a with
  | lookup type name v =>
    simp only [call] at hs
    split at hs
    · rename_i p t ht
      cases hs
      have hheld : t.held = r.held := by
        rcases lookup_cases ht with ⟨-, -, rfl⟩ | ⟨-, rfl, elem, rfl⟩
        · rfl
        · exact added_held ..
      intro x hx
      rcases List.mem_cons.mp hx with rfl | hx
      · exact (registered_iff hw ht).mpr hc
      · exact hold x (hheld ▸ hx)
    · cases hs
      exact h
  | find type name =>
    simp only [call] at hs
    split at hs
    · rename_i p hp
      cases hs
      intro x hx
      rcases List.mem_cons.mp hx with rfl | hx
      · exact find_registered hp
      · exact h x hx
    · cases hs
      exact h
  | load root =>
    obtain ⟨t, ht, hf, -⟩ := loadFromYaml_view emit report root hw
    rw [call, ht, CallResult.state_done, Option.some.injEq] at hs
    subst hs
    intro x hx
    exact hold x (hf.held ▸ hx)
  | use p lock f =>
    simp only [call] at hs
    split at hs
    · cases hs
      exact h
    · cases hs

end Registry

end Cells

end Ddg
