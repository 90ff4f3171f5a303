import Mathlib.Logic.Function.Basic
import DdgServer.Lib.Walk
import DdgServer.Config.Var

/-!
# Loading a configuration

`Config` of `ddg/config.cc`: the registry of the variables, `ListAllMember` and `LoadFromYaml`. A
variable of any type is an `AnyVar`; its listeners have an identity, and every call of one is
recorded. They return and leave the configuration alone: each maps the state of the rest of the
program. The message about an invalid name is left out; the message about an exception is
`report`.

* `listAllMember_walk`: `ListAllMember` lists the nodes of the walk that valid keys lead to.
* `loadFromYaml_exact`: what is listed, and what becomes of each variable.
-/

namespace Ddg

structure Listener (T σ : Type) where
  id : ℕ
  act : T → T → σ → σ

/-- A `ConfigVarBase` with the type `T` it has, `operator==` and `FromStr` of `T`. -/
structure AnyVar (σ : Type) where
  T : Type
  eq : BEq T
  fromStr : Text → Option T
  var : ConfigVar T (Listener T σ)

/-- `GetDatas()`, the calls of listeners so far (the name of the variable, the listener), and the
rest of the program. -/
structure ConfigDatas (σ : Type) where
  vars : Text → Option (AnyVar σ)
  calls : List (Text × ℕ) := []
  world : σ

/-- `Config::kValidSet`. -/
def kValidSet : Text := "abcdefghijklmnopqrstuvwxyz._0123456789".toList

/-- `name.find_first_not_of(kValidSet) == std::string::npos`. -/
def validName (name : Text) : Bool := name.all fun c => kValidSet.contains c

/-- `Config::Lookup<T>(name, default_value)`: what is registered after it; `none`: it throws
`std::invalid_argument`. A name that is registered keeps its variable. -/
def lookup {σ : Type} (vars : Text → Option (AnyVar σ)) (name : Text) (elem : AnyVar σ) :
    Option (Text → Option (AnyVar σ)) :=
  match vars name with
  | some _ => some vars
  | none => if validName name then some (Function.update vars name (some elem)) else none

mutual

/-- `Config::ListAllMember`: what it appends to `output`. -/
def listAllMember (pre : Text) : Yaml → List (Text × Yaml)
  | .map kvs =>
    if !validName pre then []
    else (pre, .map kvs) :: listMembers pre kvs
  | node => if !validName pre then [] else [(pre, node)]

/-- The loop over the entries of a map. -/
def listMembers (pre : Text) : List (Yaml × Yaml) → List (Text × Yaml)
  | [] => []
  | (first, second) :: kvs =>
    listAllMember (if pre.isEmpty then first.text else pre ++ '.' :: first.text) second ++
      listMembers pre kvs

end

namespace AnyVar

variable {σ : Type} (x : AnyVar σ)

instance : BEq x.T := x.eq

/-- A call of a listener of the variable `name`. -/
def called {T : Type} (name : Text) (cb : Listener T σ) (old new : T) (w : List (Text × ℕ) × σ) :
    CallResult (List (Text × ℕ) × σ) :=
  .done (w.1 ++ [(name, cb.id)], cb.act old new w.2)

def fromString (name : Text) (report : σ → σ) (val : Text) (w : List (Text × ℕ) × σ) :
    CallResult (AnyVar σ × List (Text × ℕ) × σ) :=
  (x.var.fromString x.fromStr (called name) (fun w => .done (w.1, report w.2)) val w).map
    fun r => ({ x with var := r.2.1 }, r.2.2)

/-- What the variable holds after `val` is given to it: the decoded value, or the old one where the
`operator==` of the type does not tell them apart; without a decoded value, the old one. -/
def Holds (val : Text) (v : x.T) : Prop :=
  match x.fromStr val with
  | some d => v = d ∨ (x.var.val == d) = true ∧ v = x.var.val
  | none => v = x.var.val

theorem Holds.eq {x : AnyVar σ} [LawfulBEq x.T] {val : Text} {v d : x.T} (h : x.Holds val v)
    (hd : x.fromStr val = some d) : v = d := by
  simp only [Holds, hd, beq_iff_eq] at h
  rcases h with h | ⟨h, h'⟩
  · exact h
  · exact h'.trans h

/-- Only the value of the variable has changed, to one that it is to hold. -/
def Loaded (val : Text) (x' : AnyVar σ) : Prop :=
  ∃ v, x.Holds val v ∧ x' = { x with var := { x.var with val := v } }

/-- The identities of its listeners. -/
def listeners : List ℕ := x.var.cbs.map fun e => e.2.id

end AnyVar

section Load

variable {σ : Type} (emit : Yaml → Text) (report : σ → σ)

/-- The text of a node that `LoadFromYaml` gives to a variable; `emit` is `ss << node`. -/
def nodeText : Yaml → Text
  | .scalar s => s
  | node => emit node

/-- The loop body of `Config::LoadFromYaml`. -/
def loadMember (s : ConfigDatas σ) (i : Text × Yaml) : CallResult (ConfigDatas σ) :=
  if i.1.isEmpty then .done s
  else
    let key := i.1.map Char.toLower
    match s.vars key with
    | none => .done s
    | some var =>
      (var.fromString key report (nodeText emit i.2) (s.calls, s.world)).map fun r =>
        { vars := Function.update s.vars key (some r.1), calls := r.2.1, world := r.2.2 }

def loadMembers : List (Text × Yaml) → ConfigDatas σ → CallResult (ConfigDatas σ)
  | [], s => .done s
  | i :: l, s => (loadMember emit report s i).bind (loadMembers l)

/-- `Config::LoadFromYaml`. -/
def loadFromYaml (root : Yaml) (s : ConfigDatas σ) : CallResult (ConfigDatas σ) :=
  loadMembers emit report (listAllMember [] root) s

end Load

/-! ### The listing -/

/-- A key of a map that is not empty and is made of the characters of `kValidSet` but the dot. -/
def ValidKey (k : Text) : Prop := Yaml.PlainKey k ∧ validName k = true

variable {ks : List Text}

theorem ValidKey.plain (h : ∀ k ∈ ks, ValidKey k) : ∀ k ∈ ks, Yaml.PlainKey k :=
  fun k hk => (h k hk).1

/-- The path that `ListAllMember` builds from keys: an empty key adds nothing to the empty path. -/
def joined (ks : List Text) : Text := Yaml.dotted (ks.dropWhile List.isEmpty)

theorem validName_append_dot (k l : Text) :
    validName (k ++ '.' :: l) = (validName k && validName l) := by
  have hdot : '.' ∈ kValidSet := by decide
  simp [validName, hdot]

theorem validName_dotted (ks : List Text) : validName (Yaml.dotted ks) = ks.all validName := by
  induction ks with
  | nil => rfl
  | cons k ks ih =>
    by_cases hks : ks = []
    · subst hks
      simp [Yaml.dotted, List.intercalate]
    · rw [Yaml.dotted_cons k hks, validName_append_dot, ih, List.all_cons]

theorem validName_joined (ks : List Text) : validName (joined ks) = ks.all validName := by
  rw [joined, validName_dotted]
  induction ks with
  | nil => rfl
  | cons k ks ih =>
    cases k with
    | nil => simpa [validName] using ih
    | cons c k => simp

/-- The path of an entry is built from the path of the map as the source builds it. -/
theorem joined_append (ks : List Text) (k : Text) :
    (if (joined ks).isEmpty then k else joined ks ++ '.' :: k) = joined (ks ++ [k]) := by
  rw [joined, joined, List.dropWhile_append]
  cases hd : ks.dropWhile List.isEmpty with
  | nil => cases k <;> simp [Yaml.dotted, List.intercalate]
  | cons l ls =>
    have hl : l ≠ [] := by
      have := List.head_dropWhile_not List.isEmpty (l := ks) (by simp [hd])
      simpa [hd] using this
    have hne : Yaml.dotted (l :: ls) ≠ [] := Yaml.dotted_cons_ne_nil hl
    rw [if_neg (by simpa using hne), if_neg (by simp), Yaml.dotted_concat (by simp)]

/-- What is listed of a tree, under the path of the keys `ks` that lead to it. -/
def listed (ks : List Text) (l : List (List Text × Yaml)) : List (Text × Yaml) :=
  (l.filter fun e => (ks ++ e.1).all validName).map fun e => (joined (ks ++ e.1), e.2)

theorem listed_append (ks : List Text) (l l' : List (List Text × Yaml)) :
    listed ks (l ++ l') = listed ks l ++ listed ks l' := by
  simp [listed]

theorem listed_self (h : ks.all validName = true) (n : Yaml) :
    listed ks [([], n)] = [(joined ks, n)] := by
  rw [listed, List.filter_singleton, List.append_nil, h, cond_true, List.map_singleton,
    List.append_nil]

/-- Under an invalid key nothing is listed. -/
theorem listed_of_invalid (h : ks.all validName = false) (l : List (List Text × Yaml)) :
    listed ks l = [] := by
  simp only [listed, List.all_append, h, Bool.false_and, List.filter_false, List.map_nil]

theorem listed_under (ks : List Text) (k : Text) (l : List (List Text × Yaml)) :
    listed ks (l.map fun e => (k :: e.1, e.2)) = listed (ks ++ [k]) l := by
  simp [listed, List.filter_map, Function.comp_def]

mutual

/-- **`ListAllMember` lists the nodes of the walk that valid keys lead to.** -/
theorem listAllMember_walk : ∀ (n : Yaml) (ks : List Text),
    listAllMember (joined ks) n = listed ks n.walk
  | .map kvs, ks => by
    rw [listAllMember, validName_joined, Yaml.walk]
    cases hv : ks.all validName with
    | false => rw [listed_of_invalid hv]; rfl
    | true =>
      have hcons := listed_append ks [([], .map kvs)] (Yaml.walkEntries kvs)
      rw [listed_self hv, ← listMembers_walk kvs ks] at hcons
      exact hcons.symm
  | .null, ks | .scalar _, ks | .seq _, ks => by
    rw [listAllMember, validName_joined, Yaml.walk]
    · cases hv : ks.all validName with
      | false => rw [listed_of_invalid hv]; rfl
      | true => rw [listed_self hv]; rfl
    all_goals simp

theorem listMembers_walk : ∀ (kvs : List (Yaml × Yaml)) (ks : List Text),
    listMembers (joined ks) kvs = listed ks (Yaml.walkEntries kvs)
  | [], _ => rfl
  | (k, c) :: kvs, ks => by
    rw [listMembers, joined_append, listAllMember_walk c, listMembers_walk kvs, Yaml.walkEntries,
      listed_append, listed_under]

end

/-- The loop looks up the paths as they are. -/
theorem validName_of_listed {t : Yaml} {i : Text × Yaml} (h : i ∈ listAllMember [] t) :
    validName i.1 = true := by
  rw [show ([] : Text) = joined [] from rfl, listAllMember_walk] at h
  obtain ⟨e, he, rfl⟩ := List.mem_map.mp h
  exact (validName_joined _).trans (List.mem_filter.mp he).2

theorem joined_eq_dotted (h : ∀ k ∈ ks, ValidKey k) : joined ks = Yaml.dotted ks := by
  cases ks with
  | nil => rfl
  | cons k ks =>
    have hk : k ≠ [] := (h k List.mem_cons_self).1.1
    rw [joined, List.dropWhile_cons_of_neg (by simpa using hk)]

/-- **`ListAllMember` lists the walk of a tree with valid keys**, under dotted paths. -/
theorem listAllMember_root {root : Yaml} (hroot : root.Keyed ValidKey) :
    listAllMember [] root = root.walk.map fun e => (Yaml.dotted e.1, e.2) := by
  have hok : ∀ e ∈ root.walk, ∀ k ∈ e.1, ValidKey k :=
    fun e he => hroot.keys_ok (Yaml.mem_walk.mp he)
  refine (listAllMember_walk root []).trans ?_
  rw [listed, List.filter_eq_self.mpr]
  · refine List.map_congr_left fun e he => ?_
    rw [List.nil_append, joined_eq_dotted (hok e he)]
  · intro e he
    exact List.all_eq_true.mpr fun k hk => (hok e he k hk).2

/-! ### The loop over the listing -/

section Loop

variable {σ : Type} {emit : Yaml → Text} {s s' : ConfigDatas σ}

/-- The listeners of the variable `name` among the calls. -/
def calledOf (name : Text) (calls : List (Text × ℕ)) : List ℕ :=
  (calls.filter fun c => c.1 == name).map Prod.snd

theorem callAll_called {T : Type} (name : Text) (old new : T) (es : List (UInt64 × Listener T σ))
    (w : List (Text × ℕ) × σ) :
    ∃ w', ConfigVar.callAll (AnyVar.called name) old new es w =
      .done (w.1 ++ es.map (fun e => (name, e.2.id)), w') := by
  induction es generalizing w with
  | nil => exact ⟨w.2, by simp [ConfigVar.callAll]⟩
  | cons e es ih =>
    obtain ⟨w', hw'⟩ := ih (w.1 ++ [(name, e.2.id)], e.2.act old new w.2)
    exact ⟨w', by simp [ConfigVar.callAll, AnyVar.called, hw']⟩

/-- What giving a text to a variable does: it loads the text, and calls each listener of the
variable once, or none. -/
theorem AnyVar.fromString_cases (x : AnyVar σ) (report : σ → σ) (name val : Text) (w : List (Text × ℕ) × σ) :
    ∃ x' new w', x.fromString name report val w = .done (x', w.1 ++ new, w') ∧
      x.Loaded val x' ∧ (new = [] ∨ new = x.listeners.map fun i => (name, i)) := by
  rw [fromString, ConfigVar.fromString]
  cases hd : x.fromStr val with
  | none =>
    refine ⟨x, [], report w.2, by simp, ⟨x.var.val, ?_, rfl⟩, .inl rfl⟩
    simp [Holds, hd]
  | some d =>
    by_cases hv : (x.var.val == d) = true
    · refine ⟨x, [], w.2, by simp [ConfigVar.setValue, hv], ⟨x.var.val, ?_, rfl⟩, .inl rfl⟩
      simp [Holds, hd, hv]
    · obtain ⟨w', hw'⟩ := callAll_called name x.var.val d x.var.cbs w
      refine ⟨{ x with var := { x.var with val := d } }, x.listeners.map fun i => (name, i), w',
        by simp [ConfigVar.setValue, hv, hw', listeners], ⟨d, ?_, rfl⟩, .inr rfl⟩
      simp [Holds, hd]

/-- What giving the nodes `l` to the variables of their paths does, where the listeners called are
`new`. -/
structure Loads (emit : Yaml → Text) (l : List (Text × Yaml)) (s s' : ConfigDatas σ)
    (new : List (Text × ℕ)) : Prop where
  calls : s'.calls = s.calls ++ new
  named : ∀ i ∈ l, i.1 ≠ [] → ∀ x, s.vars i.1 = some x → ∃ x', s'.vars i.1 = some x' ∧
    x.Loaded (nodeText emit i.2) x' ∧ (calledOf i.1 new = [] ∨ calledOf i.1 new = x.listeners)
  other : ∀ name, (∀ i ∈ l, i.1 ≠ [] → i.1 ≠ name) →
    s'.vars name = s.vars name ∧ calledOf name new = []

theorem calledOf_append (name : Text) (a b : List (Text × ℕ)) :
    calledOf name (a ++ b) = calledOf name a ++ calledOf name b := by
  simp [calledOf]

theorem calledOf_map_self (name : Text) (l : List ℕ) :
    calledOf name (l.map fun i => (name, i)) = l := by
  simp [calledOf, List.filter_map, Function.comp_def]

theorem calledOf_map_ne {name other : Text} (h : name ≠ other) (l : List ℕ) :
    calledOf other (l.map fun i => (name, i)) = [] := by
  simp [calledOf, List.filter_map, Function.comp_def, h]

theorem loads_nil (s : ConfigDatas σ) : Loads emit [] s s [] where
  calls := by simp
  named i hi := by simp at hi
  other name _ := ⟨rfl, rfl⟩

/-- One round of the loop. -/
theorem loadMember_loads (emit : Yaml → Text) (report : σ → σ) (s : ConfigDatas σ) (i : Text × Yaml)
    (hi : i.1.map Char.toLower = i.1) :
    ∃ s' new, loadMember emit report s i = .done s' ∧ Loads emit [i] s s' new := by
  by_cases hnil : i.1 = []
  · refine ⟨s, [], by simp [loadMember, hnil], by simp, ?_, fun _ _ => ⟨rfl, rfl⟩⟩
    intro j hj hj'
    rw [List.mem_singleton.mp hj] at hj'
    exact absurd hnil hj'
  cases hx : s.vars i.1 with
  | none =>
    refine ⟨s, [], by simp [loadMember, hnil, hi, hx], by simp, ?_, fun _ _ => ⟨rfl, rfl⟩⟩
    intro j hj _ x hjx
    rw [List.mem_singleton.mp hj, hx] at hjx
    contradiction
  | some x =>
    obtain ⟨x', new, w', hf, hl, hnew⟩ :=
      x.fromString_cases report i.1 (nodeText emit i.2) (s.calls, s.world)
    refine ⟨_, new, by simp [loadMember, hnil, hi, hx, hf]; rfl, rfl, ?_, ?_⟩
    · intro j hj _ y hy
      rw [List.mem_singleton.mp hj] at hy ⊢
      obtain rfl : x = y := Option.some.inj (hx.symm.trans hy)
      refine ⟨x', by simp, hl, hnew.imp ?_ ?_⟩
      · rintro rfl
        rfl
      · rintro rfl
        exact calledOf_map_self _ _
    · intro name hname
      have hne : i.1 ≠ name := hname i (List.mem_singleton.mpr rfl) hnil
      refine ⟨Function.update_of_ne hne.symm _ _, ?_⟩
      rcases hnew with rfl | rfl
      · rfl
      · exact calledOf_map_ne hne _

/-- A round and the rounds behind it, which are about other paths. -/
theorem Loads.cons {i : Text × Yaml} {l : List (Text × Yaml)} {t : ConfigDatas σ}
    {new new' : List (Text × ℕ)} (h : Loads emit [i] s t new) (h' : Loads emit l t s' new')
    (hi : ∀ j ∈ l, j.1 ≠ i.1) : Loads emit (i :: l) s s' (new ++ new') where
  calls := by rw [h'.calls, h.calls, List.append_assoc]
  named j hj hne x hx := by
    rcases List.mem_cons.mp hj with rfl | hj
    · obtain ⟨x', hx', hl, hc⟩ := h.named j (List.mem_singleton.mpr rfl) hne x hx
      obtain ⟨hvars, hcalls⟩ := h'.other j.1 fun k hk _ => hi k hk
      exact ⟨x', hvars.trans hx', hl, by rwa [calledOf_append, hcalls, List.append_nil]⟩
    · have hother : ∀ k ∈ [i], k.1 ≠ [] → k.1 ≠ j.1 := by
        intro k hk _
        rw [List.mem_singleton.mp hk]
        exact (hi j hj).symm
      obtain ⟨hvars, hcalls⟩ := h.other j.1 hother
      obtain ⟨x', hx', hl, hc⟩ := h'.named j hj hne x (hvars.trans hx)
      exact ⟨x', hx', hl, by rwa [calledOf_append, hcalls, List.nil_append]⟩
  other name hname := by
    obtain ⟨hvars, hcalls⟩ := h.other name fun k hk hne =>
      hname k (List.mem_cons.mpr (.inl (List.mem_singleton.mp hk))) hne
    obtain ⟨hvars', hcalls'⟩ := h'.other name fun k hk => hname k (List.mem_cons_of_mem _ hk)
    exact ⟨hvars'.trans hvars, by rw [calledOf_append, hcalls, hcalls', List.nil_append]⟩

/-- The whole loop. -/
theorem loadMembers_loads (emit : Yaml → Text) (report : σ → σ) (l : List (Text × Yaml)) (s : ConfigDatas σ)
    (hl : ∀ i ∈ l, i.1.map Char.toLower = i.1) (hnd : (l.map Prod.fst).Nodup) :
    ∃ s' new, loadMembers emit report l s = .done s' ∧ Loads emit l s s' new := by
  induction l generalizing s with
  | nil => exact ⟨s, [], rfl, loads_nil s⟩
  | cons i l ih =>
    rw [List.map_cons, List.nodup_cons] at hnd
    obtain ⟨t, new, ht, hload⟩ :=
      loadMember_loads emit report s i (hl i List.mem_cons_self)
    obtain ⟨s', new', hs', hloads⟩ := ih t (fun j hj => hl j (List.mem_cons_of_mem _ hj)) hnd.2
    refine ⟨s', new ++ new', by rw [loadMembers, ht]; exact hs', hload.cons hloads ?_⟩
    intro j hj he
    exact hnd.1 (he ▸ List.mem_map_of_mem hj)

end Loop

/-! ### The whole tree -/

section Tree

variable {σ : Type} {root : Yaml}

theorem toLower_of_validName {name : Text} (h : validName name = true) :
    name.map Char.toLower = name := by
  have hset : kValidSet.all (fun c => c.toLower == c) = true := by
    unfold kValidSet
    rw [String.toList_ofList]
    decide
  conv_rhs => rw [← List.map_id name]
  refine List.map_congr_left fun c hc => beq_iff_eq.mp (List.all_eq_true.mp hset c ?_)
  simpa using List.all_eq_true.mp h c hc

theorem mem_listAllMember (hroot : root.Keyed ValidKey) {path : Text} {n : Yaml} :
    (path, n) ∈ listAllMember [] root ↔ ∃ ks, root.At ks n ∧ Yaml.dotted ks = path := by
  rw [listAllMember_root hroot, List.mem_map]
  constructor
  · rintro ⟨⟨ks, m⟩, hm, he⟩
    obtain ⟨rfl, rfl⟩ := Prod.mk.inj he
    exact ⟨ks, Yaml.mem_walk.mp hm, rfl⟩
  · rintro ⟨ks, hat, rfl⟩
    exact ⟨(ks, n), hat.mem_walk, rfl⟩

theorem listAllMember_nodup (hroot : root.Keyed ValidKey) :
    ((listAllMember [] root).map Prod.fst).Nodup := by
  have hmap : (root.walk.map fun e => (Yaml.dotted e.1, e.2)).map Prod.fst =
      (root.walk.map Prod.fst).map Yaml.dotted := by
    rw [List.map_map, List.map_map]
    rfl
  rw [listAllMember_root hroot, hmap]
  refine hroot.walk_nodup.map_on ?_
  intro ks hks ls hls he
  obtain ⟨e, hmem, rfl⟩ := List.mem_map.mp hks
  obtain ⟨f, hmem', rfl⟩ := List.mem_map.mp hls
  exact Yaml.dotted_inj (ValidKey.plain (hroot.keys_ok (Yaml.mem_walk.mp hmem)))
    (ValidKey.plain (hroot.keys_ok (Yaml.mem_walk.mp hmem'))) he

/-- The listing has every node that keys lead to once, under its dotted path, and a node stands
before the nodes under it. -/
structure ListsOnce (root : Yaml) : Prop where
  mem : ∀ path n, (path, n) ∈ listAllMember [] root ↔ ∃ ks, root.At ks n ∧ Yaml.dotted ks = path
  once : ((listAllMember [] root).map Prod.fst).Nodup
  inj : ∀ ks ls n m, root.At ks n → root.At ls m → Yaml.dotted ks = Yaml.dotted ls → ks = ls
  order : ∀ ks ls n m, root.At ks n → n.At ls m → ls ≠ [] →
    [(Yaml.dotted ks, n), (Yaml.dotted (ks ++ ls), m)].Sublist (listAllMember [] root)

theorem listsOnce (hroot : root.Keyed ValidKey) : ListsOnce root where
  mem _ _ := mem_listAllMember hroot
  once := listAllMember_nodup hroot
  inj _ _ _ _ hk hl := Yaml.dotted_inj (ValidKey.plain (hroot.keys_ok hk))
    (ValidKey.plain (hroot.keys_ok hl))
  order ks ls n m hk hl hne := by
    rw [listAllMember_root hroot]
    exact (Yaml.parent_before_child hk hl hne).map fun e => (Yaml.dotted e.1, e.2)

/-- **What `ListAllMember` lists and `LoadFromYaml` does**: each variable whose name is the path of
a node, other than the empty path of the root, loads the text of the node; its listeners are each
called once, or none is. All other variables stay, and their listeners are not called. -/
theorem loadFromYaml_exact (emit : Yaml → Text) (report : σ → σ) (hroot : root.Keyed ValidKey)
    (s : ConfigDatas σ) :
    ListsOnce root ∧ ∃ s' new, loadFromYaml emit report root s = .done s' ∧
      s'.calls = s.calls ++ new ∧
      (∀ ks n x, root.At ks n → Yaml.dotted ks ≠ [] → s.vars (Yaml.dotted ks) = some x →
        ∃ x', s'.vars (Yaml.dotted ks) = some x' ∧ x.Loaded (nodeText emit n) x' ∧
          (calledOf (Yaml.dotted ks) new = [] ∨ calledOf (Yaml.dotted ks) new = x.listeners)) ∧
      ∀ name, (∀ ks n, root.At ks n → Yaml.dotted ks = name → name = []) →
        s'.vars name = s.vars name ∧ calledOf name new = [] := by
  have hlower : ∀ i ∈ listAllMember [] root, i.1.map Char.toLower = i.1 :=
    fun i hi => toLower_of_validName (validName_of_listed hi)
  obtain ⟨s', new, hs', hl⟩ := loadMembers_loads emit report _ s hlower
    (listAllMember_nodup hroot)
  refine ⟨listsOnce hroot, s', new, hs', hl.calls, ?_, ?_⟩
  · intro ks n x hat hne hx
    exact hl.named (Yaml.dotted ks, n) ((mem_listAllMember hroot).mpr ⟨ks, hat, rfl⟩) hne x hx
  · intro name hname
    refine hl.other name fun i hi hne he => ?_
    obtain ⟨ks, hat, hd⟩ := (mem_listAllMember hroot).mp hi
    exact hne (he.trans (hname ks i.2 hat (hd.trans he)))

/-- A leaf, an inner node and a variable of another name. -/
theorem loadFromYaml_nested :
    let x : AnyVar Unit := ⟨ℕ, inferInstance, fun t => some t.length, { val := 0 }⟩
    let root : Yaml := .map [(.scalar ['a'], .map [(.scalar ['b'], .scalar ['1', '2'])])]
    ∃ s', loadFromYaml (fun _ => []) id root { vars := fun _ => some x, world := () } = .done s' ∧
      (∃ x', s'.vars ['a', '.', 'b'] = some x' ∧ x.Loaded ['1', '2'] x') ∧
      s'.vars ['b'] = some x := by
  intro x root
  have hleaf : (Yaml.scalar ['1', '2']).Keyed ValidKey := .leaf _ (by simp)
  have hkey : ∀ c, validName [c] = true → c ≠ '.' → ValidKey [c] := by
    intro c hc hne
    exact ⟨⟨by simp, by simpa using hne.symm⟩, hc⟩
  have hinner : (Yaml.map [(.scalar ['b'], .scalar ['1', '2'])]).Keyed ValidKey := by
    refine .map _ (by simp) ?_ ?_ <;> simp only [List.forall_mem_singleton]
    · exact hkey _ (by decide) (by decide)
    · exact hleaf
  have hroot : root.Keyed ValidKey := by
    refine .map _ (by simp) ?_ ?_ <;> simp only [List.forall_mem_singleton]
    · exact hkey _ (by decide) (by decide)
    · exact hinner
  obtain ⟨-, s', new, hs', -, hnamed, hother⟩ := loadFromYaml_exact (fun _ => []) id hroot
    { vars := fun _ => some x, world := () }
  have hat : root.At [['a'], ['b']] (.scalar ['1', '2']) :=
    .under (List.mem_singleton.mpr rfl) (.under (List.mem_singleton.mpr rfl) (.here _))
  obtain ⟨x', hx', hl, -⟩ := hnamed _ _ x hat (by decide) rfl
  refine ⟨s', hs', ⟨x', hx', hl⟩, (hother ['b'] ?_).1⟩
  intro ks n hat hd
  have hmem := hat.mem_walk
  simp only [root, Yaml.walk, Yaml.walkEntries, Yaml.text] at hmem
  rcases (by simpa using hmem) with ⟨rfl, -⟩ | ⟨rfl, -⟩ | ⟨rfl, -⟩ <;>
    exact absurd hd (by decide)

/-- The variable of the empty name, which is the path of the root, is left as it was; and so is one
whose value the `operator==` of its type takes for the decoded one. -/
theorem loadFromYaml_skips_root :
    (∃ (root : Yaml) (x : AnyVar Unit) (vars : Text → Option (AnyVar Unit))
        (s' : ConfigDatas Unit),
      root.Keyed ValidKey ∧ lookup (fun _ => none) [] x = some vars ∧
      root.At [] root ∧ vars (Yaml.dotted []) = some x ∧
      loadFromYaml (fun _ => []) id root { vars, world := () } = .done s' ∧
      ¬ ∃ x', s'.vars (Yaml.dotted []) = some x' ∧
        x.Loaded (nodeText (fun _ => []) root) x') ∧
    ∃ (root : Yaml) (x : AnyVar Unit) (d : x.T) (s' : ConfigDatas Unit),
      root.Keyed ValidKey ∧ root.At [['a']] (.scalar ['5']) ∧ x.fromStr ['5'] = some d ∧
      x.var.val ≠ d ∧
      loadFromYaml (fun _ => []) id root { vars := fun _ => some x, world := () } = .done s' ∧
      s'.vars (Yaml.dotted [['a']]) = some x := by
  constructor
  · refine ⟨.scalar ['5'], ⟨ℕ, inferInstance, fun t => some t.length, { val := 0 }⟩, _, _,
      .leaf _ (by simp), rfl, .here _, rfl, rfl, ?_⟩
    rintro ⟨x', hx', v, hv, rfl⟩
    have h0 : v = 0 := by
      simpa [Yaml.dotted, List.intercalate, eq_comm] using hx'
    subst h0
    simp [AnyVar.Holds, nodeText] at hv
  · -- an `operator==` that does not compare the values
    refine ⟨.map [(.scalar ['a'], .scalar ['5'])],
      ⟨Bool, ⟨fun _ _ => true⟩, fun _ => some true, { val := false }⟩, true, _, ?_,
      .under (List.mem_singleton.mpr rfl) (.here _), rfl, Bool.false_ne_true, rfl, rfl⟩
    refine .map _ (by simp) ?_ ?_ <;> simp only [List.forall_mem_singleton]
    · show ValidKey ['a']
      exact ⟨⟨by simp, by decide⟩, by decide⟩
    · exact .leaf _ (by simp)

end Tree

end Ddg
