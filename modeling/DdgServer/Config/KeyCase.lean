import DdgServer.Config.Load
import DdgServer.Lib.Flow

/-!
# The case of keys

`LoadFromYaml` looks the paths up in lower case, but `ListAllMember` checks them before that: a key
with an upper-case letter is no valid name, and the nodes under it are not listed. Loading is here
`loadEach`, whatever `LookupBase` and the virtual `fromString` do; listeners may throw.

* `shown`: the paths and texts that reach variables. `loadEach_shown`: nothing else of the tree
  matters, and `shown_of_loadsAlike`: all of it does.
* `shown_eq_iff`: without an empty key at the root, trees that differ in the case of keys show the
  same where the entries of their roots with a valid key are the same.
-/

namespace Ddg

/-- A text in lower case. -/
def lower (name : Text) : Text := name.map Char.toLower

/-! ### Loading with any variables -/

/-- A `ConfigVar::Callback` with an identity. -/
structure Callback (T σ : Type) where
  id : ℕ
  run : T → T → σ → CallResult σ

/-- A variable as in `AnyVar`, whose listeners may throw. -/
structure BaseVar (σ : Type) where
  T : Type
  eq : BEq T
  fromStr : Text → Option T
  var : ConfigVar T (Callback T σ)

/-- `GetDatas()`, the calls of listeners so far and the rest of the program, as in
`ConfigDatas`. -/
structure Configs (σ : Type) where
  vars : Text → Option (BaseVar σ)
  calls : List (Text × ℕ) := []
  world : σ

namespace BaseVar

variable {σ : Type} (x : BaseVar σ)

instance : BEq x.T := x.eq

/-- A call of a listener of the variable `name`. -/
def called {T : Type} (name : Text) (cb : Callback T σ) (old new : T) (w : List (Text × ℕ) × σ) :
    CallResult (List (Text × ℕ) × σ) :=
  (cb.run old new w.2).map fun world => (w.1 ++ [(name, cb.id)], world)

/-- `report` is the message about an exception, which has the name and the text. -/
def fromString (name : Text) (report : Text → Text → σ → CallResult σ) (val : Text)
    (w : List (Text × ℕ) × σ) : CallResult (BaseVar σ × List (Text × ℕ) × σ) :=
  (x.var.fromString x.fromStr (called name)
    (fun w => (report name val w.2).map fun world => (w.1, world)) val w).map
      fun r => ({ x with var := r.2.1 }, r.2.2)

end BaseVar

section Loading

variable {σ : Type} {S : Type*} (emit : Yaml → Text)

/-- The loop of `Config::LoadFromYaml`: `set key val` is `LookupBase(key)` and, on the variable that
it finds, `fromString(val)`. -/
def loadEach (set : Text → Text → S → CallResult S) : List (Text × Yaml) → S → CallResult S
  | [], s => .done s
  | i :: l, s =>
    (if i.1.isEmpty then .done s else set (lower i.1) (nodeText emit i.2) s).bind
      (loadEach set l)

namespace Configs

def set (report : Text → Text → σ → CallResult σ) (key val : Text) (s : Configs σ) :
    CallResult (Configs σ) :=
  match s.vars key with
  | none => .done s
  | some var =>
    (var.fromString key report val (s.calls, s.world)).map fun r =>
      { vars := Function.update s.vars key (some r.1), calls := r.2.1, world := r.2.2 }

/-- `Config::LoadFromYaml`. -/
def loadFromYaml (report : Text → Text → σ → CallResult σ) (root : Yaml) (s : Configs σ) :
    CallResult (Configs σ) :=
  loadEach emit (set report) (listAllMember [] root) s

/-- Each name that is registered is valid, as `Config::Lookup` makes sure. -/
def Named (s : Configs σ) : Prop := ∀ name x, s.vars name = some x → validName name = true

end Configs

/-- Loading the one tree and the other has the same effect on every registry: the values of the
variables, the calls of listeners, and what the listeners make of their arguments. -/
def LoadsAlike (t₁ t₂ : Yaml) : Prop :=
  ∀ (σ : Type) (report : Text → Text → σ → CallResult σ) (s : Configs σ), s.Named →
    Configs.loadFromYaml emit report t₁ s = Configs.loadFromYaml emit report t₂ s

/-- The paths of a listing that are not empty, with the texts of their nodes. -/
def given (l : List (Text × Yaml)) : List (Text × Text) :=
  (l.map fun i => (i.1, nodeText emit i.2)).filter fun e => !e.1.isEmpty

/-- The nodes that valid keys lead to, by their paths and texts. -/
def shown (t : Yaml) : List (Text × Text) :=
  given emit ((t.walk.filter fun e => e.1.all validName).map fun e => (joined e.1, e.2))

end Loading

/-- The entries of the root that have a valid key. -/
def validEntries (t : Yaml) : List (Yaml × Yaml) := t.members.filter fun kv => validName kv.1.text

/-! ### What loading depends on -/

theorem given_listAllMember (emit : Yaml → Text) (t : Yaml) :
    given emit (listAllMember [] t) = shown emit t :=
  congrArg (given emit) (listAllMember_walk t [])

theorem validName_of_mem_shown {emit : Yaml → Text} {t : Yaml} {e : Text × Text}
    (h : e ∈ shown emit t) : validName e.1 = true := by
  rw [← given_listAllMember] at h
  obtain ⟨i, hi, rfl⟩ := List.mem_map.mp (List.mem_of_mem_filter h)
  exact validName_of_listed hi

section Given

variable {S : Type*} {emit : Yaml → Text} {set : Text → Text → S → CallResult S}

theorem given_cons_nil {i : Text × Yaml} (h : i.1 = []) (l : List (Text × Yaml)) :
    given emit (i :: l) = given emit l := by
  simp [given, h]

theorem given_cons {i : Text × Yaml} (h : i.1 ≠ []) (l : List (Text × Yaml)) :
    given emit (i :: l) = (i.1, nodeText emit i.2) :: given emit l := by
  simp [given, h]

theorem given_append (l l' : List (Text × Yaml)) :
    given emit (l ++ l') = given emit l ++ given emit l' := by
  simp [given]

theorem loadEach_cons_nil {i : Text × Yaml} (h : i.1 = []) (l : List (Text × Yaml)) (s : S) :
    loadEach emit set (i :: l) s = loadEach emit set l s := by
  simp [loadEach, h]

theorem loadEach_cons {i : Text × Yaml} (h : i.1 ≠ []) (l : List (Text × Yaml)) (s : S) :
    loadEach emit set (i :: l) s =
      (set (lower i.1) (nodeText emit i.2) s).bind (loadEach emit set l) := by
  simp [loadEach, h]

/-- The loop sees a listing through the paths and texts alone. -/
theorem loadEach_given {l l' : List (Text × Yaml)} (h : given emit l = given emit l') :
    loadEach emit set l = loadEach emit set l' := by
  have hgiven : ∀ l : List (Text × Yaml), loadEach emit set l =
      loadEach emit set ((given emit l).map fun e => (e.1, .scalar e.2)) := by
    intro l
    induction l with
    | nil => rfl
    | cons i l ih =>
      funext s
      by_cases hi : i.1 = []
      · rw [loadEach_cons_nil hi, given_cons_nil hi, ih]
      · rw [loadEach_cons hi, given_cons hi, List.map_cons,
          loadEach_cons (i := (i.1, .scalar (nodeText emit i.2))) hi, ih]
        rfl
  rw [hgiven l, hgiven l', h]

/-- **Trees that show the same are loaded alike**, whatever the variables and their listeners are. -/
theorem loadEach_shown {t₁ t₂ : Yaml} (h : shown emit t₁ = shown emit t₂) :
    loadEach emit set (listAllMember [] t₁) = loadEach emit set (listAllMember [] t₂) := by
  rw [← given_listAllMember, ← given_listAllMember] at h
  exact loadEach_given h

theorem loadsAlike_of_shown {t₁ t₂ : Yaml} (h : shown emit t₁ = shown emit t₂) :
    LoadsAlike emit t₁ t₂ :=
  fun _ _ s _ => congrFun (loadEach_shown h) s

/-- `loadFromYaml` is this loop, with the variables of `ConfigDatas`. -/
theorem loadFromYaml_eq_loadEach {σ : Type} (emit : Yaml → Text) (report : σ → σ) (t : Yaml)
    (s : ConfigDatas σ) :
    loadFromYaml emit report t s =
      loadEach emit (fun key val s => loadMember emit report s (key, .scalar val))
        (listAllMember [] t) s := by
  have hlower : ∀ i ∈ listAllMember [] t, lower i.1 = i.1 :=
    fun i hi => toLower_of_validName (validName_of_listed hi)
  rw [loadFromYaml]
  generalize listAllMember [] t = l at hlower
  induction l generalizing s with
  | nil => rfl
  | cons i l ih =>
    have ih' := fun s => ih s fun j hj => hlower j (List.mem_cons_of_mem _ hj)
    rw [loadMembers, funext ih']
    by_cases hi : i.1 = []
    · rw [loadEach_cons_nil hi]
      simp [loadMember, hi]
    · rw [loadEach_cons hi, hlower i List.mem_cons_self]
      rfl

end Given

/-! ### Variables that record what they are given -/

section Recorder

variable {emit : Yaml → Text} {names : List Text} {name val : Text}
  {report : Text → Text → List (Text × Text) → CallResult (List (Text × Text))}
  {s : Configs (List (Text × Text))}

/-- A variable of texts that are never equal, whose listener records the name and the new value. -/
def recorder (name val : Text) : BaseVar (List (Text × Text)) where
  T := Text
  eq := ⟨fun _ _ => false⟩
  fromStr := some
  var := { val, cbs := [(0, ⟨0, fun _ new w => .done (w ++ [(name, new)])⟩)] }

/-- The names are registered, with recorders. -/
def Records (names : List Text) (s : Configs (List (Text × Text))) : Prop :=
  ∀ name ∈ names, ∃ val, s.vars name = some (recorder name val)

def recorders (names : List Text) : Configs (List (Text × Text)) where
  vars name := if name ∈ names then some (recorder name []) else none
  world := []

theorem records_recorders (names : List Text) : Records names (recorders names) :=
  fun _ hn => ⟨[], if_pos hn⟩

theorem named_recorders (h : ∀ name ∈ names, validName name = true) : (recorders names).Named := by
  intro name x hx
  by_cases hn : name ∈ names
  · exact h name hn
  · simp [recorders, hn] at hx

theorem Records.set (h : Records names s) (hn : name ∈ names) (val : Text)
    (report : Text → Text → List (Text × Text) → CallResult (List (Text × Text))) :
    ∃ s', s.set report name val = .done s' ∧ Records names s' ∧
      s'.world = s.world ++ [(name, val)] := by
  obtain ⟨old, hx⟩ := h name hn
  have hfrom : (recorder name old).fromString name report val (s.calls, s.world) =
      .done (recorder name val, s.calls ++ [(name, 0)], s.world ++ [(name, val)]) := rfl
  have hset : s.set report name val =
      .done { vars := Function.update s.vars name (some (recorder name val)),
              calls := s.calls ++ [(name, 0)], world := s.world ++ [(name, val)] } := by
    simp only [Configs.set, hx, hfrom, CallResult.map_done]
  refine ⟨_, hset, ?_, rfl⟩
  intro other ho
  by_cases he : other = name
  · subst he
    exact ⟨val, Function.update_self ..⟩
  · obtain ⟨v, hv⟩ := h other ho
    exact ⟨v, (Function.update_of_ne he ..).trans hv⟩

/-- The loop is recorded in full. -/
theorem Records.loadEach (h : Records names s) {l : List (Text × Yaml)}
    (hl : ∀ i ∈ l, validName i.1 = true) (hn : ∀ e ∈ given emit l, e.1 ∈ names) :
    ∃ s', Ddg.loadEach emit (Configs.set report) l s = .done s' ∧
      s'.world = s.world ++ given emit l := by
  induction l generalizing s with
  | nil => exact ⟨s, rfl, (List.append_nil _).symm⟩
  | cons i l ih =>
    have ihl := fun s h => ih (s := s) h fun j hj => hl j (List.mem_cons_of_mem _ hj)
    by_cases hi : i.1 = []
    · rw [given_cons_nil hi] at hn ⊢
      rw [loadEach_cons_nil hi]
      exact ihl s h hn
    · rw [given_cons hi] at hn ⊢
      have hkey : lower i.1 = i.1 := toLower_of_validName (hl i List.mem_cons_self)
      obtain ⟨t, ht, hrec, hworld⟩ := h.set (hn _ List.mem_cons_self)
        (nodeText emit i.2) report
      obtain ⟨s', hs', hworld'⟩ := ihl t hrec fun e he => hn e (List.mem_cons_of_mem _ he)
      refine ⟨s', ?_, ?_⟩
      · rw [loadEach_cons hi, hkey, ht, CallResult.bind_done, hs']
      · rw [hworld', hworld, List.append_assoc, List.singleton_append]

/-- **Trees that are loaded alike show the same.** -/
theorem shown_of_loadsAlike {t₁ t₂ : Yaml} (h : LoadsAlike emit t₁ t₂) :
    shown emit t₁ = shown emit t₂ := by
  let names := (shown emit t₁ ++ shown emit t₂).map Prod.fst
  have hnames : ∀ name ∈ names, validName name = true := by
    intro name hn
    obtain ⟨e, he, rfl⟩ := List.mem_map.mp hn
    rcases List.mem_append.mp he with he | he <;> exact validName_of_mem_shown he
  have hload : ∀ t, (∀ e ∈ shown emit t, e.1 ∈ names) → ∃ s',
      Configs.loadFromYaml emit (fun _ _ w => .done w) t (recorders names) = .done s' ∧
        s'.world = shown emit t := by
    intro t ht
    rw [← given_listAllMember] at ht ⊢
    exact (records_recorders names).loadEach (fun i hi => validName_of_listed hi) ht
  obtain ⟨s₁, h₁, hw₁⟩ := hload t₁ fun e he =>
    List.mem_map_of_mem (List.mem_append_left _ he)
  obtain ⟨s₂, h₂, hw₂⟩ := hload t₂ fun e he =>
    List.mem_map_of_mem (List.mem_append_right _ he)
  have heq := h _ (fun _ _ w => .done w) _ (named_recorders hnames)
  rw [h₁, h₂] at heq
  cases heq
  exact hw₁.symm.trans hw₂

theorem loadsAlike_iff {t₁ t₂ : Yaml} :
    LoadsAlike emit t₁ t₂ ↔ shown emit t₁ = shown emit t₂ :=
  ⟨shown_of_loadsAlike, loadsAlike_of_shown⟩

end Recorder

/-! ### The entries of the root -/

section Root

variable {emit : Yaml → Text} {t₁ t₂ : Yaml} {kvs kvs' : List (Yaml × Yaml)}

/-- What one entry of the root shows. -/
def shownEntry (emit : Yaml → Text) (kv : Yaml × Yaml) : List (Text × Text) :=
  given emit (listAllMember kv.1.text kv.2)

theorem given_listMembers (kvs : List (Yaml × Yaml)) :
    given emit (listMembers [] kvs) =
      (kvs.filter fun kv => validName kv.1.text).flatMap (shownEntry emit) := by
  induction kvs with
  | nil => rfl
  | cons kv kvs ih =>
    obtain ⟨k, c⟩ := kv
    have hcons : listMembers [] ((k, c) :: kvs) = listAllMember k.text c ++ listMembers [] kvs := rfl
    rw [hcons, given_append, ih, List.filter_cons]
    cases hv : validName k.text with
    | true => rfl
    | false =>
      have hnil : listAllMember k.text c = [] := by cases c <;> simp [listAllMember, hv]
      rw [hnil]
      rfl

/-- A tree shows what the entries of its root with a valid key show. -/
theorem shown_eq_flatMap (t : Yaml) :
    shown emit t = (validEntries t).flatMap (shownEntry emit) := by
  rw [← given_listAllMember]
  cases t with
  | map kvs =>
    have hlist : listAllMember [] (.map kvs) = ([], .map kvs) :: listMembers [] kvs := rfl
    rw [hlist, given_cons_nil rfl, given_listMembers]
    rfl
  | null | scalar | seq => rfl

/-- An entry with a valid key shows its node first. -/
theorem shownEntry_cons (emit : Yaml → Text) {kv : Yaml × Yaml} (hne : kv.1.text ≠ [])
    (hv : validName kv.1.text = true) :
    ∃ r, shownEntry emit kv = (kv.1.text, nodeText emit kv.2) :: r := by
  obtain ⟨k, c⟩ := kv
  have hlist : ∃ l, listAllMember k.text c = (k.text, c) :: l := by
    cases c <;> simp [listAllMember, hv]
  obtain ⟨l, hl⟩ := hlist
  exact ⟨_, (congrArg (given emit) hl).trans (given_cons hne l)⟩

/-- The first path shown is the key of an entry. -/
theorem key_of_shown (hne : ∀ kv ∈ kvs, kv.1.text ≠ []) {e : Text × Text} {r : List (Text × Text)}
    (h : (kvs.filter fun kv => validName kv.1.text).flatMap (shownEntry emit) = e :: r) :
    ∃ kv ∈ kvs, kv.1.text = e.1 := by
  cases hf : kvs.filter fun kv => validName kv.1.text with
  | nil => simp [hf] at h
  | cons kv l =>
    obtain ⟨hmem, hv⟩ := List.mem_filter.mp (hf ▸ List.mem_cons_self : kv ∈ _)
    obtain ⟨r', hr'⟩ := shownEntry_cons emit (hne kv hmem) hv
    rw [hf, List.flatMap_cons, hr'] at h
    exact ⟨kv, hmem, congrArg Prod.fst (List.cons.inj h).1⟩

/-- Nodes that differ in keys alone are the same where their texts are. -/
theorem eq_of_nodeText (hemit : Function.Injective emit) {f : Text → Text} {n m : Yaml}
    (h : n.mapKeys f = m.mapKeys f) (ht : nodeText emit n = nodeText emit m) : n = m := by
  cases n with
  | scalar s => exact (Yaml.scalar_of_mapKeys h.symm).symm
  | null | seq | map =>
    cases m with
    | scalar s => exact Yaml.scalar_of_mapKeys h
    | null | seq | map => exact hemit ht

/-- The entries differ only in the case of keys. -/
def CaseOf (a b : Yaml × Yaml) : Prop :=
  Yaml.mapKey lower a.1 = Yaml.mapKey lower b.1 ∧ Yaml.mapKeys lower a.2 = Yaml.mapKeys lower b.2

theorem CaseOf.lower_eq {a b : Yaml × Yaml} (h : CaseOf a b) :
    lower a.1.text = lower b.1.text := by
  rw [← Yaml.text_mapKey (f := lower) rfl, h.1, Yaml.text_mapKey rfl]

theorem lower_keys_eq (h : List.Forall₂ CaseOf kvs kvs') :
    kvs.map (fun kv => lower kv.1.text) = kvs'.map fun kv => lower kv.1.text := by
  induction h with
  | nil => rfl
  | cons hab _ ih => rw [List.map_cons, List.map_cons, hab.lower_eq, ih]

theorem lower_eq_nil {name : Text} : lower name = [] ↔ name = [] := List.map_eq_nil_iff

/-- Whether a key is empty does not depend on its case. -/
theorem keys_ne_nil (h : List.Forall₂ CaseOf kvs kvs') (hne : ∀ kv ∈ kvs, kv.1.text ≠ []) :
    ∀ kv ∈ kvs', kv.1.text ≠ [] := by
  intro kv hkv hnil
  have hmem := List.mem_map_of_mem (f := fun kv : Yaml × Yaml => lower kv.1.text) hkv
  rw [← lower_keys_eq h, hnil] at hmem
  obtain ⟨kv', hkv', he⟩ := List.mem_map.mp hmem
  exact hne kv' hkv' (lower_eq_nil.mp he)

/-- An entry with a valid key shows what no entries with other keys show. -/
theorem shownEntry_append_ne {a : Yaml × Yaml} (hv : validName a.1.text = true)
    (ha : a.1.text ≠ []) (hne : ∀ kv ∈ kvs, kv.1.text ≠ [])
    (hfresh : lower a.1.text ∉ kvs.map fun kv => lower kv.1.text) (l : List (Text × Text)) :
    shownEntry emit a ++ l ≠
      (kvs.filter fun kv => validName kv.1.text).flatMap (shownEntry emit) := by
  intro h
  obtain ⟨r, hr⟩ := shownEntry_cons emit ha hv
  rw [hr] at h
  obtain ⟨kv, hkv, he⟩ := key_of_shown hne h.symm
  exact hfresh (List.mem_map.mpr ⟨kv, hkv, congrArg lower he⟩)

/-- Entries that differ in case and have valid keys are the same where they show the same. -/
theorem CaseOf.eq_of_shown (hemit : Function.Injective emit) {a b : Yaml × Yaml} (hc : CaseOf a b)
    (hva : validName a.1.text = true) (hvb : validName b.1.text = true) (ha : a.1.text ≠ [])
    (hb : b.1.text ≠ []) {l l' : List (Text × Text)}
    (h : shownEntry emit a ++ l = shownEntry emit b ++ l') : a = b := by
  obtain ⟨r, hr⟩ := shownEntry_cons emit ha hva
  obtain ⟨r', hr'⟩ := shownEntry_cons emit hb hvb
  rw [hr, hr'] at h
  obtain ⟨hkey, htext⟩ := Prod.mk.inj (List.cons.inj h).1
  refine Prod.ext ?_ (eq_of_nodeText hemit hc.2 htext)
  rw [(Yaml.text_eq_iff ha).mp rfl, (Yaml.text_eq_iff hb).mp rfl, hkey]

/-- The valid entries of two roots that show the same. -/
theorem filter_valid_eq (hemit : Function.Injective emit) (hc : List.Forall₂ CaseOf kvs kvs')
    (hd : (kvs.map fun kv => lower kv.1.text).Nodup) (hne : ∀ kv ∈ kvs, kv.1.text ≠ [])
    (h : (kvs.filter fun kv => validName kv.1.text).flatMap (shownEntry emit) =
      (kvs'.filter fun kv => validName kv.1.text).flatMap (shownEntry emit)) :
    kvs.filter (fun kv => validName kv.1.text) = kvs'.filter fun kv => validName kv.1.text := by
  induction hc with
  | nil => rfl
  | @cons a b as bs hab hc ih =>
    have ha := hne a List.mem_cons_self
    have hb := keys_ne_nil (.cons hab hc) hne b List.mem_cons_self
    have has := fun kv hkv => hne kv (List.mem_cons_of_mem _ hkv)
    rw [List.map_cons, List.nodup_cons] at hd
    obtain ⟨hfresh, hd⟩ := hd
    simp only [List.filter_cons] at h ⊢
    cases hva : validName a.1.text <;> cases hvb : validName b.1.text <;>
      simp only [hva, hvb, if_true, Bool.false_eq_true, if_false, List.flatMap_cons] at h ⊢
    · exact ih hd has h
    · rw [hab.lower_eq] at hfresh
      exact absurd h.symm (shownEntry_append_ne hvb hb has hfresh _)
    · rw [lower_keys_eq hc] at hfresh
      exact absurd h (shownEntry_append_ne hva ha (keys_ne_nil hc has) hfresh _)
    · obtain rfl := hab.eq_of_shown hemit hva hvb ha hb h
      rw [ih hd has (List.append_cancel_left h)]

theorem caseOf_members (h : t₁.mapKeys lower = t₂.mapKeys lower) :
    List.Forall₂ CaseOf t₁.members t₂.members := by
  have hm := congrArg Yaml.members h
  rw [Yaml.members_mapKeys, Yaml.members_mapKeys, ← List.forall₂_eq_eq_eq,
    List.forall₂_map_left_iff, List.forall₂_map_right_iff] at hm
  exact hm.imp fun _ _ h => Prod.mk.inj h

/-- **Where no key at the root is empty**, trees that differ in the case of keys show the same where
the entries of their roots with a valid key are the same. -/
theorem shown_eq_iff (hemit : Function.Injective emit)
    (h : t₁.mapKeys lower = t₂.mapKeys lower)
    (hk : (t₁.mapKeys lower).Keyed fun k => validName k = true)
    (hne : ∀ kv ∈ t₁.members, kv.1.text ≠ []) :
    shown emit t₁ = shown emit t₂ ↔ validEntries t₁ = validEntries t₂ := by
  rw [shown_eq_flatMap, shown_eq_flatMap]
  constructor
  · have htext : (fun kv : Yaml × Yaml => lower kv.1.text) =
        (fun kv => kv.1.text) ∘ fun kv => (Yaml.mapKey lower kv.1, Yaml.mapKeys lower kv.2) := by
      funext kv
      exact (Yaml.text_mapKey rfl kv.1).symm
    have hd : (t₁.members.map fun kv => lower kv.1.text).Nodup := by
      rw [htext, ← List.map_map, ← Yaml.members_mapKeys]
      exact hk.members_nodup
    exact filter_valid_eq hemit (caseOf_members h) hd hne
  · exact congrArg _

/-- **When trees that differ only in the case of keys are loaded alike**: where they show the same,
and for trees without an empty key at the root that is where the entries of the roots that have no
upper-case letter in their key are the same. -/
theorem keyCase_exact {y : Yaml.Codec} (hy : y.LoadsEmitted)
    (h : t₁.mapKeys lower = t₂.mapKeys lower)
    (hk : (t₁.mapKeys lower).Keyed fun k => validName k = true) :
    (LoadsAlike y.emit t₁ t₂ ↔ shown y.emit t₁ = shown y.emit t₂) ∧
      ((∀ kv ∈ t₁.members, kv.1.text ≠ []) →
        (LoadsAlike y.emit t₁ t₂ ↔ validEntries t₁ = validEntries t₂)) :=
  ⟨loadsAlike_iff, fun hne => loadsAlike_iff.trans (shown_eq_iff hy.injective h hk hne)⟩

/-- A port under a key in some case, beside a key in lower case. -/
def portTree (key : Text) : Yaml :=
  .map [(.scalar ['l', 'o', 'g'], .scalar ['1']), (.scalar key, .scalar ['8', '0'])]

theorem portTree_keyed :
    (portTree ['p', 'o', 'r', 't']).Keyed fun k => validName k = true := by
  refine .map _ (by decide) (by decide) ?_
  simp only [List.forall_mem_cons]
  exact ⟨.leaf _ (by simp), .leaf _ (by simp), List.forall_mem_nil _⟩

/-- A key that has an upper-case letter in both trees is seen in neither. -/
theorem keyCase_exact_ports :
    LoadsAlike (Yaml.Flow.restyle []).emit (portTree ['P', 'o', 'r', 't'])
      (portTree ['P', 'O', 'R', 'T']) := by
  have hk : ((portTree ['P', 'o', 'r', 't']).mapKeys lower).Keyed fun k => validName k = true :=
    portTree_keyed
  exact ((keyCase_exact (Yaml.Flow.restyle_loadsEmitted (by decide)) rfl hk).2 (by decide)).mpr rfl

/-- The variable `port`, with a listener that records the new values. -/
def portConfigs : Configs (List Text) where
  vars name :=
    if name = ['p', 'o', 'r', 't'] then
      some ⟨Text, inferInstance, some,
        { val := [], cbs := [(0, ⟨7, fun _ new w => .done (w ++ [new])⟩)] }⟩
    else none
  world := []

/-- The port under the key `Port` is not loaded, and under `port` it is. -/
theorem port_ignored :
    (Yaml.Flow.restyle []).LoadsEmitted ∧
    (portTree ['P', 'o', 'r', 't']).mapKeys lower = (portTree ['p', 'o', 'r', 't']).mapKeys lower ∧
    ((portTree ['P', 'o', 'r', 't']).mapKeys lower).Keyed (fun k => validName k = true) ∧
    portConfigs.Named ∧
    (Configs.loadFromYaml (Yaml.Flow.restyle []).emit (fun _ _ w => .done w)
      (portTree ['P', 'o', 'r', 't']) portConfigs).map (fun s => (s.calls, s.world)) =
        .done ([], []) ∧
    (Configs.loadFromYaml (Yaml.Flow.restyle []).emit (fun _ _ w => .done w)
      (portTree ['p', 'o', 'r', 't']) portConfigs).map (fun s => (s.calls, s.world)) =
        .done ([(['p', 'o', 'r', 't'], 7)], [['8', '0']]) ∧
    ¬ LoadsAlike (Yaml.Flow.restyle []).emit (portTree ['P', 'o', 'r', 't'])
      (portTree ['p', 'o', 'r', 't']) := by
  have hnamed : portConfigs.Named := by
    intro name x hx
    by_cases hn : name = ['p', 'o', 'r', 't']
    · rw [hn]
      decide
    · simp [portConfigs, hn] at hx
  refine ⟨Yaml.Flow.restyle_loadsEmitted (by decide), rfl, portTree_keyed, hnamed, rfl, rfl, ?_⟩
  intro h
  have heq := congrArg (CallResult.map fun s => (s.calls, s.world))
    (h _ (fun _ _ w => .done w) _ hnamed)
  cases heq

end Root

end Ddg
