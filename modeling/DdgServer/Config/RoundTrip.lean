import Mathlib.Data.Finset.Dedup
import DdgServer.Lib.Flow
import DdgServer.Config.LexicalCast

/-!
# Decoding an encoded value

An element of a container is encoded, loaded as a node, emitted as part of the container's text,
loaded with it and emitted once more before it is decoded: what its decoder gets is
`Casts.trip`. A container and an `int` survive this. A string leaf is a text that YAML reads as it
likes: `""` comes back as `"~"`.

* `Casts.Leaves P t v`: every string leaf of `v` has the property `P`.
* `Casts.trip_leaves`: what comes back has stable leaves.
* `Casts.decode_encode_iff`: the exact condition under which a value comes back.
-/

namespace Ddg

/-! ## Loops that may throw -/

section MapM

variable {α β γ : Type} {f : α → Option β} {l : List α} {l' : List β}

theorem mapM_eq_self {f : α → Option α} : l.mapM f = some l ↔ ∀ x ∈ l, f x = some x := by
  induction l with
  | nil => simp
  | cons a l ih =>
    rw [List.mapM_cons]
    constructor
    · intro h
      cases ha : f a with
      | none => simp [ha] at h
      | some b =>
        cases hl : l.mapM f with
        | none => simp [ha, hl] at h
        | some r =>
          obtain ⟨rfl, rfl⟩ : b = a ∧ r = l := by simpa [ha, hl] using h
          simpa [ha] using ih.mp hl
    · intro h
      rw [h a (by simp), ih.mpr fun x hx => h x (by simp [hx])]
      rfl

theorem of_mem_mapM (h : l.mapM f = some l') {b : β} (hb : b ∈ l') : ∃ a ∈ l, f a = some b := by
  induction l generalizing l' with
  | nil =>
    obtain rfl : [] = l' := by simpa using h
    cases hb
  | cons a l ih =>
    rw [List.mapM_cons] at h
    obtain ⟨c, hc, h⟩ := Option.bind_eq_some_iff.mp h
    obtain ⟨r, hr, h⟩ := Option.bind_eq_some_iff.mp h
    obtain rfl : c :: r = l' := by simpa using h
    rcases List.mem_cons.mp hb with rfl | hb
    · exact ⟨a, by simp, hc⟩
    · obtain ⟨x, hx, hfx⟩ := ih hr hb
      exact ⟨x, by simp [hx], hfx⟩

/-- Two loops one after the other are one loop. -/
theorem mapM_bind_mapM {g : β → Option γ} :
    (l.mapM f).bind (List.mapM g) = l.mapM fun a => (f a).bind g := by
  induction l with
  | nil => rfl
  | cons a l ih =>
    rw [List.mapM_cons, List.mapM_cons, ← ih]
    cases ha : f a with
    | none => simp
    | some b =>
      cases hl : l.mapM f with
      | none => cases g b <;> simp
      | some r => simp [List.mapM_cons]

end MapM

/-! ## Through one container -/

section Containers

variable {y : Yaml.Codec} {α : Type} {enc : α → Option Text} {dec : Text → Option α}

/-- What the decoder of an element gets, decoded. -/
def elementTrip (y : Yaml.Codec) (enc : α → Option Text) (dec : Text → Option α) (v : α) :
    Option α :=
  ((enc v).bind y.reload).bind dec

theorem elementTrip_eq : elementTrip y enc dec = fun a =>
    ((enc a).bind y.load).bind fun n => dec (y.emit n) := by
  funext a
  unfold elementTrip Yaml.Codec.reload
  cases enc a with
  | none => rfl
  | some t => cases h : y.load t <;> simp [h]

theorem castFromItems_stable (h : y.LoadsEmitted) {v : List α} {s : Text}
    (hs : castFromItems y enc v = some s) : y.Stable s := by
  obtain ⟨nodes, -, hn⟩ := Option.bind_eq_some_iff.mp hs
  obtain rfl : y.emit (.seq nodes) = s := by simpa using hn
  exact Yaml.Codec.stable_emit h _

theorem castToItems_castFromItems (h : y.LoadsEmitted) (v : List α) :
    (castFromItems y enc v).bind (castToItems y dec) = v.mapM (elementTrip y enc dec) := by
  have hto : ∀ nodes, castToItems y dec (y.emit (.seq nodes)) = nodes.mapM fun n => dec (y.emit n) := by
    intro nodes
    unfold castToItems
    rw [h]
    simp
    rfl
  rw [elementTrip_eq, ← mapM_bind_mapM]
  unfold castFromItems
  cases v.mapM fun i => (enc i).bind y.load with
  | none => rfl
  | some nodes => exact hto nodes

/-- The node that the encoder of a map has made after some entries. -/
def entriesNode (l : List (Text × Yaml)) : Yaml :=
  if l = [] then .seq [] else .map (l.map fun kv => (.scalar kv.1, kv.2))

theorem forceInsert_entriesNode (l : List (Text × Yaml)) (k : Text) (n : Yaml) :
    (entriesNode l).forceInsert k n = some (entriesNode (l ++ [(k, n)])) := by
  unfold entriesNode
  by_cases hl : l = [] <;> simp [hl, Yaml.forceInsert]

theorem castFromEntries_eq (v : List (Text × α)) : castFromEntries y enc v =
    (v.mapM fun i => ((enc i.2).bind y.load).map fun n => (i.1, n)).map fun l =>
      y.emit (entriesNode l) := by
  have hfold : ∀ (v : List (Text × α)) (acc : List (Text × Yaml)),
      v.foldlM (fun node i => do
        let child ← (enc i.2).bind y.load
        node.forceInsert i.1 child) (entriesNode acc) =
      (v.mapM fun i => ((enc i.2).bind y.load).map fun n => (i.1, n)).map fun l =>
        entriesNode (acc ++ l) := by
    intro v
    induction v with
    | nil => simp
    | cons i v ih =>
      intro acc
      rw [List.foldlM_cons, List.mapM_cons]
      simp only [Option.bind_eq_bind] at ih ⊢
      cases hc : (enc i.2).bind y.load with
      | none => rfl
      | some n =>
        simp only [Option.bind_some, forceInsert_entriesNode, ih]
        cases v.mapM fun i => ((enc i.2).bind y.load).map fun n => (i.1, n) <;> simp
  have := hfold v []
  unfold castFromEntries
  rw [show Yaml.seq [] = entriesNode [] from rfl, this]
  cases v.mapM fun i => ((enc i.2).bind y.load).map fun n => (i.1, n) <;> simp

theorem castFromEntries_stable (h : y.LoadsEmitted) {v : List (Text × α)} {s : Text}
    (hs : castFromEntries y enc v = some s) : y.Stable s := by
  rw [castFromEntries_eq] at hs
  obtain ⟨l, -, rfl⟩ := Option.map_eq_some_iff.mp hs
  exact Yaml.Codec.stable_emit h _

theorem castToEntries_castFromEntries (h : y.LoadsEmitted) (v : List (Text × α)) :
    (castFromEntries y enc v).bind (castToEntries y dec) =
      v.mapM fun kv => (elementTrip y enc dec kv.2).map fun x => (kv.1, x) := by
  have hto : ∀ l, castToEntries y dec (y.emit (entriesNode l)) =
      l.mapM fun kv => (dec (y.emit kv.2)).map fun x => (kv.1, x) := by
    intro l
    unfold castToEntries entriesNode
    rw [h]
    by_cases hl : l = []
    · simp [hl, Yaml.entries]
    · simp [hl, Yaml.entries, Yaml.text, Function.comp_def]
  rw [castFromEntries_eq, elementTrip_eq]
  have hfuse := mapM_bind_mapM (l := v) (f := fun i => ((enc i.2).bind y.load).map fun n => (i.1, n))
    (g := fun kv : Text × Yaml => (dec (y.emit kv.2)).map fun x => (kv.1, x))
  have hg : (fun kv : Text × α => (((enc kv.2).bind y.load).bind fun n => dec (y.emit n)).map
      fun x => (kv.1, x)) = fun i => (((enc i.2).bind y.load).map fun n => (i.1, n)).bind
        fun kv : Text × Yaml => (dec (y.emit kv.2)).map fun x => (kv.1, x) := by
    funext kv
    cases (enc kv.2).bind y.load <;> rfl
  rw [hg, ← hfuse]
  cases v.mapM fun i => ((enc i.2).bind y.load).map fun n => (i.1, n) with
  | none => rfl
  | some l => exact hto l

theorem lookup_foldl_insert (l : List (Text × α)) (m : Finmap fun _ : Text => α) (k : Text) :
    (l.foldl (fun m kv => if kv.1 ∈ m then m else m.insert kv.1 kv.2) m).lookup k =
      (m.lookup k).or (l.lookup k) := by
  induction l generalizing m with
  | nil => simp
  | cons kv l ih =>
    obtain ⟨k', x⟩ := kv
    rw [List.foldl_cons, ih, List.lookup_cons]
    by_cases hk : k = k'
    · subst hk
      by_cases hm : k ∈ m
      · obtain ⟨b, hb⟩ := Finmap.mem_iff.mp hm
        simp [hm, hb]
      · simp [hm, Finmap.lookup_eq_none.mpr hm]
    · have hb : (k == k') = false := by simpa using hk
      rw [hb]
      by_cases hm : k' ∈ m
      · simp [hm]
      · simp [hm, Finmap.lookup_insert_of_ne m hk]

theorem mem_of_lookup {l : List (Text × α)} {k : Text} {x : α} (h : l.lookup k = some x) :
    (k, x) ∈ l := by
  induction l with
  | nil => cases h
  | cons kv l ih =>
    obtain ⟨k', x'⟩ := kv
    rw [List.lookup_cons] at h
    by_cases hk : k = k'
    · subst hk
      obtain rfl : x' = x := by simpa using h
      simp
    · have hb : (k == k') = false := by simpa using hk
      rw [hb] at h
      exact List.mem_cons_of_mem _ (ih h)

theorem lookup_of_mem {l : List (Text × α)} (hn : (l.map Prod.fst).Nodup) {k : Text} {x : α}
    (h : (k, x) ∈ l) : l.lookup k = some x := by
  induction l with
  | nil => cases h
  | cons kv l ih =>
    rw [List.map_cons, List.nodup_cons] at hn
    rw [List.lookup_cons]
    rcases List.mem_cons.mp h with rfl | h
    · simp
    · have hk : (k == kv.1) = false := by
        rw [beq_eq_false_iff_ne]
        rintro rfl
        exact hn.1 (List.mem_map.mpr ⟨_, h, rfl⟩)
      rw [hk]
      exact ih hn.2 h

theorem lookup_insertEntries (l : List (Text × α)) (k : Text) :
    (insertEntries l).lookup k = l.lookup k := by
  unfold insertEntries
  rw [lookup_foldl_insert]
  simp

end Containers

/-! ## Through any nesting of containers -/

namespace Casts

variable {c : Casts}

/-- Every string leaf has the property `P`. -/
def Leaves (P : Text → Prop) : (t : CastType) → t.Val → Prop
  | .int, _ => True
  | .string, v => P v
  | .vector t, v | .list t, v => ∀ x ∈ v, Leaves P t x
  | .set t, v | .unorderedSet t, v => ∀ x ∈ v, Leaves P t x
  | .unorderedMap t, v => ∀ k x,
      Finmap.lookup k v = some x → Leaves P t x

/-- What becomes of an element of a container. -/
def trip (c : Casts) (t : CastType) (v : t.Val) : Option t.Val :=
  elementTrip c.yaml (c.encode t) (c.decode t) v

theorem trip_of_stable {t : CastType} {v : t.Val}
    (h : ∀ s, c.encode t v = some s → c.yaml.Stable s) :
    c.trip t v = (c.encode t v).bind (c.decode t) := by
  unfold trip elementTrip
  cases he : c.encode t v with
  | none => rfl
  | some s =>
    have hs : c.yaml.reload s = some s := h s he
    simp [hs]

section Trip

variable (hc : c.Laws)

include hc

theorem trip_items (t : CastType) (l : List t.Val) :
    elementTrip c.yaml (castFromItems c.yaml (c.encode t)) (castToItems c.yaml (c.decode t)) l =
      l.mapM (c.trip t) := by
  unfold elementTrip
  cases he : castFromItems c.yaml (c.encode t) l with
  | none =>
    rw [← show elementTrip c.yaml (c.encode t) (c.decode t) = c.trip t from rfl,
      ← castToItems_castFromItems hc.loadsEmitted, he]
    rfl
  | some s =>
    have hs : c.yaml.reload s = some s := castFromItems_stable hc.loadsEmitted he
    have this : (castFromItems c.yaml (c.encode t) l).bind (castToItems c.yaml (c.decode t)) =
        l.mapM (c.trip t) := castToItems_castFromItems hc.loadsEmitted l
    rw [he] at this
    simp only [Option.bind_some, hs]
    exact this

theorem trip_set (t : CastType) (v : Finset t.Val) :
    c.trip (.set t) v = ((c.items t v).mapM (c.trip t)).map List.toFinset := by
  rw [← trip_items hc]
  unfold trip elementTrip
  rw [encode]
  cases (castFromItems c.yaml (c.encode t) (c.items t v)).bind c.yaml.reload with
  | none => rfl
  | some s => rfl

theorem trip_map (t : CastType) (v : Finmap fun _ : Text => t.Val) :
    c.trip (.unorderedMap t) v =
      ((c.entries t v).mapM fun kv => (c.trip t kv.2).map fun x => (kv.1, x)).map insertEntries := by
  rw [show c.trip t = elementTrip c.yaml (c.encode t) (c.decode t) from rfl,
    ← castToEntries_castFromEntries hc.loadsEmitted]
  rw [trip_of_stable]
  · rw [encode]
    cases castFromEntries c.yaml (c.encode t) (c.entries t v) with
    | none => rfl
    | some s => rfl
  · intro s hs
    exact castFromEntries_stable hc.loadsEmitted hs

/-- What comes back has stable leaves. -/
theorem trip_leaves : ∀ (t : CastType) {v v' : t.Val}, c.trip t v = some v' →
    Leaves c.yaml.Stable t v'
  | .int, _, _, _ => trivial
  | .string, v, v', h => by
    have hr : c.yaml.reload v = some v' := by
      simpa [trip, elementTrip, encode, decode] using h
    exact Yaml.Codec.stable_of_reload hc.loadsEmitted hr
  | .vector t, v, v', h | .list t, v, v', h => by
    intro x hx
    have h : List.mapM (c.trip t) v = some v' := (trip_items hc t v) ▸ h
    obtain ⟨a, -, ha⟩ := of_mem_mapM h hx
    exact trip_leaves t ha
  | .set t, v, v', h | .unorderedSet t, v, v', h => by
    intro x hx
    have h : ((c.items t v).mapM (c.trip t)).map List.toFinset = some v' := (trip_set hc t v) ▸ h
    obtain ⟨l, hl, rfl⟩ := Option.map_eq_some_iff.mp h
    obtain ⟨a, -, ha⟩ := of_mem_mapM hl (List.mem_toFinset.mp hx)
    exact trip_leaves t ha
  | .unorderedMap t, v, v', h => by
    intro k x hx
    rw [trip_map hc] at h
    obtain ⟨l, hl, rfl⟩ := Option.map_eq_some_iff.mp h
    rw [lookup_insertEntries] at hx
    obtain ⟨kv, -, hkv⟩ := of_mem_mapM hl (mem_of_lookup hx)
    obtain ⟨x', hx', he⟩ := Option.map_eq_some_iff.mp hkv
    obtain ⟨-, rfl⟩ : kv.1 = k ∧ x' = x := by simpa using he
    exact trip_leaves t hx'

/-- An element comes back exactly if its leaves are stable. -/
theorem trip_eq_self (t : CastType) {v : t.Val} :
    c.trip t v = some v ↔ Leaves c.yaml.Stable t v := by
  refine ⟨trip_leaves hc t, fun h => ?_⟩
  induction t with
  | int =>
    have hs : c.yaml.reload (c.showInt v) = some (c.showInt v) := hc.stable_showInt v
    simp [trip, elementTrip, encode, decode, hs, hc.readInt_showInt]
  | string =>
    have hs : c.yaml.reload v = some v := h
    simp [trip, elementTrip, encode, decode, hs]
  | vector t ih | list t ih =>
    have : List.mapM (c.trip t) v = some v := mapM_eq_self.mpr fun x hx => ih (h x hx)
    exact (trip_items hc t v).trans this
  | set t ih | unorderedSet t ih =>
    have hl : (c.items t v).mapM (c.trip t) = some (c.items t v) :=
      mapM_eq_self.mpr fun x hx => ih (h x ((hc.mem_items t v x).mp hx))
    refine (trip_set hc t v).trans ?_
    rw [hl]
    refine congrArg some (Finset.ext fun x => ?_)
    rw [List.mem_toFinset, hc.mem_items]
  | unorderedMap t ih =>
    have hl : ((c.entries t v).mapM fun kv => (c.trip t kv.2).map fun x => (kv.1, x)) =
        some (c.entries t v) := by
      refine mapM_eq_self.mpr fun kv hkv => ?_
      rw [ih (h kv.1 kv.2 ((hc.mem_entries t v _ _).mp hkv))]
      rfl
    rw [trip_map hc, hl]
    refine congrArg some (Finmap.ext_lookup fun k => ?_)
    rw [lookup_insertEntries]
    refine Option.ext fun x => ?_
    constructor
    · intro hx
      exact (hc.mem_entries t v k x).mp (mem_of_lookup hx)
    · intro hx
      exact lookup_of_mem (hc.nodup_entries t v) ((hc.mem_entries t v k x).mpr hx)

/-- Decoding the text of a value gives the value exactly if it is a string itself or each of its
string leaves is the text of the node that YAML loads from it. -/
theorem decode_encode_iff (t : CastType) (v : t.Val) :
    (c.encode t v).bind (c.decode t) = some v ↔ t = .string ∨ Leaves c.yaml.Stable t v := by
  cases t with
  | string => simp [encode, decode]
  | int => simp [encode, decode, hc.readInt_showInt, Leaves]
  | vector t | list t | set t | unorderedSet t =>
    rw [← trip_eq_self hc, trip_of_stable]
    · simp
    · intro s hs
      exact castFromItems_stable hc.loadsEmitted hs
  | unorderedMap t =>
    rw [← trip_eq_self hc, trip_of_stable]
    · simp
    · intro s hs
      exact castFromEntries_stable hc.loadsEmitted hs

end Trip

/-! ## Casts that exist -/

/-- An `int` in decimal. -/
def showDecimal (z : Int32) : Text :=
  if z.toInt < 0 then '-' :: Nat.toDigits 10 z.toInt.natAbs else Nat.toDigits 10 z.toInt.natAbs

/-- `boost::lexical_cast<int>`: an optional sign, digits, and a value that fits. -/
def readDecimal (s : Text) : Option Int32 :=
  let neg := s.head? = some '-'
  let digits := if neg then s.tail else s
  let z : ℤ := if neg then -(Nat.ofDigitChars 10 digits 0) else Nat.ofDigitChars 10 digits 0
  if digits ≠ [] ∧ digits.all (·.isDigit) ∧ (Int32.ofInt z).toInt = z then some (Int32.ofInt z)
  else none

theorem toDigits_ne_nil (n : ℕ) : Nat.toDigits 10 n ≠ [] := by
  have := Nat.length_toDigits_pos (b := 10) (n := n)
  intro h
  rw [h] at this
  exact absurd this (by decide)

theorem toDigits_isDigit (n : ℕ) : ∀ c ∈ Nat.toDigits 10 n, c.isDigit := fun _ h =>
  Nat.isDigit_of_mem_toDigits (by decide) (by decide) h

theorem plain_showDecimal (z : Int32) : Yaml.Flow.plain (showDecimal z) := by
  unfold showDecimal
  split
  · exact Yaml.Flow.plain_neg (toDigits_ne_nil _) (toDigits_isDigit _)
  · exact Yaml.Flow.plain_digits (toDigits_ne_nil _) (toDigits_isDigit _)

theorem readDecimal_showDecimal (z : Int32) : readDecimal (showDecimal z) = some z := by
  have hall : (Nat.toDigits 10 z.toInt.natAbs).all (·.isDigit) :=
    List.all_eq_true.mpr (toDigits_isDigit _)
  have hval : Nat.ofDigitChars 10 (Nat.toDigits 10 z.toInt.natAbs) 0 = z.toInt.natAbs :=
    Nat.ofDigitChars_toDigits (by decide) (by decide)
  unfold showDecimal readDecimal
  by_cases hz : z.toInt < 0
  · have habs : -(z.toInt.natAbs : ℤ) = z.toInt := by omega
    simp only [hz, if_true, List.head?_cons, List.tail_cons, hval, habs, Int32.ofInt_toInt]
    exact if_pos ⟨toDigits_ne_nil _, hall, trivial⟩
  · have habs : (z.toInt.natAbs : ℤ) = z.toInt := by omega
    have hsign : (Nat.toDigits 10 z.toInt.natAbs).head? ≠ some '-' := fun h =>
      absurd (toDigits_isDigit _ '-' (List.mem_of_mem_head? h)) (by decide)
    simp only [hz, if_false, hsign, hval, habs, Int32.ofInt_toInt]
    exact if_pos ⟨toDigits_ne_nil _, hall, trivial⟩

/-- Casts over the codec in flow style, with some texts in another style. The sets and maps are
iterated in an order that is chosen for each of them. -/
noncomputable def flow (styles : List (Text × Text)) : Casts where
  yaml := Yaml.Flow.restyle styles
  showInt := showDecimal
  readInt := readDecimal
  items _ s := s.toList
  entries _ m := (m.keys.toList.filterMap fun k => (m.lookup k).map fun x => (k, x))

theorem space_notMem_showDecimal (z : Int32) : ' ' ∉ showDecimal z := by
  intro h
  unfold showDecimal at h
  split at h
  · rcases List.mem_cons.mp h with h | h
    · exact absurd h (by decide)
    · exact absurd (toDigits_isDigit _ _ h) (by decide)
  · exact absurd (toDigits_isDigit _ _ h) (by decide)

theorem flow_laws {styles : List (Text × Text)} (h : Yaml.Flow.Styles styles)
    (hs : ∀ x ∈ styles, ' ' ∈ x.1 ∧ ' ' ∈ x.2) : (flow styles).Laws where
  loadsEmitted := Yaml.Flow.restyle_loadsEmitted h
  stable_showInt z := by
    refine Yaml.Flow.restyle_stable (plain_showDecimal z) fun x hx => ⟨?_, ?_⟩
    · intro e
      have := (hs x hx).1
      rw [e] at this
      exact space_notMem_showDecimal z this
    · intro e
      have := (hs x hx).2
      rw [e] at this
      exact space_notMem_showDecimal z this
  readInt_showInt := readDecimal_showDecimal
  mem_items _ s x := Finset.mem_toList
  mem_entries _ m k x := by
    unfold flow
    simp only [List.mem_filterMap, Finset.mem_toList, Option.map_eq_some_iff, Prod.mk.injEq]
    constructor
    · rintro ⟨k', -, x', hx, rfl, rfl⟩
      exact hx
    · intro hx
      exact ⟨k, Finmap.mem_keys.mpr (Finmap.mem_of_lookup_eq_some hx), x, hx, rfl, rfl⟩
  nodup_entries _ m := by
    unfold flow
    rw [List.map_filterMap]
    refine (Finset.nodup_toList _).filterMap fun a a' b hb hb' => ?_
    simp only [Option.map_map, Option.mem_def, Option.map_eq_some_iff] at hb hb'
    obtain ⟨x, hx, rfl⟩ := hb
    obtain ⟨x', hx', h⟩ := hb'
    exact h.symm

/-- What `yaml-cpp` emits for two sequences, in the place of their flow texts. -/
def blockStyles : List (Text × Text) :=
  [("[rcf, rrr, ]".toList, "- rcf\n- rrr".toList), ("[~, ]".toList, "- ~".toList)]

theorem blockStyles_styles : Yaml.Flow.Styles blockStyles ∧
    ∀ x ∈ blockStyles, ' ' ∈ x.1 ∧ ' ' ∈ x.2 := by
  decide

theorem decode_encode_names : ((flow blockStyles).encode (.vector .string)
      ["rcf".toList, "rrr".toList]).bind ((flow blockStyles).decode (.vector .string)) =
    some ["rcf".toList, "rrr".toList] := by
  have hc := flow_laws blockStyles_styles.1 blockStyles_styles.2
  refine (decode_encode_iff hc (.vector .string) ["rcf".toList, "rrr".toList]).mpr (.inr ?_)
  have h : ∀ x ∈ ["rcf".toList, "rrr".toList], (Yaml.Flow.restyle blockStyles).reload x = some x := by
    decide
  exact h

/-- The vector of one empty string comes back as the vector of `"~"`. -/
theorem decode_encode_empty : (flow blockStyles).Laws ∧
    (flow blockStyles).yaml.load [] = some .null ∧ (flow blockStyles).yaml.emit .null = ['~'] ∧
    ((flow blockStyles).encode (.vector .string) [[]]).bind
      ((flow blockStyles).decode (.vector .string)) = some [['~']] ∧
    ([['~']] : CastType.Val (.vector .string)) ≠ [[]] := by
  have hc := flow_laws blockStyles_styles.1 blockStyles_styles.2
  have hr : (Yaml.Flow.restyle blockStyles).reload [] = some ['~'] := by decide
  refine ⟨hc, rfl, by decide, ?_, by decide⟩
  have ht : (flow blockStyles).trip (.vector .string) [[]] = _ :=
    trip_of_stable fun s hs => castFromItems_stable hc.loadsEmitted hs
  refine ht.symm.trans ((trip_items hc .string [[]]).trans ?_)
  have hs : (flow blockStyles).trip .string [] = some ['~'] := by
    change ((Yaml.Flow.restyle blockStyles).reload []).bind some = _
    rw [hr]
    rfl
  rw [List.mapM_cons, hs]
  rfl

end Casts

end Ddg
