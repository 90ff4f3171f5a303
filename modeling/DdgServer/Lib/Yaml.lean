import Mathlib.Data.List.Basic

/-!
# YAML trees and their texts

The node trees of a YAML library, with its ways of looking at a node. A text is a list of
characters. The library itself is a parameter, `Yaml.Codec`: what it loads from a text and what it
emits for a node.

* `Yaml.get_perm`: the order of the entries of a map with distinct keys does not matter to a lookup.
* `Yaml.Codec.LoadsEmitted`: the text of a node loads as that node.
* `Yaml.Codec.Stable t`: `t` is the text of the node that it loads as, so that loading and emitting
  give it back; under `LoadsEmitted` an emitted text is stable, and reloading is idempotent.
-/

/-- A node. Anchors, tags and the style of a node are left out. -/
inductive Yaml
  | null
  | scalar (s : List Char)
  | seq (xs : List Yaml)
  | map (kvs : List (Yaml × Yaml))

namespace Yaml

/-- `node.Scalar()`: a node that is not a scalar has the empty text. -/
def text : Yaml → List Char
  | scalar s => s
  | _ => []

/-- `node.size()`. -/
def size : Yaml → ℕ
  | seq xs => xs.length
  | map kvs => kvs.length
  | _ => 0

/-- The loop over `it->first` and `it->second`: an element of a sequence has no first, and its
`Scalar()` throws (`none`). -/
def entries : Yaml → Option (List (Yaml × Yaml))
  | map kvs => some kvs
  | seq (_ :: _) => none
  | _ => some []

/-- `node[key]`: the first entry whose key is the scalar `key`. -/
def get (key : List Char) : Yaml → Option Yaml
  | map kvs => (kvs.find? fun kv => match kv.1 with | scalar s => s == key | _ => false).map (·.2)
  | _ => none

/-- The text under a key, empty without an entry. -/
def textAt (key : List Char) (n : Yaml) : List Char := (n.get key).elim [] text

/-- A map with scalar keys; without entries, the node that no assignment has made a map. -/
def ofFields (kvs : List (List Char × Yaml)) : Yaml :=
  if kvs = [] then null else map (kvs.map fun kv => (scalar kv.1, kv.2))

/-- `node.force_insert(key, value)`: a sequence becomes a map, its elements under their indices. -/
def forceInsert (node : Yaml) (key : List Char) (value : Yaml) : Option Yaml :=
  match node with
  | map kvs => some (map (kvs ++ [(scalar key, value)]))
  | seq xs => some (map ((xs.zipIdx.map fun x => (scalar (toString x.2).toList, x.1)) ++
      [(scalar key, value)]))
  | null => some (map [(scalar key, value)])
  | scalar _ => none

/-! ### Entries of maps -/

section Entries

variable {n v : Yaml} {kv : Yaml × Yaml} {kvs kvs' : List (Yaml × Yaml)} {key : List Char}

/-- No two entries of a map have the same key. -/
def Distinct (kvs : List (Yaml × Yaml)) : Prop := (kvs.map Prod.fst).Nodup

theorem Distinct.tail (h : Distinct (kv :: kvs)) : Distinct kvs := (List.nodup_cons.mp h).2

theorem Distinct.head_ne (h : Distinct (kv :: kvs)) : ∀ x ∈ kvs, x.1 ≠ kv.1 := by
  intro x hx he
  exact (List.nodup_cons.mp h).1 (he ▸ List.mem_map_of_mem hx)

/-- Only a scalar has a text. -/
theorem text_eq_iff (hkey : key ≠ []) : n.text = key ↔ n = scalar key := by
  cases n with
  | scalar s => simp [text]
  | null | seq | map => simp [text, hkey.symm]

theorem get_cons_self (key : List Char) (v : Yaml) (kvs : List (Yaml × Yaml)) :
    (map ((scalar key, v) :: kvs)).get key = some v := by
  simp [get]

theorem get_cons_ne (h : kv.1 ≠ scalar key) :
    (map (kv :: kvs)).get key = (map kvs).get key := by
  obtain ⟨k, v⟩ := kv
  cases k with
  | scalar s =>
    have hs : (s == key) = false := by simpa using h
    simp [get, hs]
  | null | seq | map => simp [get]

theorem get_cons (hkey : key ≠ []) (kv : Yaml × Yaml) (kvs : List (Yaml × Yaml)) :
    (map (kv :: kvs)).get key = if kv.1.text = key then some kv.2 else (map kvs).get key := by
  by_cases h : kv.1.text = key
  · obtain ⟨k, v⟩ := kv
    obtain rfl : k = scalar key := (text_eq_iff hkey).mp h
    rw [if_pos h, get_cons_self]
  · rw [if_neg h, get_cons_ne ((text_eq_iff hkey).not.mp h)]

theorem get_eq_none (h : ∀ kv ∈ kvs, kv.1 ≠ scalar key) : (map kvs).get key = none := by
  induction kvs with
  | nil => rfl
  | cons kv kvs ih =>
    rw [get_cons_ne (h kv List.mem_cons_self)]
    exact ih fun kv hkv => h kv (List.mem_cons_of_mem _ hkv)

/-- A key that the first entry has is in no other. -/
theorem Distinct.get_tail (h : Distinct (kv :: kvs)) (hkey : key ≠ []) (hk : kv.1.text = key) :
    (map kvs).get key = none := by
  refine get_eq_none fun x hx => ?_
  rw [← (text_eq_iff hkey).mp hk]
  exact h.head_ne x hx

theorem mem_of_get (h : (map kvs).get key = some v) : (scalar key, v) ∈ kvs := by
  induction kvs with
  | nil => cases h
  | cons kv kvs ih =>
    by_cases hk : kv.1 = scalar key
    · obtain ⟨k, w⟩ := kv
      obtain rfl : k = scalar key := hk
      rw [get_cons_self] at h
      cases h
      exact List.mem_cons_self
    · rw [get_cons_ne hk] at h
      exact List.mem_cons_of_mem _ (ih h)

theorem get_of_mem (hd : Distinct kvs) (h : (scalar key, v) ∈ kvs) :
    (map kvs).get key = some v := by
  induction kvs with
  | nil => cases h
  | cons kv kvs ih =>
    rcases List.mem_cons.mp h with rfl | h
    · exact get_cons_self key v kvs
    · rw [get_cons_ne (hd.head_ne _ h).symm]
      exact ih hd.tail h

theorem get_eq_some_iff (hd : Distinct kvs) :
    (map kvs).get key = some v ↔ (scalar key, v) ∈ kvs :=
  ⟨mem_of_get, get_of_mem hd⟩

theorem Distinct.perm (hd : Distinct kvs) (hp : kvs.Perm kvs') : Distinct kvs' :=
  (hp.map Prod.fst).nodup hd

/-- The order of the entries does not matter to a lookup. -/
theorem get_perm (hd : Distinct kvs) (hp : kvs.Perm kvs') (key : List Char) :
    (map kvs).get key = (map kvs').get key := by
  refine Option.ext fun v => ?_
  rw [get_eq_some_iff hd, get_eq_some_iff (hd.perm hp), hp.mem_iff]

end Entries

/-- A YAML library: `load` (`none`: it throws), `emit`, and the number that a scalar denotes when
it is compared with an index. -/
structure Codec where
  load : List Char → Option Yaml
  emit : Yaml → List Char
  asIndex : List Char → Option ℕ

namespace Codec

variable (y : Codec)

/-- Loading an emitted node gives the same node. -/
def LoadsEmitted : Prop := ∀ n, y.load (y.emit n) = some n

/-- The text of a node that was loaded from `t`. -/
def reload (t : List Char) : Option (List Char) := (y.load t).map y.emit

/-- `t` is the text of the node that it loads as. -/
def Stable (t : List Char) : Prop := y.reload t = some t

/-- `ss << node[i]`, for `i` below `node.size()`. A map is searched for a key that denotes `i`; an
entry that is missing has no text. -/
def itemText (i : ℕ) : Yaml → List Char
  | seq xs => (xs[i]?.map y.emit).getD []
  | map kvs => ((kvs.find? fun kv => match kv.1 with
      | scalar s => y.asIndex s == some i
      | _ => false).map fun kv => y.emit kv.2).getD []
  | _ => []

/-- The texts of the loop over `node[i]`. -/
def itemTexts (n : Yaml) : List (List Char) := (List.range n.size).map fun i => y.itemText i n

/-- The texts of the loop over `*it`: an entry of a map is not a node and has no text. -/
def starTexts : Yaml → List (List Char)
  | seq xs => xs.map y.emit
  | map kvs => kvs.map fun _ => []
  | _ => []

variable {y}

@[simp] theorem itemTexts_seq (xs : List Yaml) : y.itemTexts (seq xs) = xs.map y.emit := by
  unfold itemTexts
  refine List.ext_getElem (by simp [size]) fun i h _ => ?_
  have hi : i < xs.length := by simpa [size] using h
  simp [itemText, hi]

/-- Nodes that are emitted as the same text are the same. -/
theorem LoadsEmitted.injective (h : y.LoadsEmitted) : Function.Injective y.emit := by
  intro n m he
  rw [← Option.some_inj, ← h n, ← h m, he]

theorem stable_emit (h : y.LoadsEmitted) (n : Yaml) : y.Stable (y.emit n) := by
  unfold Stable reload
  rw [h]
  rfl

/-- What reloading gives is stable. -/
theorem stable_of_reload (h : y.LoadsEmitted) {t u : List Char} (hr : y.reload t = some u) :
    y.Stable u := by
  obtain ⟨n, -, rfl⟩ := Option.map_eq_some_iff.mp hr
  exact stable_emit h n

end Codec

end Yaml
