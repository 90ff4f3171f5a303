import Mathlib.Data.List.Nodup
import DdgServer.Lib.Yaml

/-!
# Walks of a YAML tree

The nodes that map keys lead to, with the keys on the way, a map before its entries.

* `Yaml.mem_walk`: the walk has exactly the nodes that keys lead to.
* `Yaml.Keyed.walk_nodup`: when the keys of each map are distinct, no keys occur twice.
* `Yaml.parent_before_child`: a node stands before the nodes under it.
* `Yaml.dotted_inj`: keys without dots are determined by the path that dots join them to.
* `Yaml.mapKeys`: the tree with other keys; a node that is a scalar says the same in both trees.
-/

namespace Yaml

/-- The keys `ks` lead from the node to `m`. -/
inductive At : Yaml → List (List Char) → Yaml → Prop
  | here (n : Yaml) : At n [] n
  | under {kvs : List (Yaml × Yaml)} {kv : Yaml × Yaml} {ks : List (List Char)} {m : Yaml} :
      kv ∈ kvs → At kv.2 ks m → At (map kvs) (kv.1.text :: ks) m

mutual

/-- The nodes of the tree in the order of the walk, each with its keys. -/
def walk : Yaml → List (List (List Char) × Yaml)
  | map kvs => ([], map kvs) :: walkEntries kvs
  | n => [([], n)]

def walkEntries : List (Yaml × Yaml) → List (List (List Char) × Yaml)
  | [] => []
  | (k, c) :: kvs => (walk c).map (fun e => (k.text :: e.1, e.2)) ++ walkEntries kvs

end

/-- The keys of each map that keys lead to meet `ok` and are distinct. -/
inductive Keyed (ok : List Char → Prop) : Yaml → Prop
  | leaf (n : Yaml) (h : ∀ kvs, n ≠ map kvs) : Keyed ok n
  | map (kvs : List (Yaml × Yaml)) (distinct : (kvs.map fun kv => kv.1.text).Nodup)
      (keys : ∀ kv ∈ kvs, ok kv.1.text) (values : ∀ kv ∈ kvs, Keyed ok kv.2) : Keyed ok (map kvs)

mutual

/-- The tree with `f` applied to each scalar key of its maps. -/
def mapKeys (f : List Char → List Char) : Yaml → Yaml
  | map kvs => map (mapEntries f kvs)
  | seq xs => seq (mapItems f xs)
  | n => n

/-- A key of a map after it. -/
def mapKey (f : List Char → List Char) : Yaml → Yaml
  | scalar s => scalar (f s)
  | map kvs => map (mapEntries f kvs)
  | seq xs => seq (mapItems f xs)
  | null => null

def mapItems (f : List Char → List Char) : List Yaml → List Yaml
  | [] => []
  | x :: xs => mapKeys f x :: mapItems f xs

def mapEntries (f : List Char → List Char) : List (Yaml × Yaml) → List (Yaml × Yaml)
  | [] => []
  | (k, c) :: kvs => (mapKey f k, mapKeys f c) :: mapEntries f kvs

end

/-- The entries of a map; other nodes have none. -/
def members : Yaml → List (Yaml × Yaml)
  | map kvs => kvs
  | _ => []

variable {n m : Yaml} {ks ls : List (List Char)} {kvs : List (Yaml × Yaml)}
  {ok : List Char → Prop}

theorem mem_walkEntries {e : List (List Char) × Yaml} :
    e ∈ walkEntries kvs ↔ ∃ kv ∈ kvs, ∃ e' ∈ walk kv.2, e = (kv.1.text :: e'.1, e'.2) := by
  induction kvs with
  | nil => simp [walkEntries]
  | cons kv kvs ih =>
    obtain ⟨k, c⟩ := kv
    simp only [walkEntries, List.mem_append, List.mem_map, ih, List.exists_mem_cons_iff]
    refine or_congr_left ?_
    constructor
    · rintro ⟨e', he', rfl⟩
      exact ⟨e', he', rfl⟩
    · rintro ⟨e', he', rfl⟩
      exact ⟨e', he', rfl⟩

theorem self_mem_walk (n : Yaml) : ([], n) ∈ n.walk := by
  cases n <;> simp [walk]

theorem At.mem_walk (h : n.At ks m) : (ks, m) ∈ n.walk := by
  induction h with
  | here n => exact self_mem_walk n
  | under hkv _ ih =>
    rw [walk]
    exact List.mem_cons_of_mem _ (mem_walkEntries.mpr ⟨_, hkv, _, ih, rfl⟩)

mutual

theorem at_of_mem_walk : ∀ (n : Yaml) (ks : List (List Char)) (m : Yaml),
    (ks, m) ∈ n.walk → n.At ks m
  | map kvs, ks, m, h => by
    rw [walk] at h
    rcases List.mem_cons.mp h with he | h
    · obtain ⟨rfl, rfl⟩ := Prod.mk.inj he
      exact .here _
    · obtain ⟨kv, hkv, e', he', he⟩ := mem_walkEntries.mp h
      obtain ⟨rfl, rfl⟩ := Prod.mk.inj he
      exact .under hkv (at_of_mem_entries kvs kv hkv _ _ he')
  | null, ks, m, h | scalar _, ks, m, h | seq _, ks, m, h => by
    simp only [walk, List.mem_singleton, Prod.mk.injEq] at h
    obtain ⟨rfl, rfl⟩ := h
    exact .here _

theorem at_of_mem_entries : ∀ (kvs : List (Yaml × Yaml)) (kv : Yaml × Yaml), kv ∈ kvs →
    ∀ (ks : List (List Char)) (m : Yaml), (ks, m) ∈ kv.2.walk → kv.2.At ks m
  | (k, c) :: kvs, kv, hkv, ks, m, h => by
    by_cases heq : kv = (k, c)
    · subst heq
      exact at_of_mem_walk c ks m h
    · exact at_of_mem_entries kvs kv ((List.mem_cons.mp hkv).resolve_left heq) ks m h

end

/-- The walk has exactly the nodes that keys lead to. -/
theorem mem_walk : (ks, m) ∈ n.walk ↔ n.At ks m :=
  ⟨at_of_mem_walk n ks m, At.mem_walk⟩

/-- The keys that lead to an entry start with its key. -/
theorem head_of_mem_walkEntries {e : List (List Char) × Yaml} (h : e ∈ walkEntries kvs) :
    ∃ k ∈ kvs.map (fun kv => kv.1.text), e.1.head? = some k := by
  obtain ⟨kv, hkv, e', -, rfl⟩ := mem_walkEntries.mp h
  exact ⟨_, List.mem_map_of_mem hkv, rfl⟩

theorem walkEntries_nodup (hd : (kvs.map fun kv => kv.1.text).Nodup)
    (hv : ∀ kv ∈ kvs, (kv.2.walk.map Prod.fst).Nodup) :
    ((walkEntries kvs).map Prod.fst).Nodup := by
  induction kvs with
  | nil => simp [walkEntries]
  | cons kv kvs ih =>
    obtain ⟨k, c⟩ := kv
    simp only [List.map_cons, List.nodup_cons] at hd
    rw [walkEntries, List.map_append, List.nodup_append]
    refine ⟨?_, ih hd.2 fun kv hkv => hv kv (List.mem_cons_of_mem _ hkv), ?_⟩
    · have hmap : (c.walk.map fun e => (k.text :: e.1, e.2)).map Prod.fst =
          (c.walk.map Prod.fst).map (k.text :: ·) := by
        rw [List.map_map, List.map_map]
        rfl
      rw [hmap]
      exact (hv (k, c) List.mem_cons_self).map fun _ _ h => (List.cons.inj h).2
    · intro a ha b hb hab
      obtain ⟨e, he, rfl⟩ := List.mem_map.mp ha
      obtain ⟨e', -, rfl⟩ := List.mem_map.mp he
      obtain ⟨f, hf, rfl⟩ := List.mem_map.mp hb
      obtain ⟨k', hk', hh⟩ := head_of_mem_walkEntries hf
      rw [← hab] at hh
      have hkk : k.text = k' := Option.some.inj hh
      exact hd.1 (hkk ▸ hk')

/-- No keys occur twice in the walk. -/
theorem Keyed.walk_nodup (h : Keyed ok n) : (n.walk.map Prod.fst).Nodup := by
  induction h with
  | leaf n hn =>
    have : n.walk = [([], n)] := by
      cases n with
      | map kvs => exact absurd rfl (hn kvs)
      | null | scalar | seq => simp [walk]
    simp [this]
  | map kvs hd _ _ ih =>
    rw [walk, List.map_cons, List.nodup_cons]
    refine ⟨?_, walkEntries_nodup hd ih⟩
    intro hmem
    obtain ⟨e, he, hnil⟩ := List.mem_map.mp hmem
    obtain ⟨k, -, hh⟩ := head_of_mem_walkEntries he
    simp [hnil] at hh

/-- The keys that lead to a node of the tree meet the condition on keys. -/
theorem Keyed.keys_ok (h : Keyed ok n) (hat : n.At ks m) : ∀ k ∈ ks, ok k := by
  induction hat with
  | here => simp
  | under hkv _ ih =>
    obtain ⟨hk, hv⟩ : _ ∧ _ := by
      cases h with
      | leaf _ hn => exact absurd rfl (hn _)
      | map _ _ hk hv => exact ⟨hk _ hkv, hv _ hkv⟩
    intro k hmem
    rcases List.mem_cons.mp hmem with rfl | hmem
    · exact hk
    · exact ih hv k hmem

theorem walkEntries_sublist {kv : Yaml × Yaml} (h : kv ∈ kvs) :
    (kv.2.walk.map fun e => (kv.1.text :: e.1, e.2)).Sublist (walkEntries kvs) := by
  induction kvs with
  | nil => simp at h
  | cons kv' kvs ih =>
    obtain ⟨k, c⟩ := kv'
    rw [walkEntries]
    rcases List.mem_cons.mp h with rfl | h
    · exact List.sublist_append_left _ _
    · exact (ih h).trans (List.sublist_append_right _ _)

/-- A node stands before the nodes under it. -/
theorem parent_before_child {m' : Yaml} (h : n.At ks m) (h' : m.At ls m') (hls : ls ≠ []) :
    [(ks, m), (ks ++ ls, m')].Sublist n.walk := by
  induction h with
  | here n =>
    cases h' with
    | here => exact absurd rfl hls
    | under hkv hat =>
      rw [walk]
      have hmem := mem_walkEntries.mpr ⟨_, hkv, _, hat.mem_walk, rfl⟩
      exact .cons_cons _ (List.singleton_sublist.mpr hmem)
  | under hkv _ ih =>
    rw [walk]
    exact .cons _ (((ih h').map _).trans (walkEntries_sublist hkv))

/-! ### Trees with other keys -/

section Keys

variable {f : List Char → List Char}

theorem text_mapKey (hf : f [] = []) (k : Yaml) : (mapKey f k).text = f k.text := by
  cases k <;> simp [mapKey, text, hf]

theorem mapEntries_eq (f : List Char → List Char) (kvs : List (Yaml × Yaml)) :
    mapEntries f kvs = kvs.map fun kv => (mapKey f kv.1, mapKeys f kv.2) := by
  induction kvs with
  | nil => rfl
  | cons kv kvs ih =>
    obtain ⟨k, c⟩ := kv
    rw [mapEntries, ih, List.map_cons]

theorem members_mapKeys (f : List Char → List Char) (n : Yaml) :
    (mapKeys f n).members = n.members.map fun kv => (mapKey f kv.1, mapKeys f kv.2) := by
  cases n with
  | map kvs => rw [mapKeys, members, members, mapEntries_eq]
  | null | scalar | seq => simp [mapKeys, members]

theorem Keyed.members_nodup (h : n.Keyed ok) : (n.members.map fun kv => kv.1.text).Nodup := by
  cases h with
  | leaf n hn =>
    cases n with
    | map kvs => exact absurd rfl (hn kvs)
    | null | scalar | seq => exact List.nodup_nil
  | map kvs hd _ _ => exact hd

/-- Only keys are changed, not the other scalars. -/
theorem scalar_of_mapKeys {s : List Char} (h : mapKeys f n = scalar s) : n = scalar s := by
  cases n with
  | scalar => simpa [mapKeys] using h
  | null | seq | map => simp [mapKeys] at h

end Keys

/-! ### Dotted paths -/

/-- The keys joined by dots. -/
def dotted (ks : List (List Char)) : List Char := List.intercalate ['.'] ks

/-- A key that has no dot and is not empty. -/
def PlainKey (k : List Char) : Prop := k ≠ [] ∧ '.' ∉ k

theorem dotted_cons_ne_nil {k : List Char} (h : k ≠ []) : dotted (k :: ks) ≠ [] := by
  cases ks <;> simp [dotted, List.intercalate, List.intersperse, h]

theorem dotted_ne_nil (h : ∀ k ∈ ks, PlainKey k) (hks : ks ≠ []) : dotted ks ≠ [] := by
  cases ks with
  | nil => contradiction
  | cons k ks => exact dotted_cons_ne_nil (h k List.mem_cons_self).1

theorem dotted_cons (k : List Char) (hks : ks ≠ []) : dotted (k :: ks) = k ++ '.' :: dotted ks := by
  cases ks with
  | nil => contradiction
  | cons l ks => simp [dotted, List.intercalate, List.intersperse]

theorem dotted_concat {k : List Char} (hks : ks ≠ []) :
    dotted (ks ++ [k]) = dotted ks ++ '.' :: k := by
  induction ks with
  | nil => contradiction
  | cons l ks ih =>
    by_cases hl : ks = []
    · subst hl
      simp [dotted, List.intercalate, List.intersperse]
    · rw [List.cons_append, dotted_cons _ (by simp), dotted_cons _ hl, ih hl]
      simp

theorem dotted_inj (h : ∀ k ∈ ks, PlainKey k) (h' : ∀ k ∈ ls, PlainKey k)
    (he : dotted ks = dotted ls) : ks = ls := by
  by_cases hks : ks = []
  · subst hks
    by_contra hne
    exact dotted_ne_nil h' (Ne.symm hne) he.symm
  by_cases hls : ls = []
  · subst hls
    exact absurd he (dotted_ne_nil h hks)
  calc
    ks = (dotted ks).splitOn '.' :=
      (List.splitOn_intercalate '.' (fun k hk => (h k hk).2) hks).symm
    _ = (dotted ls).splitOn '.' := by rw [he]
    _ = ls := List.splitOn_intercalate '.' (fun k hk => (h' k hk).2) hls

end Yaml
