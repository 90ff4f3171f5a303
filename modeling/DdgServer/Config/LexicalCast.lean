import Mathlib.Data.Finmap
import Mathlib.Data.Finset.Image
import DdgServer.Lib.Yaml
import DdgServer.Log.Pattern

/-!
# Values and their texts

The specialisations of `LexicalCast` in `ddg/lexicalcast.h`. An exception is `none`. A type `X`
built from `int` and `std::string` by the containers is a code (`CastType`), its values are
`CastType.Val`, and `LexicalCast<X, std::string>` and `LexicalCast<std::string, X>` are `encode` and
`decode`, by recursion on the code as the templates instantiate each other.

What is not in the header is a parameter, `Casts`: the YAML library, `boost::lexical_cast` on `int`,
and the orders in which the containers without a sequence are iterated.
-/

namespace Ddg

section Containers

variable (y : Yaml.Codec) {α : Type}

/-- `LexicalCast<std::string, std::vector<T>>`, also for `list`, `set` and `unordered_set`: the
values in the order in which they are put into the container. -/
def castToItems (cast : Text → Option α) (v : Text) : Option (List α) := do
  let node ← y.load v
  (y.itemTexts node).mapM cast

/-- `LexicalCast<std::vector<T>, std::string>`, also for `list`, `set` and `unordered_set`: the
values in the order of the iteration. -/
def castFromItems (cast : α → Option Text) (v : List α) : Option Text := do
  let nodes ← v.mapM fun i => (cast i).bind y.load
  return y.emit (.seq nodes)

/-- `LexicalCast<std::string, std::unordered_map<std::string, T>>`: the entries that are inserted. -/
def castToEntries (cast : Text → Option α) (v : Text) : Option (List (Text × α)) := do
  let node ← y.load v
  (← node.entries).mapM fun kv => (cast (y.emit kv.2)).map fun x => (kv.1.text, x)

/-- `LexicalCast<std::unordered_map<std::string, T>, std::string>`: the node starts as a sequence. -/
def castFromEntries (cast : α → Option Text) (v : List (Text × α)) : Option Text := do
  let node ← v.foldlM (fun node i => do
    let child ← (cast i.2).bind y.load
    node.forceInsert i.1 child) (Yaml.seq [])
  return y.emit node

end Containers

/-- The types built by nesting containers over `int` and `std::string`. -/
inductive CastType
  | int
  | string
  | vector (t : CastType)
  | list (t : CastType)
  | set (t : CastType)
  | unorderedSet (t : CastType)
  | unorderedMap (t : CastType)

namespace CastType

@[reducible] def Val : CastType → Type
  | int => Int32
  | string => Text
  | vector t | list t => List t.Val
  | set t | unorderedSet t => Finset t.Val
  | unorderedMap t => Finmap fun _ : Text => t.Val

instance decEq : ∀ t : CastType, DecidableEq t.Val
  | int => inferInstanceAs (DecidableEq Int32)
  | string => inferInstanceAs (DecidableEq (List Char))
  | vector t | list t => have := decEq t; inferInstanceAs (DecidableEq (List t.Val))
  | set t | unorderedSet t => have := decEq t; inferInstanceAs (DecidableEq (Finset t.Val))
  | unorderedMap t => have := decEq t; inferInstanceAs (DecidableEq (Finmap fun _ : Text => t.Val))

end CastType

/-- The code that the casts call and that is not in the header. -/
structure Casts where
  yaml : Yaml.Codec
  showInt : Int32 → Text
  readInt : Text → Option Int32
  items : ∀ t : CastType, Finset t.Val → List t.Val
  entries : ∀ t : CastType, (Finmap fun _ : Text => t.Val) → List (Text × t.Val)

/-- `mp.insert(...)` of each entry: a key that is there keeps its value. -/
def insertEntries {α : Type} (l : List (Text × α)) : Finmap fun _ : Text => α :=
  l.foldl (fun m kv => if kv.1 ∈ m then m else m.insert kv.1 kv.2) ∅

namespace Casts

variable (c : Casts)

/-- `LexicalCast<X, std::string>`. -/
def encode : (t : CastType) → t.Val → Option Text
  | .int, v => some (c.showInt v)
  | .string, v => some v
  | .vector t, v | .list t, v => castFromItems c.yaml (encode t) v
  | .set t, v | .unorderedSet t, v => castFromItems c.yaml (encode t) (c.items t v)
  | .unorderedMap t, v => castFromEntries c.yaml (encode t) (c.entries t v)

/-- `LexicalCast<std::string, X>`. -/
def decode : (t : CastType) → Text → Option t.Val
  | .int, s => c.readInt s
  | .string, s => some s
  | .vector t, s | .list t, s => castToItems c.yaml (decode t) s
  | .set t, s | .unorderedSet t, s => (castToItems c.yaml (decode t) s).map List.toFinset
  | .unorderedMap t, s => (castToEntries c.yaml (decode t) s).map insertEntries

/-- What the casts rely on: the YAML library loads what it emits, a decimal number is emitted as it
was loaded, `boost::lexical_cast` inverts itself on `int`, and an iteration visits each element
once. -/
structure Laws : Prop where
  loadsEmitted : c.yaml.LoadsEmitted
  stable_showInt : ∀ z, c.yaml.Stable (c.showInt z)
  readInt_showInt : ∀ z, c.readInt (c.showInt z) = some z
  mem_items : ∀ t s x, x ∈ c.items t s ↔ x ∈ s
  mem_entries : ∀ t m k x, (k, x) ∈ c.entries t m ↔ m.lookup k = some x
  nodup_entries : ∀ t m, ((c.entries t m).map Prod.fst).Nodup

end Casts

end Ddg
