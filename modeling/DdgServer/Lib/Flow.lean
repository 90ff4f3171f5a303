import Mathlib.Data.List.Nodup
import Mathlib.Data.List.TakeWhile
import DdgServer.Lib.Yaml

/-!
# A codec for YAML in flow style

A YAML library that exists: it emits nodes in flow style, scalars plain where that is safe and in
double quotes elsewhere, and loads what it emits. It shows that the assumptions about
`Yaml.Codec` can hold together, and results about the assumptions are tried on it.

* `Yaml.Flow.read_emit`: reading the text of a node gives the node and the text behind it.
* `Yaml.Flow.restyle`: the codec, with some texts emitted, and loaded, in another style;
  `restyle_loadsEmitted`.
-/

namespace Yaml.Flow

/-! ## Scalars -/

/-- The characters of plain scalars. -/
def plainChar (c : Char) : Bool := c.isAlphanum || c == '_' || c == '-' || c == '.' || c == '/'

/-- The plain texts of the null node. -/
def nullWords : List (List Char) := ["null".toList, "Null".toList, "NULL".toList]

/-- A scalar that can be written plain: it starts with a letter, a digit, a slash or a sign before a
digit, and it is not a word for null. -/
def plain : List Char → Bool
  | [] => false
  | c :: s => (c :: s).all plainChar && !(nullWords.contains (c :: s)) &&
      (c.isAlphanum || c == '/' || (c == '-' && s.head?.any (·.isDigit)))

/-- The text of a character between double quotes. -/
def escape (c : Char) : List Char :=
  if c = '"' then ['\\', '"'] else if c = '\\' then ['\\', '\\']
  else if c = '\n' then ['\\', 'n'] else [c]

def emitScalar (s : List Char) : List Char :=
  if plain s then s else '"' :: (s.flatMap escape ++ ['"'])

/-- The text up to the closing quote, and what is behind it. -/
def readQuoted : List Char → Option (List Char × List Char)
  | [] => none
  | '"' :: r => some ([], r)
  | ['\\'] => none
  | '\\' :: c :: r => (readQuoted r).map fun x => ((if c = 'n' then '\n' else c) :: x.1, x.2)
  | c :: r => (readQuoted r).map fun x => (c :: x.1, x.2)

theorem readQuoted_escape (s r : List Char) :
    readQuoted (s.flatMap escape ++ '"' :: r) = some (s, r) := by
  induction s with
  | nil => rfl
  | cons c s ih =>
    rw [List.flatMap_cons, List.append_assoc]
    by_cases h₁ : c = '"'
    · subst h₁
      simp [escape, readQuoted, ih]
    by_cases h₂ : c = '\\'
    · subst h₂
      simp [escape, readQuoted, ih]
    by_cases h₃ : c = '\n'
    · subst h₃
      simp [escape, readQuoted, ih]
    have he : escape c = [c] := by simp [escape, h₁, h₂, h₃]
    rw [he, List.singleton_append, readQuoted.eq_5 _ _ h₁ (by simp [h₂]) (by simp [h₂]), ih]
    rfl

/-! ## Nodes -/

mutual

def emit : Yaml → List Char
  | .null => ['~']
  | .scalar s => emitScalar s
  | .seq xs => '[' :: emitItems xs
  | .map kvs => '{' :: emitPairs kvs

/-- The items of a sequence and the closing bracket. -/
def emitItems : List Yaml → List Char
  | [] => [']']
  | n :: ns => emit n ++ ',' :: ' ' :: emitItems ns

def emitPairs : List (Yaml × Yaml) → List Char
  | [] => ['}']
  | (k, v) :: kvs => emit k ++ ':' :: ' ' :: (emit v ++ ',' :: ' ' :: emitPairs kvs)

end

mutual

/-- The node at the beginning of a text, and the text behind it. -/
def read : ℕ → List Char → Option (Yaml × List Char)
  | _, [] => none
  | 0, _ => none
  | fuel + 1, c :: r =>
    if c = '~' then some (.null, r)
    else if c = '"' then (readQuoted r).map fun x => (.scalar x.1, x.2)
    else if c = '[' then (readItems fuel r).map fun x => (.seq x.1, x.2)
    else if c = '{' then (readPairs fuel r).map fun x => (.map x.1, x.2)
    else
      let w := (c :: r).takeWhile plainChar
      if nullWords.contains w then some (.null, (c :: r).dropWhile plainChar)
      else if plain w then some (.scalar w, (c :: r).dropWhile plainChar)
      else none

/-- The items of a sequence; the last one may stand right before the bracket. -/
def readItems : ℕ → List Char → Option (List Yaml × List Char)
  | 0, _ => none
  | fuel + 1, p =>
    if p.head? = some ']' then some ([], p.tail)
    else
      match read fuel p with
      | some (n, ',' :: ' ' :: r) => (readItems fuel r).map fun x => (n :: x.1, x.2)
      | some (n, ']' :: r) => some ([n], r)
      | _ => none

def readPairs : ℕ → List Char → Option (List (Yaml × Yaml) × List Char)
  | 0, _ => none
  | fuel + 1, p =>
    if p.head? = some '}' then some ([], p.tail)
    else
      match read fuel p with
      | some (k, ':' :: ' ' :: r) =>
        match read fuel r with
        | some (v, ',' :: ' ' :: r) => (readPairs fuel r).map fun x => ((k, v) :: x.1, x.2)
        | some (v, '}' :: r) => some ([(k, v)], r)
        | _ => none
      | _ => none

end

mutual

/-- A fuel that is enough to read the text of a node. -/
def depth : Yaml → ℕ
  | .null | .scalar _ => 1
  | .seq xs => depthItems xs + 1
  | .map kvs => depthPairs kvs + 1

def depthItems : List Yaml → ℕ
  | [] => 1
  | n :: ns => depth n + depthItems ns + 1

def depthPairs : List (Yaml × Yaml) → ℕ
  | [] => 1
  | (k, v) :: kvs => depth k + depth v + depthPairs kvs + 1

end

/-- A text behind a node: it does not continue a plain scalar. -/
def Ends (r : List Char) : Prop := ∀ c ∈ r.head?, plainChar c = false

theorem takeWhile_plain {s r : List Char} (hs : s.all plainChar) (hr : Ends r) :
    (s ++ r).takeWhile plainChar = s ∧ (s ++ r).dropWhile plainChar = r := by
  have hs' : ∀ c ∈ s, plainChar c := List.all_eq_true.mp hs
  rw [List.takeWhile_append_of_pos hs', List.dropWhile_append_of_pos hs']
  cases r with
  | nil => simp
  | cons c r =>
    have hc := hr c rfl
    simp [hc]

theorem read_scalar {s r : List Char} (hr : Ends r) (fuel : ℕ) :
    read (fuel + 1) (emitScalar s ++ r) = some (.scalar s, r) := by
  unfold emitScalar
  by_cases hp : plain s
  · rw [if_pos hp]
    cases s with
    | nil => cases hp
    | cons c s =>
      have hp' := hp
      unfold plain at hp'
      simp only [Bool.and_eq_true, Bool.not_eq_true'] at hp'
      obtain ⟨⟨hall, hnull⟩, -⟩ := hp'
      have hc : plainChar c := List.all_eq_true.mp hall c (by simp)
      have hne : ∀ d : Char, plainChar d = false → c ≠ d := by
        rintro d hd rfl
        rw [hc] at hd
        cases hd
      obtain ⟨ht, hdrop⟩ := takeWhile_plain hall hr
      rw [List.cons_append, read, if_neg (hne _ (by decide)), if_neg (hne _ (by decide)),
        if_neg (hne _ (by decide)), if_neg (hne _ (by decide))]
      simp only
      rw [← List.cons_append, ht, hdrop, if_neg (by rw [hnull]; exact Bool.false_ne_true), if_pos hp]
  · rw [if_neg hp, List.cons_append, List.append_assoc, List.singleton_append, read,
      if_neg (by decide), if_pos rfl, readQuoted_escape]
    rfl

theorem emit_head (n : Yaml) (r : List Char) :
    (emit n ++ r).head? ≠ some ']' ∧ (emit n ++ r).head? ≠ some '}' := by
  cases n with
  | null => exact ⟨by simp [emit], by simp [emit]⟩
  | seq => exact ⟨by simp [emit], by simp [emit]⟩
  | map => exact ⟨by simp [emit], by simp [emit]⟩
  | scalar s =>
    unfold emit emitScalar
    by_cases hp : plain s
    · rw [if_pos hp]
      cases s with
      | nil => cases hp
      | cons c s =>
        have hc : plainChar c := by
          unfold plain at hp
          simp only [Bool.and_eq_true] at hp
          exact List.all_eq_true.mp hp.1.1 c (by simp)
        refine ⟨?_, ?_⟩
        · rintro h
          obtain rfl : c = ']' := by simpa using h
          exact absurd hc (by decide)
        · rintro h
          obtain rfl : c = '}' := by simpa using h
          exact absurd hc (by decide)
    · rw [if_neg hp]
      exact ⟨by simp, by simp⟩

mutual

/-- Reading the text of a node gives the node. -/
theorem read_emit : ∀ (n : Yaml) {fuel : ℕ} {r : List Char}, depth n ≤ fuel → Ends r →
    read fuel (emit n ++ r) = some (n, r)
  | .null, fuel, r, hf, _ => by
    obtain ⟨fuel, rfl⟩ : ∃ k, fuel = k + 1 := ⟨fuel - 1, by simp [depth] at hf; omega⟩
    simp [emit, read]
  | .scalar s, fuel, r, hf, hr => by
    obtain ⟨fuel, rfl⟩ : ∃ k, fuel = k + 1 := ⟨fuel - 1, by simp [depth] at hf; omega⟩
    exact read_scalar hr fuel
  | .seq xs, fuel, r, hf, _ => by
    obtain ⟨fuel, rfl⟩ : ∃ k, fuel = k + 1 := ⟨fuel - 1, by simp [depth] at hf; omega⟩
    rw [emit, List.cons_append, read, if_neg (by decide), if_neg (by decide), if_pos rfl,
      readItems_emit xs (by simp [depth] at hf; omega)]
    rfl
  | .map kvs, fuel, r, hf, _ => by
    obtain ⟨fuel, rfl⟩ : ∃ k, fuel = k + 1 := ⟨fuel - 1, by simp [depth] at hf; omega⟩
    rw [emit, List.cons_append, read, if_neg (by decide), if_neg (by decide), if_neg (by decide),
      if_pos rfl, readPairs_emit kvs (by simp [depth] at hf; omega)]
    rfl

theorem readItems_emit : ∀ (xs : List Yaml) {fuel : ℕ} {r : List Char}, depthItems xs ≤ fuel →
    readItems fuel (emitItems xs ++ r) = some (xs, r)
  | [], fuel, r, hf => by
    obtain ⟨fuel, rfl⟩ : ∃ k, fuel = k + 1 := ⟨fuel - 1, by simp [depthItems] at hf; omega⟩
    simp [emitItems, readItems]
  | n :: ns, fuel, r, hf => by
    obtain ⟨fuel, rfl⟩ : ∃ k, fuel = k + 1 := ⟨fuel - 1, by simp [depthItems] at hf; omega⟩
    rw [depthItems] at hf
    rw [emitItems, List.append_assoc, readItems, if_neg (emit_head n _).1,
      read_emit n (by omega) (by simp [Ends]; decide)]
    simp only [List.cons_append]
    rw [readItems_emit ns (by omega)]
    rfl

theorem readPairs_emit : ∀ (kvs : List (Yaml × Yaml)) {fuel : ℕ} {r : List Char},
    depthPairs kvs ≤ fuel → readPairs fuel (emitPairs kvs ++ r) = some (kvs, r)
  | [], fuel, r, hf => by
    obtain ⟨fuel, rfl⟩ : ∃ k, fuel = k + 1 := ⟨fuel - 1, by simp [depthPairs] at hf; omega⟩
    simp [emitPairs, readPairs]
  | (k, v) :: kvs, fuel, r, hf => by
    obtain ⟨fuel, rfl⟩ : ∃ k, fuel = k + 1 := ⟨fuel - 1, by simp [depthPairs] at hf; omega⟩
    rw [depthPairs] at hf
    rw [emitPairs, List.append_assoc, readPairs, if_neg (emit_head k _).2,
      read_emit k (by omega) (by simp [Ends]; decide)]
    simp only [List.cons_append, List.append_assoc]
    rw [read_emit v (by omega) (by simp [Ends]; decide)]
    simp only
    rw [readPairs_emit kvs (by omega)]
    rfl

end

mutual

/-- The length of a text is enough fuel to read it. -/
theorem depth_le : ∀ n : Yaml, depth n ≤ (emit n).length
  | .null => by simp [depth, emit]
  | .scalar s => by
    unfold depth emit emitScalar
    cases s with
    | nil => simp [plain]
    | cons => split <;> simp
  | .seq xs => by
    have := depthItems_le xs
    simp only [depth, emit, List.length_cons]
    omega
  | .map kvs => by
    have := depthPairs_le kvs
    simp only [depth, emit, List.length_cons]
    omega

theorem depthItems_le : ∀ xs : List Yaml, depthItems xs ≤ (emitItems xs).length
  | [] => by simp [depthItems, emitItems]
  | n :: ns => by
    have := depth_le n
    have := depthItems_le ns
    simp only [depthItems, emitItems, List.length_append, List.length_cons]
    omega

theorem depthPairs_le : ∀ kvs : List (Yaml × Yaml), depthPairs kvs ≤ (emitPairs kvs).length
  | [] => by simp [depthPairs, emitPairs]
  | (k, v) :: kvs => by
    have := depth_le k
    have := depth_le v
    have := depthPairs_le kvs
    simp only [depthPairs, emitPairs, List.length_append, List.length_cons]
    omega

end

/-! ## The codec -/

/-- The node of a whole text; the empty text is the null node. -/
def load (t : List Char) : Option Yaml :=
  if t = [] then some .null
  else
    match read t.length t with
    | some (n, []) => some n
    | _ => none

theorem load_emit (n : Yaml) : load (emit n) = some n := by
  have hne : emit n ≠ [] := by
    have := depth_le n
    intro h
    rw [h] at this
    cases n <;> simp [depth] at this
  have := read_emit n (r := []) (depth_le n) (by simp [Ends])
  rw [List.append_nil] at this
  rw [load, if_neg hne, this]

/-- The number that a run of digits denotes. -/
def asIndex (s : List Char) : Option ℕ :=
  if s ≠ [] ∧ s.all (·.isDigit) then some (Nat.ofDigitChars 10 s 0) else none

/-- The codec with some texts in another style: `styles` pairs a flow text with the text that is
emitted in its place. -/
def restyle (styles : List (List Char × List Char)) : Codec where
  load t := load (((styles.find? fun x => x.2 == t).map (·.1)).getD t)
  emit n := ((styles.find? fun x => x.1 == emit n).map (·.2)).getD (emit n)
  asIndex := asIndex

/-- The other texts are different from each other and are not flow texts. -/
def Styles (styles : List (List Char × List Char)) : Prop :=
  (styles.map (·.2)).Nodup ∧ ∀ x ∈ styles, (load x.2).isNone

instance (styles : List (List Char × List Char)) : Decidable (Styles styles) :=
  inferInstanceAs (Decidable ((styles.map (·.2)).Nodup ∧ ∀ x ∈ styles, (load x.2).isNone))

theorem restyle_loadsEmitted {styles : List (List Char × List Char)} (h : Styles styles) :
    (restyle styles).LoadsEmitted := by
  intro n
  change load (((styles.find? fun x => x.2 == (restyle styles).emit n).map (·.1)).getD
    ((restyle styles).emit n)) = some n
  cases he : styles.find? fun x => x.1 == emit n with
  | none =>
    have hn : (restyle styles).emit n = emit n := by simp only [restyle, he]; rfl
    cases hl : styles.find? fun x => x.2 == emit n with
    | none =>
      rw [hn, hl]
      exact load_emit n
    | some x =>
      have hx : x.2 = emit n := by simpa using List.find?_some hl
      have := h.2 x (List.mem_of_find?_eq_some hl)
      rw [hx, load_emit] at this
      cases this
  | some x =>
    have hx : x.1 = emit n := by simpa using List.find?_some he
    have hn : (restyle styles).emit n = x.2 := by simp only [restyle, he]; rfl
    have hmem := List.mem_of_find?_eq_some he
    cases hl : styles.find? fun z => z.2 == x.2 with
    | none =>
      have := List.find?_eq_none.mp hl x hmem
      simp at this
    | some z =>
      have hz : z.2 = x.2 := by simpa using List.find?_some hl
      have hzx : z = x :=
        List.inj_on_of_nodup_map h.1 (List.mem_of_find?_eq_some hl) hmem hz
      rw [hn, hl, hzx]
      change load x.1 = some n
      rw [hx]
      exact load_emit n

/-- A plain scalar that is in none of the other styles is stable. -/
theorem restyle_stable {styles : List (List Char × List Char)} {s : List Char} (hp : plain s)
    (hs : ∀ x ∈ styles, x.1 ≠ s ∧ x.2 ≠ s) : (restyle styles).Stable s := by
  have hn : (styles.find? fun x => x.1 == s) = none :=
    List.find?_eq_none.mpr fun x hx => by simpa using (hs x hx).1
  have hl : (styles.find? fun x => x.2 == s) = none :=
    List.find?_eq_none.mpr fun x hx => by simpa using (hs x hx).2
  have he : emit (.scalar s) = s := by rw [emit, emitScalar, if_pos hp]
  have hload : load s = some (.scalar s) := by
    have := load_emit (.scalar s)
    rwa [he] at this
  unfold Codec.Stable Codec.reload restyle
  simp only [hl, Option.map_none, Option.getD_none, hload, Option.map_some, he, hn]

theorem plainChar_of_isDigit {c : Char} (h : c.isDigit) : plainChar c := by
  simp [plainChar, Char.isAlphanum, h]

theorem plain_digits {s : List Char} (hs : s ≠ []) (h : ∀ c ∈ s, c.isDigit) : plain s := by
  obtain ⟨c, s, rfl⟩ := List.exists_cons_of_ne_nil hs
  have hc : c.isDigit := h c (by simp)
  have hnull : nullWords.contains (c :: s) = false := by
    rw [Bool.eq_false_iff]
    intro hm
    simp only [nullWords, List.contains_eq_mem, decide_eq_true_eq] at hm
    have : c = 'n' ∨ c = 'N' := by
      have : (c :: s).head? ∈ ["null".toList, "Null".toList, "NULL".toList].map List.head? :=
        List.mem_map_of_mem hm
      simpa using this
    rcases this with rfl | rfl <;> exact absurd hc (by decide)
  have hall : (c :: s).all plainChar :=
    List.all_eq_true.mpr fun d hd => plainChar_of_isDigit (h d hd)
  rw [plain, hall, hnull]
  simp [Char.isAlphanum, hc]

theorem plain_neg {s : List Char} (hs : s ≠ []) (h : ∀ c ∈ s, c.isDigit) : plain ('-' :: s) := by
  obtain ⟨c, s, rfl⟩ := List.exists_cons_of_ne_nil hs
  have hc : c.isDigit := h c (by simp)
  have hall : ('-' :: c :: s).all plainChar := by
    refine List.all_eq_true.mpr fun d hd => ?_
    rcases List.mem_cons.mp hd with rfl | hd
    · decide
    · exact plainChar_of_isDigit (h d hd)
  have hnull : nullWords.contains ('-' :: c :: s) = false := by
    simp [nullWords]
  rw [plain, hall, hnull]
  simp [hc]

example : (restyle []).emit (.map [(.scalar "port".toList, .seq [.scalar "8080".toList, .null])]) =
    "{port: [8080, ~, ], }".toList := by decide

end Yaml.Flow
